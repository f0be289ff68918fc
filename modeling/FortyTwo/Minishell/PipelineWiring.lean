import FortyTwo.Minishell.DescriptorDiscipline

/-!
What the commands of a pipeline read from and write to. The files of the last
redirection that was opened stay in `temp_in` and `temp_out`, and are closed in the next
round as if they were old: a command gets what its line says exactly where no stage
redirects both its input and its output.
-/

namespace FortyTwo.Minishell

open Foundation DescriptorTable

/-- The descriptors when the command of a stage starts. -/
def atCommand (outcomes : Outcomes) (cmdandfile : Token) (inFd : Option Nat) (outFd : Nat)
    (s : Shell) : Shell :=
  let (exec, s) := createOriginalFds s
  let (exec, s) := wireFiles outcomes exec s cmdandfile.redirection
  handleInputOutput exec inFd outFd s

/-- Standard input and output of the commands that the loop of `command_processor`
starts, by their open files. -/
def connectionsFrom (outcomes : Outcomes) (prevFd : Option Nat) (s : Shell) :
    List Token → List (Option Nat × Option Nat)
  | [] => []
  | [cmdandfile] =>
      let c := atCommand outcomes cmdandfile prevFd 1 s
      [(c.file 0, c.file 1)]
  | cmdandfile :: next :: rest =>
      let (reading, writing, s) := s.pipe
      let c := atCommand outcomes cmdandfile prevFd writing s
      (c.file 0, c.file 1) ::
        match executor outcomes cmdandfile prevFd writing s with
        | none => []
        | some s =>
            connectionsFrom outcomes (some reading) (closeIfOpen prevFd (s.close writing))
              (next :: rest)

def connections (outcomes : Outcomes) (s : Shell) (cmdandfile : List Token) :
    List (Option Nat × Option Nat) :=
  connectionsFrom outcomes none s cmdandfile

section Line

/-- The redirection is one of the input. -/
def Redirection.reads (r : Redirection) : Bool :=
  match r.type with
  | .redirectionIn | .heredoc => true
  | .redirectionOut | .append => false

/-- How many files are opened for the redirection; a here-document is written first. -/
def Redirection.files (r : Redirection) : Nat :=
  match r.type with
  | .heredoc => 2
  | _ => 1

def filesOf (redirection : List Redirection) : Nat := (redirection.map Redirection.files).sum

/-- The open files that a stage asks for, when `created` have been opened before: the
last of its redirections, and else what it is given. -/
def asked (created : Nat) (given : Option Nat × Option Nat) :
    List Redirection → Option Nat × Option Nat
  | [] => given
  | r :: rest =>
      let newest := some (created + r.files - 1)
      asked (created + r.files) (if r.reads then (newest, given.2) else (given.1, newest)) rest

/-- The same for the stages of a pipeline, with a pipe between two of them. -/
def askedByAll (created : Nat) (stdin stdout : Option Nat) :
    List Token → List (Option Nat × Option Nat)
  | [] => []
  | [token] => [asked created (stdin, stdout) token.redirection]
  | token :: next :: rest =>
      asked (created + 2) (stdin, some (created + 1)) token.redirection ::
        askedByAll (created + 2 + filesOf token.redirection) (some created) stdout (next :: rest)

/-- All redirections are of the input, or all of the output. -/
def OneWay (redirection : List Redirection) : Prop :=
  (∀ r ∈ redirection, r.reads = true) ∨ ∀ r ∈ redirection, r.reads = false

theorem asked_concat (created : Nat) (given : Option Nat × Option Nat) (l : List Redirection)
    (r : Redirection) :
    asked created given (l ++ [r]) =
      let newest := some (created + filesOf l + r.files - 1)
      if r.reads then (newest, (asked created given l).2) else ((asked created given l).1, newest) := by
  induction l generalizing created given with
  | nil => simp [asked, filesOf]
  | cons first l ih =>
      rw [List.cons_append, asked, ih, asked]
      simp [filesOf, Nat.add_assoc]

/-- What is asked for is new, if there is a redirection for it. -/
theorem asked_new {created : Nat} {given : Option Nat × Option Nat} {l : List Redirection} :
    ((∃ r ∈ l, r.reads = true) → ∃ k, (asked created given l).1 = some k ∧ created ≤ k) ∧
      ((∃ r ∈ l, r.reads = false) → ∃ k, (asked created given l).2 = some k ∧ created ≤ k) := by
  induction l using List.reverseRecOn with
  | nil => simp
  | append_singleton l r ih =>
      rw [asked_concat]
      have hpos : 0 < r.files := by
        unfold Redirection.files
        split
        · decide
        · decide
      by_cases hr : r.reads = true
      · simp only [hr, if_true]
        refine ⟨fun _ => ⟨_, rfl, by omega⟩, ?_⟩
        rintro ⟨other, hother, hwrites⟩
        rcases List.mem_append.mp hother with hold | hnew
        · exact ih.2 ⟨other, hold, hwrites⟩
        · rw [List.mem_singleton.mp hnew, hr] at hwrites
          cases hwrites
      · simp only [hr, Bool.false_eq_true, if_false]
        refine ⟨?_, fun _ => ⟨_, rfl, by omega⟩⟩
        rintro ⟨other, hother, hreads⟩
        rcases List.mem_append.mp hother with hold | hnew
        · exact ih.1 ⟨other, hold, hreads⟩
        · rw [List.mem_singleton.mp hnew] at hreads
          exact absurd hreads hr

end Line

section Rounds

variable {outcomes : Outcomes} (hopens : ∀ n, outcomes.opens n = true)

/-- The descriptor of a redirection whose file can be opened. -/
def newFile (r : Redirection) (s : Shell) : Nat × Shell :=
  match r.type with
  | .heredoc =>
      let (fd, s) := { s with opened := s.opened + 1 }.create
      let s := s.close fd
      { s with opened := s.opened + 1 }.create
  | _ => { s with opened := s.opened + 1 }.create

theorem file_create_self (s : Shell) : s.create.2.file s.create.1 = some s.created := by
  rw [Shell.create, Shell.file, file_assign, if_pos rfl]

theorem newFile_spec (r : Redirection) (s : Shell) :
    s.file (newFile r s).1 = none ∧
      (newFile r s).2.file (newFile r s).1 = some (s.created + r.files - 1) ∧
      (∀ fd, fd ≠ (newFile r s).1 → (newFile r s).2.file fd = s.file fd) ∧
      (newFile r s).2.created = s.created + r.files := by
  have hcreate : ∀ s : Shell,
      s.file { s with opened := s.opened + 1 }.create.1 = none ∧
        { s with opened := s.opened + 1 }.create.2.file
          { s with opened := s.opened + 1 }.create.1 = some s.created ∧
        (∀ fd, fd ≠ { s with opened := s.opened + 1 }.create.1 →
          { s with opened := s.opened + 1 }.create.2.file fd = s.file fd) ∧
        { s with opened := s.opened + 1 }.create.2.created = s.created + 1 := by
    intro s
    obtain ⟨hfree, -, hothers⟩ := file_create { s with opened := s.opened + 1 }
    exact ⟨hfree, file_create_self _, hothers, rfl⟩
  unfold newFile Redirection.files
  split
  · obtain ⟨hfree, -, hothers, -⟩ := hcreate s
    set written := ({ s with opened := s.opened + 1 }.create.2).close
      { s with opened := s.opened + 1 }.create.1 with hwritten
    have hsame : ∀ fd, written.file fd = s.file fd := by
      intro fd
      rw [hwritten, file_close]
      split
      · next heq => rw [heq, hfree]
      · next hne => exact hothers fd hne
    obtain ⟨hagain, hself, hothers', -⟩ := hcreate written
    refine ⟨(hsame _).symm.trans hagain, hself, fun fd hfd => (hothers' fd hfd).trans (hsame fd), rfl⟩
  · exact hcreate s

def closeLarge (fd : Nat) (s : Shell) : Shell := if fd > 1 then s.close fd else s

/-- A round of `wire_files`, when all files could be opened so far. -/
def wireRound (w : Execution × Shell) (r : Redirection) : Execution × Shell :=
  let (fd, s) := newFile r w.2
  (if r.reads then { w.1 with inFd := fd } else { w.1 with outFd := fd },
    closeLarge w.1.outFd (closeLarge w.1.inFd s))

include hopens in
theorem wireFilesFrom_eq (exec : Execution) (s : Shell) (l : List Redirection) :
    wireFilesFrom outcomes (some exec.inFd) (some exec.outFd) exec s l =
      l.foldl wireRound (exec, s) := by
  induction l generalizing exec s with
  | nil => rfl
  | cons r l ih =>
      rw [List.foldl_cons, ← ih]
      obtain ⟨fileName, type⟩ := r
      cases type with
      | redirectionIn =>
          simp [wireFilesFrom, Shell.openFile, hopens, wireRound, newFile, assignAndClose,
            closeLarge, Redirection.reads]
      | redirectionOut =>
          simp [wireFilesFrom, Shell.openFile, hopens, wireRound, newFile, assignAndClose,
            closeLarge, Redirection.reads]
      | append =>
          simp [wireFilesFrom, Shell.openFile, hopens, wireRound, newFile, assignAndClose,
            closeLarge, Redirection.reads]
      | heredoc =>
          simp [wireFilesFrom, heredoc, Shell.openFile, hopens, wireRound, newFile,
            assignAndClose, closeLarge, Redirection.reads]

theorem file_closeLarge_of_ne {s : Shell} {fd n : Nat} (h : n ≤ 1 ∨ fd ≠ n) :
    (closeLarge n s).file fd = s.file fd := by
  unfold closeLarge
  split
  · next hlarge => exact file_close_of_ne s fd (h.resolve_left (by omega))
  · rfl

theorem file_closeLarge_self {s : Shell} {n : Nat} (h : 1 < n) : (closeLarge n s).file n = none := by
  rw [closeLarge, if_pos h]
  exact file_close_self s n

theorem file_closeLarge_closed {s : Shell} {fd : Nat} (n : Nat) (h : s.file fd = none) :
    (closeLarge n s).file fd = none := by
  unfold closeLarge
  split
  · rw [file_close, h, ite_self]
  · exact h

theorem created_closeLarge (n : Nat) (s : Shell) : (closeLarge n s).created = s.created := by
  unfold closeLarge
  split
  · rfl
  · rfl

/-- `wire_files` behind the redirections `l`, when all files can be opened. -/
def wired (exec : Execution) (base : Shell) (l : List Redirection) : Execution × Shell :=
  l.foldl wireRound (exec, base)

theorem wired_concat (exec : Execution) (base : Shell) (l : List Redirection) (r : Redirection) :
    wired exec base (l ++ [r]) = wireRound (wired exec base l) r := by
  rw [wired, List.foldl_concat]
  rfl

section Wired

variable {exec : Execution} {base : Shell} (hstandard : base.HasStandard) (hin : exec.inFd = 0)
  (hout : exec.outFd = 1)
include hin hout

include hopens in
theorem wireFiles_eq_wired (s : Shell) (l : List Redirection) :
    wireFiles outcomes exec s l = wired exec s l := by
  have hall := wireFilesFrom_eq hopens exec s l
  rw [hin, hout] at hall
  exact hall

include hstandard

theorem wired_wiring (l : List Redirection) :
    ∃ tempIn tempOut, Wiring base (wired exec base l).2 (wired exec base l).1 tempIn tempOut := by
  rw [← @wireFiles_eq_wired ⟨fun _ => true, fun _ => true⟩ (fun _ => rfl) exec hin hout]
  exact (wireFiles_wiring hstandard _ hin hout l).1

theorem wired_standard (l : List Redirection) : (wired exec base l).2.HasStandard := by
  obtain ⟨tempIn, tempOut, hwiring⟩ := wired_wiring hstandard hin hout l
  intro fd hfd
  rw [hwiring.wired.keeps fd (hstandard fd hfd)]
  exact hstandard fd hfd

/-- Which of its two descriptors a stage has changed. -/
structure Changed (l : List Redirection) (exec : Execution) : Prop where
  inSame : (∀ r ∈ l, r.reads = false) → exec.inFd = 0
  inNew : (∃ r ∈ l, r.reads = true) → 1 < exec.inFd
  outSame : (∀ r ∈ l, r.reads = true) → exec.outFd = 1
  outNew : (∃ r ∈ l, r.reads = false) → 1 < exec.outFd

theorem wired_changed (l : List Redirection) : Changed l (wired exec base l).1 := by
  induction l using List.reverseRecOn with
  | nil => exact ⟨fun _ => hin, by simp, fun _ => hout, by simp⟩
  | append_singleton l r ih =>
      have hlarge : 1 < (newFile r (wired exec base l).2).1 := by
        by_contra hsmall
        exact wired_standard hstandard hin hout l _ (not_lt.mp hsmall) (newFile_spec r _).1
      rw [wired_concat, wireRound]
      simp only
      cases hr : r.reads with
      | true =>
          rw [if_pos rfl]
          refine ⟨fun hall => ?_, fun _ => hlarge, fun hall => ih.outSame ?_, fun hex => ?_⟩
          · exact absurd (hall r (by simp)) (by simp [hr])
          · exact fun other hother => hall other (List.mem_append_left _ hother)
          · obtain ⟨other, hother, hwrites⟩ := hex
            rcases List.mem_append.mp hother with hold | hnew
            · exact ih.outNew ⟨other, hold, hwrites⟩
            · rw [List.mem_singleton.mp hnew, hr] at hwrites
              cases hwrites
      | false =>
          rw [if_neg (by decide)]
          refine ⟨fun hall => ih.inSame ?_, fun hex => ?_, fun hall => ?_, fun _ => hlarge⟩
          · exact fun other hother => hall other (List.mem_append_left _ hother)
          · obtain ⟨other, hother, hreads⟩ := hex
            rcases List.mem_append.mp hother with hold | hnew
            · exact ih.inNew ⟨other, hold, hreads⟩
            · rw [List.mem_singleton.mp hnew, hr] at hreads
              cases hreads
          · exact absurd (hall r (by simp)) (by simp [hr])

omit hstandard hin hout in
theorem wired_created (l : List Redirection) :
    (wired exec base l).2.created = base.created + filesOf l := by
  induction l using List.reverseRecOn with
  | nil => rfl
  | append_singleton l r ih =>
      rw [wired_concat, wireRound]
      simp only
      rw [created_closeLarge, created_closeLarge, (newFile_spec r _).2.2.2, ih]
      simp [filesOf, Nat.add_assoc]

/-- The descriptor of the last redirection is open, where the round before it has
left nothing to close. -/
theorem wired_reads {l : List Redirection} (given : Option Nat × Option Nat)
    (hreads : ∀ r ∈ l, r.reads = true) (hne : l ≠ []) :
    (wired exec base l).2.file (wired exec base l).1.inFd = (asked base.created given l).1 ∧
      (asked base.created given l).1 ≠ none := by
  induction l using List.reverseRecOn with
  | nil => exact absurd rfl hne
  | append_singleton l r ih =>
      have hold : ∀ other ∈ l, other.reads = true :=
        fun other hother => hreads other (List.mem_append_left _ hother)
      have hr : r.reads = true := hreads r (by simp)
      obtain ⟨hfree, hnew, -, -⟩ := newFile_spec r (wired exec base l).2
      have hchanged := wired_changed hstandard hin hout l
      have hkept : (wired exec base l).1.inFd ≤ 1 ∨
          (newFile r (wired exec base l).2).1 ≠ (wired exec base l).1.inFd := by
        by_cases hl : l = []
        · subst hl
          exact Or.inl (by rw [hchanged.inSame (by simp)]; decide)
        · obtain ⟨hfile, hsome⟩ := ih hold hl
          refine Or.inr fun heq => hsome ?_
          rw [← hfile, ← heq, hfree]
      rw [wired_concat, wireRound, asked_concat]
      simp only [hr, if_true]
      rw [file_closeLarge_of_ne (Or.inl (hchanged.outSame hold).le), file_closeLarge_of_ne hkept,
        hnew, wired_created]
      exact ⟨rfl, by simp⟩

theorem wired_writes {l : List Redirection} (given : Option Nat × Option Nat)
    (hwrites : ∀ r ∈ l, r.reads = false) (hne : l ≠ []) :
    (wired exec base l).2.file (wired exec base l).1.outFd = (asked base.created given l).2 ∧
      (asked base.created given l).2 ≠ none := by
  induction l using List.reverseRecOn with
  | nil => exact absurd rfl hne
  | append_singleton l r ih =>
      have hold : ∀ other ∈ l, other.reads = false :=
        fun other hother => hwrites other (List.mem_append_left _ hother)
      have hr : r.reads = false := hwrites r (by simp)
      obtain ⟨hfree, hnew, -, -⟩ := newFile_spec r (wired exec base l).2
      have hchanged := wired_changed hstandard hin hout l
      have hkept : (wired exec base l).1.outFd ≤ 1 ∨
          (newFile r (wired exec base l).2).1 ≠ (wired exec base l).1.outFd := by
        by_cases hl : l = []
        · subst hl
          exact Or.inl (hchanged.outSame (by simp)).le
        · obtain ⟨hfile, hsome⟩ := ih hold hl
          refine Or.inr fun heq => hsome ?_
          rw [← hfile, ← heq, hfree]
      have hsmall : (wired exec base l).1.inFd ≤ 1 := by
        rw [hchanged.inSame hold]
        exact Nat.zero_le 1
      rw [wired_concat, wireRound, asked_concat]
      simp only [hr, Bool.false_eq_true, if_false]
      rw [file_closeLarge_of_ne hkept, file_closeLarge_of_ne (Or.inl hsmall), hnew, wired_created]
      exact ⟨rfl, by simp⟩

/-- The last of redirections in both directions closes what another has opened. -/
theorem wired_bothWays {l : List Redirection} (hreads : ∃ r ∈ l, r.reads = true)
    (hwrites : ∃ r ∈ l, r.reads = false) :
    ((wired exec base l).1.inFd ≠ 0 ∧
        (wired exec base l).2.file (wired exec base l).1.inFd = none) ∨
      (wired exec base l).1.outFd ≠ 1 ∧
        (wired exec base l).2.file (wired exec base l).1.outFd = none := by
  obtain ⟨before, last, rfl⟩ : ∃ before last, l = before ++ [last] :=
    (List.eq_nil_or_concat' l).resolve_left (by rintro rfl; simp at hreads)
  have hchanged := wired_changed hstandard hin hout before
  have hearlier : ∀ {kind : Bool}, last.reads ≠ kind → (∃ r ∈ before ++ [last], r.reads = kind) →
      ∃ r ∈ before, r.reads = kind := by
    rintro kind hne ⟨r, hr, hkind⟩
    rcases List.mem_append.mp hr with hold | hnew
    · exact ⟨r, hold, hkind⟩
    · exact absurd (List.mem_singleton.mp hnew ▸ hkind) hne
  rw [wired_concat, wireRound]
  simp only
  cases hlast : last.reads with
  | true =>
      have hlarge := hchanged.outNew (hearlier (by simp [hlast]) hwrites)
      right
      rw [if_pos rfl]
      exact ⟨by simp only; omega, file_closeLarge_self hlarge⟩
  | false =>
      have hlarge := hchanged.inNew (hearlier (by simp [hlast]) hreads)
      left
      rw [if_neg (by decide)]
      exact ⟨by simp only; omega, file_closeLarge_closed _ (file_closeLarge_self hlarge)⟩

end Wired

end Rounds

section Stage

theorem file_move_self (s : Shell) {fd target : Nat} (h : fd ≠ target) :
    (s.move (some fd) target).file target = (s.file fd).or (s.file target) := by
  rw [Shell.move, file_close_of_ne _ target h.symm]
  cases hfile : s.file fd with
  | none =>
      rw [Shell.dup2, dup2_of_closed s.table hfile]
      rfl
  | some f =>
      rw [file_dup2_self s target (by rw [hfile]; simp), hfile]
      rfl

/-- A source or sink that is not open leaves the descriptor as it was. -/
theorem file_moves (w : Shell) {source sink : Option Nat} (hsource : ∀ fd, source = some fd → 1 < fd)
    (hsink : ∀ fd, sink = some fd → 1 < fd) :
    ((w.move source 0).move sink 1).file 0 = (source.bind w.file).or (w.file 0) ∧
      ((w.move source 0).move sink 1).file 1 =
        (if source = sink then none else sink.bind w.file).or (w.file 1) := by
  have hzero : sink ≠ some 0 := fun h => absurd (hsink 0 h) (by decide)
  have hone : source ≠ some 1 := fun h => absurd (hsource 1 h) (by decide)
  constructor
  · rw [file_move_of_ne _ (by decide) hzero]
    cases source with
    | none => rfl
    | some fd => exact file_move_self w (by have := hsource fd rfl; omega)
  · have hkept : (w.move source 0).file 1 = w.file 1 := file_move_of_ne w (by decide) hone
    cases sink with
    | none =>
        rw [Option.bind_none, ite_self]
        exact hkept
    | some fd =>
        have hlarge := hsink fd rfl
        rw [file_move_self _ (by omega), hkept]
        split
        · next heq => rw [file_move_source w heq]
        · next hne =>
            rw [file_move_of_ne w (by omega) hne]
            rfl

theorem asked_given {created : Nat} {given : Option Nat × Option Nat} {l : List Redirection} :
    ((∀ r ∈ l, r.reads = false) → (asked created given l).1 = given.1) ∧
      ((∀ r ∈ l, r.reads = true) → (asked created given l).2 = given.2) := by
  induction l using List.reverseRecOn with
  | nil => exact ⟨fun _ => rfl, fun _ => rfl⟩
  | append_singleton l r ih =>
      rw [asked_concat]
      refine ⟨fun hall => ?_, fun hall => ?_⟩
      · rw [if_neg (by simp [hall r])]
        exact ih.1 fun other hother => hall other (List.mem_append_left _ hother)
      · rw [if_pos (hall r (by simp))]
        exact ih.2 fun other hother => hall other (List.mem_append_left _ hother)

/-- What the first two descriptors refer to was opened before. -/
def Shell.Numbered (s : Shell) : Prop := ∀ fd, fd ≤ 1 → ∀ k, s.file fd = some k → k < s.created

variable {outcomes : Outcomes} {s : Shell} {inFd : Option Nat} {outFd : Nat} {cmdandfile : Token}

/-- What `wire_files` makes of a stage. -/
def stageWired (s : Shell) (l : List Redirection) : Execution × Shell :=
  wired (createOriginalFds s).1 (createOriginalFds s).2 l

/-- What a stage without redirections reads and writes. -/
def given (s : Shell) (inFd : Option Nat) (outFd : Nat) : Option Nat × Option Nat :=
  (inFd.elim (s.file 0) s.file, s.file outFd)

/-- Which of what it has the command `c` gets, by the descriptors that `wire_files` leaves. -/
structure Gets (s : Shell) (w : Execution × Shell) (inFd : Option Nat) (outFd : Nat) (c : Shell) :
    Prop where
  givenIn : w.1.inFd = 0 → c.file 0 = (given s inFd outFd).1
  wiredIn : w.1.inFd ≠ 0 → c.file 0 = (w.2.file w.1.inFd).or (s.file 0)
  givenOut : w.1.outFd = 1 → c.file 1 = (given s inFd outFd).2
  wiredOut : w.1.outFd ≠ 1 → w.1.inFd = 0 → c.file 1 = (w.2.file w.1.outFd).or (s.file 1)
  closedOut : w.1.outFd ≠ 1 → w.2.file w.1.outFd = none → c.file 1 = s.file 1

theorem atCommand_gets (hopens : ∀ n, outcomes.opens n = true) (hpiped : Piped s inFd outFd)
    (hends : inFd ≠ some outFd) :
    Gets s (stageWired s cmdandfile.redirection) inFd outFd
      (atCommand outcomes cmdandfile inFd outFd s) := by
  have hcopied := createOriginalFds_copied hpiped.standard
  have hstandard := hcopied.standard hpiped.standard
  obtain ⟨tempIn, tempOut, hwiring⟩ :=
    @wired_wiring (createOriginalFds s).1 _ hstandard rfl rfl cmdandfile.redirection
  have hchanged := @wired_changed (createOriginalFds s).1 _ hstandard rfl rfl cmdandfile.redirection
  have hopen : ∀ fd, s.file fd ≠ none → (createOriginalFds s).2.file fd = s.file fd :=
    fun fd hfd => hcopied.others fd (fun heq => hfd (heq ▸ hcopied.freeIn))
      fun heq => hfd (heq ▸ hcopied.freeOut)
  have hcommand : atCommand outcomes cmdandfile inFd outFd s =
      handleInputOutput (stageWired s cmdandfile.redirection).1 inFd outFd
        (stageWired s cmdandfile.redirection).2 := by
    rw [stageWired, ← wireFiles_eq_wired hopens rfl rfl]
    rfl
  rw [hcommand, handleInputOutput_eq]
  change Wiring _ (stageWired s cmdandfile.redirection).2 (stageWired s cmdandfile.redirection).1 _ _
    at hwiring
  change Changed _ (stageWired s cmdandfile.redirection).1 at hchanged
  generalize stageWired s cmdandfile.redirection = w at hwiring hchanged ⊢
  have hkept : ∀ fd, s.file fd ≠ none → w.2.file fd = s.file fd := fun fd hfd =>
    (hwiring.wired.keeps fd (by rw [hopen fd hfd]; exact hfd)).trans (hopen fd hfd)
  have hinLarge : w.1.inFd ≠ 0 → 1 < w.1.inFd := fun hne => by
    by_contra hsmall
    refine hne (hchanged.inSame fun r hr => ?_)
    by_contra hreads
    exact hsmall (hchanged.inNew ⟨r, hr, by simpa using hreads⟩)
  have houtLarge : w.1.outFd ≠ 1 → 1 < w.1.outFd := fun hne => by
    by_contra hsmall
    refine hne (hchanged.outSame fun r hr => ?_)
    by_contra hwrites
    exact hsmall (hchanged.outNew ⟨r, hr, by simpa using hwrites⟩)
  set source := if w.1.inFd ≠ 0 then some w.1.inFd else inFd with hsource
  set sink := if w.1.outFd ≠ 1 then some w.1.outFd else if outFd ≠ 1 then some outFd else none
    with hsink
  obtain ⟨hstdin, hstdout⟩ := @file_moves w.2 source sink
    (fun fd hfd => by
      rw [hsource] at hfd
      split at hfd
      · next hne => exact Option.some.inj hfd ▸ hinLarge hne
      · exact (hpiped.inOpen fd hfd).1)
    (fun fd hfd => by
      rw [hsink] at hfd
      split at hfd
      · next hne => exact Option.some.inj hfd ▸ houtLarge hne
      split at hfd
      · next hne => exact Option.some.inj hfd ▸ (hpiped.outOpen.resolve_left hne).1
      · cases hfd)
  rw [hkept 0 (hpiped.standard 0 (Nat.zero_le 1))] at hstdin
  rw [hkept 1 (hpiped.standard 1 le_rfl)] at hstdout
  refine ⟨fun hsame => ?_, fun hne => ?_, fun hsame => ?_, fun hne hsame => ?_, fun hne hclosed => ?_⟩
  · rw [hstdin, hsource, if_neg (not_not_intro hsame), given]
    cases hprev : inFd with
    | none => rfl
    | some prev =>
        have hprevOpen := (hpiped.inOpen prev hprev).2
        rw [Option.bind_some, hkept prev hprevOpen]
        exact Option.or_of_isSome (Option.isSome_iff_ne_none.mpr hprevOpen)
  · rw [hstdin, hsource, if_pos hne]
    rfl
  · have hsame' : sink = if outFd ≠ 1 then some outFd else none := if_neg (not_not_intro hsame)
    rcases hpiped.outOpen with hone | ⟨hlarge, houtOpen⟩
    · rw [hstdout, hsame', if_neg (not_not_intro hone), Option.bind_none, ite_self, given, hone]
      rfl
    · have hsource' : source ≠ some outFd := by
        rw [hsource]
        split
        · next hne =>
            -- the file of the stage is under a number that was free
            intro heq
            apply houtOpen
            rw [← hopen outFd houtOpen, ← Option.some.inj heq]
            exact hwiring.inNew.resolve_left hne
        · exact hends
      have hsink' : sink = some outFd := hsame'.trans (if_pos (by omega))
      rw [hstdout, hsink', if_neg hsource', Option.bind_some, hkept outFd houtOpen, given]
      exact Option.or_of_isSome (Option.isSome_iff_ne_none.mpr houtOpen)
  · have hsource' : source ≠ some w.1.outFd := by
      rw [hsource, if_neg (not_not_intro hsame)]
      intro heq
      have hprevOpen := (hpiped.inOpen _ heq).2
      apply hprevOpen
      rw [← hopen _ hprevOpen]
      exact hwiring.outNew.resolve_left hne
    rw [hstdout, hsink, if_pos hne, if_neg hsource']
    rfl
  · rw [hstdout, hsink, if_pos hne, Option.bind_some, hclosed, ite_self]
    rfl

/-- The command of a stage gets what its line asks for exactly when the redirections go
one way. -/
theorem atCommand_iff (hopens : ∀ n, outcomes.opens n = true) (hpiped : Piped s inFd outFd)
    (hends : inFd ≠ some outFd) (hnumbered : s.Numbered) :
    ((atCommand outcomes cmdandfile inFd outFd s).file 0,
        (atCommand outcomes cmdandfile inFd outFd s).file 1) =
      asked s.created (given s inFd outFd) cmdandfile.redirection ↔
    OneWay cmdandfile.redirection := by
  have hgets := @atCommand_gets outcomes s inFd outFd cmdandfile hopens hpiped hends
  have hstandard := (createOriginalFds_copied hpiped.standard).standard hpiped.standard
  have hchanged := @wired_changed (createOriginalFds s).1 _ hstandard rfl rfl cmdandfile.redirection
  have hreads := @wired_reads (createOriginalFds s).1 _ hstandard rfl rfl cmdandfile.redirection
    (given s inFd outFd)
  have hwrites := @wired_writes (createOriginalFds s).1 _ hstandard rfl rfl cmdandfile.redirection
    (given s inFd outFd)
  have hboth := @wired_bothWays (createOriginalFds s).1 _ hstandard rfl rfl cmdandfile.redirection
  generalize cmdandfile.redirection = l at hgets hchanged hreads hwrites hboth ⊢
  change Changed l (stageWired s l).1 at hchanged
  by_cases hway : OneWay l
  · refine iff_of_true (Prod.ext ?_ ?_) hway
    · rcases hway with hall | hall
      · by_cases hl : l = []
        · subst hl
          exact hgets.givenIn (hchanged.inSame (by simp))
        · obtain ⟨r, hr⟩ := List.exists_mem_of_ne_nil l hl
          have hlarge := hchanged.inNew ⟨r, hr, hall r hr⟩
          obtain ⟨hfile, hsome⟩ := hreads hall hl
          refine (hgets.wiredIn (by omega)).trans ?_
          rw [show (stageWired s l).2.file (stageWired s l).1.inFd = _ from hfile]
          exact Option.or_of_isSome (Option.isSome_iff_ne_none.mpr hsome)
      · exact (hgets.givenIn (hchanged.inSame hall)).trans (asked_given.1 hall).symm
    · rcases hway with hall | hall
      · exact (hgets.givenOut (hchanged.outSame hall)).trans (asked_given.2 hall).symm
      · by_cases hl : l = []
        · subst hl
          exact hgets.givenOut (hchanged.outSame (by simp))
        · obtain ⟨r, hr⟩ := List.exists_mem_of_ne_nil l hl
          have hlarge := hchanged.outNew ⟨r, hr, hall r hr⟩
          obtain ⟨hfile, hsome⟩ := hwrites hall hl
          refine (hgets.wiredOut (by omega) (hchanged.inSame hall)).trans ?_
          rw [show (stageWired s l).2.file (stageWired s l).1.outFd = _ from hfile]
          exact Option.or_of_isSome (Option.isSome_iff_ne_none.mpr hsome)
  · obtain ⟨hnotReads, hnotWrites⟩ := not_or.mp hway
    have hexReads : ∃ r ∈ l, r.reads = true := by
      by_contra hnone
      exact hnotWrites fun r hr => by simpa using fun h => hnone ⟨r, hr, h⟩
    have hexWrites : ∃ r ∈ l, r.reads = false := by
      by_contra hnone
      exact hnotReads fun r hr => by simpa using fun h => hnone ⟨r, hr, h⟩
    refine iff_of_false (fun heq => ?_) hway
    -- what is asked for would be as old as what the shell has
    rcases hboth hexReads hexWrites with ⟨hne, hclosed⟩ | ⟨hne, hclosed⟩
    · obtain ⟨k, hk, hle⟩ := (@asked_new s.created (given s inFd outFd) l).1 hexReads
      have hold := (hgets.wiredIn hne).symm.trans ((congrArg Prod.fst heq).trans hk)
      rw [show (stageWired s l).2.file (stageWired s l).1.inFd = none from hclosed] at hold
      exact absurd (hnumbered 0 (Nat.zero_le 1) k hold) (by omega)
    · obtain ⟨k, hk, hle⟩ := (@asked_new s.created (given s inFd outFd) l).2 hexWrites
      have hold := (hgets.closedOut hne hclosed).symm.trans ((congrArg Prod.snd heq).trans hk)
      exact absurd (hnumbered 1 le_rfl k hold) (by omega)

end Stage

section Created

variable {outcomes : Outcomes} {s s' : Shell} {inFd : Option Nat} {outFd : Nat} {cmdandfile : Token}

private theorem created_move (s : Shell) (source : Option Nat) (target : Nat) :
    (s.move source target).created = s.created := by
  cases source with
  | none => rfl
  | some fd => rfl

private theorem created_closeAndOriginalFd (exec : Execution) (s : Shell) :
    (closeAndOriginalFd exec s).created = s.created := by
  unfold closeAndOriginalFd
  simp only
  split
  · split
    · rfl
    · rfl
  · split
    · rfl
    · rfl

private theorem created_closeIfOpen (fd : Option Nat) (s : Shell) :
    (closeIfOpen fd s).created = s.created := by
  cases fd with
  | none => rfl
  | some fd => rfl

/-- Only the redirections of a stage open files. -/
theorem executor_created (hopens : ∀ n, outcomes.opens n = true)
    (hrun : executor outcomes cmdandfile inFd outFd s = some s') :
    s'.created = s.created + filesOf cmdandfile.redirection := by
  have hcommand : ∀ w : Execution × Shell,
      (handleInputOutput w.1 inFd outFd w.2).created = w.2.created := by
    intro w
    rw [handleInputOutput_eq, created_move, created_move]
  have hwired : (stageWired s cmdandfile.redirection).2.created =
      s.created + filesOf cmdandfile.redirection := wired_created _
  rw [executor_eq, wireFiles_eq_wired hopens rfl rfl] at hrun
  rw [← hwired, ← hcommand]
  dsimp only at hrun
  split at hrun
  · exact congrArg Shell.created (Option.some.inj hrun).symm
  · split at hrun
    · rw [← Option.some.inj hrun, created_closeAndOriginalFd]
      rfl
    · cases hrun
    · split at hrun
      · rw [← Option.some.inj hrun, created_closeAndOriginalFd]
        change (closeIfOpen inFd _).created = _
        rw [created_closeIfOpen]
        rfl
      · cases hrun

end Created

section Pipelines

variable {outcomes : Outcomes} {s s' : Shell} {prevFd : Option Nat} {cmdandfile : List Token}

theorem connectionsFrom_iff (hopens : ∀ n, outcomes.opens n = true) (h : Between s prevFd)
    (hnumbered : s.Numbered) (hcommands : ∀ token ∈ cmdandfile, token.multiCommand ≠ [])
    (hrun : commandProcessorFrom outcomes prevFd s cmdandfile = some s') :
    connectionsFrom outcomes prevFd s cmdandfile =
      askedByAll s.created (prevFd.elim (s.file 0) s.file) (s.file 1) cmdandfile ↔
    ∀ token ∈ cmdandfile, OneWay token.redirection := by
  induction cmdandfile generalizing s prevFd with
  | nil => exact iff_of_true rfl (by simp)
  | cons token rest ih =>
      obtain ⟨hcommand, hcommands⟩ := List.forall_mem_cons.mp hcommands
      cases rest with
      | nil =>
          have hpiped : Piped s prevFd 1 := ⟨h.standard, h.prevOpen, Or.inl rfl⟩
          have hends : prevFd ≠ some 1 := fun heq => absurd (h.prevOpen 1 heq).1 (by decide)
          rw [List.forall_mem_singleton, ← atCommand_iff hopens hpiped hends hnumbered]
          exact List.singleton_inj
      | cons next rest =>
          obtain ⟨hreading, hwriting, hne, hpiped, hreadingOpen, hlarge, hothers⟩ := pipe_spec h
          obtain ⟨t, hstage, hlater⟩ := exists_stage hrun
          have hback := executor_gives_back hpiped hcommand hstage
          have hsmall : ∀ fd, fd ≤ 1 → fd ≠ s.pipe.1 ∧ fd ≠ s.pipe.2.1 ∧ prevFd ≠ some fd :=
            fun fd hfd => ⟨fun heq => h.standard fd hfd (heq ▸ hreading),
              fun heq => h.standard fd hfd (heq ▸ hwriting),
              fun heq => absurd (h.prevOpen fd heq).1 (by omega)⟩
          have hpipeFile : ∀ fd, s.file fd ≠ none → s.pipe.2.2.file fd = s.file fd := fun fd hfd =>
            hothers fd (fun heq => hfd (heq ▸ hreading)) fun heq => hfd (heq ▸ hwriting)
          have hwritingFile : s.pipe.2.2.file s.pipe.2.1 = some (s.created + 1) :=
            file_create_self s.create.2
          have hreadingFile : s.pipe.2.2.file s.pipe.1 = some s.created :=
            ((file_create s.create.2).2.2 s.pipe.1 hne).trans (file_create_self s)
          have hprevReading : prevFd ≠ some s.pipe.1 := fun heq => (h.prevOpen _ heq).2 hreading
          have hprevWriting : prevFd ≠ some s.pipe.2.1 := fun heq => (h.prevOpen _ heq).2 hwriting
          -- the shell in front of the next stage
          have hnextFile : ∀ fd, prevFd ≠ some fd → fd ≠ s.pipe.2.1 →
              (closeIfOpen prevFd (t.close s.pipe.2.1)).file fd = s.pipe.2.2.file fd := by
            intro fd hprev hneOut
            rw [file_closeIfOpen_of_ne _ hprev, file_close_of_ne _ _ hneOut]
            exact hback fd hprev (Or.inr hneOut)
          have hnextSmall : ∀ fd, fd ≤ 1 →
              (closeIfOpen prevFd (t.close s.pipe.2.1)).file fd = s.file fd := fun fd hfd =>
            (hnextFile fd (hsmall fd hfd).2.2 (hsmall fd hfd).2.1).trans
              (hpipeFile fd (h.standard fd hfd))
          have hnextCreated : (closeIfOpen prevFd (t.close s.pipe.2.1)).created =
              s.created + 2 + filesOf token.redirection := by
            rw [created_closeIfOpen]
            exact executor_created hopens hstage
          have hnumberedPipe : s.pipe.2.2.Numbered := by
            intro fd hfd k hk
            rw [hpipeFile fd (h.standard fd hfd)] at hk
            exact (hnumbered fd hfd k hk).trans_le (Nat.le_add_right _ 2)
          have hnumberedNext : (closeIfOpen prevFd (t.close s.pipe.2.1)).Numbered := by
            intro fd hfd k hk
            rw [hnextSmall fd hfd] at hk
            rw [hnextCreated]
            have := hnumbered fd hfd k hk
            omega
          have hgiven : given s.pipe.2.2 prevFd s.pipe.2.1 =
              (prevFd.elim (s.file 0) s.file, some (s.created + 1)) := by
            refine Prod.ext ?_ hwritingFile
            cases hprev : prevFd with
            | none => exact hpipeFile 0 (h.standard 0 (Nat.zero_le 1))
            | some prev => exact hpipeFile prev (h.prevOpen prev hprev).2
          have hhead := @atCommand_iff outcomes s.pipe.2.2 prevFd s.pipe.2.1 token hopens hpiped
            hprevWriting hnumberedPipe
          rw [hgiven] at hhead
          have htail := ih (stage_between h hstage).1 hnumberedNext hcommands hlater
          rw [hnextCreated, hnextSmall 1 le_rfl, Option.elim_some,
            hnextFile s.pipe.1 hprevReading hne, hreadingFile] at htail
          rw [List.forall_mem_cons, ← hhead, ← htail, connectionsFrom]
          dsimp only
          rw [hstage]
          exact List.cons_eq_cons

/-- In a pipeline whose files can all be opened, each command reads the last file that its
line names, or else the pipe from the stage before, and writes the last file or else the
pipe to the stage behind, exactly when no stage redirects both. -/
theorem connections_iff (hopens : ∀ n, outcomes.opens n = true) (hstandard : s.HasStandard)
    (hnumbered : s.Numbered) (hcommands : ∀ token ∈ cmdandfile, token.multiCommand ≠ [])
    (hrun : commandProcessor outcomes s cmdandfile = some s') :
    connections outcomes s cmdandfile =
      askedByAll s.created (s.file 0) (s.file 1) cmdandfile ↔
    ∀ token ∈ cmdandfile, OneWay token.redirection :=
  connectionsFrom_iff hopens ⟨hstandard, fun _ hfd => nomatch hfd⟩ hnumbered hcommands hrun

private def terminal : Shell := { table := [some 0, some 1, some 2], created := 3 }

private def openAll : Outcomes := ⟨fun _ => true, fun _ => true⟩

/-- `cat < a | wc > b`. -/
private def oneWayEach : List Token :=
  [⟨[], [['c', 'a', 't']], 1, [⟨['a'], .redirectionIn⟩]⟩,
    ⟨[], [['w', 'c']], 1, [⟨['b'], .redirectionOut⟩]⟩]

theorem connections_iff_oneWayEach :
    connections openAll terminal oneWayEach = [(some 5, some 4), (some 3, some 6)] ∧
      (connections openAll terminal oneWayEach =
          askedByAll terminal.created (terminal.file 0) (terminal.file 1) oneWayEach ↔
        ∀ token ∈ oneWayEach, OneWay token.redirection) := by
  have hstandard : terminal.HasStandard := by
    intro fd hfd
    interval_cases fd <;> simp [terminal, Shell.file, DescriptorTable.file]
  have hnumbered : terminal.Numbered := by
    intro fd hfd k hk
    interval_cases fd <;> simp [terminal, Shell.file, DescriptorTable.file] at hk ⊢ <;> omega
  obtain ⟨after, hrun⟩ : ∃ after, commandProcessor openAll terminal oneWayEach = some after :=
    Option.isSome_iff_exists.mp (by decide +kernel)
  exact ⟨by decide +kernel, connections_iff (fun _ => rfl) hstandard hnumbered (by decide) hrun⟩

/-- `cat < a > b` reads from the terminal. -/
example : connections openAll terminal [⟨[], [['c', 'a', 't']], 1,
    [⟨['a'], .redirectionIn⟩, ⟨['b'], .redirectionOut⟩]⟩] = [(some 0, some 4)] := by
  decide +kernel

end Pipelines

end FortyTwo.Minishell
