import Mathlib.Tactic
import FortyTwo.Minishell.CommandProcessor

/-!
What a command list leaves in the descriptor table of the shell. Every stage with a
command word gives back what it took; one without leaves its copies of the first
two descriptors open.
-/

namespace FortyTwo.Minishell

open Foundation DescriptorTable

section Files

variable (s : Shell) (fd : Nat)

theorem file_close (n : Nat) : (s.close n).file fd = if fd = n then none else s.file fd :=
  DescriptorTable.file_close s.table n fd

theorem file_close_of_ne {n : Nat} (h : fd ≠ n) : (s.close n).file fd = s.file fd := by
  rw [file_close, if_neg h]

theorem file_close_self : (s.close fd).file fd = none := by
  rw [file_close, if_pos rfl]

theorem file_dup2_of_ne (old : Nat) {new : Nat} (h : fd ≠ new) :
    (s.dup2 old new).file fd = s.file fd :=
  DescriptorTable.file_dup2_of_ne s.table old h

theorem file_dup2_self {old : Nat} (new : Nat) (h : s.file old ≠ none) :
    (s.dup2 old new).file new = s.file old := by
  obtain ⟨f, hf⟩ := Option.ne_none_iff_exists'.mp h
  rw [hf]
  exact (file_dup2 s.table hf new new).trans (if_pos rfl)

theorem file_dup2_ne_none (old new : Nat) (h : s.file fd ≠ none) :
    (s.dup2 old new).file fd ≠ none := by
  by_cases hnew : fd = new
  · rw [hnew]
    cases hold : s.file old with
    | none =>
        have hsame : s.dup2 old new = s := by
          rw [Shell.dup2, dup2_of_closed s.table hold]
        rw [hsame, ← hnew]
        exact h
    | some f =>
        rw [file_dup2_self s new (by rw [hold]; simp), hold]
        simp
  · rw [file_dup2_of_ne s fd old hnew]
    exact h

theorem file_create : s.file s.create.1 = none ∧ s.create.2.file s.create.1 ≠ none ∧
    ∀ fd, fd ≠ s.create.1 → s.create.2.file fd = s.file fd := by
  refine ⟨file_lowestFree s.table, ?_, fun fd hfd => ?_⟩
  · rw [Shell.create, Shell.file, file_assign, if_pos rfl]
    simp
  · exact (file_assign s.table _ _ fd).trans (if_neg hfd)

theorem file_dup (old : Nat) : s.file (s.dup old).1 = none ∧
    (s.dup old).2.file (s.dup old).1 = s.file old ∧
    ∀ fd, fd ≠ (s.dup old).1 → (s.dup old).2.file fd = s.file fd := by
  refine ⟨file_lowestFree s.table, ?_, fun fd hfd => ?_⟩
  · rw [Shell.dup, Shell.file, file_assign, if_pos rfl]
    rfl
  · exact (file_assign s.table _ _ fd).trans (if_neg hfd)

end Files

/-- The first two descriptors are open. -/
def Shell.HasStandard (s : Shell) : Prop := ∀ fd, fd ≤ 1 → s.file fd ≠ none

/-- What is open in `base` is as it was, and any other open number is one of `P`. -/
structure Wired (base s : Shell) (P : Nat → Prop) : Prop where
  keeps : ∀ fd, base.file fd ≠ none → s.file fd = base.file fd
  added : ∀ fd, base.file fd = none → s.file fd ≠ none → P fd

namespace Wired

variable {base s : Shell} {P Q : Nat → Prop}

theorem mono (h : Wired base s P) (himp : ∀ fd, P fd → Q fd) : Wired base s Q :=
  ⟨h.keeps, fun fd hbase hopen => himp fd (h.added fd hbase hopen)⟩

theorem closed (h : Wired base s P) {n : Nat} (hn : base.file n = none) :
    Wired base (s.close n) (fun fd => P fd ∧ fd ≠ n) := by
  constructor
  · intro fd hfd
    have hne : fd ≠ n := by
      rintro rfl
      exact hfd hn
    rw [file_close_of_ne s fd hne]
    exact h.keeps fd hfd
  · intro fd hbase hopen
    have hne : fd ≠ n := by
      rintro rfl
      exact hopen (file_close_self s fd)
    rw [file_close_of_ne s fd hne] at hopen
    exact ⟨h.added fd hbase hopen, hne⟩

theorem opening (h : Wired base s P) (outcomes : Outcomes) :
    (∀ fd, (s.openFile outcomes).1 = some fd → base.file fd = none) ∧
      Wired base (s.openFile outcomes).2 (fun fd => P fd ∨ (s.openFile outcomes).1 = some fd) := by
  have hcalled : Wired base { s with opened := s.opened + 1 } P := ⟨h.keeps, h.added⟩
  rw [Shell.openFile]
  split
  · obtain ⟨hfree, -, hother⟩ := file_create { s with opened := s.opened + 1 }
    have hnew : base.file (Shell.create { s with opened := s.opened + 1 }).1 = none := by
      by_contra hopen
      rw [← hcalled.keeps _ hopen] at hopen
      exact hopen hfree
    refine ⟨fun fd hfd => by rw [← Option.some.inj hfd]; exact hnew, ?_, ?_⟩
    · intro fd hfd
      have hne : fd ≠ (Shell.create { s with opened := s.opened + 1 }).1 := by
        rintro rfl
        exact hfd hnew
      rw [hother fd hne]
      exact h.keeps fd hfd
    · intro fd hbase hopen
      by_cases hne : fd = (Shell.create { s with opened := s.opened + 1 }).1
      · exact Or.inr (congrArg some hne.symm)
      · rw [hother fd hne] at hopen
        exact Or.inl (h.added fd hbase hopen)
  · exact ⟨fun fd hfd => (nomatch hfd), hcalled.mono fun fd => Or.inl⟩

theorem heredoc (h : Wired base s P) (outcomes : Outcomes) :
    (∀ fd, (heredoc outcomes s).1 = some fd → fd = 0 ∨ base.file fd = none) ∧
      Wired base (heredoc outcomes s).2
        (fun fd => P fd ∨ (Minishell.heredoc outcomes s).1 = some fd) := by
  obtain ⟨hnew, hopened⟩ := h.opening outcomes
  rw [Minishell.heredoc]
  generalize s.openFile outcomes = result at hnew hopened ⊢
  obtain ⟨fd, s'⟩ := result
  cases fd with
  | none =>
      exact ⟨fun fd hfd => Or.inl (Option.some.inj hfd).symm,
        hopened.mono fun fd hfd => hfd.imp_right fun heq => (nomatch heq)⟩
  | some made =>
      have hclosed : Wired base (s'.close made) P := by
        apply (hopened.closed (hnew made rfl)).mono
        rintro fd ⟨hfd | hmade, hne⟩
        · exact hfd
        · exact absurd (Option.some.inj hmade).symm hne
      obtain ⟨hagain, hreopened⟩ := hclosed.opening outcomes
      exact ⟨fun fd hfd => Or.inr (hagain fd hfd), hreopened⟩

/-- A new descriptor takes the place of an old one, which is closed when it is
none of the first two. -/
theorem assigned (h : Wired base s P) (hstandard : base.HasStandard) {oldFd : Nat}
    (hold : oldFd ≤ 1 ∨ base.file oldFd = none) (newFd : Nat) :
    Wired base (assignAndClose oldFd (some newFd) s).2 (fun fd => P fd ∧ fd ≠ oldFd) := by
  rw [assignAndClose]
  split
  · next hbig =>
      exact h.closed (hold.resolve_left (by omega))
  · next hsmall =>
      refine ⟨h.keeps, fun fd hbase hopen => ⟨h.added fd hbase hopen, ?_⟩⟩
      rintro rfl
      exact hstandard fd (by omega) hbase

/-- Nothing changes but the openness of the descriptor, when it takes its own place. -/
theorem reassigned (h : Wired base s P) (hstandard : base.HasStandard) {oldFd : Nat}
    (hold : oldFd ≤ 1 ∨ base.file oldFd = none) {temp : Option Nat}
    (htemp : temp = none ∨ temp = some oldFd) :
    (assignAndClose oldFd temp s).1 = oldFd ∧ Wired base (assignAndClose oldFd temp s).2 P := by
  rcases htemp with rfl | rfl
  · exact ⟨rfl, h⟩
  · exact ⟨rfl, (h.assigned hstandard hold oldFd).mono fun fd hfd => hfd.1⟩

end Wired

/-- Where the loop of `wire_files` stands: beside what was open before there is
nothing but the two descriptors of `exec`. -/
structure Wiring (base s : Shell) (exec : Execution) (tempIn tempOut : Option Nat) : Prop where
  wired : Wired base s (fun fd => fd = exec.inFd ∨ fd = exec.outFd)
  inNew : exec.inFd = 0 ∨ base.file exec.inFd = none
  outNew : exec.outFd = 1 ∨ base.file exec.outFd = none
  tempIn : tempIn = none ∨ tempIn = some exec.inFd
  tempOut : tempOut = none ∨ tempOut = some exec.outFd

namespace Wiring

variable {base s : Shell} {exec : Execution} {tempIn tempOut : Option Nat}

private theorem le_one_or {fd small : Nat} {p : Prop} (hsmall : small ≤ 1) (h : fd = small ∨ p) :
    fd ≤ 1 ∨ p :=
  h.imp_left fun heq => Nat.le_trans (Nat.le_of_eq heq) hsmall

/-- A round that opens a file to read from, or a here-document. -/
theorem reading (h : Wiring base s exec tempIn tempOut) (hstandard : base.HasStandard)
    {result : Option Nat} {s' : Shell} (hnew : ∀ fd, result = some fd → fd = 0 ∨ base.file fd = none)
    (hopened : Wired base s' (fun fd => (fd = exec.inFd ∨ fd = exec.outFd) ∨ result = some fd)) :
    let wiredIn := assignAndClose exec.inFd result s'
    let wiredOut := assignAndClose exec.outFd tempOut wiredIn.2
    Wiring base wiredOut.2 { exec with inFd := wiredIn.1, outFd := wiredOut.1 } result tempOut := by
  have hin := le_one_or (Nat.zero_le 1) h.inNew
  have hout := le_one_or (Nat.le_refl 1) h.outNew
  cases result with
  | none =>
      have hwired : Wired base s' (fun fd => fd = exec.inFd ∨ fd = exec.outFd) :=
        hopened.mono fun fd hfd => hfd.resolve_right fun heq => (nomatch heq)
      obtain ⟨hsame, hwired⟩ := hwired.reassigned hstandard hout h.tempOut
      refine ⟨?_, h.inNew, ?_, Or.inl rfl, ?_⟩
      · exact hsame.symm ▸ hwired
      · exact hsame.symm ▸ h.outNew
      · exact hsame.symm ▸ h.tempOut
  | some fd =>
      have hwired : Wired base (assignAndClose exec.inFd (some fd) s').2
          (fun other => other = fd ∨ other = exec.outFd) := by
        apply (hopened.assigned hstandard hin fd).mono
        rintro other ⟨(hother | hother) | hother, hne⟩
        · exact absurd hother hne
        · exact Or.inr hother
        · exact Or.inl (Option.some.inj hother).symm
      obtain ⟨hsame, hwired⟩ := hwired.reassigned hstandard hout h.tempOut
      refine ⟨?_, hnew fd rfl, ?_, Or.inr rfl, ?_⟩
      · exact hsame.symm ▸ hwired
      · exact hsame.symm ▸ h.outNew
      · exact hsame.symm ▸ h.tempOut

/-- A round that opens a file to write to. -/
theorem writing (h : Wiring base s exec tempIn tempOut) (hstandard : base.HasStandard)
    {result : Option Nat} {s' : Shell} (hnew : ∀ fd, result = some fd → base.file fd = none)
    (hopened : Wired base s' (fun fd => (fd = exec.inFd ∨ fd = exec.outFd) ∨ result = some fd)) :
    let wiredIn := assignAndClose exec.inFd tempIn s'
    let wiredOut := assignAndClose exec.outFd result wiredIn.2
    Wiring base wiredOut.2 { exec with inFd := wiredIn.1, outFd := wiredOut.1 } tempIn result := by
  have hin := le_one_or (Nat.zero_le 1) h.inNew
  have hout := le_one_or (Nat.le_refl 1) h.outNew
  obtain ⟨hsame, hwired⟩ := hopened.reassigned hstandard hin h.tempIn
  cases result with
  | none =>
      have hwired := hwired.mono fun fd hfd => hfd.resolve_right fun heq => (nomatch heq)
      refine ⟨?_, ?_, h.outNew, ?_, Or.inl rfl⟩
      · exact hsame.symm ▸ hwired
      · exact hsame.symm ▸ h.inNew
      · exact hsame.symm ▸ h.tempIn
  | some fd =>
      have hwired := (hwired.assigned hstandard hout fd).mono
        (Q := fun other => other = exec.inFd ∨ other = fd) (by
          rintro other ⟨(hother | hother) | hother, hne⟩
          · exact Or.inl hother
          · exact absurd hother hne
          · exact Or.inr (Option.some.inj hother).symm)
      refine ⟨?_, ?_, Or.inr (hnew fd rfl), ?_, Or.inr rfl⟩
      · exact hsame.symm ▸ hwired
      · exact hsame.symm ▸ h.inNew
      · exact hsame.symm ▸ h.tempIn

theorem wireFilesFrom (h : Wiring base s exec tempIn tempOut) (hstandard : base.HasStandard)
    (outcomes : Outcomes) (redirection : List Redirection) :
    let wired := Minishell.wireFilesFrom outcomes tempIn tempOut exec s redirection
    (∃ tempIn tempOut, Wiring base wired.2 wired.1 tempIn tempOut) ∧
      wired.1.oStdin = exec.oStdin ∧ wired.1.oStdout = exec.oStdout := by
  induction redirection generalizing s exec tempIn tempOut with
  | nil => exact ⟨⟨tempIn, tempOut, h⟩, rfl, rfl⟩
  | cons current next ih =>
      obtain ⟨hnew, hopened⟩ := h.wired.opening outcomes
      obtain ⟨hread, hheredoc⟩ := h.wired.heredoc outcomes
      obtain ⟨fileName, type⟩ := current
      cases type with
      | redirectionIn =>
          exact ih (h.reading hstandard (fun fd hfd => Or.inr (hnew fd hfd)) hopened)
      | redirectionOut => exact ih (h.writing hstandard hnew hopened)
      | append => exact ih (h.writing hstandard hnew hopened)
      | heredoc => exact ih (h.reading hstandard hread hheredoc)

end Wiring

section Moves

/-- `dup2` to `target` and `close`, when there is something to move. -/
def Shell.move (s : Shell) (source : Option Nat) (target : Nat) : Shell :=
  match source with
  | some fd => (s.dup2 fd target).close fd
  | none => s

theorem handleInputOutput_eq (exec : Execution) (inFd : Option Nat) (outFd : Nat) (s : Shell) :
    handleInputOutput exec inFd outFd s =
      (s.move (if exec.inFd ≠ 0 then some exec.inFd else inFd) 0).move
        (if exec.outFd ≠ 1 then some exec.outFd else if outFd ≠ 1 then some outFd else none) 1 := by
  by_cases hin : exec.inFd = 0 <;> by_cases hout : exec.outFd = 1 <;> by_cases hpipe : outFd = 1 <;>
    cases inFd <;> simp [handleInputOutput, Shell.move, hin, hout, hpipe]

variable (s : Shell) {source : Option Nat} {target fd : Nat}

theorem file_move_of_ne (htarget : fd ≠ target) (hsource : source ≠ some fd) :
    (s.move source target).file fd = s.file fd := by
  cases source with
  | none => rfl
  | some old =>
      have hne : fd ≠ old := fun heq => hsource (congrArg some heq.symm)
      exact (file_close_of_ne _ fd hne).trans (file_dup2_of_ne s fd old htarget)

theorem file_move_source (hsource : source = some fd) : (s.move source target).file fd = none := by
  rw [hsource]
  exact file_close_self _ fd

theorem file_move_closed (htarget : fd ≠ target) (hclosed : s.file fd = none) :
    (s.move source target).file fd = none := by
  by_cases hsource : source = some fd
  · exact file_move_source s hsource
  · rw [file_move_of_ne s htarget hsource, hclosed]

theorem file_move_ne_none (hsource : source ≠ some fd) (hopen : s.file fd ≠ none) :
    (s.move source target).file fd ≠ none := by
  cases source with
  | none => exact hopen
  | some old =>
      have hne : fd ≠ old := fun heq => hsource (congrArg some heq.symm)
      rw [Shell.move, file_close_of_ne _ fd hne]
      exact file_dup2_ne_none s fd old target hopen

end Moves

section Stages

variable {s w : Shell} {exec : Execution} {inFd : Option Nat} {outFd : Nat}

/-- `base` is `s` with copies of the first two descriptors. -/
structure Copied (s base : Shell) (oStdin oStdout : Nat) : Prop where
  distinct : oStdin ≠ oStdout
  freeIn : s.file oStdin = none
  freeOut : s.file oStdout = none
  stdin : base.file oStdin = s.file 0
  stdout : base.file oStdout = s.file 1
  others : ∀ fd, fd ≠ oStdin → fd ≠ oStdout → base.file fd = s.file fd

theorem Copied.standard {base : Shell} {oStdin oStdout : Nat} (h : Copied s base oStdin oStdout)
    (hstandard : s.HasStandard) : base.HasStandard := by
  intro fd hfd
  have hopen := hstandard fd hfd
  rw [h.others fd (fun heq => hopen (heq ▸ h.freeIn)) (fun heq => hopen (heq ▸ h.freeOut))]
  exact hopen

theorem createOriginalFds_copied (hstandard : s.HasStandard) :
    Copied s (createOriginalFds s).2 (createOriginalFds s).1.oStdin
      (createOriginalFds s).1.oStdout := by
  obtain ⟨hin, hinFile, hinOther⟩ := file_dup s 0
  obtain ⟨hout, houtFile, houtOther⟩ := file_dup (s.dup 0).2 1
  have hzero : s.file 0 ≠ none := hstandard 0 (Nat.zero_le 1)
  have hone : s.file 1 ≠ none := hstandard 1 (Nat.le_refl 1)
  have hinNe : (s.dup 0).1 ≠ ((s.dup 0).2.dup 1).1 := by
    intro heq
    rw [← heq, hinFile] at hout
    exact hzero hout
  have hfree : s.file ((s.dup 0).2.dup 1).1 = none := by
    rw [← hinOther _ (Ne.symm hinNe)]
    exact hout
  refine ⟨hinNe, hin, hfree, (houtOther _ hinNe).trans hinFile, ?_, fun fd hneIn hneOut => ?_⟩
  · have hneIn : 1 ≠ (s.dup 0).1 := fun heq => hone (heq ▸ hin)
    exact houtFile.trans (hinOther 1 hneIn)
  · exact (houtOther fd hneOut).trans (hinOther fd hneIn)

/-- What the stage may use: the reading end of the pipe before it and the writing
end of the pipe behind it. -/
structure Piped (s : Shell) (inFd : Option Nat) (outFd : Nat) : Prop where
  standard : s.HasStandard
  inOpen : ∀ fd, inFd = some fd → 1 < fd ∧ s.file fd ≠ none
  outOpen : outFd = 1 ∨ 1 < outFd ∧ s.file outFd ≠ none

/-- A free number is none of the pipe ends. -/
theorem Piped.unpiped (h : Piped s inFd outFd) {fd : Nat} (hfree : s.file fd = none) :
    1 < fd ∧ inFd ≠ some fd ∧ fd ≠ outFd := by
  have hlarge : 1 < fd := by
    by_contra hsmall
    exact h.standard fd (by omega) hfree
  refine ⟨hlarge, fun heq => (h.inOpen fd heq).2 hfree, ?_⟩
  rintro rfl
  exact (h.outOpen.resolve_left (by omega)).2 hfree

/-- When a stage comes to its command, the files of its redirections are closed, and
all but the pipe ends and the first two descriptors is as it was. -/
structure Kept (base c : Shell) (inFd : Option Nat) (outFd : Nat) : Prop where
  keeps : ∀ fd, 1 < fd → inFd ≠ some fd → fd ≠ outFd → base.file fd ≠ none → c.file fd = base.file fd
  shut : ∀ fd, 1 < fd → base.file fd = none → c.file fd = none

theorem handleInputOutput_kept {base : Shell} {tempIn tempOut : Option Nat}
    (h : Wiring base w exec tempIn tempOut) (hstandard : base.HasStandard)
    (hin : ∀ fd, inFd = some fd → 1 < fd) (hout : outFd = 1 ∨ 1 < outFd) :
    (handleInputOutput exec inFd outFd w).HasStandard ∧
      Kept base (handleInputOutput exec inFd outFd w) inFd outFd := by
  rw [handleInputOutput_eq]
  set source := if exec.inFd ≠ 0 then some exec.inFd else inFd with hsource
  set sink := if exec.outFd ≠ 1 then some exec.outFd else if outFd ≠ 1 then some outFd else none
    with hsink
  have hnotSource : ∀ fd, fd ≤ 1 ∨ base.file fd ≠ none → inFd ≠ some fd → source ≠ some fd := by
    intro fd hfd hne heq
    rw [hsource] at heq
    split at heq
    · next hnew =>
        obtain rfl := Option.some.inj heq
        have hnone := h.inNew.resolve_left hnew
        exact hfd.elim (fun hsmall => hstandard _ hsmall hnone) fun hopen => hopen hnone
    · exact hne heq
  have hnotSink : ∀ fd, fd ≤ 1 ∨ base.file fd ≠ none → fd ≤ 1 ∨ fd ≠ outFd → sink ≠ some fd := by
    intro fd hfd hne heq
    rw [hsink] at heq
    split at heq
    · next hnew =>
        obtain rfl := Option.some.inj heq
        have hnone := h.outNew.resolve_left hnew
        exact hfd.elim (fun hsmall => hstandard _ hsmall hnone) fun hopen => hopen hnone
    · split at heq
      · next hpipe =>
          obtain rfl := Option.some.inj heq
          have hbig := hout.resolve_left hpipe
          rcases hne with hsmall | hne
          · omega
          · exact hne rfl
      · cases heq
  refine ⟨?_, ?_, ?_⟩
  · intro fd hfd
    have hopen : w.file fd ≠ none := by
      rw [h.wired.keeps fd (hstandard fd hfd)]
      exact hstandard fd hfd
    have hne : inFd ≠ some fd := fun heq => absurd (hin fd heq) (by omega)
    exact file_move_ne_none _ (hnotSink fd (Or.inl hfd) (Or.inl hfd))
      (file_move_ne_none w (hnotSource fd (Or.inl hfd) hne) hopen)
  · intro fd hbig hne hneOut hopen
    rw [file_move_of_ne _ (by omega) (hnotSink fd (Or.inr hopen) (Or.inr hneOut)),
      file_move_of_ne w (by omega) (hnotSource fd (Or.inr hopen) hne)]
    exact h.wired.keeps fd hopen
  · intro fd hbig hclosed
    by_cases hopen : w.file fd = none
    · exact file_move_closed _ (by omega) (file_move_closed w (by omega) hopen)
    · rcases h.wired.added fd hclosed hopen with heq | heq
      · have hin : source = some fd := by
          rw [hsource, if_pos (by omega), heq]
        exact file_move_closed _ (by omega) (file_move_source w hin)
      · have hout : sink = some fd := by
          rw [hsink, if_pos (by omega), heq]
        exact file_move_source _ hout

private theorem Kept.close {base c : Shell} (h : Kept base c inFd outFd) {n : Nat}
    (hn : inFd = some n ∨ n = outFd) : Kept base (c.close n) inFd outFd := by
  constructor
  · intro fd hbig hne hneOut hopen
    have hfd : fd ≠ n := by
      rintro rfl
      exact hn.elim hne hneOut
    rw [file_close_of_ne c fd hfd]
    exact h.keeps fd hbig hne hneOut hopen
  · intro fd hbig hclosed
    rw [file_close, h.shut fd hbig hclosed, ite_self]

private theorem Kept.closePipes {base c : Shell} (h : Kept base c inFd outFd) :
    Kept base ((closeIfOpen inFd c).close outFd) inFd outFd := by
  cases inFd with
  | none => exact h.close (Or.inr rfl)
  | some n => exact (h.close (Or.inl rfl)).close (Or.inr rfl)

private theorem file_closeUnless (d : Shell) {n standard fd : Nat} (h : n = standard ∨ fd ≠ n) :
    (if n ≠ standard then d.close n else d).file fd = d.file fd := by
  split
  · next hne => exact file_close_of_ne d fd (h.resolve_left hne)
  · rfl

private theorem file_closeUnless_closed (d : Shell) (n standard : Nat) {fd : Nat}
    (h : d.file fd = none) : (if n ≠ standard then d.close n else d).file fd = none := by
  split
  · rw [file_close, h, ite_self]
  · exact h

private theorem file_closeAndOriginalFd_closed (exec : Execution) (c : Shell) {fd : Nat}
    (h : ((c.dup2 exec.oStdout 1).dup2 exec.oStdin 0).file fd = none) :
    (closeAndOriginalFd exec c).file fd = none := by
  refine file_closeUnless_closed _ _ _ (file_closeUnless_closed _ _ _ ?_)
  rw [file_close, file_close, h, ite_self, ite_self]

/-- Restoring the first two descriptors closes their copies. -/
private theorem file_closeAndOriginalFd_copies (exec : Execution) (c : Shell) {fd : Nat}
    (h : fd = exec.oStdin ∨ fd = exec.oStdout) : (closeAndOriginalFd exec c).file fd = none := by
  refine file_closeUnless_closed _ _ _ (file_closeUnless_closed _ _ _ ?_)
  rcases h with rfl | rfl
  · exact file_close_self _ _
  · rw [file_close, file_close_self, ite_self]

private theorem file_closeAndOriginalFd_of_ne (exec : Execution) (c : Shell) {fd : Nat}
    (hin : exec.inFd = 0 ∨ fd ≠ exec.inFd) (hout : exec.outFd = 1 ∨ fd ≠ exec.outFd)
    (hstdin : fd ≠ exec.oStdin) (hstdout : fd ≠ exec.oStdout) :
    (closeAndOriginalFd exec c).file fd = ((c.dup2 exec.oStdout 1).dup2 exec.oStdin 0).file fd := by
  refine (file_closeUnless _ hin).trans ((file_closeUnless _ hout).trans ?_)
  rw [file_close_of_ne _ fd hstdin, file_close_of_ne _ fd hstdout]

/-- Where `wire_files` begins and ends. -/
theorem wireFiles_wiring {base : Shell} (hstandard : base.HasStandard) (outcomes : Outcomes)
    {exec : Execution} (hin : exec.inFd = 0) (hout : exec.outFd = 1)
    (redirection : List Redirection) :
    let wired := wireFiles outcomes exec base redirection
    (∃ tempIn tempOut, Wiring base wired.2 wired.1 tempIn tempOut) ∧
      wired.1.oStdin = exec.oStdin ∧ wired.1.oStdout = exec.oStdout := by
  refine Wiring.wireFilesFrom ⟨⟨fun fd _ => rfl, fun fd hclosed hopen => absurd hclosed hopen⟩,
    Or.inl hin, Or.inl hout, Or.inr ?_, Or.inr ?_⟩ hstandard outcomes redirection
  · rw [hin]
  · rw [hout]

/-- Behind the restoration all is as before the copies were made. -/
private theorem file_closeAndOriginalFd {base c : Shell} {tempIn tempOut : Option Nat}
    (hpiped : Piped s inFd outFd) (hcopied : Copied s base exec.oStdin exec.oStdout)
    (hwiring : Wiring base w exec tempIn tempOut) (hkept : Kept base c inFd outFd) {fd : Nat}
    (hin : inFd ≠ some fd) (hout : outFd = 1 ∨ fd ≠ outFd) :
    (closeAndOriginalFd exec c).file fd = s.file fd := by
  have hstandard := hcopied.standard hpiped.standard
  obtain ⟨hlargeIn, hunpipedIn⟩ := hpiped.unpiped hcopied.freeIn
  obtain ⟨hlargeOut, hunpipedOut⟩ := hpiped.unpiped hcopied.freeOut
  have hcopyIn : c.file exec.oStdin = s.file 0 := by
    have hopen : base.file exec.oStdin ≠ none := by
      rw [hcopied.stdin]
      exact hpiped.standard 0 (Nat.zero_le 1)
    rw [hkept.keeps _ hlargeIn hunpipedIn.1 hunpipedIn.2 hopen, hcopied.stdin]
  have hcopyOut : c.file exec.oStdout = s.file 1 := by
    have hopen : base.file exec.oStdout ≠ none := by
      rw [hcopied.stdout]
      exact hpiped.standard 1 (Nat.le_refl 1)
    rw [hkept.keeps _ hlargeOut hunpipedOut.1 hunpipedOut.2 hopen, hcopied.stdout]
  by_cases hcopy : fd = exec.oStdin ∨ fd = exec.oStdout
  · rw [file_closeAndOriginalFd_copies exec c hcopy]
    rcases hcopy with rfl | rfl
    · exact hcopied.freeIn.symm
    · exact hcopied.freeOut.symm
  obtain ⟨hneStdin, hneStdout⟩ := not_or.mp hcopy
  have hbase := hcopied.others fd hneStdin hneStdout
  by_cases hclosed : base.file fd = none
  · have hlarge : 1 < fd := by
      by_contra hsmall
      exact hstandard fd (by omega) hclosed
    rw [← hbase, hclosed]
    apply file_closeAndOriginalFd_closed exec c
    rw [file_dup2_of_ne _ fd _ (by omega), file_dup2_of_ne _ fd _ (by omega)]
    exact hkept.shut fd hlarge hclosed
  · have hneIn : exec.inFd = 0 ∨ fd ≠ exec.inFd :=
      hwiring.inNew.imp_right fun hnone heq => hclosed (heq ▸ hnone)
    have hneOut : exec.outFd = 1 ∨ fd ≠ exec.outFd :=
      hwiring.outNew.imp_right fun hnone heq => hclosed (heq ▸ hnone)
    rw [file_closeAndOriginalFd_of_ne exec c hneIn hneOut hneStdin hneStdout]
    by_cases hzero : fd = 0
    · have hopen : (c.dup2 exec.oStdout 1).file exec.oStdin ≠ none := by
        rw [file_dup2_of_ne _ _ _ (by omega), hcopyIn]
        exact hpiped.standard 0 (Nat.zero_le 1)
      rw [hzero, file_dup2_self _ 0 hopen, file_dup2_of_ne _ _ _ (by omega), hcopyIn]
    · rw [file_dup2_of_ne _ _ _ hzero]
      by_cases hone : fd = 1
      · have hopen : c.file exec.oStdout ≠ none := by
          rw [hcopyOut]
          exact hpiped.standard 1 (Nat.le_refl 1)
        rw [hone, file_dup2_self _ 1 hopen, hcopyOut]
      · rw [file_dup2_of_ne _ _ _ hone,
          hkept.keeps fd (by omega) hin (by omega) hclosed, hbase]

theorem executor_eq (outcomes : Outcomes) (cmdandfile : Token) (inFd : Option Nat) (outFd : Nat)
    (s : Shell) :
    executor outcomes cmdandfile inFd outFd s =
      let wired := wireFiles outcomes (createOriginalFds s).1 (createOriginalFds s).2
        cmdandfile.redirection
      let c := handleInputOutput wired.1 inFd outFd wired.2
      match cmdandfile.multiCommand with
      | [] => some c
      | command :: _ =>
          match builtin command with
          | .ran => some (closeAndOriginalFd wired.1 c)
          | .exits => none
          | .notBuiltin =>
              if outcomes.forks c.forked then
                some (closeAndOriginalFd wired.1
                  ((closeIfOpen inFd { c with forked := c.forked + 1 }).close outFd))
              else none := rfl

/-- A stage with a command word gives back what it took. -/
theorem executor_gives_back {outcomes : Outcomes} {cmdandfile : Token} {s s' : Shell}
    (hpiped : Piped s inFd outFd) (hcommand : cmdandfile.multiCommand ≠ [])
    (hrun : executor outcomes cmdandfile inFd outFd s = some s') (fd : Nat)
    (hin : inFd ≠ some fd) (hout : outFd = 1 ∨ fd ≠ outFd) : s'.file fd = s.file fd := by
  have hcopied := createOriginalFds_copied hpiped.standard
  have hstandard := hcopied.standard hpiped.standard
  obtain ⟨⟨tempIn, tempOut, hwiring⟩, hstdin, hstdout⟩ :=
    @wireFiles_wiring _ hstandard outcomes (createOriginalFds s).1 rfl rfl cmdandfile.redirection
  rw [← hstdin, ← hstdout] at hcopied
  have hkept := (handleInputOutput_kept hwiring hstandard (fun fd hfd => (hpiped.inOpen fd hfd).1)
    (hpiped.outOpen.imp_right And.left)).2
  obtain ⟨command, arguments, hwords⟩ := List.exists_cons_of_ne_nil hcommand
  rw [executor_eq, hwords] at hrun
  have hgivesBack := fun c (hkept : Kept _ c inFd outFd) =>
    @file_closeAndOriginalFd s _ _ inFd outFd _ c _ _ hpiped hcopied hwiring hkept fd hin hout
  dsimp only at hrun
  split at hrun
  · rw [← Option.some.inj hrun]
    exact hgivesBack _ hkept
  · cases hrun
  · split at hrun
    · rw [← Option.some.inj hrun]
      exact hgivesBack _ (Kept.closePipes ⟨hkept.keeps, hkept.shut⟩)
    · cases hrun

/-- A stage without a command word leaves the first two descriptors open, and a
copy of the first. -/
theorem executor_leaves_copy {outcomes : Outcomes} {cmdandfile : Token} {s s' : Shell}
    (hpiped : Piped s inFd outFd) (hcommand : cmdandfile.multiCommand = [])
    (hrun : executor outcomes cmdandfile inFd outFd s = some s') :
    s'.HasStandard ∧ (∃ copy, s.file copy = none ∧ s'.file copy ≠ none) ∧
      ∀ fd, 1 < fd → inFd ≠ some fd → fd ≠ outFd → s.file fd ≠ none → s'.file fd = s.file fd := by
  have hcopied := createOriginalFds_copied hpiped.standard
  have hstandard := hcopied.standard hpiped.standard
  obtain ⟨⟨tempIn, tempOut, hwiring⟩, hstdin, hstdout⟩ :=
    @wireFiles_wiring _ hstandard outcomes (createOriginalFds s).1 rfl rfl cmdandfile.redirection
  obtain ⟨hready, hkept⟩ := handleInputOutput_kept hwiring hstandard
    (fun fd hfd => (hpiped.inOpen fd hfd).1) (hpiped.outOpen.imp_right And.left)
  rw [executor_eq, hcommand] at hrun
  obtain rfl := Option.some.inj hrun
  refine ⟨hready, ⟨_, hcopied.freeIn, ?_⟩, fun fd hlarge hin hout hopen => ?_⟩
  · have hopen := hcopied.stdin.trans_ne (hpiped.standard 0 (Nat.zero_le 1))
    obtain ⟨hlarge, hin, hout⟩ := hpiped.unpiped hcopied.freeIn
    rw [hkept.keeps _ hlarge hin hout hopen]
    exact hopen
  · have hbase := hcopied.others fd (fun heq => hopen (heq ▸ hcopied.freeIn))
      (fun heq => hopen (heq ▸ hcopied.freeOut))
    rw [hkept.keeps fd hlarge hin hout (by rw [hbase]; exact hopen), hbase]

/-- No stage touches what is open beside the pipe ends and the first two. -/
theorem executor_keeps {outcomes : Outcomes} {cmdandfile : Token} {s s' : Shell}
    (hpiped : Piped s inFd outFd) (hrun : executor outcomes cmdandfile inFd outFd s = some s') :
    s'.HasStandard ∧
      ∀ fd, 1 < fd → inFd ≠ some fd → fd ≠ outFd → s.file fd ≠ none → s'.file fd = s.file fd := by
  by_cases hcommand : cmdandfile.multiCommand = []
  · obtain ⟨hstandard, -, hkeeps⟩ := executor_leaves_copy hpiped hcommand hrun
    exact ⟨hstandard, hkeeps⟩
  · have hback := executor_gives_back hpiped hcommand hrun
    refine ⟨fun fd hfd => ?_, fun fd _ hin hout _ => hback fd hin (Or.inr hout)⟩
    have hin : inFd ≠ some fd := fun heq => absurd (hpiped.inOpen fd heq).1 (by omega)
    have hout : outFd = 1 ∨ fd ≠ outFd := hpiped.outOpen.imp_right fun h => by omega
    rw [hback fd hin hout]
    exact hpiped.standard fd hfd

end Stages

section Lists

variable {s s' : Shell} {outcomes : Outcomes} {prevFd : Option Nat} {cmdandfile : List Token}

/-- The table is the one before. -/
def SameTable (s s' : Shell) : Prop := ∀ fd, s'.file fd = s.file fd

/-- Between two stages: the first two descriptors and the reading end are open. -/
structure Between (s : Shell) (prevFd : Option Nat) : Prop where
  standard : s.HasStandard
  prevOpen : ∀ fd, prevFd = some fd → 1 < fd ∧ s.file fd ≠ none

theorem file_closeIfOpen_of_ne (s : Shell) {fd : Nat} (h : prevFd ≠ some fd) :
    (closeIfOpen prevFd s).file fd = s.file fd := by
  cases prevFd with
  | none => rfl
  | some prev => exact file_close_of_ne s fd fun heq => h (congrArg some heq.symm)

theorem file_closeIfOpen_self (s : Shell) {fd : Nat} (h : prevFd = some fd) :
    (closeIfOpen prevFd s).file fd = none := by
  rw [h]
  exact file_close_self s fd

/-- A pipe is two new descriptors. -/
theorem pipe_spec (h : Between s prevFd) :
    s.file s.pipe.1 = none ∧ s.file s.pipe.2.1 = none ∧ s.pipe.1 ≠ s.pipe.2.1 ∧
      Piped s.pipe.2.2 prevFd s.pipe.2.1 ∧ s.pipe.2.2.file s.pipe.1 ≠ none ∧ 1 < s.pipe.1 ∧
      ∀ fd, fd ≠ s.pipe.1 → fd ≠ s.pipe.2.1 → s.pipe.2.2.file fd = s.file fd := by
  obtain ⟨hreading, hreadingOpen, hreadingOther⟩ := file_create s
  obtain ⟨hwriting, hwritingOpen, hwritingOther⟩ := file_create s.create.2
  have hne : s.create.1 ≠ s.create.2.create.1 := by
    intro heq
    rw [heq] at hreadingOpen
    exact hreadingOpen hwriting
  have hfree : s.file s.create.2.create.1 = none := by
    rw [← hreadingOther _ (Ne.symm hne)]
    exact hwriting
  have hothers : ∀ fd, fd ≠ s.create.1 → fd ≠ s.create.2.create.1 →
      s.create.2.create.2.file fd = s.file fd := by
    intro fd hneReading hneWriting
    rw [hwritingOther fd hneWriting, hreadingOther fd hneReading]
  have hkeeps : ∀ fd, s.file fd ≠ none → s.create.2.create.2.file fd ≠ none := by
    intro fd hopen
    rw [hothers fd (fun heq => hopen (heq ▸ hreading)) fun heq => hopen (heq ▸ hfree)]
    exact hopen
  have hlarge : ∀ fd, s.file fd = none → 1 < fd := by
    intro fd hclosed
    by_contra hsmall
    exact h.standard fd (by omega) hclosed
  have hpiped : Piped s.create.2.create.2 prevFd s.create.2.create.1 :=
    ⟨fun fd hfd => hkeeps fd (h.standard fd hfd),
      fun fd hfd => ⟨(h.prevOpen fd hfd).1, hkeeps fd (h.prevOpen fd hfd).2⟩,
      Or.inr ⟨hlarge _ hfree, hwritingOpen⟩⟩
  refine ⟨hreading, hfree, hne, hpiped, ?_, hlarge _ hreading, hothers⟩
  exact (hwritingOther _ hne).symm ▸ hreadingOpen

/-- A stage in front of a pipe. -/
theorem stage_between {token : Token} {t : Shell} (h : Between s prevFd)
    (hrun : executor outcomes token prevFd s.pipe.2.1 s.pipe.2.2 = some t) :
    Between (closeIfOpen prevFd (t.close s.pipe.2.1)) (some s.pipe.1) ∧
      ∀ fd, 1 < fd → prevFd ≠ some fd → s.file fd ≠ none →
        (closeIfOpen prevFd (t.close s.pipe.2.1)).file fd = s.file fd := by
  obtain ⟨hreading, hwriting, hne, hpiped, hopen, hlarge, hothers⟩ := pipe_spec h
  obtain ⟨hstandard, hkeeps⟩ := executor_keeps hpiped hrun
  have hafter : ∀ fd, prevFd ≠ some fd → fd ≠ s.pipe.2.1 →
      (closeIfOpen prevFd (t.close s.pipe.2.1)).file fd = t.file fd := by
    intro fd hprev hneOut
    rw [file_closeIfOpen_of_ne _ hprev, file_close_of_ne _ _ hneOut]
  have hprevReading : prevFd ≠ some s.pipe.1 := fun heq => (h.prevOpen _ heq).2 hreading
  refine ⟨⟨fun fd hfd => ?_, fun fd hfd => ?_⟩, fun fd hbig hprev hfd => ?_⟩
  · have hprev : prevFd ≠ some fd := fun heq => absurd (h.prevOpen fd heq).1 (by omega)
    have hneOut : fd ≠ s.pipe.2.1 := by
      rintro rfl
      exact h.standard _ hfd hwriting
    rw [hafter fd hprev hneOut]
    exact hstandard fd hfd
  · obtain rfl := Option.some.inj hfd
    rw [hafter _ hprevReading hne, hkeeps _ hlarge hprevReading hne hopen]
    exact ⟨hlarge, hopen⟩
  · have hneReading : fd ≠ s.pipe.1 := fun heq => hfd (heq ▸ hreading)
    have hneOut : fd ≠ s.pipe.2.1 := fun heq => hfd (heq ▸ hwriting)
    have hsame := hothers fd hneReading hneOut
    rw [hafter fd hprev hneOut, hkeeps fd hbig hprev hneOut (by rw [hsame]; exact hfd), hsame]

/-- The loop, when another stage follows. -/
theorem exists_stage {token next : Token} {rest : List Token}
    (hrun : commandProcessorFrom outcomes prevFd s (token :: next :: rest) = some s') :
    ∃ t, executor outcomes token prevFd s.pipe.2.1 s.pipe.2.2 = some t ∧
      commandProcessorFrom outcomes (some s.pipe.1) (closeIfOpen prevFd (t.close s.pipe.2.1))
        (next :: rest) = some s' := by
  rw [commandProcessorFrom] at hrun
  dsimp only at hrun
  split at hrun
  · cases hrun
  · next t hstage => exact ⟨t, hstage, hrun⟩

/-- Stages with command words leave the table without the reading end. -/
theorem gives_back (h : Between s prevFd) (hne : cmdandfile ≠ [])
    (hcommands : ∀ token ∈ cmdandfile, token.multiCommand ≠ [])
    (hrun : commandProcessorFrom outcomes prevFd s cmdandfile = some s') (fd : Nat) :
    s'.file fd = (closeIfOpen prevFd s).file fd := by
  induction cmdandfile generalizing s prevFd with
  | nil => exact absurd rfl hne
  | cons token rest ih =>
      obtain ⟨hcommand, hcommands⟩ := List.forall_mem_cons.mp hcommands
      cases rest with
      | nil =>
          obtain ⟨t, hstage, rfl⟩ := Option.map_eq_some_iff.mp hrun
          have hpiped : Piped s prevFd 1 := ⟨h.standard, h.prevOpen, Or.inl rfl⟩
          by_cases hprev : prevFd = some fd
          · rw [file_closeIfOpen_self _ hprev, file_closeIfOpen_self _ hprev]
          · rw [file_closeIfOpen_of_ne _ hprev, file_closeIfOpen_of_ne _ hprev]
            exact executor_gives_back hpiped hcommand hstage fd hprev (Or.inl rfl)
      | cons next rest =>
          obtain ⟨hreading, hwriting, -, hpiped, -, -, hothers⟩ := pipe_spec h
          obtain ⟨t, hstage, hlater⟩ := exists_stage hrun
          have hback := executor_gives_back hpiped hcommand hstage fd
          rw [ih (stage_between h hstage).1 (List.cons_ne_nil _ _) hcommands hlater]
          by_cases hprev : prevFd = some fd
          · have hopen := (h.prevOpen fd hprev).2
            have hne : some s.pipe.1 ≠ some fd := fun heq =>
              hopen (Option.some.inj heq ▸ hreading)
            rw [file_closeIfOpen_of_ne _ hne, file_closeIfOpen_self _ hprev,
              file_closeIfOpen_self _ hprev]
          · rw [file_closeIfOpen_of_ne s hprev]
            by_cases hreadingEnd : some s.pipe.1 = some fd
            · rw [file_closeIfOpen_self _ hreadingEnd, ← Option.some.inj hreadingEnd, hreading]
            · rw [file_closeIfOpen_of_ne _ hreadingEnd, file_closeIfOpen_of_ne _ hprev]
              by_cases hwritingEnd : fd = s.pipe.2.1
              · rw [hwritingEnd, file_close_self, hwriting]
              · rw [file_close_of_ne _ _ hwritingEnd, hback hprev (Or.inr hwritingEnd)]
                exact hothers fd (fun heq => hreadingEnd (congrArg some heq.symm)) hwritingEnd

/-- What is open beside the reading end stays open. -/
theorem stays_open (h : Between s prevFd)
    (hrun : commandProcessorFrom outcomes prevFd s cmdandfile = some s') {fd : Nat} (hlarge : 1 < fd)
    (hprev : prevFd ≠ some fd) (hopen : s.file fd ≠ none) : s'.file fd ≠ none := by
  induction cmdandfile generalizing s prevFd with
  | nil =>
      rw [← Option.some.inj hrun]
      exact hopen
  | cons token rest ih =>
      cases rest with
      | nil =>
          obtain ⟨t, hstage, rfl⟩ := Option.map_eq_some_iff.mp hrun
          have hpiped : Piped s prevFd 1 := ⟨h.standard, h.prevOpen, Or.inl rfl⟩
          rw [file_closeIfOpen_of_ne _ hprev,
            (executor_keeps hpiped hstage).2 fd hlarge hprev (by omega) hopen]
          exact hopen
      | cons next rest =>
          obtain ⟨hreading, -⟩ := pipe_spec h
          obtain ⟨t, hstage, hlater⟩ := exists_stage hrun
          obtain ⟨hbetween, hkeeps⟩ := stage_between h hstage
          have hne : some s.pipe.1 ≠ some fd := fun heq => hopen (Option.some.inj heq ▸ hreading)
          apply ih hbetween hlater hne
          rw [hkeeps fd hlarge hprev hopen]
          exact hopen

/-- A stage without a command word leaves a descriptor open that was not. -/
theorem leaks (h : Between s prevFd) (hcommand : ∃ token ∈ cmdandfile, token.multiCommand = [])
    (hrun : commandProcessorFrom outcomes prevFd s cmdandfile = some s') :
    ∃ fd, (prevFd = some fd ∨ s.file fd = none) ∧ s'.file fd ≠ none := by
  induction cmdandfile generalizing s prevFd with
  | nil =>
      obtain ⟨token, htoken, -⟩ := hcommand
      cases htoken
  | cons token rest ih =>
      cases rest with
      | nil =>
          obtain ⟨t, hstage, rfl⟩ := Option.map_eq_some_iff.mp hrun
          have hpiped : Piped s prevFd 1 := ⟨h.standard, h.prevOpen, Or.inl rfl⟩
          obtain ⟨other, hother, hnone⟩ := hcommand
          obtain rfl := List.mem_singleton.mp hother
          obtain ⟨-, ⟨copy, hfree, hleft⟩, -⟩ := executor_leaves_copy hpiped hnone hstage
          refine ⟨copy, Or.inr hfree, ?_⟩
          rw [file_closeIfOpen_of_ne _ (hpiped.unpiped hfree).2.1]
          exact hleft
      | cons next rest =>
          obtain ⟨hreading, hwriting, -, hpiped, hreadingOpen, -, hothers⟩ := pipe_spec h
          obtain ⟨t, hstage, hlater⟩ := exists_stage hrun
          obtain ⟨hbetween, hkeeps⟩ := stage_between h hstage
          by_cases hnone : token.multiCommand = []
          · obtain ⟨-, ⟨copy, hfree, hleft⟩, -⟩ := executor_leaves_copy hpiped hnone hstage
            obtain ⟨hlarge, hprev, hneOut⟩ := hpiped.unpiped hfree
            have hneReading : copy ≠ s.pipe.1 := fun heq => hreadingOpen (heq ▸ hfree)
            refine ⟨copy, Or.inr ?_, ?_⟩
            · rw [← hothers copy hneReading hneOut]
              exact hfree
            · refine stays_open hbetween hlater hlarge (fun heq => ?_) ?_
              · exact hneReading (Option.some.inj heq).symm
              · rw [file_closeIfOpen_of_ne _ hprev, file_close_of_ne _ _ hneOut]
                exact hleft
          · obtain ⟨other, hother, hempty⟩ := hcommand
            have hrest : other ∈ next :: rest := by
              rcases List.mem_cons.mp hother with rfl | hrest
              · exact absurd hempty hnone
              · exact hrest
            obtain ⟨fd, hfd, hleft⟩ := ih hbetween ⟨other, hrest, hempty⟩ hlater
            refine ⟨fd, ?_, hleft⟩
            rcases hfd with heq | hclosed
            · exact Or.inr (Option.some.inj heq ▸ hreading)
            · by_contra hneither
              obtain ⟨hprev, hopen⟩ := not_or.mp hneither
              by_cases hlarge : 1 < fd
              · rw [hkeeps fd hlarge hprev hopen] at hclosed
                exact hopen hclosed
              · exact hbetween.standard fd (by omega) hclosed

end Lists

/-- The table of the shell is the one before exactly when every stage has a command
word, whatever the redirections, the builtins and the outcomes. -/
theorem commandProcessor_sameTable_iff {outcomes : Outcomes} {s s' : Shell}
    {cmdandfile : List Token} (hstandard : s.HasStandard)
    (hrun : commandProcessor outcomes s cmdandfile = some s') :
    SameTable s s' ↔ ∀ token ∈ cmdandfile, token.multiCommand ≠ [] := by
  have hbetween : Between s none := ⟨hstandard, fun fd hfd => nomatch hfd⟩
  constructor
  · intro hsame token htoken hcommand
    obtain ⟨fd, hfd, hopen⟩ := leaks hbetween ⟨token, htoken, hcommand⟩ hrun
    rw [hsame fd] at hopen
    exact hopen (hfd.resolve_left fun heq => nomatch heq)
  · intro hcommands fd
    by_cases hne : cmdandfile = []
    · subst hne
      rw [Option.some.inj hrun]
    · exact gives_back hbetween hne hcommands hrun fd

/-- Standard input, output and error. -/
private def someShell : Shell := { table := [some 0, some 1, some 2], created := 3 }

private def allSucceed : Outcomes := ⟨fun _ => true, fun _ => true⟩

private theorem someShell_hasStandard : someShell.HasStandard := by
  intro fd hfd
  interval_cases fd <;> simp [someShell, Shell.file, DescriptorTable.file]

/-- `cat < a | wc`. -/
private def someCommands : List Token :=
  [⟨[], [['c', 'a', 't']], 1, [⟨['a'], .redirectionIn⟩]⟩, ⟨[], [['w', 'c']], 1, []⟩]

private def afterCommands : Shell :=
  { table := [some 0, some 1, some 2, none, none, none, none, none]
    created := 6
    opened := 1
    forked := 2 }

private theorem run_someCommands :
    commandProcessor allSucceed someShell someCommands = some afterCommands := by
  decide +kernel

theorem commandProcessor_sameTable_iff_some :
    SameTable someShell afterCommands ↔ ∀ token ∈ someCommands, token.multiCommand ≠ [] :=
  commandProcessor_sameTable_iff someShell_hasStandard run_someCommands

/-- `> f` leaves its two copies open, and standard output in the file. -/
theorem empty_stage_leaks :
    someShell.HasStandard ∧
      ∃ s', commandProcessor allSucceed someShell [⟨[], [], 0, [⟨['f'], .redirectionOut⟩]⟩] = some s' ∧
        s'.table = [some 0, some 3, some 2, some 0, some 1, none] ∧ ¬SameTable someShell s' := by
  refine ⟨someShell_hasStandard, _, rfl, rfl, ?_⟩
  intro hsame
  have hleft := hsame 3
  cases hleft

end FortyTwo.Minishell
