import FortyTwo.Foundation.BoundedLoop
import FortyTwo.Pipex.Processes

/-!
The processes of the pipe from the first `fork` on, in whatever order they go on.
-/

namespace FortyTwo.Pipex

open Foundation DescriptorTable Relation

variable {outcomes : Outcomes} {argv envp : List Str} {t T : Table} {data : Data}

/-- The table that the program is started with. -/
structure Standard (t : Table) : Prop where
  stdin : t.file 0 ≠ none
  stdout : t.file 1 ≠ none
  noEnd : ∀ f, f.IsEnd → ¬ t.Holds f

section Opening

/-- The four descriptors more than there were at first. -/
structure Opened (t T : Table) (data : Data) : Prop where
  file : ∀ n, T.file n =
    if n = data.fd.2 then some .writeEnd
    else if n = data.fd.1 then some .readEnd
    else if n = data.readfile then some (.other .file1)
    else if n = data.writefile then some (.other .file2)
    else t.file n
  above : 1 < data.writefile ∧ 1 < data.readfile ∧ 1 < data.fd.1 ∧ 1 < data.fd.2
  free : t.file data.writefile = none ∧ t.file data.readfile = none ∧
    t.file data.fd.1 = none ∧ t.file data.fd.2 = none
  distinct : [data.writefile, data.readfile, data.fd.1, data.fd.2].Nodup

private theorem openFile_eq_ok {file : Str} {opened : File} {fd : Nat} {t' : Table}
    (h : openFile outcomes t file opened = .ok (fd, t')) :
    fd = t.lowestFree ∧ t' = t.assign fd (some (.other opened)) := by
  rw [openFile] at h
  split at h
  · cases h
  · split at h
    · cases h
      exact ⟨rfl, rfl⟩
    · cases h

private theorem pipe_eq_ok {fd : Nat × Nat} {t' : Table} (h : pipe outcomes t = .ok (fd, t')) :
    fd.1 = t.lowestFree ∧ fd.2 = (t.assign fd.1 (some .readEnd)).lowestFree ∧
      t' = (t.assign fd.1 (some .readEnd)).assign fd.2 (some .writeEnd) := by
  rw [pipe] at h
  split at h
  · cases h
    exact ⟨rfl, rfl, rfl⟩
  · cases h

/-- What is opened gets a number that is neither a standard one nor in use. -/
private theorem opened_spec {t' : Table} {f : PipeFile File} (h : Standard t)
    (hkept : ∀ n, t.file n ≠ none → t'.file n ≠ none) {fd : Nat} (hfd : fd = t'.lowestFree)
    {t'' : Table} (ht : t'' = t'.assign fd (some f)) :
    1 < fd ∧ t.file fd = none ∧ t''.file fd ≠ none ∧
      (∀ n, t'.file n ≠ none → n ≠ fd ∧ t''.file n ≠ none) := by
  have hfree : t'.file fd = none := hfd ▸ t'.file_lowestFree
  refine ⟨?_, ?_, ?_, ?_⟩
  · have hzero : fd ≠ 0 := fun heq => hkept 0 h.stdin (heq ▸ hfree)
    have hone : fd ≠ 1 := fun heq => hkept 1 h.stdout (heq ▸ hfree)
    omega
  · by_contra hopen
    exact hkept _ hopen hfree
  · rw [ht, file_assign, if_pos rfl]
    exact Option.some_ne_none f
  · intro n hopen
    have hne : n ≠ fd := by
      rintro rfl
      exact hopen hfree
    rw [ht, file_assign, if_neg hne]
    exact ⟨hne, hopen⟩

theorem prepare_opened (h : Standard t) (hprepare : prepare outcomes argv envp t = .ok (data, T)) :
    Opened t T data := by
  rw [prepare] at hprepare
  split at hprepare
  · obtain ⟨⟨writefile, t₁⟩, hwrite, hprepare⟩ := except_bind_eq_ok.1 hprepare
    obtain ⟨⟨readfile, t₂⟩, hread, hprepare⟩ := except_bind_eq_ok.1 hprepare
    obtain ⟨⟨fd, t₃⟩, hpipe, hprepare⟩ := except_bind_eq_ok.1 hprepare
    obtain ⟨path, -, hprepare⟩ := except_bind_eq_ok.1 hprepare
    obtain ⟨rfl, rfl⟩ := Prod.mk.inj (Except.ok.inj hprepare)
    obtain ⟨hw, ht₁⟩ := openFile_eq_ok hwrite
    obtain ⟨hr, ht₂⟩ := openFile_eq_ok hread
    obtain ⟨ha, hb, ht₃⟩ := pipe_eq_ok hpipe
    obtain ⟨hw₁, hwfree, hwself, hw₂⟩ := opened_spec h (fun _ hn => hn) hw ht₁
    obtain ⟨hr₁, hrfree, hrself, hr₂⟩ := opened_spec h (fun n hn => (hw₂ n hn).2) hr ht₂
    obtain ⟨ha₁, hafree, haself, ha₂⟩ :=
      opened_spec h (fun n hn => (hr₂ n (hw₂ n hn).2).2) ha rfl
    obtain ⟨hb₁, hbfree, hbself, hb₂⟩ :=
      opened_spec h (fun n hn => (ha₂ n (hr₂ n (hw₂ n hn).2).2).2) hb ht₃
    have hwr := hr₂ writefile hwself
    have hwa := ha₂ writefile hwr.2
    have hwb := hb₂ writefile hwa.2
    have hra := ha₂ readfile hrself
    have hrb := hb₂ readfile hra.2
    have hab := hb₂ fd.1 haself
    refine ⟨fun n => ?_, ⟨hw₁, hr₁, ha₁, hb₁⟩, ⟨hwfree, hrfree, hafree, hbfree⟩, ?_⟩
    · rw [ht₃, file_assign, file_assign, ht₂, file_assign, ht₁, file_assign]
    · simp [hwr.1, hwa.1, hwb.1, hra.1, hrb.1, hab.1]
  · cases hprepare

end Opening

section Commands

/-- What the first command has: the writing end of the pipe as its output, and `file2`
still open. -/
def FirstConnected (outcomes : Outcomes) (argv : List Str) (data : Data) (t t' : Table)
    (c : Command) : Prop :=
  commandOf outcomes (argv.getD 2 []) data = some c ∧ ∀ n, t'.file n =
    if n = 0 then some (.other .file1)
    else if n = 1 then some .writeEnd
    else if n = data.writefile then some (.other .file2)
    else t.file n

/-- What the second command has. -/
def SecondConnected (outcomes : Outcomes) (argv : List Str) (data : Data) (t t' : Table)
    (c : Command) : Prop :=
  commandOf outcomes (argv.getD 3 []) data = some c ∧ ∀ n, t'.file n =
    if n = 0 then some .readEnd
    else if n = 1 then some (.other .file2)
    else t.file n

/-- The table behind the two `close` of the program itself. -/
def closed (T : Table) (data : Data) : Table := (T.close data.fd.2).close data.readfile

variable (h : Opened t T data)
include h

theorem Opened.ne : data.writefile ≠ data.readfile ∧ data.writefile ≠ data.fd.1 ∧
    data.writefile ≠ data.fd.2 ∧ data.readfile ≠ data.fd.1 ∧ data.readfile ≠ data.fd.2 ∧
    data.fd.1 ≠ data.fd.2 := by
  have hdistinct := h.distinct
  simp only [List.nodup_cons, List.mem_cons, List.not_mem_nil, or_false, not_or] at hdistinct
  tauto

theorem Opened.writeEnd : T.file data.fd.2 = some .writeEnd := by
  rw [h.file, if_pos rfl]

theorem Opened.readEnd : T.file data.fd.1 = some .readEnd := by
  rw [h.file, if_neg h.ne.2.2.2.2.2, if_pos rfl]

theorem Opened.input : T.file data.readfile = some (.other .file1) := by
  rw [h.file, if_neg h.ne.2.2.2.2.1, if_neg h.ne.2.2.2.1, if_pos rfl]

theorem Opened.output : T.file data.writefile = some (.other .file2) := by
  rw [h.file, if_neg h.ne.2.2.1, if_neg h.ne.2.1, if_neg h.ne.1, if_pos rfl]

theorem readProcess_child : Child (FirstConnected outcomes argv data t)
    ⟨T, .program (readProcess outcomes (argv.getD 2 []) data)⟩ := by
  rw [readProcess]
  split
  · exact .program trivial nofun
  · next c hc =>
      refine .program ⟨1, rfl⟩ ?_
      rintro t' c' hexec
      obtain ⟨rfl, rfl⟩ := Prod.mk.inj (Option.some.inj hexec)
      refine ⟨hc, fun n => ?_⟩
      obtain ⟨hw, hr, ha, hb⟩ := h.above
      obtain ⟨hwr, hwa, hwb, hra, hrb, hab⟩ := h.ne
      obtain ⟨-, hfree⟩ := h.free
      have hend : (T.dup2 data.readfile 0).file data.fd.2 = some .writeEnd := by
        rw [file_dup2 T h.input, if_neg (by omega), h.writeEnd]
      simp only [file_close, file_dup2 _ hend, file_dup2 T h.input, h.file]
      clear hexec hend
      grind

theorem writeProcess_child : Child (SecondConnected outcomes argv data t)
    ⟨closed T data, .program (writeProcess outcomes (argv.getD 3 []) data)⟩ := by
  rw [writeProcess]
  split
  · exact .program trivial nofun
  · next c hc =>
      refine .program ⟨1, rfl⟩ ?_
      rintro t' c' hexec
      obtain ⟨rfl, rfl⟩ := Prod.mk.inj (Option.some.inj hexec)
      refine ⟨hc, fun n => ?_⟩
      obtain ⟨hw, hr, ha, hb⟩ := h.above
      obtain ⟨hwr, hwa, hwb, hra, hrb, hab⟩ := h.ne
      obtain ⟨hfree, hfree'⟩ := h.free
      have houtput : (closed T data).file data.writefile = some (.other .file2) := by
        rw [closed, file_close, if_neg hwr, file_close, if_neg hwb, h.output]
      have hend : ((closed T data).dup2 data.writefile 1).file data.fd.1 = some .readEnd := by
        rw [file_dup2 _ houtput, if_neg (by omega), closed, file_close, if_neg hra.symm,
          file_close, if_neg hab, h.readEnd]
      simp only [file_close, file_dup2 _ hend, file_dup2 _ houtput]
      simp only [closed, file_close, h.file]
      clear hexec hend houtput
      grind

end Commands

section Scenes

/-- The process of the program at the end of its work, or after a `fork` that has failed. -/
inductive Leaves (status : UInt8) : Process File Command → Prop
  | exit {table : Table} : Leaves status ⟨table, .program (.exit status)⟩
  | ended : Leaves status ⟨[], .ended (.exited status)⟩

/-- The processes that there are, by how far the first of them has come. -/
inductive Scene (outcomes : Outcomes) (argv : List Str) (data : Data) (t T : Table) :
    List (Process File Command) → Prop
  | start : Scene outcomes argv data t T [⟨T, .program (multiProcesses outcomes argv data)⟩]
  | forkFailed {p} : Leaves 1 p → Scene outcomes argv data t T [p]
  | closing {f} : Child (FirstConnected outcomes argv data t) f →
      Scene outcomes argv data t T [⟨T, .program (.close data.fd.2 (.close data.readfile
        (secondFork outcomes argv data 1)))⟩, f]
  | closingInput {f} : Child (FirstConnected outcomes argv data t) f →
      Scene outcomes argv data t T [⟨T.close data.fd.2, .program (.close data.readfile
        (secondFork outcomes argv data 1))⟩, f]
  | forking {f} : Child (FirstConnected outcomes argv data t) f →
      Scene outcomes argv data t T
        [⟨closed T data, .program (secondFork outcomes argv data 1)⟩, f]
  | secondForkFailed {p f} : Leaves 1 p → Child (FirstConnected outcomes argv data t) f →
      Scene outcomes argv data t T [p, f]
  | waiting {f g} : Child (FirstConnected outcomes argv data t) f →
      Child (SecondConnected outcomes argv data t) g → ¬ g.table.Holds .writeEnd →
      Scene outcomes argv data t T [⟨closed T data, .program
        (.waitpid 1 fun _ => .waitpid 2 (afterWaiting data))⟩, f, g]
  | waitingSecond {ending g} : Child (SecondConnected outcomes argv data t) g →
      ¬ g.table.Holds .writeEnd →
      Scene outcomes argv data t T [⟨closed T data, .program (.waitpid 2 (afterWaiting data))⟩,
        ⟨[], .ended ending⟩, g]
  | finishing {table : Table} {ending status} :
      Scene outcomes argv data t T [⟨table, .program (afterWaiting data status)⟩,
        ⟨[], .ended ending⟩, ⟨[], .ended status⟩]
  | closingOutput {table : Table} {ending status} :
      Scene outcomes argv data t T [⟨table, .program (.close data.writefile
        (.exit (exitStatus status)))⟩, ⟨[], .ended ending⟩, ⟨[], .ended status⟩]
  | finished {p ending status} : Leaves (exitStatus status) p →
      Scene outcomes argv data t T [p, ⟨[], .ended ending⟩, ⟨[], .ended status⟩]

private theorem set_one {α : Type} {x q : α} {i : Nat} (hq : [x][i]? = some q) (q' : α) :
    q = x ∧ [x].set i q' = [q'] := by
  rcases i with _ | i
  · exact ⟨(Option.some.inj hq).symm, rfl⟩
  · cases hq

private theorem set_two {α : Type} {x y q : α} {i : Nat} (hq : [x, y][i]? = some q) (q' : α) :
    q = x ∧ [x, y].set i q' = [q', y] ∨ q = y ∧ [x, y].set i q' = [x, q'] := by
  rcases i with _ | i
  · exact Or.inl ⟨(Option.some.inj hq).symm, rfl⟩
  · obtain ⟨rfl, hset⟩ := set_one (i := i) hq q'
    exact Or.inr ⟨rfl, congrArg _ hset⟩

private theorem set_three {α : Type} {x y z q : α} {i : Nat} (hq : [x, y, z][i]? = some q)
    (q' : α) : q = x ∧ [x, y, z].set i q' = [q', y, z] ∨
      q = y ∧ [x, y, z].set i q' = [x, q', z] ∨ q = z ∧ [x, y, z].set i q' = [x, y, q'] := by
  rcases i with _ | i
  · exact Or.inl ⟨(Option.some.inj hq).symm, rfl⟩
  · obtain ⟨rfl, hset⟩ | ⟨rfl, hset⟩ := set_two (i := i) hq q'
    · exact Or.inr (Or.inl ⟨rfl, congrArg _ hset⟩)
    · exact Or.inr (Or.inr ⟨rfl, congrArg _ hset⟩)

private theorem Leaves.move {status : UInt8} {capacity buffered : Nat}
    {s : PipeSystem File Command} {p p' : Process File Command} (hleaves : Leaves status p)
    (hmove : Move capacity s p p' buffered) : Leaves status p' := by
  cases hleaves with
  | exit =>
      cases hmove with
      | exit => exact .ended
  | ended => cases hmove

private theorem Leaves.not_execve {status : UInt8} {p : Process File Command}
    (hleaves : Leaves status p) (c : Command) (failed : Program) :
    p.control ≠ .program (.execve c failed) := by
  cases hleaves with
  | exit => nofun
  | ended => nofun

private theorem at_one {α : Type} {P : Nat → α → Prop} {x : α} (h0 : P 0 x) {i : Nat} {q : α}
    (hq : [x][i]? = some q) : P i q := by
  rcases i with _ | i
  · exact Option.some.inj hq ▸ h0
  · cases hq

private theorem at_two {α : Type} {P : Nat → α → Prop} {x y : α} (h0 : P 0 x) (h1 : P 1 y)
    {i : Nat} {q : α} (hq : [x, y][i]? = some q) : P i q := by
  rcases i with _ | i
  · exact Option.some.inj hq ▸ h0
  · exact at_one (P := fun i => P (i + 1)) h1 hq

private theorem at_three {α : Type} {P : Nat → α → Prop} {x y z : α} (h0 : P 0 x) (h1 : P 1 y)
    (h2 : P 2 z) {i : Nat} {q : α} (hq : [x, y, z][i]? = some q) : P i q := by
  rcases i with _ | i
  · exact Option.some.inj hq ▸ h0
  · exact at_two (P := fun i => P (i + 1)) h1 h2 hq

/-- The program executes nothing itself, and its children are what they were forked for. -/
theorem Scene.proc {procs : List (Process File Command)}
    (hscene : Scene outcomes argv data t T procs) {i : Nat} {p : Process File Command}
    (hproc : procs[i]? = some p) :
    (i = 0 ∧ ∀ c failed, p.control ≠ .program (.execve c failed)) ∨
      (i = 1 ∧ Child (FirstConnected outcomes argv data t) p) ∨
      (i = 2 ∧ Child (SecondConnected outcomes argv data t) p) := by
  let P : Nat → Process File Command → Prop := fun i p =>
    (i = 0 ∧ ∀ c failed, p.control ≠ .program (.execve c failed)) ∨
      (i = 1 ∧ Child (FirstConnected outcomes argv data t) p) ∨
      (i = 2 ∧ Child (SecondConnected outcomes argv data t) p)
  have hleft : ∀ {status p}, Leaves status p → P 0 p :=
    fun hleaves => Or.inl ⟨rfl, hleaves.not_execve⟩
  have hown : ∀ {table rest}, (∀ c failed, rest ≠ .execve c failed) →
      P 0 ⟨table, .program rest⟩ := fun hne =>
    Or.inl ⟨rfl, fun c failed heq => hne c failed (Control.program.inj heq)⟩
  have hfirst : ∀ p, Child (FirstConnected outcomes argv data t) p → P 1 p :=
    fun p hp => Or.inr (Or.inl ⟨rfl, hp⟩)
  have hsecond : ∀ p, Child (SecondConnected outcomes argv data t) p → P 2 p :=
    fun p hp => Or.inr (Or.inr ⟨rfl, hp⟩)
  cases hscene with
  | start => exact at_one (P := P) (hown (by rintro c failed ⟨⟩)) hproc
  | forkFailed hleaves => exact at_one (P := P) (hleft hleaves) hproc
  | closing hf => exact at_two (P := P) (hown (by rintro c failed ⟨⟩)) (hfirst _ hf) hproc
  | closingInput hf => exact at_two (P := P) (hown (by rintro c failed ⟨⟩)) (hfirst _ hf) hproc
  | forking hf => exact at_two (P := P) (hown (by rintro c failed ⟨⟩)) (hfirst _ hf) hproc
  | secondForkFailed hleaves hf =>
      exact at_two (P := P) (hleft hleaves) (hfirst _ hf) hproc
  | waiting hf hg =>
      exact at_three (P := P) (hown (by rintro c failed ⟨⟩)) (hfirst _ hf) (hsecond _ hg) hproc
  | waitingSecond hg =>
      exact at_three (P := P) (hown (by rintro c failed ⟨⟩)) (hfirst _ .ended) (hsecond _ hg) hproc
  | finishing =>
      exact at_three (P := P) (hown (by rintro c failed ⟨⟩)) (hfirst _ .ended) (hsecond _ .ended) hproc
  | closingOutput =>
      exact at_three (P := P) (hown (by rintro c failed ⟨⟩)) (hfirst _ .ended) (hsecond _ .ended) hproc
  | finished hleaves =>
      exact at_three (P := P) (hleft hleaves) (hfirst _ .ended) (hsecond _ .ended) hproc

variable (h : Opened t T data) (hstandard : Standard t)
include h hstandard

/-- Behind its two `close` the program does not hold the writing end any more. -/
theorem closed_not_holds : ¬ (closed T data).Holds .writeEnd := by
  rintro ⟨n, hn⟩
  rw [closed, file_close, file_close, h.file] at hn
  split_ifs at hn
  · cases hn
  · cases hn
  · exact hstandard.noEnd _ .writeEnd ⟨n, hn⟩

omit hstandard in
theorem closed_holds : (closed T data).Holds .readEnd := by
  refine ⟨data.fd.1, ?_⟩
  rw [closed, file_close, if_neg h.ne.2.2.2.1.symm, file_close, if_neg h.ne.2.2.2.2.2, h.readEnd]

/-- What the program itself, the only one that forks, and its children do next. -/
theorem Scene.step {capacity : Nat} {s s' : PipeSystem File Command}
    (hscene : Scene outcomes argv data t T s.procs) (hstep : PipeStep capacity s s') :
    Scene outcomes argv data t T s'.procs := by
  generalize hprocs : s.procs = procs at hscene
  cases hstep with
  | @move i q q' buffered hq hmove =>
      rw [hprocs] at hq
      show Scene outcomes argv data t T (s.procs.set i q')
      rw [hprocs]
      cases hscene with
      | start =>
          obtain ⟨rfl, hset⟩ := set_one hq q'
          rw [hset]
          cases hmove with
          | forkFailed => exact .forkFailed .exit
      | forkFailed hleaves =>
          obtain ⟨rfl, hset⟩ := set_one hq q'
          rw [hset]
          exact .forkFailed (hleaves.move hmove)
      | closing hf =>
          obtain ⟨rfl, hset⟩ | ⟨rfl, hset⟩ := set_two hq q'
          · rw [hset]
            cases hmove with
            | close => exact .closingInput hf
          · rw [hset]
            exact .closing (hf.move hmove)
      | closingInput hf =>
          obtain ⟨rfl, hset⟩ | ⟨rfl, hset⟩ := set_two hq q'
          · rw [hset]
            cases hmove with
            | close => exact .forking hf
          · rw [hset]
            exact .closingInput (hf.move hmove)
      | forking hf =>
          obtain ⟨rfl, hset⟩ | ⟨rfl, hset⟩ := set_two hq q'
          · rw [hset]
            cases hmove with
            | forkFailed => exact .secondForkFailed .exit hf
          · rw [hset]
            exact .forking (hf.move hmove)
      | secondForkFailed hleaves hf =>
          obtain ⟨rfl, hset⟩ | ⟨rfl, hset⟩ := set_two hq q'
          · rw [hset]
            exact .secondForkFailed (hleaves.move hmove) hf
          · rw [hset]
            exact .secondForkFailed hleaves (hf.move hmove)
      | @waiting f g hf hg hend =>
          obtain ⟨rfl, hset⟩ | ⟨rfl, hset⟩ | ⟨rfl, hset⟩ := set_three hq q'
          · rw [hset]
            cases hmove with
            | waited hended =>
                rw [hprocs] at hended
                obtain rfl := Option.some.inj hended
                obtain rfl := (Process.mk.inj (hf.ended_of_control rfl)).1
                exact .waitingSecond hg hend
          · rw [hset]
            exact .waiting (hf.move hmove) hg hend
          · rw [hset]
            exact .waiting hf (hg.move hmove) fun hholds => hend (hmove.holds .writeEnd hholds)
      | waitingSecond hg hend =>
          obtain ⟨rfl, hset⟩ | ⟨rfl, hset⟩ | ⟨rfl, hset⟩ := set_three hq q'
          · rw [hset]
            cases hmove with
            | waited hended =>
                rw [hprocs] at hended
                obtain rfl := Option.some.inj hended
                obtain rfl := (Process.mk.inj (hg.ended_of_control rfl)).1
                exact .finishing
          · cases hmove
          · rw [hset]
            exact .waitingSecond (hg.move hmove) fun hholds => hend (hmove.holds .writeEnd hholds)
      | finishing =>
          obtain ⟨rfl, hset⟩ | ⟨rfl, hset⟩ | ⟨rfl, hset⟩ := set_three hq q'
          · rw [hset]
            cases hmove with
            | close => exact .closingOutput
          · cases hmove
          · cases hmove
      | closingOutput =>
          obtain ⟨rfl, hset⟩ | ⟨rfl, hset⟩ | ⟨rfl, hset⟩ := set_three hq q'
          · rw [hset]
            cases hmove with
            | close => exact .finished .exit
          · cases hmove
          · cases hmove
      | finished hleaves =>
          obtain ⟨rfl, hset⟩ | ⟨rfl, hset⟩ | ⟨rfl, hset⟩ := set_three hq q'
          · rw [hset]
            exact .finished (hleaves.move hmove)
          · cases hmove
          · cases hmove
  | @fork i table failed child next hq =>
      rw [hprocs] at hq
      show Scene outcomes argv data t T (s.procs.set i ⟨table, .program (next s.procs.length)⟩ ++
        [⟨table, .program child⟩])
      rw [hprocs]
      cases hscene with
      | start =>
          obtain ⟨hforks, hset⟩ := set_one hq ⟨table, .program (next 1)⟩
          cases hforks
          rw [List.length_singleton, hset]
          exact .closing (readProcess_child h)
      | forkFailed hleaves =>
          obtain ⟨rfl, -⟩ := set_one hq ⟨table, .program (next 1)⟩
          cases hleaves
      | closing hf =>
          obtain ⟨hforks, -⟩ | ⟨rfl, -⟩ := set_two hq ⟨table, .program (next 2)⟩
          · cases hforks
          · exact absurd hf Child.not_fork
      | closingInput hf =>
          obtain ⟨hforks, -⟩ | ⟨rfl, -⟩ := set_two hq ⟨table, .program (next 2)⟩
          · cases hforks
          · exact absurd hf Child.not_fork
      | forking hf =>
          obtain ⟨hforks, hset⟩ | ⟨rfl, -⟩ := set_two hq ⟨table, .program (next 2)⟩
          · cases hforks
            rw [List.length_cons, List.length_singleton, hset]
            exact .waiting hf (writeProcess_child h) (closed_not_holds h hstandard)
          · exact absurd hf Child.not_fork
      | secondForkFailed hleaves hf =>
          obtain ⟨rfl, -⟩ | ⟨rfl, -⟩ := set_two hq ⟨table, .program (next 2)⟩
          · cases hleaves
          · exact absurd hf Child.not_fork
      | waiting hf hg =>
          obtain ⟨hforks, -⟩ | ⟨rfl, -⟩ | ⟨rfl, -⟩ := set_three hq ⟨table, .program (next 3)⟩
          · cases hforks
          · exact absurd hf Child.not_fork
          · exact absurd hg Child.not_fork
      | waitingSecond hg =>
          obtain ⟨hforks, -⟩ | ⟨hforks, -⟩ | ⟨rfl, -⟩ := set_three hq ⟨table, .program (next 3)⟩
          · cases hforks
          · cases hforks
          · exact absurd hg Child.not_fork
      | finishing =>
          obtain ⟨hforks, -⟩ | ⟨hforks, -⟩ | ⟨hforks, -⟩ :=
            set_three hq ⟨table, .program (next 3)⟩ <;> cases hforks
      | closingOutput =>
          obtain ⟨hforks, -⟩ | ⟨hforks, -⟩ | ⟨hforks, -⟩ :=
            set_three hq ⟨table, .program (next 3)⟩ <;> cases hforks
      | finished hleaves =>
          obtain ⟨rfl, -⟩ | ⟨hforks, -⟩ | ⟨hforks, -⟩ :=
            set_three hq ⟨table, .program (next 3)⟩
          · cases hleaves
          · cases hforks
          · cases hforks

end Scenes

section Results

variable {capacity : Nat} {start s : PipeSystem File Command}

private theorem main_eq_ok (hmain : main outcomes argv envp t = .ok start) :
    ∃ data T, prepare outcomes argv envp t = .ok (data, T) ∧
      start = ⟨[⟨T, .program (multiProcesses outcomes argv data)⟩], 0⟩ := by
  rw [main] at hmain
  obtain ⟨⟨data, T⟩, hprepare, hmain⟩ := except_bind_eq_ok.1 hmain
  exact ⟨data, T, hprepare, (Except.ok.inj hmain).symm⟩

private theorem scene_of_run (h : Opened t T data) (hstandard : Standard t)
    (hrun : ReflTransGen (PipeStep capacity)
      ⟨[⟨T, .program (multiProcesses outcomes argv data)⟩], 0⟩ s) :
    Scene outcomes argv data t T s.procs := by
  induction hrun with
  | refl => exact .start
  | tail _ hstep ih => exact ih.step h hstandard hstep

section Example

/-- Everything that is asked for is there. -/
def Outcomes.all : Outcomes := ⟨fun _ _ => true, fun _ => true, true⟩

def standardTable : Table :=
  [some (.other (.inherited 0)), some (.other (.inherited 1)), some (.other (.inherited 2))]

theorem standard_standardTable : Standard standardTable where
  stdin := by decide
  stdout := by decide
  noEnd f hend := by
    rintro ⟨n, hn⟩
    rcases n with _ | _ | _ | n
    all_goals cases hend <;> cases hn

/-- `pipex in yes true out`, with `PATH=/bin`. -/
def yesTrue : List Str := ["pipex", "in", "yes", "true", "out"].map String.toList

def onlyPath : List Str := ["PATH=/bin".toList]

def yesTrueData : Data :=
  { fd := (5, 6), readfile := 4, writefile := 3, path := ftSplit ':' "/bin".toList
    envp := onlyPath }

def yesTrueTable : Table := standardTable ++
  [some (.other .file2), some (.other .file1), some .readEnd, some .writeEnd]

def yesTrueStart : PipeSystem File Command :=
  ⟨[⟨yesTrueTable, .program (multiProcesses .all yesTrue yesTrueData)⟩], 0⟩

theorem prepare_yesTrue :
    prepare .all yesTrue onlyPath standardTable = .ok (yesTrueData, yesTrueTable) := rfl

theorem main_yesTrue : main .all yesTrue onlyPath standardTable = .ok yesTrueStart := rfl

private theorem commandOf_plain {word : Str} (hne : word ≠ [])
    (hblank : ' ' ∉ word) (hsingle : '\'' ∉ word) (hdouble : '"' ∉ word)
    (hword : separator ∉ word) (hslash : ¬ "./".toList <+: word) :
    commandOf .all word yesTrueData = some ⟨"/bin/".toList ++ word, [word], onlyPath⟩ := by
  have hplain : ∀ c ∈ word, c ≠ ' ' ∧ c ≠ '\'' ∧ c ≠ '"' := fun c hc =>
    ⟨ne_of_mem_of_not_mem hc hblank, ne_of_mem_of_not_mem hc hsingle,
      ne_of_mem_of_not_mem hc hdouble⟩
  have hsame := multiQuetes_plain hplain []
  rw [List.append_nil, multiQuetes, List.append_nil] at hsame
  have hsplit : ftSplit separator (multiQuetes word) = [word] := by
    rw [hsame, ftSplit_eq, words_of_not_mem hword, if_neg hne]
  have hpath : yesTrueData.path = ["/bin".toList] := by
    show ftSplit ':' "/bin".toList = _
    rw [ftSplit_eq]
    rfl
  rw [commandOf, hsplit, hpath, List.head?_cons, commandExists, if_neg fun h => hslash h.2]
  rfl

private theorem commandOf_yes : commandOf .all (yesTrue.getD 2 []) yesTrueData =
    some ⟨"/bin/yes".toList, ["yes".toList], onlyPath⟩ :=
  commandOf_plain (by decide) (by decide) (by decide) (by decide) (by decide) (by decide)

private theorem commandOf_true : commandOf .all (yesTrue.getD 3 []) yesTrueData =
    some ⟨"/bin/true".toList, ["true".toList], onlyPath⟩ :=
  commandOf_plain (by decide) (by decide) (by decide) (by decide) (by decide) (by decide)

end Example

/-- Whenever a process of the program is about to execute a command, it is the first or the
second of its children, the command is the one that it was given, and the descriptors are
those of the pipe and of the two files. -/
theorem commands_of_run (hstandard : Standard t) (hmain : main outcomes argv envp t = .ok start)
    (hrun : ReflTransGen (PipeStep capacity) start s) {i : Nat} {table : Table} {c : Command}
    {failed : Program} (hproc : s.procs[i]? = some ⟨table, .program (.execve c failed)⟩) :
    ∃ data T, prepare outcomes argv envp t = .ok (data, T) ∧
      (i = 1 ∧ FirstConnected outcomes argv data t table c ∨
        i = 2 ∧ SecondConnected outcomes argv data t table c) := by
  obtain ⟨data, T, hprepare, rfl⟩ := main_eq_ok hmain
  refine ⟨data, T, hprepare, ?_⟩
  have hscene := scene_of_run (prepare_opened hstandard hprepare) hstandard hrun
  rcases hscene.proc hproc with ⟨-, hnone⟩ | ⟨hi, hchild⟩ | ⟨hi, hchild⟩
  · exact absurd rfl (hnone c failed)
  · exact Or.inl ⟨hi, hchild.at_command rfl⟩
  · exact Or.inr ⟨hi, hchild.at_command rfl⟩

theorem commands_of_run_yes : ∃ s table c failed,
    ReflTransGen (PipeStep 1) yesTrueStart s ∧
    s.procs[1]? = some ⟨table, .program (.execve c failed)⟩ ∧
    ∃ data T, prepare .all yesTrue onlyPath standardTable = .ok (data, T) ∧
      (1 = 1 ∧ FirstConnected .all yesTrue data standardTable table c ∨
        1 = 2 ∧ SecondConnected .all yesTrue data standardTable table c) := by
  have hexec : ∃ t₁, (readProcess .all (yesTrue.getD 2 []) yesTrueData).atExecve yesTrueTable =
      some (t₁, ⟨"/bin/yes".toList, ["yes".toList], onlyPath⟩) := by
    rw [readProcess, commandOf_yes]
    exact ⟨_, rfl⟩
  obtain ⟨t₁, hexec⟩ := hexec
  let first : Process File Command :=
    ⟨yesTrueTable, .program (readProcess .all (yesTrue.getD 2 []) yesTrueData)⟩
  let forked : PipeSystem File Command := ⟨[⟨yesTrueTable, .program (.close 6 (.close 4
    (secondFork .all yesTrue yesTrueData 1)))⟩, first], 0⟩
  have hproc : forked.procs[1]? = some first := rfl
  have hfork : PipeStep 1 yesTrueStart forked := .fork_head
  obtain ⟨failed, hrun⟩ := exists_run_before_execve hproc hexec
  have hrun' := ReflTransGen.head hfork hrun
  exact ⟨_, t₁, _, failed, hrun', rfl,
    commands_of_run standard_standardTable main_yesTrue hrun' rfl⟩

/-- Everybody has ended. -/
def Done (s : PipeSystem File Command) : Prop :=
  ∀ p ∈ s.procs, ∃ ending, p.control = .ended ending

/-- The first command waits for room in the pipe that nobody is going to make: the second one
has ended, and the program, which waits for the first, still holds the end that is read. -/
def Jammed (capacity : Nat) (s : PipeSystem File Command) : Prop :=
  ∃ own table c fd next ending, s.procs = [⟨own, .program (.waitpid 1 next)⟩,
      ⟨table, .command c (.writing fd)⟩, ⟨[], .ended ending⟩] ∧
    table.file fd = some .writeEnd ∧ capacity ≤ s.buffered

/-- The first command cannot read from the pipe. -/
private theorem first_not_holds (hstandard : Standard t) {table : Table} {c : Command}
    {doing : Doing}
    (hf : Child (FirstConnected outcomes argv data t) ⟨table, .command c doing⟩) :
    ¬ table.Holds .readEnd := by
  obtain ⟨t', ⟨-, hfile⟩, hkept⟩ := hf.holds_of_command
  intro hholds
  obtain ⟨n, hn⟩ := hkept _ .readEnd hholds
  rw [hfile] at hn
  split_ifs at hn
  · cases hn
  · cases hn
  · cases hn
  · exact hstandard.noEnd _ .readEnd ⟨n, hn⟩

private theorem first_waits (hstandard : Standard t) {f : Process File Command}
    (hf : Child (FirstConnected outcomes argv data t) f) (hwaits : Waits capacity s f) :
    ∃ table c fd, f = ⟨table, .command c (.writing fd)⟩ ∧ table.file fd = some .writeEnd ∧
      capacity ≤ s.buffered ∧ s.Held .readEnd := by
  obtain ⟨table, c, fd, ⟨rfl, hfile, -, -⟩ | hwrites⟩ := hf.waits hwaits
  · exact absurd ⟨fd, hfile⟩ (first_not_holds hstandard hf)
  · exact ⟨table, c, fd, hwrites⟩

private theorem second_waits {g : Process File Command}
    (hg : Child (SecondConnected outcomes argv data t) g) (hend : ¬ g.table.Holds .writeEnd)
    (hwaits : Waits capacity s g) : s.buffered = 0 ∧ s.Held .writeEnd := by
  obtain ⟨table, c, fd, ⟨rfl, -, hempty, hheld⟩ | ⟨rfl, hfile, -⟩⟩ := hg.waits hwaits
  · exact ⟨hempty, hheld⟩
  · exact absurd ⟨fd, hfile⟩ hend

private theorem Leaves.not_waits {status : UInt8} {p : Process File Command}
    (hleaves : Leaves status p) : ¬ Waits capacity s p := by
  intro hwaits
  cases hleaves with
  | exit => cases hwaits
  | ended => cases hwaits

private theorem not_stuck {table : Table} {rest : Program}
    (hrest : ∀ pid next, rest ≠ .waitpid pid next) :
    ¬ ((∃ ending, Control.program rest = .ended ending) ∨
      Waits capacity s ⟨table, .program rest⟩) := by
  rintro (⟨_, ⟨⟩⟩ | hwaits)
  cases hwaits with
  | child => exact hrest _ _ rfl

private theorem jammed_of_stuck (h : Opened t T data) (hstandard : Standard t)
    (hcapacity : 0 < capacity) (hscene : Scene outcomes argv data t T s.procs)
    (hstuck : ∀ p ∈ s.procs, (∃ ending, p.control = .ended ending) ∨ Waits capacity s p) :
    Done s ∨ Jammed capacity s := by
  obtain ⟨procs, buffered⟩ := s
  cases hscene with
  | start => exact absurd (hstuck _ List.mem_cons_self) (not_stuck (by rintro pid next ⟨⟩))
  | forkFailed hleaves =>
      obtain hended | hwaits := hstuck _ List.mem_cons_self
      · exact Or.inl fun p hp => List.mem_singleton.mp hp ▸ hended
      · exact absurd hwaits hleaves.not_waits
  | closing => exact absurd (hstuck _ List.mem_cons_self) (not_stuck (by rintro pid next ⟨⟩))
  | closingInput => exact absurd (hstuck _ List.mem_cons_self) (not_stuck (by rintro pid next ⟨⟩))
  | forking => exact absurd (hstuck _ List.mem_cons_self) (not_stuck (by rintro pid next ⟨⟩))
  | @secondForkFailed p f hleaves hf =>
      obtain hended | hwaits := hstuck _ List.mem_cons_self
      · obtain hended' | hwaits := hstuck f (by simp)
        · exact Or.inl (by simp [Done, hended, hended'])
        · obtain ⟨table, c, fd, rfl, hfile, -, q, hq, hholds⟩ := first_waits hstandard hf hwaits
          rcases List.mem_pair.mp hq with rfl | rfl
          · cases hleaves with
            | exit => exact nomatch hended
            | ended => exact absurd hholds not_holds_nil
          · exact absurd hholds (first_not_holds hstandard hf)
      · exact absurd hwaits hleaves.not_waits
  | @waiting f g hf hg hend =>
      obtain ⟨ending, hended⟩ | hwaits := hstuck f (by simp)
      · -- The program has its first child to wait for no longer.
        obtain ⟨_, ⟨⟩⟩ | hown := hstuck _ List.mem_cons_self
        obtain rfl := hf.ended_of_control hended
        cases hown with
        | child hlive => exact absurd rfl (hlive [] ending)
      · obtain ⟨table, c, fd, rfl, hfile, hfull, -⟩ := first_waits hstandard hf hwaits
        obtain ⟨ending, hended⟩ | hwaits' := hstuck g (by simp)
        · obtain rfl := hg.ended_of_control hended
          exact Or.inr ⟨_, table, c, fd, _, ending, rfl, hfile, hfull⟩
        · have hempty := (second_waits hg hend hwaits').1
          exact absurd hcapacity (Nat.not_lt.mpr (hempty ▸ hfull))
  | @waitingSecond ending g hg hend =>
      obtain ⟨ending', hended⟩ | hwaits := hstuck g (by simp)
      · obtain ⟨_, ⟨⟩⟩ | hown := hstuck _ List.mem_cons_self
        obtain rfl := hg.ended_of_control hended
        cases hown with
        | child hlive => exact absurd rfl (hlive [] ending')
      · -- Nobody is left to write to the pipe.
        obtain ⟨-, q, hq, hholds⟩ := second_waits hg hend hwaits
        simp only [List.mem_cons, List.not_mem_nil, or_false] at hq
        rcases hq with rfl | rfl | rfl
        · exact absurd hholds (closed_not_holds h hstandard)
        · exact absurd hholds not_holds_nil
        · exact absurd hholds hend
  | finishing => exact absurd (hstuck _ List.mem_cons_self) (not_stuck (by rintro pid next ⟨⟩))
  | closingOutput => exact absurd (hstuck _ List.mem_cons_self) (not_stuck (by rintro pid next ⟨⟩))
  | finished hleaves =>
      obtain hended | hwaits := hstuck _ List.mem_cons_self
      · exact Or.inl (by simp [Done, hended])
      · exact absurd hwaits hleaves.not_waits

/-- The processes of the program come to stand still when all have ended, and when the first
command fills the pipe behind the end of the second. -/
theorem stuck_iff_jammed (hstandard : Standard t) (hcapacity : 0 < capacity)
    (hmain : main outcomes argv envp t = .ok start)
    (hrun : ReflTransGen (PipeStep capacity) start s) :
    (∀ s', ¬ PipeStep capacity s s') ↔ Done s ∨ Jammed capacity s := by
  obtain ⟨data, T, hprepare, rfl⟩ := main_eq_ok hmain
  have hopened := prepare_opened hstandard hprepare
  have hscene := scene_of_run hopened hstandard hrun
  rw [stuck_iff]
  constructor
  · exact jammed_of_stuck hopened hstandard hcapacity hscene
  · rintro (hdone | ⟨own, table, c, fd, next, ending, hprocs, hfile, hfull⟩) p hp
    · exact Or.inl (hdone p hp)
    · rw [hprocs] at hscene hp
      simp only [List.mem_cons, List.not_mem_nil, or_false] at hp
      cases hscene with
      | waiting hf hg hend =>
          rcases hp with rfl | rfl | rfl
          · refine Or.inr (.child fun table' ending' hended => ?_)
            rw [hprocs] at hended
            cases Option.some.inj hended
          · refine Or.inr (.room hfile hfull ?_)
            rw [PipeSystem.Held, hprocs]
            exact ⟨_, List.mem_cons_self, closed_holds hopened⟩
          · exact Or.inl ⟨ending, rfl⟩

theorem stuck_iff_jammed_yes : (∀ s', ¬ PipeStep 1 yesTrueStart s') ↔
    Done yesTrueStart ∨ Jammed 1 yesTrueStart :=
  stuck_iff_jammed standard_standardTable one_pos main_yesTrue .refl

/-- If both commands are found, there is an order of steps in which all of it comes to stand
still: the first command writes on when the second has ended. -/
theorem exists_jammed (hstandard : Standard t) (hmain : main outcomes argv envp t = .ok start)
    (hprepare : prepare outcomes argv envp t = .ok (data, T)) {c c' : Command}
    (hfirst : commandOf outcomes (argv.getD 2 []) data = some c)
    (hsecond : commandOf outcomes (argv.getD 3 []) data = some c') (capacity : Nat) :
    ∃ s, ReflTransGen (PipeStep capacity) start s ∧ Jammed capacity s := by
  obtain ⟨data', T', hprepare', rfl⟩ := main_eq_ok hmain
  obtain ⟨rfl, rfl⟩ := Prod.mk.inj (Except.ok.inj (hprepare.symm.trans hprepare'))
  have hopened := prepare_opened hstandard hprepare
  obtain ⟨t₁, hexec₁⟩ : ∃ t₁, (readProcess outcomes (argv.getD 2 []) data).atExecve T =
      some (t₁, c) := by
    rw [readProcess, hfirst]
    exact ⟨_, rfl⟩
  obtain ⟨t₂, hexec₂⟩ : ∃ t₂, (writeProcess outcomes (argv.getD 3 []) data).atExecve
      (closed T data) = some (t₂, c') := by
    rw [writeProcess, hsecond]
    exact ⟨_, rfl⟩
  have hwriter : t₁.file 1 = some .writeEnd := by
    rw [((readProcess_child hopened).at_command hexec₁).2, if_neg one_ne_zero, if_pos rfl]
  let own : Process File Command :=
    ⟨closed T data, .program (.waitpid 1 fun _ => .waitpid 2 (afterWaiting data))⟩
  let first : Process File Command :=
    ⟨T, .program (readProcess outcomes (argv.getD 2 []) data)⟩
  let second : Process File Command :=
    ⟨closed T data, .program (writeProcess outcomes (argv.getD 3 []) data)⟩
  let closing : PipeSystem File Command := ⟨[⟨T, .program (.close data.fd.2 (.close data.readfile
    (secondFork outcomes argv data 1)))⟩, first], 0⟩
  let closingInput : PipeSystem File Command := ⟨[⟨T.close data.fd.2, .program
    (.close data.readfile (secondFork outcomes argv data 1))⟩, first], 0⟩
  let forking : PipeSystem File Command :=
    ⟨[⟨closed T data, .program (secondFork outcomes argv data 1)⟩, first], 0⟩
  have hfork : PipeStep capacity ⟨[⟨T, .program (multiProcesses outcomes argv data)⟩], 0⟩
      closing := .fork_head
  have hclose : PipeStep capacity closing closingInput := .move (i := 0) rfl .close
  have hclose' : PipeStep capacity closingInput forking := .move (i := 0) rfl .close
  have hfork' : PipeStep capacity forking ⟨[own, first, second], 0⟩ := .fork_head
  have hforked := ReflTransGen.head hfork (.head hclose (.head hclose' (.single hfork')))
  have hstarted : ReflTransGen (PipeStep capacity) _
      ⟨[own, ⟨t₁, .command c .nothing⟩, second], 0⟩ :=
    hforked.trans (exists_run_execve (i := 1) rfl hexec₁)
  have hfull : ReflTransGen (PipeStep capacity) _
      ⟨[own, ⟨t₁, .command c (.writing 1)⟩, second], capacity⟩ :=
    hstarted.trans (exists_run_full (i := 1) (j := 0) zero_ne_one rfl (closed_holds hopened) rfl
      hwriter (Nat.zero_le _))
  have hleft : ReflTransGen (PipeStep capacity) _
      ⟨[own, ⟨t₁, .command c (.writing 1)⟩, ⟨t₂, .command c' .nothing⟩], capacity⟩ :=
    hfull.trans (exists_run_execve (i := 2) rfl hexec₂)
  have hfinish : Move capacity ⟨[own, ⟨t₁, .command c (.writing 1)⟩,
      ⟨t₂, .command c' .nothing⟩], capacity⟩ ⟨t₂, .command c' .nothing⟩
      ⟨[], .ended (.exited 0)⟩ capacity := .finish
  exact ⟨_, hleft.tail (.move (i := 2) rfl hfinish), own.table, t₁, c, 1, _, _, rfl, hwriter,
    le_refl _⟩

theorem exists_jammed_yes :
    ∃ s, ReflTransGen (PipeStep 3) yesTrueStart s ∧ Jammed 3 s :=
  exists_jammed standard_standardTable main_yesTrue prepare_yesTrue commandOf_yes commandOf_true 3

/-- The program ends with the status of the second command when both commands have ended, and
with 1 if one of them was not forked. -/
theorem status_of_run (hstandard : Standard t) (hmain : main outcomes argv envp t = .ok start)
    (hrun : ReflTransGen (PipeStep capacity) start s) {own : Process File Command}
    {ending : Ending} (hown : s.procs[0]? = some own) (hended : own.control = .ended ending) :
    (s.procs.length < 3 ∧ ending = .exited 1) ∨
      ∃ first second, s.procs = [own, ⟨[], .ended first⟩, ⟨[], .ended second⟩] ∧
        ending = .exited (exitStatus second) := by
  obtain ⟨data, T, hprepare, rfl⟩ := main_eq_ok hmain
  have hscene := scene_of_run (prepare_opened hstandard hprepare) hstandard hrun
  generalize s.procs = procs at hown hscene
  have hstatus : ∀ {status}, Leaves status own → ending = .exited status := by
    rintro status (_ | _)
    · cases hended
    · exact (Control.ended.inj hended).symm
  cases hscene with
  | forkFailed hleaves =>
      obtain rfl := Option.some.inj hown
      exact Or.inl ⟨by simp, hstatus hleaves⟩
  | secondForkFailed hleaves hf =>
      obtain rfl := Option.some.inj hown
      exact Or.inl ⟨by simp, hstatus hleaves⟩
  | finished hleaves =>
      obtain rfl := Option.some.inj hown
      exact Or.inr ⟨_, _, rfl, hstatus hleaves⟩
  | _ =>
      obtain rfl := Option.some.inj hown
      cases hended

/-- The first `fork` has failed. -/
theorem status_of_run_unforked : ∃ s own ending,
    ReflTransGen (PipeStep 1) yesTrueStart s ∧ s.procs[0]? = some own ∧
    own.control = .ended ending ∧
    ((s.procs.length < 3 ∧ ending = .exited 1) ∨
      ∃ first second, s.procs = [own, ⟨[], .ended first⟩, ⟨[], .ended second⟩] ∧
        ending = .exited (exitStatus second)) := by
  let failed : PipeSystem File Command := ⟨[⟨yesTrueTable, .program (.exit 1)⟩], 0⟩
  let ended : PipeSystem File Command := ⟨[⟨[], .ended (.exited 1)⟩], 0⟩
  have hfork : PipeStep 1 yesTrueStart failed := .move (i := 0) rfl .forkFailed
  have hexit : PipeStep 1 failed ended := .move (i := 0) rfl .exit
  have hrun := ReflTransGen.head hfork (.single hexit)
  exact ⟨ended, _, _, hrun, rfl, rfl,
    status_of_run standard_standardTable main_yesTrue hrun rfl rfl⟩

end Results

end FortyTwo.Pipex
