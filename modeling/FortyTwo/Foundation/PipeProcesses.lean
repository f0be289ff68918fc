import Mathlib.Logic.Relation
import Mathlib.Tactic
import FortyTwo.Foundation.DescriptorTable

/-!
Processes around a pipe. Each has a table of descriptors; a program forks, waits, closes and
copies descriptors until it executes a command, and a command may do anything with what it
holds. A reader waits for bytes as long as somebody holds the end that is written to, and a
writer for room as long as somebody holds the other one. No signal comes from outside, and
a command forks no processes of its own.
-/

namespace FortyTwo.Foundation

/-- What a descriptor refers to: an end of the pipe, or a file that nobody waits for. -/
inductive PipeFile (κ : Type) where
  | readEnd
  | writeEnd
  | other (file : κ)
  deriving DecidableEq, Repr

inductive PipeFile.IsEnd {κ : Type} : PipeFile κ → Prop
  | readEnd : IsEnd .readEnd
  | writeEnd : IsEnd .writeEnd

namespace DescriptorTable

variable {α : Type} {t : DescriptorTable α} {f : α}

def Holds (t : DescriptorTable α) (f : α) : Prop := ∃ n, t.file n = some f

theorem Holds.of_close {n : Nat} (h : (t.close n).Holds f) : t.Holds f := by
  obtain ⟨m, hm⟩ := h
  rw [file_close] at hm
  split at hm
  · cases hm
  · exact ⟨m, hm⟩

theorem Holds.of_dup2 {old new : Nat} (h : (t.dup2 old new).Holds f) : t.Holds f := by
  obtain ⟨m, hm⟩ := h
  cases hold : t.file old with
  | none =>
      rw [dup2_of_closed t hold] at hm
      exact ⟨m, hm⟩
  | some g =>
      rw [file_dup2 t hold] at hm
      split at hm
      · exact ⟨old, hold.trans hm⟩
      · exact ⟨m, hm⟩

theorem not_holds_nil : ¬ Holds ([] : DescriptorTable α) f := by
  rintro ⟨n, hn⟩
  cases hn

end DescriptorTable

/-- How a process has ended. -/
inductive Ending where
  | exited (status : UInt8)
  | killed
  deriving DecidableEq, Repr

inductive PipeProgram (γ : Type) where
  | close (fd : Nat) (next : PipeProgram γ)
  | dup2 (old new : Nat) (next : PipeProgram γ)
  | fork (failed child : PipeProgram γ) (next : Nat → PipeProgram γ)
  | waitpid (pid : Nat) (next : Ending → PipeProgram γ)
  | execve (command : γ) (failed : PipeProgram γ)
  | exit (status : UInt8)

/-- What a command is about to do. -/
inductive Doing where
  | nothing
  | reading (fd : Nat)
  | writing (fd : Nat)
  deriving DecidableEq, Repr

inductive Control (γ : Type) where
  | program (rest : PipeProgram γ)
  | command (command : γ) (doing : Doing)
  | ended (ending : Ending)

variable {κ γ : Type}

structure Process (κ γ : Type) where
  table : DescriptorTable (PipeFile κ)
  control : Control γ

/-- The processes by their numbers, and the bytes that are in the pipe. -/
structure PipeSystem (κ γ : Type) where
  procs : List (Process κ γ)
  buffered : Nat

def Process.Ended (p : Process κ γ) : Prop := ∃ ending, p = ⟨[], .ended ending⟩

def PipeSystem.Held (s : PipeSystem κ γ) (f : PipeFile κ) : Prop := ∃ p ∈ s.procs, p.table.Holds f

/-- What a process does by itself, and the bytes in the pipe afterwards. -/
inductive Move (capacity : Nat) (s : PipeSystem κ γ) : Process κ γ → Process κ γ → Nat → Prop
  | close {t fd next} :
      Move capacity s ⟨t, .program (.close fd next)⟩ ⟨t.close fd, .program next⟩ s.buffered
  | dup2 {t old new next} :
      Move capacity s ⟨t, .program (.dup2 old new next)⟩ ⟨t.dup2 old new, .program next⟩ s.buffered
  | waited {t pid next table ending} :
      s.procs[pid]? = some ⟨table, .ended ending⟩ →
      Move capacity s ⟨t, .program (.waitpid pid next)⟩ ⟨t, .program (next ending)⟩ s.buffered
  | forkFailed {t failed child next} :
      Move capacity s ⟨t, .program (.fork failed child next)⟩ ⟨t, .program failed⟩ s.buffered
  | execve {t c failed} :
      Move capacity s ⟨t, .program (.execve c failed)⟩ ⟨t, .command c .nothing⟩ s.buffered
  | execveFailed {t c failed} :
      Move capacity s ⟨t, .program (.execve c failed)⟩ ⟨t, .program failed⟩ s.buffered
  | exit {t status} :
      Move capacity s ⟨t, .program (.exit status)⟩ ⟨[], .ended (.exited status)⟩ s.buffered
  /-- A command closes, copies and opens descriptors. -/
  | change {t t' c} : (∀ f, f.IsEnd → t'.Holds f → t.Holds f) →
      Move capacity s ⟨t, .command c .nothing⟩ ⟨t', .command c .nothing⟩ s.buffered
  | begin {t c doing} : Move capacity s ⟨t, .command c .nothing⟩ ⟨t, .command c doing⟩ s.buffered
  | finish {t c ending} :
      Move capacity s ⟨t, .command c .nothing⟩ ⟨[], .ended ending⟩ s.buffered
  | read {t c fd} : t.file fd = some .readEnd → 0 < s.buffered →
      Move capacity s ⟨t, .command c (.reading fd)⟩ ⟨t, .command c .nothing⟩ (s.buffered - 1)
  | readNothing {t c fd} : t.file fd = some .readEnd → s.buffered = 0 → ¬ s.Held .writeEnd →
      Move capacity s ⟨t, .command c (.reading fd)⟩ ⟨t, .command c .nothing⟩ s.buffered
  | readOther {t c fd} : t.file fd ≠ some .readEnd →
      Move capacity s ⟨t, .command c (.reading fd)⟩ ⟨t, .command c .nothing⟩ s.buffered
  | write {t c fd} : t.file fd = some .writeEnd → s.buffered < capacity → s.Held .readEnd →
      Move capacity s ⟨t, .command c (.writing fd)⟩ ⟨t, .command c .nothing⟩ (s.buffered + 1)
  /-- The signal of a broken pipe, which kills. -/
  | broken {t c fd} : t.file fd = some .writeEnd → ¬ s.Held .readEnd →
      Move capacity s ⟨t, .command c (.writing fd)⟩ ⟨[], .ended .killed⟩ s.buffered
  /-- The signal of a broken pipe, which the command ignores. -/
  | brokenIgnored {t c fd} : t.file fd = some .writeEnd → ¬ s.Held .readEnd →
      Move capacity s ⟨t, .command c (.writing fd)⟩ ⟨t, .command c .nothing⟩ s.buffered
  | writeOther {t c fd} : t.file fd ≠ some .writeEnd →
      Move capacity s ⟨t, .command c (.writing fd)⟩ ⟨t, .command c .nothing⟩ s.buffered

inductive PipeStep (capacity : Nat) (s : PipeSystem κ γ) : PipeSystem κ γ → Prop
  | move {i : Nat} {p p' : Process κ γ} {buffered : Nat} :
      s.procs[i]? = some p → Move capacity s p p' buffered →
      PipeStep capacity s ⟨s.procs.set i p', buffered⟩
  | fork {i : Nat} {t failed child next} :
      s.procs[i]? = some ⟨t, .program (.fork failed child next)⟩ →
      PipeStep capacity s ⟨s.procs.set i ⟨t, .program (next s.procs.length)⟩ ++
        [⟨t, .program child⟩], s.buffered⟩

variable {capacity buffered : Nat} {s : PipeSystem κ γ} {p p' : Process κ γ} {f : PipeFile κ}

theorem PipeStep.fork_head {t : DescriptorTable (PipeFile κ)} {failed child : PipeProgram γ}
    {next : Nat → PipeProgram γ} {procs : List (Process κ γ)} :
    PipeStep capacity ⟨⟨t, .program (.fork failed child next)⟩ :: procs, buffered⟩
      ⟨⟨t, .program (next (procs.length + 1))⟩ :: (procs ++ [⟨t, .program child⟩]), buffered⟩ :=
  .fork (s := ⟨⟨t, .program (.fork failed child next)⟩ :: procs, buffered⟩) (i := 0) rfl

/-- No process comes to an end of the pipe that it does not hold. -/
theorem Move.holds (h : Move capacity s p p' buffered) (hend : f.IsEnd)
    (hholds : p'.table.Holds f) : p.table.Holds f := by
  cases h with
  | close => exact hholds.of_close
  | dup2 => exact hholds.of_dup2
  | change hkeeps => exact hkeeps f hend hholds
  | exit => exact absurd hholds DescriptorTable.not_holds_nil
  | finish => exact absurd hholds DescriptorTable.not_holds_nil
  | broken => exact absurd hholds DescriptorTable.not_holds_nil
  | _ => exact hholds

section Waiting

/-- What a process that cannot go on waits for. -/
inductive Waits (capacity : Nat) (s : PipeSystem κ γ) : Process κ γ → Prop
  | child {t pid next} : (∀ table ending, s.procs[pid]? ≠ some ⟨table, .ended ending⟩) →
      Waits capacity s ⟨t, .program (.waitpid pid next)⟩
  | bytes {t c fd} : t.file fd = some .readEnd → s.buffered = 0 → s.Held .writeEnd →
      Waits capacity s ⟨t, .command c (.reading fd)⟩
  | room {t c fd} : t.file fd = some .writeEnd → capacity ≤ s.buffered → s.Held .readEnd →
      Waits capacity s ⟨t, .command c (.writing fd)⟩

theorem Waits.not_move (h : Waits capacity s p) : ¬ Move capacity s p p' buffered := by
  intro hmove
  cases h with
  | child hlive =>
      cases hmove with
      | waited hended => exact hlive _ _ hended
  | bytes hfile hempty hheld =>
      cases hmove with
      | read _ hpos => exact absurd hempty (Nat.ne_of_gt hpos)
      | readNothing _ _ hnobody => exact hnobody hheld
      | readOther hother => exact hother hfile
  | room hfile hfull hheld =>
      cases hmove with
      | write _ hroom _ => exact absurd hfull (Nat.not_le.mpr hroom)
      | broken _ hnobody => exact hnobody hheld
      | brokenIgnored _ hnobody => exact hnobody hheld
      | writeOther hother => exact hother hfile

theorem exists_move_of_not_waits (h : ¬ Waits capacity s p)
    (hlive : ∀ ending, p.control ≠ .ended ending) :
    ∃ p' buffered, Move capacity s p p' buffered := by
  obtain ⟨t, control⟩ := p
  cases control with
  | ended ending => exact absurd rfl (hlive ending)
  | program rest =>
      cases rest with
      | close fd next => exact ⟨_, _, .close⟩
      | dup2 old new next => exact ⟨_, _, .dup2⟩
      | fork failed child next => exact ⟨_, _, .forkFailed⟩
      | execve c failed => exact ⟨_, _, .execve⟩
      | exit status => exact ⟨_, _, .exit⟩
      | waitpid pid next =>
          by_contra hstuck
          refine h (.child fun table ending hended => hstuck ⟨_, _, .waited hended⟩)
  | command c doing =>
      cases doing with
      | nothing => exact ⟨⟨[], .ended .killed⟩, _, .finish⟩
      | reading fd =>
          by_cases hfile : t.file fd = some .readEnd
          · by_cases hempty : s.buffered = 0
            · by_cases hheld : s.Held .writeEnd
              · exact absurd (.bytes hfile hempty hheld) h
              · exact ⟨_, _, .readNothing hfile hempty hheld⟩
            · exact ⟨_, _, .read hfile (Nat.pos_of_ne_zero hempty)⟩
          · exact ⟨_, _, .readOther hfile⟩
      | writing fd =>
          by_cases hfile : t.file fd = some .writeEnd
          · by_cases hheld : s.Held .readEnd
            · by_cases hroom : s.buffered < capacity
              · exact ⟨_, _, .write hfile hroom hheld⟩
              · exact absurd (.room hfile (Nat.not_lt.mp hroom) hheld) h
            · exact ⟨_, _, .broken hfile hheld⟩
          · exact ⟨_, _, .writeOther hfile⟩

/-- Nothing happens any more when each process has ended or waits. -/
theorem stuck_iff : (∀ s', ¬ PipeStep capacity s s') ↔
    ∀ p ∈ s.procs, (∃ ending, p.control = .ended ending) ∨ Waits capacity s p := by
  constructor
  · intro hstuck p hp
    obtain ⟨i, hi⟩ := List.mem_iff_getElem?.mp hp
    by_contra hgoes
    rw [not_or, not_exists] at hgoes
    obtain ⟨p', buffered, hmove⟩ := exists_move_of_not_waits hgoes.2 hgoes.1
    exact hstuck _ (.move hi hmove)
  · intro hwait s' hstep
    cases hstep with
    | @move i p p' buffered hp hmove =>
        rcases hwait p (List.mem_of_getElem? hp) with ⟨ending, hended⟩ | hwaits
        · obtain ⟨t, control⟩ := p
          obtain rfl : control = .ended ending := hended
          cases hmove
        · exact hwaits.not_move hmove
    | fork hp =>
        rcases hwait _ (List.mem_of_getElem? hp) with ⟨ending, hended⟩ | hwaits
        · cases hended
        · cases hwaits

end Waiting

section Children

namespace PipeProgram

/-- The table and the command at the `execve` that a program comes to without forking or
waiting. -/
def atExecve (t : DescriptorTable (PipeFile κ)) :
    PipeProgram γ → Option (DescriptorTable (PipeFile κ) × γ)
  | .close fd next => next.atExecve (t.close fd)
  | .dup2 old new next => next.atExecve (t.dup2 old new)
  | .execve c _ => some (t, c)
  | .fork _ _ _ => none
  | .waitpid _ _ => none
  | .exit _ => none

/-- Descriptors are closed and copied until a command is executed. -/
def Straight : PipeProgram γ → Prop
  | .close _ next => next.Straight
  | .dup2 _ _ next => next.Straight
  | .execve _ failed => ∃ status, failed = .exit status
  | .fork _ _ _ => False
  | .waitpid _ _ => False
  | .exit _ => True

end PipeProgram

/-- A process that comes to a command with a table that is `good`, executes it, or has ended. -/
inductive Child (good : DescriptorTable (PipeFile κ) → γ → Prop) : Process κ γ → Prop
  | program {t rest} : rest.Straight → (∀ t' c, rest.atExecve t = some (t', c) → good t' c) →
      Child good ⟨t, .program rest⟩
  | command {t t' c doing} : good t' c → (∀ f, f.IsEnd → t.Holds f → t'.Holds f) →
      Child good ⟨t, .command c doing⟩
  | ended {ending} : Child good ⟨[], .ended ending⟩

variable {good : DescriptorTable (PipeFile κ) → γ → Prop}

theorem Child.move (h : Child good p) (hmove : Move capacity s p p' buffered) : Child good p' := by
  cases h with
  | program hstraight hgood =>
      cases hmove with
      | close => exact .program hstraight hgood
      | dup2 => exact .program hstraight hgood
      | waited => exact hstraight.elim
      | forkFailed => exact hstraight.elim
      | execve => exact .command (hgood _ _ rfl) fun _ _ hholds => hholds
      | execveFailed =>
          obtain ⟨status, rfl⟩ := hstraight
          exact .program trivial nofun
      | exit => exact .ended
  | command hgood hkept =>
      cases hmove with
      | change hkeeps => exact .command hgood fun f hf hholds => hkept f hf (hkeeps f hf hholds)
      | finish => exact .ended
      | broken => exact .ended
      | _ => exact .command hgood hkept
  | ended => cases hmove

/-- It forks no child, and waits for no process. -/
theorem Child.not_fork {t failed child next} :
    ¬ Child good ⟨t, .program (.fork failed child next)⟩ := by
  intro h
  cases h with
  | program hstraight _ => exact hstraight

theorem Child.at_command {t t' : DescriptorTable (PipeFile κ)} {rest : PipeProgram γ} {c : γ}
    (h : Child good ⟨t, .program rest⟩) (hexec : rest.atExecve t = some (t', c)) : good t' c := by
  cases h with
  | program _ hgood => exact hgood t' c hexec

theorem Child.ended_of_control {ending : Ending} (h : Child good p)
    (hended : p.control = .ended ending) : p = ⟨[], .ended ending⟩ := by
  cases h with
  | program => cases hended
  | command => cases hended
  | ended => rw [Control.ended.inj hended]

theorem Child.holds_of_command {t : DescriptorTable (PipeFile κ)} {c : γ} {doing : Doing}
    (h : Child good ⟨t, .command c doing⟩) :
    ∃ t', good t' c ∧ ∀ f, f.IsEnd → t.Holds f → t'.Holds f := by
  cases h with
  | command hgood hkept => exact ⟨_, hgood, hkept⟩

/-- A child that waits is a command that reads or writes. -/
theorem Child.waits (h : Child good p) (hwaits : Waits capacity s p) :
    ∃ t c fd, (p = ⟨t, .command c (.reading fd)⟩ ∧ t.file fd = some .readEnd ∧
        s.buffered = 0 ∧ s.Held .writeEnd) ∨
      (p = ⟨t, .command c (.writing fd)⟩ ∧ t.file fd = some .writeEnd ∧
        capacity ≤ s.buffered ∧ s.Held .readEnd) := by
  cases hwaits with
  | child =>
      cases h with
      | program hstraight _ => exact hstraight.elim
  | bytes hfile hempty hheld => exact ⟨_, _, _, Or.inl ⟨rfl, hfile, hempty, hheld⟩⟩
  | room hfile hfull hheld => exact ⟨_, _, _, Or.inr ⟨rfl, hfile, hfull, hheld⟩⟩

end Children

section Runs

open Relation

variable {i : Nat} {t t' : DescriptorTable (PipeFile κ)} {c : γ}

private theorem getElem?_set_of_some {α : Type} {l : List α} {x y : α} (h : l[i]? = some x) :
    (l.set i y)[i]? = some y := by
  rw [List.getElem?_set_self (List.getElem?_eq_some_iff.mp h).1]

/-- A program that neither forks nor waits can come to its command. -/
theorem exists_run_before_execve {rest : PipeProgram γ}
    (hproc : s.procs[i]? = some ⟨t, .program rest⟩) (hexec : rest.atExecve t = some (t', c)) :
    ∃ failed, ReflTransGen (PipeStep capacity) s
      ⟨s.procs.set i ⟨t', .program (.execve c failed)⟩, s.buffered⟩ := by
  induction rest generalizing s t with
  | close fd next ih =>
      obtain ⟨failed, hlater⟩ := ih (s := ⟨s.procs.set i ⟨t.close fd, .program next⟩, s.buffered⟩)
        (getElem?_set_of_some hproc) hexec
      rw [List.set_set] at hlater
      exact ⟨failed, .head (.move hproc .close) hlater⟩
  | dup2 old new next ih =>
      obtain ⟨failed, hlater⟩ := ih
        (s := ⟨s.procs.set i ⟨t.dup2 old new, .program next⟩, s.buffered⟩)
        (getElem?_set_of_some hproc) hexec
      rw [List.set_set] at hlater
      exact ⟨failed, .head (.move hproc .dup2) hlater⟩
  | execve command failed =>
      obtain ⟨rfl, rfl⟩ := Prod.mk.inj (Option.some.inj hexec)
      obtain ⟨hlt, hself⟩ := List.getElem?_eq_some_iff.mp hproc
      refine ⟨failed, ?_⟩
      rw [← hself, List.set_getElem_self]
  | fork failed child next => cases hexec
  | waitpid pid next => cases hexec
  | exit status => cases hexec

theorem exists_run_execve {rest : PipeProgram γ} (hproc : s.procs[i]? = some ⟨t, .program rest⟩)
    (hexec : rest.atExecve t = some (t', c)) : ReflTransGen (PipeStep capacity) s
      ⟨s.procs.set i ⟨t', .command c .nothing⟩, s.buffered⟩ := by
  obtain ⟨failed, hbefore⟩ := exists_run_before_execve hproc hexec
  let before : PipeSystem κ γ :=
    ⟨s.procs.set i ⟨t', .program (.execve c failed)⟩, s.buffered⟩
  have hstep : PipeStep capacity before
      ⟨(s.procs.set i _).set i ⟨t', .command c .nothing⟩, s.buffered⟩ :=
    .move (getElem?_set_of_some hproc) .execve
  rw [List.set_set] at hstep
  exact hbefore.tail hstep

/-- A command can fill the pipe, as long as another process holds the end that is read. -/
theorem exists_run_full {j fd : Nat} (hne : j ≠ i) (hreader : s.procs[j]? = some p)
    (hholds : p.table.Holds .readEnd) (hproc : s.procs[i]? = some ⟨t, .command c .nothing⟩)
    (hend : t.file fd = some .writeEnd) (hroom : s.buffered ≤ capacity) :
    ReflTransGen (PipeStep capacity) s
      ⟨s.procs.set i ⟨t, .command c (.writing fd)⟩, capacity⟩ := by
  induction hgap : capacity - s.buffered generalizing s with
  | zero =>
      have hfull : s.buffered = capacity := by omega
      rw [← hfull]
      exact .single (.move hproc .begin)
  | succ gap ih =>
      let asking : PipeSystem κ γ := ⟨s.procs.set i ⟨t, .command c (.writing fd)⟩, s.buffered⟩
      have hasking : asking.procs[i]? = some ⟨t, .command c (.writing fd)⟩ :=
        getElem?_set_of_some hproc
      have hreader' : asking.procs[j]? = some p := by
        rw [← hreader]
        exact List.getElem?_set_ne hne.symm
      have hheld : asking.Held .readEnd := ⟨p, List.mem_of_getElem? hreader', hholds⟩
      have hbegin : PipeStep capacity s asking := .move hproc .begin
      have hmove : Move capacity asking ⟨t, .command c (.writing fd)⟩ ⟨t, .command c .nothing⟩
          (s.buffered + 1) := .write hend (by show s.buffered < capacity; omega) hheld
      have hwrite := PipeStep.move hasking hmove
      have hprocs : asking.procs.set i ⟨t, .command c .nothing⟩ = s.procs := by
        obtain ⟨hlt, hself⟩ := List.getElem?_eq_some_iff.mp hproc
        show (s.procs.set i _).set i _ = s.procs
        rw [List.set_set, ← hself, List.set_getElem_self]
      rw [hprocs] at hwrite
      have hroom' : s.buffered + 1 ≤ capacity := by omega
      have hgap' : capacity - (s.buffered + 1) = gap := by omega
      have hlater := ih (s := ⟨s.procs, s.buffered + 1⟩) hreader hproc hroom' hgap'
      exact .head hbegin (.head hwrite hlater)

end Runs

end FortyTwo.Foundation
