import FortyTwo.Webserv.Text

/-!
`IOCGIHandler.cpp` next to a script that ends with the status 0: the script
writes to a pipe, closes it or exits, the server polls, reads and asks for the
exit of the script, each a step of its own. A timeout is not modelled.
-/

namespace FortyTwo.Webserv

namespace IOCGIHandler

/-- Where the handler stands, and whether its event had `EPOLLHUP` or
`EPOLLRDHUP`. -/
inductive Stage where
  | idle
  /-- `handle_default` is about to call `read`. -/
  | reading (hangUp : Bool)
  /-- It is about to call `waitpid`. -/
  | waiting (hangUp : Bool)
  /-- The script is declared finished, and this is handed to the parser. -/
  | finished (text : Bytes)
  deriving DecidableEq, Repr

structure System where
  /-- All that the script has written. -/
  written : Bytes := []
  /-- What of it is in the pipe. -/
  pipe : Bytes := []
  /-- The pipe has no writer any more. -/
  closed : Bool := false
  exited : Bool := false
  buffer : Bytes := []
  stage : Stage := .idle
  deriving DecidableEq, Repr

inductive Event where
  | write (piece : Bytes)
  | close
  | exit
  | poll
  | read
  | waitpid
  deriving DecidableEq, Repr

def bufferSize : Nat := 1000000

/-- One `read` from the pipe, which does not block, and the condition of the loop. -/
def stepRead (s : System) (hangUp : Bool) : System :=
  if s.pipe = [] then
    if s.closed then { s with stage := .waiting hangUp }
    -- `rd_bytes < 0`
    else { s with stage := .idle }
  else
    { s with
      buffer := s.buffer ++ s.pipe.take bufferSize
      pipe := s.pipe.drop bufferSize
      stage := if hangUp then .reading hangUp else .waiting hangUp }

def step (s : System) : Event → Option System
  | .write piece =>
      if s.closed then none
      else some { s with written := s.written ++ piece, pipe := s.pipe ++ piece }
  | .close => some { s with closed := true }
  | .exit => some { s with closed := true, exited := true }
  | .poll =>
      -- the event says what holds when it is delivered
      if s.stage = .idle ∧ (s.pipe ≠ [] ∨ s.closed) then
        some { s with stage := .reading s.closed }
      else none
  | .read =>
      match s.stage with
      | .reading hangUp => some (stepRead s hangUp)
      | _ => none
  | .waitpid =>
      match s.stage with
      | .waiting _ =>
          if s.exited then some { s with stage := .finished s.buffer }
          else some { s with stage := .idle }
      | _ => none

/-- The states that steps of a kind lead to from the start of the script. -/
inductive Reached (allowed : System → Event → Prop) : System → Prop
  | start : Reached allowed {}
  | step {s event next} (hs : Reached allowed s) (hallowed : allowed s event)
      (hstep : step s event = some next) : Reached allowed next

/-- What the parser gets is all that the script has written. -/
def Complete (s : System) : Prop := ∀ text, s.stage = .finished text → text = s.written

/-- Where `waitpid` finds that the script has exited, after an event without a
hang-up, the pipe is empty. -/
def Drained (s : System) (event : Event) : Prop :=
  event = .waitpid → s.stage = .waiting false → s.exited = true → s.pipe = []

/-- What holds in every state. -/
structure Invariant (s : System) : Prop where
  exited : s.exited = true → s.closed = true
  hangUp : s.stage = .reading true ∨ s.stage = .waiting true → s.closed = true
  waiting : s.stage = .waiting true → s.pipe = []
  split : (∀ text, s.stage ≠ .finished text) → s.buffer ++ s.pipe = s.written
  finished : ∀ text, s.stage = .finished text → s.exited = true

theorem invariant_start : Invariant {} where
  exited := by simp
  hangUp := by simp
  waiting := by simp
  split := by simp
  finished := by simp

variable {s next : System}

theorem Invariant.read {hangUp : Bool} (h : Invariant s) (hstage : s.stage = .reading hangUp) :
    Invariant (stepRead s hangUp) := by
  have hsplit := h.split (by simp [hstage])
  unfold stepRead
  split
  · next hpipe =>
      split
      · next hclosed => exact ⟨h.exited, fun _ => hclosed, fun _ => hpipe, fun _ => hsplit, by simp⟩
      · exact ⟨h.exited, by simp, by simp, fun _ => hsplit, by simp⟩
  · have hmoved : s.buffer ++ s.pipe.take bufferSize ++ s.pipe.drop bufferSize = s.written := by
      rw [List.append_assoc, List.take_append_drop, hsplit]
    cases hangUp with
    | true => exact ⟨h.exited, fun _ => h.hangUp (Or.inl hstage), by simp, fun _ => hmoved, by simp⟩
    | false => exact ⟨h.exited, by simp, by simp, fun _ => hmoved, by simp⟩

theorem Invariant.step {event : Event} (h : Invariant s)
    (hstep : IOCGIHandler.step s event = some next) : Invariant next := by
  cases event with
  | write piece =>
      simp only [IOCGIHandler.step] at hstep
      split at hstep
      · cases hstep
      · next hclosed =>
          cases hstep
          refine ⟨h.exited, h.hangUp, fun hstage => ?_, fun hstage => ?_, h.finished⟩
          · exact absurd (h.hangUp (Or.inr hstage)) hclosed
          · rw [← List.append_assoc, h.split hstage]
  | close =>
      cases hstep
      exact ⟨fun _ => rfl, fun _ => rfl, h.waiting, h.split, h.finished⟩
  | exit =>
      cases hstep
      exact ⟨fun _ => rfl, fun _ => rfl, h.waiting, h.split, fun _ _ => rfl⟩
  | poll =>
      simp only [IOCGIHandler.step] at hstep
      split at hstep
      · next hidle =>
          cases hstep
          refine ⟨h.exited, fun hstage => ?_, by simp, fun _ => h.split (by simp [hidle.1]), by simp⟩
          simpa using hstage
      · cases hstep
  | read =>
      simp only [IOCGIHandler.step] at hstep
      split at hstep
      · next hangUp hstage =>
          cases hstep
          exact h.read hstage
      · cases hstep
  | waitpid =>
      simp only [IOCGIHandler.step] at hstep
      split at hstep
      · next hangUp hstage =>
          split at hstep
          · next hexited =>
              cases hstep
              exact ⟨h.exited, by simp, by simp, fun hnot => absurd rfl (hnot _), fun _ _ => hexited⟩
          · cases hstep
            exact ⟨h.exited, by simp, by simp, fun _ => h.split (by simp [hstage]), by simp⟩
      · cases hstep

theorem Reached.invariant {allowed : System → Event → Prop} (h : Reached allowed s) :
    Invariant s := by
  induction h with
  | start => exact invariant_start
  | step _ _ hstep ih => exact ih.step hstep

/-- A step that does not declare the script finished. -/
theorem complete_step {event : Event} (h : Invariant s) (hcomplete : Complete s)
    (hevent : event ≠ .waitpid) (hstep : step s event = some next) : Complete next := by
  intro text htext
  cases event with
  | write piece =>
      simp only [step] at hstep
      split at hstep
      · cases hstep
      · next hclosed =>
          cases hstep
          exact absurd (h.exited (h.finished text htext)) hclosed
  | close =>
      cases hstep
      exact hcomplete text htext
  | exit =>
      cases hstep
      exact hcomplete text htext
  | poll =>
      simp only [step] at hstep
      split at hstep
      · cases hstep
        cases htext
      · cases hstep
  | read =>
      simp only [step] at hstep
      split at hstep
      · next hangUp hstage =>
          cases hstep
          unfold stepRead at htext
          split_ifs at htext
      · cases hstep
  | waitpid => exact absurd rfl hevent

/-- When the handler asks for the exit, what it has is the whole output exactly
if it has drained the pipe. -/
theorem complete_waitpid_iff (h : Invariant s)
    (hstep : step s .waitpid = some next) : Complete next ↔ Drained s .waitpid := by
  simp only [step] at hstep
  split at hstep
  · next hangUp hstage =>
      have hsplit := h.split (by simp [hstage])
      split at hstep
      · next hexited =>
          cases hstep
          have hiff : s.buffer = s.written ↔ s.pipe = [] := by
            rw [← hsplit]
            simp
          constructor
          · intro hnext _ _ _
            exact hiff.mp (hnext s.buffer rfl)
          · intro hdrained text htext
            cases htext
            apply hiff.mpr
            cases hangUp with
            | true => exact h.waiting hstage
            | false => exact hdrained rfl hstage hexited
      · next hexited =>
          cases hstep
          exact ⟨fun _ _ _ h => absurd h hexited, fun _ text htext => by cases htext⟩
  · cases hstep

/-- A run in which the pipe is empty whenever the script is found to have exited
hands on its whole output; the first time that it is not, something is lost. -/
theorem complete_of_drained (s : System) :
    (Reached Drained s → Complete s) ∧
    (Reached (fun _ _ => True) s → ∀ next, step s .waitpid = some next →
      (Complete next ↔ Drained s .waitpid)) := by
  constructor
  · intro hs
    induction hs with
    | start => exact fun text htext => by cases htext
    | @step s event next hs hdrained hstep ih =>
        by_cases hevent : event = .waitpid
        · subst hevent
          exact (complete_waitpid_iff hs.invariant hstep).mpr hdrained
        · exact complete_step hs.invariant ih hevent hstep
  · exact fun hs next hstep => complete_waitpid_iff hs.invariant hstep

/-- The script writes and exits before the server looks. -/
theorem complete_of_drained_hi :
    Complete ⟨bytes "hi", [], true, true, bytes "hi", .finished (bytes "hi")⟩ := by
  have hwrite : Reached Drained ⟨bytes "hi", bytes "hi", false, false, [], .idle⟩ :=
    .step .start (nofun : Drained {} (.write (bytes "hi"))) rfl
  have hexit : Reached Drained ⟨bytes "hi", bytes "hi", true, true, [], .idle⟩ :=
    .step hwrite (nofun : Drained _ .exit) rfl
  have hpoll : Reached Drained ⟨bytes "hi", bytes "hi", true, true, [], .reading true⟩ :=
    .step hexit (nofun : Drained _ .poll) (by decide)
  have hread : Reached Drained ⟨bytes "hi", [], true, true, bytes "hi", .reading true⟩ :=
    .step hpoll (nofun : Drained _ .read) (by decide)
  have hend : Reached Drained ⟨bytes "hi", [], true, true, bytes "hi", .waiting true⟩ :=
    .step hread (nofun : Drained _ .read) (by decide)
  exact (complete_of_drained _).1 (.step hend (fun _ _ _ => rfl : Drained _ .waitpid) rfl)

/-- The script writes once more and exits after the `read` and before the `waitpid`. -/
theorem late_write_lost :
    ∃ s, Reached (fun _ _ => True) s ∧ s.stage = .finished (bytes "a") ∧ s.written = bytes "ab" ∧
      ¬ Complete s := by
  have hwrite : Reached (fun _ _ => True) ⟨bytes "a", bytes "a", false, false, [], .idle⟩ :=
    .step (s := {}) .start trivial (rfl : step _ (.write (bytes "a")) = _)
  have hpoll : Reached (fun _ _ => True)
      ⟨bytes "a", bytes "a", false, false, [], .reading false⟩ :=
    .step hwrite trivial (by decide : step _ .poll = _)
  have hread : Reached (fun _ _ => True)
      ⟨bytes "a", [], false, false, bytes "a", .waiting false⟩ :=
    .step hpoll trivial (by decide : step _ .read = _)
  have hlate : Reached (fun _ _ => True)
      ⟨bytes "ab", bytes "b", false, false, bytes "a", .waiting false⟩ :=
    .step hread trivial (by decide : step _ (.write (bytes "b")) = _)
  have hexit : Reached (fun _ _ => True)
      ⟨bytes "ab", bytes "b", true, true, bytes "a", .waiting false⟩ :=
    .step hlate trivial (rfl : step _ .exit = _)
  have hend : Reached (fun _ _ => True)
      ⟨bytes "ab", bytes "b", true, true, bytes "a", .finished (bytes "a")⟩ :=
    .step hexit trivial (rfl : step _ .waitpid = _)
  exact ⟨_, hend, rfl, rfl, fun h => absurd (h _ rfl) (by decide)⟩

end IOCGIHandler

end FortyTwo.Webserv
