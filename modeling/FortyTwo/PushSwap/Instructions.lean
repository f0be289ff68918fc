import Mathlib.Tactic

/-!
The puzzle that push_swap plays: two stacks of numbers and eleven
instructions. `replay` is the standard meaning of an instruction log; it knows
nothing of how the program finds the log.
-/

namespace FortyTwo.PushSwap

inductive Instr where
  | sa | sb | ss | pa | pb | ra | rb | rr | rra | rrb | rrr
  deriving DecidableEq, Repr

/-- Exchange the two top numbers; nothing happens on a shorter stack. -/
def swapTop {α : Type*} : List α → List α
  | x :: y :: rest => y :: x :: rest
  | short => short

/-- The top number goes to the bottom. -/
def rotateUp {α : Type*} (l : List α) : List α := l.rotate 1

/-- The bottom number goes to the top. -/
def rotateDown {α : Type*} (l : List α) : List α := l.rotate (l.length - 1)

/-- Move the top of the first stack onto the second. -/
def pushOnto {α : Type*} : List α → List α → List α × List α
  | [], dest => ([], dest)
  | x :: source, dest => (source, x :: dest)

def exec : Instr → List Int × List Int → List Int × List Int
  | .sa, (a, b) => (swapTop a, b)
  | .sb, (a, b) => (a, swapTop b)
  | .ss, (a, b) => (swapTop a, swapTop b)
  | .pa, (a, b) => let (b', a') := pushOnto b a; (a', b')
  | .pb, (a, b) => pushOnto a b
  | .ra, (a, b) => (rotateUp a, b)
  | .rb, (a, b) => (a, rotateUp b)
  | .rr, (a, b) => (rotateUp a, rotateUp b)
  | .rra, (a, b) => (rotateDown a, b)
  | .rrb, (a, b) => (a, rotateDown b)
  | .rrr, (a, b) => (rotateDown a, rotateDown b)

/-- Play a log from the two given stacks. -/
def replay (log : List Instr) (start : List Int × List Int) : List Int × List Int :=
  log.foldl (fun s instr => exec instr s) start

@[simp] theorem replay_nil (start : List Int × List Int) : replay [] start = start := rfl

@[simp] theorem replay_snoc (log : List Instr) (instr : Instr) (start : List Int × List Int) :
    replay (log ++ [instr]) start = exec instr (replay log start) := by
  simp [replay]

@[simp] theorem map_swapTop {α β : Type*} (f : α → β) (l : List α) :
    (swapTop l).map f = swapTop (l.map f) := by
  rcases l with _ | ⟨x, _ | ⟨y, rest⟩⟩ <;> rfl

@[simp] theorem map_rotateUp {α β : Type*} (f : α → β) (l : List α) :
    (rotateUp l).map f = rotateUp (l.map f) := by
  simp [rotateUp, List.map_rotate]

@[simp] theorem map_rotateDown {α β : Type*} (f : α → β) (l : List α) :
    (rotateDown l).map f = rotateDown (l.map f) := by
  simp [rotateDown, List.map_rotate]

end FortyTwo.PushSwap
