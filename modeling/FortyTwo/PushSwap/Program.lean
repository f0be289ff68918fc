import FortyTwo.Foundation.BoundedLoop
import FortyTwo.PushSwap.Instructions

/-!
The sorting phase of push_swap: `operations.c`, `pos_and_cost.c`,
`effective_adjust.c` and the part of `main.c` after parsing. A stack is the
list of its nodes from the top, and `out` collects the instructions in the
order in which they are written. Every unbounded loop takes the number of
rounds it may run; running out, reading through a null pointer, overflowing an
`int` and reading an unset variable are errors.
-/

namespace FortyTwo.PushSwap

open Foundation

/-- What ends a run without a result. -/
inductive Stuck where
  | outOfFuel
  | nullPointer
  | intOverflow
  | uninitialised
  deriving DecidableEq, Repr

abbrev intMax : Int := 2147483647

/-- `t_stack` without its link. -/
structure Node where
  index : Int
  number : Int
  pos : Int
  targetPos : Int
  costA : Int
  costB : Int
  deriving DecidableEq, Repr

structure Stacks where
  a : List Node
  b : List Node
  out : List Instr
  deriving DecidableEq, Repr

def pushToX (source dest : List Node) (txt : Option Instr) :
    List Node × List Node × List Instr :=
  match source with
  | [] => (source, dest, [])
  | tempA :: tempB => (tempB, tempA :: dest, txt.toList)

def swapX (stack : List Node) (txt : Option Instr) : List Node × List Instr :=
  match stack with
  | original :: temp :: rest => (temp :: original :: rest, txt.toList)
  | _ => (stack, [])

def rotateX (stack : List Node) (txt : Option Instr) : List Node × List Instr :=
  match stack with
  | moved :: temp :: rest => (temp :: rest ++ [moved], txt.toList)
  | _ => (stack, [])

def reverseRotateX (stack : List Node) (txt : Option Instr) : List Node × List Instr :=
  match stack with
  | first :: next :: rest =>
      ((first :: next :: rest).getLast (by simp) :: (first :: next :: rest).dropLast,
        txt.toList)
  | _ => (stack, [])

/-- 1: `ss`, 2: `rr`, 3: `rrr`. Only the call on `b` writes. -/
def multipleOperation (s : Stacks) (op : Int) : Stacks :=
  if op = 1 then
    let (a, silent) := swapX s.a none
    let (b, txt) := swapX s.b (some .ss)
    ⟨a, b, s.out ++ silent ++ txt⟩
  else if op = 2 then
    let (a, silent) := rotateX s.a none
    let (b, txt) := rotateX s.b (some .rr)
    ⟨a, b, s.out ++ silent ++ txt⟩
  else if op = 3 then
    let (a, silent) := reverseRotateX s.a none
    let (b, txt) := reverseRotateX s.b (some .rrr)
    ⟨a, b, s.out ++ silent ++ txt⟩
  else s

/-- `push_to_x(a, b, "pb\n")`. -/
def Stacks.pb (s : Stacks) : Stacks :=
  let (a, b, txt) := pushToX s.a s.b (some .pb)
  ⟨a, b, s.out ++ txt⟩

/-- `push_to_x(b, a, "pa\n")`. -/
def Stacks.pa (s : Stacks) : Stacks :=
  let (b, a, txt) := pushToX s.b s.a (some .pa)
  ⟨a, b, s.out ++ txt⟩

/-- An operation of one stack applied to `a`. -/
def Stacks.onA (s : Stacks) (op : List Node → Option Instr → List Node × List Instr)
    (txt : Instr) : Stacks :=
  let (a, written) := op s.a (some txt)
  ⟨a, s.b, s.out ++ written⟩

/-- An operation of one stack applied to `b`. -/
def Stacks.onB (s : Stacks) (op : List Node → Option Instr → List Node × List Instr)
    (txt : Instr) : Stacks :=
  let (b, written) := op s.b (some txt)
  ⟨s.a, b, s.out ++ written⟩

/-- The node the n-th link leads to. -/
def deref (stack : List Node) (n : Nat) : Except Stuck Node :=
  match stack[n]? with
  | some node => .ok node
  | none => .error .nullPointer

/-- The scan of `assign_index`: where the lowest number without an index
stands. `i` counts the nodes already passed. -/
def lowestUnindexed (i : Nat) (lowest : Option (Nat × Int)) :
    List Node → Option (Nat × Int)
  | [] => lowest
  | current :: rest =>
      let lowest' :=
        if current.index = 0 then
          match lowest with
          | none => some (i, current.number)
          | some (j, number) =>
              if current.number < number then some (i, current.number) else some (j, number)
        else lowest
      lowestUnindexed (i + 1) lowest' rest

/-- One round of `assign_index`; a round that finds no node changes nothing. -/
def assignIndexRound (state : Int × List Node) : Except Stuck (Int × List Node) :=
  let (index, stack) := state
  match lowestUnindexed 0 none stack with
  | none => .ok (index, stack)
  | some (i, _) =>
      if index = intMax then .error .intOverflow
      else .ok (index + 1, stack.modify i (fun node => { node with index := index }))

def assignIndex (fuel : Nat) (stack : List Node) (len : Int) : Except Stuck (List Node) :=
  (boundedWhile .outOfFuel (fun s => decide (s.1 ≤ len)) assignIndexRound fuel (1, stack)).map
    Prod.snd

def isSorted : List Node → Except Stuck Bool
  | [] => .error .nullPointer
  | [_] => .ok true
  | current :: next :: rest =>
      if current.number > next.number then .ok false else isSorted (next :: rest)

def sortThree (s : Stacks) : Except Stuck Stacks := do
  let first ← deref s.a 0
  let second ← deref s.a 1
  let aboveSecond := decide (first.index > second.index)
  let firstGreatest ←
    if aboveSecond then do
      let third ← deref s.a 2
      pure (decide (first.index > third.index))
    else pure false
  let s :=
    if firstGreatest then s.onA rotateX .ra
    else if second.index > first.index then s.onA reverseRotateX .rra
    else s
  let first ← deref s.a 0
  let second ← deref s.a 1
  if first.index > second.index then pure (s.onA swapX .sa) else pure s

def currentPos (stack : List Node) : List Node :=
  stack.mapIdx (fun pos current => { current with pos := pos })

/-- A scan for the least index, with the position where it stands, among the
nodes that `wanted` admits. -/
def lowestWhere (wanted : Node → Bool) : Int × Int → List Node → Int × Int
  | found, [] => found
  | (targetIndex, targetPosition), temp :: rest =>
      if wanted temp && decide (temp.index < targetIndex) then
        lowestWhere wanted (temp.index, temp.pos) rest
      else lowestWhere wanted (targetIndex, targetPosition) rest

/-- `get_lowest`: the least index above `bIndex`, else the least of all. -/
def getLowest (stackA : List Node) (bIndex targetIndex targetPosition : Int) : Int :=
  let found := lowestWhere (fun temp => decide (temp.index > bIndex))
    (targetIndex, targetPosition) stackA
  if found.1 ≠ intMax then found.2
  else (lowestWhere (fun _ => true) found stackA).2

/-- The loop of `target`; `tPosition` is carried from node to node. -/
def targetLoop (a : List Node) (tPosition : Int) : List Node → List Node
  | [] => []
  | tempB :: rest =>
      let tPosition' := getLowest a tempB.index intMax tPosition
      { tempB with targetPos := tPosition' } :: targetLoop a tPosition' rest

def target (s : Stacks) : Stacks :=
  let a := currentPos s.a
  let b := currentPos s.b
  { s with a := a, b := targetLoop a (-1) b }

/-- A position as a signed number of rotations: backwards from the far half.
The division truncates as in C. -/
def signedCost (pos size : Int) : Int :=
  if pos > size.tdiv 2 then (size - pos) * -1 else pos

def cost (stackB : List Node) (sizeA sizeB : Int) : List Node :=
  stackB.map (fun tempB =>
    { tempB with
      costB := signedCost tempB.pos sizeB
      costA := signedCost tempB.targetPos sizeA })

def myAbs (num : Int) : Int := if num < 0 then -num else num

/-- The scan of `do_cost_effective`; `chosen` is `cost_a` and `cost_b`, unset
at first. -/
def cheapestLoop (cheapest : Int) (chosen : Option (Int × Int)) :
    List Node → Option (Int × Int)
  | [] => chosen
  | temp :: rest =>
      if myAbs temp.costA + myAbs temp.costB < cheapest then
        cheapestLoop (myAbs temp.costA + myAbs temp.costB) (some (temp.costA, temp.costB)) rest
      else cheapestLoop cheapest chosen rest

/-- Repeat `body` while `cond` holds of the counter, which moves by `step`. -/
def countLoop (fuel : Nat) (cond : Int → Bool) (step : Int) (body : Stacks → Stacks)
    (count : Int) (s : Stacks) : Except Stuck Stacks :=
  (boundedWhile .outOfFuel (fun state : Int × Stacks => cond state.1)
    (fun state => .ok (state.1 + step, body state.2)) fuel (count, s)).map Prod.snd

/-- The double rotations, with what is left of the two costs. -/
def sameMoves (fuel : Nat) (s : Stacks) (costA costB : Int) :
    Except Stuck (Stacks × Int × Int) := do
  let up ← boundedWhile .outOfFuel
    (fun state : Stacks × Int × Int => decide (state.2.1 > 0) && decide (state.2.2 > 0))
    (fun state => .ok (multipleOperation state.1 2, state.2.1 - 1, state.2.2 - 1))
    fuel (s, costA, costB)
  boundedWhile .outOfFuel
    (fun state : Stacks × Int × Int => decide (state.2.1 < 0) && decide (state.2.2 < 0))
    (fun state => .ok (multipleOperation state.1 3, state.2.1 + 1, state.2.2 + 1))
    fuel up

def doMove (fuel : Nat) (s : Stacks) (costA costB : Int) : Except Stuck Stacks := do
  let (s, costA, costB) ← sameMoves fuel s costA costB
  let s ← countLoop fuel (fun c => decide (c > 0)) (-1) (fun s => s.onA rotateX .ra) costA s
  let s ← countLoop fuel (fun c => decide (c < 0)) 1 (fun s => s.onA reverseRotateX .rra) costA s
  let s ← countLoop fuel (fun c => decide (c > 0)) (-1) (fun s => s.onB rotateX .rb) costB s
  let s ← countLoop fuel (fun c => decide (c < 0)) 1 (fun s => s.onB reverseRotateX .rrb) costB s
  pure s.pa

/-- The moved stacks and the returned `1`. -/
def doCostEffective (fuel : Nat) (s : Stacks) : Except Stuck (Stacks × Int) :=
  match cheapestLoop intMax none s.b with
  | none => .error .uninitialised
  | some (costA, costB) => do
      let s ← doMove fuel s costA costB
      pure (s, 1)

/-- `lowest_pos`. -/
def lowestPos (a : List Node) : Except Stuck Int := do
  let temp ← deref a 0
  pure (lowestWhere (fun _ => true) (intMax, temp.pos) a).2

def adjustStack (fuel : Nat) (s : Stacks) (len : Int) : Except Stuck Stacks := do
  let s := { s with a := currentPos s.a }
  let lowPosition ← lowestPos s.a
  if lowPosition > len.tdiv 2 then
    countLoop fuel (fun p => decide (p < len)) 1 (fun s => s.onA reverseRotateX .rra)
      lowPosition s
  else
    countLoop fuel (fun p => decide (p > 0)) (-1) (fun s => s.onA rotateX .ra) lowPosition s

/-- One round of the first loop of `sort_more`, on the stacks, `i` and `len_b`. -/
def spreadRound (len : Int) (state : Stacks × Int × Int) :
    Except Stuck (Stacks × Int × Int) := do
  let (s, i, lenB) := state
  let top ← deref s.a 0
  if top.index ≤ len.tdiv 2 ∧ lenB < len.tdiv 2 then
    -- `len_b++ < len` is evaluated, and counts, only here
    let s := if lenB < len then s.pb else s.onA rotateX .ra
    pure (s, i + 1, lenB + 1)
  else pure (s.onA rotateX .ra, i + 1, lenB)

/-- One round of the last loop of `sort_more`, on the stacks and `len_b`. -/
def mergeRound (fuel : Nat) (len : Int) (state : Stacks × Int) :
    Except Stuck (Stacks × Int) := do
  let s := target state.1
  let s := { s with b := cost s.b (len - state.2) state.2 }
  let (s, moved) ← doCostEffective fuel s
  pure (s, state.2 - moved)

def sortMore (fuel : Nat) (s : Stacks) (len lenB : Int) : Except Stuck Stacks := do
  let (s, _, lenB) ← boundedWhile .outOfFuel
    (fun state : Stacks × Int × Int =>
      decide (len > 6) && decide (state.2.1 < len) && decide (state.2.2 < len.tdiv 2))
    (spreadRound len) fuel (s, 0, lenB)
  let (s, lenB) ← boundedWhile .outOfFuel
    (fun state : Stacks × Int => decide (state.2 < len - 3))
    (fun state => .ok (state.1.pb, state.2 + 1)) fuel (s, lenB)
  let s ← if ← isSorted s.a then pure s else sortThree s
  let (s, _) ← boundedWhile .outOfFuel (fun state : Stacks × Int => !state.1.b.isEmpty)
    (mergeRound fuel len) fuel (s, lenB)
  pure s

/-- The branches of `main` on the number of numbers. -/
def sortBySize (fuel : Nat) (s : Stacks) (argc : Int) : Except Stuck Stacks := do
  if argc = 2 then
    if ← isSorted s.a then pure s else pure (s.onA swapX .sa)
  else if argc = 3 then
    if ← isSorted s.a then pure s else sortThree s
  else if argc > 3 then
    if ← isSorted s.a then pure s else sortMore fuel s argc 0
  else pure s

/-- `main` after `ft_parse`: `argc` is the number of numbers on stack `a`. -/
def sortingPhase (fuel : Nat) (stackA : List Node) (argc : Int) : Except Stuck Stacks := do
  let stackA ← assignIndex fuel stackA argc
  let s ← sortBySize fuel ⟨stackA, [], []⟩ argc
  if ← isSorted s.a then pure s else adjustStack fuel s argc

end FortyTwo.PushSwap
