import FortyTwo.Foundation.BoundedLoop

/-!
Merge-insertion sort of a container of numbers, a vector and a deque alike.
An iterator is an integer, its place counted from the front of its container,
which a computation may move outside of it; reading, writing or searching there
is a fault. `int` and `long` are exact.
-/

namespace FortyTwo.PmergeMe

open Foundation

inductive Fault
  /-- An iterator or a range outside of its container. -/
  | outOfRange
  /-- A search of a range that is not partitioned by the value. -/
  | unpartitioned
  | outOfFuel
deriving DecidableEq, Repr

/-- `*it`. -/
def deref {α : Type} (xs : List α) (it : Int) : Except Fault α :=
  if 0 ≤ it then
    match xs[it.toNat]? with
    | some value => .ok value
    | none => .error .outOfRange
  else .error .outOfRange

/-- `*it = value`. -/
def store (container : List Int) (it : Int) (value : Int) : Except Fault (List Int) :=
  if 0 ≤ it ∧ it < container.length then .ok (container.set it.toNat value)
  else .error .outOfRange

/-- `std::iter_swap`. -/
def iterSwap (container : List Int) (a b : Int) : Except Fault (List Int) := do
  let first ← deref container a
  let second ← deref container b
  let container ← store container a second
  store container b first

def comp (container : List Int) (lv rv : Int) : Except Fault Bool := do
  let left ← deref container lv
  let right ← deref container rv
  return decide (left < right)

def jacobsthalNumber (n : Nat) : Int :=
  (2 ^ (n + 1) + (-1) ^ n) / 3

def swapRound (pairLevel : Int) (s : List Int × Int) :
    Except Fault (List Int × Int) := do
  let container ← iterSwap s.1 s.2 (s.2 + pairLevel)
  return (container, s.2 + 1)

def swapPair (fuel : Nat) (container : List Int) (it : Int) (pairLevel : Int) :
    Except Fault (List Int) := do
  let start := it + (-pairLevel + 1)
  let stop := start + pairLevel
  let s ← boundedWhile .outOfFuel (fun s : List Int × Int => s.2 != stop)
    (swapRound pairLevel) fuel (container, start)
  return s.1

/-- One round of the loop that orders the two units of every pair by their
last numbers. -/
def pairRound (fuel : Nat) (pairLevel : Int) (s : List Int × Int) :
    Except Fault (List Int × Int) := do
  let thisPair := s.2 + (pairLevel - 1)
  let nextPair := s.2 + (pairLevel * 2 - 1)
  let swapped ← comp s.1 nextPair thisPair
  let container ← if swapped then swapPair fuel s.1 thisPair pairLevel else pure s.1
  return (container, s.2 + 2 * pairLevel)

/-- The values of `i` in `for (int i = 4; i <= pair_units_nbr; i += 2)`. -/
def pairIndices (pairUnitsNbr : Int) : List Nat :=
  List.range' 4 ((pairUnitsNbr.toNat - 2) / 2) 2

def initialMain (pairLevel pairUnitsNbr : Int) : List Int :=
  (pairLevel - 1) :: (pairLevel * 2 - 1) ::
    (pairIndices pairUnitsNbr).map fun (i : Nat) => pairLevel * i - 1

def initialPend (pairLevel pairUnitsNbr stop : Int) (isOdd : Bool) : List Int :=
  ((pairIndices pairUnitsNbr).map fun (i : Nat) => pairLevel * (i - 1) - 1) ++
    if isOdd then [stop + (pairLevel - 1)] else []

/-- `std::upper_bound(main.begin(), bound, value)`, which compares the numbers
that the iterators stand on. -/
def upperBound (container : List Int) (main : List Int) (bound : Int) (value : Int) :
    Except Fault Nat := do
  if 0 ≤ bound ∧ bound ≤ main.length then
    let number ← deref container value
    let range ← (main.take bound.toNat).mapM (deref container)
    let idx := range.findIdx fun e => decide (number < e)
    if (range.drop idx).all fun e => decide (number < e) then return idx
    else .error .unpartitioned
  else .error .outOfRange

/-- The state of `while (nbr_of_times)`. -/
structure Group where
  main : List Int
  pend : List Int
  pendIt : Int
  boundIt : Int
  offset : Int
  nbrOfTimes : Int
deriving DecidableEq

def groupRound (container : List Int) (currJacobsthal insertedNumbers : Int) (s : Group) :
    Except Fault Group := do
  let value ← deref s.pend s.pendIt
  let idx ← upperBound container s.main s.boundIt value
  let main := s.main.insertIdx idx value
  let pend := s.pend.eraseIdx s.pendIt.toNat
  -- the inserted entry stands where the bound stood
  let offset := s.offset + if (idx : Int) = currJacobsthal + insertedNumbers then 1 else 0
  return {
    main := main
    pend := pend
    pendIt := s.pendIt + -1
    boundIt := currJacobsthal + insertedNumbers - offset
    offset := offset
    nbrOfTimes := s.nbrOfTimes - 1 }

/-- The state of the loop over the Jacobsthal numbers. -/
structure Chains where
  k : Nat
  prevJacobsthal : Int
  insertedNumbers : Int
  main : List Int
  pend : List Int
deriving DecidableEq

def Chains.jacobsthalDiff (s : Chains) : Int :=
  jacobsthalNumber s.k - s.prevJacobsthal

def chainsRound (fuel : Nat) (container : List Int) (s : Chains) : Except Fault Chains := do
  let currJacobsthal := jacobsthalNumber s.k
  let group ← boundedWhile .outOfFuel (fun g : Group => g.nbrOfTimes != 0)
    (groupRound container currJacobsthal s.insertedNumbers) fuel
    { main := s.main
      pend := s.pend
      pendIt := s.jacobsthalDiff - 1
      boundIt := currJacobsthal + s.insertedNumbers
      offset := 0
      nbrOfTimes := s.jacobsthalDiff }
  return {
    k := s.k + 1
    prevJacobsthal := currJacobsthal
    insertedNumbers := s.insertedNumbers + s.jacobsthalDiff
    main := group.main
    pend := group.pend }

/-- One round of the loop that inserts what no Jacobsthal number reaches. -/
def remainingRound (container : List Int) (pend : List Int) (isOdd : Bool)
    (s : Int × List Int) : Except Fault (Int × List Int) := do
  let currPend ← deref pend s.1
  let currBound := (s.2.length : Int) - pend.length + s.1 + if isOdd then 1 else 0
  let idx ← upperBound container s.2 currBound currPend
  return (s.1 - 1, s.2.insertIdx idx currPend)

/-- The numbers of the units whose last places `main` lists. -/
def copyUnits (container : List Int) (pairLevel : Int) (main : List Int) :
    Except Fault (List Int) := do
  let units ← main.mapM fun it =>
    (List.range pairLevel.toNat).mapM fun (i : Nat) => deref container (it + (-pairLevel + i + 1))
  return units.flatten

def writeBack : List Int → Int → List Int → Except Fault (List Int)
  | container, _, [] => .ok container
  | container, it, value :: copy => do
      let container ← store container it value
      writeBack container (it + 1) copy

def mergeInsertionSort : Nat → List Int → Int → Except Fault (List Int)
  | 0, _, _ => .error .outOfFuel
  | fuel + 1, container, pairLevel => do
      let pairUnitsNbr := (container.length : Int) / pairLevel
      if pairUnitsNbr < 2 then return container
      let isOdd := decide (pairUnitsNbr % 2 = 1)
      let last := pairLevel * pairUnitsNbr
      let stop := last + -((if isOdd then 1 else 0) * pairLevel)
      let paired ← boundedWhile .outOfFuel (fun s : List Int × Int => s.2 != stop)
        (pairRound fuel pairLevel) fuel (container, 0)
      let container ← mergeInsertionSort fuel paired.1 (pairLevel * 2)
      let chains ← boundedWhile .outOfFuel
        (fun s : Chains => decide (s.jacobsthalDiff ≤ s.pend.length))
        (chainsRound fuel container) fuel
        { k := 2
          prevJacobsthal := jacobsthalNumber 1
          insertedNumbers := 0
          main := initialMain pairLevel pairUnitsNbr
          pend := initialPend pairLevel pairUnitsNbr stop isOdd }
      let remaining ← boundedWhile .outOfFuel (fun s : Int × List Int => decide (0 ≤ s.1))
        (remainingRound container chains.pend isOdd) fuel
        ((chains.pend.length : Int) - 1, chains.main)
      let copy ← copyUnits container pairLevel remaining.2
      writeBack container 0 copy

end FortyTwo.PmergeMe
