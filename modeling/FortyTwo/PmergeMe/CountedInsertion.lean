import FortyTwo.Foundation.Counting
import FortyTwo.PmergeMe.MergeInsertion

/-!
`MergeInsertion` with a count of the calls of `_comp`, and with the halving search
of `std::upper_bound`, which makes them one by one.
-/

namespace FortyTwo.PmergeMe

open Foundation

def countedComp (container : List Int) (lv rv : Int) : Counted Fault Bool := do
  tick
  comp container lv rv

/-- A round of `std::upper_bound` on the `s.2` entries from `s.1` on. -/
def searchRound (container main : List Int) (value : Int) (s : Nat × Nat) :
    Counted Fault (Nat × Nat) := do
  let half := s.2 / 2
  let middle := s.1 + half
  let entry ← deref main (middle : Nat)
  if ← countedComp container value entry then return (s.1, half)
  return (middle + 1, s.2 - half - 1)

def countedUpperBound (container main : List Int) (bound value : Int) : Counted Fault Nat := do
  if 0 ≤ bound ∧ bound ≤ main.length then
    let s ← countedWhile .outOfFuel (fun s : Nat × Nat => s.2 != 0)
      (searchRound container main value) bound.toNat (0, bound.toNat)
    return s.1
  else throw .outOfRange

def countedPairRound (fuel : Nat) (pairLevel : Int) (s : List Int × Int) :
    Counted Fault (List Int × Int) := do
  let thisPair := s.2 + (pairLevel - 1)
  let nextPair := s.2 + (pairLevel * 2 - 1)
  let swapped ← countedComp s.1 nextPair thisPair
  let container ← if swapped then swapPair fuel s.1 thisPair pairLevel else pure s.1
  return (container, s.2 + 2 * pairLevel)

def countedGroupRound (container : List Int) (currJacobsthal insertedNumbers : Int) (s : Group) :
    Counted Fault Group := do
  let value ← deref s.pend s.pendIt
  let idx ← countedUpperBound container s.main s.boundIt value
  let main := s.main.insertIdx idx value
  let pend := s.pend.eraseIdx s.pendIt.toNat
  let offset := s.offset + if (idx : Int) = currJacobsthal + insertedNumbers then 1 else 0
  return {
    main := main
    pend := pend
    pendIt := s.pendIt + -1
    boundIt := currJacobsthal + insertedNumbers - offset
    offset := offset
    nbrOfTimes := s.nbrOfTimes - 1 }

def countedChainsRound (fuel : Nat) (container : List Int) (s : Chains) : Counted Fault Chains := do
  let currJacobsthal := jacobsthalNumber s.k
  let group ← countedWhile .outOfFuel (fun g : Group => g.nbrOfTimes != 0)
    (countedGroupRound container currJacobsthal s.insertedNumbers) fuel
    { main := s.main
      pend := s.pend
      pendIt := s.jacobsthalDiff - 1
      boundIt := currJacobsthal + s.insertedNumbers
      offset := 0
      nbrOfTimes := s.jacobsthalDiff }
  return {
    k := s.k + 1
    prevJacobsthal := currJacobsthal
    insertedNumbers := s.insertedNumbers + s.jacobsthalDiff
    main := group.main
    pend := group.pend }

def countedRemainingRound (container : List Int) (pend : List Int) (isOdd : Bool)
    (s : Int × List Int) : Counted Fault (Int × List Int) := do
  let currPend ← deref pend s.1
  let currBound := (s.2.length : Int) - pend.length + s.1 + if isOdd then 1 else 0
  let idx ← countedUpperBound container s.2 currBound currPend
  return (s.1 - 1, s.2.insertIdx idx currPend)

def countedSort : Nat → List Int → Int → Counted Fault (List Int)
  | 0, _, _ => throw .outOfFuel
  | fuel + 1, container, pairLevel => do
      let pairUnitsNbr := (container.length : Int) / pairLevel
      if pairUnitsNbr < 2 then return container
      let isOdd := decide (pairUnitsNbr % 2 = 1)
      let last := pairLevel * pairUnitsNbr
      let stop := last + -((if isOdd then 1 else 0) * pairLevel)
      let paired ← countedWhile .outOfFuel (fun s : List Int × Int => s.2 != stop)
        (countedPairRound fuel pairLevel) fuel (container, 0)
      let container ← countedSort fuel paired.1 (pairLevel * 2)
      let chains ← countedWhile .outOfFuel
        (fun s : Chains => decide (s.jacobsthalDiff ≤ s.pend.length))
        (countedChainsRound fuel container) fuel
        { k := 2
          prevJacobsthal := jacobsthalNumber 1
          insertedNumbers := 0
          main := initialMain pairLevel pairUnitsNbr
          pend := initialPend pairLevel pairUnitsNbr stop isOdd }
      let remaining ← countedWhile .outOfFuel (fun s : Int × List Int => decide (0 ≤ s.1))
        (countedRemainingRound container chains.pend isOdd) fuel
        ((chains.pend.length : Int) - 1, chains.main)
      let copy ← copyUnits container pairLevel remaining.2
      writeBack container 0 copy

/-- Seven comparisons sort five numbers. -/
example : countedSort 40 [5, 3, 8, 1, 9] 1 0 = .ok ([1, 3, 5, 8, 9], 7) := by decide +kernel

end FortyTwo.PmergeMe
