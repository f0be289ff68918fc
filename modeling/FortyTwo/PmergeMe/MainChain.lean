import FortyTwo.Foundation.BoundedInsertion

/-!
The order in which pending entries enter the main chain. A pending entry `b i`
is not larger than its partner `a i` of the chain, groups of pending entries go
in from the last to the first, and the search for each ends at a place computed
from counters alone. The places of the partners still to come stay at or below
the places so computed.
-/

namespace FortyTwo.PmergeMe

open Foundation

variable {α β : Type*} [LinearOrder β]

/-- The pending entries and their partners: `pairs` of them, numbered from one,
and a last pending entry without a partner when `odd` is one. -/
structure Partners (key : α → β) (a b : Nat → α) (pairs odd : Nat) : Prop where
  odd_le : odd ≤ 1
  partner : ∀ i, 1 ≤ i → i ≤ pairs → key (b i) ≤ key (a i)

/-- The main chain inside a group: entries up to `prev` have been inserted in
earlier groups, `count` of this group, and `left` are still to come. A search
has `offset` places less to look at since an insertion took the bound's own
place. -/
structure MainChain (key : α → β) (a : Nat → α) (pairs prev left count offset : Nat)
    (main : List α) : Prop where
  sorted : SortedBy key main
  length : main.length = pairs + prev + count
  ahead : ∀ i, prev + left + count < i → i ≤ pairs →
    WithinPlace main (a i) (i + prev + count - 1)
  below : ∀ i, prev < i → i ≤ prev + left → i ≤ pairs →
    WithinPlace main (a i) (i + prev + count - 1 - offset)

variable {key : α → β} {a b : Nat → α} {pairs odd prev left count offset : Nat} {main : List α}

/-- The place where the search for the last entry still to come of a group ends. -/
def groupBound (prev left count offset : Nat) : Nat :=
  prev + left + count + (prev - 1) - offset

theorem MainChain.groupBound_le_length
    (h : MainChain key a pairs prev (left + 1) count offset main) (hpartners : odd ≤ 1)
    (hprev : 1 ≤ prev) (hroom : prev + (left + 1) + count ≤ pairs + odd) :
    groupBound prev (left + 1) count offset ≤ main.length := by
  rw [h.length, groupBound]
  omega

/-- Nothing at the bound or behind it is smaller than the entry to insert: its
partner stands no later than the bound, and an entry without a partner is
searched for in the whole chain. -/
theorem MainChain.le_of_groupBound_le
    (h : MainChain key a pairs prev (left + 1) count offset main)
    (hpartners : Partners key a b pairs odd) (hprev : 1 ≤ prev)
    (hroom : prev + (left + 1) + count ≤ pairs + odd) (hfirst : count = 0 → offset = 0)
    {j : Nat} {e : α} (hj : groupBound prev (left + 1) count offset ≤ j)
    (hget : main[j]? = some e) : key (b (prev + left + 1)) ≤ key e := by
  by_cases hpair : prev + left + 1 ≤ pairs
  · have hplace := h.below (prev + left + 1) (by omega) (by omega) hpair
    refine le_of_withinPlace h.sorted (hplace.mono ?_)
      (hpartners.partner _ (by omega) hpair) hj hget
    rw [groupBound]
    omega
  · obtain ⟨hlen, _⟩ := List.getElem?_eq_some_iff.1 hget
    have := hpartners.odd_le
    have hcount : count = 0 := by omega
    rw [h.length] at hlen
    rw [groupBound, hfirst hcount] at hj
    omega

/-- One insertion. The bound moves back when the new entry takes its place. -/
theorem MainChain.insert
    (h : MainChain key a pairs prev (left + 1) count offset main)
    (hpartners : Partners key a b pairs odd) (hprev : 1 ≤ prev)
    (hroom : prev + (left + 1) + count ≤ pairs + odd) (hfirst : count = 0 → offset = 0)
    (hoffset : offset ≤ 1) {idx : Nat}
    (hidx : idx = boundedUpper key (groupBound prev (left + 1) count offset)
      (key (b (prev + left + 1))) main) :
    MainChain key a pairs prev left (count + 1)
      (offset + if idx = groupBound prev (left + 1) count 0 then 1 else 0)
      (main.insertIdx idx (b (prev + left + 1))) := by
  have hidxle : idx ≤ groupBound prev (left + 1) count offset := by
    rw [hidx]
    exact boundedUpper_le_bound _ _ _ _
  have hidxlen : idx ≤ main.length := by
    rw [hidx]
    exact boundedUpper_le_length _ _ _ _
  refine ⟨?_, ?_, ?_, ?_⟩
  · rw [hidx]
    exact h.sorted.insert_boundedUpper fun j e hj hget =>
      h.le_of_groupBound_le hpartners hprev hroom hfirst hj hget
  · rw [List.length_insertIdx_of_le_length hidxlen, h.length]
    omega
  · intro i hi hpair
    exact (h.ahead i (by omega) hpair).insertIdx.mono (by omega)
  · intro i hi hleft hpair
    have hplace := h.below i hi (by omega) hpair
    split
    · -- the entry went in at the bound, behind every partner still to come
      rename_i hbound
      rw [groupBound] at hidxle hbound
      refine (hplace.insertIdx_of_lt ?_).mono ?_
      · omega
      · omega
    · apply hplace.insertIdx.mono
      omega

/-- The bound moves back once in a group at most. -/
theorem offset_le_one (hprev : 1 ≤ prev) (hoffset : offset ≤ 1) {idx : Nat}
    (hidx : idx ≤ groupBound prev (left + 1) count offset) :
    offset + (if idx = groupBound prev (left + 1) count 0 then 1 else 0) ≤ 1 := by
  split
  · rename_i hbound
    rw [groupBound] at hidx hbound
    omega
  · exact hoffset

theorem MainChain.weaken (h : MainChain key a pairs prev left count offset main) :
    MainChain key a pairs prev left count 0 main where
  sorted := h.sorted
  length := h.length
  ahead := h.ahead
  below i hi hleft hpair := (h.below i hi hleft hpair).mono (by omega)

/-- After the last entry of a group the next group begins. -/
theorem MainChain.next (h : MainChain key a pairs prev 0 count offset main) (more : Nat) :
    MainChain key a pairs (prev + count) more 0 0 main where
  sorted := h.sorted
  length := by rw [h.length]; omega
  ahead i hi hpair := (h.ahead i (by omega) hpair).mono (by omega)
  below i hi _ hpair := (h.ahead i (by omega) hpair).mono (by omega)

end FortyTwo.PmergeMe
