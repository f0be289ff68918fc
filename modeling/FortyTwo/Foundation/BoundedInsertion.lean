import Mathlib.Data.List.InsertIdx
import Mathlib.Data.List.Perm.Basic
import Mathlib.Order.Basic
import Mathlib.Tactic

/-!
Inserting into a sorted list when only a prefix of it is searched. The place
comes out right as soon as nothing behind the prefix is smaller than the new
entry, and one entry of the list that is known not to be smaller tells how long
a prefix is enough.
-/

namespace FortyTwo.Foundation

variable {α β : Type*} [LinearOrder β]

/-- The entries stand in non-decreasing order of their keys. -/
def SortedBy (key : α → β) (xs : List α) : Prop :=
  xs.Pairwise fun a b => key a ≤ key b

/-- The first place among the first `bound` entries whose key is larger than
`value`, or `bound`. -/
def boundedUpper (key : α → β) (bound : Nat) (value : β) (xs : List α) : Nat :=
  (xs.take bound).findIdx fun e => decide (value < key e)

/-- `a` stands at `place` or before it. -/
def WithinPlace (xs : List α) (a : α) (place : Nat) : Prop :=
  ∃ j, j ≤ place ∧ xs[j]? = some a

theorem WithinPlace.mono {xs : List α} {a : α} {place more : Nat}
    (h : WithinPlace xs a place) (hle : place ≤ more) : WithinPlace xs a more := by
  obtain ⟨j, hj, hget⟩ := h
  exact ⟨j, by omega, hget⟩

/-- An insertion moves an entry by one place at most. -/
theorem WithinPlace.insertIdx {xs : List α} {a x : α} {place idx : Nat}
    (h : WithinPlace xs a place) : WithinPlace (xs.insertIdx idx x) a (place + 1) := by
  obtain ⟨j, hj, hget⟩ := h
  by_cases hlt : j < idx
  · exact ⟨j, by omega, by rw [List.getElem?_insertIdx_of_lt hlt, hget]⟩
  · refine ⟨j + 1, by omega, ?_⟩
    rw [List.getElem?_insertIdx_of_gt (by omega)]
    simpa using hget

/-- An insertion behind an entry leaves it where it is. -/
theorem WithinPlace.insertIdx_of_lt {xs : List α} {a x : α} {place idx : Nat}
    (h : WithinPlace xs a place) (hlt : place < idx) :
    WithinPlace (xs.insertIdx idx x) a place := by
  obtain ⟨j, hj, hget⟩ := h
  exact ⟨j, hj, by rw [List.getElem?_insertIdx_of_lt (by omega), hget]⟩

theorem boundedUpper_le_bound (key : α → β) (bound : Nat) (value : β) (xs : List α) :
    boundedUpper key bound value xs ≤ bound := by
  have htake : boundedUpper key bound value xs ≤ (xs.take bound).length :=
    List.findIdx_le_length
  rw [List.length_take] at htake
  exact htake.trans (Nat.min_le_left _ _)

theorem boundedUpper_le_length (key : α → β) (bound : Nat) (value : β) (xs : List α) :
    boundedUpper key bound value xs ≤ xs.length := by
  have htake : boundedUpper key bound value xs ≤ (xs.take bound).length :=
    List.findIdx_le_length
  rw [List.length_take] at htake
  exact htake.trans (Nat.min_le_right _ _)

/-- What stands before the place found is not larger. -/
theorem le_of_lt_boundedUpper {key : α → β} {bound : Nat} {value : β} {xs : List α} {j : Nat}
    {e : α} (hj : j < boundedUpper key bound value xs) (hget : xs[j]? = some e) :
    key e ≤ value := by
  have hbound : j < bound := lt_of_lt_of_le hj (boundedUpper_le_bound _ _ _ _)
  have hlen : j < (xs.take bound).length :=
    lt_of_lt_of_le hj (List.findIdx_le_length)
  have hnot := List.not_of_lt_findIdx hj
  have hentry : (xs.take bound)[j] = e := by
    apply Option.some.inj
    rw [← List.getElem?_eq_getElem, List.getElem?_take_of_lt hbound, hget]
  rw [hentry] at hnot
  simpa using hnot

/-- In a sorted list everything in the prefix from the place found on is
larger: the prefix is partitioned, as a binary search asks for. -/
theorem lt_of_boundedUpper_le {key : α → β} {bound : Nat} {value : β} {xs : List α}
    (hsorted : SortedBy key xs) {j : Nat} {e : α} (hj : boundedUpper key bound value xs ≤ j)
    (hbound : j < bound) (hget : xs[j]? = some e) : value < key e := by
  obtain ⟨hlen, rfl⟩ := List.getElem?_eq_some_iff.1 hget
  have htake : boundedUpper key bound value xs < (xs.take bound).length := by
    rw [List.length_take]
    omega
  have hfound := List.findIdx_getElem (p := fun e => decide (value < key e)) (w := htake)
  have hentry : (xs.take bound)[boundedUpper key bound value xs] =
      xs[boundedUpper key bound value xs] := List.getElem_take
  have hfirst : value < key xs[boundedUpper key bound value xs] := by
    rw [← hentry]
    exact of_decide_eq_true hfound
  rcases hj.eq_or_lt with heq | hlt
  · simpa only [heq] using hfirst
  · exact hfirst.trans_le (List.pairwise_iff_getElem.1 hsorted _ _ _ hlen hlt)

/-- What follows an entry that is not smaller than `value`, the entry itself
included, is not smaller either. -/
theorem le_of_withinPlace {key : α → β} {xs : List α} (hsorted : SortedBy key xs) {a : α}
    {bound : Nat} {value : β} (hplace : WithinPlace xs a bound) (ha : value ≤ key a)
    {j : Nat} {e : α} (hj : bound ≤ j) (hget : xs[j]? = some e) : value ≤ key e := by
  obtain ⟨i, hi, hgeta⟩ := hplace
  obtain ⟨hleni, rfl⟩ := List.getElem?_eq_some_iff.1 hgeta
  obtain ⟨hlenj, rfl⟩ := List.getElem?_eq_some_iff.1 hget
  rcases (hi.trans hj).eq_or_lt with heq | hlt
  · simpa only [heq] using ha
  · exact ha.trans (List.pairwise_iff_getElem.1 hsorted _ _ hleni hlenj hlt)

/-- Inserting at a place that separates the smaller entries from the larger
ones keeps the order. -/
theorem SortedBy.insertIdx {key : α → β} {xs : List α} (hsorted : SortedBy key xs) {idx : Nat}
    {x : α} (hidx : idx ≤ xs.length)
    (hbefore : ∀ (j : Nat) (e : α), j < idx → xs[j]? = some e → key e ≤ key x)
    (hbehind : ∀ (j : Nat) (e : α), idx ≤ j → xs[j]? = some e → key x ≤ key e) :
    SortedBy key (xs.insertIdx idx x) := by
  rw [SortedBy, List.pairwise_iff_getElem]
  intro i j hi hj hij
  rw [List.length_insertIdx_of_le_length hidx] at hi hj
  have horder := List.pairwise_iff_getElem.1 hsorted
  rcases Nat.lt_trichotomy i idx with hi' | rfl | hi'
  · rw [List.getElem_insertIdx_of_lt hi']
    rcases Nat.lt_trichotomy j idx with hj' | rfl | hj'
    · rw [List.getElem_insertIdx_of_lt hj']
      exact horder i j (by omega) (by omega) hij
    · rw [List.getElem_insertIdx_self]
      exact hbefore i _ hi' (List.getElem?_eq_getElem _)
    · rw [List.getElem_insertIdx_of_gt hj']
      exact horder i (j - 1) (by omega) (by omega) (by omega)
  · rw [List.getElem_insertIdx_self, List.getElem_insertIdx_of_gt hij]
    exact hbehind (j - 1) _ (by omega) (List.getElem?_eq_getElem _)
  · rw [List.getElem_insertIdx_of_gt hi', List.getElem_insertIdx_of_gt (by omega)]
    exact horder (i - 1) (j - 1) (by omega) (by omega) (by omega)

/-- A search of a prefix finds a right place when nothing behind the prefix is
smaller. -/
theorem SortedBy.insert_boundedUpper {key : α → β} {xs : List α} (hsorted : SortedBy key xs)
    {bound : Nat} {x : α}
    (hbehind : ∀ (j : Nat) (e : α), bound ≤ j → xs[j]? = some e → key x ≤ key e) :
    SortedBy key (xs.insertIdx (boundedUpper key bound (key x) xs) x) := by
  refine hsorted.insertIdx (boundedUpper_le_length _ _ _ _) ?_ ?_
  · intro j e hj hget
    exact le_of_lt_boundedUpper hj hget
  · intro j e hj hget
    by_cases hbound : j < bound
    · exact (lt_of_boundedUpper_le hsorted hj hbound hget).le
    · exact hbehind j e (by omega) hget

end FortyTwo.Foundation
