import Mathlib.Algebra.Order.Group.Abs
import Mathlib.Tactic

/-!
The distances between the entries of a list at different positions. They do not depend on
the order of the entries.
-/

namespace FortyTwo.Foundation

variable {α : Type*} [AddCommGroup α] [LinearOrder α]

def distances (values : List α) : Set α :=
  {d | ∃ (i j : Nat) (a b : α), i ≠ j ∧ values[i]? = some a ∧ values[j]? = some b ∧ d = |a - b|}

theorem forall_distances {values : List α} (P : α → Prop) :
    (∀ d ∈ distances values, P d) ↔ values.Pairwise (fun a b => P |a - b|) := by
  rw [List.pairwise_iff_getElem]
  constructor
  · intro h i j hi hj hlt
    exact h _ ⟨i, j, _, _, ne_of_lt hlt, List.getElem?_eq_getElem hi,
      List.getElem?_eq_getElem hj, rfl⟩
  · rintro h d ⟨i, j, a, b, hne, ha, hb, rfl⟩
    obtain ⟨hi, rfl⟩ := List.getElem?_eq_some_iff.mp ha
    obtain ⟨hj, rfl⟩ := List.getElem?_eq_some_iff.mp hb
    rcases Nat.lt_or_gt_of_ne hne with hlt | hlt
    · exact h i j hi hj hlt
    · rw [abs_sub_comm]
      exact h j i hj hi hlt

theorem distances_perm {values values' : List α} (h : values.Perm values') :
    distances values = distances values' := by
  have hiff : ∀ P : α → Prop, (∀ d ∈ distances values, P d) ↔ ∀ d ∈ distances values', P d := by
    intro P
    rw [forall_distances, forall_distances]
    apply h.pairwise_iff
    intro a b hab
    rwa [abs_sub_comm]
  ext d
  have hd := not_congr (hiff (· ≠ d))
  simpa using hd

theorem distances_subset_cons (a : α) (rest : List α) : distances rest ⊆ distances (a :: rest) := by
  rintro d ⟨i, j, b, c, hne, hb, hc, rfl⟩
  exact ⟨i + 1, j + 1, b, c, fun heq => hne (Nat.succ.inj heq), hb, hc, rfl⟩

theorem abs_sub_mem_distances {a b : α} {rest : List α} (hb : b ∈ rest) :
    |a - b| ∈ distances (a :: rest) := by
  obtain ⟨j, hj⟩ := List.mem_iff_getElem?.mp hb
  exact ⟨0, j + 1, a, b, by omega, rfl, hj, rfl⟩

/-- The greatest distance is that of the extremes. -/
theorem greatest_distance [IsOrderedAddMonoid α] {values : List α} (hlength : 2 ≤ values.length)
    {lo hi : α} (hlo : lo ∈ values) (hhi : hi ∈ values)
    (hbounds : ∀ a ∈ values, lo ≤ a ∧ a ≤ hi) : IsGreatest (distances values) (hi - lo) := by
  constructor
  · obtain ⟨i, hi'⟩ := List.mem_iff_getElem?.mp hhi
    obtain ⟨j, hj⟩ := List.mem_iff_getElem?.mp hlo
    by_cases hne : i = j
    · subst hne
      obtain rfl : hi = lo := Option.some.inj (hi'.symm.trans hj)
      obtain ⟨k, hk, hother⟩ : ∃ k < values.length, i ≠ k := by
        by_cases hzero : i = 0
        · exact ⟨1, by omega, by omega⟩
        · exact ⟨0, by omega, hzero⟩
      have hbetween := hbounds values[k] (List.getElem_mem hk)
      refine ⟨i, k, hi, values[k], hother, hi', List.getElem?_eq_getElem hk, ?_⟩
      rw [le_antisymm hbetween.2 hbetween.1, sub_self, abs_zero]
    · refine ⟨i, j, hi, lo, hne, hi', hj, ?_⟩
      rw [abs_of_nonneg (sub_nonneg.mpr (hbounds hi hhi).1)]
  · have hpairs : values.Pairwise (fun a b => |a - b| ≤ hi - lo) := by
      apply List.pairwise_of_forall_mem_list
      intro a ha b hb
      obtain ⟨hla, hah⟩ := hbounds a ha
      obtain ⟨hlb, hbh⟩ := hbounds b hb
      apply abs_sub_le_iff.mpr
      exact ⟨sub_le_sub hah hlb, sub_le_sub hbh hla⟩
    intro d hd
    exact (forall_distances (· ≤ hi - lo)).mpr hpairs d hd

end FortyTwo.Foundation
