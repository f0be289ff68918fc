import Mathlib.Data.Set.Finite.Basic
import Mathlib.Order.Interval.Set.Infinite
import Mathlib.Tactic

/-!
A run without an end whose states have a size, and kinds that are finitely many where the
size is never again below what it is: one kind comes back, the size in between not below
what it was.
-/

namespace FortyTwo.Foundation

/-- From here on the size is never below what it is. -/
def StaysAbove (size : ℕ → ℕ) (i : ℕ) : Prop :=
  ∀ j, i ≤ j → size i ≤ size j

theorem exists_staysAbove (size : ℕ → ℕ) (start : ℕ) : ∃ i, start ≤ i ∧ StaysAbove size i := by
  have hsizes : (size '' Set.Ici start).Nonempty := ⟨size start, start, le_refl start, rfl⟩
  obtain ⟨i, hi, hleast⟩ := Nat.sInf_mem hsizes
  refine ⟨i, hi, ?_⟩
  intro j hj
  rw [hleast]
  exact Nat.sInf_le ⟨j, le_trans hi hj, rfl⟩

theorem exists_return {κ : Type*} {size : ℕ → ℕ} {kind : ℕ → κ} {kinds : Set κ}
    (hfinite : kinds.Finite) (hkind : ∀ i, StaysAbove size i → kind i ∈ kinds) :
    ∃ i j, i < j ∧ kind i = kind j ∧ StaysAbove size i := by
  have hinfinite : {i | StaysAbove size i}.Infinite := by
    apply Set.infinite_of_forall_exists_gt
    intro start
    obtain ⟨i, hi, hstays⟩ := exists_staysAbove size (start + 1)
    exact ⟨i, hstays, hi⟩
  obtain ⟨i, hi, j, hj, hne, heq⟩ := hinfinite.exists_ne_map_eq_of_mapsTo hkind hfinite
  rcases Nat.lt_or_gt_of_ne hne with hlt | hlt
  · exact ⟨i, j, hlt, heq, hi⟩
  · exact ⟨j, i, hlt, heq.symm, hj⟩

end FortyTwo.Foundation
