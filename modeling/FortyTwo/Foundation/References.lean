import Mathlib.Data.Set.Card

/-!
Handles that refer to targets, and how many refer to each. A handle that is made to
refer to something else is counted at the one and no more at the other.
-/

namespace FortyTwo.Foundation

section References

variable {Handle Target : Type} [DecidableEq Handle] [DecidableEq Target] [Finite Handle]

noncomputable def referrers (points : Handle → Option Target) (o : Target) : Nat :=
  {a | points a = some o}.ncard

variable {points : Handle → Option Target} {a : Handle} {o : Target}

omit [DecidableEq Handle] [DecidableEq Target] in
theorem referrers_eq_zero_iff : referrers points o = 0 ↔ ∀ a, points a ≠ some o := by
  rw [referrers, Set.ncard_eq_zero, Set.eq_empty_iff_forall_notMem]
  rfl

omit [DecidableEq Handle] [DecidableEq Target] in
theorem referrers_pos (h : points a = some o) : 0 < referrers points o := by
  have hne : referrers points o ≠ 0 := fun hzero => referrers_eq_zero_iff.mp hzero a h
  omega

omit [DecidableEq Handle] [DecidableEq Target] in
theorem referrers_le : referrers points o ≤ Nat.card Handle := by
  rw [← Set.ncard_univ]
  exact Set.ncard_le_ncard (Set.subset_univ _)

/-- `a` counts at what it refers to, before and after. -/
theorem referrers_update (points : Handle → Option Target) (a : Handle) (new : Option Target)
    (o : Target) :
    referrers (Function.update points a new) o + (if points a = some o then 1 else 0) =
      referrers points o + if new = some o then 1 else 0 := by
  have hothers : ∀ old : Handle → Option Target, referrers old o =
      {b | b ≠ a ∧ old b = some o}.ncard + if old a = some o then 1 else 0 := by
    intro old
    by_cases ha : old a = some o
    · have hset : {b | old b = some o} = insert a {b | b ≠ a ∧ old b = some o} := by
        ext b
        by_cases hb : b = a
        · simp [hb, ha]
        · simp [hb]
      rw [referrers, hset, Set.ncard_insert_of_notMem (by simp), if_pos ha]
    · have hset : {b | old b = some o} = {b | b ≠ a ∧ old b = some o} := by
        ext b
        constructor
        · intro hb
          exact ⟨fun h => ha (h ▸ hb), hb⟩
        · exact fun hb => hb.2
      rw [referrers, hset, if_neg ha]
      rfl
  have hsame : {b | b ≠ a ∧ Function.update points a new b = some o} =
      {b | b ≠ a ∧ points b = some o} := by
    ext b
    by_cases hb : b = a
    · simp [hb]
    · simp [hb]
  rw [hothers points, hothers (Function.update points a new), hsame, Function.update_self]
  omega

theorem referrers_update_of_ne {new : Option Target} (hold : points a ≠ some o)
    (hnew : new ≠ some o) : referrers (Function.update points a new) o = referrers points o := by
  simpa [hold, hnew] using referrers_update points a new o

theorem referrers_update_none (h : points a = some o) :
    referrers (Function.update points a none) o + 1 = referrers points o := by
  simpa [h] using referrers_update points a none o

theorem referrers_update_some (h : points a = none) :
    referrers (Function.update points a (some o)) o = referrers points o + 1 := by
  simpa [h] using referrers_update points a (some o) o

end References

end FortyTwo.Foundation
