import Mathlib.Tactic

/-!
The ways of cutting a text into pieces that are not empty.
-/

namespace FortyTwo.Foundation

variable {α : Type*}

/-- The pieces are not empty and make up the text. -/
def IsCut (text : List α) (pieces : List (List α)) : Prop :=
  pieces.flatten = text ∧ ∀ piece ∈ pieces, piece ≠ []

theorem isCut_nil_iff (pieces : List (List α)) : IsCut [] pieces ↔ pieces = [] := by
  constructor
  · rintro ⟨hflat, hne⟩
    cases pieces with
    | nil => rfl
    | cons piece rest =>
        rw [List.flatten_cons, List.append_eq_nil_iff] at hflat
        exact absurd hflat.1 (hne piece (by simp))
  · rintro rfl
    exact ⟨rfl, by simp⟩

theorem isCut_cons_iff (text piece : List α) (rest : List (List α)) :
    IsCut text (piece :: rest) ↔
      piece ≠ [] ∧ ∃ more, text = piece ++ more ∧ IsCut more rest := by
  constructor
  · rintro ⟨hflat, hne⟩
    exact ⟨hne piece (by simp), rest.flatten, by rw [← hflat, List.flatten_cons], rfl,
      fun c hc => hne c (by simp [hc])⟩
  · rintro ⟨hpiece, more, rfl, hflat, hne⟩
    refine ⟨by rw [List.flatten_cons, hflat], ?_⟩
    intro c hc
    rcases List.mem_cons.mp hc with rfl | hc
    · exact hpiece
    · exact hne c hc

/-- Every text can be cut. -/
theorem exists_isCut (text : List α) : ∃ pieces, IsCut text pieces := by
  cases text with
  | nil => exact ⟨[], rfl, by simp⟩
  | cons x rest => exact ⟨[x :: rest], by simp, by simp⟩

end FortyTwo.Foundation
