import Mathlib.Data.List.DropRight
import Mathlib.Data.List.TakeWhile

/-!
A text without the characters of some kind at its two ends.
-/

namespace FortyTwo.Foundation

variable {α : Type*} (p : α → Bool)

def trim (text : List α) : List α := (text.dropWhile p).rdropWhile p

/-- Neither the first character nor the last one is of the kind. -/
structure Bare (text : List α) : Prop where
  head : ∀ c ∈ text.head?, p c = false
  last : ∀ c ∈ text.getLast?, p c = false

variable {p}

theorem Bare.trim {text : List α} (h : Bare p text) : trim p text = text := by
  have hdrop : text.dropWhile p = text := by
    cases text with
    | nil => rfl
    | cons c text => rw [List.dropWhile_cons, if_neg (by simp [h.head c rfl])]
  rw [Foundation.trim, hdrop, List.rdropWhile_eq_self_iff]
  intro hne
  simpa using h.last _ (List.getLast_mem_getLast? hne)

theorem bare_trim (text : List α) : Bare p (trim p text) where
  head := by
    intro c hc
    have hprefix := List.rdropWhile_prefix p (text.dropWhile p)
    have hhead := List.head?_dropWhile_not p text
    cases htrim : trim p text with
    | nil =>
        rw [htrim] at hc
        cases hc
    | cons d rest =>
        rw [htrim, List.head?_cons, Option.mem_some_iff] at hc
        obtain ⟨more, hmore⟩ := hprefix
        rw [← hmore, ← Foundation.trim, htrim, List.cons_append, List.head?_cons] at hhead
        simpa [hc] using hhead
  last := by
    intro c hc
    obtain ⟨hne, rfl⟩ := List.mem_getLast?_eq_getLast hc
    exact Bool.not_eq_true _ |>.mp (List.rdropWhile_last_not p (text.dropWhile p) hne)

private theorem rdropWhile_append_of_pos {text more : List α} (h : ∀ c ∈ more, p c = true) :
    (text ++ more).rdropWhile p = text.rdropWhile p := by
  rw [List.rdropWhile, List.reverse_append, List.dropWhile_append_of_pos (by simpa using h),
    List.rdropWhile]

/-- What is left of a text is bare, and stands between characters of the kind. -/
theorem trim_eq_iff (text v : List α) :
    trim p text = v ↔ Bare p v ∧ ∃ left right, text = left ++ (v ++ right) ∧
      (∀ c ∈ left, p c = true) ∧ ∀ c ∈ right, p c = true := by
  constructor
  · rintro rfl
    refine ⟨bare_trim text, text.takeWhile p, (text.dropWhile p).rtakeWhile p, ?_,
      fun _ hc => List.mem_takeWhile_imp hc, fun _ hc => List.mem_rtakeWhile_imp hc⟩
    rw [Foundation.trim, List.rdropWhile_append_rtakeWhile, List.takeWhile_append_dropWhile]
  · rintro ⟨hbare, left, right, rfl, hleft, hright⟩
    rw [Foundation.trim, List.dropWhile_append_of_pos hleft]
    cases v with
    | nil =>
        rw [List.nil_append, List.dropWhile_eq_nil_iff.mpr hright]
        rfl
    | cons c v =>
        have hc : ¬ p c = true := by simp [hbare.head c rfl]
        rw [List.cons_append, List.dropWhile_cons_of_neg hc, ← List.cons_append,
          rdropWhile_append_of_pos hright, ← hbare.trim, Foundation.trim,
          List.dropWhile_cons_of_neg hc, List.rdropWhile_idempotent]

/-- When something is left, it comes right behind the characters that go at the front. -/
theorem rdropWhile_of_trim_ne_nil {text : List α} (h : trim p text ≠ []) :
    text.rdropWhile p = text.takeWhile p ++ trim p text := by
  have hne : ¬ ((text.dropWhile p).reverse.dropWhile p).isEmpty = true := by
    rw [List.isEmpty_iff]
    exact fun hnil => h (by rw [Foundation.trim, List.rdropWhile, hnil, List.reverse_nil])
  conv_lhs => rw [← List.takeWhile_append_dropWhile (p := p) (l := text)]
  rw [List.rdropWhile, List.reverse_append, List.dropWhile_append, if_neg hne,
    List.reverse_append, List.reverse_reverse, Foundation.trim, List.rdropWhile]

theorem trim_eq_nil_iff {text : List α} : trim p text = [] ↔ ∀ c ∈ text, p c = true := by
  rw [Foundation.trim, List.rdropWhile_eq_nil_iff]
  constructor
  · intro h c hc
    rw [← List.takeWhile_append_dropWhile (p := p) (l := text), List.mem_append] at hc
    exact hc.elim List.mem_takeWhile_imp (h c)
  · exact fun h c hc => h c ((List.dropWhile_sublist p).subset hc)

end FortyTwo.Foundation
