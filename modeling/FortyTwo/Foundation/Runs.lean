import Mathlib.Data.List.Destutter
import FortyTwo.Foundation.Search

/-!
Runs of one symbol, each cut down to a single one.
-/

namespace FortyTwo.Foundation

variable {α : Type*} [DecidableEq α] (s : α)

/-- No second `s` behind an `s`. -/
def Apart (a b : α) : Prop := a ≠ s ∨ b ≠ s

instance : DecidableRel (Apart s) := fun a b => inferInstanceAs (Decidable (a ≠ s ∨ b ≠ s))

/-- The text with each of its runs of `s` cut down to one `s`. -/
def collapse (text : List α) : List α := text.destutter (Apart s)

variable {s}

omit [DecidableEq α] in
/-- Two of them in a row make a run. -/
theorem isChain_apart_iff (text : List α) : text.IsChain (Apart s) ↔ ¬ [s, s] <:+: text := by
  induction text with
  | nil => simp
  | cons a rest ih =>
      rw [List.infix_cons_iff, not_or, ← ih]
      cases rest with
      | nil => simp
      | cons b rest =>
          rw [List.isChain_cons_cons, List.cons_prefix_cons, List.cons_prefix_cons]
          simp only [Apart, List.nil_prefix, and_true, not_and_or, eq_comm (a := s), ne_eq]

theorem collapse_of_find_eq_none {text : List α} (h : find [s, s] text = none) :
    collapse s text = text :=
  List.destutter_of_isChain (Apart s) text
    ((isChain_apart_iff text).mpr ((find_eq_none_iff _ _).mp h))

theorem find_collapse (text : List α) : find [s, s] (collapse s text) = none := by
  rw [find_eq_none_iff, ← isChain_apart_iff]
  exact List.isChain_destutter (Apart s) text

private theorem getLast?_destutter' (a : α) (text : List α) :
    (text.destutter' (Apart s) a).getLast? = (a :: text).getLast? := by
  induction text generalizing a with
  | nil => rfl
  | cons b text ih =>
      rw [List.getLast?_cons_cons, ← ih b, List.destutter'_cons]
      split
      · cases hrest : text.destutter' (Apart s) b with
        | nil => exact absurd hrest (List.destutter'_ne_nil text (Apart s))
        | cons c rest => rw [List.getLast?_cons_cons]
      · rename_i hrun
        simp only [Apart, not_or, not_not] at hrun
        rw [hrun.1, hrun.2]

theorem getLast?_collapse (text : List α) : (collapse s text).getLast? = text.getLast? := by
  cases text with
  | nil => rfl
  | cons a text => exact getLast?_destutter' a text

/-- One `s` more, behind a text that does not end in one. -/
theorem find_collapse_append {text : List α} (h : text.getLast? ≠ some s) :
    find [s, s] (collapse s text ++ [s]) = none := by
  rw [find_eq_none_iff, ← isChain_apart_iff, List.isChain_append, getLast?_collapse]
  refine ⟨List.isChain_destutter (Apart s) text, by simp, ?_⟩
  intro x hx y _
  apply Or.inl
  intro hxs
  apply h
  rw [← hxs]
  exact hx

private theorem destutter'_append (a : α) (before after : List α)
    (h : (a :: before ++ [s]).IsChain (Apart s)) :
    (before ++ s :: after).destutter' (Apart s) a =
      a :: before ++ after.destutter' (Apart s) s := by
  induction before generalizing a with
  | nil =>
      have has : Apart s a s := by simpa using h
      rw [List.nil_append, List.destutter'_cons_pos _ has]
      rfl
  | cons b before ih =>
      rw [List.cons_append, List.cons_append, List.isChain_cons_cons] at h
      rw [List.cons_append, List.destutter'_cons_pos _ h.1, ih b h.2]
      rfl

private theorem destutter'_run (after : List α) :
    after.destutter' (Apart s) s = s :: collapse s (after.dropWhile (· = s)) := by
  induction after with
  | nil => rfl
  | cons a after ih =>
      by_cases ha : a = s
      · subst ha
        have hnot : ¬ Apart a a a := by simp [Apart]
        rw [List.destutter'_cons_neg _ hnot, ih]
        simp
      · have happart : Apart s s a := Or.inr ha
        rw [List.destutter'_cons_pos _ happart]
        simp [ha, collapse, List.destutter_cons']

/-- The text up to its first run, and what stands behind that. -/
theorem collapse_of_find {text : List α} {k : Nat} (h : find [s, s] text = some k) :
    collapse s text =
      text.take (k + 1) ++ collapse s ((text.drop k).dropWhile (· = s)) := by
  obtain ⟨rest, hrest⟩ := prefix_of_find h
  have hsplit : text = text.take k ++ s :: (s :: rest) := by
    conv_lhs => rw [← List.take_append_drop k text, ← hrest]
    rfl
  have hdrop : (text.drop k).dropWhile (· = s) = rest.dropWhile (· = s) := by
    rw [← hrest]
    simp
  have htake : text.take (k + 1) = text.take k ++ [s] := by
    have hat : text[k]? = some s := by
      rw [← List.head?_drop, ← hrest]
      rfl
    rw [List.take_add_one, hat, Option.toList_some]
  have hchain : (text.take k ++ [s]).IsChain (Apart s) := by
    rw [← htake, isChain_apart_iff, ← find_eq_none_iff, find_take_eq_none_iff (by simp)]
    intro k' hk'
    rw [h, Option.some.injEq] at hk'
    simp [hk']
  rw [hdrop, htake]
  conv_lhs => rw [hsplit]
  cases htext : text.take k with
  | nil =>
      rw [List.nil_append, collapse, List.destutter_cons', destutter'_run]
      simp
  | cons a before =>
      rw [htext] at hchain
      rw [List.cons_append, collapse, List.destutter_cons', destutter'_append a before _ hchain,
        destutter'_run]
      simp

end FortyTwo.Foundation
