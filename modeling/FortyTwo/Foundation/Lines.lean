import Mathlib.Tactic

/-!
The lines of a text: each ends with the separator, but for the last one, which
may lack it. No line is empty.
-/

namespace FortyTwo.Foundation

variable {α : Type*} [DecidableEq α] {sep : α}

def linesOf (sep : α) : List α → List (List α)
  | [] => []
  | c :: rest =>
      if c = sep then [c] :: linesOf sep rest
      else
        match linesOf sep rest with
        | [] => [[c]]
        | line :: lines => (c :: line) :: lines

theorem linesOf_line {line : List α} (hline : sep ∉ line) (rest : List α) :
    linesOf sep (line ++ sep :: rest) = (line ++ [sep]) :: linesOf sep rest := by
  induction line with
  | nil => simp [linesOf]
  | cons c line ih =>
      have hc : c ≠ sep := fun h => hline (by simp [h])
      have hnext := ih fun h => hline (List.mem_cons_of_mem _ h)
      simp [linesOf, hc, hnext]

theorem linesOf_last {line : List α} (hline : sep ∉ line) (hne : line ≠ []) :
    linesOf sep line = [line] := by
  induction line with
  | nil => exact absurd rfl hne
  | cons c line ih =>
      have hc : c ≠ sep := fun h => hline (by simp [h])
      rcases eq_or_ne line [] with rfl | hmore
      · simp [linesOf, hc]
      · have hnext := ih (fun h => hline (List.mem_cons_of_mem _ h)) hmore
        simp [linesOf, hc, hnext]

section Getline

/-- What `getline` reads one after the other: what stands before each separator, and behind
the last one where something does. -/
def getlines (sep : α) (text : List α) : List (List α) :=
  let pieces := text.splitOn sep
  if pieces.getLast? = some [] then pieces.dropLast else pieces

@[simp] theorem getlines_nil : getlines sep ([] : List α) = [] := rfl

theorem getlines_eq_nil_iff {text : List α} : getlines sep text = [] ↔ text = [] := by
  constructor
  · intro h
    have htext : [sep].intercalate (text.splitOn sep) = text := List.intercalate_splitOn sep
    rw [getlines] at h
    split_ifs at h with hlast
    · obtain ⟨front, hfront⟩ := List.getLast?_eq_some_iff.mp hlast
      rw [hfront, List.dropLast_concat] at h
      rw [hfront, h, List.nil_append, List.intercalate_singleton] at htext
      exact htext.symm
    · exact absurd h (List.splitOn_ne_nil _ _)
  · rintro rfl
    rfl

theorem getlines_intercalate {lines : List (List α)}
    (h : ∀ line ∈ lines, line ≠ [] ∧ sep ∉ line) :
    getlines sep ([sep].intercalate lines) = lines := by
  by_cases hnil : lines = []
  · rw [hnil]
    rfl
  · rw [getlines, List.splitOn_intercalate sep (fun line hline => (h line hline).2) hnil, if_neg]
    intro hlast
    exact (h [] (List.mem_of_getLast? hlast)).1 rfl

omit [DecidableEq α] in
private theorem intercalate_concat_nil {lines : List (List α)} (h : lines ≠ []) :
    [sep].intercalate (lines ++ [[]]) = [sep].intercalate lines ++ [sep] := by
  induction lines with
  | nil => exact absurd rfl h
  | cons line rest ih =>
      cases rest with
      | nil => simp
      | cons next rest =>
          have hlater := ih (List.cons_ne_nil next rest)
          have hline : [sep].intercalate (line :: next :: rest) =
              line ++ [sep] ++ [sep].intercalate (next :: rest) := List.intercalate_cons_cons
          rw [List.cons_append, List.intercalate_cons_of_ne_nil (by simp), hlater, hline,
            ← List.append_assoc]

/-- A text that does not end with the separator is what was read with separators between. -/
theorem intercalate_getlines {text : List α} (h : text.getLast? ≠ some sep) :
    [sep].intercalate (getlines sep text) = text := by
  have htext : [sep].intercalate (text.splitOn sep) = text := List.intercalate_splitOn sep
  rw [getlines]
  split_ifs with hlast
  · obtain ⟨front, hfront⟩ := List.getLast?_eq_some_iff.mp hlast
    rw [hfront] at htext ⊢
    by_cases hnil : front = []
    · rw [← htext, hnil]
      rfl
    · rw [intercalate_concat_nil hnil] at htext
      rw [← htext, List.getLast?_concat] at h
      exact absurd rfl h
  · exact htext

/-- What is read with separators between does not end with one. -/
theorem getLast?_intercalate_ne {lines : List (List α)}
    (h : ∀ line ∈ lines, line ≠ [] ∧ sep ∉ line) :
    ([sep].intercalate lines).getLast? ≠ some sep := by
  induction lines with
  | nil =>
      intro hlast
      cases hlast
  | cons line rest ih =>
      obtain ⟨⟨hne, hsep⟩, hrest⟩ := List.forall_mem_cons.mp h
      cases rest with
      | nil =>
          rw [List.intercalate_singleton]
          intro hlast
          exact hsep (List.mem_of_getLast? hlast)
      | cons next rest =>
          have hnext : [sep].intercalate (next :: rest) ≠ [] := by
            intro hnil
            have hlines := getlines_intercalate hrest
            rw [hnil] at hlines
            cases hlines
          rw [List.intercalate_cons_cons, List.getLast?_append_of_ne_nil _ hnext]
          exact ih hrest

end Getline

end FortyTwo.Foundation
