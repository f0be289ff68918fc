import Mathlib.Data.List.TakeWhile
import Mathlib.Tactic

/-!
The words of a text: what stands between the separators, where that is not empty.
-/

namespace FortyTwo.Foundation

section Front

variable {α : Type*} (p : α → Bool) (text : List α)

theorem take_length_takeWhile :
    text.take (text.takeWhile p).length = text.takeWhile p :=
  (List.prefix_iff_eq_take.mp (List.takeWhile_prefix p)).symm

theorem drop_length_takeWhile :
    text.drop (text.takeWhile p).length = text.dropWhile p := by
  have hdrop : (text.takeWhile p ++ text.dropWhile p).drop (text.takeWhile p).length =
      text.dropWhile p := List.drop_left
  rwa [List.takeWhile_append_dropWhile] at hdrop

end Front

variable {α : Type*} [DecidableEq α] {sep : α}

def words (sep : α) (text : List α) : List (List α) := (text.splitOn sep).filter (· ≠ [])

@[simp] theorem words_nil : words sep ([] : List α) = [] := rfl

theorem words_append_cons (front rest : List α) :
    words sep (front ++ sep :: rest) = words sep front ++ words sep rest := by
  rw [words, List.splitOn, List.splitOnP_append_cons front rest (by simp), List.filter_append]
  rfl

theorem words_cons_sep (rest : List α) : words sep (sep :: rest) = words sep rest :=
  words_append_cons [] rest

theorem words_of_not_mem {text : List α} (h : sep ∉ text) :
    words sep text = if text = [] then [] else [text] := by
  rw [words, List.splitOn_eq_singleton h]
  split
  · next hnil => simp [hnil]
  · next hne => simp [hne]

theorem words_replicate_append (n : Nat) (text : List α) :
    words sep (List.replicate n sep ++ text) = words sep text := by
  induction n with
  | zero => rfl
  | succ n ih => rw [List.replicate_succ, List.cons_append, words_cons_sep, ih]

theorem words_append_replicate (text : List α) (n : Nat) :
    words sep (text ++ List.replicate n sep) = words sep text := by
  cases n with
  | zero => simp
  | succ n =>
      have hnone : words sep (List.replicate n sep) = [] := by
        simpa using @words_replicate_append α _ sep n []
      rw [List.replicate_succ, words_append_cons, hnone, List.append_nil]

private theorem not_mem_first {c : α} (hc : c ≠ sep) (rest : List α) :
    sep ∉ c :: rest.takeWhile (· != sep) := by
  rw [List.mem_cons, not_or]
  refine ⟨Ne.symm hc, ?_⟩
  intro hmem
  simpa using List.mem_takeWhile_imp hmem

/-- A text that begins with a word. -/
theorem words_cons_of_ne {c : α} (hc : c ≠ sep) (rest : List α) :
    words sep (c :: rest) =
      (c :: rest.takeWhile (· != sep)) :: words sep (rest.dropWhile (· != sep)) := by
  have hsplit := List.takeWhile_append_dropWhile (p := (· != sep)) (l := rest)
  have hfront := words_of_not_mem (not_mem_first hc rest)
  rw [if_neg (List.cons_ne_nil _ _)] at hfront
  cases htail : rest.dropWhile (· != sep) with
  | nil =>
      rw [htail, List.append_nil] at hsplit
      rw [hsplit] at hfront ⊢
      exact hfront
  | cons d tail =>
      obtain rfl : d = sep := by
        have hhead := List.head?_dropWhile_not (· != sep) rest
        rw [htail] at hhead
        simpa using hhead
      rw [htail] at hsplit
      rw [words_cons_sep, ← List.singleton_append (l := words d tail), ← hfront,
        ← words_append_cons, List.cons_append, hsplit]

theorem eq_replicate_of_words {text : List α} (h : words sep text = []) :
    text = List.replicate text.length sep := by
  induction text with
  | nil => rfl
  | cons c rest ih =>
      by_cases hc : c = sep
      · subst hc
        rw [words_cons_sep] at h
        rw [List.length_cons, List.replicate_succ, ← ih h]
      · rw [words_cons_of_ne hc] at h
        cases h

/-- One word at most, and separators around it. -/
theorem words_length_le_one_iff {text : List α} :
    (words sep text).length ≤ 1 ↔ ∃ before word after, sep ∉ word ∧
      text = List.replicate before sep ++ word ++ List.replicate after sep := by
  constructor
  · intro h
    induction text with
    | nil => exact ⟨0, [], 0, by simp, rfl⟩
    | cons c rest ih =>
        by_cases hc : c = sep
        · subst hc
          rw [words_cons_sep] at h
          obtain ⟨before, word, after, hword, hrest⟩ := ih h
          exact ⟨before + 1, word, after, hword, by rw [hrest]; rfl⟩
        · rw [words_cons_of_ne hc, List.length_cons] at h
          have hnone : words sep (rest.dropWhile (· != sep)) = [] :=
            List.length_eq_zero_iff.mp (by omega)
          refine ⟨0, c :: rest.takeWhile (· != sep), (rest.dropWhile (· != sep)).length,
            not_mem_first hc rest, ?_⟩
          rw [List.replicate_zero, List.nil_append, ← eq_replicate_of_words hnone,
            List.cons_append, List.takeWhile_append_dropWhile]
  · rintro ⟨before, word, after, hword, rfl⟩
    rw [words_append_replicate, words_replicate_append, words_of_not_mem hword]
    split
    · exact Nat.zero_le 1
    · exact Nat.le_refl 1

theorem ne_nil_of_mem_words {text word : List α} (h : word ∈ words sep text) : word ≠ [] := by
  simpa using (List.mem_filter.mp h).2

section Places

/-- What is left of a text from each of its words on. -/
def wordSuffixes (sep : α) : List α → List (List α)
  | [] => []
  | c :: rest =>
      if c = sep then wordSuffixes sep rest
      else (c :: rest) :: wordSuffixes sep (rest.dropWhile (· != sep))
  termination_by text => text.length
  decreasing_by
    · exact Nat.lt_succ_self _
    · exact Nat.lt_succ_of_le (List.dropWhile_sublist _).length_le

theorem self_mem_wordSuffixes {text : List α} (hne : text ≠ []) (h : sep ∉ text) :
    text ∈ wordSuffixes sep text := by
  obtain ⟨c, rest, rfl⟩ := List.exists_cons_of_ne_nil hne
  have hc : c ≠ sep := fun hc => h (hc ▸ List.mem_cons_self)
  rw [wordSuffixes, if_neg hc]
  exact List.mem_cons_self

theorem words_eq_map (text : List α) :
    words sep text = (wordSuffixes sep text).map (·.takeWhile (· != sep)) := by
  induction text using wordSuffixes.induct sep with
  | case1 =>
      rw [wordSuffixes]
      rfl
  | case2 rest ih => rw [wordSuffixes, if_pos rfl, words_cons_sep, ih]
  | case3 c rest hc ih =>
      have htake : (c :: rest).takeWhile (· != sep) = c :: rest.takeWhile (· != sep) :=
        List.takeWhile_cons_of_pos (by simpa using hc)
      rw [wordSuffixes, if_neg hc, List.map_cons, htake, words_cons_of_ne hc, ih]

theorem length_wordSuffixes (text : List α) :
    (wordSuffixes sep text).length = (words sep text).length := by
  rw [words_eq_map, List.length_map]

theorem length_wordSuffixes_le (text : List α) :
    (wordSuffixes sep text).length ≤ text.length := by
  induction text using wordSuffixes.induct sep with
  | case1 =>
      rw [wordSuffixes]
      exact Nat.le_refl 0
  | case2 rest ih =>
      rw [wordSuffixes, if_pos rfl]
      exact Nat.le_succ_of_le ih
  | case3 c rest hc ih =>
      rw [wordSuffixes, if_neg hc]
      exact Nat.succ_le_succ (ih.trans (List.dropWhile_sublist _).length_le)

theorem suffix_of_mem_wordSuffixes {text rest : List α} (h : rest ∈ wordSuffixes sep text) :
    rest <:+ text := by
  induction text using wordSuffixes.induct sep with
  | case1 =>
      rw [wordSuffixes] at h
      cases h
  | case2 tail ih =>
      rw [wordSuffixes, if_pos rfl] at h
      exact (ih h).trans (List.suffix_cons _ _)
  | case3 c tail hc ih =>
      rw [wordSuffixes, if_neg hc, List.mem_cons] at h
      rcases h with rfl | h
      · exact List.suffix_rfl
      · exact ((ih h).trans (List.dropWhile_suffix _)).trans (List.suffix_cons _ _)

/-- No word begins before the first character that is no separator. -/
theorem wordSuffixes_dropWhile (text : List α) :
    wordSuffixes sep (text.dropWhile (· == sep)) = wordSuffixes sep text := by
  induction text with
  | nil => rfl
  | cons c rest ih =>
      by_cases hc : c = sep
      · rw [List.dropWhile_cons_of_pos (by simpa using hc), ih]
        conv_rhs => rw [wordSuffixes, if_pos hc]
      · rw [List.dropWhile_cons_of_neg (by simpa using hc)]

/-- Where the first word begins, and what follows it. -/
theorem eq_of_wordSuffixes_cons {text first : List α} {more : List (List α)}
    (h : wordSuffixes sep text = first :: more) :
    text.dropWhile (· == sep) = first ∧ first ≠ [] ∧
      wordSuffixes sep (first.dropWhile (· != sep)) = more := by
  rw [← wordSuffixes_dropWhile] at h
  cases htext : text.dropWhile (· == sep) with
  | nil =>
      rw [htext, wordSuffixes] at h
      cases h
  | cons c rest =>
      have hc : c ≠ sep := by
        have hhead := List.head?_dropWhile_not (· == sep) text
        rw [htext] at hhead
        simpa using hhead
      rw [htext, wordSuffixes, if_neg hc] at h
      obtain ⟨rfl, rfl⟩ := List.cons.inj h
      refine ⟨rfl, List.cons_ne_nil _ _, ?_⟩
      rw [List.dropWhile_cons_of_pos (by simpa using hc)]

end Places

end FortyTwo.Foundation
