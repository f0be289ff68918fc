import Mathlib.Tactic

/-!
The first occurrence of a pattern in a text, and how it behaves when the text
arrives in pieces: what is found in a beginning of the text is what is found
in the whole of it, once the beginning is long enough.
-/

namespace FortyTwo.Foundation

variable {α : Type*} [DecidableEq α]

/-- Where `pat` first stands in the text. -/
def find (pat : List α) : List α → Option Nat
  | [] => if pat.isPrefixOf [] then some 0 else none
  | x :: rest =>
      if pat.isPrefixOf (x :: rest) then some 0 else (find pat rest).map (· + 1)

/-- The first occurrence that does not begin before `start`. -/
def findFrom (pat text : List α) (start : Nat) : Option Nat :=
  if text.length < start then none else (find pat (text.drop start)).map (· + start)

theorem find_eq_some_iff (pat text : List α) (k : Nat) :
    find pat text = some k ↔ pat <+: text.drop k ∧ k ≤ text.length ∧
      ∀ j < k, ¬ pat <+: text.drop j := by
  induction text generalizing k with
  | nil =>
      simp only [find, List.isPrefixOf_iff_prefix, List.drop_nil, List.length_nil, Nat.le_zero]
      by_cases h : pat <+: []
      · rw [if_pos h]
        constructor
        · rintro ⟨⟩
          exact ⟨h, rfl, by omega⟩
        · rintro ⟨_, rfl, _⟩
          rfl
      · simp [h]
  | cons x rest ih =>
      simp only [find, List.isPrefixOf_iff_prefix]
      by_cases h : pat <+: x :: rest
      · rw [if_pos h]
        constructor
        · rintro ⟨⟩
          exact ⟨h, by omega, by omega⟩
        · rintro ⟨_, _, hfirst⟩
          cases k with
          | zero => rfl
          | succ k => exact absurd h (hfirst 0 (by omega))
      · rw [if_neg h]
        cases k with
        | zero =>
            simp only [List.drop_zero, h, false_and, iff_false]
            intro hmap
            obtain ⟨i, _, hi⟩ := Option.map_eq_some_iff.mp hmap
            omega
        | succ k =>
            have hmap : (find pat rest).map (· + 1) = some (k + 1) ↔ find pat rest = some k := by
              rw [Option.map_eq_some_iff]
              constructor
              · rintro ⟨i, hi, heq⟩
                obtain rfl : i = k := by omega
                exact hi
              · intro hk
                exact ⟨k, hk, rfl⟩
            rw [hmap, ih k]
            simp only [List.drop_succ_cons, List.length_cons, Nat.add_le_add_iff_right]
            apply and_congr_right
            intro _
            apply and_congr_right
            intro _
            constructor
            · intro hfirst j hj
              cases j with
              | zero => exact h
              | succ j => exact hfirst j (by omega)
            · intro hfirst j hj
              exact hfirst (j + 1) (by omega)

theorem find_eq_none_iff (pat text : List α) : find pat text = none ↔ ¬ pat <:+: text := by
  induction text with
  | nil => simp [find, List.isPrefixOf_iff_prefix]
  | cons x rest ih =>
      simp only [find, List.isPrefixOf_iff_prefix, List.infix_cons_iff]
      by_cases h : pat <+: x :: rest
      · simp [h]
      · simp [h, ih]

theorem prefix_of_find {pat text : List α} {k : Nat} (h : find pat text = some k) :
    pat <+: text.drop k :=
  ((find_eq_some_iff pat text k).mp h).1

/-- An occurrence fits into the text. -/
theorem find_add_length_le {pat text : List α} {k : Nat} (h : find pat text = some k) :
    k + pat.length ≤ text.length := by
  obtain ⟨hpre, hle, _⟩ := (find_eq_some_iff pat text k).mp h
  have hlen := hpre.length_le
  rw [List.length_drop] at hlen
  omega

theorem find_eq_none_of_length_lt {pat text : List α} (h : text.length < pat.length) :
    find pat text = none := by
  rw [find_eq_none_iff]
  intro hin
  have hlen := hin.length_le
  omega

theorem find_eq_zero_iff (pat text : List α) : find pat text = some 0 ↔ pat <+: text := by
  rw [find_eq_some_iff]
  simp

omit [DecidableEq α] in
private theorem prefix_drop_take {pat text : List α} {k n : Nat} :
    pat <+: (text.take n).drop k ↔ pat <+: text.drop k ∧ (pat = [] ∨ k + pat.length ≤ n) := by
  rw [List.drop_take]
  constructor
  · intro h
    refine ⟨h.trans (List.take_prefix _ _), ?_⟩
    have hlen := h.length_le
    rw [List.length_take] at hlen
    by_cases hnil : pat = []
    · exact Or.inl hnil
    · have hpos := List.length_pos_iff.mpr hnil
      right
      omega
  · rintro ⟨h, rfl | hle⟩
    · exact List.nil_prefix
    · exact List.prefix_take_iff.mpr ⟨h, by omega⟩

/-- What is found in the bytes that have arrived is what is found in all of
them, once it has arrived. -/
theorem find_take_eq_some_iff {pat : List α} (hpat : pat ≠ []) (text : List α) (n k : Nat) :
    find pat (text.take n) = some k ↔ find pat text = some k ∧ k + pat.length ≤ n := by
  have hpos := List.length_pos_iff.mpr hpat
  simp only [find_eq_some_iff, prefix_drop_take, hpat, false_or, List.length_take]
  constructor
  · rintro ⟨⟨hpre, hle⟩, hbound, hfirst⟩
    refine ⟨⟨hpre, by omega, ?_⟩, hle⟩
    intro j hj hj'
    exact hfirst j hj ⟨hj', by omega⟩
  · rintro ⟨⟨hpre, hbound, hfirst⟩, hle⟩
    refine ⟨⟨hpre, hle⟩, by omega, ?_⟩
    intro j hj hj'
    exact hfirst j hj hj'.1

theorem find_take_eq_none_iff {pat : List α} (hpat : pat ≠ []) (text : List α) (n : Nat) :
    find pat (text.take n) = none ↔ ∀ k, find pat text = some k → n < k + pat.length := by
  constructor
  · intro hnone k hk
    by_contra hle
    have hsome := (find_take_eq_some_iff hpat text n k).mpr ⟨hk, by omega⟩
    rw [hnone] at hsome
    cases hsome
  · intro hall
    cases htake : find pat (text.take n) with
    | none => rfl
    | some k =>
        obtain ⟨hk, hle⟩ := (find_take_eq_some_iff hpat text n k).mp htake
        have hlt := hall k hk
        omega

/-- Dropping bytes before the first occurrence moves it. -/
theorem find_drop {pat text : List α} {j k : Nat} (h : find pat text = some j) (hk : k ≤ j) :
    find pat (text.drop k) = some (j - k) := by
  obtain ⟨hpre, hle, hfirst⟩ := (find_eq_some_iff pat text j).mp h
  rw [find_eq_some_iff]
  refine ⟨?_, ?_, ?_⟩
  · rw [List.drop_drop]
    have hsum : k + (j - k) = j := by omega
    rwa [hsum]
  · rw [List.length_drop]
    omega
  · intro i hi
    rw [List.drop_drop]
    exact hfirst (k + i) (by omega)

theorem find_drop_eq_none {pat text : List α} (k : Nat) (h : find pat text = none) :
    find pat (text.drop k) = none := by
  rw [find_eq_none_iff] at h ⊢
  exact fun hin => h (hin.trans (List.drop_suffix k text).isInfix)

theorem find_append_of_some {pat text : List α} {k : Nat} (more : List α)
    (h : find pat text = some k) : find pat (text ++ more) = some k := by
  have hle := find_add_length_le h
  rw [find_eq_some_iff] at h ⊢
  obtain ⟨hpre, hlen, hfirst⟩ := h
  refine ⟨?_, ?_, ?_⟩
  · rw [List.drop_append_of_le_length hlen]
    exact hpre.trans (List.prefix_append _ _)
  · rw [List.length_append]
    omega
  · intro j hj hj'
    apply hfirst j hj
    rw [List.drop_append_of_le_length (by omega)] at hj'
    apply List.prefix_of_prefix_length_le hj' (List.prefix_append _ _)
    rw [List.length_drop]
    omega

/-- A pattern does not reach over an item that it does not have. -/
theorem find_append_cons_of_none {pat before : List α} {c : α} (hpat : pat ≠ []) (hc : c ∉ pat)
    (after : List α) (h : find pat before = none) :
    find pat (before ++ c :: after) = (find pat after).map (· + (before.length + 1)) := by
  induction before with
  | nil =>
      have hnot : ¬ pat <+: c :: after := by
        rintro ⟨rest, hrest⟩
        cases pat with
        | nil => exact hpat rfl
        | cons x pat =>
            rw [List.cons_append, List.cons.injEq] at hrest
            exact hc (by simp [hrest.1])
      simp [find, List.isPrefixOf_iff_prefix, hnot]
  | cons x before ih =>
      have hnot : ¬ pat <+: x :: before ++ c :: after := by
        intro hpre
        rw [find_eq_none_iff] at h
        by_cases hlen : pat.length ≤ (x :: before).length
        · exact h (List.prefix_of_prefix_length_le hpre (List.prefix_append _ _) hlen).isInfix
        · obtain ⟨rest, hrest⟩ := hpre
          have hat : (pat ++ rest)[(x :: before).length]? = some c := by
            rw [hrest, List.getElem?_append_right (le_refl _), Nat.sub_self]
            rfl
          rw [List.getElem?_append_left (by omega)] at hat
          exact hc (List.mem_of_getElem? hat)
      have hbefore : find pat before = none := by
        rw [find_eq_none_iff] at h ⊢
        exact fun hin => h (List.infix_cons hin)
      rw [List.cons_append] at hnot ⊢
      rw [← List.isPrefixOf_iff_prefix] at hnot
      rw [find, if_neg hnot, ih hbefore, Option.map_map]
      rfl

/-- A pattern does not begin in a text without its first item. -/
theorem find_append_of_not_mem {x : α} {before : List α} (hx : x ∉ before) (pat after : List α) :
    find (x :: pat) (before ++ after) = (find (x :: pat) after).map (· + before.length) := by
  induction before with
  | nil => simp
  | cons y before ih =>
      have hnot : ¬ x :: pat <+: y :: (before ++ after) := by
        rw [List.cons_prefix_cons]
        rintro ⟨rfl, _⟩
        exact hx (by simp)
      rw [← List.isPrefixOf_iff_prefix] at hnot
      rw [List.cons_append, find, if_neg hnot, ih (fun h => hx (by simp [h])), Option.map_map]
      congr 1

/-- The first of one character. -/
theorem find_single {c : α} {before : List α} (h : c ∉ before) (rest : List α) :
    find [c] (before ++ c :: rest) = some before.length := by
  have hsplit := find_append_of_not_mem h [] (c :: rest)
  have hzero : find [c] (c :: rest) = some 0 :=
    (find_eq_zero_iff _ _).2 (List.prefix_append [c] rest)
  rwa [hzero, Option.map_some, Nat.zero_add] at hsplit

theorem findFrom_eq_some_iff (pat text : List α) (start k : Nat) :
    findFrom pat text start = some k ↔
      start ≤ k ∧ start ≤ text.length ∧ find pat (text.drop start) = some (k - start) := by
  unfold findFrom
  by_cases h : text.length < start
  · rw [if_pos h]
    constructor
    · rintro ⟨⟩
    · rintro ⟨_, hle, _⟩
      omega
  · rw [if_neg h, Option.map_eq_some_iff]
    constructor
    · rintro ⟨i, hi, rfl⟩
      refine ⟨by omega, by omega, ?_⟩
      rw [hi, Nat.add_sub_cancel]
    · rintro ⟨hle, _, hfind⟩
      exact ⟨k - start, hfind, by omega⟩

theorem findFrom_take_eq_some_iff {pat : List α} (hpat : pat ≠ []) (text : List α)
    (n start k : Nat) :
    findFrom pat (text.take n) start = some k ↔
      findFrom pat text start = some k ∧ k + pat.length ≤ n := by
  have hpos := List.length_pos_iff.mpr hpat
  simp only [findFrom_eq_some_iff, List.drop_take, find_take_eq_some_iff hpat, List.length_take]
  constructor
  · rintro ⟨hk, hlen, hfind, hle⟩
    exact ⟨⟨hk, by omega, hfind⟩, by omega⟩
  · rintro ⟨⟨hk, hlen, hfind⟩, hle⟩
    exact ⟨hk, by omega, hfind, by omega⟩

/-- An occurrence at `k` bounds the first one from `start` on. -/
theorem findFrom_of_prefix {pat text : List α} {start k : Nat} (hle : start ≤ k)
    (hk : k ≤ text.length) (hpre : pat <+: text.drop k) :
    ∃ q, findFrom pat text start = some q ∧ start ≤ q ∧ q ≤ k := by
  have hin : pat <:+: text.drop start := by
    have hdrop : text.drop k = (text.drop start).drop (k - start) := by
      rw [List.drop_drop]
      congr 1
      omega
    rw [hdrop] at hpre
    exact hpre.isInfix.trans (List.drop_suffix _ _).isInfix
  cases hfind : find pat (text.drop start) with
  | none => exact absurd hin ((find_eq_none_iff _ _).mp hfind)
  | some i =>
      refine ⟨i + start, ?_, by omega, ?_⟩
      · rw [findFrom_eq_some_iff]
        exact ⟨by omega, by omega, by rw [hfind, Nat.add_sub_cancel]⟩
      · by_contra hlt
        have hfirst := ((find_eq_some_iff _ _ _).mp hfind).2.2 (k - start) (by omega)
        rw [List.drop_drop] at hfirst
        have hsum : start + (k - start) = k := by omega
        rw [hsum] at hfirst
        exact hfirst hpre

theorem prefix_of_findFrom {pat text : List α} {start k : Nat}
    (h : findFrom pat text start = some k) : pat <+: text.drop k := by
  rw [findFrom_eq_some_iff] at h
  obtain ⟨hle, _, hfind⟩ := h
  have hpre := prefix_of_find hfind
  rw [List.drop_drop] at hpre
  have hsum : start + (k - start) = k := by omega
  rwa [hsum] at hpre

end FortyTwo.Foundation
