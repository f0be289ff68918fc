import Mathlib.Data.List.Nodup

/-!
Lists whose elements carry a key, as finite maps: the element of a key, and what
replacing, appending and erasing one element does to it.
-/

namespace FortyTwo.Foundation

variable {α κ : Type} [DecidableEq κ]

/-- The first element with this key. -/
def entry (key : α → κ) (k : κ) (l : List α) : Option α := l.find? (fun a => decide (key a = k))

/-- No key occurs twice. -/
def DistinctKeys (key : α → κ) (l : List α) : Prop := (l.map key).Nodup

variable {key : α → κ} {l : List α} {k : κ} {a : α}

theorem entry_eq_none_iff : entry key k l = none ↔ ∀ a ∈ l, key a ≠ k := by
  simp [entry]

theorem entry_eq_some_iff (hdistinct : DistinctKeys key l) :
    entry key k l = some a ↔ a ∈ l ∧ key a = k := by
  induction l with
  | nil => simp [entry]
  | cons b rest ih =>
      obtain ⟨hfresh, hrest⟩ := List.nodup_cons.mp hdistinct
      by_cases hb : key b = k
      · have hfind : entry key k (b :: rest) = some b := by simp [entry, hb]
        rw [hfind, Option.some.injEq, List.mem_cons]
        constructor
        · rintro rfl
          exact ⟨Or.inl rfl, hb⟩
        · rintro ⟨rfl | hmem, ha⟩
          · rfl
          · exact absurd (List.mem_map.mpr ⟨a, hmem, ha.trans hb.symm⟩) hfresh
      · have hfind : entry key k (b :: rest) = entry key k rest := by simp [entry, hb]
        rw [hfind, ih hrest, List.mem_cons]
        constructor
        · rintro ⟨hmem, ha⟩
          exact ⟨Or.inr hmem, ha⟩
        · rintro ⟨rfl | hmem, ha⟩
          · exact absurd ha hb
          · exact ⟨hmem, ha⟩

/-- What is at a place is the entry of its key. -/
theorem entry_of_getElem? (hdistinct : DistinctKeys key l) {i : Nat} (h : l[i]? = some a) :
    entry key (key a) l = some a :=
  (entry_eq_some_iff hdistinct).mpr ⟨List.mem_of_getElem? h, rfl⟩

theorem distinctKeys_append_iff :
    DistinctKeys key (l ++ [a]) ↔ DistinctKeys key l ∧ entry key (key a) l = none := by
  rw [DistinctKeys, List.map_append, List.nodup_append, entry_eq_none_iff, DistinctKeys]
  simp

/-- A new key. -/
theorem entry_append (hfresh : entry key (key a) l = none) (k : κ) :
    entry key k (l ++ [a]) = if k = key a then some a else entry key k l := by
  rw [entry, List.find?_append]
  by_cases hk : k = key a
  · rw [if_pos hk, hk, show l.find? (fun b => decide (key b = key a)) = none from hfresh]
    simp
  · have hother : ¬key a = k := fun h => hk h.symm
    simp [hk, hother, entry]

omit [DecidableEq κ] in
theorem distinctKeys_set (hdistinct : DistinctKeys key l) {i : Nat} {b : α} (h : l[i]? = some b)
    (hkey : key a = key b) : DistinctKeys key (l.set i a) := by
  have hmap : (l.set i a).map key = l.map key := by
    rw [List.map_set, hkey]
    apply List.ext_getElem?
    intro j
    rw [List.getElem?_set]
    split
    · subst i
      have hlt : j < (l.map key).length := by
        rw [List.length_map]
        exact (List.getElem?_eq_some_iff.mp h).1
      rw [if_pos hlt, List.getElem?_map, h]
      rfl
    · rfl
  rw [DistinctKeys, hmap]
  exact hdistinct

/-- Replacing an element by one with its key. -/
theorem entry_set (hdistinct : DistinctKeys key l) {i : Nat} {b : α} (h : l[i]? = some b)
    (hkey : key a = key b) (k : κ) :
    entry key k (l.set i a) = if k = key a then some a else entry key k l := by
  have hset := distinctKeys_set hdistinct h hkey
  obtain ⟨hlt, hb⟩ := List.getElem?_eq_some_iff.mp h
  by_cases hk : k = key a
  · rw [if_pos hk, hk]
    exact entry_of_getElem? hset (List.getElem?_set_self hlt)
  · rw [if_neg hk]
    apply Option.ext
    intro c
    rw [entry_eq_some_iff hset, entry_eq_some_iff hdistinct]
    apply and_congr_left
    intro hc
    have hca : c ≠ a := fun heq => hk (by rw [← hc, heq])
    have hcb : c ≠ b := fun heq => hk (by rw [← hc, heq, hkey])
    rw [List.mem_iff_getElem?, List.mem_iff_getElem?]
    apply exists_congr
    intro j
    rw [List.getElem?_set]
    by_cases hij : i = j
    · subst j
      rw [if_pos rfl, if_pos hlt, h]
      simp [hca.symm, hcb.symm]
    · rw [if_neg hij]

omit [DecidableEq κ] in
/-- An element that is replaced is gone. -/
theorem not_mem_set (hdistinct : DistinctKeys key l) {i : Nat} {b : α} (h : l[i]? = some b)
    (hne : a ≠ b) : b ∉ l.set i a := by
  intro hmem
  obtain ⟨j, hj⟩ := List.mem_iff_getElem?.mp hmem
  rw [List.getElem?_set] at hj
  split at hj
  · split at hj
    · exact hne (Option.some.inj hj)
    · cases hj
  · next hij =>
      have hjlt := (List.getElem?_eq_some_iff.mp hj).1
      exact hij ((List.getElem?_inj hjlt (List.Nodup.of_map key hdistinct)).mp (hj.trans h.symm)).symm

omit [DecidableEq κ] in
theorem distinctKeys_eraseIdx (hdistinct : DistinctKeys key l) (i : Nat) :
    DistinctKeys key (l.eraseIdx i) :=
  ((List.eraseIdx_sublist l i).map key).nodup hdistinct

/-- Erasing an element. -/
theorem entry_eraseIdx (hdistinct : DistinctKeys key l) {i : Nat} (h : l[i]? = some a) (k : κ) :
    entry key k (l.eraseIdx i) = if k = key a then none else entry key k l := by
  have herase := distinctKeys_eraseIdx hdistinct i
  obtain ⟨hlt, ha⟩ := List.getElem?_eq_some_iff.mp h
  by_cases hk : k = key a
  · rw [if_pos hk, hk, entry_eq_none_iff]
    intro c hc hkey
    obtain ⟨j, hj, hcj⟩ := List.mem_eraseIdx_iff_getElem?.mp hc
    have hmap : (l.map key)[j]? = (l.map key)[i]? := by
      rw [List.getElem?_map, List.getElem?_map, hcj, h]
      exact congrArg some hkey
    have hjlt : j < (l.map key).length := by
      rw [List.length_map]
      exact (List.getElem?_eq_some_iff.mp hcj).1
    exact hj ((List.getElem?_inj hjlt hdistinct).mp hmap)
  · rw [if_neg hk]
    apply Option.ext
    intro c
    rw [entry_eq_some_iff herase, entry_eq_some_iff hdistinct]
    apply and_congr_left
    intro hc
    have hca : c ≠ a := fun heq => hk (by rw [← hc, heq])
    rw [List.mem_eraseIdx_iff_getElem?, List.mem_iff_getElem?]
    apply exists_congr
    intro j
    apply and_iff_right_of_imp
    intro hcj hji
    apply hca
    rw [hji, h] at hcj
    exact (Option.some.inj hcj).symm

end FortyTwo.Foundation
