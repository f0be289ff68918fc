import Mathlib.Order.Basic
import Mathlib.Tactic

/-!
A map that keeps its keys in order: the entry of a key, the place where a key belongs, and the
last entry that is not behind a key.
-/

namespace FortyTwo.Foundation

structure SortedMap (κ ν : Type*) [LinearOrder κ] where
  entries : List (κ × ν)
  sorted : entries.Pairwise fun a b => a.1 < b.1

namespace SortedMap

variable {κ ν : Type*} [LinearOrder κ] (m : SortedMap κ ν) (k : κ)

def find : Option ν := (m.entries.find? fun entry => decide (entry.1 = k)).map Prod.snd

/-- The place of the first entry that is not in front of the key, and the end if there is none. -/
def lowerBound : Nat := m.entries.findIdx fun entry => decide (k ≤ entry.1)

/-- The entry with the greatest key that is at most the given one. -/
structure IsFloor (entry : κ × ν) : Prop where
  mem : entry ∈ m.entries
  le : entry.1 ≤ k
  greatest : ∀ other ∈ m.entries, other.1 ≤ k → other.1 ≤ entry.1

variable {m k}

theorem eq_of_mem {first second : κ × ν} (hfirst : first ∈ m.entries)
    (hsecond : second ∈ m.entries) (h : first.1 = second.1) : first = second := by
  have hkeys : (m.entries.map Prod.fst).Nodup :=
    List.pairwise_map.mpr (m.sorted.imp fun hlt => ne_of_lt hlt)
  exact List.inj_on_of_nodup_map hkeys hfirst hsecond h

theorem IsFloor.unique {first second : κ × ν} (hfirst : m.IsFloor k first)
    (hsecond : m.IsFloor k second) : first = second :=
  eq_of_mem hfirst.mem hsecond.mem
    (le_antisymm (hsecond.greatest _ hfirst.mem hfirst.le)
      (hfirst.greatest _ hsecond.mem hsecond.le))

theorem find_eq_none_iff : m.find k = none ↔ ∀ entry ∈ m.entries, entry.1 ≠ k := by
  rw [find, Option.map_eq_none_iff, List.find?_eq_none]
  simp

theorem isFloor_of_find {v : ν} (h : m.find k = some v) : m.IsFloor k (k, v) := by
  rw [find, Option.map_eq_some_iff] at h
  obtain ⟨entry, hentry, rfl⟩ := h
  have hkey : entry.1 = k := by simpa using List.find?_some hentry
  have hmem := List.mem_of_find?_eq_some hentry
  rw [← hkey] at *
  exact ⟨hmem, le_refl _, fun _ _ hle => hle⟩

theorem lowerBound_eq_length_iff :
    m.lowerBound k = m.entries.length ↔ ∀ entry ∈ m.entries, entry.1 < k := by
  rw [lowerBound, List.findIdx_eq_length]
  simp

section LowerBound

theorem lt_of_lt_lowerBound {i : Nat} (hi : i < m.entries.length) (h : i < m.lowerBound k) :
    m.entries[i].1 < k := by
  simpa using List.not_of_lt_findIdx h

theorem le_of_lowerBound_le {i : Nat} (hi : i < m.entries.length) (h : m.lowerBound k ≤ i) :
    k ≤ m.entries[i].1 := by
  have hin : m.lowerBound k < m.entries.length := lt_of_le_of_lt h hi
  have hfirst : k ≤ m.entries[m.lowerBound k].1 := of_decide_eq_true (List.findIdx_getElem (w := hin))
  rcases Nat.lt_or_eq_of_le h with hlt | heq
  · exact le_trans hfirst (le_of_lt (List.pairwise_iff_getElem.mp m.sorted _ _ _ hi hlt))
  · simpa [heq] using hfirst

theorem lowerBound_eq_zero_iff : m.lowerBound k = 0 ↔ ∀ entry ∈ m.entries, k ≤ entry.1 := by
  constructor
  · intro h entry hentry
    obtain ⟨i, hi, rfl⟩ := List.getElem_of_mem hentry
    exact le_of_lowerBound_le hi (h.trans_le (Nat.zero_le i))
  · intro h
    by_contra hne
    have hpos := Nat.pos_of_ne_zero hne
    have hlt : 0 < m.entries.length := lt_of_lt_of_le hpos List.findIdx_le_length
    exact absurd (lt_of_lt_lowerBound hlt hpos) (not_lt.mpr (h _ (List.getElem_mem hlt)))

/-- The entry in front of the place where a missing key belongs. -/
theorem isFloor_before (hnone : m.find k = none) (h : m.lowerBound k ≠ 0) :
    ∃ entry, m.entries[m.lowerBound k - 1]? = some entry ∧ m.IsFloor k entry := by
  have hle : m.lowerBound k ≤ m.entries.length := List.findIdx_le_length
  have hbefore : m.lowerBound k - 1 < m.entries.length := by omega
  have hlt : m.entries[m.lowerBound k - 1].1 < k := lt_of_lt_lowerBound hbefore (by omega)
  refine ⟨_, List.getElem?_eq_getElem hbefore, List.getElem_mem hbefore, le_of_lt hlt, ?_⟩
  intro other hother hle
  obtain ⟨i, hi, rfl⟩ := List.getElem_of_mem hother
  have hne : m.entries[i].1 ≠ k := find_eq_none_iff.mp hnone _ hother
  have hbound : i < m.lowerBound k := by
    by_contra hge
    exact hne (le_antisymm hle (le_of_lowerBound_le hi (not_lt.mp hge)))
  rcases Nat.lt_or_eq_of_le (Nat.le_sub_one_of_lt hbound) with hlast | hlast
  · exact le_of_lt (List.pairwise_iff_getElem.mp m.sorted _ _ _ _ hlast)
  · simp [hlast]

/-- In a map with an entry that is not behind a key, one of them has the greatest such key. -/
theorem exists_isFloor (h : ∃ entry ∈ m.entries, entry.1 ≤ k) : ∃ entry, m.IsFloor k entry := by
  cases hfind : m.find k with
  | some v => exact ⟨_, isFloor_of_find hfind⟩
  | none =>
      obtain ⟨first, hfirst, hle⟩ := h
      have hne : m.lowerBound k ≠ 0 := by
        intro hzero
        exact find_eq_none_iff.mp hfind first hfirst
          (le_antisymm hle (lowerBound_eq_zero_iff.mp hzero first hfirst))
      obtain ⟨entry, -, hentry⟩ := isFloor_before hfind hne
      exact ⟨entry, hentry⟩

end LowerBound

end SortedMap

end FortyTwo.Foundation
