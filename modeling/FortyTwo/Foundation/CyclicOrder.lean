import Mathlib.Data.List.Rotate
import Mathlib.Tactic

/-!
Lists that are increasing up to a rotation. Inserting a new element in front
of its cyclic successor keeps such a list cyclically increasing; rotating its
least element to the front sorts it.
-/

namespace FortyTwo.Foundation

variable {α : Type*} [LinearOrder α]

/-- Some rotation of the list is strictly increasing. -/
def CyclicallySorted (l : List α) : Prop :=
  ∃ s : List α, s.Pairwise (· < ·) ∧ s ~r l

/-- `h` is the element of `l` that follows `x` in cyclic order: the least one
above `x`, or the least of all when none is above. -/
def CyclicSuccessor (l : List α) (x h : α) : Prop :=
  (x < h ∧ ∀ y ∈ l, x < y → h ≤ y) ∨ ((∀ y ∈ l, y < x) ∧ ∀ y ∈ l, h ≤ y)

theorem CyclicallySorted.of_sorted {l : List α} (h : l.Pairwise (· < ·)) :
    CyclicallySorted l :=
  ⟨l, h, List.IsRotated.refl l⟩

theorem CyclicallySorted.rotate {l : List α} (h : CyclicallySorted l) (n : Nat) :
    CyclicallySorted (l.rotate n) := by
  obtain ⟨s, hs, hrot⟩ := h
  exact ⟨s, hs, hrot.trans ⟨n, rfl⟩⟩

theorem CyclicSuccessor.of_perm {l l' : List α} {x h : α} (hs : CyclicSuccessor l x h)
    (hp : l'.Perm l) : CyclicSuccessor l' x h := by
  rcases hs with ⟨hlt, hnext⟩ | ⟨habove, hleast⟩
  · exact Or.inl ⟨hlt, fun y hy => hnext y (hp.mem_iff.mp hy)⟩
  · exact Or.inr ⟨fun y hy => habove y (hp.mem_iff.mp hy), fun y hy => hleast y (hp.mem_iff.mp hy)⟩

theorem CyclicSuccessor.unique {l : List α} {x h h' : α} (hs : CyclicSuccessor l x h)
    (hs' : CyclicSuccessor l x h') (hmem : h ∈ l) (hmem' : h' ∈ l) : h = h' := by
  rcases hs with ⟨hlt, hnext⟩ | ⟨habove, hleast⟩
  · rcases hs' with ⟨hlt', hnext'⟩ | ⟨habove', _⟩
    · exact le_antisymm (hnext h' hmem' hlt') (hnext' h hmem hlt)
    · exact absurd hlt (habove' h hmem).asymm
  · rcases hs' with ⟨hlt', _⟩ | ⟨_, hleast'⟩
    · exact absurd hlt' (habove h' hmem').asymm
    · exact le_antisymm (hleast h' hmem') (hleast' h hmem)

/-- A cyclically increasing list is a cut of an increasing one, its two parts
exchanged. -/
theorem CyclicallySorted.split {l : List α} (h : CyclicallySorted l) :
    ∃ low high : List α, (low ++ high).Pairwise (· < ·) ∧ l = high ++ low := by
  obtain ⟨s, hs, n, hn⟩ := h
  refine ⟨s.take (n % s.length), s.drop (n % s.length), ?_, ?_⟩
  · rw [List.take_append_drop]
    exact hs
  · rw [← hn, List.rotate_eq_drop_append_take_mod]

/-- A cyclically increasing list headed by a lower bound is increasing. -/
theorem CyclicallySorted.sorted_of_head_least {h : α} {t : List α}
    (hc : CyclicallySorted (h :: t)) (hleast : ∀ y ∈ t, h ≤ y) :
    (h :: t).Pairwise (· < ·) := by
  obtain ⟨low, high, hsorted, hsplit⟩ := hc.split
  cases high with
  | nil =>
      rw [hsplit]
      simpa using hsorted
  | cons top rest =>
      cases low with
      | nil =>
          rw [hsplit]
          simpa using hsorted
      | cons first more =>
          obtain ⟨rfl, rfl⟩ := List.cons.inj hsplit
          have hlt : first < h := by
            rw [List.pairwise_append] at hsorted
            exact hsorted.2.2 first (by simp) h (by simp)
          have hle : h ≤ first := hleast first (by simp)
          exact absurd hlt (not_lt.mpr hle)

/-- Insertion in front of the cyclic successor. -/
theorem CyclicallySorted.insert_before {x h : α} {t : List α}
    (hc : CyclicallySorted (h :: t)) (hfresh : x ∉ h :: t)
    (hsucc : CyclicSuccessor (h :: t) x h) :
    CyclicallySorted (x :: h :: t) := by
  rcases hsucc with ⟨hlt, hnext⟩ | ⟨habove, hleast⟩
  · obtain ⟨low, high, hsorted, hsplit⟩ := hc.split
    have hlow : high ≠ [] → ∀ y ∈ low, y < x := by
      intro hne y hy
      have hmem : y ∈ h :: t := by
        rw [hsplit]
        exact List.mem_append_right _ hy
      have hyh : y < h := by
        rw [List.pairwise_append] at hsorted
        apply hsorted.2.2 y hy h
        cases high with
        | nil => exact absurd rfl hne
        | cons top rest =>
            obtain ⟨rfl, _⟩ := List.cons.inj hsplit
            simp
      by_contra hnot
      rcases lt_or_eq_of_le (not_lt.mp hnot) with hxy | hxy
      · exact absurd (hnext y hmem hxy) (not_le.mpr hyh)
      · exact hfresh (hxy ▸ hmem)
    have hsorted' := List.pairwise_append.mp hsorted
    cases high with
    | nil =>
        have hlow : (h :: t).Pairwise (· < ·) := by
          have hlist : h :: t = low := by simpa using hsplit
          rw [hlist]
          exact hsorted'.1
        apply CyclicallySorted.of_sorted
        refine List.pairwise_cons.mpr ⟨?_, hlow⟩
        intro y hy
        rcases List.mem_cons.mp hy with rfl | hy
        · exact hlt
        · exact hlt.trans ((List.pairwise_cons.mp hlow).1 y hy)
    | cons top rest =>
        obtain ⟨rfl, rfl⟩ := List.cons.inj hsplit
        refine ⟨low ++ (x :: h :: rest), ?_, ?_⟩
        · refine List.pairwise_append.mpr ⟨hsorted'.1, ?_, ?_⟩
          · refine List.pairwise_cons.mpr ⟨?_, hsorted'.2.1⟩
            intro y hy
            rcases List.mem_cons.mp hy with rfl | hy
            · exact hlt
            · exact hlt.trans ((List.pairwise_cons.mp hsorted'.2.1).1 y hy)
          · intro y hy z hz
            rcases List.mem_cons.mp hz with rfl | hz
            · exact hlow (by simp) y hy
            · exact hsorted'.2.2 y hy z hz
        · refine ⟨low.length, ?_⟩
          simp
  · have hsorted := hc.sorted_of_head_least (fun y hy => hleast y (by simp [hy]))
    refine ⟨(h :: t) ++ [x], ?_, (h :: t).length, by simp⟩
    refine List.pairwise_append.mpr ⟨hsorted, by simp, ?_⟩
    intro y hy z hz
    obtain rfl := List.mem_singleton.mp hz
    exact habove y hy

end FortyTwo.Foundation
