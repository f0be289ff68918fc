import Mathlib.Data.List.Rotate
import Mathlib.Tactic

/-!
Rotation of a list by an integer: upwards when it is positive, downwards when
it is negative.
-/

namespace FortyTwo.Foundation

variable {α β : Type*}

def rotateBy (n : Int) (l : List α) : List α :=
  l.rotate (n % (l.length : Int)).toNat

private theorem rotate_congr (l : List α) (m n : Nat)
    (h : (m : Int) % l.length = (n : Int) % l.length) : l.rotate m = l.rotate n := by
  have hmod : m % l.length = n % l.length := by exact_mod_cast h
  rw [← List.rotate_mod l m, hmod, List.rotate_mod]

@[simp] theorem length_rotateBy (n : Int) (l : List α) : (rotateBy n l).length = l.length := by
  simp [rotateBy]

@[simp] theorem rotateBy_nil (n : Int) : rotateBy n ([] : List α) = [] := by
  simp [rotateBy]

theorem rotateBy_natCast (n : Nat) (l : List α) : rotateBy n l = l.rotate n := by
  rcases l with _ | ⟨x, rest⟩
  · simp [rotateBy]
  · apply rotate_congr
    have hpos : (0 : Int) < ((x :: rest).length : Int) := by simp
    rw [Int.toNat_of_nonneg (Int.emod_nonneg _ hpos.ne'), Int.emod_emod_of_dvd _ (dvd_refl _)]

@[simp] theorem rotateBy_zero (l : List α) : rotateBy 0 l = l := by
  simp [rotateBy]

theorem rotateBy_congr {m n : Int} (l : List α)
    (h : m % (l.length : Int) = n % l.length) : rotateBy m l = rotateBy n l := by
  simp [rotateBy, h]

theorem rotateBy_rotateBy (m n : Int) (l : List α) :
    rotateBy m (rotateBy n l) = rotateBy (n + m) l := by
  rcases l with _ | ⟨x, rest⟩
  · simp
  · have hpos : (0 : Int) < ((x :: rest).length : Int) := by simp
    unfold rotateBy
    rw [List.length_rotate, List.rotate_rotate]
    apply rotate_congr
    have hm := Int.emod_nonneg m hpos.ne'
    have hn := Int.emod_nonneg n hpos.ne'
    have hnm := Int.emod_nonneg (n + m) hpos.ne'
    push_cast
    rw [Int.toNat_of_nonneg hm, Int.toNat_of_nonneg hn, Int.toNat_of_nonneg hnm]
    simp [Int.add_emod]

/-- A whole turn less is the same rotation. -/
theorem rotateBy_sub_length (n : Int) (l : List α) :
    rotateBy (n - l.length) l = rotateBy n l := by
  apply rotateBy_congr
  simp

theorem map_rotateBy (f : α → β) (n : Int) (l : List α) :
    (rotateBy n l).map f = rotateBy n (l.map f) := by
  simp [rotateBy, List.map_rotate]

theorem rotateBy_perm (n : Int) (l : List α) : (rotateBy n l).Perm l :=
  List.rotate_perm l _

/-- Rotating up by a position brings the element standing there to the top. -/
theorem rotateBy_eq_cons_of_getElem? {l : List α} {n : Nat} {x : α} (h : l[n]? = some x) :
    ∃ rest, rotateBy n l = x :: rest := by
  obtain ⟨hlt, hx⟩ := List.getElem?_eq_some_iff.mp h
  rw [rotateBy_natCast, List.rotate_eq_drop_append_take hlt.le, List.drop_eq_getElem_cons hlt, hx]
  exact ⟨_, rfl⟩

/-- The element on top after a rotation stood where the rotation leads, up to whole
turns. -/
theorem getElem?_of_head?_rotateBy {l : List α} {n : Int} {x : α}
    (h : (rotateBy n l).head? = some x) : l[(n % l.length).toNat]? = some x := by
  have hne : l ≠ [] := by
    rintro rfl
    simp at h
  have hpos : (0 : Int) < l.length := by exact_mod_cast List.length_pos_iff.mpr hne
  have hlt := Int.emod_lt_of_pos n hpos
  rwa [rotateBy, List.head?_rotate (by omega)] at h

end FortyTwo.Foundation
