import Mathlib.Algebra.Order.Floor.Ring
import Mathlib.Algebra.Order.Monoid.WithTop
import Mathlib.Tactic
import FortyTwo.Foundation.Grid

/-!
A ray through a grid of unit cells, over an ordered field. On each axis it leaves the cells
one after the other, at times that are one `delta` apart; of the two axes the one whose side
comes first leads to the next cell.
-/

namespace FortyTwo.Foundation.GridRay

variable {K : Type*} [Field K] [LinearOrder K] [IsStrictOrderedRing K] [FloorRing K]

section Axis

/-- One cell further along the axis. -/
def direction (v : K) : ℤ := if v < 0 then -1 else 1

/-- The cell of a point of the axis; on a line, the cell that the point moves into. -/
def ahead (v p : K) : ℤ := if v < 0 then ⌈p⌉ - 1 else ⌊p⌋

/-- The time from one line to the next. -/
def delta (v : K) : WithTop K := if v = 0 then ⊤ else ((|1 / v| : K) : WithTop K)

/-- The time at which a point that starts at `p` leaves the cell `m`. -/
def leaves (v p : K) (m : ℤ) : WithTop K :=
  if v = 0 then ⊤
  else if v < 0 then (((p - m) * |1 / v| : K) : WithTop K)
  else (((m + 1 - p) * |1 / v| : K) : WithTop K)

/-- At the time `t` the point is in the closed cell `m`. -/
structure Passing (v p : K) (m : ℤ) (t : K) : Prop where
  lower : m ≤ p + t * v
  upper : p + t * v ≤ m + 1
  still : v = 0 → m = ⌊p⌋

variable {v p t u : K} {m : ℤ}

theorem passing_start (v p : K) : Passing v p ⌊p⌋ 0 where
  lower := by simpa using Int.floor_le p
  upper := by simpa using (Int.lt_floor_add_one p).le
  still _ := rfl

theorem leaves_add_direction (v p : K) (m : ℤ) :
    leaves v p (m + direction v) = leaves v p m + delta v := by
  unfold leaves delta direction
  split_ifs with hzero hneg
  · rfl
  · rw [← WithTop.coe_add]
    congr 1
    push_cast
    ring
  · rw [← WithTop.coe_add]
    congr 1
    push_cast
    ring

private theorem abs_inv_of_neg (hv : v < 0) : |1 / v| * -v = 1 := by
  rw [abs_of_neg (one_div_neg.mpr hv), neg_mul_neg, one_div_mul_cancel hv.ne]

private theorem abs_inv_of_pos (hv : 0 < v) : |1 / v| * v = 1 := by
  rw [abs_of_pos (one_div_pos.mpr hv), one_div_mul_cancel hv.ne']

theorem le_leaves_iff_of_neg (hv : v < 0) : (t : WithTop K) ≤ leaves v p m ↔ m ≤ p + t * v := by
  rw [leaves, if_neg hv.ne, if_pos hv, WithTop.coe_le_coe,
    ← mul_le_mul_iff_left₀ (neg_pos.mpr hv), mul_assoc, abs_inv_of_neg hv]
  constructor <;> intro h <;> linarith

theorem le_leaves_iff_of_pos (hv : 0 < v) :
    (t : WithTop K) ≤ leaves v p m ↔ p + t * v ≤ m + 1 := by
  rw [leaves, if_neg hv.ne', if_neg hv.le.not_gt, WithTop.coe_le_coe,
    ← mul_le_mul_iff_left₀ hv, mul_assoc, abs_inv_of_pos hv]
  constructor <;> intro h <;> linarith

theorem lt_leaves_iff_of_neg (hv : v < 0) : (t : WithTop K) < leaves v p m ↔ m < p + t * v := by
  rw [leaves, if_neg hv.ne, if_pos hv, WithTop.coe_lt_coe,
    ← mul_lt_mul_iff_left₀ (neg_pos.mpr hv), mul_assoc, abs_inv_of_neg hv]
  constructor <;> intro h <;> linarith

theorem lt_leaves_iff_of_pos (hv : 0 < v) :
    (t : WithTop K) < leaves v p m ↔ p + t * v < m + 1 := by
  rw [leaves, if_neg hv.ne', if_neg hv.le.not_gt, WithTop.coe_lt_coe,
    ← mul_lt_mul_iff_left₀ hv, mul_assoc, abs_inv_of_pos hv]
  constructor <;> intro h <;> linarith

theorem leaves_of_still (p : K) (m : ℤ) : leaves 0 p m = ⊤ := if_pos rfl

theorem Passing.le_leaves (h : Passing v p m t) : (t : WithTop K) ≤ leaves v p m := by
  rcases lt_trichotomy v 0 with hv | rfl | hv
  · exact (le_leaves_iff_of_neg hv).mpr h.lower
  · exact (leaves_of_still p m).symm ▸ le_top
  · exact (le_leaves_iff_of_pos hv).mpr h.upper

/-- The point stays in the cell until it leaves it. -/
theorem Passing.later (h : Passing v p m t) (htu : t ≤ u) (hu : (u : WithTop K) ≤ leaves v p m) :
    Passing v p m u := by
  rcases lt_trichotomy v 0 with hv | rfl | hv
  · have hmove := mul_le_mul_of_nonpos_right htu hv.le
    exact ⟨(le_leaves_iff_of_neg hv).mp hu, by linarith [h.upper], h.still⟩
  · exact ⟨by simpa using h.lower, by simpa using h.upper, h.still⟩
  · have hmove := mul_le_mul_of_nonneg_right htu hv.le
    exact ⟨by linarith [h.lower], (le_leaves_iff_of_pos hv).mp hu, h.still⟩

/-- When it leaves the cell it is in the next one as well. -/
theorem Passing.cross (h : Passing v p m t) (hleaves : leaves v p m = t) :
    Passing v p (m + direction v) t := by
  rcases lt_trichotomy v 0 with hv | rfl | hv
  · have hline : ¬ m < p + t * v := by
      rw [← lt_leaves_iff_of_neg hv, hleaves]
      exact lt_irrefl _
    rw [direction, if_pos hv]
    refine ⟨?_, ?_, fun hzero => absurd hzero hv.ne⟩
    · push_cast
      linarith [h.lower]
    · push_cast
      linarith
  · rw [leaves_of_still] at hleaves
    cases hleaves
  · have hline : ¬ p + t * v < m + 1 := by
      rw [← lt_leaves_iff_of_pos hv, hleaves]
      exact lt_irrefl _
    rw [direction, if_neg hv.le.not_gt]
    refine ⟨?_, ?_, fun hzero => absurd hzero hv.ne'⟩
    · push_cast
      linarith
    · push_cast
      linarith [h.upper]

theorem Passing.ahead_eq (h : Passing v p m t) (htu : t ≤ u)
    (hu : (u : WithTop K) < leaves v p m) : ahead v (p + u * v) = m := by
  rcases lt_trichotomy v 0 with hv | rfl | hv
  · have hlower := (lt_leaves_iff_of_neg hv).mp hu
    have hupper := (h.later htu hu.le).upper
    rw [ahead, if_pos hv, sub_eq_iff_eq_add, Int.ceil_eq_iff]
    push_cast
    constructor <;> linarith
  · rw [ahead, if_neg (lt_irrefl _), mul_zero, add_zero, ← h.still rfl]
  · have hlower := (h.later htu hu.le).lower
    have hupper := (lt_leaves_iff_of_pos hv).mp hu
    rw [ahead, if_neg hv.le.not_gt, Int.floor_eq_iff]
    exact ⟨hlower, hupper⟩

end Axis

/-- Where a ray begins, and how far it goes in a unit of time. -/
structure Line (K : Type*) where
  x : K
  y : K
  dx : K
  dy : K

namespace Line

variable (l : Line K) {c : Point} {t u : K}

/-- The cell that the ray is in at a time, or moves into. -/
def cellAt (t : K) : Point := ⟨ahead l.dx (l.x + t * l.dx), ahead l.dy (l.y + t * l.dy)⟩

/-- The time at which the ray leaves a cell. -/
def exit (c : Point) : WithTop K := min (leaves l.dx l.x c.x) (leaves l.dy l.y c.y)

/-- The cell behind the side that comes first, on the second axis if both come at once. -/
def next (c : Point) : Point :=
  if leaves l.dx l.x c.x < leaves l.dy l.y c.y then ⟨c.x + direction l.dx, c.y⟩
  else ⟨c.x, c.y + direction l.dy⟩

/-- At the time `t` the ray is in the closed cell `c`. -/
structure Passing (c : Point) (t : K) : Prop where
  x : GridRay.Passing l.dx l.x c.x t
  y : GridRay.Passing l.dy l.y c.y t

theorem passing_start : l.Passing ⟨⌊l.x⌋, ⌊l.y⌋⟩ 0 :=
  ⟨GridRay.passing_start l.dx l.x, GridRay.passing_start l.dy l.y⟩

variable {l}

theorem Passing.le_exit (h : l.Passing c t) : (t : WithTop K) ≤ l.exit c :=
  le_min h.x.le_leaves h.y.le_leaves

theorem Passing.later (h : l.Passing c t) (htu : t ≤ u) (hu : (u : WithTop K) ≤ l.exit c) :
    l.Passing c u :=
  ⟨h.x.later htu (hu.trans (min_le_left _ _)), h.y.later htu (hu.trans (min_le_right _ _))⟩

theorem Passing.cellAt_eq (h : l.Passing c t) (htu : t ≤ u) (hu : (u : WithTop K) < l.exit c) :
    l.cellAt u = c := by
  rw [cellAt, h.x.ahead_eq htu (hu.trans_le (min_le_left _ _)),
    h.y.ahead_eq htu (hu.trans_le (min_le_right _ _))]

theorem Passing.next (h : l.Passing c t) (hexit : l.exit c = u) : l.Passing (l.next c) u := by
  have htu : t ≤ u := WithTop.coe_le_coe.mp (hexit ▸ h.le_exit)
  have hlater := h.later htu hexit.ge
  rw [Line.next]
  split
  · next hlt =>
      rw [exit, min_eq_left hlt.le] at hexit
      exact ⟨hlater.x.cross hexit, hlater.y⟩
  · next hle =>
      rw [exit, min_eq_right (not_lt.mp hle)] at hexit
      exact ⟨hlater.x, hlater.y.cross hexit⟩

/-- A ray that goes anywhere leaves every cell. -/
theorem exit_ne_top (hgoes : l.dx ≠ 0 ∨ l.dy ≠ 0) (c : Point) : l.exit c ≠ ⊤ := by
  have hleaves : ∀ {v p : K} {m : ℤ}, v ≠ 0 → leaves v p m ≠ ⊤ := by
    intro v p m hv
    rw [leaves, if_neg hv]
    split <;> exact WithTop.coe_ne_top
  rcases hgoes with hdx | hdy
  · exact ne_top_of_le_ne_top (hleaves hdx) (min_le_left _ _)
  · exact ne_top_of_le_ne_top (hleaves hdy) (min_le_right _ _)

/-- Up to the time `t` the ray is in cells that are open. -/
def Clear (l : Line K) (isOpen : Point → Prop) (t : K) : Prop :=
  ∀ u, 0 ≤ u → u < t → isOpen (l.cellAt u)

theorem clear_zero (isOpen : Point → Prop) : l.Clear isOpen 0 :=
  fun _ hu hlt => absurd hlt (not_lt.mpr hu)

theorem Clear.next {isOpen : Point → Prop} (hclear : l.Clear isOpen t) (h : l.Passing c t)
    (hopen : isOpen c) (hexit : l.exit c = u) : l.Clear isOpen u := by
  intro w hw hwu
  by_cases hwt : w < t
  · exact hclear w hw hwt
  · rw [h.cellAt_eq (not_lt.mp hwt) (hexit ▸ WithTop.coe_lt_coe.mpr hwu)]
    exact hopen

end Line

end FortyTwo.Foundation.GridRay
