import Mathlib.Tactic

/-!
Grids of rows that need not have one length, addressed by integer coordinates.
A grid is known by its cells: what a write does is said for each of them.
-/

namespace FortyTwo.Foundation

variable {α : Type*}

structure Point where
  x : Int
  y : Int
  deriving DecidableEq, Repr

namespace Point

def left (p : Point) : Point := ⟨p.x - 1, p.y⟩

def right (p : Point) : Point := ⟨p.x + 1, p.y⟩

def up (p : Point) : Point := ⟨p.x, p.y - 1⟩

def down (p : Point) : Point := ⟨p.x, p.y + 1⟩

def Adjacent (p q : Point) : Prop := q = p.left ∨ q = p.right ∨ q = p.up ∨ q = p.down

theorem Adjacent.symm {p q : Point} (h : p.Adjacent q) : q.Adjacent p := by
  simp only [Adjacent, left, right, up, down] at h ⊢
  rcases h with rfl | rfl | rfl | rfl <;> simp

theorem Adjacent.ne {p q : Point} (h : p.Adjacent q) : q ≠ p := by
  rintro rfl
  rcases h with h | h | h | h
  · have hx := congrArg Point.x h
    simp only [left] at hx
    omega
  · have hx := congrArg Point.x h
    simp only [right] at hx
    omega
  · have hy := congrArg Point.y h
    simp only [up] at hy
    omega
  · have hy := congrArg Point.y h
    simp only [down] at hy
    omega

end Point

abbrev Grid (α : Type*) := List (List α)

namespace Grid

/-- The cell at a point, if the row is there and is long enough. -/
def cell (map : Grid α) (p : Point) : Option α :=
  if 0 ≤ p.x ∧ 0 ≤ p.y then (map[p.y.toNat]?).bind (·[p.x.toNat]?) else none

def write (map : Grid α) (p : Point) (a : α) : Grid α :=
  map.modify p.y.toNat (·.set p.x.toNat a)

theorem cell_eq_some_iff {map : Grid α} {p : Point} {a : α} :
    map.cell p = some a ↔ 0 ≤ p.x ∧ 0 ≤ p.y ∧
      ∃ row, map[p.y.toNat]? = some row ∧ row[p.x.toNat]? = some a := by
  unfold cell
  split
  · next h => simp [h.1, h.2, Option.bind_eq_some_iff]
  · next h =>
      constructor
      · intro hnone
        cases hnone
      · exact fun ⟨hx, hy, _⟩ => absurd ⟨hx, hy⟩ h

theorem cell_write {map : Grid α} {p : Point} {old : α} (hp : map.cell p = some old)
    (a : α) (q : Point) :
    (map.write p a).cell q = if q = p then some a else map.cell q := by
  obtain ⟨hx, hy, row, hrow, hold⟩ := cell_eq_some_iff.mp hp
  have hlt : p.x.toNat < row.length := (List.getElem?_eq_some_iff.mp hold).1
  by_cases hq : 0 ≤ q.x ∧ 0 ≤ q.y
  · simp only [cell, if_pos hq, write, List.getElem?_modify]
    by_cases hyeq : p.y.toNat = q.y.toNat
    · rw [← hyeq, hrow]
      simp only [Option.map_eq_map, Option.map_some, Option.bind_some, if_true,
        List.getElem?_set]
      by_cases hxeq : p.x.toNat = q.x.toNat
      · have hqp : q = p := by
          obtain ⟨qx, qy⟩ := q
          obtain ⟨px, py⟩ := p
          simp only [Point.mk.injEq] at *
          omega
        rw [if_pos hxeq, if_pos hlt, if_pos hqp]
      · have hqp : q ≠ p := fun h => hxeq (by rw [h])
        rw [if_neg hxeq, if_neg hqp]
    · have hqp : q ≠ p := fun h => hyeq (by rw [h])
      simp only [if_neg hyeq, if_neg hqp, Option.map_eq_map, Option.map_id']
  · have hqp : q ≠ p := fun h => hq (by rw [h]; exact ⟨hx, hy⟩)
    rw [if_neg hqp]
    simp only [cell, if_neg hq]

theorem cell_write_of_ne {map : Grid α} {p q : Point} {old : α} (hp : map.cell p = some old)
    (a : α) (hq : q ≠ p) : (map.write p a).cell q = map.cell q := by
  rw [cell_write hp, if_neg hq]

theorem cell_map {β : Type*} (f : α → β) (map : Grid α) (p : Point) :
    cell (map.map (List.map f)) p = (map.cell p).map f := by
  unfold cell
  split
  · rw [List.getElem?_map]
    cases map[p.y.toNat]? with
    | none => rfl
    | some row => simp
  · rfl

theorem write_eq_self {map : Grid α} {p : Point} {a : α} (hp : map.cell p = some a) :
    map.write p a = map := by
  obtain ⟨-, -, row, hrow, ha⟩ := cell_eq_some_iff.mp hp
  obtain ⟨hy, rfl⟩ := List.getElem?_eq_some_iff.mp hrow
  obtain ⟨hx, rfl⟩ := List.getElem?_eq_some_iff.mp ha
  rw [write, List.modify_eq_set_getElem? , hrow]
  simp

/-- The cells lie within some number of columns and rows. -/
theorem exists_bounds (map : Grid α) :
    ∃ w h : Nat, ∀ p a, map.cell p = some a → 0 ≤ p.x ∧ p.x < w ∧ 0 ≤ p.y ∧ p.y < h := by
  refine ⟨map.flatten.length, map.length, ?_⟩
  intro p a hp
  obtain ⟨hx, hy, row, hrow, ha⟩ := cell_eq_some_iff.mp hp
  have hcolumn := (List.getElem?_eq_some_iff.mp ha).1
  have hline := (List.getElem?_eq_some_iff.mp hrow).1
  have hsum : row.length ≤ map.flatten.length := by
    rw [List.length_flatten]
    exact List.le_sum_of_mem (List.mem_map_of_mem (List.mem_of_getElem? hrow))
  omega

/-- A write keeps the number of rows and the length of each. -/
theorem map_length_write (map : Grid α) (p : Point) (a : α) :
    (map.write p a).map List.length = map.map List.length := by
  unfold write
  induction map generalizing p with
  | nil => simp
  | cons row rest ih =>
      cases hy : p.y.toNat with
      | zero => simp
      | succ y =>
          have hrest := ih ⟨p.x, (y : Int)⟩
          simp only [Int.toNat_natCast] at hrest
          simp [hrest]

/-- The points that have a cell. -/
def points (map : Grid α) : List Point :=
  (List.range map.length).flatMap fun y =>
    (List.range (map.getD y []).length).map fun x : Nat => ⟨x, y⟩

theorem mem_points {map : Grid α} {p : Point} : p ∈ map.points ↔ ∃ a, map.cell p = some a := by
  simp only [points, List.mem_flatMap, List.mem_range, List.mem_map, cell_eq_some_iff]
  constructor
  · rintro ⟨y, hy, x, hx, rfl⟩
    have hrow : map.getD y [] = map[y] := by simp [hy]
    rw [hrow] at hx
    exact ⟨(map[y])[x], by simp, by simp, map[y], by simp [hy], by simp [hx]⟩
  · rintro ⟨a, hx, hy, row, hrow, ha⟩
    obtain ⟨hy', rfl⟩ := List.getElem?_eq_some_iff.mp hrow
    obtain ⟨hx', -⟩ := List.getElem?_eq_some_iff.mp ha
    refine ⟨p.y.toNat, hy', p.x.toNat, by simpa [hy'] using hx', ?_⟩
    rw [Int.toNat_of_nonneg hx, Int.toNat_of_nonneg hy]

/-- A grid in which the points of `M` hold `mark` and the others what they held. -/
structure Marked (mark : α) (original map : Grid α) (M : Set Point) : Prop where
  marked : ∀ {p}, p ∈ M → map.cell p = some mark
  kept : ∀ {p}, p ∉ M → map.cell p = original.cell p
  shape : map.map List.length = original.map List.length

theorem Marked.start (mark : α) (map : Grid α) : Marked mark map map ∅ :=
  ⟨fun hp => absurd hp (Set.notMem_empty _), fun _ => rfl, rfl⟩

theorem Marked.write {mark old : α} {original map : Grid α} {M : Set Point} {p : Point}
    (h : Marked mark original map M) (hp : map.cell p = some old) :
    Marked mark original (map.write p mark) (insert p M) where
  marked {q} hq := by
    rw [cell_write hp]
    split
    · rfl
    · next hne => exact h.marked ((Set.mem_insert_iff.mp hq).resolve_left hne)
  kept {q} hq := by
    rw [Set.mem_insert_iff, not_or] at hq
    rw [cell_write_of_ne hp mark hq.1]
    exact h.kept hq.2
  shape := (map_length_write map p mark).trans h.shape

theorem Marked.length {mark : α} {original map : Grid α} {M : Set Point}
    (h : Marked mark original map M) : map.length = original.length := by
  have hlength := congrArg List.length h.shape
  simpa using hlength

theorem exists_mem_iff {map : Grid α} {a : α} :
    (∃ row ∈ map, a ∈ row) ↔ ∃ p, map.cell p = some a := by
  constructor
  · rintro ⟨row, hrow, ha⟩
    obtain ⟨y, hy, rfl⟩ := List.getElem_of_mem hrow
    obtain ⟨x, hx, rfl⟩ := List.getElem_of_mem ha
    exact ⟨⟨x, y⟩, cell_eq_some_iff.mpr ⟨by simp, by simp, map[y], by simp [hy], by simp [hx]⟩⟩
  · rintro ⟨p, hp⟩
    obtain ⟨-, -, row, hrow, ha⟩ := cell_eq_some_iff.mp hp
    exact ⟨row, List.mem_of_getElem? hrow, List.mem_of_getElem? ha⟩

section Counting

variable [DecidableEq α]

/-- The number of cells that hold `a`. -/
def count (map : Grid α) (a : α) : Nat := (map.map (List.count a)).sum

private theorem count_set {row : List α} {x : Nat} {old : α} (h : row[x]? = some old) (a b : α) :
    (row.set x b).count a + (if old = a then 1 else 0) =
      row.count a + (if b = a then 1 else 0) := by
  obtain ⟨hx, rfl⟩ := List.getElem?_eq_some_iff.mp h
  rw [List.count_set hx]
  have hpos : (if row[x] = a then 1 else 0) ≤ row.count a := by
    split
    · next heq =>
        rw [← heq]
        exact List.count_pos_iff.mpr (List.getElem_mem hx)
    · exact Nat.zero_le _
  simp only [beq_iff_eq]
  omega

theorem count_write {map : Grid α} {p : Point} {old : α} (hp : map.cell p = some old)
    (a b : α) :
    (map.write p b).count a + (if old = a then 1 else 0) =
      map.count a + (if b = a then 1 else 0) := by
  obtain ⟨-, -, row, hrow, hold⟩ := cell_eq_some_iff.mp hp
  unfold count write
  induction map generalizing p with
  | nil => simp at hrow
  | cons first rest ih =>
      cases hy : p.y.toNat with
      | zero =>
          rw [hy, List.getElem?_cons_zero, Option.some.injEq] at hrow
          subst hrow
          have hset := count_set hold a b
          simp only [List.modify_zero_cons, List.map_cons, List.sum_cons]
          omega
      | succ y =>
          have hcell : cell rest ⟨p.x, (y : Int)⟩ = some old := by
            obtain ⟨hx, -, -⟩ := cell_eq_some_iff.mp hp
            refine cell_eq_some_iff.mpr ⟨hx, by simp, row, ?_, hold⟩
            rw [hy, List.getElem?_cons_succ] at hrow
            simpa using hrow
          have hrest := ih hcell (by rw [hy] at hrow; simpa using hrow) hold
          simp only [Int.toNat_natCast] at hrest
          simp only [List.modify_succ_cons, List.map_cons, List.sum_cons]
          omega

theorem count_pos_iff {map : Grid α} {a : α} : 0 < map.count a ↔ ∃ p, map.cell p = some a := by
  rw [← exists_mem_iff]
  induction map with
  | nil => simp [count]
  | cons row rest ih =>
      have hsplit : count (row :: rest) a = row.count a + count rest a := by simp [count]
      rw [hsplit, Nat.add_pos_iff_pos_or_pos, ih, List.count_pos_iff]
      simp

theorem eq_of_count_eq_one {map : Grid α} {a b : α} (hone : map.count a = 1) (hb : b ≠ a)
    {p q : Point} (hp : map.cell p = some a) (hq : map.cell q = some a) : q = p := by
  by_contra hne
  have hwrite := count_write hp a b
  rw [if_pos rfl, if_neg hb] at hwrite
  have hpos : 0 < (map.write p b).count a :=
    count_pos_iff.mpr ⟨q, by rw [cell_write_of_ne hp b hne]; exact hq⟩
  omega

end Counting

end Grid

end FortyTwo.Foundation
