import Mathlib.Data.Rat.Floor
import FortyTwo.Cub3d.Closure

/-!
`move.c` and the start position of `init.c`, with rational coordinates: the player's
box stays on the floor of an accepted map as long as no move is longer than the
half of the box.
-/

namespace FortyTwo.Cub3d

open Foundation

/-- `t_keys`, without the keys that only turn the player. -/
structure Keys where
  forward : Bool := false
  backward : Bool := false
  left : Bool := false
  right : Bool := false
  deriving DecidableEq, Repr

/-- `t_struct`, as far as a movement reads and writes it. -/
structure Mlx where
  playerX : ℚ
  playerY : ℚ
  dirX : ℚ := 0
  dirY : ℚ := 0
  planeX : ℚ := 0
  planeY : ℚ := 0
  playerOrient : Char := '\x00'
  moveSpeed : ℚ := 0
  key : Keys := {}
  deriving DecidableEq

def setWOrE (mlx : Mlx) : Mlx :=
  if mlx.playerOrient = 'E' ∨ mlx.playerOrient = 'W' then
    let mlx := { mlx with dirY := 0, planeX := 0 }
    if mlx.playerOrient = 'W' then { mlx with dirX := -1, planeY := -0.66 }
    else { mlx with dirX := 1, planeY := 0.66 }
  else mlx

def setNOrS (mlx : Mlx) : Mlx :=
  if mlx.playerOrient = 'N' ∨ mlx.playerOrient = 'S' then
    let mlx := { mlx with dirX := 0, planeY := 0 }
    if mlx.playerOrient = 'S' then { mlx with planeX := -0.66, dirY := 1 }
    else { mlx with dirY := -1, planeX := 0.66 }
  else mlx

/-- `MOVE_SPEED`. -/
def moveSpeed : ℚ := 0.05

def setUpPlayer (parse : Parse) : Mlx :=
  let mlx : Mlx :=
    { playerX := parse.x + 0.5, playerY := parse.y + 0.5, playerOrient := parse.dir }
  let mlx :=
    if mlx.playerOrient = 'N' ∨ mlx.playerOrient = 'S' then setNOrS mlx
    else if mlx.playerOrient = 'E' ∨ mlx.playerOrient = 'W' then setWOrE mlx
    else mlx
  { mlx with moveSpeed := moveSpeed, key := {} }

def isWall (map : Map) (x y : ℚ) : Except Stop Bool := do
  return (← readCell map ⟨⌊x⌋, ⌊y⌋⟩) == '1'

def canMove (map : Map) (mlx : Mlx) (newX newY : ℚ) : Except Stop Mlx := do
  let xMin := newX - 0.1
  let xMax := newX + 0.1
  let yMin := newY - 0.1
  let yMax := newY + 0.1
  if ← isWall map xMin yMin then return mlx
  if ← isWall map xMin yMax then return mlx
  if ← isWall map xMax yMin then return mlx
  if ← isWall map xMax yMax then return mlx
  return { mlx with playerX := newX, playerY := newY }

def moveLeftRight (map : Map) (mlx : Mlx) (newX newY : ℚ) : Except Stop Mlx :=
  let (newX, newY) :=
    if mlx.key.left then
      (newX - mlx.planeX * mlx.moveSpeed, newY - mlx.planeY * mlx.moveSpeed)
    else (newX, newY)
  let (newX, newY) :=
    if mlx.key.right then
      (newX + mlx.planeX * mlx.moveSpeed, newY + mlx.planeY * mlx.moveSpeed)
    else (newX, newY)
  canMove map mlx newX newY

def movement (map : Map) (mlx : Mlx) : Except Stop Mlx :=
  let (newX, newY) := (mlx.playerX, mlx.playerY)
  if mlx.key.left || mlx.key.right then moveLeftRight map mlx newX newY
  else
    let (newX, newY) :=
      if mlx.key.forward then
        (newX + mlx.dirX * mlx.moveSpeed, newY + mlx.dirY * mlx.moveSpeed)
      else (newX, newY)
    let (newX, newY) :=
      if mlx.key.backward then
        (newX - mlx.dirX * mlx.moveSpeed, newY - mlx.dirY * mlx.moveSpeed)
      else (newX, newY)
    canMove map mlx newX newY

/-- The keys that are down in a frame, and where the player looks: turning may set
that to anything. -/
structure Frame where
  key : Keys
  dirX : ℚ
  dirY : ℚ
  planeX : ℚ
  planeY : ℚ

def Mlx.inFrame (mlx : Mlx) (frame : Frame) : Mlx :=
  { mlx with
    key := frame.key
    dirX := frame.dirX
    dirY := frame.dirY
    planeX := frame.planeX
    planeY := frame.planeY }

/-- The movements of the frames, one after the other. -/
def play (map : Map) (frames : List Frame) (mlx : Mlx) : Except Stop Mlx :=
  frames.foldlM (fun mlx frame => movement map (mlx.inFrame frame)) mlx

/-- By how much the keys of a frame ask to move. -/
def Frame.displacement (frame : Frame) : ℚ × ℚ :=
  let (ahead, back, x, y) :=
    if frame.key.left || frame.key.right then
      (frame.key.right, frame.key.left, frame.planeX, frame.planeY)
    else (frame.key.forward, frame.key.backward, frame.dirX, frame.dirY)
  let times : ℚ := (if ahead then moveSpeed else 0) - (if back then moveSpeed else 0)
  (x * times, y * times)

theorem movement_eq (map : Map) (mlx : Mlx) (frame : Frame) (hspeed : mlx.moveSpeed = moveSpeed) :
    movement map (mlx.inFrame frame) = canMove map (mlx.inFrame frame)
      (mlx.playerX + frame.displacement.1) (mlx.playerY + frame.displacement.2) := by
  obtain ⟨⟨forward, backward, left, right⟩, dirX, dirY, planeX, planeY⟩ := frame
  cases left <;> cases right <;> cases forward <;> cases backward <;>
    simp [movement, moveLeftRight, Mlx.inFrame, Frame.displacement, hspeed] <;>
    congr 1 <;> ring

/-- All corners of the player's box are on the floor. -/
structure OnFloor (map : Map) (x y : ℚ) : Prop where
  minMin : map.cell ⟨⌊x - 0.1⌋, ⌊y - 0.1⌋⟩ = some '0'
  minMax : map.cell ⟨⌊x - 0.1⌋, ⌊y + 0.1⌋⟩ = some '0'
  maxMin : map.cell ⟨⌊x + 0.1⌋, ⌊y - 0.1⌋⟩ = some '0'
  maxMax : map.cell ⟨⌊x + 0.1⌋, ⌊y + 0.1⌋⟩ = some '0'

/-- The columns that the box covers after a short move: those it covered, or the
one it was in and the one beside that. -/
theorem floor_cases (x d : ℚ) (hd : |d| ≤ 0.1) :
    ((⌊x + d - 0.1⌋ = ⌊x - 0.1⌋ ∨ ⌊x + d - 0.1⌋ = ⌊x + 0.1⌋) ∧
        (⌊x + d + 0.1⌋ = ⌊x - 0.1⌋ ∨ ⌊x + d + 0.1⌋ = ⌊x + 0.1⌋)) ∨
      (⌊x + 0.1⌋ = ⌊x - 0.1⌋ ∧ ⌊x + d - 0.1⌋ = ⌊x - 0.1⌋ - 1 ∧ ⌊x + d + 0.1⌋ = ⌊x - 0.1⌋) ∨
      (⌊x + 0.1⌋ = ⌊x - 0.1⌋ ∧ ⌊x + d - 0.1⌋ = ⌊x - 0.1⌋ ∧ ⌊x + d + 0.1⌋ = ⌊x - 0.1⌋ + 1) := by
  obtain ⟨hlow, hhigh⟩ := abs_le.mp hd
  have h1 := Int.floor_le (x - 0.1)
  have h2 := Int.lt_floor_add_one (x - 0.1)
  have h3 := Int.floor_le (x + 0.1)
  have h4 := Int.lt_floor_add_one (x + 0.1)
  have h5 := Int.floor_le (x + d - 0.1)
  have h6 := Int.lt_floor_add_one (x + d - 0.1)
  have h7 := Int.floor_le (x + d + 0.1)
  have h8 := Int.lt_floor_add_one (x + d + 0.1)
  generalize ⌊x - 0.1⌋ = a at *
  generalize ⌊x + 0.1⌋ = b at *
  generalize ⌊x + d - 0.1⌋ = a' at *
  generalize ⌊x + d + 0.1⌋ = b' at *
  have hab : (a : ℚ) < b + 1 := by linarith
  have hba : (b : ℚ) < a + 2 := by linarith
  have ha'b : (a' : ℚ) < b + 1 := by linarith
  have hba' : (b : ℚ) < a' + 2 := by linarith
  have hab' : (a : ℚ) < b' + 1 := by linarith
  have hb'a : (b' : ℚ) < a + 2 := by linarith
  have hb'a' : (b' : ℚ) < a' + 2 := by linarith
  norm_cast at hab hba ha'b hba' hab' hb'a hb'a'
  omega

private theorem isWall_eq {map : Map} {x y : ℚ} {c : Char} (h : map.cell ⟨⌊x⌋, ⌊y⌋⟩ = some c) :
    isWall map x y = .ok (c == '1') := by
  rw [isWall, readCell_eq h]
  rfl

def FloorOrWall (map : Map) (p : Point) : Prop := map.cell p = some '0' ∨ map.cell p = some '1'

/-- The cells of the corners, in the order in which `can_move` tests them: each
one that is read is there, and when none is a wall they are all floor. -/
structure Tested (map : Map) (p₁ p₂ p₃ p₄ : Point) : Prop where
  first : ∃ c, map.cell p₁ = some c
  second : map.cell p₁ ≠ some '1' → FloorOrWall map p₂
  third : map.cell p₁ ≠ some '1' → map.cell p₂ = some '0' → FloorOrWall map p₃
  fourth : map.cell p₁ ≠ some '1' → map.cell p₂ = some '0' → map.cell p₃ = some '0' →
    FloorOrWall map p₄
  floor : map.cell p₁ ≠ some '1' → map.cell p₂ = some '0' → map.cell p₁ = some '0'

theorem canMove_tested {map : Map} {mlx : Mlx} {x y : ℚ}
    (h : Tested map ⟨⌊x - 0.1⌋, ⌊y - 0.1⌋⟩ ⟨⌊x - 0.1⌋, ⌊y + 0.1⌋⟩ ⟨⌊x + 0.1⌋, ⌊y - 0.1⌋⟩
      ⟨⌊x + 0.1⌋, ⌊y + 0.1⌋⟩) :
    canMove map mlx x y = .ok mlx ∨
      (canMove map mlx x y = .ok { mlx with playerX := x, playerY := y } ∧ OnFloor map x y) := by
  obtain ⟨c, hfirst⟩ := h.first
  rw [canMove, isWall_eq hfirst]
  by_cases hc : c = '1'
  · subst hc
    exact Or.inl rfl
  · have hopen : map.cell ⟨⌊x - 0.1⌋, ⌊y - 0.1⌋⟩ ≠ some '1' := by
      rw [hfirst, ne_eq, Option.some.injEq]
      exact hc
    have hgo : (c == '1') = false := by simpa using hc
    rw [hgo]
    rcases h.second hopen with hsecond | hsecond
    · rw [isWall_eq hsecond]
      rcases h.third hopen hsecond with hthird | hthird
      · rw [isWall_eq hthird]
        rcases h.fourth hopen hsecond hthird with hfourth | hfourth
        · rw [isWall_eq hfourth]
          exact Or.inr ⟨rfl, h.floor hopen hsecond, hsecond, hthird, hfourth⟩
        · rw [isWall_eq hfourth]
          exact Or.inl rfl
      · rw [isWall_eq hthird]
        exact Or.inl rfl
    · rw [isWall_eq hsecond]
      exact Or.inl rfl

private theorem tested_of_known {map : Map} {p₁ p₂ p₃ p₄ : Point} (h₁ : FloorOrWall map p₁)
    (h₂ : map.cell p₁ = some '0' → FloorOrWall map p₂)
    (h₃ : map.cell p₁ = some '0' → FloorOrWall map p₃)
    (h₄ : map.cell p₂ = some '0' → FloorOrWall map p₄) : Tested map p₁ p₂ p₃ p₄ where
  first := by
    rcases h₁ with h | h
    · exact ⟨_, h⟩
    · exact ⟨_, h⟩
  second hopen := h₂ (h₁.resolve_right hopen)
  third hopen _ := h₃ (h₁.resolve_right hopen)
  fourth _ hsecond _ := h₄ hsecond
  floor hopen _ := h₁.resolve_right hopen

private theorem cell_left {map : Map} {x y : Int} {c : Char} (h : map.cell ⟨x, y⟩ = some c)
    (hx : 0 ≤ x - 1) : ∃ d, map.cell ⟨x - 1, y⟩ = some d := by
  obtain ⟨-, hy, row, hrow, hcell⟩ := Grid.cell_eq_some_iff.mp h
  have hlt := (List.getElem?_eq_some_iff.mp hcell).1
  exact ⟨_, Grid.cell_eq_some_iff.mpr
    ⟨hx, hy, row, hrow, List.getElem?_eq_getElem (by simp only at hlt ⊢; omega)⟩⟩

section Corners

variable {parse : Parse} (hparse : Playable parse) {x y : Int}

include hparse

private theorem known_left (h : parse.map.cell ⟨x, y⟩ = some '0') :
    FloorOrWall parse.map ⟨x - 1, y⟩ := hparse.neighbour h (Or.inl rfl)

private theorem known_right (h : parse.map.cell ⟨x, y⟩ = some '0') :
    FloorOrWall parse.map ⟨x + 1, y⟩ := hparse.neighbour h (Or.inr (Or.inl rfl))

private theorem known_up (h : parse.map.cell ⟨x, y⟩ = some '0') :
    FloorOrWall parse.map ⟨x, y - 1⟩ := hparse.neighbour h (Or.inr (Or.inr (Or.inl rfl)))

private theorem known_down (h : parse.map.cell ⟨x, y⟩ = some '0') :
    FloorOrWall parse.map ⟨x, y + 1⟩ := hparse.neighbour h (Or.inr (Or.inr (Or.inr rfl)))

/-- The box in one cell goes to a corner of it. -/
private theorem tested_diagonal (h : parse.map.cell ⟨x, y⟩ = some '0') :
    Tested parse.map ⟨x - 1, y - 1⟩ ⟨x - 1, y⟩ ⟨x, y - 1⟩ ⟨x, y⟩ ∧
      Tested parse.map ⟨x - 1, y⟩ ⟨x - 1, y + 1⟩ ⟨x, y⟩ ⟨x, y + 1⟩ ∧
      Tested parse.map ⟨x, y - 1⟩ ⟨x, y⟩ ⟨x + 1, y - 1⟩ ⟨x + 1, y⟩ ∧
      Tested parse.map ⟨x, y⟩ ⟨x, y + 1⟩ ⟨x + 1, y⟩ ⟨x + 1, y + 1⟩ := by
  have hleft := known_left hparse h
  have hright := known_right hparse h
  have hup := known_up hparse h
  have hdown := known_down hparse h
  refine ⟨?_, tested_of_known hleft (known_down hparse) (fun _ => Or.inl h) fun _ => hdown,
    tested_of_known hup (fun _ => Or.inl h) (known_right hparse) fun _ => hright,
    tested_of_known (Or.inl h) (fun _ => hdown) (fun _ => hright) (known_right hparse)⟩
  -- here the corner comes first: its row and its column are there
  have hx : 0 ≤ x - 1 := by
    rcases hleft with hcell | hcell
    · exact (cell_bounds hcell).1
    · exact (cell_bounds hcell).1
  refine ⟨?_, fun _ => hleft, fun _ _ => hup, fun _ _ _ => Or.inl h, fun hopen hfloor => ?_⟩
  · rcases hup with hcell | hcell
    · exact cell_left hcell hx
    · exact cell_left hcell hx
  · exact (known_up hparse hfloor).resolve_right hopen

end Corners

/-- One axis of the corners of the box, before a move and after it. -/
private def Shifted (a b a' b' : Int) : Prop :=
  ((a' = a ∨ a' = b) ∧ (b' = a ∨ b' = b)) ∨ (b = a ∧ a' = a - 1 ∧ b' = a) ∨
    (b = a ∧ a' = a ∧ b' = a + 1)

private theorem tested_of_shifted {parse : Parse} (hparse : Playable parse)
    {a b c d a' b' c' d' : Int} (hac : parse.map.cell ⟨a, c⟩ = some '0')
    (had : parse.map.cell ⟨a, d⟩ = some '0') (hbc : parse.map.cell ⟨b, c⟩ = some '0')
    (hbd : parse.map.cell ⟨b, d⟩ = some '0') (hx : Shifted a b a' b') (hy : Shifted c d c' d') :
    Tested parse.map ⟨a', c'⟩ ⟨a', d'⟩ ⟨b', c'⟩ ⟨b', d'⟩ := by
  -- a column, and a row, that the box covered already
  have hcolumn : ∀ i, i = a ∨ i = b →
      parse.map.cell ⟨i, c⟩ = some '0' ∧ parse.map.cell ⟨i, d⟩ = some '0' := by
    rintro i (rfl | rfl)
    · exact ⟨hac, had⟩
    · exact ⟨hbc, hbd⟩
  have hboth : ∀ i j, (i = a ∨ i = b) → (j = c ∨ j = d) → parse.map.cell ⟨i, j⟩ = some '0' := by
    rintro i j hi (rfl | rfl)
    · exact (hcolumn i hi).1
    · exact (hcolumn i hi).2
  rcases hx with ⟨ha, hb⟩ | ⟨rfl, rfl, rfl⟩ | ⟨rfl, rfl, rfl⟩
  · rcases hy with ⟨hc, hd⟩ | ⟨rfl, rfl, rfl⟩ | ⟨rfl, rfl, rfl⟩
    · exact tested_of_known (Or.inl (hboth _ _ ha hc)) (fun _ => Or.inl (hboth _ _ ha hd))
        (fun _ => Or.inl (hboth _ _ hb hc)) fun _ => Or.inl (hboth _ _ hb hd)
    · have hleft := (hcolumn a' ha).1
      have hright := (hcolumn b' hb).1
      exact tested_of_known (known_up hparse hleft) (fun _ => Or.inl hleft)
        (fun _ => known_up hparse hright) fun _ => Or.inl hright
    · have hleft := (hcolumn a' ha).1
      have hright := (hcolumn b' hb).1
      exact tested_of_known (Or.inl hleft) (fun _ => known_down hparse hleft)
        (fun _ => Or.inl hright) fun _ => known_down hparse hright
  · rcases hy with ⟨hc, hd⟩ | ⟨rfl, rfl, rfl⟩ | ⟨rfl, rfl, rfl⟩
    · have hupper := hboth b' c' (Or.inl rfl) hc
      have hlower := hboth b' d' (Or.inl rfl) hd
      exact tested_of_known (known_left hparse hupper) (fun _ => known_left hparse hlower)
        (fun _ => Or.inl hupper) fun _ => Or.inl hlower
    · exact (tested_diagonal hparse hac).1
    · exact (tested_diagonal hparse hac).2.1
  · rcases hy with ⟨hc, hd⟩ | ⟨rfl, rfl, rfl⟩ | ⟨rfl, rfl, rfl⟩
    · have hupper := hboth a' c' (Or.inl rfl) hc
      have hlower := hboth a' d' (Or.inl rfl) hd
      exact tested_of_known (Or.inl hupper) (fun _ => Or.inl hlower)
        (fun _ => known_right hparse hupper) fun _ => known_right hparse hlower
    · exact (tested_diagonal hparse hac).2.2.1
    · exact (tested_diagonal hparse hac).2.2.2

/-- A short move reads cells of the map only, and leaves the box on the floor. -/
theorem canMove_onFloor {parse : Parse} (hparse : Playable parse) {mlx : Mlx} {x y dx dy : ℚ}
    (h : OnFloor parse.map x y) (hdx : |dx| ≤ 0.1) (hdy : |dy| ≤ 0.1) :
    canMove parse.map mlx (x + dx) (y + dy) = .ok mlx ∨
      (canMove parse.map mlx (x + dx) (y + dy) =
          .ok { mlx with playerX := x + dx, playerY := y + dy } ∧
        OnFloor parse.map (x + dx) (y + dy)) :=
  canMove_tested (tested_of_shifted hparse h.minMin h.minMax h.maxMin h.maxMax
    (floor_cases x dx hdx) (floor_cases y dy hdy))

private theorem onFloor_of_center {map : Map} {x y : Int}
    (h : map.cell ⟨x, y⟩ = some '0') : OnFloor map (x + 0.5) (y + 0.5) := by
  have hlow : ∀ n : Int, ⌊(n : ℚ) + 0.5 - 0.1⌋ = n := by
    intro n
    rw [Int.floor_eq_iff]
    constructor <;> linarith
  have hhigh : ∀ n : Int, ⌊(n : ℚ) + 0.5 + 0.1⌋ = n := by
    intro n
    rw [Int.floor_eq_iff]
    constructor <;> linarith
  constructor <;> simpa only [hlow, hhigh] using h

private theorem setUpPlayer_position (parse : Parse) :
    (setUpPlayer parse).playerX = parse.x + 0.5 ∧ (setUpPlayer parse).playerY = parse.y + 0.5 ∧
      (setUpPlayer parse).moveSpeed = moveSpeed := by
  simp only [setUpPlayer, setNOrS, setWOrE]
  split_ifs <;> exact ⟨rfl, rfl, trivial⟩

private theorem play_onFloor {parse : Parse} (hparse : Playable parse) {frames : List Frame}
    (hshort : ∀ frame ∈ frames, |frame.displacement.1| ≤ 0.1 ∧ |frame.displacement.2| ≤ 0.1)
    {mlx : Mlx} (hspeed : mlx.moveSpeed = moveSpeed)
    (hfloor : OnFloor parse.map mlx.playerX mlx.playerY) :
    ∃ final, play parse.map frames mlx = .ok final ∧
      OnFloor parse.map final.playerX final.playerY := by
  induction frames generalizing mlx with
  | nil => exact ⟨mlx, rfl, hfloor⟩
  | cons frame rest ih =>
      obtain ⟨hdx, hdy⟩ := hshort frame List.mem_cons_self
      have hrest : ∀ f ∈ rest, |f.displacement.1| ≤ 0.1 ∧ |f.displacement.2| ≤ 0.1 :=
        fun f hf => hshort f (List.mem_cons_of_mem _ hf)
      have hrun := movement_eq parse.map mlx frame hspeed
      rw [play, List.foldlM_cons, hrun]
      rcases canMove_onFloor hparse hfloor hdx hdy with hstay | ⟨hmove, hnew⟩
      · rw [hstay]
        exact ih hrest hspeed hfloor
      · rw [hmove]
        exact ih hrest hspeed hnew

/-- Whatever the keys ask for in frames that ask for short moves, all corners of the
player's box are on the floor behind them, and no cell was read that is not there. -/
theorem movement_onFloor {fuel : Nat} {map : Map} {parse : Parse}
    (hcheck : checkMap fuel map = .ok parse) {frames : List Frame}
    (hshort : ∀ frame ∈ frames, |frame.displacement.1| ≤ 0.1 ∧ |frame.displacement.2| ≤ 0.1) :
    ∃ mlx, play parse.map frames (setUpPlayer parse) = .ok mlx ∧
      OnFloor parse.map mlx.playerX mlx.playerY := by
  have hparse := playable_of_checkMap hcheck
  obtain ⟨hx, hy, hspeed⟩ := setUpPlayer_position parse
  apply play_onFloor hparse hshort hspeed
  rw [hx, hy]
  exact onFloor_of_center hparse.start

theorem movement_onFloor_ragged :
    ∃ mlx, play (findPlayer { map := ragged }).map
        [⟨{ forward := true }, 1, 1, 0, 0⟩, ⟨{ left := true }, 1, 0, 0, 1⟩]
        (setUpPlayer (findPlayer { map := ragged })) = .ok mlx ∧
      OnFloor (findPlayer { map := ragged }).map mlx.playerX mlx.playerY :=
  movement_onFloor checkMap_ragged (by
    intro frame hframe
    simp only [List.mem_cons, List.not_mem_nil, or_false] at hframe
    rcases hframe with rfl | rfl <;> norm_num [Frame.displacement, moveSpeed, abs_le])

end FortyTwo.Cub3d
