import FortyTwo.Cub3d.MapCheck

/-!
What the closure check accepts: the maps whose walkable cells have four neighbours
that are there and are no spaces.
-/

namespace FortyTwo.Cub3d

open Foundation

/-- The neighbours of a cell are in the map and hold no space. -/
def HasNeighbours (map : Map) (p : Point) : Prop :=
  ∀ q, p.Adjacent q → ∃ c, map.cell q = some c ∧ c ≠ ' '

/-- A cell that is on no side of the map nor of its row, with its neighbours. -/
structure EnclosedCell (map : Map) (p : Point) : Prop where
  rows : 0 < p.y ∧ p.y + 1 < map.length
  row : ∃ row, map[p.y.toNat]? = some row ∧ 0 < p.x ∧ p.x + 1 < row.length
  neighbours : HasNeighbours map p

def Closed (map : Map) : Prop :=
  ∀ p c, map.cell p = some c → isWalkable c → EnclosedCell map p

theorem cell_bounds {map : Map} {p : Point} {c : Char} (h : map.cell p = some c) :
    0 ≤ p.x ∧ 0 ≤ p.y ∧ p.y < map.length := by
  obtain ⟨hx, hy, row, hrow, -⟩ := Grid.cell_eq_some_iff.mp h
  have hlt := (List.getElem?_eq_some_iff.mp hrow).1
  omega

theorem enclosedCell_iff {map : Map} {p : Point} :
    EnclosedCell map p ↔ HasNeighbours map p := by
  refine ⟨EnclosedCell.neighbours, ?_⟩
  intro h
  obtain ⟨a, hup, -⟩ := h p.up (by simp [Point.Adjacent])
  obtain ⟨b, hdown, -⟩ := h p.down (by simp [Point.Adjacent])
  obtain ⟨c, hleft, -⟩ := h p.left (by simp [Point.Adjacent])
  obtain ⟨d, hright, -⟩ := h p.right (by simp [Point.Adjacent])
  have habove := cell_bounds hup
  have hbelow := cell_bounds hdown
  have hbefore := cell_bounds hleft
  obtain ⟨hx, hy, row, hrow, hbehind⟩ := Grid.cell_eq_some_iff.mp hright
  have hlt := (List.getElem?_eq_some_iff.mp hbehind).1
  simp only [Point.up, Point.down, Point.left, Point.right] at habove hbelow hbefore hx hrow hlt
  exact ⟨by omega, ⟨row, hrow, by omega, by omega⟩, h⟩

/-- The cells that `fill` goes on to, in its order. -/
def nextCells (p : Point) : List Point := [p.up, p.down, p.left, p.right]

theorem mem_nextCells {p q : Point} : q ∈ nextCells p ↔ p.Adjacent q := by
  simp only [nextCells, List.mem_cons, List.not_mem_nil, or_false, Point.Adjacent]
  tauto

/-- What `fill` does at a cell before it goes on. -/
private def fillCell (size : Point) (map : Map) (start : Point) : Except Stop (Option Map) := do
  if start.y < 0 ∨ start.y ≥ size.y ∨ start.x < 0 ∨ start.x ≥ size.x then return none
  let c ← readCell map start
  if isWalkable c then
    if start.y ≥ size.y - 1 ∨ start.y = 0 ∨ start.x = 0 ∨ start.x ≥ size.x - 1 then
      .error .notClosed
    else if !(← neighbour map size start) then .error .notClosed
    else return some (map.write start 'X')
  else return none

private theorem fill_eq_flood (fuel : Nat) (size start : Point) (map : Map) :
    fill fuel map size start =
      flood .outOfFuel (fillCell size) nextCells fuel map start := by
  induction fuel generalizing start map with
  | zero => rfl
  | succ fuel ih =>
      rw [fill, flood, fillCell]
      split
      · rfl
      · cases readCell map start with
        | error stop => rfl
        | ok c =>
            change (if _ then _ else _) = Except.bind (if _ then _ else _) _
            split
            · split
              · rfl
              · change (neighbour map size start >>= _) =
                  (neighbour map size start >>= _) >>= _
                cases neighbour map size start with
                | error stop => rfl
                | ok found =>
                    cases found with
                    | false => rfl
                    | true =>
                        change _ = (nextCells start).foldlM _ _
                        simp only [nextCells, List.foldlM_cons, List.foldlM_nil, ← ih, bind_pure]
                        rfl
            · rfl

theorem readCell_eq {map : Map} {p : Point} {c : Char} (h : map.cell p = some c) :
    readCell map p = .ok c := by
  rw [readCell, h]

private theorem checkForNull_eq {map : Map} {cs : List Point}
    (hcs : ∀ c ∈ cs, 0 ≤ c.x ∧ 0 ≤ c.y ∧ c.y < map.length) :
    ∃ found, checkForNull map cs = .ok found ∧
      (found = true ↔ ∀ c ∈ cs, ∃ d, map.cell c = some d) := by
  induction cs with
  | nil => exact ⟨true, rfl, by simp⟩
  | cons c rest ih =>
      obtain ⟨hx, hy, hlt⟩ := hcs c List.mem_cons_self
      obtain ⟨found, hrun, hfound⟩ := ih fun d hd => hcs d (List.mem_cons_of_mem _ hd)
      have hrow : map[c.y.toNat]? = some (map[c.y.toNat]) := List.getElem?_eq_getElem (by omega)
      have hlength : rowLength map c.y = .ok (map[c.y.toNat]).length := by
        rw [rowLength, if_neg (by omega), hrow]
      rw [checkForNull, hlength]
      by_cases hshort : c.x ≥ (map[c.y.toNat]).length
      · refine ⟨false, if_pos (Or.inl hshort), ?_⟩
        refine ⟨(fun h => by cases h), ?_⟩
        intro h
        obtain ⟨d, hd⟩ := h c List.mem_cons_self
        obtain ⟨-, -, row, hrow', hcell⟩ := Grid.cell_eq_some_iff.mp hd
        rw [hrow, Option.some.injEq] at hrow'
        have hin := (List.getElem?_eq_some_iff.mp hcell).1
        rw [← hrow'] at hin
        omega
      · refine ⟨found, (if_neg (not_or.mpr ⟨hshort, by omega⟩)).trans hrun, ?_⟩
        have hcell : ∃ d, map.cell c = some d :=
          ⟨_, Grid.cell_eq_some_iff.mpr ⟨hx, hy, _, hrow, List.getElem?_eq_getElem (by omega)⟩⟩
        rw [hfound, List.forall_mem_cons]
        exact ⟨fun h => ⟨hcell, h⟩, And.right⟩

private theorem neighboursFilled_eq {map : Map} {size : Point} {cs : List Point}
    (hsize : ∀ c ∈ cs, c.y ≥ 0 ∧ c.x ≥ 0 ∧ c.y < size.y ∧ c.x < size.x)
    (hcs : ∀ c ∈ cs, ∃ d, map.cell c = some d ∧ d ≠ '\x00') :
    ∃ found, neighboursFilled map size cs = .ok found ∧
      (found = true ↔ ∀ c ∈ cs, map.cell c ≠ some ' ') := by
  induction cs with
  | nil => exact ⟨true, rfl, by simp⟩
  | cons c rest ih =>
      obtain ⟨found, hrun, hfound⟩ := ih (fun d hd => hsize d (List.mem_cons_of_mem _ hd))
        fun d hd => hcs d (List.mem_cons_of_mem _ hd)
      obtain ⟨d, hd, hzero⟩ := hcs c List.mem_cons_self
      rw [neighboursFilled, if_pos (hsize c List.mem_cons_self), readCell_eq hd]
      by_cases hspace : d = ' '
      · refine ⟨false, if_pos (Or.inl hspace), (fun h => by cases h), ?_⟩
        intro h
        exact absurd (hspace ▸ hd) (h c List.mem_cons_self)
      · refine ⟨found, (if_neg (not_or.mpr ⟨hspace, hzero⟩)).trans hrun, ?_⟩
        rw [hfound, List.forall_mem_cons, hd, ne_eq, Option.some.injEq]
        exact ⟨fun h => ⟨hspace, h⟩, And.right⟩

/-- Away from the sides, `neighbour` runs through and tells what it should. -/
private theorem neighbour_eq {map : Map} {size p : Point} (hx : 0 < p.x) (hy : 0 < p.y)
    (hlt : p.y + 1 < map.length) (hsizey : size.y = map.length)
    (hsizex : ∀ q c, map.cell q = some c → q.x < size.x)
    (hzero : ∀ q c, map.cell q = some c → c ≠ '\x00') :
    ∃ found, neighbour map size p = .ok found ∧ (found = true ↔ HasNeighbours map p) := by
  have hcs : ∀ c ∈ nextCells p, 0 ≤ c.x ∧ 0 ≤ c.y ∧ c.y < map.length := by
    simp only [nextCells, List.forall_mem_cons, Point.up, Point.down, Point.left, Point.right]
    refine ⟨by omega, by omega, by omega, by omega, by simp⟩
  obtain ⟨there, hthere, hcells⟩ := checkForNull_eq hcs
  have hrun : neighbour map size p =
      if !there then .ok false else neighboursFilled map size (nextCells p) := by
    change (checkForNull map (nextCells p) >>= _) = _
    rw [hthere]
    rfl
  have hneighbours : HasNeighbours map p ↔
      ∀ c ∈ nextCells p, ∃ d, map.cell c = some d ∧ d ≠ ' ' := by
    simp only [HasNeighbours, mem_nextCells]
  rw [hrun, hneighbours]
  cases there with
  | false =>
      refine ⟨false, rfl, (fun h => by cases h), ?_⟩
      intro h
      apply hcells.mpr
      intro c hc
      obtain ⟨d, hd, -⟩ := h c hc
      exact ⟨d, hd⟩
  | true =>
      have hall := hcells.mp rfl
      have hsize : ∀ c ∈ nextCells p, c.y ≥ 0 ∧ c.x ≥ 0 ∧ c.y < size.y ∧ c.x < size.x := by
        intro c hc
        obtain ⟨d, hd⟩ := hall c hc
        have hbounds := hcs c hc
        exact ⟨by omega, by omega, by omega, hsizex c d hd⟩
      obtain ⟨found, hfilled, hfound⟩ := neighboursFilled_eq hsize fun c hc =>
        (hall c hc).imp fun d hd => ⟨hd, hzero c d hd⟩
      refine ⟨found, hfilled, hfound.trans ⟨fun h c hc => ?_, fun h c hc => ?_⟩⟩
      · obtain ⟨d, hd⟩ := hall c hc
        exact ⟨d, hd, fun hspace => h c hc (hspace ▸ hd)⟩
      · obtain ⟨d, hd, hspace⟩ := h c hc
        rw [hd, ne_eq, Option.some.injEq]
        exact hspace

/-- The walkable cells. -/
def walkable (map : Map) : Finset Point := (getCords map).toFinset

theorem mem_walkable {map : Map} {p : Point} :
    p ∈ walkable map ↔ ∃ c, map.cell p = some c ∧ isWalkable c := by
  simp only [walkable, getCords, List.mem_toFinset, List.mem_filter, Grid.mem_points]
  constructor
  · rintro ⟨⟨c, hc⟩, hwalk⟩
    rw [hc] at hwalk
    exact ⟨c, hc, hwalk⟩
  · rintro ⟨c, hc, hwalk⟩
    refine ⟨⟨c, hc⟩, ?_⟩
    rw [hc]
    exact hwalk

/-- The cells of a map lie within the size of the flood. -/
structure Sized (map : Map) (size : Point) : Prop where
  y : size.y = map.length
  x : ∀ {q c}, map.cell q = some c → q.x + 1 < size.x
  no_zero : ∀ {q c}, map.cell q = some c → c ≠ '\x00'

/-- A marked cell is no space, and no other cell has become one or ceased to be one. -/
private theorem hasNeighbours_marked {map marked : Map} {M : Set Point}
    (h : Grid.Marked 'X' map marked M) (hM : M ⊆ walkable map) (p : Point) :
    HasNeighbours marked p ↔ HasNeighbours map p := by
  apply forall_congr'
  intro q
  apply imp_congr_right
  intro _
  by_cases hq : q ∈ M
  · obtain ⟨c, hc, hwalk⟩ := mem_walkable.mp (hM hq)
    rw [h.marked hq, hc]
    have hspace : c ≠ ' ' := by
      rintro rfl
      exact absurd hwalk (by decide)
    simp [hspace]
  · rw [h.kept hq]

private theorem fillCell_of_cell {map : Map} {size p : Point} {c : Char} (hsize : Sized map size)
    (hc : map.cell p = some c) :
    (isWalkable c = false → fillCell size map p = .ok none) ∧
      (isWalkable c = true → HasNeighbours map p →
        fillCell size map p = .ok (some (map.write p 'X'))) ∧
      (isWalkable c = true → ¬ HasNeighbours map p → fillCell size map p = .error .notClosed) := by
  obtain ⟨hx, hy, hlt⟩ := cell_bounds hc
  have hxlt := hsize.x hc
  have hylt := hsize.y
  have hread : fillCell size map p = if isWalkable c then
      if p.y ≥ size.y - 1 ∨ p.y = 0 ∨ p.x = 0 ∨ p.x ≥ size.x - 1 then .error .notClosed
      else neighbour map size p >>= fun found =>
        if !found then .error .notClosed else .ok (some (map.write p 'X'))
    else .ok none := by
    rw [fillCell, if_neg (by omega), readCell_eq hc]
    rfl
  rw [hread]
  by_cases hside : p.y ≥ size.y - 1 ∨ p.y = 0 ∨ p.x = 0 ∨ p.x ≥ size.x - 1
  · have hno : ¬ HasNeighbours map p := by
      intro h
      have henclosed := enclosedCell_iff.mpr h
      obtain ⟨row, -, hleft, -⟩ := henclosed.row
      have hrows := henclosed.rows
      omega
    refine ⟨fun hwalk => ?_, fun _ h => absurd h hno, fun hwalk _ => ?_⟩
    · rw [if_neg (by simp [hwalk])]
    · rw [if_pos hwalk, if_pos hside]
  · obtain ⟨found, hrun, hfound⟩ : ∃ found, neighbour map size p = .ok found ∧
        (found = true ↔ HasNeighbours map p) :=
      neighbour_eq (by omega) (by omega) (by omega) hylt
        (fun q d hq => (lt_add_one q.x).trans (hsize.x hq)) fun q d hq => hsize.no_zero hq
    rw [if_neg hside, hrun]
    refine ⟨fun hwalk => ?_, fun hwalk h => ?_, fun hwalk h => ?_⟩
    · rw [if_neg (by simp [hwalk])]
    · rw [if_pos hwalk, hfound.mpr h]
      rfl
    · have hfalse : found = false := by
        cases found with
        | false => rfl
        | true => exact absurd (hfound.mp rfl) h
      rw [if_pos hwalk, hfalse]
      rfl

private theorem sized_marked {map marked : Map} {size : Point} {M : Set Point}
    (hsize : Sized map size) (h : Grid.Marked 'X' map marked M) (hM : M ⊆ walkable map) :
    Sized marked size where
  y := by rw [hsize.y, h.length]
  x {q c} hq := by
    by_cases hmem : q ∈ M
    · obtain ⟨d, hd, -⟩ := mem_walkable.mp (hM hmem)
      exact hsize.x hd
    · exact hsize.x ((h.kept hmem).symm.trans hq)
  no_zero {q c} hq := by
    by_cases hmem : q ∈ M
    · rw [h.marked hmem, Option.some.injEq] at hq
      exact hq ▸ by decide
    · exact hsize.no_zero ((h.kept hmem).symm.trans hq)

private theorem fillCell_visits {map : Map} {size : Point} (hsize : Sized map size) :
    Visits (fillCell size) nextCells Stop.notClosed (walkable map) (HasNeighbours map)
      (fun p => ∃ c, map.cell p = some c)
      (fun marked M => Grid.Marked 'X' map marked M ∧ M ⊆ walkable map) where
  skip {marked M p} hmap hread hskip := by
    have hsize' := sized_marked hsize hmap.1 hmap.2
    by_cases hp : p ∈ M
    · exact (fillCell_of_cell hsize' (hmap.1.marked hp)).1 (by decide)
    · obtain ⟨c, hc⟩ := hread
      apply (fillCell_of_cell hsize' ((hmap.1.kept hp).trans hc)).1
      rw [Bool.eq_false_iff]
      exact fun hwalk => hskip.elim (fun hout => hout (mem_walkable.mpr ⟨c, hc, hwalk⟩)) hp
  mark {marked M p} hmap hp hnew hgood := by
    have hsize' := sized_marked hsize hmap.1 hmap.2
    obtain ⟨c, hc, hwalk⟩ := mem_walkable.mp hp
    have hcell := (hmap.1.kept hnew).trans hc
    refine ⟨marked.write p 'X', ?_, hmap.1.write hcell, Set.insert_subset hp hmap.2⟩
    exact (fillCell_of_cell hsize' hcell).2.1 hwalk
      ((hasNeighbours_marked hmap.1 hmap.2 p).mpr hgood)
  stop {marked M p} hmap hp hnew hbad := by
    have hsize' := sized_marked hsize hmap.1 hmap.2
    obtain ⟨c, hc, hwalk⟩ := mem_walkable.mp hp
    exact (fillCell_of_cell hsize' ((hmap.1.kept hnew).trans hc)).2.2 hwalk
      fun h => hbad ((hasNeighbours_marked hmap.1 hmap.2 p).mp h)
  readable {p q} _ hgood hq := by
    obtain ⟨c, hc, -⟩ := hgood q (mem_nextCells.mp hq)
    exact ⟨c, hc⟩

theorem closed_iff {map : Map} : Closed map ↔ ∀ p ∈ walkable map, HasNeighbours map p := by
  constructor
  · intro h p hp
    obtain ⟨c, hc, hwalk⟩ := mem_walkable.mp hp
    exact (h p c hc hwalk).neighbours
  · exact fun h p c hc hwalk => enclosedCell_iff.mpr (h p (mem_walkable.mpr ⟨c, hc, hwalk⟩))

private theorem fillLoop_eq (fuel : Nat) (size : Point) (map : Map) :
    fillLoop fuel size (getCords map) map =
      (getCords map).foldlM (flood .outOfFuel (fillCell size) nextCells fuel) map := by
  simp only [fillLoop, fill_eq_flood]

/-- The flood runs through a closed map, and stops at a cell that is not enclosed
in any other. -/
theorem fillLoop_cases {map : Map} {size : Point} (hsize : Sized map size) {fuel : Nat}
    (hfuel : (walkable map).card < fuel) :
    ((∃ marked, fillLoop fuel size (getCords map) map = .ok marked) ∧ Closed map) ∨
      (fillLoop fuel size (getCords map) map = .error .notClosed ∧ ¬ Closed map) := by
  have hroots : ∀ p ∈ getCords map, ∃ c, map.cell p = some c := fun p hp => by
    obtain ⟨c, hc, -⟩ := mem_walkable.mp (List.mem_toFinset.mpr hp)
    exact ⟨c, hc⟩
  have hrun : Searched nextCells (walkable map) (HasNeighbours map) _ Stop.notClosed ∅
      (getCords map) ((getCords map).foldlM (flood .outOfFuel (fillCell size) nextCells fuel) map) :=
    floodAll_searched (fillCell_visits hsize) fuel hfuel (getCords map) hroots map
      ⟨Grid.Marked.start 'X' map, Set.empty_subset _⟩
  rw [fillLoop_eq, closed_iff]
  rcases hrun with ⟨marked, M, hmarked, -, hflooded⟩ | ⟨hstop, p, hp, hbad⟩
  · refine Or.inl ⟨⟨marked, hmarked⟩, fun p hp => ?_⟩
    have hroot := hflooded.root (List.mem_toFinset.mp hp) hp
    exact (hflooded.new hroot (Set.notMem_empty p)).2.1
  · exact Or.inr ⟨hstop, fun h => hbad (h p hp)⟩

theorem closed_of_fillLoop {map marked : Map} {size : Point} (hsize : Sized map size) {fuel : Nat}
    (h : fillLoop fuel size (getCords map) map = .ok marked) : Closed map := by
  have hmore : fillLoop (max fuel ((walkable map).card + 1)) size (getCords map) map =
      .ok marked := by
    rw [fillLoop_eq] at h ⊢
    exact floodAll_mono (le_max_left _ _) _ _ _ h
  rcases fillLoop_cases hsize (Nat.lt_of_succ_le (le_max_right fuel _)) with
    ⟨-, hclosed⟩ | ⟨hstop, -⟩
  · exact hclosed
  · rw [hmore] at hstop
    cases hstop

/-- `find_player` at one cell. -/
def floorOf (c : Char) : Char := if c ≠ '0' ∧ c ≠ '1' ∧ c ≠ ' ' then '0' else c

private theorem findPlayerInRow_row (i j : Int) (row : Str) (parse : Parse) :
    (findPlayerInRow i j row parse).1 = row.map floorOf := by
  induction row generalizing j parse with
  | nil => rfl
  | cons c rest ih =>
      rw [findPlayerInRow, List.map_cons, floorOf]
      split
      · exact congrArg _ (ih _ _)
      · exact congrArg _ (ih _ _)

private theorem findPlayerInRows_rows (i : Int) (rows : Map) (parse : Parse) :
    (findPlayerInRows i rows parse).1 = rows.map (List.map floorOf) := by
  induction rows generalizing i parse with
  | nil => rfl
  | cons row rest ih =>
      rw [List.map_cons, ← findPlayerInRow_row i 0 row parse, ← ih (i + 1)]
      rfl

theorem findPlayer_map (parse : Parse) :
    (findPlayer parse).map = parse.map.map (List.map floorOf) :=
  findPlayerInRows_rows 0 parse.map parse

theorem isMapChar_of_checkMapChars {map : Map} (h : checkMapChars map = .ok ()) {p : Point}
    {c : Char} (hc : map.cell p = some c) : isMapChar c := by
  obtain ⟨-, -, row, hrow, hcell⟩ := Grid.cell_eq_some_iff.mp hc
  rw [checkMapChars] at h
  split at h
  · cases h
  · next hall =>
      rw [Bool.not_eq_false, List.all_eq_true] at hall
      exact List.all_eq_true.mp (hall row (List.mem_of_getElem? hrow)) c
        (List.mem_of_getElem? hcell)

private theorem floorOf_cases {c : Char} (h : isMapChar c) :
    (floorOf c = '0' ∧ isWalkable c) ∨ (floorOf c = c ∧ (c = '1' ∨ c = ' ')) := by
  simp only [isMapChar, isPlayer, Bool.or_eq_true, beq_iff_eq] at h
  rcases h with ((rfl | rfl) | ((rfl | rfl) | rfl) | rfl) | rfl
  · exact Or.inl ⟨rfl, rfl⟩
  · exact Or.inr ⟨rfl, Or.inl rfl⟩
  · exact Or.inl ⟨rfl, rfl⟩
  · exact Or.inl ⟨rfl, rfl⟩
  · exact Or.inl ⟨rfl, rfl⟩
  · exact Or.inl ⟨rfl, rfl⟩
  · exact Or.inr ⟨rfl, Or.inr rfl⟩

theorem isWalkable_floorOf {c : Char} (h : isMapChar c) : isWalkable (floorOf c) = isWalkable c := by
  rcases floorOf_cases h with ⟨hfloor, hwalk⟩ | ⟨hfloor, -⟩
  · rw [hfloor, hwalk]
    rfl
  · rw [hfloor]

theorem floorOf_ne_space {c : Char} (h : isMapChar c) : floorOf c ≠ ' ' ↔ c ≠ ' ' := by
  rcases floorOf_cases h with ⟨hfloor, hwalk⟩ | ⟨hfloor, -⟩
  · rw [hfloor]
    apply iff_of_true (by decide)
    rintro rfl
    exact absurd hwalk (by decide)
  · rw [hfloor]

/-- The floor under the player changes nothing of what is enclosed. -/
theorem closed_floor {map : Map} (h : ∀ {p c}, map.cell p = some c → isMapChar c) :
    Closed (map.map (List.map floorOf)) ↔ Closed map := by
  have hneighbours : ∀ p, HasNeighbours (map.map (List.map floorOf)) p ↔ HasNeighbours map p := by
    refine fun p => forall_congr' fun q => imp_congr_right fun _ => ?_
    rw [Grid.cell_map]
    cases hc : map.cell q with
    | none => simp
    | some c => simpa using floorOf_ne_space (h hc)
  have hwalkable : ∀ p, p ∈ walkable (map.map (List.map floorOf)) ↔ p ∈ walkable map := by
    intro p
    rw [mem_walkable, mem_walkable, Grid.cell_map]
    cases hc : map.cell p with
    | none => simp
    | some c => simp [isWalkable_floorOf (h hc)]
  simp only [closed_iff, hneighbours, hwalkable]

private theorem le_foldl_max (lengths : List Nat) (start : Nat) :
    start ≤ lengths.foldl max start ∧ ∀ n ∈ lengths, n ≤ lengths.foldl max start := by
  induction lengths generalizing start with
  | nil => exact ⟨le_rfl, by simp⟩
  | cons first rest ih =>
      obtain ⟨hstart, hrest⟩ := ih (max start first)
      rw [List.foldl_cons]
      exact ⟨(le_max_left _ _).trans hstart,
        List.forall_mem_cons.mpr ⟨(le_max_right _ _).trans hstart, hrest⟩⟩

private theorem foldl_max_le {lengths : List Nat} {bound : Nat} (h : ∀ n ∈ lengths, n ≤ bound)
    {start : Nat} (hstart : start ≤ bound) : lengths.foldl max start ≤ bound := by
  induction lengths generalizing start with
  | nil => exact hstart
  | cons first rest ih =>
      exact ih (fun n hn => h n (List.mem_cons_of_mem _ hn))
        (max_le hstart (h first List.mem_cons_self))

theorem exists_getWH {map : Map} (hwidth : ∀ row ∈ map, row.length ≤ 1024) :
    ∃ size, getWH map = .ok size := by
  have hle : (map.map List.length).foldl max 0 ≤ 1024 :=
    foldl_max_le (List.forall_mem_map.mpr hwidth) (Nat.zero_le _)
  exact ⟨_, if_neg (by omega)⟩

theorem sized_of_getWH {map : Map} {size : Point} (h : getWH map = .ok size)
    (hzero : ∀ {q c}, map.cell q = some c → c ≠ '\x00') : Sized map size := by
  simp only [getWH] at h
  split at h
  · cases h
  · cases h
    refine ⟨rfl, ?_, hzero⟩
    intro q c hq
    obtain ⟨hx, -, row, hrow, hcell⟩ := Grid.cell_eq_some_iff.mp hq
    have hlt := (List.getElem?_eq_some_iff.mp hcell).1
    have hmax := (le_foldl_max (map.map List.length) 0).2 row.length
      (List.mem_map_of_mem (List.mem_of_getElem? hrow))
    simp only
    omega

/-- The map with floor under the player holds three characters. -/
theorem tile_findPlayer {map : Map} (hchars : checkMapChars map = .ok ()) {p : Point} {c : Char}
    (hc : (findPlayer { map }).map.cell p = some c) : c = '0' ∨ c = '1' ∨ c = ' ' := by
  rw [findPlayer_map, Grid.cell_map, Option.map_eq_some_iff] at hc
  obtain ⟨d, hd, rfl⟩ := hc
  rcases floorOf_cases (isMapChar_of_checkMapChars hchars hd) with ⟨hzero, -⟩ | ⟨hsame, hd⟩
  · exact Or.inl hzero
  · rw [hsame]
    exact Or.inr hd

theorem sized_findPlayer {map : Map} (hchars : checkMapChars map = .ok ()) {size : Point}
    (h : getWH (findPlayer { map }).map = .ok size) : Sized (findPlayer { map }).map size := by
  refine sized_of_getWH h fun hc => ?_
  rcases tile_findPlayer hchars hc with rfl | rfl | rfl <;> decide

/-- Whatever the lengths of its rows, a map of the right characters is read in its
cells only, the check of it ends, and it is accepted exactly when each walkable
cell of it is enclosed. -/
theorem initFlood_iff_closed {map : Map} (hwidth : ∀ row ∈ map, row.length ≤ 1024)
    (hchars : checkMapChars map = .ok ()) :
    ∃ enough, ∀ fuel, enough ≤ fuel →
      (initFlood fuel (findPlayer { map }) = .ok () ↔ Closed map) ∧
      (initFlood fuel (findPlayer { map }) = .error (.exit "Map is not closed") ↔
        ¬ Closed map) := by
  have hwidth' : ∀ row ∈ (findPlayer { map }).map, row.length ≤ 1024 := by
    rw [findPlayer_map]
    simpa using hwidth
  have hfloor : Closed (findPlayer { map }).map ↔ Closed map := by
    rw [findPlayer_map]
    exact closed_floor fun hc => isMapChar_of_checkMapChars hchars hc
  obtain ⟨size, hgetWH⟩ := exists_getWH hwidth'
  refine ⟨(walkable (findPlayer { map }).map).card + 1, ?_⟩
  intro fuel hfuel
  rw [← hfloor]
  rcases fillLoop_cases (sized_findPlayer hchars hgetWH) (Nat.lt_of_succ_le hfuel) with
    ⟨⟨marked, hmarked⟩, hclosed⟩ | ⟨hstop, hopen⟩
  · simp [initFlood, hgetWH, bind, Except.bind, hmarked, hclosed]
  · simp [initFlood, hgetWH, bind, Except.bind, hstop, hopen]

def ragged : Map := ["111111", "1N0001", "100111", "1111"].map String.toList

theorem initFlood_iff_closed_ragged :
    ∃ enough, ∀ fuel, enough ≤ fuel →
      (initFlood fuel (findPlayer { map := ragged }) = .ok () ↔ Closed ragged) ∧
      (initFlood fuel (findPlayer { map := ragged }) = .error (.exit "Map is not closed") ↔
        ¬ Closed ragged) :=
  initFlood_iff_closed (by decide +kernel) (by decide +kernel)

/-- A map that the game runs on: floor cells have neighbours, and the player's cell
is floor. -/
structure Playable (parse : Parse) : Prop where
  tile : ∀ {p c}, parse.map.cell p = some c → c = '0' ∨ c = '1' ∨ c = ' '
  enclosed : ∀ {p}, parse.map.cell p = some '0' → HasNeighbours parse.map p
  start : parse.map.cell ⟨parse.x, parse.y⟩ = some '0'

/-- A neighbour of a floor cell is floor or wall. -/
theorem Playable.neighbour {parse : Parse} (h : Playable parse) {p q : Point}
    (hp : parse.map.cell p = some '0') (hq : p.Adjacent q) :
    parse.map.cell q = some '0' ∨ parse.map.cell q = some '1' := by
  obtain ⟨c, hc, hspace⟩ := h.enclosed hp q hq
  rw [hc]
  rcases h.tile hc with rfl | rfl | rfl
  · exact Or.inl rfl
  · exact Or.inr rfl
  · exact absurd rfl hspace

/-- Where a player was found, from the column `j` of the row `i` on. -/
private theorem findPlayerInRow_position (i j : Int) (row : Str) (parse : Parse) :
    ((findPlayerInRow i j row parse).2 = parse ∧ ∀ c ∈ row, ¬ (c ≠ '0' ∧ c ≠ '1' ∧ c ≠ ' ')) ∨
      ∃ (k : Nat) (c : Char), row[k]? = some c ∧ (c ≠ '0' ∧ c ≠ '1' ∧ c ≠ ' ') ∧
        (findPlayerInRow i j row parse).2.x = j + k ∧
        (findPlayerInRow i j row parse).2.y = i := by
  induction row generalizing j parse with
  | nil => exact Or.inl ⟨rfl, by simp⟩
  | cons c rest ih =>
      rw [findPlayerInRow]
      split
      · next hc =>
          rcases ih (j + 1) { parse with dir := c, x := j, y := i } with
            ⟨hsame, -⟩ | ⟨k, d, hk, hd, hx, hy⟩
          · refine Or.inr ⟨0, c, rfl, hc, ?_, ?_⟩
            · simp only [hsame]
              simp
            · simp only [hsame]
          · refine Or.inr ⟨k + 1, d, hk, hd, ?_, hy⟩
            simp only [hx]
            push_cast
            ring
      · next hc =>
          rcases ih (j + 1) parse with ⟨hsame, hnone⟩ | ⟨k, d, hk, hd, hx, hy⟩
          · exact Or.inl ⟨hsame, List.forall_mem_cons.mpr ⟨hc, hnone⟩⟩
          · refine Or.inr ⟨k + 1, d, hk, hd, ?_, hy⟩
            simp only [hx]
            push_cast
            ring

private theorem findPlayerInRows_position (i : Int) (rows : Map) (parse : Parse) :
    ((findPlayerInRows i rows parse).2 = parse ∧
      ∀ row ∈ rows, ∀ c ∈ row, ¬ (c ≠ '0' ∧ c ≠ '1' ∧ c ≠ ' ')) ∨
    ∃ (r k : Nat) (row : Str) (c : Char), rows[r]? = some row ∧ row[k]? = some c ∧
      (c ≠ '0' ∧ c ≠ '1' ∧ c ≠ ' ') ∧ (findPlayerInRows i rows parse).2.x = k ∧
      (findPlayerInRows i rows parse).2.y = i + r := by
  induction rows generalizing i parse with
  | nil => exact Or.inl ⟨rfl, by simp⟩
  | cons row rest ih =>
      rw [findPlayerInRows]
      rcases ih (i + 1) (findPlayerInRow i 0 row parse).2 with
        ⟨hsame, hnone⟩ | ⟨r, k, found, c, hr, hk, hc, hx, hy⟩
      · rcases findPlayerInRow_position i 0 row parse with
          ⟨hkeep, hrow⟩ | ⟨k, c, hk, hc, hx, hy⟩
        · exact Or.inl ⟨hsame.trans hkeep, List.forall_mem_cons.mpr ⟨hrow, hnone⟩⟩
        · refine Or.inr ⟨0, k, row, c, rfl, hk, hc, ?_, ?_⟩
          · simp only [hsame, hx]
            simp
          · simp only [hsame, hy]
            simp
      · refine Or.inr ⟨r + 1, k, found, c, hr, hk, hc, hx, ?_⟩
        simp only [hy]
        push_cast
        ring

private theorem start_of_checkMapChars {map : Map} (h : checkMapChars map = .ok ()) :
    (findPlayer { map }).map.cell ⟨(findPlayer { map }).x, (findPlayer { map }).y⟩ =
      some '0' := by
  rw [findPlayer_map, Grid.cell_map]
  rcases findPlayerInRows_position 0 map { map } with
    ⟨-, hnone⟩ | ⟨r, k, row, c, hr, hk, hc, hx, hy⟩
  · exfalso
    have hcount : (map.map (List.countP isPlayer)).sum = 0 := by
      apply List.sum_eq_zero
      intro n hn
      obtain ⟨row, hrow, rfl⟩ := List.mem_map.mp hn
      apply List.countP_eq_zero.mpr
      intro c hc hplayer
      apply hnone row hrow c hc
      simp only [isPlayer, Bool.or_eq_true, beq_iff_eq] at hplayer
      rcases hplayer with ((rfl | rfl) | rfl) | rfl <;> decide
    rw [checkMapChars] at h
    split at h
    · cases h
    · rw [checkCount, hcount] at h
      cases h
  · change Option.map floorOf (map.cell ⟨(findPlayerInRows 0 map { map }).2.x,
      (findPlayerInRows 0 map { map }).2.y⟩) = _
    have hcell : map.cell ⟨(k : Int), 0 + (r : Int)⟩ = some c :=
      Grid.cell_eq_some_iff.mpr ⟨by simp, by simp, row, by simpa using hr, by simpa using hk⟩
    rw [hx, hy, hcell, Option.map_some, floorOf, if_pos hc]

theorem closed_of_initFlood {map : Map} (hchars : checkMapChars map = .ok ()) {fuel : Nat}
    (h : initFlood fuel (findPlayer { map }) = .ok ()) : Closed (findPlayer { map }).map := by
  rw [initFlood] at h
  cases hgetWH : getWH (findPlayer { map }).map with
  | error stop =>
      rw [hgetWH] at h
      cases h
  | ok size =>
      rw [hgetWH] at h
      cases hloop : fillLoop fuel size (getCords (findPlayer { map }).map)
          (findPlayer { map }).map with
      | ok marked => exact closed_of_fillLoop (sized_findPlayer hchars hgetWH) hloop
      | error stop =>
          simp only [bind, Except.bind, hloop] at h
          cases stop <;> cases h

/-- A map that passes all checks. -/
theorem playable_of_checkMap {fuel : Nat} {map : Map} {parse : Parse}
    (h : checkMap fuel map = .ok parse) : Playable parse := by
  rw [checkMap] at h
  split at h
  · cases h
  · cases hchars : checkMapChars map with
    | error stop =>
        rw [hchars] at h
        cases h
    | ok _ =>
        rw [hchars] at h
        change (initFlood fuel (findPlayer { map }) >>= fun _ => _) = _ at h
        cases hflood : initFlood fuel (findPlayer { map }) with
        | error stop =>
            rw [hflood] at h
            cases h
        | ok _ =>
            rw [hflood] at h
            cases h
            have hclosed := closed_of_initFlood hchars hflood
            refine ⟨fun hc => tile_findPlayer hchars hc, fun hp => ?_,
              start_of_checkMapChars hchars⟩
            exact (hclosed _ _ hp (by decide)).neighbours

theorem checkMap_ragged : checkMap 20 ragged = .ok (findPlayer { map := ragged }) := by
  decide +kernel

end FortyTwo.Cub3d
