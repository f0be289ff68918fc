import FortyTwo.SoLong.Winnability

/-!
The maps that `check_map` accepts, by their rows: what each of the tests before the flood
fill asks of the rows, and that the fill itself stays within them.
-/

namespace FortyTwo.SoLong

open Foundation

/-- The rows of the map, as the checks leave them. -/
def rowsOf (lines : List MapLine) : Map := lines.map fun line => strtrim line.data

/-- A wall runs around the rows, and they hold one player, one exit and something to
collect. -/
structure WellFormed (rows : Map) : Prop where
  many : 2 < rows.length
  rectangular : ∀ row ∈ rows, ∀ other ∈ rows, other.length = row.length
  top : ∀ row ∈ rows.head?, ∀ c ∈ row, c = '1'
  bottom : ∀ row ∈ rows.getLast?, ∀ c ∈ row, c = '1'
  sides : ∀ row ∈ rows, row.head? = some '1' ∧ row.getLast? = some '1'
  tile : ∀ row ∈ rows, ∀ c ∈ row, IsTile c
  player : rows.count 'P' = 1
  exit : rows.count 'E' = 1
  collectible : 1 ≤ rows.count 'C'

/-- The player is connected to the exit and to everything that is to be collected. -/
def Connected (rows : Map) : Prop :=
  ∀ p q, rows.cell p = some 'P' → rows.cell q = some 'C' ∨ rows.cell q = some 'E' →
    Reaches nextCells (freeCells rows) p q

/-- The tests of `check_map` before the flood fill. -/
def PassesTests (lines : List MapLine) (chars : MapChars) : Prop :=
  2 < lines.length ∧ (mapIsRectangular lines).1 = true ∧
    (mapIsValid (mapIsRectangular lines).2 chars).1 = true

section Tests

theorem sameLengths_of {prior : Int} {map : List MapLine}
    (hprior : prior ≠ -1 → ∀ row ∈ fillArray map, (row.length : Int) = prior)
    (hsame : ∀ row ∈ fillArray map, ∀ other ∈ fillArray map, other.length = row.length) :
    sameLengths prior map = true := by
  induction map generalizing prior with
  | nil => rfl
  | cons temp rest ih =>
      have hfirst : temp.data ∈ fillArray (temp :: rest) := List.mem_cons_self
      have hlater : ∀ row ∈ fillArray rest, row ∈ fillArray (temp :: rest) :=
        fun row hrow => List.mem_cons_of_mem _ hrow
      rw [sameLengths, if_neg]
      · apply ih
        · intro _ row hrow
          exact_mod_cast hsame _ hfirst row (hlater row hrow)
        · exact fun row hrow other hother => hsame row (hlater row hrow) other (hlater other hother)
      · rintro ⟨hne, hdiff⟩
        exact hdiff (hprior hne _ hfirst).symm

theorem sameLengths_iff {map : List MapLine} : sameLengths (-1) map = true ↔
    ∀ row ∈ fillArray map, ∀ other ∈ fillArray map, other.length = row.length := by
  constructor
  · exact fun h row hrow => (length_of_sameLengths h hrow).2
  · exact fun h => sameLengths_of (fun hne => absurd rfl hne) h

theorem allWalls_iff {data : Str} : allWalls data = true ↔ ∀ c ∈ data, c = '1' := by
  simp [allWalls]

private theorem getD_eq_wall {row : Str} {k : Nat} :
    row.getD k '\x00' = '1' ↔ row[k]? = some '1' := by
  constructor
  · exact getElem?_of_getD
  · intro h
    rw [List.getD_eq_getElem?_getD, h, Option.getD_some]

theorem sidesClosed_iff {map : List MapLine}
    (hlen : ∀ temp ∈ map, temp.len = temp.data.length) :
    sidesClosed map = true ↔
      (∀ row ∈ (fillArray map).dropLast, row.head? = some '1' ∧ row.getLast? = some '1') ∧
        ∀ row ∈ (fillArray map).getLast?, ∀ c ∈ row, c = '1' := by
  induction map with
  | nil => simp [sidesClosed, fillArray]
  | cons temp rest ih =>
      cases rest with
      | nil => simp [sidesClosed, fillArray, allWalls]
      | cons following rest =>
          have hrest := ih fun t ht => hlen t (List.mem_cons_of_mem _ ht)
          have hends : (temp.data.getD 0 '\x00' ≠ '1' ∨
              temp.data.getD (temp.len - 1) '\x00' ≠ '1') ↔
              ¬(temp.data.head? = some '1' ∧ temp.data.getLast? = some '1') := by
            rw [hlen temp List.mem_cons_self, not_and_or, ne_eq, ne_eq, getD_eq_wall, getD_eq_wall,
              List.head?_eq_getElem?, List.getLast?_eq_getElem?]
          have hfill : fillArray (temp :: following :: rest) =
              temp.data :: following.data :: fillArray rest := rfl
          have hfill' : fillArray (following :: rest) = following.data :: fillArray rest := rfl
          rw [hfill'] at hrest
          rw [sidesClosed, hfill, List.dropLast_cons_cons, List.forall_mem_cons, and_assoc,
            List.getLast?_cons_cons]
          by_cases hopen : temp.data.getD 0 '\x00' ≠ '1' ∨
              temp.data.getD (temp.len - 1) '\x00' ≠ '1'
          · rw [if_pos hopen]
            exact iff_of_false (by decide) fun h => hends.mp hopen h.1
          · rw [if_neg hopen, hrest, and_iff_right (not_not.mp (mt hends.mpr hopen))]

theorem mapIsClosed_iff {map : List MapLine}
    (hlen : ∀ temp ∈ map, temp.len = temp.data.length) :
    mapIsClosed map = true ↔ (∀ row ∈ (fillArray map).head?, ∀ c ∈ row, c = '1') ∧
      (∀ row ∈ (fillArray map).dropLast, row.head? = some '1' ∧ row.getLast? = some '1') ∧
        ∀ row ∈ (fillArray map).getLast?, ∀ c ∈ row, c = '1' := by
  have hhead : (map.head?.all fun temp => allWalls temp.data) = true ↔
      ∀ row ∈ (fillArray map).head?, ∀ c ∈ row, c = '1' := by
    cases map with
    | nil => simp [fillArray]
    | cons temp rest => simp [fillArray, allWalls_iff]
  rw [mapIsClosed, Bool.and_eq_true, hhead, sidesClosed_iff hlen]

theorem containsNotCorrect_of_tiles {y i : Int} {row : Str} (chars : MapChars)
    (h : ∀ c ∈ row, IsTile c) : (containsNotCorrect y i row chars).1 = false := by
  induction row generalizing i chars with
  | nil => rfl
  | cons c rest ih =>
      obtain ⟨htile, hrest⟩ := List.forall_mem_cons.mp h
      rw [containsNotCorrect]
      rcases htile with rfl | rfl | rfl | rfl | rfl <;> exact ih _ hrest

theorem linesCorrect_iff {y : Int} {map : List MapLine} (chars : MapChars) :
    (linesCorrect y map chars).1 = true ↔ ∀ row ∈ fillArray map, ∀ c ∈ row, IsTile c := by
  constructor
  · intro h
    exact (linesCorrect_scanned (Prod.ext h rfl)).tile
  · intro h
    induction map generalizing y chars with
    | nil => rfl
    | cons temp rest ih =>
        obtain ⟨hfirst, hrest⟩ := List.forall_mem_cons.mp h
        have hscan := containsNotCorrect_of_tiles (y := y) (i := 0) chars hfirst
        rw [linesCorrect]
        split
        · next hwrong =>
            rw [hwrong] at hscan
            cases hscan
        · exact ih _ hrest

/-- The counts that `map_is_valid` ends with are those of the rows. -/
theorem mapIsValid_iff {map : List MapLine} (chars : MapChars) :
    (mapIsValid map chars).1 = true ↔ mapIsClosed map = true ∧
      (∀ row ∈ fillArray map, ∀ c ∈ row, IsTile c) ∧ 1 ≤ (fillArray map).count 'C' ∧
        (fillArray map).count 'E' = 1 ∧ (fillArray map).count 'P' = 1 := by
  unfold mapIsValid
  split
  · next hopen => simp [hopen]
  · next hopen =>
      rw [and_iff_right (by simpa using hopen)]
      generalize hchars : ({ chars with collectible := 0, exit := 0, player := 0 } : MapChars) =
        counted
      rw [← linesCorrect_iff (y := 0) counted]
      split
      · next hwrong => simp [hwrong]
      · next next hright =>
          have hrows := linesCorrect_scanned hright
          have hC := hrows.collectible
          have hE := hrows.exit
          have hP := hrows.player
          simp only [← hchars, zero_add] at hC hE hP
          simp only [decide_eq_true_eq, hright, true_and]
          omega

theorem passesTests_iff {lines : List MapLine} {chars : MapChars} :
    PassesTests lines chars ↔ WellFormed (rowsOf lines) := by
  have hfill : fillArray (trimLines lines) = rowsOf lines := by
    simp [fillArray, trimLines, rowsOf, Function.comp_def]
  have hlen : ∀ temp ∈ trimLines lines, temp.len = temp.data.length := by
    intro temp htemp
    obtain ⟨line, -, rfl⟩ := List.mem_map.mp htemp
    rfl
  have hcount : (rowsOf lines).length = lines.length := List.length_map _
  unfold PassesTests mapIsRectangular
  rw [sameLengths_iff, mapIsValid_iff, mapIsClosed_iff hlen, hfill, ← hcount]
  constructor
  · rintro ⟨hmany, hsame, ⟨htop, hsides, hbottom⟩, htile, hcollectible, hexit, hplayer⟩
    -- the row of the player is not empty, and the others are as long
    have hne : ∀ row ∈ rowsOf lines, row ≠ [] := by
      obtain ⟨p, hp⟩ := Grid.count_pos_iff.mp (by omega : 0 < (rowsOf lines).count 'P')
      obtain ⟨-, -, row, hrow, hc⟩ := Grid.cell_eq_some_iff.mp hp
      have hpos := (List.getElem?_eq_some_iff.mp hc).1
      intro other hother
      have hlength := hsame row (List.mem_of_getElem? hrow) other hother
      apply List.ne_nil_of_length_pos
      omega
    have hwalls : ∀ row ∈ rowsOf lines, (∀ c ∈ row, c = '1') →
        row.head? = some '1' ∧ row.getLast? = some '1' := by
      intro row hrow hall
      rw [List.head?_eq_some_head (hne row hrow), List.getLast?_eq_some_getLast (hne row hrow)]
      exact ⟨congrArg some (hall _ (List.head_mem _)), congrArg some (hall _ (List.getLast_mem _))⟩
    refine ⟨hmany, hsame, htop, hbottom, ?_, htile, hplayer, hexit, hcollectible⟩
    intro row hrow
    have hrows : rowsOf lines ≠ [] := List.ne_nil_of_mem hrow
    rw [← List.dropLast_append_getLast hrows, List.mem_append, List.mem_singleton] at hrow
    rcases hrow with hmiddle | rfl
    · exact hsides row hmiddle
    · exact hwalls _ (List.getLast_mem hrows)
        (hbottom _ (List.getLast?_eq_some_getLast hrows))
  · intro h
    exact ⟨h.many, h.rectangular,
      ⟨h.top, fun row hrow => h.sides row (List.mem_of_mem_dropLast hrow), h.bottom⟩,
      h.tile, h.collectible, h.exit, h.player⟩

end Tests

section Fill

/-- `map[y][x]`, where only the cells of the map may be read. -/
def cellAt (map : Map) (x y : Int) : Except Stop Char :=
  (map.cell ⟨x, y⟩).elim (.error .outOfBounds) .ok

/-- `flood_fill`, which stops at a read outside of the cells of the map. -/
def floodFillInside : Nat → Int → Int → Map → Except Stop Map
  | 0, _, _, _ => .error .outOfFuel
  | fuel + 1, x, y, map => do
      let c ← cellAt map x y
      if c = '\x00' ∨ c = '1' ∨ c = 'X' then return map
      let map := map.write ⟨x, y⟩ 'X'
      let map ← floodFillInside fuel (x + 1) y map
      let map ← floodFillInside fuel (x - 1) y map
      let map ← floodFillInside fuel x (y + 1) map
      floodFillInside fuel x (y - 1) map

private def fillInside (map : Map) (p : Point) : Except Stop (Option Map) := do
  let c ← cellAt map p.x p.y
  if c = '\x00' ∨ c = '1' ∨ c = 'X' then return none
  return some (map.write p 'X')

private theorem floodFillInside_eq_flood (fuel : Nat) (p : Point) (map : Map) :
    floodFillInside fuel p.x p.y map = flood .outOfFuel fillInside nextCells fuel map p := by
  induction fuel generalizing p map with
  | zero => rfl
  | succ fuel ih =>
      rw [floodFillInside, flood, fillInside]
      cases cellAt map p.x p.y with
      | error stop => rfl
      | ok c =>
          by_cases hc : c = '\x00' ∨ c = '1' ∨ c = 'X'
          · simp only [if_pos hc, bind, Except.bind, pure, Except.pure]
          · change (if _ then _ else _) = Except.bind (if _ then _ else _) _
            rw [if_neg hc, if_neg hc]
            change _ = (nextCells p).foldlM _ _
            simp only [nextCells, List.foldlM_cons, List.foldlM_nil, ← ih, bind_pure]
            rfl

private theorem fillInside_of_cell : FillsCells fillInside := by
  intro map p c h
  have hread : cellAt map p.x p.y = .ok c := by
    unfold cellAt
    rw [h]
    rfl
  rw [fillInside, hread]
  change (if _ then _ else _) = _
  split
  · rfl
  · rfl

private theorem fillCell_of_fillInside (map : Map) (p : Point) (r : Option Map)
    (h : fillInside map p = .ok r) : fillCell map p = .ok r := by
  cases hcell : map.cell p with
  | none =>
      rw [fillInside, cellAt, hcell] at h
      cases h
  | some c => rw [fillCell_of_cell hcell, ← fillInside_of_cell hcell, h]

/-- A fill that reads nothing but cells is the one of the source. -/
theorem floodFill_of_inside {fuel : Nat} {x y : Int} {map filled : Map}
    (h : floodFillInside fuel x y map = .ok filled) : floodFill fuel x y map = .ok filled := by
  have hflood := floodFill_eq_flood fuel ⟨x, y⟩ map
  rw [hflood]
  apply flood_of_visit fillCell_of_fillInside (le_refl fuel)
  rw [← floodFillInside_eq_flood]
  exact h

theorem floodFillInside_fills {map : Map} {chars : MapChars} (h : Accepted map chars) {fuel : Nat}
    (hfuel : (freeCells map).card < fuel) :
    ∃ filled, floodFillInside fuel chars.playerX chars.playerY map = .ok filled := by
  obtain ⟨filled, hfilled, -⟩ := flood_fills fillInside_of_cell h hfuel
  exact ⟨filled, (floodFillInside_eq_flood fuel chars.playerAt map).trans hfilled⟩

theorem solvable_iff_connected {map : Map} {chars : MapChars} (h : Accepted map chars) :
    Solvable map chars ↔ Connected map := by
  constructor
  · intro hsolvable p q hp hq
    rw [(h.player p).mp hp]
    exact hsolvable q hq.symm
  · exact fun hconnected q hq => hconnected _ q ((h.player _).mpr rfl) hq.symm

theorem checkMap_of_tests {lines : List MapLine} {chars : MapChars} (h : PassesTests lines chars)
    {fuel : Nat} (hfuel : (freeCells (rowsOf lines)).card < fuel) :
    (∃ result, checkMap fuel lines chars = .ok result) ↔ Connected (rowsOf lines) := by
  obtain ⟨hmany, hrectangular, hvalid⟩ := h
  have haccepted := accepted_of_checks hrectangular hvalid
  have hfill : fillArray (mapIsRectangular lines).2 = rowsOf lines := by
    simp [mapIsRectangular, fillArray, trimLines, rowsOf, Function.comp_def]
  have hlen : (mapIsRectangular lines).2.length = lines.length := by
    simp [mapIsRectangular, trimLines]
  rw [← hfill] at hfuel
  obtain ⟨filled, hrun, hfilled⟩ := floodFill_fills haccepted hfuel
  have hany := (any_left_iff hfilled).trans (not_congr (solvable_iff_connected haccepted))
  rw [hfill] at hany
  unfold checkMap
  dsimp only
  rw [if_pos ⟨by rw [hlen]; exact hmany, hrectangular, hvalid⟩, hrun]
  dsimp only [bind, Except.bind]
  by_cases hconnected : Connected (rowsOf lines)
  · rw [if_neg fun hleft => hany.mp hleft hconnected]
    exact iff_of_true ⟨_, rfl⟩ hconnected
  · rw [if_pos (hany.mpr hconnected)]
    exact iff_of_false (by simp) hconnected

theorem checkMap_of_not_tests {lines : List MapLine} {chars : MapChars}
    (h : ¬PassesTests lines chars) (fuel : Nat) :
    checkMap fuel lines chars = .error (.exit "Error\nInvalid map\n") := by
  have hlen : (mapIsRectangular lines).2.length = lines.length := by
    simp [mapIsRectangular, trimLines]
  unfold checkMap
  dsimp only
  rw [hlen]
  exact if_neg h

end Fill

end FortyTwo.SoLong
