import FortyTwo.SoLong.MapCheck

/-!
What the checks before the flood fill say of the map: its characters, that a wall
runs around it, and that the counters and positions are those of its cells.
-/

namespace FortyTwo.SoLong

open Foundation

def IsTile (c : Char) : Prop := c = '0' ∨ c = '1' ∨ c = 'C' ∨ c = 'E' ∨ c = 'P'

def MapChars.playerAt (chars : MapChars) : Point := ⟨chars.playerX, chars.playerY⟩

def MapChars.exitAt (chars : MapChars) : Point := ⟨chars.exitX, chars.exitY⟩

/-- A map that passed the checks, with the characters that were counted in it. -/
structure Accepted (map : Map) (chars : MapChars) : Prop where
  tile : ∀ {p c}, map.cell p = some c → IsTile c
  enclosed : ∀ {p q c}, map.cell p = some c → c ≠ '1' → p.Adjacent q → ∃ d, map.cell q = some d
  player : ∀ p, map.cell p = some 'P' ↔ p = chars.playerAt
  exit : ∀ p, map.cell p = some 'E' ↔ p = chars.exitAt
  collectible : chars.collectible = map.count 'C'
  some_collectible : 1 ≤ chars.collectible

/-- Where the last `c` of the rows is, if there is one; the first row is `y`, its
first column `x`. -/
def Located (c : Char) (y : Int) (rows : Map) (old new : Point) : Prop :=
  (new = old ∧ rows.count c = 0) ∨
    ∃ (r k : Nat) (row : Str), rows[r]? = some row ∧ row[k]? = some c ∧ new = ⟨k, y + r⟩

/-- What `contains_not_correct` finds from the column `i` on. -/
structure Scanned (y i : Int) (row : Str) (chars next : MapChars) : Prop where
  tile : ∀ c ∈ row, IsTile c
  collectible : next.collectible = chars.collectible + row.count 'C'
  exit : next.exit = chars.exit + row.count 'E'
  player : next.player = chars.player + row.count 'P'
  exitAt : (next.exitAt = chars.exitAt ∧ 'E' ∉ row) ∨
    ∃ k : Nat, row[k]? = some 'E' ∧ next.exitAt = ⟨i + k, y⟩
  playerAt : (next.playerAt = chars.playerAt ∧ 'P' ∉ row) ∨
    ∃ k : Nat, row[k]? = some 'P' ∧ next.playerAt = ⟨i + k, y⟩

private theorem at_cons {c first : Char} {y i : Int} {row : Str} {old mid new : Point}
    (hmid : (mid = old ∧ first ≠ c) ∨ (mid = ⟨i, y⟩ ∧ first = c))
    (h : (new = mid ∧ c ∉ row) ∨ ∃ k : Nat, row[k]? = some c ∧ new = ⟨i + 1 + k, y⟩) :
    (new = old ∧ c ∉ first :: row) ∨
      ∃ k : Nat, (first :: row)[k]? = some c ∧ new = ⟨i + k, y⟩ := by
  rcases h with ⟨rfl, hnot⟩ | ⟨k, hk, rfl⟩
  · rcases hmid with ⟨rfl, hfirst⟩ | ⟨rfl, rfl⟩
    · exact Or.inl ⟨rfl, fun h => (List.mem_cons.mp h).elim (fun heq => hfirst heq.symm) hnot⟩
    · exact Or.inr ⟨0, rfl, by simp⟩
  · refine Or.inr ⟨k + 1, hk, ?_⟩
    rw [Point.mk.injEq]
    exact ⟨by push_cast; ring, rfl⟩

theorem containsNotCorrect_scanned {y i : Int} {row : Str} {chars next : MapChars}
    (h : containsNotCorrect y i row chars = (false, next)) : Scanned y i row chars next := by
  induction row generalizing i chars with
  | nil =>
      obtain rfl : chars = next := by simpa [containsNotCorrect] using h
      exact ⟨by simp, by simp, by simp, by simp, Or.inl ⟨rfl, by simp⟩, Or.inl ⟨rfl, by simp⟩⟩
  | cons c rest ih =>
      rw [containsNotCorrect] at h
      split at h
      · next hc =>
          subst hc
          have hrest := ih h
          refine ⟨?_, ?_, ?_, ?_, at_cons (Or.inl ⟨rfl, by decide⟩) hrest.exitAt,
            at_cons (Or.inl ⟨rfl, by decide⟩) hrest.playerAt⟩
          · exact List.forall_mem_cons.mpr ⟨by simp [IsTile], hrest.tile⟩
          · simp [hrest.collectible]; omega
          · simp [hrest.exit]
          · simp [hrest.player]
      · split at h
        · next hc =>
            subst hc
            have hrest := ih h
            refine ⟨?_, ?_, ?_, ?_, at_cons (Or.inr ⟨rfl, rfl⟩) hrest.exitAt,
              at_cons (Or.inl ⟨rfl, by decide⟩) hrest.playerAt⟩
            · exact List.forall_mem_cons.mpr ⟨by simp [IsTile], hrest.tile⟩
            · simp [hrest.collectible]
            · simp [hrest.exit]; omega
            · simp [hrest.player]
        · split at h
          · next hc =>
              subst hc
              have hrest := ih h
              refine ⟨?_, ?_, ?_, ?_, at_cons (Or.inl ⟨rfl, by decide⟩) hrest.exitAt,
                at_cons (Or.inr ⟨rfl, rfl⟩) hrest.playerAt⟩
              · exact List.forall_mem_cons.mpr ⟨by simp [IsTile], hrest.tile⟩
              · simp [hrest.collectible]
              · simp [hrest.exit]
              · simp [hrest.player]; omega
          · split at h
            · cases h
            · next hC hE hP hfloor =>
                have hrest := ih h
                refine ⟨?_, ?_, ?_, ?_, at_cons (Or.inl ⟨rfl, hE⟩) hrest.exitAt,
                  at_cons (Or.inl ⟨rfl, hP⟩) hrest.playerAt⟩
                · refine List.forall_mem_cons.mpr ⟨?_, hrest.tile⟩
                  unfold IsTile
                  tauto
                · simp [hrest.collectible, hC]
                · simp [hrest.exit, hE]
                · simp [hrest.player, hP]

/-- What `map_is_valid` finds from the row `y` on. -/
structure RowsScanned (y : Int) (rows : Map) (chars next : MapChars) : Prop where
  tile : ∀ row ∈ rows, ∀ c ∈ row, IsTile c
  collectible : next.collectible = chars.collectible + rows.count 'C'
  exit : next.exit = chars.exit + rows.count 'E'
  player : next.player = chars.player + rows.count 'P'
  exitAt : Located 'E' y rows chars.exitAt next.exitAt
  playerAt : Located 'P' y rows chars.playerAt next.playerAt

private theorem count_cons (row : Str) (rows : Map) (c : Char) :
    Grid.count (row :: rows) c = row.count c + Grid.count rows c := by
  simp [Grid.count]

private theorem located_cons {c : Char} {y : Int} {row : Str} {rows : Map} {old mid new : Point}
    (hrow : (mid = old ∧ c ∉ row) ∨ ∃ k : Nat, row[k]? = some c ∧ mid = ⟨0 + k, y⟩)
    (hrows : Located c (y + 1) rows mid new) : Located c y (row :: rows) old new := by
  rcases hrows with ⟨rfl, hnone⟩ | ⟨r, k, found, hfound, hk, rfl⟩
  · rcases hrow with ⟨rfl, hnot⟩ | ⟨k, hk, rfl⟩
    · exact Or.inl ⟨rfl, by rw [count_cons, hnone, List.count_eq_zero_of_not_mem hnot]⟩
    · exact Or.inr ⟨0, k, row, rfl, hk, by simp⟩
  · refine Or.inr ⟨r + 1, k, found, hfound, hk, ?_⟩
    rw [Point.mk.injEq]
    exact ⟨rfl, by push_cast; ring⟩

theorem linesCorrect_scanned {y : Int} {map : List MapLine} {chars next : MapChars}
    (h : linesCorrect y map chars = (true, next)) :
    RowsScanned y (fillArray map) chars next := by
  induction map generalizing y chars with
  | nil =>
      obtain rfl : chars = next := by simpa [linesCorrect] using h
      exact ⟨by simp [fillArray], by simp [fillArray, Grid.count], by simp [fillArray, Grid.count],
        by simp [fillArray, Grid.count], Or.inl ⟨rfl, rfl⟩, Or.inl ⟨rfl, rfl⟩⟩
  | cons temp rest ih =>
      rw [linesCorrect] at h
      split at h
      · cases h
      · next mid hrow =>
          have hscan := containsNotCorrect_scanned hrow
          have hrest := ih h
          have hcons : fillArray (temp :: rest) = temp.data :: fillArray rest := rfl
          rw [hcons]
          refine ⟨List.forall_mem_cons.mpr ⟨hscan.tile, hrest.tile⟩, ?_, ?_, ?_,
            located_cons hscan.exitAt hrest.exitAt, located_cons hscan.playerAt hrest.playerAt⟩
          · rw [hrest.collectible, hscan.collectible, count_cons]
            push_cast
            ring
          · rw [hrest.exit, hscan.exit, count_cons]
            push_cast
            ring
          · rw [hrest.player, hscan.player, count_cons]
            push_cast
            ring

/-- The one `c` of the map is where it was found. -/
private theorem cell_iff_of_located {c b : Char} {rows : Map} {old new : Point}
    (hb : b ≠ c) (hone : rows.count c = 1) (h : Located c 0 rows old new) (p : Point) :
    rows.cell p = some c ↔ p = new := by
  rcases h with ⟨-, hnone⟩ | ⟨r, k, row, hrow, hk, rfl⟩
  · omega
  · have hcell : rows.cell ⟨k, 0 + r⟩ = some c :=
      Grid.cell_eq_some_iff.mpr ⟨by simp, by simp, row, by simpa using hrow, by simpa using hk⟩
    exact ⟨fun hp => Grid.eq_of_count_eq_one hone hb hcell hp, fun hp => hp ▸ hcell⟩

theorem length_of_sameLengths {prior : Int} {map : List MapLine}
    (h : sameLengths prior map = true) {row : Str} (hrow : row ∈ fillArray map) :
    (prior ≠ -1 → (row.length : Int) = prior) ∧
      ∀ other ∈ fillArray map, other.length = row.length := by
  induction map generalizing prior row with
  | nil => cases hrow
  | cons temp rest ih =>
      rw [sameLengths] at h
      split at h
      · cases h
      · next hprior =>
          have hfirst : prior ≠ -1 → (temp.data.length : Int) = prior := by
            intro hne
            by_contra hdiff
            exact hprior ⟨hne, fun heq => hdiff heq.symm⟩
          have hlater : ∀ other ∈ fillArray rest, other.length = temp.data.length := by
            intro other hother
            have hlen := (ih h hother).1 (by omega)
            omega
          have hall : ∀ other ∈ fillArray (temp :: rest), other.length = temp.data.length :=
            List.forall_mem_cons.mpr ⟨rfl, hlater⟩
          refine ⟨fun hne => ?_, fun other hother => ?_⟩
          · rw [hall row hrow]
            exact hfirst hne
          · rw [hall row hrow, hall other hother]

theorem getElem?_of_getD {row : Str} {k : Nat} (h : row.getD k '\x00' = '1') :
    row[k]? = some '1' := by
  rw [List.getD_eq_getElem?_getD] at h
  cases hk : row[k]? with
  | none =>
      rw [hk] at h
      revert h
      decide
  | some c =>
      rw [hk] at h
      exact congrArg some h

private theorem sides_of_sidesClosed {map : List MapLine} (h : sidesClosed map = true)
    (hlen : ∀ temp ∈ map, temp.len = temp.data.length) {y : Nat} {row : Str}
    (hrow : (fillArray map)[y]? = some row) :
    (y + 1 = map.length ∧ ∀ c ∈ row, c = '1') ∨
      (y + 1 < map.length ∧ row[0]? = some '1' ∧ row[row.length - 1]? = some '1') := by
  induction map generalizing y with
  | nil => simp [fillArray] at hrow
  | cons temp rest ih =>
      cases rest with
      | nil =>
          cases y with
          | zero =>
              obtain rfl : temp.data = row := by simpa [fillArray] using hrow
              exact Or.inl ⟨rfl, by simpa [sidesClosed, allWalls] using h⟩
          | succ y => simp [fillArray] at hrow
      | cons following rest =>
          rw [sidesClosed] at h
          split at h
          · cases h
          · next hsides =>
              rw [not_or, not_not, not_not] at hsides
              cases y with
              | zero =>
                  obtain rfl : temp.data = row := by simpa [fillArray] using hrow
                  have hlast := getElem?_of_getD hsides.2
                  rw [hlen temp List.mem_cons_self] at hlast
                  exact Or.inr ⟨by simp, getElem?_of_getD hsides.1, hlast⟩
              | succ y =>
                  have hrest : (fillArray (following :: rest))[y]? = some row := by
                    simpa [fillArray] using hrow
                  rcases ih h (fun t ht => hlen t (List.mem_cons_of_mem _ ht)) hrest with
                    ⟨hy, hwalls⟩ | ⟨hy, hwalls⟩
                  · exact Or.inl ⟨by simp at hy ⊢; omega, hwalls⟩
                  · exact Or.inr ⟨by simp at hy ⊢; omega, hwalls⟩

/-- A cell that is no wall is on no side of the map. -/
private theorem inside_of_closed {map : List MapLine} (hclosed : mapIsClosed map = true)
    (hlen : ∀ temp ∈ map, temp.len = temp.data.length) {p : Point} {c : Char} {row : Str}
    (hrow : (fillArray map)[p.y.toNat]? = some row) (hc : row[p.x.toNat]? = some c)
    (hwall : c ≠ '1') :
    0 < p.x.toNat ∧ p.x.toNat + 1 < row.length ∧ 0 < p.y.toNat ∧ p.y.toNat + 1 < map.length := by
  rw [mapIsClosed, Bool.and_eq_true] at hclosed
  have hx : p.x.toNat < row.length := (List.getElem?_eq_some_iff.mp hc).1
  have hy : 0 < p.y.toNat := by
    by_contra hzero
    rw [Nat.eq_zero_of_not_pos hzero] at hrow
    cases map with
    | nil => simp [fillArray] at hrow
    | cons temp rest =>
        obtain rfl : temp.data = row := by simpa [fillArray] using hrow
        have hwalls : ∀ d ∈ temp.data, d = '1' := by simpa [allWalls] using hclosed.1
        exact hwall (hwalls c (List.mem_of_getElem? hc))
  rcases sides_of_sidesClosed hclosed.2 hlen hrow with ⟨-, hwalls⟩ | ⟨hlast, hfirst, hend⟩
  · exact absurd (hwalls c (List.mem_of_getElem? hc)) hwall
  · refine ⟨?_, ?_, hy, hlast⟩
    · by_contra hzero
      rw [Nat.eq_zero_of_not_pos hzero, hfirst] at hc
      exact hwall (Option.some.inj hc).symm
    · by_contra hright
      have hxeq : p.x.toNat = row.length - 1 := by omega
      rw [hxeq, hend] at hc
      exact hwall (Option.some.inj hc).symm

theorem enclosed_of_closed {map : List MapLine} (hsame : sameLengths (-1) map = true)
    (hclosed : mapIsClosed map = true) (hlen : ∀ temp ∈ map, temp.len = temp.data.length)
    {p q : Point} {c : Char} (hp : (fillArray map).cell p = some c) (hwall : c ≠ '1')
    (hq : p.Adjacent q) : ∃ d, (fillArray map).cell q = some d := by
  obtain ⟨hx, hy, row, hrow, hc⟩ := Grid.cell_eq_some_iff.mp hp
  obtain ⟨hleft, hright, hup, hdown⟩ := inside_of_closed hclosed hlen hrow hc hwall
  have hrows : (fillArray map).length = map.length := by simp [fillArray]
  -- a neighbour has its coordinates in the bounds of a row that is as long as this one
  have hcell : ∀ x y : Nat, x < row.length → y < map.length →
      ∃ d, (fillArray map).cell ⟨x, y⟩ = some d := by
    intro x y hxlt hylt
    have hother := List.getElem?_eq_getElem (l := fillArray map) (by rw [hrows]; exact hylt)
    have hlength := (length_of_sameLengths hsame (List.mem_of_getElem? hrow)).2 _
      (List.mem_of_getElem? hother)
    exact ⟨_, Grid.cell_eq_some_iff.mpr ⟨by simp, by simp, _, hother,
      List.getElem?_eq_getElem (by simp only [Int.toNat_natCast]; omega)⟩⟩
  rcases hq with rfl | rfl | rfl | rfl
  · obtain ⟨d, hd⟩ := hcell (p.x.toNat - 1) p.y.toNat (by omega) (by omega)
    refine ⟨d, hd ▸ congrArg _ ?_⟩
    simp only [Point.left, Point.mk.injEq]
    omega
  · obtain ⟨d, hd⟩ := hcell (p.x.toNat + 1) p.y.toNat (by omega) (by omega)
    refine ⟨d, hd ▸ congrArg _ ?_⟩
    simp only [Point.right, Point.mk.injEq]
    omega
  · obtain ⟨d, hd⟩ := hcell p.x.toNat (p.y.toNat - 1) (by omega) (by omega)
    refine ⟨d, hd ▸ congrArg _ ?_⟩
    simp only [Point.up, Point.mk.injEq]
    omega
  · obtain ⟨d, hd⟩ := hcell p.x.toNat (p.y.toNat + 1) (by omega) (by omega)
    refine ⟨d, hd ▸ congrArg _ ?_⟩
    simp only [Point.down, Point.mk.injEq]
    omega

/-- What is asked of a map before the flood fill. -/
theorem accepted_of_checks {map : List MapLine} {chars : MapChars}
    (hrectangular : (mapIsRectangular map).1 = true)
    (hvalid : (mapIsValid (mapIsRectangular map).2 chars).1 = true) :
    Accepted (fillArray (mapIsRectangular map).2)
      (mapIsValid (mapIsRectangular map).2 chars).2 := by
  have hlen : ∀ temp ∈ (mapIsRectangular map).2, temp.len = temp.data.length := by
    intro temp htemp
    obtain ⟨line, -, rfl⟩ := List.mem_map.mp htemp
    rfl
  have hsame : sameLengths (-1) (mapIsRectangular map).2 = true := hrectangular
  generalize (mapIsRectangular map).2 = trimmed at hvalid hlen hsame ⊢
  unfold mapIsValid at hvalid ⊢
  split at hvalid
  · cases hvalid
  · next hopen =>
      rw [if_neg hopen]
      have hclosed : mapIsClosed trimmed = true := by simpa using hopen
      split at hvalid
      · cases hvalid
      · next next hscan =>
          simp only [decide_eq_true_eq, not_or, not_lt, not_not] at hvalid
          obtain ⟨hcollectible, hexit, hplayer⟩ := hvalid
          have hrows := linesCorrect_scanned hscan
          have hexits : (fillArray trimmed).count 'E' = 1 := by
            have hcount := hrows.exit
            rw [hexit] at hcount
            simp only [zero_add] at hcount
            omega
          have hplayers : (fillArray trimmed).count 'P' = 1 := by
            have hcount := hrows.player
            rw [hplayer] at hcount
            simp only [zero_add] at hcount
            omega
          refine ⟨?_, fun hp hwall hq => enclosed_of_closed hsame hclosed hlen hp hwall hq,
            cell_iff_of_located (b := '0') (by decide) hplayers hrows.playerAt,
            cell_iff_of_located (b := '0') (by decide) hexits hrows.exitAt, ?_, hcollectible⟩
          · intro p c hp
            obtain ⟨-, -, row, hrow, hc⟩ := Grid.cell_eq_some_iff.mp hp
            exact hrows.tile row (List.mem_of_getElem? hrow) c (List.mem_of_getElem? hc)
          · have hcount := hrows.collectible
            simpa using hcount

end FortyTwo.SoLong
