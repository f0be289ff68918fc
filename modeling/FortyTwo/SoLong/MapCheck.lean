import Mathlib.Data.List.DropRight
import FortyTwo.Foundation.Flood
import FortyTwo.Foundation.Grid

/-!
`map_check.c` and the flood fill of `error.c`. The lines of a map are C strings,
so none of them holds a zero; a row of the map array ends with one, and the array
with a `NULL` row.
-/

namespace FortyTwo.SoLong

open Foundation

abbrev Str := List Char

abbrev Map := Grid Char

inductive Stop where
  | exit (text : String)
  | outOfBounds
  | outOfFuel
  deriving DecidableEq, Repr

/-- `t_map`, without the pointer to the next line. -/
structure MapLine where
  data : Str
  len : Nat := 0
  deriving DecidableEq, Repr

structure MapChars where
  collectible : Int := 0
  exit : Int := 0
  exitX : Int := 0
  exitY : Int := 0
  player : Int := 0
  playerX : Int := 0
  playerY : Int := 0
  movements : Int := 0
  deriving DecidableEq, Repr

/-- `ft_strtrim(s, "\n")`. -/
def strtrim (s : Str) : Str := (s.dropWhile (· == '\n')).rdropWhile (· == '\n')

def sameLengths (prior : Int) : List MapLine → Bool
  | [] => true
  | temp :: next =>
      if prior ≠ -1 ∧ prior ≠ temp.data.length then false
      else sameLengths temp.data.length next

def trimLines (map : List MapLine) : List MapLine :=
  map.map fun temp => { data := strtrim temp.data, len := (strtrim temp.data).length }

/-- Trims the lines before it compares them. -/
def mapIsRectangular (map : List MapLine) : Bool × List MapLine :=
  (sameLengths (-1) (trimLines map), trimLines map)

def allWalls (data : Str) : Bool := data.all (· == '1')

/-- The second loop of `map_is_closed`, and the third at the last line. -/
def sidesClosed : List MapLine → Bool
  | [] => true
  | [last] => allWalls last.data
  | temp :: next :: rest =>
      if temp.data.getD 0 '\x00' ≠ '1' ∨ temp.data.getD (temp.len - 1) '\x00' ≠ '1' then false
      else sidesClosed (next :: rest)

def mapIsClosed (map : List MapLine) : Bool :=
  (map.head?.all fun temp => allWalls temp.data) && sidesClosed map

/-- `contains_not_correct` from the character `i` on. -/
def containsNotCorrect (y : Int) : Int → Str → MapChars → Bool × MapChars
  | _, [], chars => (false, chars)
  | i, c :: rest, chars =>
      if c = 'C' then
        containsNotCorrect y (i + 1) rest { chars with collectible := chars.collectible + 1 }
      else if c = 'E' then
        containsNotCorrect y (i + 1) rest
          { chars with exitY := y, exitX := i, exit := chars.exit + 1 }
      else if c = 'P' then
        containsNotCorrect y (i + 1) rest
          { chars with player := chars.player + 1, playerX := i, playerY := y }
      else if c ≠ '1' ∧ c ≠ '0' then (true, chars)
      else containsNotCorrect y (i + 1) rest chars

/-- The loop of `map_is_valid` over the lines. -/
def linesCorrect : Int → List MapLine → MapChars → Bool × MapChars
  | _, [], chars => (true, chars)
  | y, temp :: next, chars =>
      match containsNotCorrect y 0 temp.data chars with
      | (true, chars) => (false, chars)
      | (false, chars) => linesCorrect (y + 1) next chars

def mapIsValid (map : List MapLine) (chars : MapChars) : Bool × MapChars :=
  if mapIsClosed map = false then (false, chars)
  else
    match linesCorrect 0 map { chars with collectible := 0, exit := 0, player := 0 } with
    | (false, chars) => (false, chars)
    | (true, chars) =>
        (decide (¬ (chars.collectible < 1 ∨ chars.exit ≠ 1 ∨ chars.player ≠ 1)), chars)

def fillArray (map : List MapLine) : Map := map.map (·.data)

/-- `map[y]`. -/
def rowAt (map : Map) (y : Int) : Except Stop (Option Str) :=
  if 0 ≤ y ∧ y ≤ map.length then .ok map[y.toNat]? else .error .outOfBounds

/-- `row[x]`. -/
def charAt (row : Str) (x : Int) : Except Stop Char :=
  if 0 ≤ x ∧ x ≤ row.length then .ok (row.getD x.toNat '\x00') else .error .outOfBounds

theorem reads_cell {map : Map} {p : Point} {c : Char} (h : map.cell p = some c) :
    ∃ row, rowAt map p.y = .ok (some row) ∧ charAt row p.x = .ok c := by
  obtain ⟨hx, hy, row, hrow, hc⟩ := Grid.cell_eq_some_iff.mp h
  have hylt := (List.getElem?_eq_some_iff.mp hrow).1
  have hxlt := (List.getElem?_eq_some_iff.mp hc).1
  refine ⟨row, ?_, ?_⟩
  · rw [rowAt, if_pos ⟨hy, by omega⟩, hrow]
  · rw [charAt, if_pos ⟨hx, by omega⟩, List.getD_eq_getElem?_getD, hc, Option.getD_some]

def floodFill : Nat → Int → Int → Map → Except Stop Map
  | 0, _, _, _ => .error .outOfFuel
  | fuel + 1, x, y, map => do
      let some row ← rowAt map y | return map
      let c ← charAt row x
      if c = '\x00' ∨ c = '1' ∨ c = 'X' then return map
      let map := map.write ⟨x, y⟩ 'X'
      let map ← floodFill fuel (x + 1) y map
      let map ← floodFill fuel (x - 1) y map
      let map ← floodFill fuel x (y + 1) map
      floodFill fuel x (y - 1) map

/-- The number of lines; the lines are trimmed and the characters counted. -/
def checkMap (fuel : Nat) (map : List MapLine) (chars : MapChars) :
    Except Stop (Nat × List MapLine × MapChars) := do
  let (rectangular, map) := mapIsRectangular map
  let (valid, chars) := mapIsValid map chars
  if map.length > 2 ∧ rectangular ∧ valid then
    let mapArray ← floodFill fuel chars.playerX chars.playerY (fillArray map)
    if mapArray.any fun row => row.contains 'E' || row.contains 'C' then
      .error (.exit "Error\nMap is not solvable\n")
    else return (map.length, map, chars)
  else .error (.exit "Error\nInvalid map\n")

end FortyTwo.SoLong
