import FortyTwo.Foundation.Flood
import FortyTwo.Foundation.Grid

/-!
The checks of the map and its player: `checkers.c`, `fill_helper.c` and `fill.c`.
Rows are C strings, so none of them holds a zero. Reading the zero that ends a row
counts as reading out of bounds here, as reading behind it does.
-/

namespace FortyTwo.Cub3d

open Foundation

abbrev Str := List Char

abbrev Map := Grid Char

/-- `notClosed` is the `false` of `fill`, which all its callers return at once. -/
inductive Stop where
  | exit (text : String)
  | notClosed
  | outOfBounds
  | outOfFuel
  deriving DecidableEq, Repr

/-- `t_parse`, without the textures and colours. -/
structure Parse where
  map : Map
  dir : Char := '\x00'
  x : Int := 0
  y : Int := 0
  deriving DecidableEq, Repr

def isPlayer (c : Char) : Bool := c == 'N' || c == 'S' || c == 'W' || c == 'E'

def isWalkable (c : Char) : Bool := c == '0' || isPlayer c

def isMapChar (c : Char) : Bool := c == '0' || c == '1' || isPlayer c || c == ' '

def checkCount (map : Map) : Except Stop Unit :=
  if (map.map (List.countP isPlayer)).sum ≠ 1 then
    .error (.exit "Incorrect amount of players in map")
  else .ok ()

def checkMapChars (map : Map) : Except Stop Unit :=
  if map.all (·.all isMapChar) = false then .error (.exit "Unknown character in the map")
  else checkCount map

/-- `find_player` in the row `i`, from the column `j` on. -/
def findPlayerInRow (i : Int) : Int → Str → Parse → Str × Parse
  | _, [], parse => ([], parse)
  | j, c :: rest, parse =>
      if c ≠ '0' ∧ c ≠ '1' ∧ c ≠ ' ' then
        let (row, parse) := findPlayerInRow i (j + 1) rest { parse with dir := c, x := j, y := i }
        ('0' :: row, parse)
      else
        let (row, parse) := findPlayerInRow i (j + 1) rest parse
        (c :: row, parse)

def findPlayerInRows : Int → Map → Parse → Map × Parse
  | _, [], parse => ([], parse)
  | i, row :: rest, parse =>
      let (row, parse) := findPlayerInRow i 0 row parse
      let (rows, parse) := findPlayerInRows (i + 1) rest parse
      (row :: rows, parse)

/-- Puts floor where the player is, and keeps where that was. -/
def findPlayer (parse : Parse) : Parse :=
  let (map, found) := findPlayerInRows 0 parse.map parse
  { found with map }

def getWH (map : Map) : Except Stop Point :=
  let w := (map.map List.length).foldl max 0
  if w > 1024 then .error (.exit "Map is too big") else .ok ⟨w + 1, map.length⟩

/-- The walkable cells, row by row. -/
def getCords (map : Map) : List Point :=
  map.points.filter fun p => (map.cell p).any isWalkable

def readCell (map : Map) (p : Point) : Except Stop Char :=
  match map.cell p with
  | some c => .ok c
  | none => .error .outOfBounds

/-- `ft_strlen(map[y])`. -/
def rowLength (map : Map) (y : Int) : Except Stop Int :=
  if y < 0 then .error .outOfBounds
  else match map[y.toNat]? with
    | some row => .ok row.length
    | none => .error .outOfBounds

def checkForNull (map : Map) : List Point → Except Stop Bool
  | [] => return true
  | c :: rest => do
      if c.x ≥ (← rowLength map c.y) ∨ c.y ≥ map.length then return false
      checkForNull map rest

/-- The loop of `neighbour`. -/
def neighboursFilled (map : Map) (size : Point) : List Point → Except Stop Bool
  | [] => return true
  | c :: rest => do
      if c.y ≥ 0 ∧ c.x ≥ 0 ∧ c.y < size.y ∧ c.x < size.x then
        let cell ← readCell map c
        if cell = ' ' ∨ cell = '\x00' then return false
        neighboursFilled map size rest
      else
        -- the loop does not go on to the next neighbour, nor does it end
        .error .outOfFuel

def neighbour (map : Map) (size start : Point) : Except Stop Bool := do
  let c := [start.up, start.down, start.left, start.right]
  if !(← checkForNull map c) then return false
  neighboursFilled map size c

def fill : Nat → Map → Point → Point → Except Stop Map
  | 0, _, _, _ => .error .outOfFuel
  | fuel + 1, map, size, start => do
      if start.y < 0 ∨ start.y ≥ size.y ∨ start.x < 0 ∨ start.x ≥ size.x then return map
      let c ← readCell map start
      if isWalkable c then
        if start.y ≥ size.y - 1 ∨ start.y = 0 ∨ start.x = 0 ∨ start.x ≥ size.x - 1 then
          .error .notClosed
        else if !(← neighbour map size start) then .error .notClosed
        else
          let map := map.write start 'X'
          let map ← fill fuel map size start.up
          let map ← fill fuel map size start.down
          let map ← fill fuel map size start.left
          fill fuel map size start.right
      else return map

def fillLoop (fuel : Nat) (size : Point) (cords : List Point) (map : Map) : Except Stop Map :=
  cords.foldlM (fun map cord => fill fuel map size cord) map

def initFlood (fuel : Nat) (parse : Parse) : Except Stop Unit := do
  let size ← getWH parse.map
  match fillLoop fuel size (getCords parse.map) parse.map with
  | .error .notClosed => .error (.exit "Map is not closed")
  | .error stop => .error stop
  | .ok _ => .ok ()

/-- The end of `init_parse`. -/
def checkMap (fuel : Nat) (map : Map) : Except Stop Parse := do
  if map.length > 1024 then .error (.exit "Map is too big")
  else
    checkMapChars map
    let parse := findPlayer { map }
    initFlood fuel parse
    return parse

end FortyTwo.Cub3d
