import FortyTwo.SoLong.MapCheck

/-!
`movements.c` and the event handler of `game.c`: the state of the game after a
key. Drawing and the printed move counter leave the state as it is.
-/

namespace FortyTwo.SoLong

open Foundation

/-- `t_vars` without the images; `ended` is its field `end`. -/
structure Vars where
  map : Map
  lenX : Nat
  lenY : Nat
  ended : Bool := false
  mapchars : MapChars
  deriving DecidableEq, Repr

/-- `vars->map[y][x]`. -/
def Vars.cellAt (vars : Vars) (x y : Int) : Except Stop Char := do
  let some row ← rowAt vars.map y | .error .outOfBounds
  charAt row x

def Vars.setCell (vars : Vars) (x y : Int) (c : Char) : Except Stop Vars :=
  match vars.map.cell ⟨x, y⟩ with
  | none => .error .outOfBounds
  | some _ => .ok { vars with map := vars.map.write ⟨x, y⟩ c }

/-- Puts the player on a cell that is free, but does not take him from where he was. -/
def canMove (vars : Vars) (newX newY : Int) : Except Stop (Bool × Vars) := do
  if vars.ended then return (false, vars)
  let c ← vars.cellAt newX newY
  if c = 'C' then
    let chars := { vars.mapchars with collectible := vars.mapchars.collectible - 1 }
    let vars ← { vars with mapchars := chars }.setCell newX newY 'P'
    return (true, vars)
  else if c = 'E' then
    let vars := if vars.mapchars.collectible = 0 then { vars with ended := true } else vars
    let vars ← vars.setCell newX newY 'P'
    return (true, vars)
  else if c = '0' then
    let vars ← vars.setCell newX newY 'P'
    return (true, vars)
  else return (false, vars)

/-- A move function: `changed` is the coordinate that it tests for being negative. -/
def move (vars : Vars) (newX newY changed : Int) : Except Stop Vars := do
  if changed < 0 then return vars
  let (moved, next) ← canMove vars newX newY
  if moved then
    let next ← next.setCell vars.mapchars.playerX vars.mapchars.playerY '0'
    let chars := next.mapchars
    return { next with mapchars :=
      { chars with playerX := newX, playerY := newY, movements := chars.movements + 1 } }
  else return next

def moveForward (vars : Vars) : Except Stop Vars :=
  move vars vars.mapchars.playerX (vars.mapchars.playerY - 1) (vars.mapchars.playerY - 1)

def moveBackward (vars : Vars) : Except Stop Vars :=
  move vars vars.mapchars.playerX (vars.mapchars.playerY + 1) (vars.mapchars.playerY + 1)

def moveLeft (vars : Vars) : Except Stop Vars :=
  move vars (vars.mapchars.playerX - 1) vars.mapchars.playerY (vars.mapchars.playerX - 1)

def moveRight (vars : Vars) : Except Stop Vars :=
  move vars (vars.mapchars.playerX + 1) vars.mapchars.playerY (vars.mapchars.playerX + 1)

def renderExit (vars : Vars) : Except Stop Vars :=
  vars.setCell vars.mapchars.exitX vars.mapchars.exitY 'E'

/-- The end of `event_handler`, after a move. -/
def restoreExit (vars : Vars) : Except Stop Vars :=
  if vars.mapchars.playerX ≠ vars.mapchars.exitX ∨ vars.mapchars.playerY ≠ vars.mapchars.exitY then
    renderExit vars
  else .ok vars

/-- Whether the key was one of the game's, and the state after it. -/
def eventHandler (keycode : Int) (vars : Vars) : Except Stop (Bool × Vars) := do
  if keycode = 65307 then .error (.exit "")
  else if keycode = 119 then return (true, ← restoreExit (← moveForward vars))
  else if keycode = 97 then return (true, ← restoreExit (← moveLeft vars))
  else if keycode = 115 then return (true, ← restoreExit (← moveBackward vars))
  else if keycode = 100 then return (true, ← restoreExit (← moveRight vars))
  else return (false, vars)

/-- The start of `game`. -/
def game (map : Map) (chars : MapChars) (lenY lenX : Nat) : Vars where
  map := map
  lenX := lenX
  lenY := lenY
  mapchars := { chars with movements := 0 }

/-- `main`, behind `check_map`. -/
def startGame (lines : List MapLine) (chars : MapChars) : Vars :=
  game (fillArray lines) chars lines.length ((fillArray lines).headD []).length

/-- The loop of the window, with the keys that are pressed. -/
def play (keys : List Int) (vars : Vars) : Except Stop Vars :=
  keys.foldlM (fun vars key => Prod.snd <$> eventHandler key vars) vars

end FortyTwo.SoLong
