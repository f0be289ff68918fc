import Mathlib.Tactic

/-!
`get_next_line.c` and `get_next_line_bonus.c`, whose helpers do the same. A C
string is the list of the bytes before its zero. `malloc` succeeds, and `int` is
exact.
-/

namespace FortyTwo.GetNextLine

abbrev Bytes := List UInt8

inductive Fault
  /-- An entry of the static table that it does not have. -/
  | outOfTable (fd : Int)
  /-- A byte behind the zero of a string, or before its first one. -/
  | outOfString
deriving DecidableEq, Repr

/-- What `read(fd, temp, BUFFER_SIZE)` gives: the bytes that it stores, or `-1`. -/
abbrev Outcome (bufferSize : Int) := Option {piece : Bytes // (piece.length : Int) ≤ bufferSize}

/-- A descriptor as the process sees it. `readable` is that `read(fd, 0, 0)` does
not fail; once the outcomes are used up every `read` returns 0. -/
structure Descriptor (bufferSize : Int) where
  readable : Bool := false
  outcomes : List (Outcome bufferSize) := []

/-- The string in a buffer that ends with a zero. -/
def cString (buffer : Bytes) : Bytes := buffer.takeWhile (· != 0)

/-- `string[i]`. -/
def charAt (string : Bytes) (i : Int) : Except Fault UInt8 :=
  if 0 ≤ i ∧ i ≤ string.length then .ok (string.getD i.toNat 0) else .error .outOfString

/-- The loop of `ft_strchr` with `i` bytes behind it: where the pointer that it
returns points, and `*nline_pos`. -/
def strchrFrom (c : UInt8) (nlinePos : Int) : Nat → Bytes → Option Nat × Int
  | i, [] => (if c = 0 then some i else none, nlinePos)
  | i, x :: rest => if x = c then (some i, i) else strchrFrom c nlinePos (i + 1) rest

def ftStrchr (string : Option Bytes) (c : UInt8) (nlinePos : Int) : Option Nat × Int :=
  match string with
  | none => (none, nlinePos)
  | some string => strchrFrom c nlinePos 0 string

/-- The joined string and `*myline`. -/
def createCopyReturn (myStatic : Option Bytes) (temp : Bytes) : Bytes × Int :=
  let joined := myStatic.getD [] ++ temp
  (joined, joined.length)

def ftStaticHandler (staticStr : Bytes) (string : Option Bytes) (nlinePos : Int) :
    Except Fault (Option Bytes) :=
  match string with
  | none => .ok none
  | some string => do
      let i := nlinePos + 1
      let c ← if i > 0 then charAt string (i - 1) else pure 0
      if i > 0 ∧ c = 10 then
        let _ ← charAt staticStr i
        return some (staticStr.drop i.toNat)
      else return none

/-- The copy of the first `len` bytes. -/
def copyBytes (myStatic : Bytes) (len : Int) : Except Fault Bytes :=
  if len ≤ myStatic.length then .ok (myStatic.take len.toNat) else .error .outOfString

def ftCopyUntilN (myStatic : Bytes) (nlinePos myline : Int) : Except Fault (Option Bytes) := do
  if nlinePos = -1 then
    let first ← charAt myStatic 0
    if first = 0 then return none
    return some (← copyBytes myStatic myline)
  else return some (← copyBytes myStatic (nlinePos + 1))

/-- What `ft_read` returns, leaves in its pointers, and leaves to be read. -/
structure ReadEnd (bufferSize : Int) where
  myStatic : Option Bytes
  nlinePos : Int
  myline : Int
  outcomes : List (Outcome bufferSize)

variable {bufferSize : Int}

/-- The round of `ft_read` in which `read` returns 0, and the search after it. -/
def readNothing (myStatic : Option Bytes) (nlinePos : Int) (outcomes : List (Outcome bufferSize)) :
    ReadEnd bufferSize :=
  let (joined, myline) := createCopyReturn myStatic []
  let (_, nlinePos) := ftStrchr (some joined) 10 nlinePos
  ⟨some joined, nlinePos, myline, outcomes⟩

/-- The loop of `ft_read` goes on with `read` while there is no newline. -/
def unlessFound (myStatic : Option Bytes) (nlinePos myline : Int)
    (outcomes : List (Outcome bufferSize)) (read : Int → ReadEnd bufferSize) :
    ReadEnd bufferSize :=
  let (found, nlinePos) := ftStrchr myStatic 10 nlinePos
  if found.isSome then ⟨myStatic, nlinePos, myline, outcomes⟩ else read nlinePos

def ftRead (myStatic : Option Bytes) (nlinePos myline : Int) :
    List (Outcome bufferSize) → ReadEnd bufferSize
  | [] => unlessFound myStatic nlinePos myline [] fun nlinePos => readNothing myStatic nlinePos []
  | none :: rest =>
      unlessFound myStatic nlinePos myline (none :: rest) fun nlinePos =>
        ⟨none, nlinePos, myline, rest⟩
  | some piece :: rest =>
      unlessFound myStatic nlinePos myline (some piece :: rest) fun nlinePos =>
        if piece.val = [] then readNothing myStatic nlinePos rest
        else
          let (joined, myline) := createCopyReturn myStatic (cString piece.val)
          ftRead (some joined) nlinePos myline rest

/-- `get_next_line` after its check: the line, what is kept for the next call,
and what is left to be read. -/
def nextLine (myStatic : Option Bytes) (outcomes : List (Outcome bufferSize)) :
    Except Fault (Option Bytes × Option Bytes × List (Outcome bufferSize)) := do
  let r := ftRead myStatic (-1) 0 outcomes
  match r.myStatic with
  | none => return (none, none, r.outcomes)
  | some myStatic =>
      let lineRead ← ftCopyUntilN myStatic r.nlinePos r.myline
      let kept ← ftStaticHandler myStatic lineRead r.nlinePos
      return (lineRead, kept, r.outcomes)

/-- The check that `get_next_line` begins with. -/
def refuses (fd : Int) (d : Descriptor bufferSize) : Bool :=
  !d.readable || decide (fd < 0) || decide (bufferSize ≤ 0)

end FortyTwo.GetNextLine
