import Mathlib.Tactic

/-!
`gnl.c` and the `ft_substr` it uses. A C string is the list of the characters before its
zero; `malloc` succeeds, and the stack is deep enough. `int` and `unsigned int` have 32 bits.
-/

namespace FortyTwo.Cub3d

/-- A line or the whole text of a file. -/
abbrev Text := List Char

inductive ReadFault where
  /-- An `int` grows beyond its largest value. -/
  | overflow
  | outOfFuel
  deriving DecidableEq, Repr

/-- What the calls of `read` give until one gives nothing: as many characters as fit in the
buffer, and no more than the system reads at once. There is no zero in the file. -/
structure ReadResults where
  bufferSize : Nat
  bufferSize_pos : 1 ≤ bufferSize
  pieces : List Text
  ne_nil : ∀ piece ∈ pieces, piece ≠ []
  fits : ∀ piece ∈ pieces, piece.length ≤ bufferSize ∧ piece.length ≤ 0x7ffff000
  nulFree : ∀ piece ∈ pieces, '\x00' ∉ piece

def ReadResults.content (file : ReadResults) : Text := file.pieces.flatten

/-- The copy loop of `ft_substr`; `start` is an `unsigned int`. -/
def substrLoop (s : Text) : Nat → Nat → Text
  | 0, _ => []
  | len + 1, start =>
      if s.getD start '\x00' = '\x00' then []
      else s.getD start '\x00' :: substrLoop s len ((start + 1) % 2 ^ 32)

def ftSubstr (s : Text) (start len : Nat) : Text :=
  let start := start % 2 ^ 32
  let len :=
    if start > s.length then 0
    else if len > s.length - start then s.length - start
    else len
  substrLoop s len start

/-- The string in a buffer that ends with a zero. -/
def bufferString (buf : Text) : Text := buf.takeWhile (· != '\x00')

def ftGetStatic (str : Option Text) (buf : Text) : Text :=
  match str with
  | none => bufferString buf
  | some str => str ++ bufferString buf

/-- The line, and what is left of the string. -/
def ftStockLine (str : Text) : Text × Option Text :=
  let i := (str.takeWhile (· != '\n')).length
  if i < str.length then (ftSubstr str 0 i, some (ftSubstr str (i + 1) str.length))
  else (str, none)

/-- The loop of `gnl` over what is still to be read. -/
def readLoop (str : Option Text) : List Text → Option Text × List Text
  | [] => (str, [])
  | buf :: rest =>
      let str := ftGetStatic str buf
      if '\n' ∈ str then (some str, rest) else readLoop (some str) rest

/-- The line, whether 1 is returned, the static string and what is still to be read. -/
def gnl (str : Option Text) (pieces : List Text) : Text × Bool × Option Text × List Text :=
  match readLoop str pieces with
  | (none, pieces) => ([], false, none, pieces)
  | (some str, pieces) =>
      let (line, str) := ftStockLine str
      (line, str.isSome, str, pieces)

/-- The entries of the array from `lvl` on, before the `NULL` that ends it. -/
def ftGetFile : Nat → Nat → Option Text → List Text → Except ReadFault (List Text)
  | 0, _, _, _ => .error .outOfFuel
  | fuel + 1, lvl, str, pieces =>
      let (line, more, str, pieces) := gnl str pieces
      if more then
        if lvl + 1 ≥ 2 ^ 31 then .error .overflow
        else (ftGetFile fuel (lvl + 1) str pieces).map (line :: ·)
      else if lvl + 2 ≥ 2 ^ 31 then .error .overflow
      else .ok [line]

end FortyTwo.Cub3d
