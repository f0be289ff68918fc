import FortyTwo.Cub3d.MapCheck
import FortyTwo.Foundation.Numerals
import FortyTwo.Foundation.Words

/-!
The header of a map file: `textures.c`, `color.c` and `color_util.c`. The lines are an
array of C strings that ends with `NULL`; looking into `NULL`, or behind it, is an error
here. `malloc` succeeds, and an `int` has 32 bits, a `long` 64.
-/

namespace FortyTwo.Cub3d

open Foundation

/-- `t_texture`. -/
inductive Texture where
  | no
  | so
  | we
  | ea
  deriving DecidableEq, Repr

/-- The textures and colours of `t_parse`; `count` holds its fields `no`, `so`, `we`, `ea`. -/
structure Header where
  textures : Texture → Option Str := fun _ => none
  count : Texture → Nat := fun _ => 0
  cColor : Nat := 0
  fColor : Nat := 0
  c : Nat := 0
  f : Nat := 0

/-- `ft_strncmp(s1, s2, ft_strlen(s1)) == 0`. -/
def ftStrncmp (s1 s2 : Str) : Bool := s1.isPrefixOf s2

def isEmptyLine (line : Str) : Bool := ftStrncmp line ['\n']

/-- The line that is found when the static `i` is this; after it, that is one more. -/
def findStr (map : List Str) (i : Nat) : Except Stop Nat :=
  if i ≤ map.length then .ok (i + ((map.drop i).takeWhile isEmptyLine).length)
  else .error .outOfBounds

def checkExtension (path : Str) (i : Texture) (parse : Header) : Except Stop Header :=
  if path.length ≥ 4 ∧ path.drop (path.length - 4) ≠ ".xpm".toList then
    .error (.exit "Incorrect extension of the texture file")
  else .ok { parse with textures := Function.update parse.textures i (some path) }

def textureOf (name : Str) : Option Texture :=
  if ftStrncmp name "NO".toList then some .no
  else if ftStrncmp name "SO".toList then some .so
  else if ftStrncmp name "WE".toList then some .we
  else if ftStrncmp name "EA".toList then some .ea
  else none

def takeTexture (name path : Str) (parse : Header) : Except Stop Header :=
  match textureOf name with
  | none => .ok parse
  | some i => do
      let parse ← checkExtension path i parse
      return { parse with count := Function.update parse.count i (parse.count i + 1) }

def validTextures (parse : Header) : Except Stop Unit :=
  if parse.count .no ≠ 1 ∨ parse.count .so ≠ 1 ∨ parse.count .we ≠ 1 ∨ parse.count .ea ≠ 1 then
    .error (.exit "Incorect amount of textures")
  else .ok ()

/-- The body of the loop of `parse_textures`; splitting `NULL` is not an error. -/
def textureLine (line : Option Str) (parse : Header) : Except Stop Header :=
  match line.map (words ' ') with
  | some [name, path] => takeTexture name path parse
  | _ => .error (.exit "Incorrect amount of textures")

/-- `findStr` and what is done with the line, so many times. -/
def linesLoop (act : Option Str → Header → Except Stop Header) (map : List Str) :
    Nat → Nat × Header → Except Stop (Nat × Header)
  | 0, state => .ok state
  | count + 1, (i, parse) => do
      let i ← findStr map i
      let parse ← act map[i]? parse
      linesLoop act map count (i + 1, parse)

def parseTextures (map : List Str) (i : Nat) (parse : Header) : Except Stop (Nat × Header) := do
  let (i, parse) ← linesLoop textureLine map 4 (i, parse)
  validTextures parse
  return (i, parse)

def isSpace (c : Char) : Bool := c == ' ' || decide (9 ≤ c.toNat ∧ c.toNat ≤ 13)

def atoiDigits (res : Int) : Str → Int
  | [] => res
  | c :: rest =>
      if c.isDigit then atoiDigits ((digitValue c + res * 10).bmod (2 ^ 64)) rest else res

/-- A `long` is built up and returned as an `int`. -/
def ftAtoi (str : Str) : Int :=
  let str := str.dropWhile isSpace
  let sign : Int := if str.head? = some '-' then -1 else 1
  let str := if str.head? = some '-' ∨ str.head? = some '+' then str.tail else str
  (atoiDigits 0 str * sign).bmod (2 ^ 32)

def takeColorChar (str : Str) : Except Stop Char :=
  if str.length < 2 ∨ (str.head? ≠ some 'C' ∧ str.head? ≠ some 'F') ∨ str[1]? ≠ some ' ' then
    .error (.exit "Incorrect format of color")
  else .ok (str.headD '\x00')

def checkNumeric (res : List Str) : Except Stop Unit :=
  if res.all (·.all fun c => c.isDigit || c == ' ') then .ok ()
  else .error (.exit "Non numeric value of RGB values")

def validateColor (res : List Str) : Except Stop Unit :=
  if res.any fun piece => decide ((words ' ' piece).length > 1) then
    .error (.exit "Incorrect format of colors")
  else checkNumeric res

def createRgb (r g b : Int) : Except Stop Nat :=
  if (r ≥ 0 ∧ r ≤ 255) ∧ (g ≥ 0 ∧ g ≤ 255) ∧ (b ≥ 0 ∧ b ≤ 255) then
    .ok (r.toNat <<< 16 ||| g.toNat <<< 8 ||| b.toNat)
  else .error (.exit "Incorrect color values")

def formatColorHelper (r g b : Str) (color : Char) (parse : Header) : Except Stop Header := do
  validateColor [r, g, b]
  if color = 'C' then
    let cColor ← createRgb (ftAtoi r) (ftAtoi g) (ftAtoi b)
    return { parse with cColor, c := parse.c + 1 }
  else if color = 'F' then
    let fColor ← createRgb (ftAtoi r) (ftAtoi g) (ftAtoi b)
    return { parse with fColor, f := parse.f + 1 }
  else return parse

/-- The end of `format_color`, on the pieces of the line. -/
def formatPieces (res : List Str) (color : Char) (parse : Header) : Except Stop Header :=
  match res with
  | [r, g, b] => formatColorHelper r g b color parse
  | _ => .error (.exit "Incorrect format of colors")

def formatColor (line : Option Str) (parse : Header) : Except Stop Header :=
  match line with
  | none => .error .outOfBounds
  | some str => do
      let str := str.dropWhile (· == ' ')
      let color ← takeColorChar str
      formatPieces (words ',' str.tail) color parse

def parseColors (map : List Str) (i : Nat) (parse : Header) : Except Stop (Nat × Header) :=
  linesLoop formatColor map 2 (i, parse)

/-- `parse_textures` and then `parse_colors`, with the static `i` behind them. -/
def parseHeader (map : List Str) : Except Stop (Nat × Header) := do
  let (i, parse) ← parseTextures map 0 {}
  parseColors map i parse

end FortyTwo.Cub3d
