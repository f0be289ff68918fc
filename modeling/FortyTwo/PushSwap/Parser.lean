import FortyTwo.Foundation.Numerals
import FortyTwo.Foundation.Words
import FortyTwo.PushSwap.Program

/-!
`parser.c` and `create_stack`. A C string is the list of its characters, an array of
strings the list of them; `malloc` succeeds.
-/

namespace FortyTwo.PushSwap

open Foundation

abbrev Str := List Char

abbrev intMin : Int := -2147483648

/-- `Error` has been written, or not. -/
inductive Exit where
  | exit (text : String)
  deriving DecidableEq, Repr

def trimZero (string : Str) : Str :=
  let string :=
    if string.head? = some '+' ∨ string.head? = some '-' then string.tail else string
  string.dropWhile (· == '0')

def ftSame (s1 s2 : Str) : Bool :=
  decide (s1.head? = some '-' ↔ s2.head? = some '-') && trimZero s1 == trimZero s2

/-- The loop of `ft_atoi_check`: the number and what is left, or its early return. -/
def digitsFrom (minus res : Int) : Str → Option (Int × Str)
  | [] => some (res, [])
  | c :: rest =>
      if c.isDigit = true then
        let next := res * 10 + digitValue c
        if (minus = -1 ∧ next * -1 < intMin) ∨ next > intMax then none
        else digitsFrom minus next rest
      else some (res, c :: rest)

/-- The number, and `*error` behind it. -/
def ftAtoiCheck (str : Str) (error : Bool) : Int × Bool :=
  if str = [] ∨ str = ['+'] then (0, true)
  else if ftSame "-2147483648".toList str = true then (intMin, error)
  else
    let minus : Int := if str.head? = some '-' then -1 else 1
    let str := if str.head? = some '-' ∨ str.head? = some '+' then str.tail else str
    match if error then some (0, str) else digitsFrom minus 0 str with
    | none => (0, true)
    | some (res, rest) =>
        (res * minus, if rest ≠ [] ∨ (res = 0 ∧ minus = -1) then true else error)

/-- The loop of `error_free` behind the words `earlier`: it has found no error. -/
def errorFree (earlier : List Str) : List Str → Bool
  | [] => true
  | word :: rest =>
      if (ftAtoiCheck word false).2 = true then false
      else if earlier.any (ftSame word) = true then false
      else errorFree (earlier ++ [word]) rest

/-- `malloc` leaves the fields of a new node as they are in `memory`. -/
def createStack (memory : Node) (error : Bool) : List Str → Option (List Node)
  | [] => some []
  | data :: rest =>
      if error = true then none
      else
        let (number, error) := ftAtoiCheck data error
        (createStack memory error rest).map ({ memory with index := 0, number } :: ·)

def parseWords (memory : Node) (words : List Str) : Except Exit (List Node) :=
  if errorFree [] words = false then .error (.exit "Error\n")
  else
    match createStack memory false words with
    | none => .error (.exit "")
    | some stackA => .ok stackA

/-- `ft_parse` on the arguments behind the name of the program: the stack and its size. -/
def ftParse (memory : Node) (argv : List Str) : Except Exit (List Node × Nat) :=
  match argv with
  | [argument] =>
      if argument.head? = none ∨ argument.head? = some ' ' then .error (.exit "Error\n")
      else
        (parseWords memory (words ' ' argument)).map fun stackA =>
          (stackA, (words ' ' argument).length)
  | argv => (parseWords memory argv).map fun stackA => (stackA, argv.length)

end FortyTwo.PushSwap
