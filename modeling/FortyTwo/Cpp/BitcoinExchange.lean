import FortyTwo.Foundation.DateText
import FortyTwo.Foundation.Search
import FortyTwo.Foundation.SortedMap
import Mathlib.Data.List.DropRight

/-!
`BitcoinExchange::ChangeDB` of `CPP09/ex00`, on the lines of the input file. An `int` has 32 bits
and takes the low bits of what is too large for it; a `long` and a `size_t` have 64.
-/

namespace FortyTwo.Cpp.BitcoinExchange

open Foundation

abbrev Str := List Char

/-- The operations of `double` that are used: `strtod`, the comparisons with 0 and with 1000,
the product and what `<<` writes. -/
structure DoubleOps (δ : Type) where
  strtod : Str → δ
  negative : δ → Bool
  aboveThousand : δ → Bool
  times : δ → δ → δ
  shown : δ → Str

inductive Fault where
  | runtimeError (what : Str)
  /-- `substr` is given a position behind the end. -/
  | outOfRange
  /-- An `int` grows beyond its largest value. -/
  | overflow
  /-- The end of the map is read. -/
  | endOfMap
  deriving DecidableEq, Repr

/-- What is written for a line, and where to. -/
inductive Report where
  | cout (text : Str)
  | cerr (text : Str)
  deriving DecidableEq, Repr

/-- How the loop is left at a line. -/
inductive Leave where
  | returned (report : Report)
  | thrown (fault : Fault)
  deriving DecidableEq, Repr

def trim (input : Str) : Str := (input.rdropWhile (· == ' ')).dropWhile (· == ' ')

def isSpace (c : Char) : Bool := [' ', '\t', '\r', '\n', '\x0b', '\x0c'].contains c

/-- In base ten, up to the greatest and the least `long`. -/
def strtol (s : Str) : Int :=
  let s := s.dropWhile isSpace
  let minus := s.head? = some '-'
  let s := if minus ∨ s.head? = some '+' then s.tail else s
  let n : Int := decimal (s.takeWhile Char.isDigit)
  if minus then max (-n) (-2 ^ 63) else min n (2 ^ 63 - 1)

def atoi (s : Str) : Int := (strtol s).bmod (2 ^ 32)

/-- A position in an `int`; `npos` becomes -1. -/
def position : Option Nat → Int
  | none => -1
  | some pos => (pos : Int).bmod (2 ^ 32)

/-- The value of a `size_t`. -/
def sizeT (n : Int) : Nat := (n % 2 ^ 64).toNat

def substr (s : Str) (pos : Nat) : Except Fault Str :=
  if pos ≤ s.length then .ok (s.drop pos) else .error .outOfRange

/-- The tests of a date that is no key. -/
def checkDate (date : Str) : Except Fault Bool :=
  match find ['-'] date with
  | none => .ok false
  | some dateDelimPos =>
      let year := atoi (date.take dateDelimPos)
      if year < 2000 ∨ year > 3000 then .ok false
      else
        let nextDateDelimPos := position (findFrom ['-'] date (dateDelimPos + 1))
        let month := atoi ((date.drop (dateDelimPos + 1)).take
          (sizeT (nextDateDelimPos - dateDelimPos - 1)))
        if month < 1 ∨ month > 12 then .ok false
        else if nextDateDelimPos = 2 ^ 31 - 1 then .error .overflow
        else do
          let rest ← substr date (sizeT (nextDateDelimPos + 1))
          let day := atoi rest
          .ok (!(day < 1 ∨ day > 31 : Bool))

section Lines

variable {δ : Type} (ops : DoubleOps δ) (database : SortedMap Str δ)

def badInput (text : Str) : Report := .cerr ("Error: bad input => ".toList ++ text ++ ['\n'])

/-- What is written for a date, behind the search for it. -/
def reportAmount (date amount : Str) (rate : δ) : Report :=
  let convertedAmount := ops.strtod (trim amount)
  if ops.negative convertedAmount || ops.aboveThousand convertedAmount then
    if ops.negative convertedAmount then .cerr "Error: not a positive number.\n".toList
    else .cerr "Error: too large a number.\n".toList
  else .cout (date ++ " => ".toList ++ ops.shown convertedAmount ++ " = ".toList ++
    ops.shown (ops.times convertedAmount rate) ++ ['\n'])

def noData (date : Str) : Report := .cout ("No data for ".toList ++ date ++ "found\n".toList)

/-- The search for a date: the rate that `it` points at, if the date is not refused. -/
def lookUp (date : Str) : Except Leave (Option δ) :=
  match database.find date with
  | some rate => .ok (some rate)
  | none =>
      match checkDate date with
      | .error fault => .error (.thrown fault)
      | .ok false => .ok none
      | .ok true =>
          let it := database.lowerBound date
          if it = database.entries.length then .error (.returned (noData date))
          else
            match database.entries[if it ≠ 0 then it - 1 else it]? with
            | none => .error (.thrown .endOfMap)
            | some entry => .ok (some entry.2)

/-- The body of the loop. -/
def reportLine (tempString : Str) : Except Leave Report :=
  match find ['|'] tempString with
  | none => .ok (badInput tempString)
  | some delimPos => do
      let date := trim (tempString.take delimPos)
      let rate ← lookUp database date
      match rate with
      | none => .ok (badInput date)
      | some rate => .ok (reportAmount ops date (tempString.drop (delimPos + 1)) rate)

/-- The loop: what is written, and what is thrown. -/
def reportLines : List Str → List Report × Option Fault
  | [] => ([], none)
  | tempString :: rest =>
      match reportLine ops database tempString with
      | .error (.thrown fault) => ([], some fault)
      | .error (.returned report) => ([report], none)
      | .ok report => (report :: (reportLines rest).1, (reportLines rest).2)

def header : Str := "date | value".toList

/-- The lines of the file, with the header. -/
def changeDB (file : List Str) : List Report × Option Fault :=
  if file.headD [] ≠ header then
    ([], some (.runtimeError
      "Incorrect format in the input file, expected: date | value".toList))
  else reportLines ops database file.tail

end Lines

end FortyTwo.Cpp.BitcoinExchange
