import Mathlib.Data.Nat.Digits.Lemmas
import Mathlib.Tactic

/-!
`ft_printf.c`, `ft_conversions.c`, `ft_print.c` and the `ft_itoa` of their
library. `write` writes what it is given, `malloc` succeeds, and `int` is exact
but for the arguments.
-/

namespace FortyTwo.Printf

abbrev Bytes := List UInt8

/-- A C string, without its zero. -/
abbrev CString := {s : Bytes // 0 ∉ s}

inductive Fault
  /-- The scan has read a byte behind the zero of the format. -/
  | afterNul
  /-- A byte outside of an array is read or written. -/
  | outOfBuffer
  /-- `va_arg` finds no argument of the type that it is asked for. -/
  | noArgument
deriving DecidableEq, Repr

inductive Arg where
  | int (n : Int32)
  | string (s : Option CString)
  | unsigned (n : UInt32)
  | pointer (p : UInt64)

/-- `t_parser`, with what is written to the output. -/
structure Parser where
  flag : UInt8 := 0
  len : Int := 0
  buffer : Bytes
  upperLower : UInt8 := 0
  output : Bytes := []

/-- `s[i] = c`. -/
def store (s : Bytes) (i : Nat) (c : UInt8) : Except Fault Bytes :=
  if i < s.length then .ok (s.set i c) else .error .outOfBuffer

/-- The string at the beginning of an array. -/
def cString : Bytes → Except Fault Bytes
  | [] => .error .outOfBuffer
  | c :: rest => if c = 0 then .ok [] else (cString rest).map (c :: ·)

/-- `while (number > 0)` with `number /= base`, for a base that is greater than 1. -/
def countDigits (base number multidigit : Nat) : Nat :=
  if _h : 0 < number ∧ 1 < base then countDigits base (number / base) (multidigit + 1)
  else multidigit
termination_by number
decreasing_by exact Nat.div_lt_self _h.1 _h.2

/-- The loops that put the last `todo` digits of a number in front of `s[i]`. -/
def writeDigits (base : Nat) (digit : Nat → UInt8) : Nat → Nat → Nat → Bytes → Except Fault Bytes
  | 0, _, _, s => .ok s
  | todo + 1, i, number, s => do
      let s ← store s (i - 1) (digit (number % base))
      writeDigits base digit todo (i - 1) (number / base) s

section Itoa

def ftNumMultiDigits (n : Int) : Nat :=
  if n = -2147483648 then 11
  else
    let multidigit := if n < 0 then 1 else 0
    let n := n.natAbs
    countDigits 10 n (if n = 0 then multidigit + 1 else multidigit)

/-- `ft_itoa` of an `int`. The memory that it allocates holds what `fresh` says. -/
def ftItoa (fresh : Nat → UInt8) (n : Int) : Except Fault Bytes :=
  let multidigit := ftNumMultiDigits n
  let string := (List.range (multidigit + 1)).map fresh
  if n = -2147483648 then .ok ("-2147483648".toList.map fun c => UInt8.ofNat c.toNat)
  else do
    let string ← if n < 0 then store string 0 45 else pure string
    let todo := if n < 0 then multidigit - 1 else multidigit
    let string ← writeDigits 10 (fun d => UInt8.ofNat (d + 48)) todo multidigit n.natAbs string
    cString (← store string multidigit 0)

end Itoa

namespace Parser

def ftPrintchr (p : Parser) (chr : UInt8) : Parser :=
  { p with len := p.len + 1, output := p.output ++ [chr] }

/-- The loop of `ft_buffer_zero`, on what is left of the buffer. -/
def bufferZero : Bytes → Except Fault Bytes
  | [] => .error .outOfBuffer
  | c :: rest => if c = 0 then .ok (c :: rest) else (bufferZero rest).map (0 :: ·)

/-- The end of `ft_printstr`. -/
def clear (p : Parser) : Except Fault Parser := do
  match p.buffer with
  | [] => throw .outOfBuffer
  | c :: _ => if c ≠ 0 then return { p with buffer := ← bufferZero p.buffer } else return p

def ftPrintstr (p : Parser) (str : Option Bytes) : Except Fault Parser :=
  match str with
  | none =>
      let text := "(null)".toList.map fun c => UInt8.ofNat c.toNat
      clear { p with len := p.len + 6, output := p.output ++ text }
  | some str => clear (str.foldl ftPrintchr p)

def ftMultidigit (base number : Nat) : Nat :=
  countDigits base number (if number = 0 then 1 else 0)

def ftItoaBase (p : Parser) (base number : Nat) : Except Fault Parser := do
  let multidigit := ftMultidigit base number
  let buffer ← store p.buffer multidigit 0
  let digit := fun d => UInt8.ofNat (if d > 9 then d + p.upperLower.toNat else d + 48)
  let buffer ← writeDigits base digit multidigit multidigit number buffer
  return { p with buffer := buffer }

/-- `ft_conversion_handler`, with `forhexa` or `forpointer`. -/
def ftConversionHandler (p : Parser) (number : Nat) : Except Fault Parser := do
  let p ←
    if p.flag = 120 then ftItoaBase { p with upperLower := 87 } 16 number
    else if p.flag = 88 then ftItoaBase { p with upperLower := 55 } 16 number
    else if p.flag = 117 then ftItoaBase { p with upperLower := 48 } 10 number
    else if p.flag = 112 then do
      let p ← ftPrintstr p (some [48, 120])
      ftItoaBase { p with upperLower := 87 } 16 number
    else pure p
  ftPrintstr p (some (← cString p.buffer))

end Parser

/-- `ft_operation`, with the arguments that are left. -/
def ftOperation (fresh : Nat → UInt8) (p : Parser) (args : List Arg) :
    Except Fault (Parser × List Arg) :=
  if p.flag = 37 then .ok (p.ftPrintchr 37, args)
  else if p.flag = 99 then
    match args with
    | .int n :: args => .ok (p.ftPrintchr n.toUInt32.toUInt8, args)
    | _ => .error .noArgument
  else if p.flag = 115 then
    match args with
    | .string s :: args => return (← p.ftPrintstr (s.map Subtype.val), args)
    | _ => .error .noArgument
  else if p.flag = 100 ∨ p.flag = 105 then
    match args with
    | .int n :: args => do
        let ptr ← ftItoa fresh n.toInt
        return (← p.ftPrintstr (some ptr), args)
    | _ => .error .noArgument
  else if p.flag = 120 ∨ p.flag = 88 ∨ p.flag = 117 then
    match args with
    | .unsigned n :: args => return (← p.ftConversionHandler n.toNat, args)
    | _ => .error .noArgument
  else if p.flag = 112 then
    match args with
    | .pointer n :: args => return (← p.ftConversionHandler n.toNat, args)
    | _ => .error .noArgument
  else .ok (p, args)

/-- The loop of `ft_printf`. -/
def scan (fresh : Nat → UInt8) : Bytes → Parser → List Arg → Except Fault Parser
  | [], p, _ => .ok p
  | c :: rest, p, args =>
      if c = 37 then
        match rest with
        | [] => do
            -- the flag is the zero, and `str++` goes behind it
            let _ ← ftOperation fresh { p with flag := 0 } args
            throw .afterNul
        | flag :: rest => do
            let (p, args) ← ftOperation fresh { p with flag := flag } args
            scan fresh rest p args
      else scan fresh rest (p.ftPrintchr c) args

/-- The return value and what is written. The buffer of the parser is not
initialised: it holds what was on the stack. -/
def ftPrintf (stack : Vector UInt8 32) (fresh : Nat → UInt8) (str : CString) (args : List Arg) :
    Except Fault (Int × Bytes) := do
  let p ← scan fresh str.val { buffer := stack.toList } args
  return (p.len, p.output)

end FortyTwo.Printf
