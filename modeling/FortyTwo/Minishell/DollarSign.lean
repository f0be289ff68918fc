import FortyTwo.Foundation.BoundedLoop
import FortyTwo.Minishell.Builtins

/-!
The expansion of a command line: `dollar_sign.c`, `expand_message` of
`dollar_sign2.c`, `remove_dollar` of `utils.c` and `single_quote` of `utils2.c`.
The loop of `check_dollar_sign` rewrites the string that it scans and may run for
ever; it also may read past the end of the string, or write past the end of the
buffer of a name.
-/

namespace FortyTwo.Minishell

open Foundation

inductive Fault where
  | outOfFuel
  | pastEnd
  | nameTooLong
  deriving DecidableEq, Repr

def ftItoa (n : Int) : Str := (toString n).toList

/-- The name with its `=`, and the index behind it. The buffer has room for 256
characters, the `=` and the NUL among them. -/
def extractVarName (str : Str) (index : Nat) : Except Fault (Str × Nat) :=
  let varName := (str.drop index).takeWhile isNameChar
  if varName.length + 2 ≤ 256 then .ok (varName ++ ['='], index + varName.length)
  else .error .nameTooLong

def replaceVarWithValue (str varValue : Str) (start varLen : Nat) : Str :=
  str.take (start - varLen) ++ varValue ++ str.drop start

def replaceWithExitStatus (str : Str) (i : Nat) (data : Data) : Str :=
  if str[i]? = some '?' ∧ str[i - 1]? = some '$' then
    replaceVarWithValue str (ftItoa data.exitStatus) (i + 1) 2
  else str

def replaceVariable (str : Str) (i : Nat) (data : Data) : Except Fault (Str × Nat) :=
  (extractVarName str i).map fun (varName, next) =>
    match valueFinder varName data.envp with
    | none => (str, next)
    | some varValue => (replaceVarWithValue str varValue next (next - i), next)

/-- One round of the loop of `check_dollar_sign`, on the string and the index. -/
def dollarRound (data : Data) (s : Str × Nat) : Except Fault (Str × Nat) :=
  match s.1[s.2]? with
  | none => .error .pastEnd
  | some c =>
      if c = '$' then
        let i := s.2 + 1
        if s.1[i]? = some '?' then .ok (replaceWithExitStatus s.1 i data, i)
        else replaceVariable s.1 i data
      else .ok (s.1, s.2 + 1)

/-- `str[i]` at the end of the string is its NUL, and past it is not the string's. -/
def checkDollarSign (data : Data) (fuel : Nat) (command : Str) : Except Fault Str :=
  (boundedWhile .outOfFuel (fun s : Str × Nat => s.2 != s.1.length) (dollarRound data) fuel
    (command, 0)).map Prod.fst

/-- `process_dollar_removal` keeps a `$` that is followed by this. -/
def keepsDollar (rest : Str) : Bool :=
  match rest with
  | [] => true
  | c :: _ => c == ' ' || c == '"'

def removeDollar : Str → Str
  | [] => []
  | c :: rest =>
      if c = '$' ∧ keepsDollar rest then c :: removeDollar rest
      else if c ≠ '$' then c :: removeDollar rest
      else removeDollar rest

/-- A `$` stands inside single quotes. -/
def singleQuote (singleQuotes : Bool) : Str → Bool
  | [] => false
  | c :: rest =>
      if c = '\'' then singleQuote (!singleQuotes) rest
      else if c = '$' ∧ singleQuotes then true
      else singleQuote singleQuotes rest

def expandMessage (data : Data) (fuel : Nat) (message : Str) : Except Fault Str :=
  if singleQuote false message then .ok message
  else (checkDollarSign data fuel message).map removeDollar

end FortyTwo.Minishell
