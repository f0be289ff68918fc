import FortyTwo.Minishell.Builtins

/-!
The parsing of a command line behind its expansion: `redirection_no_spaces.c`,
`token.c`, `parsing.c` and `redirection_token.c`. The two tokenizers keep their
place in a static pointer; here the place is passed on. `count_word` sizes the
array of the command words, so it may be too small for them.
-/

namespace FortyTwo.Minishell

/-- The values of `t_type` that a redirection has. -/
inductive RedirectionType where
  | redirectionIn
  | redirectionOut
  | append
  | heredoc
  deriving DecidableEq, Repr

structure Redirection where
  fileName : Str
  type : RedirectionType
  deriving DecidableEq, Repr

/-- `t_token`; `cmd_count` is the number of the command words. -/
structure Token where
  value : Str
  multiCommand : List Str
  wordCount : Nat
  redirection : List Redirection
  deriving DecidableEq, Repr

def isQuote (c : Char) : Bool := c == '"' || c == '\''

section Spacing

def isRedirectionSymbol (c : Char) : Bool := c == '<' || c == '>'

/-- A neighbour that `insert_space` sets a space against. -/
def needsSpace (neighbour : Option Char) : Bool :=
  match neighbour with
  | none => false
  | some c => c != ' ' && !isRedirectionSymbol c

/-- The redirection symbol `c` between the characters `before` and `after`. -/
def insertSpace (before : Option Char) (c : Char) (after : Option Char) : Str :=
  (if needsSpace before then [' '] else []) ++ c :: (if needsSpace after then [' '] else [])

def quotesBehind (inQuotes : Bool) (c : Char) : Bool := if isQuote c then !inQuotes else inQuotes

/-- The loop of `redirection_with_no_space`, behind the character `before`. -/
def spacedFrom (inQuotes : Bool) (before : Option Char) : Str → Str
  | [] => []
  | c :: rest =>
      (if !quotesBehind inQuotes c && isRedirectionSymbol c then insertSpace before c rest.head?
        else [c]) ++ spacedFrom (quotesBehind inQuotes c) (some c) rest

def redirectionWithNoSpace (message : Str) : Str := spacedFrom false none message

end Spacing

section Tokens

/-- The text up to the first delimiter outside quotes, and what is left with it. -/
def stringWithQuotes (delim : Str) (insideQuote : Option Char) : Str → Str × Str
  | [] => ([], [])
  | c :: rest =>
      if isQuote c then
        let insideQuote :=
          match insideQuote with
          | some quoteChar => if c = quoteChar then none else some quoteChar
          | none => some c
        let (text, left) := stringWithQuotes delim insideQuote rest
        (c :: text, left)
      else if insideQuote = none ∧ c ∈ delim then ([], c :: rest)
      else
        let (text, left) := stringWithQuotes delim insideQuote rest
        (c :: text, left)

/-- The next token of `str`, and the value of `last` behind it. -/
def ftStrtok (str delim : Str) : Option (Str × Option Str) :=
  let str := str.dropWhile (· ∈ delim)
  if str = [] then none
  else
    match stringWithQuotes delim none str with
    | (text, []) => some (text, none)
    | (text, _ :: last) => some (text, some last)

theorem stringWithQuotes_append (delim : Str) (insideQuote : Option Char) (str : Str) :
    (stringWithQuotes delim insideQuote str).1 ++ (stringWithQuotes delim insideQuote str).2 =
      str := by
  fun_induction stringWithQuotes delim insideQuote str with
  | case1 => rfl
  | case2 insideQuote c rest hquote next text left heq ih =>
      rw [heq] at ih
      exact congrArg (c :: ·) ih
  | case3 insideQuote c rest hquote hdelim => rfl
  | case4 insideQuote c rest hquote hdelim text left heq ih =>
      rw [heq] at ih
      exact congrArg (c :: ·) ih

theorem ftStrtok_shorter {str delim text last : Str}
    (h : ftStrtok str delim = some (text, some last)) : last.length < str.length := by
  rw [ftStrtok] at h
  have hle := (List.dropWhile_suffix (l := str) (fun c => decide (c ∈ delim))).length_le
  split at h
  · cases h
  · split at h
    · cases h
    · next heq =>
        have hsplit := stringWithQuotes_append delim none (str.dropWhile (· ∈ delim))
        rw [heq] at hsplit
        have hlength := congrArg List.length hsplit
        rw [List.length_append, List.length_cons] at hlength
        cases h
        omega

/-- The tokens of one pass; a `last` of `none` is a null pointer. -/
def strtokAll (delim : Str) (last : Option Str) : List Str :=
  match last with
  | none => []
  | some str =>
      match _h : ftStrtok str delim with
      | none => []
      | some (text, none) => [text]
      | some (text, some last) => text :: strtokAll delim (some last)
  termination_by (last.getD []).length
  decreasing_by exact ftStrtok_shorter _h

/-- Without a quote at its start a word loses all quotes, and with one only this
one, and its like at the end. -/
def stripQuotes : Str → Str
  | [] => []
  | c :: rest =>
      if isQuote c then
        if rest.getLast? = some c then rest.dropLast else rest
      else (c :: rest).filter (fun d => !isQuote d)

/-- The words that `ft_strtok_copy` gives. -/
def strtokCopyAll (str delim : Str) : List Str := (strtokAll delim (some str)).map stripQuotes

end Tokens

section Commands

def whitespace : Str := ['\t', '\r', '\x0b', ' ']

def isRedirectionOperator (word : Str) : Bool :=
  word == ['>'] || word == ['<'] || word == ['>', '>'] || word == ['<', '<']

/-- `search_type`, on an operator. -/
def searchType (word : Str) : RedirectionType :=
  if word = ['<'] then .redirectionIn
  else if word = ['>'] then .redirectionOut
  else if word = ['>', '>'] then .append
  else .heredoc

def countWord (inToken : Bool) : Str → Nat
  | [] => 0
  | c :: rest =>
      if c = ' ' then countWord false rest
      else if inToken then countWord true rest
      else countWord true rest + 1

/-- The loop of `init_multi_command` over the words. -/
def commandWords (redirection : Bool) : List Str → List Str
  | [] => []
  | word :: rest =>
      if isRedirectionOperator word then commandWords true rest
      else if redirection then commandWords false rest
      else word :: commandWords false rest

/-- The loop of `create_redirection_list`; the type of the operator is pending
while `redirection` is set. -/
def redirectionList (pending : Option RedirectionType) : List Str → List Redirection
  | [] => []
  | word :: rest =>
      if isRedirectionOperator word then redirectionList (some (searchType word)) rest
      else
        match pending with
        | some type => ⟨word, type⟩ :: redirectionList none rest
        | none => redirectionList none rest

/-- The command words and their NULL do not fit into `word_count + 1` pointers. -/
inductive Overflow where
  | multiCommand
  deriving DecidableEq, Repr

/-- `create_token`, `init_multi_command` and `create_redirection_list`. -/
def createToken (token : Str) : Except Overflow Token :=
  let words := strtokCopyAll token whitespace
  let multiCommand := commandWords false words
  let wordCount := countWord false token
  if multiCommand.length ≤ wordCount then
    .ok ⟨token, multiCommand, wordCount, redirectionList none words⟩
  else .error .multiCommand

def createLinkedList (message : Str) : Except Overflow (List Token) :=
  (strtokAll ['|'] (some message)).mapM createToken

end Commands

end FortyTwo.Minishell
