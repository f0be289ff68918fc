import Mathlib.Data.List.Basic

/-!
The environment of the shell: `multidimensional.c`, `value_finder` of `main.c`,
and `export` and `unset` of `builtins_sec.c`. A C string is the list of its
characters.
-/

namespace FortyTwo.Minishell

abbrev Str := List Char

/-- `ft_strncmp(s, t, n) == 0`. -/
def ftStrncmpEq (s t : Str) (n : Nat) : Bool := s.take n == t.take n

/-- `ft_split`. -/
def ftSplit (s : Str) (c : Char) : List Str := (s.splitOn c).filter (· ≠ [])

/-- `ft_isalnum(c) || c == '_'`. -/
def isNameChar (c : Char) : Bool := c.isAlphanum || c == '_'

/-- `t_data`; a `path` that is not set is a null pointer. -/
structure Data where
  envp : List Str
  path : Option (List Str) := none
  exitStatus : Int := 0
  deriving DecidableEq, Repr

/-- The position of the first string that begins with the key. -/
def keyAlreadyPresent (key : Str) (multi : List Str) : Option Nat :=
  multi.findIdx? (fun text => ftStrncmpEq key text key.length)

def updateKey (key newValue : Str) : Str := key ++ newValue

def addToMulti (multi : List Str) (key value : Str) : List Str :=
  match keyAlreadyPresent key multi with
  | some atPosition => multi.set atPosition (updateKey key value)
  | none => multi ++ [updateKey key value]

def removeFromMulti (multi : List Str) (key : Str) : List Str :=
  match keyAlreadyPresent key multi with
  | some atPosition => multi.take atPosition ++ multi.drop (atPosition + 1)
  | none => multi

def valueFinder (key : Str) (multi : List Str) : Option Str :=
  (keyAlreadyPresent key multi).bind
    (fun atPosition => multi[atPosition]?.map (fun text => text.drop key.length))

/-- `ft_strlcpy` is given room for `i + 1` characters and the NUL. -/
def exportKey (src : Str) : Option Str :=
  let i := src.idxOf '='
  if i = 0 then none
  else
    let i := if src.contains '=' then i + 1 else i
    some (src.take (i + 1))

/-- `mini_export` with `command[1]`; without it the environment is printed. -/
def miniExport (argument : Option Str) (env : Data) : Data :=
  match argument with
  | none => env
  | some argument =>
      match exportKey argument with
      | none => env
      | some key =>
          let value := argument.drop key.length
          let env := { env with envp := addToMulti env.envp key value }
          if ftStrncmpEq "PATH=".toList key key.length then
            { env with path := some (ftSplit value ':') }
          else env

/-- `mini_unset` with `command[1]`, as `builtin` stores its result; without it
`envp` becomes a null pointer. -/
def miniUnset (argument : Option Str) (env : Data) : Data :=
  match argument with
  | none => { env with envp := [] }
  | some argument =>
      let env :=
        if ftStrncmpEq "PATH".toList argument argument.length then { env with path := none }
        else env
      { env with envp := removeFromMulti env.envp argument }

end FortyTwo.Minishell
