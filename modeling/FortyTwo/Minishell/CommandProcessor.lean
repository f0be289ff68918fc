import FortyTwo.Foundation.DescriptorTable
import FortyTwo.Minishell.LineParsing

/-!
The descriptors of the shell while it runs a command list: `command.c`,
`command_utils.c`, and `handle_input_output` and `heredoc` of `command_utils2.c`. An
open file is its number in the order in which they were opened. The children of a
`fork` never come back to this code, and a failed one ends the shell, as `exit` does.
-/

namespace FortyTwo.Minishell

open Foundation

/-- Which calls of `open` and of `fork` succeed, by their number. -/
structure Outcomes where
  opens : Nat → Bool
  forks : Nat → Bool

/-- The descriptor table of the shell process, and how many files, calls of `open`
and calls of `fork` there have been. -/
structure Shell where
  table : DescriptorTable Nat
  created : Nat := 0
  opened : Nat := 0
  forked : Nat := 0
  deriving DecidableEq, Repr

namespace Shell

def file (s : Shell) (fd : Nat) : Option Nat := s.table.file fd

def close (s : Shell) (fd : Nat) : Shell := { s with table := s.table.close fd }

def dup2 (s : Shell) (old new : Nat) : Shell := { s with table := s.table.dup2 old new }

def dup (s : Shell) (old : Nat) : Nat × Shell :=
  (s.table.lowestFree, { s with table := s.table.assign s.table.lowestFree (s.table.file old) })

/-- A new open file under the lowest free number. -/
def create (s : Shell) : Nat × Shell :=
  (s.table.lowestFree,
    { s with table := s.table.assign s.table.lowestFree (some s.created), created := s.created + 1 })

/-- `open`; `none` is the result -1. -/
def openFile (s : Shell) (outcomes : Outcomes) : Option Nat × Shell :=
  let called := { s with opened := s.opened + 1 }
  if outcomes.opens s.opened then (some called.create.1, called.create.2) else (none, called)

/-- The two ends of a pipe, the reading one first. -/
def pipe (s : Shell) : Nat × Nat × Shell :=
  let (reading, s) := s.create
  let (writing, s) := s.create
  (reading, writing, s)

end Shell

/-- `t_execution`. -/
structure Execution where
  inFd : Nat
  outFd : Nat
  oStdin : Nat
  oStdout : Nat
  deriving DecidableEq, Repr

def createOriginalFds (s : Shell) : Execution × Shell :=
  let (oStdin, s) := s.dup 0
  let (oStdout, s) := s.dup 1
  (⟨0, 1, oStdin, oStdout⟩, s)

def assignAndClose (oldFd : Nat) (newFd : Option Nat) (s : Shell) : Nat × Shell :=
  match newFd with
  | some newFd => (newFd, if oldFd > 1 then s.close oldFd else s)
  | none => (oldFd, s)

/-- The lines that are read do not matter here; a file that cannot be made gives 0. -/
def heredoc (outcomes : Outcomes) (s : Shell) : Option Nat × Shell :=
  match s.openFile outcomes with
  | (none, s) => (some 0, s)
  | (some fd, s) => (s.close fd).openFile outcomes

/-- The loop of `wire_files`. -/
def wireFilesFrom (outcomes : Outcomes) (tempIn tempOut : Option Nat) (exec : Execution) (s : Shell) :
    List Redirection → Execution × Shell
  | [] => (exec, s)
  | current :: next =>
      let (tempIn, tempOut, s) :=
        match current.type with
        | .redirectionIn =>
            let (fd, s) := s.openFile outcomes
            (fd, tempOut, s)
        | .redirectionOut | .append =>
            let (fd, s) := s.openFile outcomes
            (tempIn, fd, s)
        | .heredoc =>
            let (fd, s) := heredoc outcomes s
            (fd, tempOut, s)
      let (inFd, s) := assignAndClose exec.inFd tempIn s
      let (outFd, s) := assignAndClose exec.outFd tempOut s
      wireFilesFrom outcomes tempIn tempOut { exec with inFd, outFd } s next

def wireFiles (outcomes : Outcomes) (exec : Execution) (s : Shell) (redirection : List Redirection) :
    Execution × Shell :=
  wireFilesFrom outcomes (some 0) (some 1) exec s redirection

/-- An `inFd` of `none` is -1. -/
def handleInputOutput (exec : Execution) (inFd : Option Nat) (outFd : Nat) (s : Shell) : Shell :=
  let s :=
    if exec.inFd ≠ 0 then (s.dup2 exec.inFd 0).close exec.inFd
    else
      match inFd with
      | some inFd => (s.dup2 inFd 0).close inFd
      | none => s
  if exec.outFd ≠ 1 then (s.dup2 exec.outFd 1).close exec.outFd
  else if outFd ≠ 1 then (s.dup2 outFd 1).close outFd
  else s

def closeAndOriginalFd (exec : Execution) (s : Shell) : Shell :=
  let s := (s.dup2 exec.oStdout 1).dup2 exec.oStdin 0
  let s := (s.close exec.oStdout).close exec.oStdin
  let s := if exec.outFd ≠ 1 then s.close exec.outFd else s
  if exec.inFd ≠ 0 then s.close exec.inFd else s

inductive BuiltinResult where
  | notBuiltin
  | ran
  | exits
  deriving DecidableEq, Repr

/-- Which commands `builtin` runs; none of them opens or closes a descriptor. -/
def builtin (command : Str) : BuiltinResult :=
  if command ∈ [['p', 'w', 'd'], ['c', 'd'], ['e', 'x', 'p', 'o', 'r', 't'],
      ['u', 'n', 's', 'e', 't'], ['e', 'c', 'h', 'o'], ['e', 'n', 'v']] then .ran
  else if command = ['e', 'x', 'i', 't'] then .exits
  else .notBuiltin

def closeIfOpen (fd : Option Nat) (s : Shell) : Shell :=
  match fd with
  | some fd => s.close fd
  | none => s

/-- `none` when the shell process ends. -/
def executor (outcomes : Outcomes) (cmdandfile : Token) (inFd : Option Nat) (outFd : Nat) (s : Shell) :
    Option Shell :=
  let (exec, s) := createOriginalFds s
  let (exec, s) := wireFiles outcomes exec s cmdandfile.redirection
  let s := handleInputOutput exec inFd outFd s
  match cmdandfile.multiCommand with
  | [] => some s
  | command :: _ =>
      match builtin command with
      | .ran => some (closeAndOriginalFd exec s)
      | .exits => none
      | .notBuiltin =>
          if outcomes.forks s.forked then
            let s := { s with forked := s.forked + 1 }
            some (closeAndOriginalFd exec ((closeIfOpen inFd s).close outFd))
          else none

/-- The loop of `command_processor`. -/
def commandProcessorFrom (outcomes : Outcomes) (prevFd : Option Nat) (s : Shell) :
    List Token → Option Shell
  | [] => some s
  | [cmdandfile] => (executor outcomes cmdandfile prevFd 1 s).map (closeIfOpen prevFd)
  | cmdandfile :: next :: rest =>
      let (reading, writing, s) := s.pipe
      match executor outcomes cmdandfile prevFd writing s with
      | none => none
      | some s =>
          commandProcessorFrom outcomes (some reading) (closeIfOpen prevFd (s.close writing))
            (next :: rest)

/-- `none` when the shell process ends, and the shell when `command_processor`
returns. -/
def commandProcessor (outcomes : Outcomes) (s : Shell) (cmdandfile : List Token) : Option Shell :=
  commandProcessorFrom outcomes none s cmdandfile

end FortyTwo.Minishell
