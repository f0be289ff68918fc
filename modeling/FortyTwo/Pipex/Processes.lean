import FortyTwo.Foundation.PipeProcesses
import FortyTwo.Pipex.Quoting

/-!
The program of the pipe: `main.c`, `error.c`, `utils.c` and the rest of `parse.c`. What the
system answers is given beforehand: which names can be accessed and opened, and whether there
is a pipe. What is written to the standard error is left out, and memory is not run out of.
-/

namespace FortyTwo.Pipex

open Foundation

/-- The files that a descriptor may refer to, besides the pipe's ends. -/
inductive File where
  | inherited (n : Nat)
  | file1
  | file2
  deriving DecidableEq, Repr

abbrev Table := DescriptorTable (PipeFile File)

/-- What `access` tests. -/
inductive Access where
  | exists
  | executable
  deriving DecidableEq, Repr

structure Outcomes where
  access : Str → Access → Bool
  opens : Str → Bool
  pipes : Bool

structure Data where
  fd : Nat × Nat
  readfile : Nat
  writefile : Nat
  path : List Str
  envp : List Str

structure Command where
  path : Str
  argv : List Str
  envp : List Str
  deriving DecidableEq, Repr

abbrev Program := PipeProgram Command

def ftStrncmp : Str → Str → Nat → Int
  | _, _, 0 => 0
  | [], [], _ + 1 => 0
  | s1, s2, n + 1 =>
      if s1.headD '\x00' ≠ s2.headD '\x00' then
        (s1.headD '\x00').toNat - (s2.headD '\x00').toNat
      else ftStrncmp s1.tail s2.tail n

def ftStrchr (string : Str) (c : Char) : Option Str :=
  match string.dropWhile (· ≠ c) with
  | [] => none
  | rest => some rest

/-- The loop of `extract_path`. -/
def findPath : List Str → Option Str
  | [] => none
  | entry :: envp =>
      if ftStrncmp entry "PATH=".toList 5 = 0 then
        match ftStrchr entry '/' with
        | none => findPath envp
        | some path => some path
      else findPath envp

def extractPath (envp : List Str) : Except UInt8 (List Str) :=
  match findPath envp with
  | some path => .ok (ftSplit ':' path)
  | none => .error 127

def executable (outcomes : Outcomes) (command : Str) : Option Str :=
  if outcomes.access command .executable then some command else none

/-- The loop of `command_exists`. -/
def searchPath (outcomes : Outcomes) (commandWithSlash : Str) : List Str → Option Str
  | [] => none
  | directory :: path =>
      let commandWithPath := directory ++ commandWithSlash
      if outcomes.access commandWithPath .exists then executable outcomes commandWithPath
      else searchPath outcomes commandWithSlash path

def commandExists (outcomes : Outcomes) (path : List Str) : Option Str → Option Str
  | none => none
  | some command =>
      if 2 < command.length ∧ "./".toList <+: command then
        if outcomes.access command .exists then executable outcomes command else none
      else searchPath outcomes ('/' :: command) path

/-- What `argv` asks to be executed. -/
def commandOf (outcomes : Outcomes) (argv : Str) (data : Data) : Option Command :=
  let cmd := ftSplit separator (multiQuetes argv)
  (commandExists outcomes data.path cmd.head?).map fun rootcmd => ⟨rootcmd, cmd, data.envp⟩

def readProcess (outcomes : Outcomes) (argv : Str) (data : Data) : Program :=
  match commandOf outcomes argv data with
  | none => .exit 127
  | some command =>
      .dup2 data.readfile 0 <| .dup2 data.fd.2 1 <|
        .close data.fd.1 <| .close data.fd.2 <| .close data.readfile <|
          .execve command (.exit 1)

def writeProcess (outcomes : Outcomes) (argv : Str) (data : Data) : Program :=
  match commandOf outcomes argv data with
  | none => .exit 127
  | some command =>
      .dup2 data.writefile 1 <| .dup2 data.fd.1 0 <|
        .close data.fd.2 <| .close data.fd.1 <| .close data.writefile <|
          .execve command (.exit 1)

/-- The status of the program, by how the second process has ended. -/
def exitStatus : Ending → UInt8
  | .exited status => status
  | .killed => 0

/-- Behind the second `waitpid`. -/
def afterWaiting (data : Data) (status : Ending) : Program :=
  .close data.fd.1 <| .close data.writefile <| .exit (exitStatus status)

/-- A `fork` that fails is `fork_error`. -/
def secondFork (outcomes : Outcomes) (argv : List Str) (data : Data) (pid : Nat) : Program :=
  .fork (.exit 1) (writeProcess outcomes (argv.getD 3 []) data) fun pid2 =>
    .waitpid pid fun _ => .waitpid pid2 (afterWaiting data)

def multiProcesses (outcomes : Outcomes) (argv : List Str) (data : Data) : Program :=
  .fork (.exit 1) (readProcess outcomes (argv.getD 2 []) data) fun pid =>
    .close data.fd.2 <| .close data.readfile <| secondFork outcomes argv data pid

def argumentCorrect (argv : List Str) : Bool :=
  argv.length = 5 ∧ ∀ arg ∈ argv, arg ≠ [] ∧ arg.head? ≠ some ' '

/-- A file opened at the lowest number that is free. -/
def openFile (outcomes : Outcomes) (t : Table) (file : Str) (opened : File) :
    Except UInt8 (Nat × Table) :=
  if file = [] then .error 1
  else if outcomes.opens file then
    .ok (t.lowestFree, t.assign t.lowestFree (some (.other opened)))
  else .error 1

def pipe (outcomes : Outcomes) (t : Table) : Except UInt8 ((Nat × Nat) × Table) :=
  if outcomes.pipes then
    let read := t.lowestFree
    let t := t.assign read (some .readEnd)
    let write := t.lowestFree
    .ok ((read, write), t.assign write (some .writeEnd))
  else .error 1

/-- What the program has before it forks, or the status that it ends with without having
forked. -/
def prepare (outcomes : Outcomes) (argv envp : List Str) (t : Table) :
    Except UInt8 (Data × Table) := do
  if argumentCorrect argv then
    let (writefile, t) ← openFile outcomes t (argv.getD 4 []) .file2
    let (readfile, t) ← openFile outcomes t (argv.getD 1 []) .file1
    let (fd, t) ← pipe outcomes t
    let path ← extractPath envp
    .ok ({ fd, readfile, writefile, path, envp }, t)
  else .error 1

/-- The one process that there is at the start of `multi_processes`. -/
def main (outcomes : Outcomes) (argv envp : List Str) (t : Table) :
    Except UInt8 (PipeSystem File Command) := do
  let (data, t) ← prepare outcomes argv envp t
  .ok { procs := [⟨t, .program (multiProcesses outcomes argv data)⟩], buffered := 0 }

end FortyTwo.Pipex
