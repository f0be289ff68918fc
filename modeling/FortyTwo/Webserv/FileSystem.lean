import FortyTwo.Webserv.Text

/-!
The files that the server meets, as an oracle: what stands at each path, which
of the calls of the system succeed, and the longest `std::string`.
-/

namespace FortyTwo.Webserv

/-- What stands at a path. `size` is what `tellg` reports at the end, if it
reports anything. -/
inductive Node where
  | file (content : Bytes)
  | directory (entries : List Bytes) (size : Option Nat)
  | special (size : Option Nat)
  deriving DecidableEq, Repr

def Node.size : Node → Option Nat
  | .file content => some content.length
  | .directory _ size => size
  | .special size => size

def Node.isDirectory : Node → Bool
  | .directory _ _ => true
  | _ => false

structure FileSystem where
  node : Bytes → Option Node
  readable : Bytes → Bool
  appendable : Bytes → Bool
  removable : Bytes → Bool
  maxSize : Nat := 2 ^ 62

namespace FileSystem

variable (fs : FileSystem)

/-- The file that is opened for reading. -/
def openFile (path : Bytes) : Option Node :=
  if path = [] ∨ fs.readable path = false then none else fs.node path

def isDirectory (path : Bytes) : Bool :=
  match fs.node path with
  | some node => node.isDirectory
  | none => false

def isFileExists (path : Bytes) : Bool :=
  match fs.node path with
  | some node => !node.isDirectory
  | none => false

/-- `resize` of a string to a size that may be `-1`, and `read` into it. -/
def readInto (node : Node) (size : Option Nat) : Option Bytes :=
  let n := size.getD (2 ^ 64 - 1)
  if n > fs.maxSize then none
  else
    match node with
    | .file content => some content
    | _ => some (List.replicate n 0)

/-- `opendir` and `readdir`. -/
def entries (path : Bytes) : Option (List Bytes) :=
  match fs.openFile path with
  | some (.directory entries _) => some entries
  | _ => none

def setNode (path : Bytes) (node : Option Node) : FileSystem :=
  { fs with node := fun p => if p = path then node else fs.node p }

/-- An `ofstream` opened with `ios::app`, and a `write` to it. -/
def append (path data : Bytes) : Option FileSystem :=
  if fs.appendable path = false then none
  else
    match fs.node path with
    | some (.file content) => some (fs.setNode path (some (.file (content ++ data))))
    | none => some (fs.setNode path (some (.file data)))
    | some _ => some fs

def unlink (path : Bytes) : Option FileSystem :=
  if fs.removable path = true ∧ fs.isFileExists path = true then some (fs.setNode path none)
  else none

end FileSystem

end FortyTwo.Webserv
