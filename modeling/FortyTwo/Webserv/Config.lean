import FortyTwo.Webserv.Text

/-!
`ServerConfig.hpp`, and the searches over it in `ServerUtils.cpp`. A `std::map`
is the list of its entries.
-/

namespace FortyTwo.Webserv

/-- `t_methods`. -/
structure Methods where
  getMethod : Bool := false
  postMethod : Bool := false
  deleteMethod : Bool := false
  deriving DecidableEq, Repr

/-- `t_commonConfig`. -/
structure CommonConfig where
  root : Bytes := []
  methods : Methods := {}
  index : List Bytes := []
  errorPage : List (Nat × Bytes) := []
  autoIndex : Bool := false
  returnPath : Bytes := []
  cgi : List (Bytes × Bytes) := []
  maxClientBody : Nat := 0
  returnCode : Int := -1
  deriving DecidableEq, Repr

/-- `t_location`. -/
structure Location where
  path : Bytes
  common : CommonConfig := {}
  chunkedTransferEncoding : Bool := false
  chunkedThreshold : Nat := 0
  chunkedSize : Nat := 0
  deriving DecidableEq, Repr

/-- `t_listen`. -/
structure Listen where
  host : Bytes
  port : Int
  deriving DecidableEq, Repr

/-- `t_config`. -/
structure Config where
  serverName : List Bytes := []
  common : CommonConfig := {}
  location : List Location := []
  listen : List Listen := []
  keepaliveTimeout : Int := 0
  deriving DecidableEq, Repr

/-- `text.find_last_of(c)`. -/
def findLastOf (c : UInt8) (text : Bytes) : Option Nat :=
  (text.reverse.idxOf? c).map (fun i => text.length - 1 - i)

/-- `server_utils::get_filename`. -/
def getFilename (fullPath out : Bytes) : Bytes :=
  match findLastOf (byteOf '/') fullPath with
  | none => out
  | some lastSlashPos => fullPath.drop (lastSlashPos + 1)

def getDirectoryPath (fullPath : Bytes) : Bytes :=
  if fullPath = [] then bytes "/"
  else if fullPath = bytes "/" then fullPath
  else
    match findLastOf (byteOf '/') fullPath with
    | none => []
    | some 0 => bytes "/"
    | some stop => fullPath.take stop

def getFileExtension (path : Bytes) : Bytes :=
  if path.length < 3 then []
  else
    let last := path.length - 1
    let stop := if charAt path last = byteOf '/' then last - 1 else last
    match findLastOf (byteOf '.') path with
    | none => []
    | some start => if stop = start then [] else (path.drop start).take stop

/-- `get_cgi_bin`: the interpreter of the path, if it has one. -/
def getCgiBin (uriPath : Bytes) (config : Config) : Option Bytes :=
  let extension := getFileExtension uriPath
  let dirPath := getDirectoryPath uriPath
  if extension = [] ∨ dirPath = [] then none
  else if dirPath = bytes "/" then config.common.cgi.lookup extension
  else
    match config.location.find? (fun location => location.path == dirPath) with
    | some location => location.common.cgi.lookup extension
    | none => none

def getLocationMaxBodySize (uriPath : Bytes) (config : Config) : Nat :=
  let dirPath := getDirectoryPath uriPath
  if dirPath = bytes "/" then config.common.maxClientBody
  else
    match config.location.find? (fun location => location.path == dirPath) with
    | some location => location.common.maxClientBody
    | none => 0

end FortyTwo.Webserv
