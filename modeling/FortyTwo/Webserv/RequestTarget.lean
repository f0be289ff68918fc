import FortyTwo.Webserv.Config
import FortyTwo.Webserv.Request

/-!
The request target: percent-decoding (`ServerRequestParserHelpers.cpp`) and
`parse_absolute_path` (`RequestHeaderParser.cpp`).
-/

namespace FortyTwo.Webserv

def toLower (c : UInt8) : UInt8 := if 65 ≤ c ∧ c ≤ 90 then c + 32 else c

def isUnreserved (c : UInt8) : Bool := isDigit c || isAlpha c || (bytes "-._~").contains c

def isSubDelim (c : UInt8) : Bool := (bytes "!$&'()*+,;=").contains c

def isPchar (c : UInt8) : Bool :=
  isUnreserved c || isSubDelim c || c == byteOf ':' || c == byteOf '@'

/-- Only the second of the two digits is looked at. -/
def isPosHex (str : Bytes) (pos : Nat) : Bool :=
  decide (pos + 3 ≤ str.length) && charAt str pos == byteOf '%' &&
    (bytes "0123456789abcdefABCDEF").contains (charAt str (pos + 2))

/-- The index of the digit, `npos` for any other character. -/
def charToHex (c : UInt8) : Nat :=
  ((bytes "0123456789abcdef").idxOf? (toLower c)).getD (2 ^ 64 - 1)

/-- The byte that two digits stand for. -/
def hexByte (str : Bytes) (pos : Nat) : UInt8 :=
  UInt8.ofNat (charToHex (charAt str (pos + 1)) * 16 + charToHex (charAt str (pos + 2)))

def continuationByteSize (leadingByte : UInt8) : Nat :=
  if 0xC2 ≤ leadingByte ∧ leadingByte ≤ 0xDF then 1
  else if 0xE0 ≤ leadingByte ∧ leadingByte ≤ 0xEF then 2
  else if 0xF0 ≤ leadingByte ∧ leadingByte ≤ 0xF4 then 3
  else 0

/-- The continuation bytes after the encoded byte at `pos`. -/
def continuationBytes (string : Bytes) : Nat → Nat → Option Bytes
  | 0, _ => some []
  | n + 1, pos =>
      if isPosHex string (pos + 3) then
        (continuationBytes string n (pos + 3)).map (hexByte string (pos + 3) :: ·)
      else none

/-- The decoded bytes and how many characters stand for them. -/
def utf8CharDecoder (string : Bytes) (charPos : Nat) : Option (Bytes × Nat) :=
  let leadingByte := hexByte string charPos
  let size := continuationByteSize leadingByte
  (continuationBytes string size charPos).map (fun rest => (leadingByte :: rest, 3 * (size + 1)))

/-- The loop over the characters of a path, or of a query, up to `stop`. -/
def decodeLoop (uriPath : Bytes) (stop : UInt8) (isPlain : UInt8 → Bool) :
    Nat → Nat → Bytes → Option (Bytes × Nat)
  | 0, pos, out => some (out, pos)
  | fuel + 1, pos, out =>
      if pos < uriPath.length ∧ charAt uriPath pos ≠ stop then
        if isPlain (charAt uriPath pos) || isPchar (charAt uriPath pos) then
          decodeLoop uriPath stop isPlain fuel (pos + 1) (out ++ [charAt uriPath pos])
        else if isPosHex uriPath pos then
          match utf8CharDecoder uriPath pos with
          | none => none
          | some (decoded, consumed) =>
              decodeLoop uriPath stop isPlain fuel (pos + consumed) (out ++ decoded)
        else some (out, pos)
      else some (out, pos)

/-- The queries from `pos` on. `fuel` counts the bytes to the end. -/
def queriesLoop (uriPath : Bytes) : Nat → Nat → List Bytes → Except Status (List Bytes)
  | 0, _, queries => .ok queries
  | fuel + 1, pos, queries =>
      if pos < uriPath.length then
        match decodeLoop uriPath (byteOf '&') (fun c => c == byteOf '/' || c == byteOf '?')
            uriPath.length pos [] with
        | none => .error .badRequest
        | some (query, pos) =>
            if query = [] then .error .badRequest
            else
              queriesLoop uriPath fuel (if charAt uriPath pos = byteOf '&' then pos + 1 else pos)
                (queries ++ [query])
      else .ok queries

def parseAbsolutePathQueries (uriPath : Bytes) (pos : Nat) : Except Status (List Bytes) :=
  queriesLoop uriPath (uriPath.length + 1) pos []

/-- `extract_mime`. -/
def extractMime (filename out : Bytes) : Bytes :=
  match findLastOf (byteOf '.') filename with
  | none => out
  | some pos => filename.drop pos

def setUriPath (path : Bytes) (request : Request) : Request :=
  let filename := getFilename path request.filename
  { request with
    uriPath := path
    filename := filename
    mimeType := extractMime filename request.mimeType }

def parseAbsolutePath (uriPath : Bytes) (request : Request) : Status × Request :=
  if charAt uriPath 0 ≠ byteOf '/' then (.badRequest, request)
  else
    match decodeLoop uriPath (byteOf '?') (· == byteOf '/') uriPath.length 0 [] with
    | none => (.badRequest, request)
    | some (path, pos) =>
        if pos < uriPath.length ∧ charAt uriPath pos ≠ byteOf '?' ∧
            isPchar (charAt uriPath pos) = false then
          (.badRequest, request)
        else if charAt uriPath pos = byteOf '?' then
          match parseAbsolutePathQueries uriPath (pos + 1) with
          | .error _ => (.badRequest, request)
          | .ok queries => (.ok, setUriPath path { request with pathQueries := queries })
        else (.ok, setUriPath path request)

end FortyTwo.Webserv
