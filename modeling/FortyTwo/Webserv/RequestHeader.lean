import FortyTwo.Webserv.RequestTarget

/-!
`RequestHeaderParser.cpp`. The parsers of the single fields are a parameter:
the loop over the header lines only hands them values and looks at the status.
-/

namespace FortyTwo.Webserv

open Foundation

/-- `is_obs_fold` on the bytes that are left. -/
def unfoldString : Bytes → Bytes
  | 13 :: 10 :: w :: rest =>
      if isWs w then 32 :: unfoldString rest else 13 :: unfoldString (10 :: w :: rest)
  | c :: rest => c :: unfoldString rest
  | [] => []

def isMethodValid (method : Bytes) : Bool :=
  method == bytes "GET" || method == bytes "POST" || method == bytes "DELETE"

def isSupportedProtocolVersion (protocolVersion : Bytes) : Bool :=
  protocolVersion == bytes "HTTP/1.1" || protocolVersion == bytes "HTTP/1.0"

def isProtocolValid (protocolVersion : Bytes) : Bool :=
  protocolVersion.length == 8 && (bytes "HTTP/").isPrefixOf protocolVersion &&
    isDigit (charAt protocolVersion 5) && charAt protocolVersion 6 == byteOf '.' &&
    isDigit (charAt protocolVersion 7)

/-- For one character `get_token_with_delims` and `get_token_with_delim` are the
same. -/
def parseRequestLine (requestLine : Bytes) (request : Request) : Status × Request :=
  let (method, pos) := getTokenWithDelim requestLine 0 (bytes " ") true
  let (uriPath, pos) := getTokenWithDelim requestLine pos (bytes " ") true
  let protocolVersion := requestLine.drop pos
  if method = [] ∨ uriPath = [] ∨ protocolVersion = [] then (.badRequest, request)
  else if isMethodValid method = false then (.notImplemented, request)
  else
    let (status, request) := parseAbsolutePath uriPath request
    if status.isError then (status, request)
    else if isProtocolValid protocolVersion = false then (.badRequest, request)
    else if isSupportedProtocolVersion protocolVersion = false then
      (.httpVersionNotSupported, request)
    else (.ok, { request with method := method, protocolVersion := protocolVersion })

/-- The fields with a parser, `get_field_parser_by_field_type`. -/
inductive FieldType where
  | host
  | contentLength
  | userAgent
  | accept
  | acceptLanguage
  | connection
  | contentType
  | transferEncoding
  | cookie
  deriving DecidableEq, Repr

def fieldTypes : List (Bytes × FieldType) :=
  [(bytes "host", .host), (bytes "content-length", .contentLength),
    (bytes "user-agent", .userAgent), (bytes "accept", .accept),
    (bytes "accept-language", .acceptLanguage), (bytes "connection", .connection),
    (bytes "content-type", .contentType), (bytes "transfer-encoding", .transferEncoding),
    (bytes "cookie", .cookie)]

def getFieldType (fieldType : Bytes) : Option FieldType := fieldTypes.lookup fieldType

/-- `(this->*field_parser)(field_value, request)` for every known field. -/
abbrev FieldParsers := FieldType → Bytes → Request → Except Fault (Status × Request)

def parseHost (fieldValue : Bytes) (request : Request) : Status × Request :=
  (.ok, { request with host := fieldValue })

def isContentTypeValid (request : Request) : Bool :=
  if request.contentType.type = bytes "multipart" ∧
      request.contentType.subtype = bytes "form-data" then
    (request.contentType.parameters.lookup (bytes "boundary")).isSome
  else true

def isRequestValid (config : Config) (request : Request) : Status :=
  if request.method = bytes "POST" ∧ request.contentLength = 0 then .badRequest
  else if isContentTypeValid request = false then .badRequest
  else
    let maxBodySize := getLocationMaxBodySize request.uriPath config
    if request.method = bytes "POST" ∧ maxBodySize > 0 ∧ maxBodySize < request.contentLength then
      .requestEntityTooLarge
    else .ok

/-- A header field as the loop has read it. -/
structure VisitedField where
  fieldType : Bytes
  fieldValue : Bytes
  deriving DecidableEq, Repr

/-- The field that begins at `pos`, and the position after its line. -/
def readField (buffer : Bytes) (pos : Nat) : VisitedField × Nat :=
  let (fieldType, pos) := getTokenWithDelim buffer pos (bytes ": ") true
  let (fieldValue, pos) := getTokenWithDelim buffer pos crlf true
  (⟨fieldType.map toLower, fieldValue⟩, pos)

/-- What the loop does with a field: one that is not known is passed over. -/
def parseField (parsers : FieldParsers) (field : VisitedField) (request : Request) :
    Except Fault (Status × Request) :=
  match getFieldType field.fieldType with
  | some fieldType => parsers fieldType field.fieldValue request
  | none => .ok (.ok, request)

/-- The loop over the fields, for at most `fuel` rounds. `visited` are the
fields that it has read; `len` is the length of the buffer before folded lines
were joined. -/
def fieldsLoop (parsers : FieldParsers) (buffer : Bytes) (len : Nat) :
    Nat → Nat → Request → List VisitedField → Except Fault (List VisitedField × Status × Request)
  | 0, _, _, _ => .error .outOfFuel
  | fuel + 1, pos, request, visited => do
      let (field, pos) := readField buffer pos
      let visited := visited ++ [field]
      let (status, request) ← parseField parsers field request
      if status.isError then pure (visited, status, request)
      else if pos < len then fieldsLoop parsers buffer len fuel pos request visited
      else pure (visited, status, request)

structure RequestHeaderParser where
  buffer : Bytes := []
  endFound : Bool := false
  deriving DecidableEq, Repr

namespace RequestHeaderParser

/-- `static_cast<int>` of a difference of sizes. -/
def toInt (n : Int) : Int := (n + 2 ^ 31) % 2 ^ 32 - 2 ^ 31

def npos : Nat := 2 ^ 64 - 1

/-- The parser, the status and `body_start_pos`. -/
def feed (p : RequestHeaderParser) (content : Bytes) (bodyStartPos : Nat) :
    RequestHeaderParser × Status × Nat :=
  if p.endFound then (p, .ok, bodyStartPos)
  else
    let tempBuffer := p.buffer ++ content
    match find (crlf ++ crlf) tempBuffer with
    | none => ({ p with buffer := tempBuffer }, .dataIsNotReady, npos)
    | some currEndPos =>
        let contentNewPos := toInt (content.length - tempBuffer.length + currEndPos + 4)
        (⟨tempBuffer.take currEndPos, true⟩, .ok, contentNewPos.toNat)

def routeCgi (config : Config) (request : Request) : Request :=
  match getCgiBin request.uriPath config with
  | some cgiBin => { request with cgiBin := cgiBin, isCgi := true }
  | none => request

/-- `apply`, with the fields that it has read. -/
def parseCompleteHeader (parsers : FieldParsers) (config : Config) (p : RequestHeaderParser)
    (request : Request) :
    Except Fault (RequestHeaderParser × List VisitedField × Status × Request) :=
  if p.endFound = false then .ok (p, [], .dataIsNotReady, request)
  else do
    let len := p.buffer.length
    let buffer := unfoldString p.buffer
    let (requestLine, pos) := getTokenWithDelim buffer 0 crlf true
    let (status, request) := parseRequestLine requestLine request
    if status.isError then pure ({ p with buffer := buffer }, [], status, request)
    else
      let (visited, status, request) ←
        fieldsLoop parsers buffer len (len + 1) pos (routeCgi config request) []
      if status.isError then pure ({ p with buffer := buffer }, visited, status, request)
      else pure ({ p with buffer := buffer }, visited, isRequestValid config request, request)

end RequestHeaderParser

end FortyTwo.Webserv
