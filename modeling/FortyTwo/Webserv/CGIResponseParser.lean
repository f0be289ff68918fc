import FortyTwo.Webserv.RequestHeader

/-!
`CGIResponseParser.cpp`: what a CGI program writes, put into the request record
of its context. `atoi` is exact.
-/

namespace FortyTwo.Webserv

open Foundation

/-- `data.find_first_of(delims, start)`. -/
def findFirstOf (delims data : Bytes) (start : Nat) : Option Nat :=
  ((data.drop start).findIdx? (fun c => delims.contains c)).map (· + start)

/-- The token and the position after it. -/
def getTokenWithDelims (data : Bytes) (start : Nat) (delims : Bytes) (skipDelims : Bool) :
    Bytes × Nat :=
  match findFirstOf delims data start with
  | none => (data.drop start, (data.drop start).length + start)
  | some stop =>
      let result := (data.drop start).take (stop - start)
      if skipDelims then
        match findFirstNotOf delims data stop with
        | some next => (result, next)
        | none => (result, start + result.length)
      else (result, start + result.length)

def skipWs (s : Bytes) (pos : Nat) : Nat := pos + ((s.drop pos).takeWhile isWs).length

/-- `parameters.insert`, which keeps what is there; the parameters are only
looked up. -/
def MediaType.addParameter (mediaType : MediaType) (parameter value : Bytes) : MediaType :=
  if (mediaType.parameters.lookup parameter).isSome then mediaType
  else { mediaType with parameters := mediaType.parameters ++ [(parameter, value)] }

namespace CGIResponseParser

def mediaTypes : List Bytes :=
  [bytes "text", bytes "image", bytes "audio", bytes "video", bytes "application",
    bytes "multipart", bytes "message", bytes "font"]

/-- The media type and the position of the separator. -/
def parseMediaType (fieldValue : Bytes) (pos : Nat) : Except Status (MediaType × Nat) :=
  let (typeWithSubtype, pos) := getTokenWithDelims fieldValue pos (bytes ";,") true
  if typeWithSubtype = [] then .error .badRequest
  else
    let pos := if pos ≠ fieldValue.length then pos - 1 else pos
    let (type, slashPos) := getTokenWithDelim typeWithSubtype 0 (bytes "/") false
    if slashPos = typeWithSubtype.length then .error .badRequest
    else if mediaTypes.contains type then
      .ok ({ type := type, subtype := typeWithSubtype.drop (slashPos + 1) }, pos)
    else .ok ({ type := bytes "*", subtype := bytes "*" }, pos)

/-- `atoi` of digits. -/
def atoi (digits : Bytes) : Nat := digits.foldl (fun n c => 10 * n + (c.toNat - 48)) 0

def isValidStatusCode (statusStr : Bytes) : Bool :=
  statusStr != [] && statusStr.all isDigit && decide (100 ≤ atoi statusStr) &&
    decide (atoi statusStr ≤ 599)

def parseStatus (fieldValue : Bytes) (request : Request) : Status × Request :=
  let (statusStr, _) :=
    getTokenWithDelim fieldValue (skipWs fieldValue 0) (bytes " ") true
  if isValidStatusCode statusStr = false then (.badRequest, request)
  else (.ok, { request with statusString := fieldValue })

/-- The status, the value and the position after it. -/
def parseParameter (fieldValue : Bytes) (pos : Nat) : Status × Bytes × Nat :=
  if charAt fieldValue pos = 34 then
    -- `InvalidFilenameFormat` is no error, and the position stays at the opening quote
    match parseQuotedString fieldValue pos with
    | .ok (buffer, _) => (.ok, buffer, pos)
    | .error status => if status.isError then (status, [], pos) else (.ok, [], pos)
  else
    let (buffer, stop) := getTokenWithDelims fieldValue pos (bytes ";,") false
    if buffer = [] then (.badRequest, [], pos)
    else if isStringValidToken buffer buffer.length = false then (.badRequest, [], pos)
    else (.ok, buffer, stop)

/-- The loop over the parameters: the status that it returns with, if it
returns, and the media type. -/
def parametersLoop (fieldValue : Bytes) :
    Nat → Nat → MediaType → Except Fault (Option Status × MediaType)
  | 0, _, _ => .error .outOfFuel
  | fuel + 1, pos, mediaType =>
      if pos < fieldValue.length ∧ charAt fieldValue pos = byteOf ';' then
        let pos := skipWs fieldValue (skipWs fieldValue pos + 1)
        match findFrom (bytes "=") fieldValue pos with
        | none => .ok (some .badRequest, mediaType)
        | some equalSignPos =>
            if isStringValidToken (fieldValue.drop pos) (equalSignPos - pos) = false then
              .ok (some .badRequest, mediaType)
            else
              let parameter := (fieldValue.drop pos).take (equalSignPos - pos)
              let (status, value, pos) := parseParameter fieldValue (equalSignPos + 1)
              if status.isError ∨ value = [] then .ok (some status, mediaType)
              else parametersLoop fieldValue fuel pos (mediaType.addParameter parameter value)
      else .ok (none, mediaType)

def parseContentType (fieldValue : Bytes) (request : Request) :
    Except Fault (Status × Request) :=
  if fieldValue = [] then .ok (.badRequest, request)
  else
    match parseMediaType fieldValue 0 with
    | .error _ => .ok (.badRequest, request)
    | .ok (mediaType, pos) => do
        let (returned, mediaType) ←
          parametersLoop fieldValue (fieldValue.length + 1) (skipWs fieldValue pos) mediaType
        match returned with
        | some status => pure (status, request)
        | none => pure (.ok, { request with contentType := mediaType })

/-- A field through `get_field_parser_by_field_type`. -/
def parseField (field : VisitedField) (request : Request) : Except Fault (Status × Request) :=
  if field.fieldType = bytes "status" then .ok (parseStatus field.fieldValue request)
  else if field.fieldType = bytes "content-type" then parseContentType field.fieldValue request
  else .ok (.ok, request)

/-- The loop over the fields, for at most `fuel` rounds. -/
def headerLoop (buffer : Bytes) (headerEnd : Nat) :
    Nat → Nat → Request → Except Fault (Nat × Status × Request)
  | 0, _, _ => .error .outOfFuel
  | fuel + 1, pos, request => do
      let (field, pos) := readField buffer pos
      let (status, request) ← parseField field request
      if status.isError then pure (pos, status, request)
      else if pos < headerEnd then headerLoop buffer headerEnd fuel pos request
      else pure (pos, .ok, request)

end CGIResponseParser

structure CGIResponseParser where
  buffer : Bytes := []
  headerParsed : Bool := false
  deriving DecidableEq, Repr

namespace CGIResponseParser

def parseHeader (p : CGIResponseParser) (request : Request) :
    Except Fault (CGIResponseParser × Request × Status) :=
  match find (crlf ++ crlf) p.buffer with
  | none => .ok (p, request, .dataIsNotReady)
  | some headerEnd => do
      let (pos, status, request) ← headerLoop p.buffer headerEnd (p.buffer.length + 1) 0 request
      if status.isError then pure (p, request, status)
      else pure (⟨p.buffer.drop pos, true⟩, request, .ok)

def parseBody (p : CGIResponseParser) (request : Request) : CGIResponseParser × Request :=
  let content := request.contentData.headD {}
  let content := { content with data := content.data ++ p.buffer }
  ({ p with buffer := [] },
    { request with contentData := content :: request.contentData.tail })

def parse (p : CGIResponseParser) (content : Bytes) (request : Request) :
    Except Fault (CGIResponseParser × Request × Status) := do
  let p := { p with buffer := p.buffer ++ content }
  let (p, request, status) ←
    if p.headerParsed then pure (p, request, Status.ok) else p.parseHeader request
  -- `DataIsNotReady` is no error
  if status.isError then pure (p, request, .badRequest)
  else if p.headerParsed then
    let (p, request) := p.parseBody request
    pure (p, request, .ok)
  else pure (p, request, .ok)

/-- The output of a program in the pieces in which it arrives. -/
def parseAll (p : CGIResponseParser) (request : Request) :
    List Bytes → Except Fault (CGIResponseParser × Request)
  | [] => .ok (p, request)
  | content :: rest => do
      let (p, request, _) ← p.parse content request
      parseAll p request rest

end CGIResponseParser

/-- The request record of an `IOCGIContext`. -/
def cgiContextRequest : Request := { isCgi := true }

end FortyTwo.Webserv
