import FortyTwo.Webserv.MultipartParser
import FortyTwo.Webserv.RequestHeader

/-!
`RequestRawBodyParser.cpp` and `ServerRequestParser.cpp`: the head of a request
and the body behind it, from the pieces that are read from the socket.
-/

namespace FortyTwo.Webserv

inductive RequestBodyStorageType where
  | inFile
  | inBuffer
  deriving DecidableEq, Repr

/-- The file of `inFile` is never opened, so nothing is written to it. -/
structure RequestRawBodyParser where
  contentLength : Int
  type : RequestBodyStorageType
  dataSize : Int := 0
  data : Bytes := []
  finished : Bool := false
  deriving DecidableEq, Repr

namespace RequestRawBodyParser

open RequestHeaderParser (toInt)

def init (contentLength : Nat) (type : RequestBodyStorageType) : RequestRawBodyParser where
  contentLength := toInt contentLength
  type := type

/-- `content.substr(pos, n)` with an `int` as length: a negative one is no limit. -/
def substr (content : Bytes) (pos : Nat) (n : Int) : Bytes :=
  if n < 0 then content.drop pos else (content.drop pos).take n.toNat

def feed (p : RequestRawBodyParser) (content : Bytes) (startPos : Nat) :
    Except Fault (RequestRawBodyParser × Status) :=
  if content.length < startPos then .error .outOfRange
  else
    let contentSize := toInt (content.length - startPos)
    let exceeds := toInt (p.dataSize + contentSize) > p.contentLength
    let contentSize := if exceeds then toInt (p.contentLength - p.dataSize) else contentSize
    let data :=
      match p.type with
      | .inBuffer => p.data ++ substr content startPos contentSize
      | .inFile => p.data
    .ok ({ p with data := data, dataSize := toInt (p.dataSize + contentSize) },
      if exceeds then .ok else .incomplete)

def apply (p : RequestRawBodyParser) (request : Request) : RequestRawBodyParser × Request :=
  let request := { request with
    transferedLength := ((request.transferedLength + p.dataSize) % 2 ^ 64).toNat }
  match p.type with
  | .inBuffer => (p, { request with bodyChunk := p.data })
  | .inFile => (p, request)

instance : IRequestBodyParser RequestRawBodyParser where
  feed := feed
  apply := apply
  isFinished := finished

end RequestRawBodyParser

/-- What `_body_parser` points to. -/
inductive BodyParser where
  | raw (p : RequestRawBodyParser)
  | multipart (p : RequestMultipartParser)
  deriving DecidableEq, Repr

namespace BodyParser

instance : IRequestBodyParser BodyParser where
  feed
    | .raw p, content, startPos => (p.feed content startPos).map (fun r => (.raw r.1, r.2))
    | .multipart p, content, startPos =>
        (p.feed content startPos).map (fun r => (.multipart r.1, r.2))
  apply
    | .raw p, request => let (p, request) := p.apply request; (.raw p, request)
    | .multipart p, request => let (p, request) := p.apply request; (.multipart p, request)
  isFinished
    | .raw p => p.finished
    | .multipart p => p.finished

end BodyParser

/-- `_body_parsed` is what `is_finished` of the body parser says. -/
structure ServerRequestParser where
  headerParser : RequestHeaderParser := {}
  bodyParser : Option BodyParser := none
  headerParsed : Bool := false
  deriving DecidableEq, Repr

namespace ServerRequestParser

def isBodyParsed (p : ServerRequestParser) : Bool :=
  match p.bodyParser with
  | none => true
  | some bodyParser => IRequestBodyParser.isFinished bodyParser

def isFinished (p : ServerRequestParser) : Bool := p.headerParsed && p.isBodyParsed

def createBodyParser (request : Request) : Except Fault BodyParser :=
  if request.isCgi then .ok (.raw (.init request.contentLength .inFile))
  else if request.contentType.type = bytes "multipart" ∧
      request.contentType.subtype = bytes "form-data" then
    match request.contentType.parameters.lookup (bytes "boundary") with
    | some boundary => .ok (.multipart (.init boundary))
    | none => .error .nullPointer
  else .ok (.raw (.init request.contentLength .inBuffer))

variable (parsers : FieldParsers) (config : Config)

/-- The parser, the request, the status and `body_pos_start`. -/
def parseHeader (p : ServerRequestParser) (content : Bytes) (bodyPosStart : Nat)
    (request : Request) : Except Fault (ServerRequestParser × Request × Status × Nat) := do
  if p.headerParsed then pure (p, request, .ok, bodyPosStart)
  else
    let (headerParser, status, bodyPosStart) := p.headerParser.feed content bodyPosStart
    let p := { p with headerParser := headerParser }
    if status.isError then pure (p, request, status, bodyPosStart)
    else
      let (headerParser, _, status, request) ←
        p.headerParser.parseCompleteHeader parsers config request
      let p := { p with headerParser := headerParser }
      if status.isError = true ∨ status.code = Status.dataIsNotReady.code then
        pure (p, request, status, bodyPosStart)
      else
        if request.method = bytes "POST" ∨ request.isCgi = true then
          let bodyParser ← createBodyParser request
          pure ({ p with bodyParser := some bodyParser, headerParsed := true }, request, .ok,
            bodyPosStart)
        else pure ({ p with headerParsed := true }, request, .ok, bodyPosStart)

/-- `parse`: the head, and then what stands behind it. -/
def parse (p : ServerRequestParser) (content : Bytes) (request : Request) :
    Except Fault (ServerRequestParser × Request × Status) := do
  let (p, request, status, bodyPosStart) ← p.parseHeader parsers config content 0 request
  if status.isError then pure (p, request, status)
  else
    match p.headerParsed, p.bodyParser with
    | true, some bodyParser =>
        let (bodyParser, request, status) ← parseBody bodyParser content bodyPosStart request
        pure ({ p with bodyParser := some bodyParser }, request, status)
    | _, _ => pure (p, request, status)

end ServerRequestParser

end FortyTwo.Webserv
