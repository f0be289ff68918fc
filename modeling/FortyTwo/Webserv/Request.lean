import FortyTwo.Webserv.Text

/-!
`ServerRequest.hpp` and the interface of a body parser. A fault is a step that
C++ leaves undefined, or an exception; a run that meets one has no result.
-/

namespace FortyTwo.Webserv

inductive Fault where
  | nullPointer
  | dangling
  | outOfBounds
  | outOfRange
  | lengthError
  | outOfFuel
  deriving DecidableEq, Repr

/-- `t_request_content`. -/
structure RequestContent where
  filename : Bytes := []
  name : Bytes := []
  contentType : Bytes := []
  data : Bytes := []
  isFileCreated : Bool := false
  isFinished : Bool := false
  deriving DecidableEq, Repr

/-- `t_media_type`. -/
structure MediaType where
  type : Bytes := []
  subtype : Bytes := []
  parameters : List (Bytes × Bytes) := []
  deriving DecidableEq, Repr

/-- `t_request`. -/
structure Request where
  sessionId : Bytes := []
  method : Bytes := []
  protocolVersion : Bytes := []
  host : Bytes := []
  contentLength : Nat := 0
  contentType : MediaType := {}
  transferedLength : Nat := 0
  bodyChunk : Bytes := []
  filename : Bytes := []
  mimeType : Bytes := []
  uriPath : Bytes := []
  pathQueries : List Bytes := []
  statusString : Bytes := []
  contentData : List RequestContent := []
  cgiBin : Bytes := []
  isCgi : Bool := false
  rewriteCount : Nat := 0
  isStreaming : Bool := false
  streamOffset : Nat := 0
  streamFilePath : Bytes := []
  streamPendingData : Bytes := []
  streamPendingSent : Nat := 0
  streamHeadersSent : Bool := false
  deriving DecidableEq, Repr

def Request.isRequestReady (request : Request) : Bool :=
  decide (request.transferedLength ≥ request.contentLength)

/-- `IRequestBodyParser`. -/
class IRequestBodyParser (P : Type) where
  feed : P → Bytes → Nat → Except Fault (P × Status)
  apply : P → Request → P × Request
  isFinished : P → Bool

/-- `ServerRequestParser::parse_body`. -/
def parseBody {P : Type} [IRequestBodyParser P] (parser : P) (content : Bytes)
    (bodyPosStart : Nat) (request : Request) : Except Fault (P × Request × Status) := do
  let (parser, status) ← IRequestBodyParser.feed parser content bodyPosStart
  if status.isError then pure (parser, request, status)
  else
    -- `status != DataIsNotReady` compares `operator bool` with 610, so it is always true
    let (parser, request) := IRequestBodyParser.apply parser request
    if IRequestBodyParser.isFinished parser ∧ request.transferedLength ≠ request.contentLength then
      pure (parser, request, .badRequest)
    else pure (parser, request, .ok)

/-- The chunks of a body through `parse_body`, up to the first error status. -/
def parseBodyChunks {P : Type} [IRequestBodyParser P] (parser : P) (request : Request) :
    List Bytes → Except Fault (P × Request)
  | [] => .ok (parser, request)
  | chunk :: rest => do
      let (parser, request, status) ← parseBody parser chunk 0 request
      if status.isError then pure (parser, request) else parseBodyChunks parser request rest

end FortyTwo.Webserv
