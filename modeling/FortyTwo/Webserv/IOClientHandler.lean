import FortyTwo.Webserv.Chunk
import FortyTwo.Webserv.ServerRequestParser
import FortyTwo.Webserv.ServerResponse

/-!
`IOClientHandler.cpp` and `HTTPResponseSender.cpp`: what the server does with
one client, event by event. CGI requests are handed to a function that the
handler is given.
-/

namespace FortyTwo.Webserv

/-- `IOClientContext`. -/
structure IOClientContext where
  request : Request := {}
  buffer : Bytes := []
  parser : ServerRequestParser := {}
  deriving DecidableEq, Repr

def IOClientContext.reset (_ : IOClientContext) : IOClientContext := {}

/-- The handler with the client that it serves and the world around it. -/
structure IOClientHandler where
  status : Status := .ok
  isClosing : Bool := false
  context : IOClientContext := {}
  socket : Socket
  fileSystem : FileSystem
  sessionStore : SessionStore := {}

/-- What `epoll` reports: a hang-up, data together with what `read` will
return, and room for a `write`. -/
structure Event where
  hangUp : Bool := false
  read : Option (Option Bytes) := none
  writable : Bool := false
  deriving DecidableEq, Repr

namespace IOClientHandler

def setIsClosing (h : IOClientHandler) : IOClientHandler := { h with isClosing := true }

def setRequest (h : IOClientHandler) (request : Request) : IOClientHandler :=
  { h with context := { h.context with request := request } }

section HTTPResponseSender

variable (config : Config) (defaultAutoIndex : Bool)

/-- `generate_response`, with what it leaves behind. -/
def generateResponse (h : IOClientHandler) : Except Fault (ServerResponse × IOClientHandler) := do
  let resp ← ServerResponse.generateResponse config
    (.create h.status h.context.request h.fileSystem h.sessionStore defaultAutoIndex)
  pure (resp, { h.setRequest resp.request with
    fileSystem := resp.fileSystem
    sessionStore := resp.sessionStore })

/-- The headers of a response that is streamed, unless they have been sent;
whether `write` did not fail. -/
def sendStreamHeaders (headers : Bytes) (h : IOClientHandler) : Bool × IOClientHandler :=
  if h.context.request.streamHeadersSent then (true, h)
  else
    match h.socket.write headers with
    | (none, socket) => (false, { h with socket := socket })
    | (some _, socket) =>
        (true, { h.setRequest { h.context.request with streamHeadersSent := true } with
          socket := socket })

def beginStreaming (resp : ServerResponse) (request : Request) : Request :=
  if request.isStreaming then request
  else { request with
    isStreaming := true
    streamOffset := 0
    streamFilePath := resp.streamFilePath
    streamPendingData := []
    streamPendingSent := 0 }

/-- What a stream finds in the file; only files have content to stream. -/
def streamContent (fs : FileSystem) (path : Bytes) : Option Bytes :=
  (fs.openFile path).map (fun node =>
    match node with
    | .file content => content
    | _ => [])

/-- The call of `stream_file_chunked`, and the end of the stream. -/
def streamChunk (resp : ServerResponse) (h : IOClientHandler) : Status × IOClientHandler :=
  let request := h.context.request
  let (status, finished, stream, socket) := Chunk.streamFileChunked
    (streamContent h.fileSystem request.streamFilePath) resp.streamLocation
    ⟨request.streamOffset, request.streamPendingData, request.streamPendingSent⟩ h.socket
  let request := { request with
    streamOffset := stream.offset
    streamPendingData := stream.pendingData
    streamPendingSent := stream.pendingSent }
  let request :=
    if status.isError = false ∧ finished = true ∧ request.streamPendingData = [] then
      { request with
        isStreaming := false
        streamOffset := 0
        streamFilePath := []
        streamHeadersSent := false }
    else request
  (status, { h.setRequest request with socket := socket })

def send (h : IOClientHandler) : Except Fault (Status × IOClientHandler) := do
  let (resp, h) ← h.generateResponse config defaultAutoIndex
  if resp.status.code = 100 then pure (.ok, h)
  else if resp.needsStreaming then
    match h.sendStreamHeaders resp.response with
    | (false, h) => pure (.custom "failed to send response headers to client", h)
    | (true, h) =>
        let h := h.setRequest (beginStreaming resp h.context.request)
        let (streamStatus, h) := h.streamChunk resp
        pure (if streamStatus.isError then streamStatus else resp.status, h)
  else
    match h.socket.write resp.response with
    | (none, socket) => pure (.custom "failed to send response to client", { h with socket := socket })
    | (some _, socket) => pure (resp.status, { h with socket := socket })

end HTTPResponseSender

variable (parsers : FieldParsers) (config : Config) (defaultAutoIndex : Bool)

/-- `read_and_parse`, when `read` returns `result`. -/
def readAndParse (result : Option Bytes) (h : IOClientHandler) : Except Fault IOClientHandler :=
  if h.context.parser.isFinished then .ok h
  else
    match result with
    | none => .ok { h with status := .internalServerError }
    | some data => do
        let buffer := h.context.buffer ++ data
        let (parser, request, status) ← h.context.parser.parse parsers config buffer
          h.context.request
        let buffer := if status.isError then buffer else []
        pure { h with
          status := status
          context := { parser := parser, request := request, buffer := buffer } }

def handleDefaultRequest (h : IOClientHandler) : Except Fault IOClientHandler := do
  if h.status.code ≠ Status.dataIsNotReady.code ∧
      (h.context.parser.headerParsed = true ∨ h.status.isError = true) then
    let (tempStatus, h) ← h.send config defaultAutoIndex
    if tempStatus.isError then pure h.setIsClosing
    else if h.context.request.isRequestReady = true ∧ h.context.request.isStreaming = false then
      pure { h with context := h.context.reset }
    else pure h
  else pure h

/-- The part of `handle` for data to read, and whether it returns there. -/
def handleReadable (result : Option Bytes) (h : IOClientHandler) :
    Except Fault (IOClientHandler × Bool) := do
  if h.context.request.isCgi then pure (h, false)
  else
    let h ← h.readAndParse parsers config result
    if h.status.code = Status.dataIsNotReady.code then pure (h, true)
    else pure (if h.status.isError then h.setIsClosing else h, false)

variable (handleCgiRequest : IOClientHandler → Except Fault IOClientHandler)

def handle (event : Event) (h : IOClientHandler) : Except Fault IOClientHandler := do
  if event.hangUp then pure h.setIsClosing
  else
    let (h, returned) ←
      match event.read with
      | some result => h.handleReadable parsers config result
      | none => pure (h, false)
    if returned = false ∧ event.writable = true then
      if h.context.request.isCgi then handleCgiRequest h
      else h.handleDefaultRequest config defaultAutoIndex
    else pure h

/-- `handle_epoll_event`. A client that is closing is unregistered, and its
handler's destructor resets the context. -/
def handleEpollEvent (event : Event) (h : IOClientHandler) : Except Fault IOClientHandler :=
  if h.isClosing then .ok h
  else do
    let h ← h.handle parsers config defaultAutoIndex handleCgiRequest event
    pure (if h.isClosing then { h with context := h.context.reset } else h)

/-- One event after the other. -/
def handleEvents (h : IOClientHandler) : List Event → Except Fault IOClientHandler
  | [] => .ok h
  | event :: rest => do
      let h ← h.handleEpollEvent parsers config defaultAutoIndex handleCgiRequest event
      h.handleEvents rest

end IOClientHandler

end FortyTwo.Webserv
