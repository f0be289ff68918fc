import FortyTwo.Webserv.Request

/-!
`RequestMultipartBodyParser.cpp`. The elements that `_content_data` has ever
held are numbered in the order of their creation; `pop_front` frees the
lowest number, and `_last_content` is the number of the element it points to.
-/

namespace FortyTwo.Webserv

open Foundation

structure RequestMultipartParser where
  startBoundary : Bytes
  endBoundary : Bytes
  buffer : Bytes := []
  dataSize : Int := 0
  contentData : List RequestContent := []
  popped : Nat := 0
  lastContent : Option Nat := none
  endBoundaryFound : Bool := false
  finished : Bool := false
  firstHeaderFound : Bool := false
  deriving DecidableEq, Repr

/-- The fold of whitespace that `parse_filename` skips around `=`. -/
def skipOwsAndFolds (line : Bytes) : Nat → Nat → Nat
  | 0, pos => pos
  | fuel + 1, pos =>
      if pos < line.length then
        if pos + 2 < line.length ∧ isCrlf line pos = true ∧ isWs (charAt line (pos + 2)) = true then
          skipOwsAndFolds line fuel (pos + 3)
        else if isWs (charAt line pos) then skipOwsAndFolds line fuel (pos + 1)
        else pos
      else pos

def parseUnquotedFilename (line : Bytes) (pos : Nat) (filename : Bytes) : Status × Bytes :=
  let stop :=
    match findFrom crlf line pos with
    | some stop => some stop
    | none => findFrom (bytes "; ") line pos
  match stop with
  | none => (.badRequest, filename)
  | some stop =>
      if !isStringValidToken (line.drop pos) stop then (.badRequest, filename)
      else
        let filename := (line.drop pos).take stop
        if filename = [] then (.badRequest, filename) else (.ok, filename)

def parseFilename (line filename : Bytes) : Status × Bytes :=
  match find (bytes "filename") line with
  | none => (.noFilename, filename)
  | some key =>
      let pos := skipOwsAndFolds line line.length (key + 8)
      if charAt line pos ≠ byteOf '=' then (.badRequest, filename)
      else
        let pos := skipOwsAndFolds line line.length (pos + 1)
        if charAt line pos = 34 then
          match parseQuotedString line pos with
          | .ok (out, _) => (.ok, out)
          | .error status => (status, filename)
        else parseUnquotedFilename line pos filename

def parseName (contentDisposition name : Bytes) : Status × Bytes :=
  match find (bytes "name=\"") contentDisposition with
  | none => (.badRequest, name)
  | some key =>
      let start := key + 6
      match findFrom [34] contentDisposition start with
      | none => (.badRequest, name)
      | some stop => (.ok, (contentDisposition.drop start).take (stop - start))

/-- `MIME_TYPE_MAX_SIZE` and `MIME_SUBTYPE_MAX_SIZE`. -/
def mimeMaxSize : Nat := 127

def parseContentType (contentType mime : Bytes) : Status × Bytes :=
  match find (bytes "Content-Type: ") contentType with
  | none => (.noMime, mime)
  | some start =>
      match find (bytes "/") contentType with
      | none => (.noMime, mime)
      | some slashPos =>
          if sizeSub slashPos start > mimeMaxSize ∨ contentType.length - slashPos > mimeMaxSize then
            (.requestHeaderFieldsTooLarge, mime)
          else if !isStringValidToken (contentType.drop start) (sizeSub slashPos start) then
            (.badRequest, mime)
          else if !isStringValidToken (contentType.drop (slashPos + 1)) 0 then
            (.badRequest, mime)
          else (.ok, contentType.drop start)

/-- The header whose boundary stands at `boundaryPos`, written into `content`. -/
def parseBodyHeader (buffer : Bytes) (boundaryPos startSize : Nat) (content : RequestContent) :
    Status × RequestContent :=
  let (contentDisposition, pos) := getTokenWithDelim buffer (boundaryPos + startSize) crlf true
  let (status, filename) := parseFilename contentDisposition content.filename
  let content := { content with filename := filename }
  if status = .badRequest then (status, content)
  else
    -- a missing name is logged and its status is dropped
    let (_, name) := parseName contentDisposition content.name
    let (contentType, _) := getTokenWithDelim buffer pos crlf true
    let (status, mime) := parseContentType contentType content.contentType
    (if status = .noMime then .ok else status, { content with name := name, contentType := mime })

def startBoundary (boundary : Bytes) : Bytes := bytes "--" ++ boundary ++ crlf

def endBoundary (boundary : Bytes) : Bytes :=
  crlf ++ bytes "--" ++ boundary ++ bytes "--" ++ crlf

namespace RequestMultipartParser

def init (boundary : Bytes) : RequestMultipartParser where
  startBoundary := Webserv.startBoundary boundary
  endBoundary := Webserv.endBoundary boundary

/-- `*_last_content`. -/
def derefLast (p : RequestMultipartParser) : Except Fault RequestContent :=
  match p.lastContent with
  | none => .error .nullPointer
  | some number =>
      if number < p.popped then .error .dangling
      else
        match p.contentData[number - p.popped]? with
        | some content => .ok content
        | none => .error .dangling

/-- Store the changed `*_last_content`. -/
def storeLast (p : RequestMultipartParser) (content : RequestContent) : RequestMultipartParser :=
  match p.lastContent with
  | none => p
  | some number => { p with contentData := p.contentData.set (number - p.popped) content }

def updateLastContent (p : RequestMultipartParser) : RequestMultipartParser :=
  match p.contentData.getLast? with
  | some back =>
      if back.isFinished then
        { p with
          contentData := p.contentData ++ [{}]
          lastContent := some (p.popped + p.contentData.length) }
      else p
  | none =>
      { p with
        contentData := p.contentData ++ [{}]
        lastContent := some (p.popped + p.contentData.length) }

def searchBoundary (p : RequestMultipartParser) : Option Nat × RequestMultipartParser :=
  match find p.startBoundary p.buffer with
  | some pos => (some pos, p)
  | none =>
      match find p.endBoundary p.buffer with
      | some pos => (some pos, { p with endBoundaryFound := true })
      | none => (none, p)

def parseBodyWithoutAnyBoundary (p : RequestMultipartParser) :
    Except Fault (RequestMultipartParser × Status) := do
  if p.endBoundary.length > p.buffer.length then pure (p, .dataIsNotReady)
  else
    let contentSize := p.buffer.length - p.endBoundary.length
    let last ← p.derefLast
    let p := p.storeLast { last with data := last.data ++ p.buffer.take contentSize }
    pure ({ p with buffer := p.buffer.drop contentSize }, .dataIsNotReady)

def parseBodyWithHeader (p : RequestMultipartParser) (boundaryPos : Nat) :
    Except Fault (RequestMultipartParser × Status) := do
  match find (crlf ++ crlf) p.buffer with
  | none => pure (p, .dataIsNotReady)
  | some headerEnd =>
      let p := p.updateLastContent
      let last ← p.derefLast
      let (status, last) := parseBodyHeader p.buffer boundaryPos p.startBoundary.length last
      let p := p.storeLast last
      pure ({ p with buffer := p.buffer.drop (headerEnd + 4), firstHeaderFound := true }, status)

def parseAndFinishContent (p : RequestMultipartParser) (boundaryPos : Nat) :
    Except Fault (RequestMultipartParser × Status) := do
  if boundaryPos < 2 then throw .outOfBounds
  else if ¬ (charAt p.buffer (boundaryPos - 2) = 13 ∧ charAt p.buffer (boundaryPos - 1) = 10) then
    pure (p, .badRequest)
  else
    let last ← p.derefLast
    let last := { last with data := last.data ++ p.buffer.take (boundaryPos - 2), isFinished := true }
    let p := p.storeLast last
    pure ({ p with buffer := p.buffer.drop boundaryPos }, .ok)

/-- `_last_content != NULL && !_last_content->is_finished`. -/
def lastUnfinished (p : RequestMultipartParser) : Except Fault Bool :=
  if p.lastContent = none then .ok false else p.derefLast.map (fun last => !last.isFinished)

/-- One round of the loop of `feed`, with the status so far; the last
component says that the loop is left at once. -/
def feedRound (p : RequestMultipartParser) (status : Status) :
    Except Fault (RequestMultipartParser × Status × Bool) := do
  match p.searchBoundary with
  | (some boundaryPos, p) =>
      if p.endBoundaryFound then
        let last ← p.derefLast
        let last := { last with data := last.data ++ p.buffer.take boundaryPos, isFinished := true }
        let p := p.storeLast last
        pure ({ p with buffer := [], finished := true }, status, true)
      else if ← p.lastUnfinished then
        let (p, status) ← p.parseAndFinishContent boundaryPos
        pure (p, status, status.isError)
      else
        let (p, status) ← p.parseBodyWithHeader boundaryPos
        pure (p, status, false)
  | (none, p) =>
      if p.firstHeaderFound = false ∧ p.buffer.length ≥ p.startBoundary.length then
        pure (p, .badRequest, true)
      else
        let (p, status) ← p.parseBodyWithoutAnyBoundary
        pure (p, status, false)

/-- The loop of `feed`, for at most `fuel` rounds. -/
def feedLoop : Nat → RequestMultipartParser → Status →
    Except Fault (RequestMultipartParser × Status)
  | 0, _, _ => .error .outOfFuel
  | fuel + 1, p, status => do
      let (p, status, leave) ← p.feedRound status
      if leave then pure (p, status)
      else if p.buffer.length > p.endBoundary.length ∧ status.isError = false ∧
          status ≠ .dataIsNotReady then
        feedLoop fuel p status
      else pure (p, status)

/-- `_data_size`, an `int`. -/
def addDataSize (dataSize : Int) (n : Nat) : Int := (dataSize + n + 2 ^ 31) % 2 ^ 32 - 2 ^ 31

def feed (p : RequestMultipartParser) (content : Bytes) (startPos : Nat) :
    Except Fault (RequestMultipartParser × Status) :=
  if p.finished then .ok (p, .badRequest)
  else if content.length < startPos then .error .outOfRange
  else
    let p := { p with
      dataSize := addDataSize p.dataSize (content.length - startPos)
      buffer := p.buffer ++ content.drop startPos }
    feedLoop (p.buffer.length + 1) p .ok

/-- The loop of `apply` over `_content_data`: `request.content_data`, what is
left of `_content_data` and how many elements were popped. -/
def applyLoop (requestData : List RequestContent) :
    List RequestContent → List RequestContent × List RequestContent × Nat
  | [] => (requestData, [], 0)
  | front :: rest =>
      let fileAlreadyExists := requestData.any (fun it => it.filename == front.filename)
      let pushed := if fileAlreadyExists then requestData else requestData ++ [front]
      match requestData.getLast? with
      | some last =>
          let merged := requestData.dropLast ++
            [{ last with data := last.data ++ front.data }]
          if front.isFinished = true ∧ last.isFinished = false then
            (requestData.dropLast ++
              [{ last with data := last.data ++ front.data, isFinished := true }], rest, 1)
          else if front.isFinished = false then
            (if last.isFinished = false then merged else pushed, { front with data := [] } :: rest, 0)
          else
            let (requestData, left, popped) := applyLoop pushed rest
            (requestData, left, popped + 1)
      | none =>
          if front.isFinished = false then (pushed, { front with data := [] } :: rest, 0)
          else
            let (requestData, left, popped) := applyLoop pushed rest
            (requestData, left, popped + 1)

def apply (p : RequestMultipartParser) (request : Request) : RequestMultipartParser × Request :=
  let (requestData, left, popped) := applyLoop request.contentData p.contentData
  ({ p with contentData := left, popped := p.popped + popped },
    { request with contentData := requestData, transferedLength := (p.dataSize % 2 ^ 64).toNat })

instance : IRequestBodyParser RequestMultipartParser where
  feed := feed
  apply := apply
  isFinished := finished

end RequestMultipartParser

end FortyTwo.Webserv
