import FortyTwo.Webserv.Config
import FortyTwo.Webserv.FileSystem
import FortyTwo.Webserv.Request

/-!
`ServerResponse.cpp` with its helpers `FileUtils`, `ErrorResponse` and
`JsonResponse`, the size test of `Chunk.cpp`, and `SessionStore.cpp`.
-/

namespace FortyTwo.Webserv

open Foundation

structure Session where
  username : Bytes
  expiresAt : Int
  deriving DecidableEq, Repr

/-- The sessions, the clock and the id that `HashGenerator::generate` makes next. -/
structure SessionStore where
  store : List (Bytes × Session) := []
  now : Int := 0
  nextId : Bytes := []
  deriving DecidableEq, Repr

namespace SessionStore

def destroySession (s : SessionStore) (sessionId : Bytes) : SessionStore :=
  { s with store := s.store.filter (fun entry => entry.1 != sessionId) }

def createSession (s : SessionStore) (username : Bytes) (ttlSeconds : Int) :
    Bytes × SessionStore :=
  let session : Session := ⟨username, s.now + ttlSeconds⟩
  (s.nextId, { s with
    store := (s.nextId, session) :: s.store.filter (fun entry => entry.1 != s.nextId) })

def getUsername (s : SessionStore) (sessionId : Bytes) : Option Bytes × SessionStore :=
  match s.store.lookup sessionId with
  | none => (none, s)
  | some session =>
      if session.expiresAt < s.now then (none, s.destroySession sessionId)
      else (some session.username, s)

end SessionStore

/-- What `generate_response` reads and writes: the response object, the request
that it answers and the world around it. -/
structure ServerResponse where
  status : Status
  request : Request
  fileSystem : FileSystem
  sessionStore : SessionStore := {}
  respContentType : Bytes := []
  body : Bytes := []
  headers : Bytes := []
  response : Bytes := []
  resolvedFilePath : Bytes := []
  isChunked : Bool := false
  needsStreaming : Bool := false
  streamFilePath : Bytes := []
  streamLocation : Option Location := none
  /-- The `auto_index` of the default location, which nothing initialises. -/
  defaultAutoIndex : Bool := false

section FileUtils

def ensureTrailingSlash (path : Bytes) : Bytes :=
  if path ≠ [] ∧ path.getLast? ≠ some (byteOf '/') then path ++ bytes "/" else path

def isBinary (mimeType : Bytes) : Bool :=
  [bytes ".jpg", bytes ".jpeg", bytes ".png", bytes ".gif", bytes ".ico", bytes ".webp"].contains
    mimeType

/-- The first of the longest locations that the path begins with. -/
def findBestLocationMatch (config : Config) (uriPath : Bytes) : Option Location :=
  (config.location.foldl (fun (best : Option Location × Nat) location =>
    if location.path.isPrefixOf uriPath ∧ location.path.length > best.2 then
      (some location, location.path.length)
    else best) (none, 0)).1

def resolveFilePath (config : Config) (location : Location) (uriPath : Bytes) : Bytes :=
  let root := if location.common.root = [] then config.common.root else location.common.root
  ensureTrailingSlash root ++
    (if uriPath.head? = some (byteOf '/') then uriPath.drop 1 else uriPath)

def mimeTypes : List (Bytes × Bytes) :=
  [(bytes ".html", bytes "text/html"), (bytes "", bytes "text/html"),
    (bytes ".css", bytes "text/css"), (bytes ".js", bytes "application/javascript"),
    (bytes ".json", bytes "application/json"), (bytes ".jpg", bytes "image/jpeg"),
    (bytes ".jpeg", bytes "image/jpeg"), (bytes ".png", bytes "image/png"),
    (bytes ".gif", bytes "image/gif"), (bytes ".svg", bytes "image/svg+xml"),
    (bytes ".ico", bytes "image/x-icon"), (bytes ".webp", bytes "image/webp"),
    (bytes ".pdf", bytes "application/pdf"), (bytes ".txt", bytes "text/plain"),
    (bytes ".xml", bytes "application/xml")]

def identifyMimeType (mimeType : Bytes) : Bytes :=
  (mimeTypes.lookup mimeType).getD (bytes "application/octet-stream")

end FileUtils

section Chunk

/-- `get_file_size`. What has no end to seek to does not open with `ate`. -/
def getFileSize (fs : FileSystem) (path : Bytes) : Nat :=
  match fs.openFile path with
  | some node => node.size.getD 0
  | none => 0

def isChunkedResponse (fs : FileSystem) (path : Bytes) (location : Option Location) : Bool :=
  let fileSize := getFileSize fs path
  match location with
  | some location =>
      if location.chunkedTransferEncoding then decide (fileSize ≥ location.chunkedThreshold)
      else decide (fileSize ≥ 10 * 1024 * 1024)
  | none => decide (fileSize ≥ 10 * 1024 * 1024)

end Chunk

/-- A number as a stream writes it. -/
def decimal (n : Nat) : Bytes := bytes (toString n)

/-- `set_status_line` and `status_line`. -/
def statusLine (code : Nat) (msg : Bytes) : Bytes :=
  bytes " " ++ decimal code ++ bytes " " ++ msg ++ crlf

namespace ServerResponse

/-- The constructor of the class. -/
def create (status : Status) (request : Request) (fileSystem : FileSystem)
    (sessionStore : SessionStore) (defaultAutoIndex : Bool) : ServerResponse := {
  status := status
  request := request
  fileSystem := fileSystem
  sessionStore := sessionStore
  defaultAutoIndex := defaultAutoIndex }

def header (r : ServerResponse) (key value : Bytes) : ServerResponse :=
  { r with headers := r.headers ++ key ++ bytes ": " ++ value ++ crlf }

section ErrorResponse

/-- `serve_error_file`: the page, if it can be opened. -/
def serveErrorFile (fs : FileSystem) (path : Bytes) : Except Fault (Option Bytes) :=
  match fs.openFile path with
  | none => .ok none
  | some node =>
      match fs.readInto node node.size with
      | some body => .ok (some body)
      | none => .error .lengthError

def fallbackErrorPage (code : Nat) (errorMsg : Bytes) : Bytes :=
  let errorMessage := decimal code ++ bytes " " ++ errorMsg ++ bytes " "
  bytes "<!DOCTYPE html><html><head><title>" ++ errorMessage ++
    bytes "</title></head><body><h1>" ++ errorMessage ++ bytes "</h1></body></html>"

def getErrorPagePath (config : Config) (code : Nat) : Bytes :=
  (config.common.errorPage.lookup code).getD []

def sendErrorPage (config : Config) (code : Nat) (errorMsg : Bytes) (r : ServerResponse) :
    Except Fault ServerResponse := do
  let r := r.header (bytes "content-type") (bytes "text/html")
  let page ← serveErrorFile r.fileSystem (getErrorPagePath config code)
  pure { r with body := page.getD (fallbackErrorPage code errorMsg) }

/-- `handle_file_error`; no caller serves an error page through it. -/
def handleFileError (config : Config) (r : ServerResponse) : Except Fault ServerResponse := do
  let r := r.header (bytes "content-type") (bytes "text/html")
  match config.common.errorPage.lookup 404 with
  | none => throw .outOfRange
  | some path =>
      let page ← serveErrorFile r.fileSystem path
      pure { r with body := page.getD r.body, status := .notFound }

end ErrorResponse

section JsonResponse

/-- The body of `set_success_response` and `set_error_response`. -/
def jsonMessage (success : Bool) (message : Bytes) : Bytes :=
  bytes "\x7b\"success\": " ++ (if success then bytes "true" else bytes "false") ++
    bytes ", \"message\": \"" ++ message ++ bytes "\"\x7d"

def setSuccessResponse (message : Bytes) (r : ServerResponse) : ServerResponse :=
  { r with body := jsonMessage true message }.header (bytes "content-type")
    (bytes "application/json")

def setErrorResponse (message : Bytes) (r : ServerResponse) : ServerResponse :=
  ({ r with body := jsonMessage false message }.header (bytes "content-type")
    (bytes "application/json")).header (bytes "access-control-allow-origin") (bytes "*")

/-- `generate_directory`. -/
def generateDirectory (fs : FileSystem) (path : Bytes) : Bytes :=
  match fs.entries path with
  | none => bytes "[]"
  | some entries =>
      let names := entries.filter (fun name => name != bytes "." && name != bytes "..")
      let quoted := names.map (fun name => bytes "\"" ++ name ++ bytes "\"")
      bytes "[" ++ (quoted.intersperse (bytes ",")).flatten ++ bytes "]"

def createJsonResponse (data : Bytes) (r : ServerResponse) : ServerResponse :=
  if data = [] then
    r.setErrorResponse (bytes "Internal Server Error - No file management location found")
  else
    ({ r with body := generateDirectory r.fileSystem data }.header (bytes "content-type")
      (bytes "application/json")).header (bytes "access-control-allow-origin") (bytes "*")

end JsonResponse

/-- `serve_file(path, false)`; in each call `path` is `_resolved_file_path`. -/
def serveFile (config : Config) (r : ServerResponse) : Except Fault ServerResponse :=
  match r.fileSystem.openFile r.resolvedFilePath with
  | none => r.handleFileError config
  | some node =>
      if r.status.isError then r.handleFileError config
      else
        let location := findBestLocationMatch config r.request.uriPath
        if isChunkedResponse r.fileSystem r.resolvedFilePath location then
          .ok { r with
            isChunked := true
            needsStreaming := true
            streamFilePath := r.resolvedFilePath
            streamLocation := location }
        else
          match node.size with
          | none => r.handleFileError config
          | some size =>
              match r.fileSystem.readInto node (some size) with
              | some body => .ok { r with body := body }
              | none => .error .lengthError

def handleDirectory (config : Config) (location : Location) (r : ServerResponse) :
    Except Fault ServerResponse :=
  let r := { r with resolvedFilePath := ensureTrailingSlash r.resolvedFilePath }
  let indexFilePath := r.resolvedFilePath ++ location.common.index.headD (bytes "index.html")
  let indexExists := r.fileSystem.isFileExists indexFilePath
  let jsonRequested := r.request.mimeType == bytes ".json"
  if indexExists && !jsonRequested then
    let contentType := identifyMimeType (bytes ".html")
    let r := { r with
      resolvedFilePath := indexFilePath
      request := { r.request with mimeType := bytes ".html" }
      respContentType := contentType }
    (r.header (bytes "content-type") contentType).serveFile config
  else if location.common.autoIndex && (!indexExists || jsonRequested) then
    .ok (r.createJsonResponse r.resolvedFilePath)
  else { r with status := .forbidden }.sendErrorPage config 403 (bytes "Forbidden")

def setBinaryHeaders (r : ServerResponse) : ServerResponse :=
  (r.header (bytes "content-disposition") (bytes "inline")).header (bytes "cache-control")
    (bytes "public, max-age=3600")

def handleGetMethod (config : Config) (location : Location) (r : ServerResponse) :
    Except Fault ServerResponse :=
  if r.fileSystem.isDirectory r.resolvedFilePath then r.handleDirectory config location
  else
    let contentType := identifyMimeType r.request.mimeType
    let r := { r with respContentType := contentType }.header (bytes "content-type") contentType
    let r := if isBinary r.request.mimeType then r.setBinaryHeaders else r
    r.serveFile config

def setUploadSuccess (message : Bytes) (r : ServerResponse) : ServerResponse :=
  { r with status := .ok }.setSuccessResponse message

def setUploadError (status : Status) (message : Bytes) (r : ServerResponse) : ServerResponse :=
  { r with status := status }.setErrorResponse message

def getUploadFilePath (resolvedFilePath filename : Bytes) : Bytes :=
  ensureTrailingSlash resolvedFilePath ++ filename

/-- `save_uploaded_file`, and whether it returns true. -/
def saveUploadedFile (fs : FileSystem) (filePath : Bytes) (content : RequestContent) :
    FileSystem × Bool :=
  match fs.append filePath content.data with
  | none => (fs, false)
  | some fs => (fs, content.isFinished)

/-- The loop of `handle_multipart_upload` over `content_data`. -/
def handleMultipartUpload (r : ServerResponse) : List RequestContent → ServerResponse
  | [] => { r with request := { r.request with contentData := [] } }
  | content :: rest =>
      let filePath := getUploadFilePath r.resolvedFilePath content.filename
      if r.fileSystem.isFileExists filePath && !content.isFileCreated then
        { r with request := { r.request with contentData := content :: rest } }.setUploadError
          .conflict (bytes "file already exists")
      else
        let (fs, saved) := saveUploadedFile r.fileSystem filePath content
        let r := { r with fileSystem := fs }
        let r :=
          if saved then r.setUploadSuccess (bytes "upload successful")
          else if content.isFinished then
            r.setUploadError .badRequest (bytes "no file uploaded or failed to save file(s)")
          else { r with status := .continue_ }
        if content.isFinished then r.handleMultipartUpload rest
        else
          let content := { content with isFileCreated := true, data := [] }
          { r with request := { r.request with contentData := content :: rest } }

def handleFileUpload (config : Config) (r : ServerResponse) : Except Fault ServerResponse :=
  let contentType := r.request.contentType
  if (contentType.type = bytes "text" ∧ contentType.subtype = bytes "plain") ∨
      (contentType.type = bytes "plain" ∧ contentType.subtype = bytes "text") then
    { r with status := .forbidden }.sendErrorPage config 403 (bytes "Forbidden")
  else if r.request.contentData ≠ [] then .ok (r.handleMultipartUpload r.request.contentData)
  else .ok (r.setUploadError .badRequest (bytes "no data to upload"))

def handleFileDelete (r : ServerResponse) : ServerResponse :=
  if r.fileSystem.node r.resolvedFilePath = none then
    { r.setErrorResponse (bytes "File not found") with status := .notFound }
  else
    match r.fileSystem.unlink r.resolvedFilePath with
    | some fs =>
        { { r with fileSystem := fs }.setSuccessResponse (bytes "File deleted successfully") with
          status := .ok }
    | none => { r.setErrorResponse (bytes "Failed to delete file") with
        status := .internalServerError }

def maxInternalRewrites : Nat := 5

/-- The method of the request, for a location without a redirect. -/
def runMethod (config : Config) (location : Location) (r : ServerResponse) :
    Except Fault ServerResponse :=
  if r.request.method = bytes "DELETE" ∧ location.common.methods.deleteMethod = true then
    .ok r.handleFileDelete
  else if r.request.method = bytes "GET" ∧ location.common.methods.getMethod = true then
    r.handleGetMethod config location
  else if r.request.method = bytes "POST" ∧ location.common.methods.postMethod = true then
    r.handleFileUpload config
  else do
    let r ← r.sendErrorPage config 405 (bytes "Method Not Allowed")
    pure { r with status := .methodNotAllowed }

/-- `choose_method`, which calls itself at most `fuel` times. -/
def chooseMethod (config : Config) : Nat → Location → ServerResponse →
    Except Fault ServerResponse
  | 0, _, _ => .error .outOfFuel
  | fuel + 1, location, r =>
      let r := { r with resolvedFilePath := resolveFilePath config location r.request.uriPath }
      if location.common.returnPath ≠ [] ∧ r.request.rewriteCount < maxInternalRewrites ∧
          r.request.uriPath ≠ location.common.returnPath then
        let r := { r with request := { r.request with
          uriPath := location.common.returnPath
          rewriteCount := r.request.rewriteCount + 1 } }
        match findBestLocationMatch config r.request.uriPath with
        | some newLocation => chooseMethod config fuel newLocation r
        | none => r.runMethod config location
      else r.runMethod config location

def serveDefaultRoot (config : Config) (r : ServerResponse) : Except Fault ServerResponse :=
  if r.request.uriPath = bytes "/" then
    let location : Location := {
      path := bytes "/"
      common := {
        root := config.common.root
        index := config.common.index
        autoIndex := r.defaultAutoIndex } }
    { r with resolvedFilePath := resolveFilePath config location r.request.uriPath
      }.handleGetMethod config location
  else { r with status := .notFound }.sendErrorPage config 404 (bytes "Not Found")

section Auth

/-- The lines that `getline` reads. -/
def lines (content : Bytes) : List Bytes :=
  let pieces := content.splitOn 10
  if pieces.getLast? = some [] then pieces.dropLast else pieces

/-- `text` cut at the first `c`. -/
def cutAt (c : UInt8) (text : Bytes) : Option (Bytes × Bytes) :=
  (text.idxOf? c).map (fun pos => (text.take pos, text.drop (pos + 1)))

def getQueryParam (key : Bytes) (request : Request) : Bytes :=
  (((request.pathQueries.filterMap (cutAt (byteOf '='))).find?
    (fun pair => pair.1 == key)).map Prod.snd).getD []

/-- The users file has a line for this user with this password. -/
def isUser (content username password : Bytes) : Bool :=
  ((lines content).filterMap (cutAt (byteOf ':'))).contains (username, password)

def usersFile : Bytes := bytes "Pages/secrets/users.txt"

def withJson (body : Bytes) (r : ServerResponse) : ServerResponse :=
  { r with body := body, status := .ok }.header (bytes "content-type") (bytes "application/json")

def userMessage (message username : Bytes) : Bytes :=
  bytes "\x7b\"success\": true, \"message\": \"" ++ message ++ bytes "\", \"username\": \"" ++
    username ++ bytes "\"\x7d"

/-- The sender always passes a session store. -/
def handleAuthLogin (r : ServerResponse) : ServerResponse :=
  let username := getQueryParam (bytes "username") r.request
  let password := getQueryParam (bytes "password") r.request
  if username = [] ∨ password = [] then
    { r.setErrorResponse (bytes "missing credentials") with status := .badRequest }
  else
    match r.fileSystem.openFile usersFile with
    | none => { r.setErrorResponse (bytes "no db data found") with status := .internalServerError }
    | some node =>
        let content := match node with
          | .file content => content
          | _ => []
        if isUser content username password = false then
          { r.setErrorResponse (bytes "invalid credentials") with status := .unauthorized }
        else
          let (sid, sessionStore) := r.sessionStore.createSession username 3600
          let r := { r with sessionStore := sessionStore }.header (bytes "Set-Cookie")
            (bytes "session_id=" ++ sid ++ bytes "; Path=/; HttpOnly; Max-Age=3600")
          r.withJson (userMessage (bytes "Logged in") username)

def handleAuthSession (r : ServerResponse) : ServerResponse :=
  if r.request.sessionId = [] then
    { r.setErrorResponse (bytes "no session") with status := .unauthorized }
  else
    let (found, sessionStore) := r.sessionStore.getUsername r.request.sessionId
    let r := { r with sessionStore := sessionStore }
    match found with
    | some username => r.withJson (userMessage (bytes "OK") username)
    | none => { r.setErrorResponse (bytes "invalid or expired session") with
        status := .unauthorized }

def handleAuthLogout (r : ServerResponse) : ServerResponse :=
  if r.request.sessionId = [] then
    { r.setErrorResponse (bytes "no session") with status := .badRequest }
  else
    let r := { r with sessionStore := r.sessionStore.destroySession r.request.sessionId }
    let r := r.header (bytes "Set-Cookie")
      (bytes "session_id=deleted; Path=/; HttpOnly; Max-Age=0")
    { r.setSuccessResponse (bytes "Logged out") with status := .ok }

end Auth

/-- `server_name[0]`. -/
def serverName (config : Config) : Except Fault Bytes :=
  match config.serverName with
  | [] => .error .outOfBounds
  | name :: _ => .ok name

def addServerAndLength (config : Config) (r : ServerResponse) : Except Fault ServerResponse := do
  let name ← serverName config
  let r := r.header (bytes "server") name
  pure (if r.isChunked then r.header (bytes "transfer-encoding") (bytes "chunked")
    else r.header (bytes "content-length") (decimal r.body.length))

/-- The text of the answer behind its status line. -/
def respond (line : Bytes) (r : ServerResponse) : ServerResponse :=
  { r with response := bytes "HTTP/1.1" ++ line ++ r.headers ++ crlf ++
      (if r.needsStreaming then [] else r.body) }

def constructResponseLine (config : Config) (r : ServerResponse) :
    Except Fault ServerResponse := do
  let r ← r.addServerAndLength config
  pure { r with response := bytes "HTTP/1.1" ++ statusLine r.status.code (bytes r.status.msg) ++
    r.headers ++ crlf ++ r.body }

def generateErrorResponse (config : Config) (r : ServerResponse) :
    Except Fault ServerResponse := do
  let r ← r.sendErrorPage config r.status.code (bytes r.status.msg)
  r.constructResponseLine config

def generateCgiResponse (config : Config) (r : ServerResponse) : Except Fault ServerResponse := do
  let name ← serverName config
  let r := r.header (bytes "server") name
  let r :=
    match r.request.contentData with
    | content :: _ =>
        { r with body := content.data }.header (bytes "content-type") content.contentType
    | [] => r.header (bytes "content-type") (bytes "text/html")
  let r := r.header (bytes "content-length") (decimal r.body.length)
  let line :=
    if r.request.statusString = [] then statusLine 200 (bytes "OK")
    else bytes " " ++ r.request.statusString ++ crlf
  pure { r with response := bytes "HTTP/1.1" ++ line ++ r.headers ++ crlf ++ r.body }

/-- The first element is larger than the limit of the location. -/
def isTooLarge (bestMatch : Option Location) (request : Request) : Bool :=
  match bestMatch, request.contentData with
  | some location, content :: _ =>
      decide (content.data.length > location.common.maxClientBody) &&
        location.common.maxClientBody != 0
  | _, _ => false

def generateResponse (config : Config) (r : ServerResponse) : Except Fault ServerResponse :=
  if r.status.isError then r.generateErrorResponse config
  else
    let bestMatch := findBestLocationMatch config r.request.uriPath
    if isTooLarge bestMatch r.request then
      { r with status := .requestEntityTooLarge }.generateErrorResponse config
    else if r.request.uriPath = bytes "/login" then r.handleAuthLogin.constructResponseLine config
    else if r.request.uriPath = bytes "/session" then
      r.handleAuthSession.constructResponseLine config
    else if r.request.uriPath = bytes "/logout" then
      r.handleAuthLogout.constructResponseLine config
    else if r.request.isCgi then r.generateCgiResponse config
    else do
      let r ←
        match bestMatch with
        | some location => r.chooseMethod config (maxInternalRewrites + 1) location
        | none => r.serveDefaultRoot config
      let r ← r.addServerAndLength config
      pure (r.respond (statusLine r.status.code (bytes r.status.msg)))

end ServerResponse

end FortyTwo.Webserv
