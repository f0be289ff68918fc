import FortyTwo.Foundation.BoundedLoop
import FortyTwo.Webserv.RequestHeader
import FortyTwo.Webserv.ServerResponse

/-!
When `generate_response` returns. What a request is answered with is settled
before anything is read: text that the server writes itself, the page of an
error, or a file. Only the last two can throw, and the answer says what each
needs for that not to happen.
-/

namespace FortyTwo.Webserv.ServerResponse

open Foundation

/-- What a request is answered with; `uriPath` chooses the location whose
threshold says whether the file is streamed. -/
inductive Answer where
  | text
  | errorPage (code : Nat)
  | file (path uriPath : Bytes)
  deriving DecidableEq, Repr

section Fits

variable (config : Config) (fs : FileSystem)

/-- A page that opens is no longer than a string. -/
def pageFits (path : Bytes) : Bool :=
  (fs.openFile path).all (fun node => decide (node.size.getD (2 ^ 64 - 1) ≤ fs.maxSize))

/-- There is a page for the code 404, and it fits. -/
def notFoundPageFits : Bool := (config.common.errorPage.lookup 404).any (pageFits fs)

/-- A file that opens is streamed, or no longer than a string; for one that
does not open, or has no size, there is a page for 404. -/
def fileFits (path uriPath : Bytes) : Bool :=
  match fs.openFile path with
  | none => notFoundPageFits config fs
  | some node =>
      isChunkedResponse fs path (findBestLocationMatch config uriPath) ||
        match node.size with
        | none => notFoundPageFits config fs
        | some size => decide (size ≤ fs.maxSize)

def isAnswerable : Answer → Bool
  | .text => true
  | .errorPage code => pageFits fs (getErrorPagePath config code)
  | .file path uriPath => fileFits config fs path uriPath

abbrev Answerable (answer : Answer) : Prop := isAnswerable config fs answer = true

end Fits

/-- Where the redirects of a location lead to: the location that answers, the
path that it has resolved and the target that the request has by then. -/
structure Target where
  location : Location
  path : Bytes
  uriPath : Bytes

/-- The target after at most `rewrites` redirects. -/
def followRedirects (config : Config) : Nat → Location → Bytes → Target
  | 0, location, uriPath => ⟨location, resolveFilePath config location uriPath, uriPath⟩
  | rewrites + 1, location, uriPath =>
      let path := resolveFilePath config location uriPath
      if location.common.returnPath = [] ∨ uriPath = location.common.returnPath then
        ⟨location, path, uriPath⟩
      else
        match findBestLocationMatch config location.common.returnPath with
        | some next => followRedirects config rewrites next location.common.returnPath
        | none => ⟨location, path, location.common.returnPath⟩

def getAnswer (fs : FileSystem) (mimeType : Bytes) (target : Target) : Answer :=
  if fs.isDirectory target.path then
    let indexFilePath :=
      ensureTrailingSlash target.path ++ target.location.common.index.headD (bytes "index.html")
    let indexExists := fs.isFileExists indexFilePath
    let jsonRequested := mimeType == bytes ".json"
    if indexExists && !jsonRequested then .file indexFilePath target.uriPath
    else if target.location.common.autoIndex && (!indexExists || jsonRequested) then .text
    else .errorPage 403
  else .file target.path target.uriPath

def isPlainText (contentType : MediaType) : Bool :=
  (contentType.type == bytes "text" && contentType.subtype == bytes "plain") ||
    (contentType.type == bytes "plain" && contentType.subtype == bytes "text")

def methodAnswer (fs : FileSystem) (request : Request) (target : Target) : Answer :=
  let methods := target.location.common.methods
  if request.method = bytes "DELETE" ∧ methods.deleteMethod = true then .text
  else if request.method = bytes "GET" ∧ methods.getMethod = true then
    getAnswer fs request.mimeType target
  else if request.method = bytes "POST" ∧ methods.postMethod = true then
    if isPlainText request.contentType then .errorPage 403 else .text
  else .errorPage 405

def defaultLocation (config : Config) (autoIndex : Bool) : Location := {
  path := bytes "/"
  common := { root := config.common.root, index := config.common.index, autoIndex := autoIndex } }

def answer (config : Config) (r : ServerResponse) : Answer :=
  let request := r.request
  let bestMatch := findBestLocationMatch config request.uriPath
  if r.status.isError then .errorPage r.status.code
  else if isTooLarge bestMatch request then .errorPage 413
  else if request.uriPath = bytes "/login" ∨ request.uriPath = bytes "/session" ∨
      request.uriPath = bytes "/logout" ∨ request.isCgi = true then
    .text
  else
    match bestMatch with
    | some location =>
        methodAnswer r.fileSystem request
          (followRedirects config (maxInternalRewrites - request.rewriteCount) location
            request.uriPath)
    | none =>
        if request.uriPath = bytes "/" then
          let location := defaultLocation config r.defaultAutoIndex
          getAnswer r.fileSystem request.mimeType
            ⟨location, resolveFilePath config location request.uriPath, request.uriPath⟩
        else .errorPage 404

/-- The call comes back with a value. -/
def Returns {α : Type} (result : Except Fault α) : Prop := ∃ a, result = .ok a

@[simp] private theorem returns_ok {α : Type} (a : α) : Returns (.ok a) ↔ True :=
  iff_true_intro ⟨a, rfl⟩

@[simp] private theorem returns_error {α : Type} (fault : Fault) :
    Returns (.error fault : Except Fault α) ↔ False := by
  simp [Returns]

/-- What follows a call that returns does not matter, if it returns itself. -/
private theorem returns_bind {α β : Type} {result : Except Fault α} {next : α → Except Fault β}
    (hnext : ∀ a, Returns (next a)) : Returns (result >>= next) ↔ Returns result := by
  cases result with
  | error fault => simp [bind, Except.bind]
  | ok a => exact iff_of_true (hnext a) ⟨a, rfl⟩

private theorem readInto_isSome (fs : FileSystem) (node : Node) (size : Option Nat) :
    (fs.readInto node size).isSome ↔ size.getD (2 ^ 64 - 1) ≤ fs.maxSize := by
  unfold FileSystem.readInto
  by_cases hlong : size.getD (2 ^ 64 - 1) > fs.maxSize
  · simp only [if_pos hlong, Option.isSome_none, Bool.false_eq_true, false_iff]
    omega
  · simp only [if_neg hlong]
    cases node <;> simp only [Option.isSome_some, true_iff] <;> omega

private theorem serveErrorFile_returns (fs : FileSystem) (path : Bytes) :
    Returns (serveErrorFile fs path) ↔ pageFits fs path = true := by
  unfold serveErrorFile pageFits
  cases fs.openFile path with
  | none => simp
  | some node =>
      simp only [Option.all_some, decide_eq_true_eq, ← readInto_isSome fs node]
      cases fs.readInto node node.size <;> simp

private theorem sendErrorPage_returns (config : Config) (code : Nat) (errorMsg : Bytes)
    (r : ServerResponse) :
    Returns (r.sendErrorPage config code errorMsg) ↔
      Answerable config r.fileSystem (.errorPage code) := by
  unfold sendErrorPage
  exact (returns_bind (fun _ => by exact ⟨_, rfl⟩)).trans (serveErrorFile_returns _ _)

private theorem handleFileError_returns (config : Config) (r : ServerResponse) :
    Returns (r.handleFileError config) ↔ notFoundPageFits config r.fileSystem = true := by
  unfold handleFileError notFoundPageFits
  cases config.common.errorPage.lookup 404 with
  | none => simp [throw, throwThe, MonadExceptOf.throw]
  | some path =>
      simp only [Option.any_some]
      exact (returns_bind (fun _ => by exact ⟨_, rfl⟩)).trans (serveErrorFile_returns _ _)

/-- A file is served when it fits, in a response without an error. -/
private theorem serveFile_returns (config : Config) (r : ServerResponse)
    (hstatus : r.status.isError = false) :
    Returns (r.serveFile config) ↔
      Answerable config r.fileSystem (.file r.resolvedFilePath r.request.uriPath) := by
  change _ ↔ fileFits config r.fileSystem r.resolvedFilePath r.request.uriPath = true
  unfold serveFile fileFits
  cases hopen : r.fileSystem.openFile r.resolvedFilePath with
  | none => exact handleFileError_returns config r
  | some node =>
      simp only [hstatus, Bool.false_eq_true, if_false, Bool.or_eq_true]
      by_cases hchunked : isChunkedResponse r.fileSystem r.resolvedFilePath
          (findBestLocationMatch config r.request.uriPath) = true
      · simp [hchunked]
      · simp only [hchunked, Bool.false_eq_true, if_false, false_or]
        cases hsize : node.size with
        | none => exact handleFileError_returns config r
        | some size =>
            have hread := readInto_isSome r.fileSystem node (some size)
            simp only [Option.getD_some] at hread
            simp only [decide_eq_true_eq, ← hread]
            cases r.fileSystem.readInto node (some size) <;> simp

private theorem handleGetMethod_returns (config : Config) (location : Location)
    (r : ServerResponse) (hstatus : r.status.isError = false) :
    Returns (r.handleGetMethod config location) ↔
      Answerable config r.fileSystem (getAnswer r.fileSystem r.request.mimeType
        ⟨location, r.resolvedFilePath, r.request.uriPath⟩) := by
  unfold handleGetMethod getAnswer
  by_cases hdir : r.fileSystem.isDirectory r.resolvedFilePath = true
  · simp only [hdir, if_true]
    unfold handleDirectory
    simp only
    split
    · exact serveFile_returns config _ hstatus
    · split
      · simp [Answerable, isAnswerable]
      · exact sendErrorPage_returns config 403 _ _
  · simp only [hdir, Bool.false_eq_true, if_false]
    split <;> exact serveFile_returns config _ hstatus

private theorem handleFileUpload_returns (config : Config) (r : ServerResponse) :
    Returns (r.handleFileUpload config) ↔
      Answerable config r.fileSystem
        (if isPlainText r.request.contentType then .errorPage 403 else .text) := by
  unfold handleFileUpload isPlainText
  simp only [Bool.or_eq_true, Bool.and_eq_true, beq_iff_eq]
  split
  · exact sendErrorPage_returns config 403 _ _
  · split <;> simp [Answerable, isAnswerable]

private theorem runMethod_returns (config : Config) (location : Location) (r : ServerResponse)
    (hstatus : r.status.isError = false) :
    Returns (r.runMethod config location) ↔
      Answerable config r.fileSystem (methodAnswer r.fileSystem r.request
        ⟨location, r.resolvedFilePath, r.request.uriPath⟩) := by
  unfold runMethod methodAnswer
  simp only
  split
  · simp [Answerable, isAnswerable]
  split
  · exact handleGetMethod_returns config location r hstatus
  split
  · exact handleFileUpload_returns config r
  · exact (returns_bind (fun _ => by exact ⟨_, rfl⟩)).trans (sendErrorPage_returns config 405 _ _)

/-- The method is run in the location that the redirects lead to. -/
theorem chooseMethod_eq_runMethod (config : Config) (fuel : Nat) :
    ∀ (location : Location) (r : ServerResponse),
      maxInternalRewrites - r.request.rewriteCount < fuel →
      ∃ count,
        let target := followRedirects config (maxInternalRewrites - r.request.rewriteCount)
          location r.request.uriPath
        chooseMethod config fuel location r = runMethod config target.location { r with
          resolvedFilePath := target.path
          request := { r.request with uriPath := target.uriPath, rewriteCount := count } } := by
  induction fuel with
  | zero =>
      intro location r hfuel
      omega
  | succ fuel ih =>
      intro location r hfuel
      unfold chooseMethod
      simp only
      by_cases hredirect : location.common.returnPath ≠ [] ∧
          r.request.rewriteCount < maxInternalRewrites ∧
          r.request.uriPath ≠ location.common.returnPath
      · obtain ⟨hreturn, hcount, hother⟩ := hredirect
        obtain ⟨left, hleft⟩ : ∃ left, maxInternalRewrites - r.request.rewriteCount = left + 1 :=
          ⟨maxInternalRewrites - r.request.rewriteCount - 1, by omega⟩
        rw [if_pos ⟨hreturn, hcount, hother⟩, hleft, followRedirects, if_neg (by tauto)]
        cases findBestLocationMatch config location.common.returnPath with
        | none => exact ⟨_, rfl⟩
        | some next =>
            have hnext := ih next { r with
              resolvedFilePath := resolveFilePath config location r.request.uriPath
              request := { r.request with
                uriPath := location.common.returnPath
                rewriteCount := r.request.rewriteCount + 1 } } (by simp only; omega)
            simp only [show maxInternalRewrites - (r.request.rewriteCount + 1) = left by omega]
              at hnext
            exact hnext
      · rw [if_neg hredirect]
        have hstay : followRedirects config (maxInternalRewrites - r.request.rewriteCount) location
            r.request.uriPath =
              ⟨location, resolveFilePath config location r.request.uriPath, r.request.uriPath⟩ := by
          cases hleft : maxInternalRewrites - r.request.rewriteCount with
          | zero => rfl
          | succ left =>
              exact if_pos (by by_contra hno; exact hredirect ⟨by tauto, by omega, by tauto⟩)
        rw [hstay]
        exact ⟨r.request.rewriteCount, rfl⟩

private theorem chooseMethod_returns (config : Config) (location : Location) (r : ServerResponse)
    (hstatus : r.status.isError = false) :
    Returns (chooseMethod config (maxInternalRewrites + 1) location r) ↔
      Answerable config r.fileSystem (methodAnswer r.fileSystem r.request
        (followRedirects config (maxInternalRewrites - r.request.rewriteCount) location
          r.request.uriPath)) := by
  obtain ⟨count, hchoose⟩ := chooseMethod_eq_runMethod config (maxInternalRewrites + 1) location r
    (by omega)
  rw [hchoose]
  exact runMethod_returns config _ _ hstatus

private theorem serveDefaultRoot_returns (config : Config) (r : ServerResponse)
    (hstatus : r.status.isError = false) :
    Returns (r.serveDefaultRoot config) ↔
      Answerable config r.fileSystem (
        if r.request.uriPath = bytes "/" then
          let location := defaultLocation config r.defaultAutoIndex
          getAnswer r.fileSystem r.request.mimeType
            ⟨location, resolveFilePath config location r.request.uriPath, r.request.uriPath⟩
        else .errorPage 404) := by
  unfold serveDefaultRoot
  split
  · exact handleGetMethod_returns config _ _ hstatus
  · exact sendErrorPage_returns config 404 _ _

section NamedServer

variable {config : Config} (hname : config.serverName ≠ [])
include hname

private theorem serverName_returns : Returns (serverName config) := by
  unfold serverName
  cases hnames : config.serverName with
  | nil => exact absurd hnames hname
  | cons name rest => simp

private theorem addServerAndLength_returns (r : ServerResponse) :
    Returns (r.addServerAndLength config) :=
  (returns_bind (fun _ => by exact ⟨_, rfl⟩)).mpr (serverName_returns hname)

private theorem constructResponseLine_returns (r : ServerResponse) :
    Returns (r.constructResponseLine config) :=
  (returns_bind (fun _ => by exact ⟨_, rfl⟩)).mpr (addServerAndLength_returns hname r)

private theorem generateCgiResponse_returns (r : ServerResponse) :
    Returns (r.generateCgiResponse config) :=
  (returns_bind (fun _ => by exact ⟨_, rfl⟩)).mpr (serverName_returns hname)

private theorem generateErrorResponse_returns (r : ServerResponse) :
    Returns (r.generateErrorResponse config) ↔
      Answerable config r.fileSystem (.errorPage r.status.code) := by
  unfold generateErrorResponse
  exact (returns_bind (constructResponseLine_returns hname)).trans
    (sendErrorPage_returns config _ _ _)

end NamedServer

/-- A configured server answers a request without a throw exactly when it can
read what it has to answer with. -/
theorem generateResponse_returns_iff (config : Config) (r : ServerResponse)
    (hname : config.serverName ≠ []) :
    (∃ r', r.generateResponse config = .ok r') ↔
      Answerable config r.fileSystem (answer config r) := by
  change Returns _ ↔ _
  unfold generateResponse answer
  simp only
  split
  · exact generateErrorResponse_returns hname r
  rename_i hstatus
  replace hstatus : r.status.isError = false := by simpa using hstatus
  split
  · exact generateErrorResponse_returns hname _
  by_cases htext : r.request.uriPath = bytes "/login" ∨ r.request.uriPath = bytes "/session" ∨
      r.request.uriPath = bytes "/logout" ∨ r.request.isCgi = true
  · rw [if_pos htext]
    refine iff_of_true ?_ rfl
    split
    · exact constructResponseLine_returns hname _
    split
    · exact constructResponseLine_returns hname _
    split
    · exact constructResponseLine_returns hname _
    · rw [if_pos (by tauto)]
      exact generateCgiResponse_returns hname r
  · rw [if_neg htext]
    simp only [not_or] at htext
    obtain ⟨hlogin, hsession, hlogout, hcgi⟩ := htext
    rw [if_neg hlogin, if_neg hsession, if_neg hlogout, if_neg hcgi]
    have hrest (r : ServerResponse) : Returns (do
        let r ← r.addServerAndLength config
        pure (r.respond (statusLine r.status.code (bytes r.status.msg)))) :=
      (returns_bind (fun _ => by exact ⟨_, rfl⟩)).mpr (addServerAndLength_returns hname r)
    cases findBestLocationMatch config r.request.uriPath with
    | some location =>
        exact (returns_bind hrest).trans
          (chooseMethod_returns config location r hstatus)
    | none =>
        exact (returns_bind hrest).trans (serveDefaultRoot_returns config r hstatus)

/-- A server with one location that allows `GET`, and no error pages. -/
def plainServer : Config := {
  serverName := [bytes "webserv"]
  location := [{
    path := bytes "/"
    common := { root := bytes "Pages/", methods := { getMethod := true } } }] }

/-- A world with the single file `Pages/a`. -/
def oneFile : FileSystem := {
  node := fun path => if path = bytes "Pages/a" then some (.file (bytes "hello")) else none
  readable := fun _ => true
  appendable := fun _ => true
  removable := fun _ => true }

/-- A `GET` of the file is answered. -/
theorem generateResponse_returns_iff_oneFile :
    ∃ r', generateResponse plainServer {
      status := .ok
      request := (parseRequestLine (bytes "GET /a HTTP/1.1") {}).2
      fileSystem := oneFile } = .ok r' :=
  (generateResponse_returns_iff _ _ (by decide)).mpr (by decide)

/-- A `GET` of any other file is not: `errorPage.at(404)` throws. -/
theorem generateResponse_throws_without_notFound_page :
    ¬∃ r', generateResponse plainServer {
      status := .ok
      request := (parseRequestLine (bytes "GET /missing HTTP/1.1") {}).2
      fileSystem := oneFile } = .ok r' := by
  rintro ⟨r', hanswer⟩
  have hthrow : generateResponse plainServer {
      status := .ok
      request := (parseRequestLine (bytes "GET /missing HTTP/1.1") {}).2
      fileSystem := oneFile } = .error .outOfRange := by rfl
  rw [hthrow] at hanswer
  cases hanswer

end FortyTwo.Webserv.ServerResponse
