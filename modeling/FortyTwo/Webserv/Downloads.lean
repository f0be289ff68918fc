import FortyTwo.Webserv.ServedFiles

/-!
An upload and the downloads after it. An upload that is answered with 200 has stored
its last element, whole; while no request deletes the file, a `GET` of it sends these
bytes and no others.
-/

namespace FortyTwo.Webserv

open Foundation ServerResponse

section Method

variable {config : Config} {r r' : ServerResponse} {target : Target}

/-- What closes an answer changes neither its status nor the files. -/
private theorem closed_untouched
    (h : (do
      let r ← r.addServerAndLength config
      pure (r.respond (statusLine r.status.code (bytes r.status.msg)))) = .ok r') :
    Untouched r r' ∧ r'.status = r.status := by
  obtain ⟨closed, hclosed, h⟩ := except_bind_eq_ok.mp h
  have huntouched := addServerAndLength_untouched hclosed
  obtain ⟨name, -, hclose⟩ := except_bind_eq_ok.mp hclosed
  cases h
  refine ⟨huntouched.trans ⟨rfl, rfl⟩, ?_⟩
  cases hclose
  simp only [respond]
  split
  · rfl
  · rfl

private theorem runMethod_post {location : Location}
    (hmethod : r.request.method = bytes "POST")
    (hallowed : location.common.methods.postMethod = true) :
    runMethod config location r = r.handleFileUpload config := by
  unfold runMethod
  rw [if_neg (by rw [hmethod]; exact fun h => absurd h.1 (by decide)),
    if_neg (by rw [hmethod]; exact fun h => absurd h.1 (by decide)), if_pos ⟨hmethod, hallowed⟩]

private theorem runMethod_get {location : Location}
    (hmethod : r.request.method = bytes "GET")
    (hallowed : location.common.methods.getMethod = true) :
    runMethod config location r = r.handleGetMethod config location := by
  unfold runMethod
  rw [if_neg (by rw [hmethod]; exact fun h => absurd h.1 (by decide)),
    if_pos ⟨hmethod, hallowed⟩]

/-- A request with a target is answered by its method alone. -/
theorem generateResponse_method (h : methodTarget config r = some target) :
    ∃ count, r.generateResponse config = (do
      let r ← runMethod config target.location { r with
        resolvedFilePath := target.path
        request := { r.request with uriPath := target.uriPath, rewriteCount := count } }
      let r ← r.addServerAndLength config
      pure (r.respond (statusLine r.status.code (bytes r.status.msg)))) ∧
      r.status.isError = false := by
  unfold methodTarget at h
  simp only at h
  split at h
  · cases h
  next hmethod =>
  simp only [not_or, Bool.not_eq_false, Bool.not_eq_true] at hmethod
  obtain ⟨haccepted, hother, hcgi⟩ := hmethod
  obtain ⟨herror, hlarge⟩ : r.status.isError = false ∧
      isTooLarge (findBestLocationMatch config r.request.uriPath) r.request = false := by
    simpa [isAccepted] using haccepted
  simp only [authPaths, List.mem_cons, List.not_mem_nil, or_false, not_or] at hother
  obtain ⟨hlogin, hsession, hlogout⟩ := hother
  obtain ⟨location, hmatch, rfl⟩ := Option.map_eq_some_iff.mp h
  obtain ⟨count, hchoose⟩ := chooseMethod_eq_runMethod config (maxInternalRewrites + 1) location r
    (by omega)
  refine ⟨count, ?_, herror⟩
  unfold generateResponse
  simp only
  rw [if_neg (by simp [herror]), if_neg (by simp [hlarge]), if_neg hlogin, if_neg hsession,
    if_neg hlogout, if_neg (by simp [hcgi]), hmatch, ← hchoose]

end Method

section Upload

variable {fs : FileSystem} {path : Bytes}

/-- A directory is not opened for writing. -/
def NoDirectoryAppends (fs : FileSystem) (path : Bytes) : Prop :=
  fs.isDirectory path = true → fs.appendable path = false

private theorem saveUploadedFile_appendable (fs : FileSystem) (filePath : Bytes)
    (content : RequestContent) :
    (saveUploadedFile fs filePath content).1.appendable = fs.appendable := by
  unfold saveUploadedFile FileSystem.append
  split
  · rfl
  · next h =>
    split at h
    · cases h
    · split at h
      · cases h
        rfl
      · cases h
        rfl
      · cases h
        rfl

private theorem NoDirectoryAppends.saved (h : NoDirectoryAppends fs path) (filePath : Bytes)
    (content : RequestContent) :
    NoDirectoryAppends (saveUploadedFile fs filePath content).1 path := by
  have hnode : (saveUploadedFile fs filePath content).1.node path = fs.node path ∨
      ∃ data, (saveUploadedFile fs filePath content).1.node path = some (.file data) := by
    by_cases hpath : path = filePath
    · subst hpath
      rcases @saveUploadedFile_self path fs content with hsame | ⟨-, hnew⟩ | ⟨before, -, hmore⟩
      · exact Or.inl hsame
      · exact Or.inr ⟨_, hnew⟩
      · exact Or.inr ⟨_, hmore⟩
    · exact Or.inl (saveUploadedFile_others hpath)
  unfold NoDirectoryAppends FileSystem.isDirectory at h ⊢
  rw [saveUploadedFile_appendable]
  rcases hnode with hsame | ⟨data, hfile⟩
  · rw [hsame]
    exact h
  · rw [hfile]
    exact nofun

/-- A new file that is opened holds what is written to it. -/
private theorem saveUploadedFile_new {content : RequestContent}
    (hnew : fs.isFileExists path = false) (hdir : NoDirectoryAppends fs path)
    (hsaved : (saveUploadedFile fs path content).2 = true) :
    (saveUploadedFile fs path content).1.node path = some (.file content.data) := by
  unfold saveUploadedFile FileSystem.append at hsaved ⊢
  unfold NoDirectoryAppends FileSystem.isDirectory at hdir
  unfold FileSystem.isFileExists at hnew
  split
  · next h =>
    rw [h] at hsaved
    exact absurd hsaved Bool.false_ne_true
  · next fs' h =>
    split at h
    · cases h
    next happendable =>
    cases hnode : fs.node path with
    | none =>
        rw [hnode] at h
        cases h
        exact FileSystem.setNode_node_self _ _ _
    | some node =>
        rw [hnode] at hnew hdir
        cases node with
        | directory entries size => exact absurd (hdir rfl) happendable
        | file before => cases hnew
        | special size => cases hnew

/-- Nothing comes after an element that is in conflict or unfinished. -/
private theorem handleMultipartUpload_cons {content : RequestContent}
    {rest : List RequestContent} {r : ServerResponse} (hfresh : content.isFileCreated = false)
    (hok : (r.handleMultipartUpload (content :: rest)).status.code = 200) :
    r.fileSystem.isFileExists (getUploadFilePath r.resolvedFilePath content.filename) = false ∧
      ∃ next : ServerResponse,
        r.handleMultipartUpload (content :: rest) = next.handleMultipartUpload rest ∧
        next.resolvedFilePath = r.resolvedFilePath ∧
        next.fileSystem = (saveUploadedFile r.fileSystem
          (getUploadFilePath r.resolvedFilePath content.filename) content).1 ∧
        (next.status.code = 200 → (saveUploadedFile r.fileSystem
          (getUploadFilePath r.resolvedFilePath content.filename) content).2 = true) := by
  rw [handleMultipartUpload] at hok ⊢
  simp only [hfresh, Bool.not_false, Bool.and_true] at hok ⊢
  split at hok
  · exact absurd hok (show ¬ (409 : Nat) = 200 by decide)
  next hnew =>
  rw [if_neg hnew]
  refine ⟨by simpa using hnew, ?_⟩
  cases hfinished : content.isFinished with
  | false =>
      simp only [hfinished, Bool.false_eq_true, if_false] at hok
      have hunsaved : (saveUploadedFile r.fileSystem
          (getUploadFilePath r.resolvedFilePath content.filename) content).2 = false := by
        unfold saveUploadedFile
        split
        · rfl
        · exact hfinished
      rw [hunsaved] at hok
      exact absurd hok (show ¬ (100 : Nat) = 200 by decide)
  | true =>
      simp only [if_true]
      refine ⟨_, rfl, ?_, ?_, ?_⟩
      · split
        · rfl
        · rfl
      · split
        · rfl
        · rfl
      · intro hcode
        by_contra hunsaved
        rw [if_neg hunsaved] at hcode
        exact absurd hcode (show ¬ (400 : Nat) = 200 by decide)

/-- The upload has gone well only if its last element is stored. -/
private theorem handleMultipartUpload_stored {front : List RequestContent}
    {content : RequestContent} {r : ServerResponse}
    (hfresh : ∀ c ∈ front ++ [content], c.isFileCreated = false)
    (hdir : NoDirectoryAppends r.fileSystem
      (getUploadFilePath r.resolvedFilePath content.filename))
    (hok : (r.handleMultipartUpload (front ++ [content])).status.code = 200) :
    (r.handleMultipartUpload (front ++ [content])).fileSystem.node
      (getUploadFilePath r.resolvedFilePath content.filename) = some (.file content.data) := by
  induction front generalizing r with
  | nil =>
      obtain ⟨hnew, next, hnext, -, hfiles, hsaved⟩ :=
        handleMultipartUpload_cons (hfresh content (by simp)) hok
      rw [List.nil_append, hnext] at hok ⊢
      have hstored := saveUploadedFile_new hnew hdir (hsaved hok)
      rw [← hfiles] at hstored
      exact hstored
  | cons first front ih =>
      rw [List.cons_append] at hok ⊢
      obtain ⟨-, next, hnext, hresolved, hfiles, -⟩ :=
        handleMultipartUpload_cons (hfresh first (by simp)) hok
      rw [hnext] at hok ⊢
      rw [← hresolved] at hdir ⊢
      refine ih (fun c hc => hfresh c (List.mem_cons_of_mem _ hc)) ?_ hok
      rw [hfiles]
      exact hdir.saved _ first

end Upload

section Download

variable {config : Config} {location : Location} {r r' : ServerResponse} {data : Bytes}

/-- The answer holds `data`, or is to be streamed from a file that does. -/
structure Carries (r : ServerResponse) (data : Bytes) : Prop where
  chunked : r.isChunked = r.needsStreaming
  carried : if r.needsStreaming then r.fileSystem.node r.streamFilePath = some (.file data)
    else r.body = data

/-- What is sent: the whole of `data` behind its length, or a head that announces chunks
of a file that holds `data`. -/
def Sends (r : ServerResponse) (data : Bytes) : Prop :=
  if r.needsStreaming then
    r.fileSystem.node r.streamFilePath = some (.file data) ∧
      ∃ headers, r.response = bytes "HTTP/1.1" ++ statusLine r.status.code (bytes r.status.msg) ++
        headers ++ bytes "transfer-encoding: chunked" ++ crlf ++ crlf
  else
    ∃ headers, r.response = bytes "HTTP/1.1" ++ statusLine r.status.code (bytes r.status.msg) ++
      headers ++ bytes "content-length: " ++ decimal data.length ++ crlf ++ crlf ++ data

private theorem node_of_openFile {fs : FileSystem} {path : Bytes} {node : Node}
    (h : fs.openFile path = some node) : fs.node path = some node := by
  unfold FileSystem.openFile at h
  split at h
  · cases h
  · exact h

private theorem serveFile_carries (hnode : r.fileSystem.openFile r.resolvedFilePath = some (.file data))
    (herror : r.status.isError = false) (hstreaming : r.needsStreaming = false)
    (hchunked : r.isChunked = false) (h : r.serveFile config = .ok r') :
    r'.status = r.status ∧ Carries r' data := by
  unfold serveFile at h
  rw [hnode] at h
  simp only [herror, Bool.false_eq_true, if_false] at h
  split at h
  · cases h
    exact ⟨rfl, rfl, node_of_openFile hnode⟩
  · simp only [Node.size] at h
    split at h
    · next body hread =>
      cases h
      refine ⟨rfl, hchunked.trans hstreaming.symm, ?_⟩
      rw [if_neg (by simp [hstreaming])]
      unfold FileSystem.readInto at hread
      simp only at hread
      split at hread
      · cases hread
      · exact (Option.some.inj hread).symm
    · cases h

theorem handleGetMethod_carries
    (hnode : r.fileSystem.openFile r.resolvedFilePath = some (.file data))
    (herror : r.status.isError = false) (hstreaming : r.needsStreaming = false)
    (hchunked : r.isChunked = false) (h : r.handleGetMethod config location = .ok r') :
    r'.status = r.status ∧ Carries r' data := by
  have hfile : r.fileSystem.isDirectory r.resolvedFilePath = false := by
    rw [FileSystem.isDirectory, node_of_openFile hnode]
    rfl
  unfold handleGetMethod at h
  rw [if_neg (by simp [hfile])] at h
  simp only at h
  split at h
  · obtain ⟨hstatus, hcarries⟩ := serveFile_carries (by exact hnode) (by exact herror)
      (by exact hstreaming) (by exact hchunked) h
    exact ⟨hstatus, hcarries⟩
  · obtain ⟨hstatus, hcarries⟩ := serveFile_carries (by exact hnode) (by exact herror)
      (by exact hstreaming) (by exact hchunked) h
    exact ⟨hstatus, hcarries⟩

private theorem closed_sends (hcarries : Carries r data)
    (h : (do
      let r ← r.addServerAndLength config
      pure (r.respond (statusLine r.status.code (bytes r.status.msg)))) = .ok r') :
    r'.status = r.status ∧ Sends r' data := by
  obtain ⟨closed, hclosed, h⟩ := except_bind_eq_ok.mp h
  obtain ⟨name, -, hclose⟩ := except_bind_eq_ok.mp hclosed
  cases h
  cases hclose
  have hcarried := hcarries.carried
  have hchunked := hcarries.chunked
  cases hstreaming : r.needsStreaming with
  | true =>
      rw [hstreaming] at hchunked
      simp only [hstreaming, if_true] at hcarried
      simp only [header, hchunked, if_true, respond, Sends, hstreaming]
      refine ⟨trivial, hcarried, r.headers ++ bytes "server" ++ bytes ": " ++ name ++ crlf, ?_⟩
      have hfield : bytes "transfer-encoding: chunked" =
          bytes "transfer-encoding" ++ bytes ": " ++ bytes "chunked" := by decide
      simp only [hfield, List.append_assoc, List.append_nil]
  | false =>
      rw [hstreaming] at hchunked
      simp only [hstreaming, Bool.false_eq_true, if_false] at hcarried
      simp only [header, hchunked, Bool.false_eq_true, if_false, respond, Sends, hstreaming,
        hcarried]
      refine ⟨trivial, r.headers ++ bytes "server" ++ bytes ": " ++ name ++ crlf, ?_⟩
      have hfield : bytes "content-length: " = bytes "content-length" ++ bytes ": " := by decide
      simp only [hfield, List.append_assoc]

end Download

namespace Exchange

variable {e : Exchange} {sessions : SessionStore} {r : ServerResponse} {path data : Bytes}

/-- The request is a `POST` whose last element goes to the path, in a location that
allows it. -/
def UploadsLast (e : Exchange) (content : RequestContent) (path : Bytes) : Prop :=
  ∃ target directory front, methodTarget e.config (e.start {}) = some target ∧
    uploadDirectory e.request target = some directory ∧
    e.request.contentData = front ++ [content] ∧
    path = getUploadFilePath directory content.filename

/-- The request is a `GET` that comes down to the path, in a location that allows it. -/
def Gets (e : Exchange) (path : Bytes) : Prop :=
  ∃ target, methodTarget e.config (e.start {}) = some target ∧ target.path = path ∧
    e.request.method = bytes "GET" ∧ target.location.common.methods.getMethod = true

/-- The answer to a request with a target: its method, and the head that closes it. -/
private theorem respond_method (h : e.respond sessions = .ok r) {target : Target}
    (htarget : methodTarget e.config (e.start {}) = some target) :
    ∃ count answered, runMethod e.config target.location { e.start sessions with
        resolvedFilePath := target.path
        request := { e.request with uriPath := target.uriPath, rewriteCount := count } } =
          .ok answered ∧
      (do
        let r ← answered.addServerAndLength e.config
        pure (r.respond (statusLine r.status.code (bytes r.status.msg)))) = .ok r ∧
      e.status.isError = false := by
  have hsame : methodTarget e.config (e.start sessions) = some target := htarget
  obtain ⟨count, hgenerate, herror⟩ := generateResponse_method hsame
  have hrun : (e.start sessions).generateResponse e.config = .ok r := h
  rw [hgenerate] at hrun
  obtain ⟨answered, hmethod, hclosed⟩ := except_bind_eq_ok.mp hrun
  exact ⟨count, answered, hmethod, hclosed, herror⟩

theorem stored_of_upload (h : e.respond sessions = .ok r) {content : RequestContent}
    (hupload : e.UploadsLast content path) (hfresh : e.Fresh)
    (hdir : NoDirectoryAppends e.fileSystem path) (hcode : r.status.code = 200) :
    r.fileSystem.node path = some (.file content.data) := by
  obtain ⟨target, directory, front, htarget, hdirectory, hcontents, rfl⟩ := hupload
  obtain ⟨count, answered, hmethod, hclosed, -⟩ := respond_method h htarget
  obtain ⟨huntouched, hstatus⟩ := closed_untouched hclosed
  unfold uploadDirectory at hdirectory
  split at hdirectory
  case isFalse => cases hdirectory
  next hpost =>
  obtain ⟨hpost, hallowed, hplain⟩ := hpost
  obtain rfl : target.path = directory := Option.some.inj hdirectory
  rw [runMethod_post (by exact hpost) hallowed, handleFileUpload,
    if_neg (by simpa [isPlainText] using hplain), if_pos (by simp [hcontents])] at hmethod
  obtain rfl := Except.ok.inj hmethod
  rw [huntouched.files]
  rw [hstatus] at hcode
  simp only [hcontents] at hcode ⊢
  exact handleMultipartUpload_stored (by rw [← hcontents]; exact hfresh) hdir hcode

theorem get_sends (h : e.respond sessions = .ok r) (hget : e.Gets path)
    (hnode : e.fileSystem.openFile path = some (.file data)) :
    r.status = e.status ∧ Sends r data := by
  obtain ⟨target, htarget, rfl, hmethod, hallowed⟩ := hget
  obtain ⟨count, answered, hrun, hclosed, herror⟩ := respond_method h htarget
  rw [runMethod_get (by exact hmethod) hallowed] at hrun
  obtain ⟨hstatus, hcarries⟩ :=
    handleGetMethod_carries (by exact hnode) (by exact herror) rfl rfl hrun
  obtain ⟨hkept, hsends⟩ := closed_sends hcarries hclosed
  exact ⟨hkept.trans hstatus, hsends⟩

end Exchange

/-- A file that is there stays what it is while no request deletes it. -/
private theorem FilesServed.kept {before after : FileSystem} {exchanges : List Exchange}
    (hrun : FilesServed before exchanges after) {path data : Bytes}
    (hfresh : ∀ e ∈ exchanges, e.Fresh) (hkept : ∀ e ∈ exchanges, ¬ e.Deletes path)
    (hnode : before.node path = some (.file data)) : after.node path = some (.file data) := by
  induction hrun with
  | nil fs => exact hnode
  | @cons e rest sessions r fs hr hrest ih =>
      refine ih (fun later hlater => hfresh later (List.mem_cons_of_mem _ hlater))
        (fun later hlater => hkept later (List.mem_cons_of_mem _ hlater)) ?_
      rcases Exchange.respond_fresh hr (hkept e List.mem_cons_self) (hfresh e List.mem_cons_self)
        with hsame | ⟨content, -, hnone, -⟩
      · exact hsame.trans hnode
      · rw [hnode] at hnone
        cases hnone

private def noteServer : Config := {
  serverName := [bytes "webserv"]
  location := [{
    path := bytes "/files"
    common := {
      root := bytes "www"
      methods := { getMethod := true, postMethod := true, deleteMethod := true } } }] }

private def ask (method path : String) (contents : List RequestContent) (fs : FileSystem) :
    Exchange where
  config := noteServer
  status := .ok
  request := { method := bytes method, uriPath := bytes path, contentData := contents }
  time := 0
  newId := []
  fileSystem := fs
  autoIndex := false

private def note : RequestContent where
  filename := bytes "note"
  data := bytes "hello"
  isFinished := true

private def emptyFiles : FileSystem where
  node _ := none
  readable _ := true
  appendable _ := true
  removable _ := true

private def withNote : FileSystem :=
  emptyFiles.setNode (bytes "www/files/note") (some (.file (bytes "hello")))

end FortyTwo.Webserv
