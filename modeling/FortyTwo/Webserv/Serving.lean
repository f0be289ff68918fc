import FortyTwo.Webserv.ResponseFraming
import FortyTwo.Webserv.SessionHistory
import FortyTwo.Webserv.UploadedFiles

/-!
One call of `generate_response` after the other: what each of them changes of the
files and of the sessions. Only a `DELETE`, an upload and the three paths of the
sessions change anything.
-/

namespace FortyTwo.Webserv

open Foundation

/-- A call of `generate_response` with what it meets: the request so far, the clock,
the id that would be generated and the files. -/
structure Exchange where
  config : Config
  status : Status
  request : Request
  time : Int
  newId : Bytes
  fileSystem : FileSystem
  autoIndex : Bool

namespace Exchange

def start (e : Exchange) (sessions : SessionStore) : ServerResponse :=
  .create e.status e.request e.fileSystem { sessions with now := e.time, nextId := e.newId }
    e.autoIndex

def respond (e : Exchange) (sessions : SessionStore) : Except Fault ServerResponse :=
  (e.start sessions).generateResponse e.config

end Exchange

namespace ServerResponse

/-- Files and sessions are as before. -/
structure Untouched (r r' : ServerResponse) : Prop where
  files : r'.fileSystem = r.fileSystem
  sessions : r'.sessionStore = r.sessionStore

section Untouched

variable {config : Config} {location : Location} {r r' r'' : ServerResponse}

/-- Behind a step that sets other fields. -/
theorem Untouched.after (h : Untouched r' r'') (hfiles : r'.fileSystem = r.fileSystem)
    (hsessions : r'.sessionStore = r.sessionStore) : Untouched r r'' :=
  ⟨h.files.trans hfiles, h.sessions.trans hsessions⟩

theorem Untouched.trans (h : Untouched r r') (h' : Untouched r' r'') : Untouched r r'' :=
  ⟨h'.files.trans h.files, h'.sessions.trans h.sessions⟩

theorem sendErrorPage_untouched {code : Nat} {errorMsg : Bytes}
    (h : r.sendErrorPage config code errorMsg = .ok r') : Untouched r r' := by
  obtain ⟨page, -, hpage⟩ := except_bind_eq_ok.mp h
  cases hpage
  exact ⟨rfl, rfl⟩

private theorem handleFileError_untouched (h : r.handleFileError config = .ok r') :
    Untouched r r' := by
  obtain ⟨page, rfl⟩ := handleFileError_ok h
  exact ⟨rfl, rfl⟩

theorem serveFile_untouched (h : r.serveFile config = .ok r') : Untouched r r' := by
  unfold serveFile at h
  split at h
  · exact handleFileError_untouched h
  split at h
  · exact handleFileError_untouched h
  simp only at h
  split at h
  · cases h
    exact ⟨rfl, rfl⟩
  split at h
  · exact handleFileError_untouched h
  split at h
  · cases h
    exact ⟨rfl, rfl⟩
  · cases h

private theorem createJsonResponse_untouched (data : Bytes) :
    Untouched r (r.createJsonResponse data) := by
  unfold createJsonResponse
  split
  · exact ⟨rfl, rfl⟩
  · exact ⟨rfl, rfl⟩

theorem handleDirectory_untouched (h : r.handleDirectory config location = .ok r') :
    Untouched r r' := by
  unfold handleDirectory at h
  simp only at h
  split at h
  · exact (serveFile_untouched h).after rfl rfl
  split at h
  · cases h
    exact (createJsonResponse_untouched _).after rfl rfl
  · exact (sendErrorPage_untouched h).after rfl rfl

theorem handleGetMethod_untouched (h : r.handleGetMethod config location = .ok r') :
    Untouched r r' := by
  unfold handleGetMethod at h
  split at h
  · exact handleDirectory_untouched h
  · simp only at h
    split at h
    · exact (serveFile_untouched h).after rfl rfl
    · exact (serveFile_untouched h).after rfl rfl

theorem serveDefaultRoot_untouched (h : r.serveDefaultRoot config = .ok r') :
    Untouched r r' := by
  unfold serveDefaultRoot at h
  split at h
  · exact (handleGetMethod_untouched h).after rfl rfl
  · exact (sendErrorPage_untouched h).after rfl rfl

theorem addServerAndLength_untouched (h : r.addServerAndLength config = .ok r') :
    Untouched r r' := by
  obtain ⟨name, -, hclose⟩ := except_bind_eq_ok.mp h
  cases hclose
  split
  · exact ⟨rfl, rfl⟩
  · exact ⟨rfl, rfl⟩

theorem constructResponseLine_untouched (h : r.constructResponseLine config = .ok r') :
    Untouched r r' ∧ r'.status = r.status ∧ r'.body = r.body := by
  obtain ⟨closed, hclosed, hline⟩ := except_bind_eq_ok.mp h
  cases hline
  refine ⟨(addServerAndLength_untouched hclosed).trans ⟨rfl, rfl⟩, ?_⟩
  obtain ⟨name, -, hclose⟩ := except_bind_eq_ok.mp hclosed
  cases hclose
  split
  · exact ⟨rfl, rfl⟩
  · exact ⟨rfl, rfl⟩

theorem generateErrorResponse_untouched (h : r.generateErrorResponse config = .ok r') :
    Untouched r r' := by
  obtain ⟨page, hpage, hline⟩ := except_bind_eq_ok.mp h
  exact (sendErrorPage_untouched hpage).trans (constructResponseLine_untouched hline).1

theorem generateCgiResponse_untouched (h : r.generateCgiResponse config = .ok r') :
    Untouched r r' := by
  obtain ⟨name, -, hline⟩ := except_bind_eq_ok.mp h
  cases hline
  constructor
  · simp only
    split
    · rfl
    · rfl
  · simp only
    split
    · rfl
    · rfl

end Untouched

section Files

variable {config : Config} {location : Location} {r r' : ServerResponse}

/-- The file that a request deletes. -/
def deletePath (request : Request) (target : Target) : Option Bytes :=
  if request.method = bytes "DELETE" ∧ target.location.common.methods.deleteMethod = true then
    some target.path
  else none

def filesAfter (fs : FileSystem) (request : Request) (target : Target) : FileSystem :=
  match deletePath request target with
  | some path => (fs.unlink path).getD fs
  | none =>
      match uploadDirectory request target with
      | some directory => (uploadParts directory fs request.contentData).1
      | none => fs

private theorem handleFileDelete_files (r : ServerResponse) :
    r.handleFileDelete.fileSystem = (r.fileSystem.unlink r.resolvedFilePath).getD r.fileSystem ∧
      r.handleFileDelete.sessionStore = r.sessionStore := by
  unfold handleFileDelete
  split
  · next hnode =>
      have hunlink : r.fileSystem.unlink r.resolvedFilePath = none := by
        rw [FileSystem.unlink, FileSystem.isFileExists, hnode]
        exact if_neg fun h => absurd h.2 (by decide)
      rw [hunlink]
      exact ⟨rfl, rfl⟩
  · cases r.fileSystem.unlink r.resolvedFilePath with
    | none => exact ⟨rfl, rfl⟩
    | some fs => exact ⟨rfl, rfl⟩

private theorem handleMultipartUpload_sessions (contents : List RequestContent)
    (r : ServerResponse) : (r.handleMultipartUpload contents).sessionStore = r.sessionStore := by
  induction contents generalizing r with
  | nil => rfl
  | cons content rest ih =>
      rw [handleMultipartUpload]
      simp only
      split
      · rfl
      · cases content.isFinished with
        | true =>
            simp only [if_true]
            refine (ih _).trans ?_
            split
            · rfl
            · rfl
        | false =>
            simp only [Bool.false_eq_true, if_false]
            split
            · rfl
            · rfl

private theorem handleFileUpload_files (h : r.handleFileUpload config = .ok r') :
    r'.fileSystem = (if isPlainText r.request.contentType = true then r.fileSystem
      else (uploadParts r.resolvedFilePath r.fileSystem r.request.contentData).1) ∧
      r'.sessionStore = r.sessionStore := by
  unfold handleFileUpload at h
  simp only [isPlainText, Bool.or_eq_true, Bool.and_eq_true, beq_iff_eq]
  simp only at h
  split at h
  · next hplain =>
      rw [if_pos hplain]
      have hpage := sendErrorPage_untouched h
      exact ⟨hpage.files, hpage.sessions⟩
  · next hplain =>
      rw [if_neg hplain]
      split at h
      · cases h
        exact ⟨(handleMultipartUpload_eq _ r).1, handleMultipartUpload_sessions _ r⟩
      · next hnone =>
          cases h
          rw [not_not.mp hnone]
          exact ⟨rfl, rfl⟩

theorem runMethod_files (h : r.runMethod config location = .ok r') :
    r'.fileSystem =
        filesAfter r.fileSystem r.request ⟨location, r.resolvedFilePath, r.request.uriPath⟩ ∧
      r'.sessionStore = r.sessionStore := by
  unfold runMethod at h
  unfold filesAfter deletePath
  simp only
  split at h
  · next hdelete =>
      rw [if_pos hdelete]
      cases h
      exact handleFileDelete_files r
  next hdelete =>
  rw [if_neg hdelete]
  split at h
  · next hget =>
      have hpost : uploadDirectory r.request ⟨location, r.resolvedFilePath, r.request.uriPath⟩ =
          none := if_neg fun hpost => absurd (hget.1.symm.trans hpost.1) (by decide)
      rw [hpost]
      have huntouched := handleGetMethod_untouched h
      exact ⟨huntouched.files, huntouched.sessions⟩
  split at h
  · next hpost =>
      have hfiles := handleFileUpload_files h
      cases hplain : isPlainText r.request.contentType with
      | true =>
          rw [uploadDirectory, if_neg fun h => absurd (hplain.symm.trans h.2.2) (by decide)]
          rwa [if_pos hplain] at hfiles
      | false =>
          rw [uploadDirectory, if_pos ⟨hpost.1, hpost.2, hplain⟩]
          rwa [if_neg (by rw [hplain]; decide)] at hfiles
  · next hpost =>
      obtain ⟨page, hpage, hstatus⟩ := except_bind_eq_ok.mp h
      cases hstatus
      rw [uploadDirectory, if_neg fun h => hpost ⟨h.1, h.2.1⟩]
      have huntouched := sendErrorPage_untouched hpage
      exact ⟨huntouched.files, huntouched.sessions⟩

/-- The request came in without an error, and is not refused for its size. -/
def isAccepted (config : Config) (r : ServerResponse) : Bool :=
  !r.status.isError && !isTooLarge (findBestLocationMatch config r.request.uriPath) r.request

/-- The paths that the server answers itself. -/
def authPaths : List Bytes := [bytes "/login", bytes "/session", bytes "/logout"]

/-- Where the method of the request is run. -/
def methodTarget (config : Config) (r : ServerResponse) : Option Target :=
  let request := r.request
  if isAccepted config r = false ∨ request.uriPath ∈ authPaths ∨ request.isCgi = true then none
  else
    (findBestLocationMatch config request.uriPath).map (fun location =>
      followRedirects config (maxInternalRewrites - request.rewriteCount) location request.uriPath)

private theorem chooseMethod_files (h : r.chooseMethod config (maxInternalRewrites + 1) location =
    .ok r') :
    r'.fileSystem = filesAfter r.fileSystem r.request
        (followRedirects config (maxInternalRewrites - r.request.rewriteCount) location
          r.request.uriPath) ∧
      r'.sessionStore = r.sessionStore := by
  obtain ⟨count, hchoose⟩ := chooseMethod_eq_runMethod config (maxInternalRewrites + 1) location r
    (by omega)
  rw [hchoose] at h
  exact runMethod_files h

end Files

section Auth

variable (r : ServerResponse)

/-- The user who is logged in: the users file knows the name with the password. -/
def credentials : Option Bytes :=
  let username := getQueryParam (bytes "username") r.request
  let password := getQueryParam (bytes "password") r.request
  if username = [] ∨ password = [] then none
  else
    (r.fileSystem.openFile usersFile).bind fun node =>
      let content := match node with
        | .file content => content
        | _ => []
      if isUser content username password then some username else none

private theorem login_checked {valid : Bool} {denied granted : ServerResponse} {fs : FileSystem}
    {username : Bytes} {sessions : SessionStore} {more : Bytes → SessionStore}
    (hdenied : denied.fileSystem = fs) (hgranted : granted.fileSystem = fs)
    (hsame : denied.sessionStore = sessions) (hmore : granted.sessionStore = more username) :
    (if valid = false then denied else granted).fileSystem = fs ∧
      (if valid = false then denied else granted).sessionStore =
        Option.elim (if valid = true then some username else none) sessions more := by
  cases valid with
  | false => exact ⟨hdenied, hsame⟩
  | true => exact ⟨hgranted, hmore⟩

private theorem handleAuthLogin_effect :
    r.handleAuthLogin.fileSystem = r.fileSystem ∧
      r.handleAuthLogin.sessionStore = r.credentials.elim r.sessionStore
        fun username => (r.sessionStore.createSession username 3600).2 := by
  unfold handleAuthLogin credentials
  simp only
  split
  · exact ⟨rfl, rfl⟩
  cases r.fileSystem.openFile usersFile with
  | none => exact ⟨rfl, rfl⟩
  | some node =>
      cases node with
      | file content => exact login_checked rfl rfl rfl rfl
      | directory entries size => exact login_checked rfl rfl rfl rfl
      | special size => exact login_checked rfl rfl rfl rfl

private theorem handleAuthSession_effect :
    r.handleAuthSession.fileSystem = r.fileSystem ∧
      r.handleAuthSession.sessionStore = (if r.request.sessionId = [] then r.sessionStore
        else (r.sessionStore.getUsername r.request.sessionId).2) := by
  unfold handleAuthSession
  split
  · exact ⟨rfl, rfl⟩
  · simp only
    split
    · exact ⟨rfl, rfl⟩
    · exact ⟨rfl, rfl⟩

private theorem handleAuthLogout_effect :
    r.handleAuthLogout.fileSystem = r.fileSystem ∧
      r.handleAuthLogout.sessionStore = (if r.request.sessionId = [] then r.sessionStore
        else r.sessionStore.destroySession r.request.sessionId) := by
  unfold handleAuthLogout
  split
  · exact ⟨rfl, rfl⟩
  · exact ⟨rfl, rfl⟩

end Auth

section Effects

variable {config : Config} {r r' : ServerResponse}

def filesOf (config : Config) (r : ServerResponse) : FileSystem :=
  match methodTarget config r with
  | some target => filesAfter r.fileSystem r.request target
  | none => r.fileSystem

/-- What the response asks of the sessions. -/
def sessionCall (config : Config) (r : ServerResponse) : Option SessionCall :=
  if isAccepted config r = false then none
  else if r.request.uriPath = bytes "/login" then
    r.credentials.map fun username => .create username 3600 r.sessionStore.nextId
  else if r.request.uriPath = bytes "/session" ∧ r.request.sessionId ≠ [] then
    some (.get r.request.sessionId)
  else if r.request.uriPath = bytes "/logout" ∧ r.request.sessionId ≠ [] then
    some (.destroy r.request.sessionId)
  else none

def sessionsOf (config : Config) (r : ServerResponse) : SessionStore :=
  (sessionCall config r).elim r.sessionStore fun call =>
    call.apply r.sessionStore.now r.sessionStore

section Call

variable (haccepted : isAccepted config r = true)
include haccepted

theorem sessionCall_login (hpath : r.request.uriPath = bytes "/login") :
    sessionCall config r =
      r.credentials.map fun username => .create username 3600 r.sessionStore.nextId := by
  rw [sessionCall, if_neg (by simp [haccepted]), if_pos hpath]

theorem sessionCall_session (hpath : r.request.uriPath = bytes "/session") :
    sessionCall config r =
      if r.request.sessionId = [] then none else some (.get r.request.sessionId) := by
  rw [sessionCall, if_neg (by simp [haccepted]), hpath, if_neg (by decide)]
  by_cases hid : r.request.sessionId = []
  · rw [if_neg (by simp [hid]), if_neg (by simp [hid]), if_pos hid]
  · rw [if_pos ⟨rfl, hid⟩, if_neg hid]

theorem generateResponse_session (hpath : r.request.uriPath = bytes "/session") :
    r.generateResponse config = r.handleAuthSession.constructResponseLine config := by
  obtain ⟨herror, hlarge⟩ : r.status.isError = false ∧
      isTooLarge (findBestLocationMatch config r.request.uriPath) r.request = false := by
    simpa [isAccepted] using haccepted
  unfold generateResponse
  simp only
  rw [if_neg (by simp [herror]), if_neg (by simp [hlarge]), if_neg (by rw [hpath]; decide),
    if_pos hpath]

theorem sessionCall_logout (hpath : r.request.uriPath = bytes "/logout") :
    sessionCall config r =
      if r.request.sessionId = [] then none else some (.destroy r.request.sessionId) := by
  rw [sessionCall, if_neg (by simp [haccepted]), hpath, if_neg (by decide),
    if_neg fun h => absurd h.1 (by decide)]
  by_cases hid : r.request.sessionId = []
  · rw [if_neg (by simp [hid]), if_pos hid]
  · rw [if_pos ⟨rfl, hid⟩, if_neg hid]

omit haccepted in
theorem sessionCall_other (hpath : r.request.uriPath ∉ authPaths) : sessionCall config r = none := by
  simp only [authPaths, List.mem_cons, List.not_mem_nil, or_false, not_or] at hpath
  simp [sessionCall, hpath]

end Call

private theorem effect_of_untouched (h : Untouched r r') (htarget : methodTarget config r = none)
    (hcall : sessionCall config r = none) :
    r'.fileSystem = filesOf config r ∧ r'.sessionStore = sessionsOf config r := by
  rw [filesOf, htarget, sessionsOf, hcall]
  exact ⟨h.files, h.sessions⟩

private theorem effect_of_auth {answered : ServerResponse} {call : Option SessionCall}
    (h : answered.constructResponseLine config = .ok r')
    (hpath : r.request.uriPath ∈ authPaths) (hcall : sessionCall config r = call)
    (heffect : answered.fileSystem = r.fileSystem ∧ answered.sessionStore =
      call.elim r.sessionStore fun call => call.apply r.sessionStore.now r.sessionStore) :
    r'.fileSystem = filesOf config r ∧ r'.sessionStore = sessionsOf config r := by
  have huntouched := (constructResponseLine_untouched h).1
  have htarget : methodTarget config r = none := if_pos (Or.inr (Or.inl hpath))
  rw [filesOf, htarget, sessionsOf, hcall]
  exact ⟨huntouched.files.trans heffect.1, huntouched.sessions.trans heffect.2⟩

/-- Files change by the method of the request alone, and sessions by their paths. -/
theorem generateResponse_effect (h : r.generateResponse config = .ok r') :
    r'.fileSystem = filesOf config r ∧ r'.sessionStore = sessionsOf config r := by
  unfold generateResponse at h
  simp only at h
  cases haccepted : isAccepted config r with
  | false =>
      refine effect_of_untouched ?_ (if_pos (Or.inl haccepted)) (if_pos haccepted)
      split at h
      · exact generateErrorResponse_untouched h
      · next herror =>
          rw [if_pos (by simpa [isAccepted, herror] using haccepted)] at h
          exact (generateErrorResponse_untouched h).after rfl rfl
  | true =>
      obtain ⟨herror, hlarge⟩ : r.status.isError = false ∧
          isTooLarge (findBestLocationMatch config r.request.uriPath) r.request = false := by
        simpa [isAccepted] using haccepted
      have haccepted' : ¬ isAccepted config r = false := by simp [haccepted]
      rw [if_neg (by simp [herror]), if_neg (by simp [hlarge])] at h
      by_cases hlogin : r.request.uriPath = bytes "/login"
      · rw [if_pos hlogin] at h
        obtain ⟨hfiles, hsessions⟩ := handleAuthLogin_effect r
        refine effect_of_auth h (by simp [hlogin, authPaths]) (sessionCall_login haccepted hlogin)
          ⟨hfiles, hsessions.trans ?_⟩
        cases r.credentials with
        | none => rfl
        | some username => rfl
      rw [if_neg hlogin] at h
      by_cases hsession : r.request.uriPath = bytes "/session"
      · rw [if_pos hsession] at h
        obtain ⟨hfiles, hsessions⟩ := handleAuthSession_effect r
        refine effect_of_auth h (by simp [hsession, authPaths])
          (sessionCall_session haccepted hsession) ⟨hfiles, hsessions.trans ?_⟩
        split
        · rfl
        · rfl
      rw [if_neg hsession] at h
      by_cases hlogout : r.request.uriPath = bytes "/logout"
      · rw [if_pos hlogout] at h
        obtain ⟨hfiles, hsessions⟩ := handleAuthLogout_effect r
        refine effect_of_auth h (by simp [hlogout, authPaths])
          (sessionCall_logout haccepted hlogout) ⟨hfiles, hsessions.trans ?_⟩
        split
        · rfl
        · rfl
      rw [if_neg hlogout] at h
      have hother : r.request.uriPath ∉ authPaths := by
        simp [authPaths, hlogin, hsession, hlogout]
      by_cases hcgi : r.request.isCgi = true
      · rw [if_pos hcgi] at h
        exact effect_of_untouched (generateCgiResponse_untouched h) (if_pos (Or.inr (Or.inr hcgi)))
          (sessionCall_other hother)
      rw [if_neg hcgi] at h
      have htarget : methodTarget config r =
          (findBestLocationMatch config r.request.uriPath).map (fun location =>
            followRedirects config (maxInternalRewrites - r.request.rewriteCount) location
              r.request.uriPath) :=
        if_neg (by simp [haccepted, hother, hcgi])
      rw [filesOf, htarget, sessionsOf, sessionCall_other hother]
      -- what the method has answered is only closed
      have hclosed : ∀ {p : Except Fault ServerResponse},
          (do
            let r ← p
            let r ← r.addServerAndLength config
            pure (r.respond (statusLine r.status.code (bytes r.status.msg)))) = .ok r' →
          ∃ answered, p = .ok answered ∧ Untouched answered r' := by
        intro p h
        obtain ⟨answered, hanswered, h⟩ := except_bind_eq_ok.mp h
        obtain ⟨closed, hclose, h⟩ := except_bind_eq_ok.mp h
        cases h
        have huntouched := addServerAndLength_untouched hclose
        exact ⟨answered, hanswered, huntouched.files, huntouched.sessions⟩
      cases hmatch : findBestLocationMatch config r.request.uriPath with
      | none =>
          rw [hmatch] at h
          obtain ⟨answered, hanswered, huntouched⟩ := hclosed h
          have hroot := (serveDefaultRoot_untouched hanswered).trans huntouched
          exact ⟨hroot.files, hroot.sessions⟩
      | some location =>
          rw [hmatch] at h
          obtain ⟨answered, hanswered, huntouched⟩ := hclosed h
          obtain ⟨hfiles, hsessions⟩ := chooseMethod_files hanswered
          exact ⟨huntouched.files.trans hfiles, huntouched.sessions.trans hsessions⟩

end Effects

end ServerResponse

end FortyTwo.Webserv
