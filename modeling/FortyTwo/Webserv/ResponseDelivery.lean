import FortyTwo.Webserv.ChunkStreaming
import FortyTwo.Webserv.RequestReading
import FortyTwo.Webserv.ResponseFraming

/-!
What the client is written of a response. `send` offers the response, or the
header section of a streamed one, to one `write` and does not look at how much
of it was taken.
-/

namespace FortyTwo.Webserv

open Foundation (except_bind_eq_ok)

namespace ServerResponse

/-- The part of a request that a response is generated from but never changes. -/
structure Delivery where
  contentLength : Nat
  transferedLength : Nat
  isCgi : Bool
  isStreaming : Bool
  streamHeadersSent : Bool

def delivery (r : ServerResponse) : Delivery :=
  ⟨r.request.contentLength, r.request.transferedLength, r.request.isCgi, r.request.isStreaming,
    r.request.streamHeadersSent⟩

/-- What `generate_response` does to the request: what decides about its end
stays, and without a body there is no `100`. -/
structure Keeps (r r' : ServerResponse) : Prop where
  delivery : r'.delivery = r.delivery
  contentData : r.request.contentData = [] → r'.request.contentData = []
  notContinue : r.request.contentData = [] → r.status.code ≠ 100 → r'.status.code ≠ 100

theorem Keeps.trans {r r' r'' : ServerResponse} (h : Keeps r r') (h' : Keeps r' r'') :
    Keeps r r'' :=
  ⟨h'.delivery.trans h.delivery, fun hdata => h'.contentData (h.contentData hdata),
    fun hdata hcode => h'.notContinue (h.contentData hdata) (h.notContinue hdata hcode)⟩

private theorem Keeps.after {r s r' : ServerResponse} (h : Keeps s r') (hfirst : Keeps r s) :
    Keeps r r' :=
  hfirst.trans h

/-- A step that leaves the request and the status alone. -/
private theorem Keeps.same {r r' : ServerResponse} (hrequest : r'.request = r.request)
    (hstatus : r'.status = r.status) : Keeps r r' :=
  ⟨by simp only [ServerResponse.delivery, hrequest], by rw [hrequest]; exact id,
    by rw [hstatus]; exact fun _ => id⟩

/-- A step that leaves the request alone and sets a status of its own. -/
private theorem Keeps.answer {r r' : ServerResponse} (hrequest : r'.request = r.request)
    (hcode : r'.status.code ≠ 100) : Keeps r r' :=
  ⟨by simp only [ServerResponse.delivery, hrequest], by rw [hrequest]; exact id, fun _ _ => hcode⟩

section Delivery

variable {config : Config} {r r' : ServerResponse}

private theorem sendErrorPage_keeps {code : Nat} {errorMsg : Bytes}
    (h : r.sendErrorPage config code errorMsg = .ok r') :
    r'.request = r.request ∧ r'.status = r.status := by
  obtain ⟨page, _, hpage⟩ := except_bind_eq_ok.mp h
  cases hpage
  exact ⟨rfl, rfl⟩

private theorem handleFileError_keeps (h : r.handleFileError config = .ok r') : Keeps r r' := by
  obtain ⟨page, rfl⟩ := handleFileError_ok h
  exact .answer rfl (show (404 : Nat) ≠ 100 by decide)

private theorem serveFile_keeps (h : r.serveFile config = .ok r') : Keeps r r' := by
  unfold serveFile at h
  split at h
  · exact handleFileError_keeps h
  split at h
  · exact handleFileError_keeps h
  simp only at h
  split at h
  · cases h
    exact .same rfl rfl
  split at h
  · exact handleFileError_keeps h
  split at h
  · cases h
    exact .same rfl rfl
  · cases h

private theorem createJsonResponse_keeps (data : Bytes) :
    Keeps r (r.createJsonResponse data) := by
  unfold createJsonResponse
  split <;> exact .same rfl rfl

private theorem handleGetMethod_keeps {location : Location}
    (h : r.handleGetMethod config location = .ok r') : Keeps r r' := by
  unfold handleGetMethod handleDirectory at h
  split at h
  · simp only at h
    split at h
    · exact (serveFile_keeps h).after ⟨rfl, id, fun _ => id⟩
    split at h
    · cases h
      exact (createJsonResponse_keeps _).after (.same rfl rfl)
    · obtain ⟨hrequest, hstatus⟩ := sendErrorPage_keeps h
      exact .answer hrequest (by rw [hstatus]; exact show (403 : Nat) ≠ 100 by decide)
  · apply (serveFile_keeps h).after
    split <;> exact .same rfl rfl

private theorem handleMultipartUpload_delivery (contents : List RequestContent) :
    ∀ r : ServerResponse, (r.handleMultipartUpload contents).delivery = r.delivery := by
  induction contents with
  | nil => exact fun _ => rfl
  | cons content rest ih =>
      intro r
      unfold handleMultipartUpload
      simp only
      split
      · rfl
      split
      · rw [ih]
        split <;> rfl
      · split <;> rfl

private theorem handleFileUpload_keeps (h : r.handleFileUpload config = .ok r') :
    Keeps r r' := by
  unfold handleFileUpload at h
  simp only at h
  split at h
  · obtain ⟨hrequest, hstatus⟩ := sendErrorPage_keeps h
    exact .answer hrequest (by rw [hstatus]; exact show (403 : Nat) ≠ 100 by decide)
  split at h
  · rename_i hdata
    cases h
    exact ⟨handleMultipartUpload_delivery _ r, fun hnil => absurd hnil hdata,
      fun hnil => absurd hnil hdata⟩
  · cases h
    exact .answer rfl (show (400 : Nat) ≠ 100 by decide)

private theorem handleFileDelete_keeps (r : ServerResponse) : Keeps r r.handleFileDelete := by
  unfold handleFileDelete
  split
  · exact .answer rfl (show (404 : Nat) ≠ 100 by decide)
  split
  · exact .answer rfl (show (200 : Nat) ≠ 100 by decide)
  · exact .answer rfl (show (500 : Nat) ≠ 100 by decide)

private theorem runMethod_keeps {location : Location}
    (h : r.runMethod config location = .ok r') : Keeps r r' := by
  unfold runMethod at h
  split at h
  · cases h
    exact handleFileDelete_keeps r
  split at h
  · exact handleGetMethod_keeps h
  split at h
  · exact handleFileUpload_keeps h
  · obtain ⟨middle, hmiddle, hlast⟩ := except_bind_eq_ok.mp h
    cases hlast
    exact .answer (sendErrorPage_keeps hmiddle).1 (show (405 : Nat) ≠ 100 by decide)

private theorem serveDefaultRoot_keeps (h : r.serveDefaultRoot config = .ok r') :
    Keeps r r' := by
  unfold serveDefaultRoot at h
  split at h
  · exact (handleGetMethod_keeps h).after (.same rfl rfl)
  · obtain ⟨hrequest, hstatus⟩ := sendErrorPage_keeps h
    exact .answer hrequest (by rw [hstatus]; exact show (404 : Nat) ≠ 100 by decide)

private theorem handleAuthLogin_keeps (r : ServerResponse) : Keeps r r.handleAuthLogin := by
  unfold handleAuthLogin
  simp only
  split
  · exact .answer rfl (show (400 : Nat) ≠ 100 by decide)
  split
  · exact .answer rfl (show (500 : Nat) ≠ 100 by decide)
  split <;> split <;> first
    | exact .answer rfl (show (401 : Nat) ≠ 100 by decide)
    | exact .answer rfl (show (200 : Nat) ≠ 100 by decide)

private theorem handleAuthSession_keeps (r : ServerResponse) : Keeps r r.handleAuthSession := by
  unfold handleAuthSession
  split
  · exact .answer rfl (show (401 : Nat) ≠ 100 by decide)
  simp only
  split
  · exact .answer rfl (show (200 : Nat) ≠ 100 by decide)
  · exact .answer rfl (show (401 : Nat) ≠ 100 by decide)

private theorem handleAuthLogout_keeps (r : ServerResponse) : Keeps r r.handleAuthLogout := by
  unfold handleAuthLogout
  split
  · exact .answer rfl (show (400 : Nat) ≠ 100 by decide)
  · exact .answer rfl (show (200 : Nat) ≠ 100 by decide)

private theorem addServerAndLength_keeps (h : r.addServerAndLength config = .ok r') :
    r'.request = r.request ∧ r'.status = r.status := by
  obtain ⟨name, _, hname⟩ := except_bind_eq_ok.mp h
  cases hname
  split <;> exact ⟨rfl, rfl⟩

private theorem constructResponseLine_keeps (h : r.constructResponseLine config = .ok r') :
    r'.request = r.request ∧ r'.status = r.status := by
  obtain ⟨middle, hmiddle, hlast⟩ := except_bind_eq_ok.mp h
  cases hlast
  have hkeeps := addServerAndLength_keeps hmiddle
  exact ⟨hkeeps.1, hkeeps.2⟩

private theorem generateErrorResponse_keeps (h : r.generateErrorResponse config = .ok r') :
    r'.request = r.request ∧ r'.status = r.status := by
  obtain ⟨middle, hmiddle, hlast⟩ := except_bind_eq_ok.mp h
  have hpage := sendErrorPage_keeps hmiddle
  have hline := constructResponseLine_keeps hlast
  exact ⟨hline.1.trans hpage.1, hline.2.trans hpage.2⟩

private theorem generateCgiResponse_keeps (h : r.generateCgiResponse config = .ok r') :
    r'.request = r.request ∧ r'.status = r.status := by
  obtain ⟨name, _, hlast⟩ := except_bind_eq_ok.mp h
  cases hlast
  constructor
  · simp only [header]
    cases r.request.contentData <;> rfl
  · simp only [header]
    cases r.request.contentData <;> rfl

/-- An error is answered with its own status. -/
theorem generateResponse_status_of_error (hstatus : r.status.isError = true)
    (h : r.generateResponse config = .ok r') : r'.status = r.status := by
  unfold generateResponse at h
  rw [if_pos hstatus] at h
  exact (generateErrorResponse_keeps h).2

theorem generateResponse_keeps (h : r.generateResponse config = .ok r') : Keeps r r' := by
  unfold generateResponse at h
  simp only at h
  split at h
  · obtain ⟨hrequest, hstatus⟩ := generateErrorResponse_keeps h
    exact .same hrequest hstatus
  split at h
  · obtain ⟨hrequest, hstatus⟩ := generateErrorResponse_keeps h
    exact .answer hrequest (by rw [hstatus]; exact show (413 : Nat) ≠ 100 by decide)
  split at h
  · obtain ⟨hrequest, hstatus⟩ := constructResponseLine_keeps h
    exact (handleAuthLogin_keeps r).trans (.same hrequest hstatus)
  split at h
  · obtain ⟨hrequest, hstatus⟩ := constructResponseLine_keeps h
    exact (handleAuthSession_keeps r).trans (.same hrequest hstatus)
  split at h
  · obtain ⟨hrequest, hstatus⟩ := constructResponseLine_keeps h
    exact (handleAuthLogout_keeps r).trans (.same hrequest hstatus)
  split at h
  · obtain ⟨hrequest, hstatus⟩ := generateCgiResponse_keeps h
    exact .same hrequest hstatus
  cases hbest : findBestLocationMatch config r.request.uriPath with
  | none =>
      rw [hbest] at h
      obtain ⟨middle, hmiddle, hrest⟩ := except_bind_eq_ok.mp h
      obtain ⟨last, hlast, hrespond⟩ := except_bind_eq_ok.mp hrest
      cases hrespond
      obtain ⟨hrequest, hstatus⟩ := addServerAndLength_keeps hlast
      exact (serveDefaultRoot_keeps hmiddle).trans (.same hrequest hstatus)
  | some location =>
      rw [hbest] at h
      obtain ⟨middle, hmiddle, hrest⟩ := except_bind_eq_ok.mp h
      obtain ⟨last, hlast, hrespond⟩ := except_bind_eq_ok.mp hrest
      cases hrespond
      obtain ⟨hrequest, hstatus⟩ := addServerAndLength_keeps hlast
      obtain ⟨count, hchoose⟩ := chooseMethod_eq_runMethod config (maxInternalRewrites + 1)
        location r (by omega)
      rw [hchoose] at hmiddle
      have hmethod := (runMethod_keeps hmiddle).trans (.same hrequest hstatus)
      exact ⟨hmethod.delivery, hmethod.contentData, hmethod.notContinue⟩

end Delivery

end ServerResponse

namespace IOClientHandler

/-- An event that only says that there is room for a `write`. -/
def writableEvent : Event := { writable := true }

/-- Nothing has come; there may be room for a `write`. -/
def IsQuiet (event : Event) : Prop := event.hangUp = false ∧ event.read = none

theorem IsQuiet.eq_writableEvent {event : Event} (hquiet : IsQuiet event)
    (hroom : event.writable = true) : event = writableEvent := by
  obtain ⟨hhang, hread⟩ := hquiet
  cases event
  simp only at hhang hread hroom
  rw [hhang, hread, hroom]
  rfl

section Due

variable {parsers : FieldParsers} {config : Config} {defaultAutoIndex : Bool}
  {handleCgiRequest : IOClientHandler → Except Fault IOClientHandler}
  {h after : IOClientHandler} {resp : ServerResponse}

/-- The next room for a `write` is used for `resp`, and `after` is the client
once it is generated: the response has not begun, and it ends the request. -/
structure IsDue (config : Config) (defaultAutoIndex : Bool) (h : IOClientHandler)
    (resp : ServerResponse) (after : IOClientHandler) : Prop where
  isOpen : h.isClosing = false
  notCgi : h.context.request.isCgi = false
  isReady : h.status.code ≠ Status.dataIsNotReady.code
  isParsed : h.context.parser.headerParsed = true ∨ h.status.isError = true
  generated : h.generateResponse config defaultAutoIndex = .ok (resp, after)
  isFinal : resp.status.code ≠ 100
  isComplete : resp.status.isError = true ∨ h.context.request.isRequestReady = true
  notStreaming : h.context.request.isStreaming = false
  headersUnsent : h.context.request.streamHeadersSent = false

theorem generateResponse_eq
    (hgenerated : h.generateResponse config defaultAutoIndex = .ok (resp, after)) :
    (ServerResponse.create h.status h.context.request h.fileSystem h.sessionStore
      defaultAutoIndex).generateResponse config = .ok resp ∧
    after = { h.setRequest resp.request with
      fileSystem := resp.fileSystem
      sessionStore := resp.sessionStore } := by
  obtain ⟨made, hmade, hafter⟩ := except_bind_eq_ok.mp hgenerated
  cases hafter
  exact ⟨hmade, rfl⟩

private theorem IsDue.delivery (hdue : IsDue config defaultAutoIndex h resp after) :
    after.socket = h.socket ∧ after.status = h.status ∧ after.isClosing = false ∧
      after.context.request.isRequestReady = h.context.request.isRequestReady ∧
      after.context.request.isStreaming = false ∧
      after.context.request.streamHeadersSent = false := by
  obtain ⟨hmade, rfl⟩ := generateResponse_eq hdue.generated
  have hkeeps := (ServerResponse.generateResponse_keeps hmade).delivery
  simp only [ServerResponse.delivery, ServerResponse.create, ServerResponse.Delivery.mk.injEq]
    at hkeeps
  obtain ⟨hlength, htransfered, _, hstreaming, hsent⟩ := hkeeps
  refine ⟨rfl, rfl, hdue.isOpen, ?_, hstreaming.trans hdue.notStreaming,
    hsent.trans hdue.headersUnsent⟩
  simp only [Request.isRequestReady, setRequest, hlength, htransfered]

/-- Room for a `write` is left to `handle_default_request`. -/
theorem handleEpollEvent_room (hopen : h.isClosing = false)
    (hcgi : h.context.request.isCgi = false) :
    h.handleEpollEvent parsers config defaultAutoIndex handleCgiRequest writableEvent =
      (h.handleDefaultRequest config defaultAutoIndex).map
        (fun h => if h.isClosing then { h with context := h.context.reset } else h) := by
  simp only [handleEpollEvent, hopen, Bool.false_eq_true, if_false, handle, writableEvent, pure,
    Except.pure, bind, Except.bind, and_self, if_true, hcgi]
  cases h.handleDefaultRequest config defaultAutoIndex <;> rfl

/-- What is left once a whole response was offered to a `write` that took `n`. -/
def answered (resp : ServerResponse) (n : Nat) (h after : IOClientHandler) : IOClientHandler :=
  { after with
    context := {}
    isClosing := resp.status.isError
    socket := h.socket.advance (resp.response.take n) }

/-- Room for a `write` while a whole response is due: what the `write` takes is
sent, and the request is over. -/
private theorem handleEpollEvent_whole (hdue : IsDue config defaultAutoIndex h resp after)
    (hwhole : resp.needsStreaming = false) {n : Nat}
    (hwrite : h.socket.outcomes h.socket.writes = some n) :
    h.handleEpollEvent parsers config defaultAutoIndex handleCgiRequest writableEvent =
      .ok (answered resp n h after) := by
  obtain ⟨hsocket, hstatus, hopen, hready, hstreaming, _⟩ := hdue.delivery
  have hsend : h.send config defaultAutoIndex =
      .ok (resp.status, { after with socket := h.socket.advance (resp.response.take n) }) := by
    simp only [send, hdue.generated, bind, Except.bind, hdue.isFinal, hwhole, if_false,
      Bool.false_eq_true, hsocket, Socket.write_some hwrite, pure, Except.pure]
  rw [handleEpollEvent_room hdue.isOpen hdue.notCgi, handleDefaultRequest,
    if_pos ⟨hdue.isReady, hdue.isParsed⟩, hsend]
  simp only [bind, Except.bind]
  cases herror : resp.status.isError with
  | true =>
      simp [setIsClosing, IOClientContext.reset, answered, herror, Except.map, pure, Except.pure]
  | false =>
      have hcomplete : h.context.request.isRequestReady = true := by
        simpa [herror] using hdue.isComplete
      simp [hready, hcomplete, hstreaming, IOClientContext.reset, hopen, answered, herror,
        Except.map, pure, Except.pure]

/-- Without room for a `write` nothing is written. -/
theorem handleEpollEvent_noRoom (hopen : h.isClosing = false) {event : Event}
    (hquiet : IsQuiet event) (hroom : event.writable = false) :
    h.handleEpollEvent parsers config defaultAutoIndex handleCgiRequest event = .ok h := by
  simp [handleEpollEvent, hopen, handle, hquiet.1, hquiet.2, hroom, bind, Except.bind, pure,
    Except.pure]

/-- With no head parsed and no error there is nothing to write. -/
theorem handleEpollEvent_unasked (hopen : h.isClosing = false)
    (hparsed : h.context.parser.headerParsed = false) (hcgi : h.context.request.isCgi = false)
    (hstatus : h.status.isError = false) {event : Event} (hquiet : IsQuiet event) :
    h.handleEpollEvent parsers config defaultAutoIndex handleCgiRequest event = .ok h := by
  simp [handleEpollEvent, hopen, handle, hquiet.1, hquiet.2, hcgi, handleDefaultRequest, hparsed,
    hstatus, bind, Except.bind, pure, Except.pure]

/-- A client that has been answered has nothing more to be written. -/
private theorem handleEvents_idle (events : List Event) (hquiet : ∀ event ∈ events, IsQuiet event)
    (hidle : h.isClosing = true ∨
      h.isClosing = false ∧ h.context = {} ∧ h.status.isError = false) :
    h.handleEvents parsers config defaultAutoIndex handleCgiRequest events = .ok h := by
  induction events with
  | nil => rfl
  | cons event rest ih =>
      have hstep : h.handleEpollEvent parsers config defaultAutoIndex handleCgiRequest event =
          .ok h := by
        rcases hidle with hclosed | ⟨hopen, hcontext, hstatus⟩
        · rw [handleEpollEvent, if_pos hclosed]
        · exact handleEpollEvent_unasked hopen (by rw [hcontext]) (by rw [hcontext]) hstatus
            (hquiet event List.mem_cons_self)
      rw [handleEvents, hstep]
      exact ih (fun event hevent => hquiet event (List.mem_cons_of_mem _ hevent))

private theorem answered_idle (hdue : IsDue config defaultAutoIndex h resp after) (n : Nat) :
    (answered resp n h after).isClosing = true ∨ (answered resp n h after).isClosing = false ∧
      (answered resp n h after).context = {} ∧
      (answered resp n h after).status.isError = false := by
  cases herror : resp.status.isError with
  | true => exact Or.inl herror
  | false =>
      refine Or.inr ⟨herror, rfl, ?_⟩
      have hstatus : after.status = h.status := hdue.delivery.2.1
      rw [show (answered resp n h after).status = h.status from hstatus]
      cases hcause : h.status.isError with
      | false => rfl
      | true =>
          have hsame := ServerResponse.generateResponse_status_of_error hcause
            (generateResponse_eq hdue.generated).1
          rw [hsame, show (ServerResponse.create h.status h.context.request h.fileSystem
            h.sessionStore defaultAutoIndex).status = h.status from rfl, hcause] at herror
          cases herror

/-- The first room for a `write` is used for the response, and the events behind
it find nothing to do. -/
theorem handleEvents_whole (hdue : IsDue config defaultAutoIndex h resp after)
    (hwhole : resp.needsStreaming = false) {n : Nat}
    (hwrite : h.socket.outcomes h.socket.writes = some n) {events : List Event}
    (hquiet : ∀ event ∈ events, IsQuiet event) (hroom : ∃ event ∈ events, event.writable = true) :
    h.handleEvents parsers config defaultAutoIndex handleCgiRequest events =
      .ok (answered resp n h after) := by
  induction events with
  | nil =>
      obtain ⟨event, hevent, _⟩ := hroom
      cases hevent
  | cons event rest ih =>
      have hfirst := hquiet event List.mem_cons_self
      have hrest : ∀ event ∈ rest, IsQuiet event := fun event hevent =>
        hquiet event (List.mem_cons_of_mem _ hevent)
      rw [handleEvents]
      cases hwritable : event.writable with
      | true =>
          rw [hfirst.eq_writableEvent hwritable, handleEpollEvent_whole hdue hwhole hwrite]
          exact handleEvents_idle rest hrest (answered_idle hdue n)
      | false =>
          rw [handleEpollEvent_noRoom hdue.isOpen hfirst hwritable]
          apply ih hrest
          simpa [hwritable] using hroom

/-- Room for a `write` while a streamed response is due: what the `write` takes
of the headers is sent, and the chunk stream begins. -/
private theorem handleEpollEvent_streamed (hdue : IsDue config defaultAutoIndex h resp after)
    (hstreamed : resp.needsStreaming = true) {n : Nat}
    (hwrite : h.socket.outcomes h.socket.writes = some n) :
    ∃ h', h.handleEpollEvent parsers config defaultAutoIndex handleCgiRequest writableEvent =
        .ok h' ∧
      h'.socket = (Chunk.streamFileChunked (streamContent after.fileSystem resp.streamFilePath)
        resp.streamLocation {} (h.socket.advance (resp.response.take n))).2.2.2 := by
  obtain ⟨hsocket, hstatus, hopen, hready, hstreaming, hsent⟩ := hdue.delivery
  have hsend : ∃ status sent, h.send config defaultAutoIndex = .ok (status, sent) ∧
      sent.socket = (Chunk.streamFileChunked (streamContent after.fileSystem resp.streamFilePath)
        resp.streamLocation {} (h.socket.advance (resp.response.take n))).2.2.2 := by
    simp only [send, hdue.generated, bind, Except.bind, hdue.isFinal, hstreamed, if_false, if_true,
      sendStreamHeaders, hsent, Bool.false_eq_true, hsocket, Socket.write_some hwrite, pure,
      Except.pure]
    refine ⟨_, _, rfl, ?_⟩
    simp [streamChunk, beginStreaming, setRequest, hstreaming]
  obtain ⟨status, sent, hsend, hreceived⟩ := hsend
  rw [← hreceived]
  rw [handleEpollEvent_room hdue.isOpen hdue.notCgi, handleDefaultRequest,
    if_pos ⟨hdue.isReady, hdue.isParsed⟩, hsend]
  simp only [bind, Except.bind]
  cases status.isError with
  | true => exact ⟨_, rfl, rfl⟩
  | false =>
      simp only [Bool.false_eq_true, if_false]
      by_cases hover : sent.context.request.isRequestReady = true ∧
          sent.context.request.isStreaming = false
      · rw [if_pos hover]
        refine ⟨_, rfl, ?_⟩
        simp only
        split <;> rfl
      · rw [if_neg hover]
        refine ⟨_, rfl, ?_⟩
        simp only
        split <;> rfl

variable (parsers handleCgiRequest)

/-- Over any number of events, once there is room for a `write`, the client is
sent exactly the response, and the context is reset. -/
def DeliversWhole (config : Config) (defaultAutoIndex : Bool) (h : IOClientHandler)
    (resp : ServerResponse) : Prop :=
  ∀ events : List Event, (∀ event ∈ events, IsQuiet event) →
    (∃ event ∈ events, event.writable = true) →
    ∃ h', h.handleEvents parsers config defaultAutoIndex handleCgiRequest events = .ok h' ∧
      h'.context = {} ∧ h'.socket.received = h.socket.received ++ resp.response

/-- The chunk stream begins behind exactly the header section. -/
def StreamsBehindHeaders (config : Config) (defaultAutoIndex : Bool) (h : IOClientHandler)
    (resp : ServerResponse) (after : IOClientHandler) : Prop :=
  ∃ h', h.handleEpollEvent parsers config defaultAutoIndex handleCgiRequest writableEvent =
      .ok h' ∧
    h'.socket = (Chunk.streamFileChunked (streamContent after.fileSystem resp.streamFilePath)
      resp.streamLocation {} (h.socket.advance resp.response)).2.2.2

/-- A response, or the header section of a streamed one, is delivered exactly
when the one `write` that offers it takes all of it. -/
theorem delivers_iff (hdue : IsDue config defaultAutoIndex h resp after)
    (hwrites : ∀ k, ∃ n, 0 < n ∧ h.socket.outcomes k = some n) :
    (if resp.needsStreaming then
        StreamsBehindHeaders parsers handleCgiRequest config defaultAutoIndex h resp after
      else DeliversWhole parsers handleCgiRequest config defaultAutoIndex h resp) ↔
      h.socket.TakesAll resp.response := by
  obtain ⟨n, _, hwrite⟩ := hwrites h.socket.writes
  have htakes : h.socket.TakesAll resp.response ↔ resp.response.take n = resp.response := by
    simp [Socket.TakesAll, hwrite]
  rw [htakes]
  cases hstreamed : resp.needsStreaming with
  | false =>
      simp only [Bool.false_eq_true, if_false, DeliversWhole]
      constructor
      · intro hdelivers
        have hquiet : ∀ event ∈ [writableEvent], IsQuiet event := by simp [IsQuiet, writableEvent]
        obtain ⟨h', hrun, _, hreceived⟩ := hdelivers [writableEvent] hquiet ⟨_, List.mem_singleton_self _, rfl⟩
        rw [handleEvents_whole hdue hstreamed hwrite hquiet ⟨_, List.mem_singleton_self _, rfl⟩] at hrun
        cases hrun
        exact List.append_cancel_left hreceived
      · intro htake events hquiet hroom
        refine ⟨_, handleEvents_whole hdue hstreamed hwrite hquiet hroom, rfl, ?_⟩
        exact congrArg (h.socket.received ++ ·) htake
  | true =>
      simp only [if_true, StreamsBehindHeaders]
      obtain ⟨h', hrun, hsocket⟩ := @handleEpollEvent_streamed parsers config defaultAutoIndex
        handleCgiRequest h after resp hdue hstreamed n hwrite
      simp only [hrun, Except.ok.injEq, exists_eq_left', hsocket]
      have hprepend : ∀ data, h.socket.advance data =
          ({ h.socket with writes := h.socket.writes + 1, received := [] } : Socket).prepend
            (h.socket.received ++ data) := by
        simp [Socket.advance, Socket.prepend]
      constructor
      · intro hsame
        rw [hprepend, hprepend, Chunk.streamFileChunked_prepend, Chunk.streamFileChunked_prepend]
          at hsame
        exact List.append_cancel_left (List.append_cancel_right
          (congrArg Socket.received hsame))
      · intro htake
        rw [htake]

end Due

section Example

open ServerResponse

/-- A client that has sent a `GET` of the file, before it is answered. -/
def askingClient (outcomes : Nat → Option Nat) : IOClientHandler := {
  context := {
    request := getRequest (bytes "GET /a HTTP/1.1")
    parser := { headerParsed := true } }
  socket := { outcomes := outcomes }
  fileSystem := oneFile }

theorem oneFile_answered :
    ∃ resp, (create .ok (getRequest (bytes "GET /a HTTP/1.1")) oneFile {} false).generateResponse
        plainServer = .ok resp ∧
      resp.status.code = 200 ∧ resp.needsStreaming = false ∧ 10 < resp.response.length ∧
        resp.response.length < 1000 :=
  ⟨_, rfl, rfl, rfl, by decide, by decide⟩

private theorem askingClient_isDue (outcomes : Nat → Option Nat) :
    ∃ resp after, IsDue plainServer false (askingClient outcomes) resp after ∧
      resp.needsStreaming = false ∧ 10 < resp.response.length ∧ resp.response.length < 1000 := by
  obtain ⟨resp, hresp, hcode, hwhole, hlong, hshort⟩ := oneFile_answered
  refine ⟨resp, { (askingClient outcomes).setRequest resp.request with
    fileSystem := resp.fileSystem, sessionStore := resp.sessionStore }, ?_, hwhole, hlong, hshort⟩
  have hgenerated : (askingClient outcomes).generateResponse plainServer false =
      (create .ok (getRequest (bytes "GET /a HTTP/1.1")) oneFile {} false).generateResponse
        plainServer >>= fun resp => pure (resp, { (askingClient outcomes).setRequest resp.request with
          fileSystem := resp.fileSystem, sessionStore := resp.sessionStore }) := rfl
  rw [hresp] at hgenerated
  exact ⟨rfl, rfl, show (200 : Nat) ≠ 610 by decide, Or.inl rfl, hgenerated, by rw [hcode]; decide,
    Or.inr rfl, rfl, rfl⟩

/-- A `write` that takes 1000 bytes takes all of the answer. -/
theorem delivers_iff_roomy :
    ∃ resp after, IsDue plainServer false (askingClient (fun _ => some 1000)) resp after ∧
      (if resp.needsStreaming then
          StreamsBehindHeaders readNothing .ok plainServer false
            (askingClient (fun _ => some 1000)) resp after
        else DeliversWhole readNothing .ok plainServer false
          (askingClient (fun _ => some 1000)) resp) := by
  obtain ⟨resp, after, hdue, _, _, hlength⟩ := askingClient_isDue (fun _ => some 1000)
  exact ⟨resp, after, hdue, (delivers_iff readNothing .ok hdue
    (fun _ => ⟨1000, by decide, rfl⟩)).mpr ⟨1000, rfl, hlength.le⟩⟩

/-- A `write` that takes 10 bytes ends the request with the first 10 bytes of
the answer. -/
theorem delivers_truncated :
    ∃ resp after, IsDue plainServer false (askingClient (fun _ => some 10)) resp after ∧
      resp.needsStreaming = false ∧
      ¬DeliversWhole readNothing .ok plainServer false (askingClient (fun _ => some 10)) resp := by
  obtain ⟨resp, after, hdue, hwhole, hlength, _⟩ := askingClient_isDue (fun _ => some 10)
  refine ⟨resp, after, hdue, hwhole, fun hdelivers => ?_⟩
  have hquiet : ∀ event ∈ [writableEvent], IsQuiet event := by simp [IsQuiet, writableEvent]
  obtain ⟨h', hrun, _, hreceived⟩ := hdelivers [writableEvent] hquiet ⟨_, List.mem_singleton_self _, rfl⟩
  rw [handleEvents_whole hdue hwhole rfl hquiet ⟨_, List.mem_singleton_self _, rfl⟩] at hrun
  cases hrun
  have htaken := congrArg List.length (List.append_cancel_left hreceived)
  rw [List.length_take] at htaken
  omega

end Example

end IOClientHandler

end FortyTwo.Webserv
