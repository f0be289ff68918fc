import FortyTwo.Webserv.ResponseDelivery

/-!
When a request is answered once. `handle_default_request` writes a response as
soon as the head is parsed, and looks at the length of the body only to decide
about the reset: only a request without a body is answered once, behind its
last byte.
-/

namespace FortyTwo.Webserv

open Foundation

/-- Data has come, or there is room for a `write`, or both. -/
def IsTraffic (event : Event) : Prop := event.hangUp = false ∧ event.read ≠ some none

/-- The bytes that events bring. -/
def bytesOf (events : List Event) : Bytes :=
  (events.filterMap (fun event => event.read.join)).flatten

/-- Data, and room for a `write` or not. -/
def arrival (data : Bytes) (writable : Bool) : Event :=
  { read := some (some data), writable := writable }

namespace IOClientHandler

section

variable (parsers : FieldParsers) (config : Config) (defaultAutoIndex : Bool)
  (handleCgiRequest : IOClientHandler → Except Fault IOClientHandler)

/-- However the bytes of a request come, and wherever there is room for a
`write` between and behind them: nothing is written before its last byte, and
then one response, behind which the context is reset. -/
structure AnswersOnce (h : IOClientHandler) (text response : Bytes) : Prop where
  silent : ∀ (events : List Event) (h' : IOClientHandler),
    (∀ event ∈ events, IsTraffic event) → bytesOf events <+: text → bytesOf events ≠ text →
    h.handleEvents parsers config defaultAutoIndex handleCgiRequest events = .ok h' →
    h'.socket.writes = h.socket.writes
  answered : ∀ (before after : List Event) (data : Bytes) (writable : Bool),
    (∀ event ∈ before, IsTraffic event) → (∀ event ∈ after, IsQuiet event) →
    bytesOf before ≠ text → bytesOf before ++ data = text →
    (writable = true ∨ ∃ event ∈ after, event.writable = true) →
    ∃ h', h.handleEvents parsers config defaultAutoIndex handleCgiRequest
        (before ++ arrival data writable :: after) = .ok h' ∧
      h'.socket.writes = h.socket.writes + 1 ∧
      h'.socket.received = h.socket.received ++ response ∧ h'.context = {}

end

variable {parsers : FieldParsers} {config : Config} {defaultAutoIndex : Bool}
  {handleCgiRequest : IOClientHandler → Except Fault IOClientHandler}
  {head : Bytes} {request : Request} {h : IOClientHandler}

theorem handleEvents_append (before after : List Event) :
    ∀ h : IOClientHandler,
      h.handleEvents parsers config defaultAutoIndex handleCgiRequest (before ++ after) =
        (h.handleEvents parsers config defaultAutoIndex handleCgiRequest before).bind
          (fun h => h.handleEvents parsers config defaultAutoIndex handleCgiRequest after) := by
  induction before with
  | nil => exact fun _ => rfl
  | cons event rest ih =>
      intro h
      rw [List.cons_append, handleEvents, handleEvents]
      cases h.handleEpollEvent parsers config defaultAutoIndex handleCgiRequest event with
      | error fault => rfl
      | ok h' => exact ih h'

/-- An arrival that makes the request ready is like one that only reports the
room for a `write`. -/
private theorem handleEpollEvent_arrival {h' : IOClientHandler} {data : Bytes}
    (hopen : h.isClosing = false) (hcgi : h.context.request.isCgi = false)
    (hread : h.readAndParse parsers config (some data) = .ok h') (hopen' : h'.isClosing = false)
    (hstatus : h'.status = .ok) (writable : Bool) :
    h.handleEpollEvent parsers config defaultAutoIndex handleCgiRequest (arrival data writable) =
      h'.handleEpollEvent parsers config defaultAutoIndex handleCgiRequest
        { writable := writable } := by
  have hready : Status.ok.code ≠ Status.dataIsNotReady.code := by decide
  simp [handleEpollEvent, hopen, hopen', handle, arrival, handleReadable, hcgi, hread, hstatus,
    hready, bind, Except.bind, pure, Except.pure]

/-- While the head is incomplete nothing is written. -/
private theorem handleEvents_waiting (hhead : IsHead parsers config head request)
    (events : List Event) :
    ∀ (seen : Bytes) (h : IOClientHandler), h.context = waiting seen → h.isClosing = false →
      h.status.isError = false → (∀ event ∈ events, IsTraffic event) →
      seen ++ bytesOf events <+: head ++ blankLine →
      (seen ++ bytesOf events).length < (head ++ blankLine).length →
      ∃ status, status.isError = false ∧
        h.handleEvents parsers config defaultAutoIndex handleCgiRequest events =
          .ok { h with status := status, context := waiting (seen ++ bytesOf events) } := by
  induction events with
  | nil =>
      intro seen h hcontext _ hstatus _ _ _
      refine ⟨h.status, hstatus, ?_⟩
      rw [show seen ++ bytesOf [] = seen from List.append_nil seen, ← hcontext]
      rfl
  | cons event rest ih =>
      intro seen h hcontext hopen hstatus htraffic hpre hshort
      obtain ⟨hhang, hread⟩ := htraffic event List.mem_cons_self
      have hrest : ∀ event ∈ rest, IsTraffic event := fun event hevent =>
        htraffic event (List.mem_cons_of_mem _ hevent)
      rw [handleEvents]
      cases hdata : event.read with
      | none =>
          rw [handleEpollEvent_unasked hopen (by rw [hcontext]; rfl) (by rw [hcontext]; rfl) hstatus
            ⟨hhang, hdata⟩]
          have hbytes : bytesOf (event :: rest) = bytesOf rest := by simp [bytesOf, hdata]
          rw [hbytes] at hpre hshort ⊢
          exact ih seen h hcontext hopen hstatus hrest hpre hshort
      | some result =>
          cases result with
          | none => exact absurd hdata hread
          | some data =>
              have hbytes : seen ++ bytesOf (event :: rest) = seen ++ data ++ bytesOf rest := by
                simp [bytesOf, hdata]
              rw [hbytes] at hpre hshort ⊢
              have hwait := @readAndParse_waiting parsers config head request hhead seen data
                ((List.prefix_append _ _).trans hpre)
                (by rw [List.length_append] at hshort; omega) h hcontext
              have hstep : h.handleEpollEvent parsers config defaultAutoIndex handleCgiRequest
                  event = .ok { h with
                    status := .dataIsNotReady
                    context := waiting (seen ++ data) } := by
                have hcgi : (waiting seen).request.isCgi = false := rfl
                simp [handleEpollEvent, hopen, handle, hhang, hdata, handleReadable, hcontext, hcgi,
                  hwait, bind, Except.bind, pure, Except.pure]
              rw [hstep]
              exact ih (seen ++ data) { h with
                status := .dataIsNotReady
                context := waiting (seen ++ data) } rfl hopen rfl hrest hpre hshort

private theorem proper_prefix_length {events : List Event} {text : Bytes}
    (hpre : bytesOf events <+: text) (hne : bytesOf events ≠ text) :
    (bytesOf events).length < text.length := by
  apply lt_of_le_of_ne hpre.length_le
  intro hlen
  apply hne
  exact hpre.eq_of_length hlen

/-- A request without a body is answered once. -/
private theorem answersOnce_of_bodyless (hkeeps : KeepsBody parsers)
    (hhead : IsHead parsers config head request) (hcgi : request.isCgi = false)
    (hlength : request.contentLength = 0) (hcontext : h.context = {}) (hopen : h.isClosing = false)
    (hstatus : h.status.isError = false) {resp : ServerResponse}
    (hresp : (ServerResponse.create .ok request h.fileSystem h.sessionStore
      defaultAutoIndex).generateResponse config = .ok resp)
    (hwhole : resp.needsStreaming = false) {n : Nat}
    (hwrite : h.socket.outcomes h.socket.writes = some n) (hroomy : resp.response.length ≤ n) :
    AnswersOnce parsers config defaultAutoIndex handleCgiRequest h (head ++ blankLine)
      resp.response := by
  have huntouched := hhead.isUntouched hkeeps
  have hpost : request.method ≠ bytes "POST" := by
    intro hpost
    have hvalid := hhead.isRequestValid
    rw [isRequestValid, if_pos ⟨hpost, hlength⟩] at hvalid
    cases hvalid
  have hwaiting : h.context = waiting [] := hcontext
  constructor
  · intro events h' htraffic hpre hne hrun
    obtain ⟨status, _, hwaited⟩ := @handleEvents_waiting parsers config defaultAutoIndex
      handleCgiRequest head request hhead events [] h hwaiting hopen hstatus htraffic hpre
      (proper_prefix_length hpre hne)
    rw [hwaited] at hrun
    cases hrun
    rfl
  · intro before after data writable htraffic hquiet hne htext hroom
    have hpre : bytesOf before <+: head ++ blankLine := ⟨data, htext⟩
    obtain ⟨status, _, hwaited⟩ := @handleEvents_waiting parsers config defaultAutoIndex
      handleCgiRequest head request hhead before [] h hwaiting hopen hstatus htraffic hpre
      (proper_prefix_length hpre hne)
    rw [List.nil_append] at hwaited
    obtain ⟨parser, hparsed, hread⟩ := @readAndParse_complete parsers config head request hhead
      hpost hcgi (bytesOf before) data [] (by rw [htext, List.append_nil])
      { h with status := status, context := waiting (bytesOf before) } rfl
    set asked : IOClientHandler :=
      { h with status := .ok, context := { parser := parser, request := request } } with hasked
    have hdue : IsDue config defaultAutoIndex asked resp { asked.setRequest resp.request with
        fileSystem := resp.fileSystem
        sessionStore := resp.sessionStore } := by
      refine ⟨hopen, hcgi, show (200 : Nat) ≠ 610 by decide, Or.inl hparsed, ?_, ?_, Or.inr ?_,
        huntouched.isStreaming, huntouched.streamHeadersSent⟩
      · rw [generateResponse, show (ServerResponse.create asked.status asked.context.request
          asked.fileSystem asked.sessionStore defaultAutoIndex).generateResponse config = .ok resp
          from hresp]
        rfl
      · exact (ServerResponse.generateResponse_keeps hresp).notContinue huntouched.contentData
          (show (200 : Nat) ≠ 100 by decide)
      · simp [hasked, Request.isRequestReady, hlength]
    refine ⟨answered resp n asked { asked.setRequest resp.request with
      fileSystem := resp.fileSystem
      sessionStore := resp.sessionStore }, ?_, rfl, ?_, rfl⟩
    · rw [handleEvents_append, hwaited]
      simp only [Except.bind]
      have hstep : ({ h with
          status := status
          context := waiting (bytesOf before) } : IOClientHandler).handleEpollEvent parsers config
            defaultAutoIndex handleCgiRequest (arrival data writable) =
          asked.handleEpollEvent parsers config defaultAutoIndex handleCgiRequest
            { writable := writable } :=
        handleEpollEvent_arrival (by exact hopen) rfl hread hopen rfl writable
      rw [handleEvents, hstep]
      exact @handleEvents_whole parsers config defaultAutoIndex handleCgiRequest asked _ resp hdue
        hwhole n hwrite ({ writable := writable } :: after) (by simpa [IsQuiet] using hquiet)
        (by simpa using hroom)
    · show h.socket.received ++ resp.response.take n = h.socket.received ++ resp.response
      rw [List.take_of_length_le hroomy]

private theorem feed_nothing (boundary content : Bytes) :
    (RequestMultipartParser.init boundary).feed content content.length =
      .ok (.init boundary, .dataIsNotReady) := by
  have hstart : find (startBoundary boundary) [] = none :=
    find_eq_none_of_length_lt (by simp [startBoundary, bytes])
  have hend : find (endBoundary boundary) [] = none :=
    find_eq_none_of_length_lt (by simp [endBoundary, crlf])
  have hne : startBoundary boundary ≠ [] := by simp [startBoundary, bytes]
  have hlength' : 0 < (endBoundary boundary).length := by simp [endBoundary, crlf]
  have hzero : RequestMultipartParser.addDataSize 0 0 = 0 := rfl
  simp [RequestMultipartParser.feed, RequestMultipartParser.init, RequestMultipartParser.feedLoop,
    RequestMultipartParser.feedRound, RequestMultipartParser.searchBoundary, hstart, hend, hzero,
    RequestMultipartParser.parseBodyWithoutAnyBoundary, hne, hlength', bind, Except.bind, pure,
    Except.pure]

/-- A body parser that is given nothing accepts it, and leaves the parts alone. -/
private theorem parseBody_nothing {bodyParser : BodyParser}
    (hbody : ServerRequestParser.createBodyParser request = .ok bodyParser)
    (hdata : request.contentData = []) (content : Bytes) :
    ∃ bodyParser' request', parseBody bodyParser content content.length request =
        .ok (bodyParser', request', .ok) ∧
      request'.contentData = [] ∧ request'.isCgi = request.isCgi ∧
      request'.isStreaming = request.isStreaming ∧
      request'.streamHeadersSent = request.streamHeadersSent := by
  have hraw : ∀ p : RequestRawBodyParser, p.finished = false →
      ∃ bodyParser' request', parseBody (BodyParser.raw p) content content.length request =
          .ok (bodyParser', request', .ok) ∧
        request'.contentData = [] ∧ request'.isCgi = request.isCgi ∧
        request'.isStreaming = request.isStreaming ∧
        request'.streamHeadersSent = request.streamHeadersSent := by
    intro p hfinished
    obtain ⟨p', status, hfeed, hstatus, hunfinished⟩ : ∃ p' status,
        p.feed content content.length = .ok (p', status) ∧ status.isError = false ∧
          p'.finished = false := by
      rw [RequestRawBodyParser.feed, if_neg (lt_irrefl _)]
      refine ⟨_, _, rfl, ?_, hfinished⟩
      split <;> rfl
    simp only [parseBody, IRequestBodyParser.feed, hfeed, Except.map, bind, Except.bind, hstatus,
      Bool.false_eq_true, if_false, IRequestBodyParser.apply, IRequestBodyParser.isFinished]
    unfold RequestRawBodyParser.apply
    cases p'.type with
    | inBuffer =>
        refine ⟨_, _, by simp only [hunfinished, Bool.false_eq_true, false_and, if_false]; rfl, ?_⟩
        exact ⟨hdata, rfl, rfl, rfl⟩
    | inFile =>
        refine ⟨_, _, by simp only [hunfinished, Bool.false_eq_true, false_and, if_false]; rfl, ?_⟩
        exact ⟨hdata, rfl, rfl, rfl⟩
  unfold ServerRequestParser.createBodyParser at hbody
  split at hbody
  · cases hbody
    exact hraw _ rfl
  split at hbody
  · split at hbody
    · rename_i boundary _
      cases hbody
      refine ⟨.multipart (.init boundary), { request with transferedLength := 0 }, ?_, hdata, rfl,
        rfl, rfl⟩
      simp only [parseBody, IRequestBodyParser.feed, feed_nothing, Except.map, bind, Except.bind,
        Status.dataIsNotReady_isError, Bool.false_eq_true, if_false, IRequestBodyParser.apply,
        IRequestBodyParser.isFinished]
      simp [RequestMultipartParser.apply, RequestMultipartParser.init,
        RequestMultipartParser.applyLoop, hdata, pure, Except.pure]
    · cases hbody
  · cases hbody
    exact hraw _ rfl

/-- The last byte of a head completes it, whatever the method, and nothing of
the body has come. -/
private theorem readAndParse_head (hkeeps : KeepsBody parsers)
    (hhead : IsHead parsers config head request) (hcgi : request.isCgi = false)
    {seen : Bytes} {last : UInt8} (hseen : seen ++ [last] = head ++ blankLine)
    (hcontext : h.context = waiting seen) :
    ∃ parser request', parser.headerParsed = true ∧ request'.contentData = [] ∧
      request'.isCgi = false ∧ request'.isStreaming = false ∧
      request'.streamHeadersSent = false ∧
      h.readAndParse parsers config (some [last]) =
        .ok { h with status := .ok, context := { parser := parser, request := request' } } := by
  have huntouched := hhead.isUntouched hkeeps
  have hseen' : seen ++ [last] = head ++ blankLine ++ [] := by rw [hseen, List.append_nil]
  by_cases hpost : request.method = bytes "POST"
  · have hstart : bodyStart seen head [last] = 1 := by
      have hlen := congrArg List.length hseen
      rw [List.length_append, List.length_append, show blankLine.length = 4 from rfl,
        List.length_singleton] at hlen
      unfold bodyStart
      rw [List.length_append, List.length_singleton,
        show ((1 : Nat) : Int) - (seen.length + 1 : Nat) + head.length + 4 = 1 by omega]
      rfl
    obtain ⟨bodyParser, hbody⟩ : ∃ bodyParser,
        ServerRequestParser.createBodyParser request = .ok bodyParser := by
      have hvalid := hhead.isRequestValid
      unfold ServerRequestParser.createBodyParser
      rw [hcgi, if_neg (by decide)]
      split
      · rename_i htype
        cases hboundary : request.contentType.parameters.lookup (bytes "boundary") with
        | some boundary => exact ⟨_, rfl⟩
        | none =>
            have hinvalid : isContentTypeValid request = false := by
              simp [isContentTypeValid, htype, hboundary]
            rw [isRequestValid, hinvalid] at hvalid
            split at hvalid <;> cases hvalid
      · exact ⟨_, rfl⟩
    obtain ⟨bodyParser', request', hparsed, hdata, hcgi', hstreaming, hsent⟩ :=
      parseBody_nothing hbody huntouched.contentData [last]
    obtain ⟨headerParser, hparse⟩ := parseHeader_head hhead hseen'
    have hwaiting : (waiting seen).parser.isFinished = false := rfl
    refine ⟨⟨headerParser, some bodyParser', true⟩, request', rfl, hdata, hcgi'.trans hcgi,
      hstreaming.trans huntouched.isStreaming, hsent.trans huntouched.streamHeadersSent, ?_⟩
    simp only [List.length_singleton] at hparsed
    simp only [readAndParse, hcontext, hwaiting, Bool.false_eq_true, if_false,
      ServerRequestParser.parse, show (waiting seen).buffer = [] from rfl, List.nil_append,
      show (waiting seen).request = {} from rfl, hparse, hstart]
    simp [hpost, hbody, Except.map, bind, Except.bind, pure, Except.pure, hparsed]
  · obtain ⟨parser, hparsed, hread⟩ := readAndParse_complete hhead hpost hcgi hseen' hcontext
    exact ⟨parser, request, hparsed, huntouched.contentData, hcgi, huntouched.isStreaming,
      huntouched.streamHeadersSent, hread⟩

/-- Once a head is parsed, room for a `write` is used, whether the body has come
or not. -/
private theorem handleDefaultRequest_writes (hstatus : h.status = .ok)
    (hparsed : h.context.parser.headerParsed = true)
    (hdata : h.context.request.contentData = []) (hsent : h.context.request.streamHeadersSent = false)
    {h' : IOClientHandler} (hrun : h.handleDefaultRequest config defaultAutoIndex = .ok h') :
    h.socket.writes < h'.socket.writes := by
  have hready : Status.ok.code ≠ Status.dataIsNotReady.code := by decide
  rw [handleDefaultRequest, hstatus, if_pos ⟨hready, Or.inl hparsed⟩] at hrun
  obtain ⟨⟨status, sent⟩, hsend, hrest⟩ := except_bind_eq_ok.mp hrun
  have hsocket : h'.socket = sent.socket := by
    simp only at hrest
    split at hrest
    · cases hrest
      rfl
    split at hrest <;> (cases hrest; rfl)
  rw [hsocket]
  obtain ⟨⟨resp, after⟩, hgenerated, hrest⟩ := except_bind_eq_ok.mp hsend
  obtain ⟨hmade, hafter⟩ := generateResponse_eq hgenerated
  have hkeeps := ServerResponse.generateResponse_keeps hmade
  have hcode : resp.status.code ≠ 100 :=
    hkeeps.notContinue hdata (by rw [show (ServerResponse.create h.status h.context.request
      h.fileSystem h.sessionStore defaultAutoIndex).status = h.status from rfl, hstatus]; decide)
  have hunsent : after.context.request.streamHeadersSent = false := by
    have hdelivery := congrArg ServerResponse.Delivery.streamHeadersSent hkeeps.delivery
    rw [hafter]
    exact hdelivery.trans hsent
  have hwrites := h.socket.write_writes resp.response
  have hsame : after.socket = h.socket := by rw [hafter]; rfl
  simp only [hcode, if_false] at hrest
  split at hrest
  · rw [sendStreamHeaders, hunsent, hsame] at hrest
    rcases hwrite : h.socket.write resp.response with ⟨_ | written, socket⟩
    · rw [hwrite] at hrest hwrites
      cases hrest
      simp only at hwrites ⊢
      omega
    · rw [hwrite] at hrest hwrites
      cases hrest
      simp only [streamChunk, setRequest] at hwrites ⊢
      refine lt_of_lt_of_le ?_ (Chunk.streamFileChunked_writes _ _ _ _)
      omega
  · rw [hsame] at hrest
    rcases hwrite : h.socket.write resp.response with ⟨_ | written, socket⟩
    · rw [hwrite] at hrest hwrites
      cases hrest
      simp only at hwrites ⊢
      omega
    · rw [hwrite] at hrest hwrites
      cases hrest
      simp only at hwrites ⊢
      omega

/-- Room for a `write` right behind the head: the run faults, or something is
written. -/
private theorem handleEvents_head (hkeeps : KeepsBody parsers)
    (hhead : IsHead parsers config head request) (hcgi : request.isCgi = false)
    (hcontext : h.context = {}) (hopen : h.isClosing = false) (hstatus : h.status.isError = false)
    {seen : Bytes} {last : UInt8} (hseen : seen ++ [last] = head ++ blankLine)
    {h' : IOClientHandler}
    (hrun : h.handleEvents parsers config defaultAutoIndex handleCgiRequest
      [arrival seen false, arrival [last] true] = .ok h') :
    h.socket.writes < h'.socket.writes := by
  have hbytes : [] ++ bytesOf [arrival seen false] = seen := by simp [bytesOf, arrival]
  obtain ⟨status, _, hwaited⟩ := @handleEvents_waiting parsers config defaultAutoIndex
    handleCgiRequest head request hhead [arrival seen false] [] h hcontext hopen hstatus
    (by simp [IsTraffic, arrival]) (by rw [hbytes, ← hseen]; exact List.prefix_append _ _)
    (by rw [hbytes, ← hseen]; simp)
  rw [hbytes] at hwaited
  obtain ⟨parser, request', hparsed, hdata, hcgi', hstreaming, hsent, hread⟩ :=
    @readAndParse_head parsers config head request
      { h with status := status, context := waiting seen } hkeeps hhead hcgi seen last hseen rfl
  have hstep : ({ h with status := status, context := waiting seen } : IOClientHandler).handleEpollEvent
      parsers config defaultAutoIndex handleCgiRequest (arrival [last] true) =
      ({ h with
        status := .ok
        context := { parser := parser, request := request' } } : IOClientHandler).handleEpollEvent
          parsers config defaultAutoIndex handleCgiRequest writableEvent :=
    handleEpollEvent_arrival (by exact hopen) rfl hread hopen rfl true
  rw [show [arrival seen false, arrival [last] true] =
    [arrival seen false] ++ [arrival [last] true] from rfl, handleEvents_append, hwaited] at hrun
  simp only [Except.bind, handleEvents, hstep] at hrun
  obtain ⟨closed, hevent, hlast⟩ := except_bind_eq_ok.mp hrun
  cases hlast
  rw [handleEpollEvent_room (by exact hopen) (by exact hcgi')] at hevent
  cases hhandled : ({ h with
      status := .ok
      context := { parser := parser, request := request' } } : IOClientHandler).handleDefaultRequest
        config defaultAutoIndex with
  | error fault =>
      rw [hhandled] at hevent
      cases hevent
  | ok sent =>
      rw [hhandled] at hevent
      have hwritten := @handleDefaultRequest_writes config defaultAutoIndex _ rfl hparsed hdata
        hsent sent hhandled
      cases hevent
      simp only
      split <;> exact hwritten

/-- A request is answered once, behind its last byte, exactly when it has no
body. -/
theorem answersOnce_iff (hkeeps : KeepsBody parsers)
    (hhead : IsHead parsers config head request) (hcgi : request.isCgi = false) (body : Bytes)
    (hbody : body.length = request.contentLength) (hcontext : h.context = {})
    (hopen : h.isClosing = false) (hstatus : h.status.isError = false) (response : Bytes)
    (hresponse : request.contentLength = 0 → ∃ resp, (ServerResponse.create .ok request
        h.fileSystem h.sessionStore defaultAutoIndex).generateResponse config = .ok resp ∧
      resp.needsStreaming = false ∧ resp.response = response)
    (hwrites : ∀ k, ∃ n, h.socket.outcomes k = some n ∧ response.length ≤ n) :
    AnswersOnce parsers config defaultAutoIndex handleCgiRequest h (head ++ blankLine ++ body)
      response ↔ request.contentLength = 0 := by
  constructor
  · intro hanswers
    by_contra hlength
    have hne : body ≠ [] := by
      rintro rfl
      exact hlength hbody.symm
    have hseen : (head ++ [13, 10, 13]) ++ [(10 : UInt8)] = head ++ blankLine := by
      rw [List.append_assoc]
      rfl
    set events := [arrival (head ++ [13, 10, 13]) false, arrival [(10 : UInt8)] true] with hevents
    have hbytes : bytesOf events = head ++ blankLine := by simp [hevents, bytesOf, arrival, blankLine, crlf]
    have htraffic : ∀ event ∈ events, IsTraffic event := by simp [hevents, IsTraffic, arrival]
    have hproper : bytesOf events ≠ head ++ blankLine ++ body := by
      rw [hbytes]
      intro heq
      exact hne (List.append_right_eq_self.mp heq.symm)
    cases hrun : h.handleEvents parsers config defaultAutoIndex handleCgiRequest events with
    | ok h' =>
        have hsilent := hanswers.silent events h' htraffic
          (by rw [hbytes]; exact List.prefix_append _ _) hproper hrun
        have hwritten := handleEvents_head hkeeps hhead hcgi hcontext hopen hstatus hseen hrun
        omega
    | error fault =>
        obtain ⟨h', hcomplete, _⟩ := hanswers.answered events [] body true htraffic (by simp)
          hproper (by rw [hbytes]) (Or.inl rfl)
        rw [handleEvents_append, hrun] at hcomplete
        cases hcomplete
  · intro hlength
    obtain ⟨resp, hresp, hwhole, rfl⟩ := hresponse hlength
    obtain ⟨n, hwrite, hroomy⟩ := hwrites h.socket.writes
    have hnil : body = [] := List.length_eq_zero_iff.mp (hbody.trans hlength)
    rw [hnil, List.append_nil]
    exact answersOnce_of_bodyless hkeeps hhead hcgi hlength hcontext hopen hstatus hresp hwhole
      hwrite hroomy

section Example

open ServerResponse

private theorem askA_isHead :
    IsHead readNothing plainServer askA (getRequest (bytes "GET /a HTTP/1.1")) :=
  ⟨by decide, _, _, rfl⟩

/-- A `GET` is answered once. -/
theorem answersOnce_iff_get :
    ∃ response, AnswersOnce readNothing plainServer false .ok connectedClient
      (askA ++ blankLine ++ []) response := by
  obtain ⟨resp, hresp, _, hwhole, _, hroomy⟩ := oneFile_answered
  have hlength : (getRequest (bytes "GET /a HTTP/1.1")).contentLength = 0 := rfl
  have honce := @answersOnce_iff readNothing plainServer false .ok askA
    (getRequest (bytes "GET /a HTTP/1.1")) connectedClient readNothing_keepsBody askA_isHead rfl []
    hlength.symm rfl rfl rfl resp.response (fun _ => ⟨resp, hresp, hwhole, rfl⟩)
    (fun _ => ⟨1000, rfl, hroomy.le⟩)
  exact ⟨resp.response, honce.mpr hlength⟩

/-- The content length `1` is read, and nothing else. -/
def readLengthOne : FieldParsers := fun fieldType fieldValue request =>
  match fieldType with
  | .contentLength => .ok (.ok, if fieldValue = bytes "1" then { request with contentLength := 1 }
      else request)
  | _ => .ok (.ok, request)

def askWithBody : Bytes := bytes "GET /a HTTP/1.1\r\nContent-Length: 1"

private theorem askWithBody_isHead :
    ∃ request, IsHead readLengthOne plainServer askWithBody request ∧ request.isCgi = false ∧
      request.contentLength = 1 :=
  ⟨_, ⟨by decide, _, _, rfl⟩, rfl, rfl⟩

private theorem askWithBody_written :
    (connectedClient.handleEvents readLengthOne plainServer false .ok
      [arrival (askWithBody ++ blankLine) true]).map (fun h => h.socket.writes) = .ok 1 := by
  decide +kernel

private theorem askWithBody_repeated :
    (connectedClient.handleEvents readLengthOne plainServer false .ok
      [arrival (askWithBody ++ blankLine ++ bytes "x") true, writableEvent]).map
        (fun h => h.socket.writes) = .ok 2 := by
  decide +kernel

/-- A `GET` with a body of one byte: it is answered before the byte has come,
and again and again after it. -/
theorem answers_twice :
    (∃ request, IsHead readLengthOne plainServer askWithBody request ∧ request.isCgi = false ∧
      request.contentLength = 1) ∧
    (connectedClient.handleEvents readLengthOne plainServer false .ok
      [arrival (askWithBody ++ blankLine ++ bytes "x") true, writableEvent]).map
        (fun h => h.socket.writes) = .ok 2 ∧
    ∀ response, ¬AnswersOnce readLengthOne plainServer false .ok connectedClient
      (askWithBody ++ blankLine ++ bytes "x") response := by
  refine ⟨askWithBody_isHead, askWithBody_repeated, ?_⟩
  intro response hanswers
  have hwritten := askWithBody_written
  cases hrun : connectedClient.handleEvents readLengthOne plainServer false .ok
      [arrival (askWithBody ++ blankLine) true] with
  | error fault =>
      rw [hrun] at hwritten
      cases hwritten
  | ok h' =>
      have hsilent := hanswers.silent [arrival (askWithBody ++ blankLine) true] h'
        (by simp [IsTraffic, arrival]) ⟨bytes "x", rfl⟩ (by decide) hrun
      rw [hrun] at hwritten
      simp only [Except.map, Except.ok.injEq, hsilent] at hwritten
      cases hwritten

end Example

end IOClientHandler

end FortyTwo.Webserv
