import FortyTwo.Webserv.IOClientHandler
import FortyTwo.Webserv.ResponseSafety

/-!
How a head is read from the socket, whatever the reads it comes in: until its
blank line is complete it is kept, and then it is parsed as a whole.
-/

namespace FortyTwo.Webserv

open Foundation

/-- No field parser touches what only the body parsers and the sender write. -/
def KeepsBody (parsers : FieldParsers) : Prop :=
  ∀ fieldType fieldValue request status request',
    parsers fieldType fieldValue request = .ok (status, request') →
      request'.transferedLength = request.transferedLength ∧
        request'.contentData = request.contentData ∧
        request'.isStreaming = request.isStreaming ∧
        request'.streamHeadersSent = request.streamHeadersSent

/-- The fields are accepted, and nothing of them is kept. -/
def readNothing : FieldParsers := fun _ _ request => .ok (.ok, request)

theorem readNothing_keepsBody : KeepsBody readNothing := by
  intro fieldType fieldValue request status request' h
  cases h
  exact ⟨rfl, rfl, rfl, rfl⟩

/-- Nothing of the body has been read and nothing has been answered. -/
structure Request.IsUntouched (request : Request) : Prop where
  transferedLength : request.transferedLength = 0
  contentData : request.contentData = []
  isStreaming : request.isStreaming = false
  streamHeadersSent : request.streamHeadersSent = false

/-- A head, with the blank line behind it, that is read as this request. -/
structure IsHead (parsers : FieldParsers) (config : Config) (head : Bytes) (request : Request) :
    Prop where
  ends : find (crlf ++ crlf) (head ++ (crlf ++ crlf)) = some head.length
  isRead : ∃ p visited, (⟨head, true⟩ : RequestHeaderParser).parseCompleteHeader parsers config {} =
    .ok (p, visited, .ok, request)

section Untouched

variable {parsers : FieldParsers} {config : Config}

private theorem fieldsLoop_keeps (hkeeps : KeepsBody parsers) (buffer : Bytes) (len fuel : Nat) :
    ∀ (pos : Nat) (request : Request) (visited : List VisitedField)
      (result : List VisitedField × Status × Request),
      request.IsUntouched →
      fieldsLoop parsers buffer len fuel pos request visited = .ok result →
      result.2.2.IsUntouched := by
  induction fuel with
  | zero =>
      intro pos request visited result _ h
      cases h
  | succ fuel ih =>
      intro pos request visited result hrequest h
      rw [fieldsLoop] at h
      generalize readField buffer pos = r at h
      obtain ⟨field, stop⟩ := r
      simp only at h
      obtain ⟨⟨status, next⟩, hparse, hrest⟩ := except_bind_eq_ok.mp h
      have hnext : next.IsUntouched := by
        unfold parseField at hparse
        split at hparse
        · obtain ⟨htransfered, hdata, hstreaming, hsent⟩ := hkeeps _ _ _ _ _ hparse
          exact ⟨htransfered.trans hrequest.transferedLength, hdata.trans hrequest.contentData,
            hstreaming.trans hrequest.isStreaming, hsent.trans hrequest.streamHeadersSent⟩
        · cases hparse
          exact hrequest
      simp only at hrest
      split at hrest
      · cases hrest
        exact hnext
      split at hrest
      · exact ih _ _ _ _ hnext hrest
      · cases hrest
        exact hnext

private theorem parseAbsolutePath_untouched (path : Bytes) {request : Request}
    (h : request.IsUntouched) : (parseAbsolutePath path request).2.IsUntouched := by
  obtain ⟨htransfered, hdata, hstreaming, hsent⟩ := h
  unfold parseAbsolutePath
  split
  · exact ⟨htransfered, hdata, hstreaming, hsent⟩
  split
  · exact ⟨htransfered, hdata, hstreaming, hsent⟩
  split
  · exact ⟨htransfered, hdata, hstreaming, hsent⟩
  split
  · split <;> exact ⟨htransfered, hdata, hstreaming, hsent⟩
  · exact ⟨htransfered, hdata, hstreaming, hsent⟩

private theorem parseRequestLine_untouched (requestLine : Bytes) {request : Request}
    (h : request.IsUntouched) : (parseRequestLine requestLine request).2.IsUntouched := by
  unfold parseRequestLine
  simp only
  have hpath := parseAbsolutePath_untouched
    (getTokenWithDelim requestLine (getTokenWithDelim requestLine 0 (bytes " ") true).2 (bytes " ")
      true).1 h
  split
  · exact h
  split
  · exact h
  split
  · exact hpath
  split
  · exact hpath
  split
  · exact hpath
  · exact ⟨hpath.transferedLength, hpath.contentData, hpath.isStreaming, hpath.streamHeadersSent⟩

/-- A head that is accepted is the head of a request whose body is still to
come. -/
theorem IsHead.isUntouched (hkeeps : KeepsBody parsers) {head : Bytes} {request : Request}
    (h : IsHead parsers config head request) : request.IsUntouched := by
  obtain ⟨p, visited, hread⟩ := h.isRead
  unfold RequestHeaderParser.parseCompleteHeader at hread
  simp only [Bool.true_eq_false, if_false] at hread
  have hline := @parseRequestLine_untouched
    (getTokenWithDelim (unfoldString head) 0 crlf true).1 {} ⟨rfl, rfl, rfl, rfl⟩
  split at hread
  · simp only [pure, Except.pure, Except.ok.injEq, Prod.mk.injEq] at hread
    rw [← hread.2.2.2]
    exact hline
  obtain ⟨⟨visited', status, last⟩, hfields, hrest⟩ := except_bind_eq_ok.mp hread
  have hrouted : (RequestHeaderParser.routeCgi config (parseRequestLine
      (getTokenWithDelim (unfoldString head) 0 crlf true).1 {}).2).IsUntouched := by
    unfold RequestHeaderParser.routeCgi
    split
    · exact ⟨hline.transferedLength, hline.contentData, hline.isStreaming,
        hline.streamHeadersSent⟩
    · exact hline
  have hlast := fieldsLoop_keeps hkeeps _ _ _ _ _ _ _ hrouted hfields
  simp only at hrest
  split at hrest
  · simp only [pure, Except.pure, Except.ok.injEq, Prod.mk.injEq] at hrest
    rw [← hrest.2.2.2]
    exact hlast
  · simp only [pure, Except.pure, Except.ok.injEq, Prod.mk.injEq] at hrest
    rw [← hrest.2.2.2]
    exact hlast

/-- A head that is accepted is valid. -/
theorem IsHead.isRequestValid {head : Bytes} {request : Request}
    (h : IsHead parsers config head request) : isRequestValid config request = .ok := by
  obtain ⟨p, visited, hread⟩ := h.isRead
  unfold RequestHeaderParser.parseCompleteHeader at hread
  simp only [Bool.true_eq_false, if_false] at hread
  split at hread
  · rename_i herror
    simp only [pure, Except.pure, Except.ok.injEq, Prod.mk.injEq] at hread
    rw [hread.2.2.1] at herror
    cases herror
  obtain ⟨⟨visited', status, last⟩, hfields, hrest⟩ := except_bind_eq_ok.mp hread
  simp only at hrest
  split at hrest
  · rename_i herror
    simp only [pure, Except.pure, Except.ok.injEq, Prod.mk.injEq] at hrest
    rw [hrest.2.2.1] at herror
    cases herror
  · simp only [pure, Except.pure, Except.ok.injEq, Prod.mk.injEq] at hrest
    rw [← hrest.2.2.2]
    exact hrest.2.2.1

end Untouched

/-- The blank line that ends a head. -/
def blankLine : Bytes := crlf ++ crlf

/-- What is kept while a head is incomplete: `seen` has been read of it. -/
def waiting (seen : Bytes) : IOClientContext :=
  { parser := { headerParser := { buffer := seen } } }

section Reading

variable {parsers : FieldParsers} {config : Config} {head : Bytes} {request : Request}

private theorem find_blankLine (hhead : IsHead parsers config head request) (rest : Bytes) :
    find (crlf ++ crlf) (head ++ blankLine ++ rest) = some head.length :=
  find_append_of_some rest hhead.ends

private theorem find_blankLine_none (hhead : IsHead parsers config head request) {seen : Bytes}
    (hseen : seen <+: head ++ blankLine) (hshort : seen.length < (head ++ blankLine).length) :
    find (crlf ++ crlf) seen = none := by
  rw [List.prefix_iff_eq_take.mp hseen]
  apply (find_take_eq_none_iff (by decide) _ _).mpr
  intro k hk
  rw [blankLine, hhead.ends] at hk
  cases hk
  rw [List.length_append] at hshort
  exact hshort

/-- A read that does not complete the head is kept. -/
theorem readAndParse_waiting (hhead : IsHead parsers config head request) {seen data : Bytes}
    (hseen : seen ++ data <+: head ++ blankLine)
    (hshort : (seen ++ data).length < (head ++ blankLine).length) {h : IOClientHandler}
    (hcontext : h.context = waiting seen) :
    h.readAndParse parsers config (some data) =
      .ok { h with status := .dataIsNotReady, context := waiting (seen ++ data) } := by
  have hnone := find_blankLine_none hhead hseen hshort
  simp [IOClientHandler.readAndParse, hcontext, waiting, ServerRequestParser.isFinished,
    ServerRequestParser.parse, ServerRequestParser.parseHeader, RequestHeaderParser.feed, hnone,
    RequestHeaderParser.parseCompleteHeader, bind, Except.bind, pure, Except.pure]

/-- What is read behind the blank line, as `feed` counts it. -/
def bodyStart (seen head data : Bytes) : Nat :=
  (RequestHeaderParser.toInt (data.length - (seen ++ data).length + head.length + 4)).toNat

/-- The read that completes the head: the head is parsed, and a parser is made
for its body. -/
theorem parseHeader_head (hhead : IsHead parsers config head request) {seen data rest : Bytes}
    (hseen : seen ++ data = head ++ blankLine ++ rest) :
    ∃ headerParser, (waiting seen).parser.parseHeader parsers config data 0 {} = (do
      let bodyParser ←
        if request.method = bytes "POST" ∨ request.isCgi = true then
          (ServerRequestParser.createBodyParser request).map some
        else pure none
      pure ({ headerParser := headerParser, bodyParser := bodyParser, headerParsed := true },
        request, .ok, bodyStart seen head data)) := by
  obtain ⟨p, visited, hread⟩ := hhead.isRead
  have hfind := find_blankLine hhead rest
  have htake : (seen ++ data).take head.length = head := by
    rw [hseen, List.append_assoc, List.take_left]
  refine ⟨p, ?_⟩
  rw [← hseen] at hfind
  simp only [ServerRequestParser.parseHeader, waiting, Bool.false_eq_true, if_false,
    RequestHeaderParser.feed, hfind, htake, Status.ok_isError, hread, bind, Except.bind]
  rw [if_neg (by decide)]
  split
  · cases ServerRequestParser.createBodyParser request <;> rfl
  · rfl

/-- A request without a body parser is complete with its head. -/
theorem readAndParse_complete (hhead : IsHead parsers config head request)
    (hpost : request.method ≠ bytes "POST") (hcgi : request.isCgi = false)
    {seen data rest : Bytes} (hseen : seen ++ data = head ++ blankLine ++ rest)
    {h : IOClientHandler} (hcontext : h.context = waiting seen) :
    ∃ parser, parser.headerParsed = true ∧ h.readAndParse parsers config (some data) =
      .ok { h with status := .ok, context := { parser := parser, request := request } } := by
  obtain ⟨headerParser, hparse⟩ := parseHeader_head hhead hseen
  have hwaiting : (waiting seen).parser.isFinished = false := rfl
  refine ⟨{ headerParser := headerParser, headerParsed := true }, rfl, ?_⟩
  simp only [IOClientHandler.readAndParse, hcontext, hwaiting, Bool.false_eq_true, if_false,
    ServerRequestParser.parse, show (waiting seen).buffer = [] from rfl, List.nil_append,
    show (waiting seen).request = {} from rfl, hparse]
  simp [hpost, hcgi, bind, Except.bind, pure, Except.pure]

end Reading

/-- A client that has connected, with a socket that takes 1000 bytes at a time. -/
def connectedClient : IOClientHandler := {
  socket := { outcomes := fun _ => some 1000 }
  fileSystem := ServerResponse.oneFile }

def askA : Bytes := bytes "GET /a HTTP/1.1\r\nHost: h"

end FortyTwo.Webserv
