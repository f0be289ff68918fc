import Mathlib.Data.List.Forall2
import FortyTwo.Webserv.RequestReading

/-!
Requests that come one behind the other. `read_and_parse` empties its buffer
once a head is parsed, and the reset of the context forgets where the head
ended: requests are read back as they were sent if every one of them ends where
a read ends.
-/

namespace FortyTwo.Webserv

open Foundation

section Receive

variable (parsers : FieldParsers) (config : Config)

/-- One read, and the answer to the request if it is complete. -/
def receiveRead (h : IOClientHandler) (data : Bytes) :
    Except Fault (IOClientHandler × List Request) := do
  let h ← h.readAndParse parsers config (some data)
  if h.status.isError then pure (h.setIsClosing, [])
  else if h.context.parser.headerParsed = true ∧ h.context.request.isRequestReady = true then
    pure ({ h with context := h.context.reset }, [h.context.request])
  else pure (h, [])

/-- The requests that are parsed from these reads. -/
def receive : IOClientHandler → List Bytes → Except Fault (IOClientHandler × List Request)
  | h, [] => .ok (h, [])
  | h, data :: rest => do
      if h.isClosing then pure (h, [])
      else
        let (h, first) ← receiveRead parsers config h data
        let (h, more) ← receive h rest
        pure (h, first ++ more)

end Receive

/-- The longest `read`. -/
def readBuffSize : Nat := 1000000

section Pipelining

variable {parsers : FieldParsers} {config : Config}

private theorem toInt_of_lt {n : Nat} (h : n < 2 ^ 31) : RequestHeaderParser.toInt n = n := by
  unfold RequestHeaderParser.toInt
  omega

/-- The parser of a CGI request without a body takes nothing. -/
private theorem parseBody_cgi (content : Bytes) {request : Request}
    (hlength : request.transferedLength = 0) :
    parseBody (BodyParser.raw (.init 0 .inFile)) content content.length request =
      .ok (.raw (.init 0 .inFile), request, .ok) := by
  have hrequest : { request with transferedLength := 0 } = request := by
    rw [← hlength]
  have hzero : RequestHeaderParser.toInt 0 = 0 := rfl
  have hstatus : Status.incomplete.isError = false := rfl
  simp only [parseBody, IRequestBodyParser.feed, RequestRawBodyParser.feed,
    RequestRawBodyParser.init, lt_irrefl, if_false, Except.map, bind, Except.bind, sub_self, hzero,
    Nat.cast_zero, add_zero, hstatus, Bool.false_eq_true, IRequestBodyParser.apply,
    RequestRawBodyParser.apply, IRequestBodyParser.isFinished, false_and, hlength]
  exact congrArg (fun request => Except.ok (_, request, Status.ok)) hrequest

/-- A request without a body ends with its head, and the parser of a CGI
request takes nothing from behind it. -/
private theorem readAndParse_bodyless {head : Bytes} {request : Request}
    (hhead : IsHead parsers config head request) (hkeeps : KeepsBody parsers)
    (hmethod : request.method = bytes "GET") (hlength : request.contentLength = 0)
    {seen data : Bytes} (hseen : seen ++ data = head ++ blankLine)
    (hdata : data.length ≤ readBuffSize) {h : IOClientHandler} (hcontext : h.context = waiting seen) :
    ∃ parser, parser.headerParsed = true ∧ h.readAndParse parsers config (some data) =
      .ok { h with status := .ok, context := { parser := parser, request := request } } := by
  have hpost : request.method ≠ bytes "POST" := by
    rw [hmethod]
    decide
  have hseen' : seen ++ data = head ++ blankLine ++ [] := by rw [hseen, List.append_nil]
  cases hcgi : request.isCgi with
  | false => exact readAndParse_complete hhead hpost hcgi hseen' hcontext
  | true =>
      have hstart : bodyStart seen head data = data.length := by
        have hlen := congrArg List.length hseen
        rw [List.length_append, List.length_append, show blankLine.length = 4 from rfl] at hlen
        unfold bodyStart
        rw [List.length_append, show (data.length : Int) - (seen.length + data.length : Nat) +
          head.length + 4 = data.length by omega,
          toInt_of_lt (by unfold readBuffSize at hdata; omega)]
        rfl
      obtain ⟨headerParser, hparse⟩ := parseHeader_head hhead hseen'
      have hwaiting : (waiting seen).parser.isFinished = false := rfl
      have hbody := parseBody_cgi data (hhead.isUntouched hkeeps).transferedLength
      refine ⟨⟨headerParser, some (.raw (.init 0 .inFile)), true⟩, rfl, ?_⟩
      simp only [IOClientHandler.readAndParse, hcontext, hwaiting, Bool.false_eq_true, if_false,
        ServerRequestParser.parse, show (waiting seen).buffer = [] from rfl, List.nil_append,
        show (waiting seen).request = {} from rfl, hparse, hstart]
      simp [ServerRequestParser.createBodyParser, hcgi, hlength, Except.map, bind, Except.bind,
        pure, Except.pure, hbody]

private theorem receive_cons {h h' : IOClientHandler} {data : Bytes} {first : List Request}
    (hopen : h.isClosing = false) (hread : receiveRead parsers config h data = .ok (h', first))
    (rest : List Bytes) :
    receive parsers config h (data :: rest) =
      (receive parsers config h' rest).map (fun r => (r.1, first ++ r.2)) := by
  rw [receive]
  simp only [hopen, Bool.false_eq_true, if_false, hread, bind, Except.bind, pure, Except.pure]
  cases receive parsers config h' rest <;> rfl

/-- The reads of one request, whatever was read of it before. -/
private theorem receive_one {head : Bytes} {request : Request}
    (hhead : IsHead parsers config head request) (hkeeps : KeepsBody parsers)
    (hmethod : request.method = bytes "GET") (hlength : request.contentLength = 0)
    (more reads : List Bytes) :
    ∀ (seen : Bytes) (h : IOClientHandler), h.context = waiting seen → h.isClosing = false →
      seen ++ reads.flatten = head ++ blankLine → seen.length < (head ++ blankLine).length →
      (∀ data ∈ reads, data ≠ [] ∧ data.length ≤ readBuffSize) →
      ∃ h', h'.context = {} ∧ h'.isClosing = false ∧
        receive parsers config h (reads ++ more) =
          (receive parsers config h' more).map (fun r => (r.1, request :: r.2)) := by
  induction reads with
  | nil =>
      intro seen h _ _ hseen hshort
      rw [List.flatten_nil, List.append_nil] at hseen
      rw [hseen] at hshort
      exact absurd hshort (lt_irrefl _)
  | cons data reads ih =>
      intro seen h hcontext hopen hseen _ hreads
      rw [List.flatten_cons, ← List.append_assoc] at hseen
      obtain ⟨hne, hdata⟩ := hreads data List.mem_cons_self
      by_cases hend : (seen ++ data).length < (head ++ blankLine).length
      · -- the head goes on in the next read
        have hread : receiveRead parsers config h data = .ok
            ({ h with status := .dataIsNotReady, context := waiting (seen ++ data) }, []) := by
          rw [receiveRead, readAndParse_waiting hhead ⟨reads.flatten, hseen⟩ hend hcontext]
          simp [bind, Except.bind, pure, Except.pure, waiting]
        obtain ⟨h', hcontext', hopen', hrest⟩ := ih (seen ++ data)
          { h with status := .dataIsNotReady, context := waiting (seen ++ data) } rfl hopen hseen
          hend (fun data hmem => hreads data (List.mem_cons_of_mem _ hmem))
        refine ⟨h', hcontext', hopen', ?_⟩
        rw [List.cons_append, receive_cons hopen hread, hrest]
        cases receive parsers config h' more <;> rfl
      · -- the head ends here, and so do the reads
        have hnone : reads.flatten = [] := by
          have hlen := congrArg List.length hseen
          rw [List.length_append] at hlen
          exact List.length_eq_zero_iff.mp (by omega)
        have hreadsNil : reads = [] := by
          cases reads with
          | nil => rfl
          | cons next rest =>
              have hnext := (hreads next (by simp)).1
              exact absurd (List.append_eq_nil_iff.mp hnone).1 hnext
        rw [hnone, List.append_nil] at hseen
        obtain ⟨parser, hparsed, hparse⟩ :=
          readAndParse_bodyless hhead hkeeps hmethod hlength hseen hdata hcontext
        have hread : receiveRead parsers config h data =
            .ok ({ h with status := .ok, context := {} }, [request]) := by
          rw [receiveRead, hparse]
          simp [bind, Except.bind, pure, Except.pure, hparsed, Request.isRequestReady, hlength,
            IOClientContext.reset]
        refine ⟨{ h with status := .ok, context := {} }, rfl, hopen, ?_⟩
        rw [hreadsNil, List.cons_append, List.nil_append, receive_cons hopen hread]
        rfl

/-- Whatever the reads that every request comes in, if each of them ends where
a read ends, the requests are parsed as they were sent. -/
theorem receive_requests (hkeeps : KeepsBody parsers) (messages : List (Bytes × Request))
    (cuts : List (List Bytes))
    (hmessages : ∀ m ∈ messages, IsHead parsers config m.1 m.2 ∧ m.2.method = bytes "GET" ∧
      m.2.contentLength = 0)
    (hcuts : List.Forall₂ (fun m cut => cut.flatten = m.1 ++ blankLine) messages cuts)
    (hreads : ∀ cut ∈ cuts, ∀ data ∈ cut, data ≠ [] ∧ data.length ≤ readBuffSize)
    (h : IOClientHandler) (hcontext : h.context = {}) (hopen : h.isClosing = false) :
    ∃ h', receive parsers config h cuts.flatten = .ok (h', messages.map Prod.snd) ∧
      h'.context = {} := by
  induction hcuts generalizing h with
  | nil => exact ⟨h, rfl, hcontext⟩
  | @cons m cut messages cuts hcut _ ih =>
      obtain ⟨hhead, hmethod, hlength⟩ := hmessages m List.mem_cons_self
      obtain ⟨h₁, hcontext₁, hopen₁, hfirst⟩ := receive_one hhead hkeeps hmethod hlength
        cuts.flatten cut [] h hcontext hopen hcut (by simp [blankLine, crlf])
        (hreads cut List.mem_cons_self)
      obtain ⟨h', hrest, hcontext'⟩ := ih
        (fun m hm => hmessages m (List.mem_cons_of_mem _ hm))
        (fun cut hmem => hreads cut (List.mem_cons_of_mem _ hmem)) h₁ hcontext₁ hopen₁
      refine ⟨h', ?_, hcontext'⟩
      rw [List.flatten_cons, hfirst, hrest]
      rfl

end Pipelining

section Example

def askB : Bytes := bytes "GET /b HTTP/1.1\r\nHost: h"

private theorem askA_isHead : ∃ request, IsHead readNothing {} askA request ∧
    request.method = bytes "GET" ∧ request.contentLength = 0 ∧ request.uriPath = bytes "/a" :=
  ⟨_, ⟨by decide, _, _, rfl⟩, by decide, by decide, by decide⟩

private theorem askB_isHead : ∃ request, IsHead readNothing {} askB request ∧
    request.method = bytes "GET" ∧ request.contentLength = 0 ∧ request.uriPath = bytes "/b" :=
  ⟨_, ⟨by decide, _, _, rfl⟩, by decide, by decide, by decide⟩

/-- Two requests in two reads are both parsed. -/
theorem receive_requests_apart :
    ∃ h' a b, receive readNothing {} connectedClient [askA ++ blankLine, askB ++ blankLine] =
      .ok (h', [a, b]) ∧ a.uriPath = bytes "/a" ∧ b.uriPath = bytes "/b" := by
  obtain ⟨a, hheadA, hmethodA, hlengthA, hpathA⟩ := askA_isHead
  obtain ⟨b, hheadB, hmethodB, hlengthB, hpathB⟩ := askB_isHead
  obtain ⟨h', hreceive, _⟩ := @receive_requests readNothing {} readNothing_keepsBody
    [(askA, a), (askB, b)] [[askA ++ blankLine], [askB ++ blankLine]]
    (by simp [hheadA, hmethodA, hlengthA, hheadB, hmethodB, hlengthB])
    (.cons (by simp) (.cons (by simp) .nil))
    (by simp [askA, askB, blankLine, crlf, bytes, readBuffSize]) connectedClient rfl rfl
  exact ⟨h', a, b, hreceive, hpathA, hpathB⟩

/-- Two requests in one read: the second is lost. -/
theorem receive_loses_second :
    (∃ a b, IsHead readNothing {} askA a ∧ IsHead readNothing {} askB b ∧
      a.method = bytes "GET" ∧ b.method = bytes "GET" ∧ a.contentLength = 0 ∧
      b.contentLength = 0) ∧
    (receive readNothing {} connectedClient [askA ++ blankLine ++ (askB ++ blankLine)]).map
      (fun r => r.2.map Request.uriPath) = .ok [bytes "/a"] := by
  obtain ⟨a, hheadA, hmethodA, hlengthA, _⟩ := askA_isHead
  obtain ⟨b, hheadB, hmethodB, hlengthB, _⟩ := askB_isHead
  exact ⟨⟨a, b, hheadA, hheadB, hmethodA, hmethodB, hlengthA, hlengthB⟩, by decide +kernel⟩

end Example

end FortyTwo.Webserv
