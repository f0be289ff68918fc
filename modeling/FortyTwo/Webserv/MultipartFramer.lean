import FortyTwo.Webserv.MultipartParser

/-!
What the multipart parser is doing, in place of its flags and its pointer:
before the first part, inside a part, between two parts, or after the end
boundary. As long as nothing pops its list, the parser makes exactly the
rounds of this machine.
-/

namespace FortyTwo.Webserv

open Foundation

inductive Framing where
  | fresh
  | inPart (before : List RequestContent) (current : RequestContent)
  | between (before : List RequestContent) (last : RequestContent)
  | closed (before : List RequestContent) (last : RequestContent)

/-- The content list that stands behind a framing. -/
def Framing.contents : Framing → List RequestContent
  | .fresh => []
  | .inPart before current => before ++ [{ current with isFinished := false }]
  | .between before last => before ++ [{ last with isFinished := true }]
  | .closed before last => before ++ [{ last with isFinished := true }]

def Framing.isClosed : Framing → Bool
  | .closed _ _ => true
  | _ => false

def Framing.isFresh : Framing → Bool
  | .fresh => true
  | _ => false

section

variable (before : List RequestContent) (last : RequestContent)

@[simp] theorem contents_fresh : Framing.fresh.contents = [] := rfl

@[simp] theorem contents_inPart :
    (Framing.inPart before last).contents = before ++ [{ last with isFinished := false }] := rfl

@[simp] theorem contents_between :
    (Framing.between before last).contents = before ++ [{ last with isFinished := true }] := rfl

@[simp] theorem contents_closed :
    (Framing.closed before last).contents = before ++ [{ last with isFinished := true }] := rfl

@[simp] theorem isClosed_fresh : Framing.fresh.isClosed = false := rfl
@[simp] theorem isClosed_inPart : (Framing.inPart before last).isClosed = false := rfl
@[simp] theorem isClosed_between : (Framing.between before last).isClosed = false := rfl
@[simp] theorem isClosed_closed : (Framing.closed before last).isClosed = true := rfl
@[simp] theorem isFresh_fresh : Framing.fresh.isFresh = true := rfl
@[simp] theorem isFresh_inPart : (Framing.inPart before last).isFresh = false := rfl
@[simp] theorem isFresh_between : (Framing.between before last).isFresh = false := rfl
@[simp] theorem isFresh_closed : (Framing.closed before last).isFresh = false := rfl

end

structure Framer where
  framing : Framing
  buffer : Bytes

/-- The header that begins in `buffer` at `pos`. -/
def headerAt (boundary buffer : Bytes) (pos : Nat) : Status × RequestContent :=
  parseBodyHeader buffer pos (startBoundary boundary).length {}

namespace Framer

/-- A round that finds the start boundary outside of a part. -/
def header (boundary : Bytes) (f : Framer) (pos : Nat) : Framer × Status × Bool :=
  match find (crlf ++ crlf) f.buffer with
  | none => (f, .dataIsNotReady, false)
  | some headerEnd =>
      let (status, content) := headerAt boundary f.buffer pos
      (⟨.inPart f.framing.contents content, f.buffer.drop (headerEnd + 4)⟩, status, false)

/-- A round that finds no boundary, the part `current` being the last one. -/
def keepTail (boundary : Bytes) (framing : RequestContent → Framing) (current : RequestContent)
    (buffer : Bytes) : Framer × Status × Bool :=
  if (endBoundary boundary).length > buffer.length then
    (⟨framing current, buffer⟩, .dataIsNotReady, false)
  else
    let contentSize := buffer.length - (endBoundary boundary).length
    (⟨framing { current with data := current.data ++ buffer.take contentSize },
      buffer.drop contentSize⟩, .dataIsNotReady, false)

def round (boundary : Bytes) (f : Framer) (status : Status) :
    Except Fault (Framer × Status × Bool) :=
  match find (startBoundary boundary) f.buffer with
  | some pos =>
      match f.framing with
      | .inPart before current =>
          if pos < 2 then .error .outOfBounds
          else if ¬ (charAt f.buffer (pos - 2) = 13 ∧ charAt f.buffer (pos - 1) = 10) then
            .ok (f, .badRequest, true)
          else
            .ok (⟨.between before { current with data := current.data ++ f.buffer.take (pos - 2) },
              f.buffer.drop pos⟩, .ok, false)
      | _ => .ok (f.header boundary pos)
  | none =>
      match find (endBoundary boundary) f.buffer with
      | some pos =>
          match f.framing with
          | .fresh => .error .nullPointer
          | .inPart before last | .between before last | .closed before last =>
              .ok (⟨.closed before { last with data := last.data ++ f.buffer.take pos }, []⟩,
                status, true)
      | none =>
          match f.framing with
          | .fresh =>
              if f.buffer.length ≥ (startBoundary boundary).length then .ok (f, .badRequest, true)
              else .ok (f, .dataIsNotReady, false)
          | .inPart before current => .ok (keepTail boundary (.inPart before) current f.buffer)
          | .between before last => .ok (keepTail boundary (.between before) last f.buffer)
          | .closed before last => .ok (keepTail boundary (.closed before) last f.buffer)

/-- Whether `feed` goes on after a round. -/
def goesOn (boundary : Bytes) (f : Framer) (status : Status) : Prop :=
  f.buffer.length > (endBoundary boundary).length ∧ status.isError = false ∧
    status ≠ .dataIsNotReady

instance (boundary : Bytes) (f : Framer) (status : Status) :
    Decidable (f.goesOn boundary status) :=
  inferInstanceAs (Decidable (_ ∧ _ ∧ _))

def loop (boundary : Bytes) : Nat → Framer → Status → Except Fault (Framer × Status)
  | 0, _, _ => .error .outOfFuel
  | fuel + 1, f, status =>
      (f.round boundary status).bind (fun (f, status, leave) =>
        if leave then .ok (f, status)
        else if f.goesOn boundary status then loop boundary fuel f status
        else .ok (f, status))

/-- The rounds of one `feed` on what is in the buffer. -/
def run (boundary : Bytes) (f : Framer) (status : Status) : Except Fault (Framer × Status) :=
  loop boundary (f.buffer.length + 1) f status

def feed (boundary : Bytes) (f : Framer) (content : Bytes) : Except Fault (Framer × Status) :=
  if f.framing.isClosed then .ok (f, .badRequest)
  else run boundary ⟨f.framing, f.buffer ++ content⟩ .ok

/-- The parser in the state of the machine, `popped` elements having left its
list before. -/
def toParser (boundary : Bytes) (popped : Nat) (dataSize : Int) (f : Framer) :
    RequestMultipartParser where
  startBoundary := startBoundary boundary
  endBoundary := endBoundary boundary
  buffer := f.buffer
  dataSize := dataSize
  contentData := f.framing.contents
  popped := popped
  lastContent := if f.framing.isFresh then none else some (popped + f.framing.contents.length - 1)
  endBoundaryFound := f.framing.isClosed
  finished := f.framing.isClosed
  firstHeaderFound := !f.framing.isFresh

end Framer

namespace RequestMultipartParser

theorem derefLast_of_last {p : RequestMultipartParser} {before : List RequestContent}
    {last : RequestContent} (hcontents : p.contentData = before ++ [last])
    (hlast : p.lastContent = some (p.popped + before.length)) : p.derefLast = .ok last := by
  have hnot : ¬ p.popped + before.length < p.popped := by omega
  have hindex : p.popped + before.length - p.popped = before.length := by omega
  simp only [derefLast, hlast, hnot, if_false, hindex, hcontents,
    List.getElem?_concat_length]

theorem storeLast_of_last {p : RequestMultipartParser} {before : List RequestContent}
    {last : RequestContent} (hcontents : p.contentData = before ++ [last])
    (hlast : p.lastContent = some (p.popped + before.length)) (content : RequestContent) :
    p.storeLast content = { p with contentData := before ++ [content] } := by
  have hindex : p.popped + before.length - p.popped = before.length := by omega
  simp only [storeLast, hlast, hindex, hcontents]
  simp

/-- Neither boundary, and the first header already read. -/
theorem feedRound_of_neither {p : RequestMultipartParser}
    (hstart : find p.startBoundary p.buffer = none) (hend : find p.endBoundary p.buffer = none)
    (hfirst : p.firstHeaderFound = true) (status : Status) :
    p.feedRound status =
      p.parseBodyWithoutAnyBoundary.map (fun r => (r.1, r.2, false)) := by
  simp only [feedRound, searchBoundary, hstart, hend, hfirst, Bool.true_eq_false, false_and,
    if_false, bind, Except.bind, pure, Except.pure, Except.map]

/-- The start boundary ends an open part. -/
theorem feedRound_of_start_unfinished {p : RequestMultipartParser} {pos : Nat}
    (hstart : find p.startBoundary p.buffer = some pos) (hnot : p.endBoundaryFound = false)
    (hlast : p.lastUnfinished = .ok true) (status : Status) :
    p.feedRound status =
      (p.parseAndFinishContent pos).map (fun r => (r.1, r.2, r.2.isError)) := by
  simp only [feedRound, searchBoundary, hstart, hnot, hlast, Bool.false_eq_true, if_false, if_true,
    bind, Except.bind, pure, Except.pure, Except.map]

/-- The start boundary begins a header. -/
theorem feedRound_of_start_header {p : RequestMultipartParser} {pos : Nat}
    (hstart : find p.startBoundary p.buffer = some pos) (hnot : p.endBoundaryFound = false)
    (hlast : p.lastUnfinished = .ok false) (status : Status) :
    p.feedRound status =
      (p.parseBodyWithHeader pos).map (fun r => (r.1, r.2, false)) := by
  simp only [feedRound, searchBoundary, hstart, hnot, hlast, Bool.false_eq_true, if_false,
    bind, Except.bind, pure, Except.pure, Except.map]

/-- A header that is complete when its part has to be created. -/
theorem parseBodyWithHeader_of_push {p : RequestMultipartParser} (pos headerEnd : Nat)
    (hend : find (crlf ++ crlf) p.buffer = some headerEnd)
    (hpush : p.updateLastContent = { p with
      contentData := p.contentData ++ [{}]
      lastContent := some (p.popped + p.contentData.length) }) :
    p.parseBodyWithHeader pos =
      .ok ({ p with
        contentData := p.contentData ++
          [(parseBodyHeader p.buffer pos p.startBoundary.length {}).2]
        lastContent := some (p.popped + p.contentData.length)
        buffer := p.buffer.drop (headerEnd + 4)
        firstHeaderFound := true },
      (parseBodyHeader p.buffer pos p.startBoundary.length {}).1) := by
  simp only [parseBodyWithHeader, hend, hpush]
  rw [derefLast_of_last (p := { p with
    contentData := p.contentData ++ [{}]
    lastContent := some (p.popped + p.contentData.length) }) rfl rfl]
  simp only [bind, Except.bind, pure, Except.pure]
  rw [storeLast_of_last (p := { p with
    contentData := p.contentData ++ [{}]
    lastContent := some (p.popped + p.contentData.length) }) rfl rfl]

theorem feedRound_of_end {p : RequestMultipartParser} {before : List RequestContent}
    {last : RequestContent} {pos : Nat} (hstart : find p.startBoundary p.buffer = none)
    (hend : find p.endBoundary p.buffer = some pos)
    (hcontents : p.contentData = before ++ [last])
    (hlast : p.lastContent = some (p.popped + before.length)) (status : Status) :
    p.feedRound status =
      .ok ({ p with
        contentData := before ++
          [{ last with data := last.data ++ p.buffer.take pos, isFinished := true }]
        endBoundaryFound := true
        buffer := []
        finished := true }, status, true) := by
  simp only [feedRound, searchBoundary, hstart, hend, if_true]
  rw [derefLast_of_last (p := { p with endBoundaryFound := true }) hcontents hlast]
  simp only [bind, Except.bind, pure, Except.pure]
  rw [storeLast_of_last (p := { p with endBoundaryFound := true }) hcontents hlast]

theorem parseAndFinishContent_of_last {p : RequestMultipartParser}
    {before : List RequestContent} {last : RequestContent} {pos : Nat}
    (hcontents : p.contentData = before ++ [last])
    (hlast : p.lastContent = some (p.popped + before.length)) :
    p.parseAndFinishContent pos =
      if pos < 2 then .error .outOfBounds
      else if ¬ (charAt p.buffer (pos - 2) = 13 ∧ charAt p.buffer (pos - 1) = 10) then
        .ok (p, .badRequest)
      else
        .ok ({ p with
          contentData := before ++
            [{ last with data := last.data ++ p.buffer.take (pos - 2), isFinished := true }]
          buffer := p.buffer.drop pos }, .ok) := by
  simp only [parseAndFinishContent, derefLast_of_last hcontents hlast,
    storeLast_of_last hcontents hlast, bind, Except.bind, pure, Except.pure]
  rfl

theorem parseBodyWithoutAnyBoundary_of_last {p : RequestMultipartParser}
    {before : List RequestContent} {last : RequestContent}
    (hcontents : p.contentData = before ++ [last])
    (hlast : p.lastContent = some (p.popped + before.length)) :
    p.parseBodyWithoutAnyBoundary =
      if p.endBoundary.length > p.buffer.length then .ok (p, .dataIsNotReady)
      else
        .ok ({ p with
          contentData := before ++ [{ last with
            data := last.data ++ p.buffer.take (p.buffer.length - p.endBoundary.length) }]
          buffer := p.buffer.drop (p.buffer.length - p.endBoundary.length) }, .dataIsNotReady) := by
  simp only [parseBodyWithoutAnyBoundary, derefLast_of_last hcontents hlast,
    storeLast_of_last hcontents hlast, bind, Except.bind, pure, Except.pure]

end RequestMultipartParser

@[simp] theorem headerAt_isFinished (boundary buffer : Bytes) (pos : Nat) :
    (headerAt boundary buffer pos).2.isFinished = false := by
  simp only [headerAt, parseBodyHeader]
  split <;> rfl

theorem startBoundary_length_lt (boundary : Bytes) :
    (startBoundary boundary).length + 4 = (endBoundary boundary).length := by
  simp [startBoundary, endBoundary, bytes, crlf]

theorem startBoundary_ne_nil (boundary : Bytes) : startBoundary boundary ≠ [] := by
  simp [startBoundary, bytes, crlf]

theorem endBoundary_ne_nil (boundary : Bytes) : endBoundary boundary ≠ [] := by
  simp [endBoundary, bytes, crlf]

namespace Framer

open RequestMultipartParser

variable (boundary : Bytes) (popped : Nat) (dataSize : Int)

theorem toParser_pointer (f : Framer) {before : List RequestContent} {last : RequestContent}
    (hcontents : f.framing.contents = before ++ [last]) (hfresh : f.framing.isFresh = false) :
    (f.toParser boundary popped dataSize).lastContent = some (popped + before.length) := by
  simp [toParser, hfresh, hcontents]

private theorem header_toParser (f : Framer) (pos : Nat)
    (hkind : f.framing = .fresh ∨ ∃ before last, f.framing = .between before last) :
    (f.toParser boundary popped dataSize).parseBodyWithHeader pos =
      .ok ((f.header boundary pos).1.toParser boundary popped dataSize,
        (f.header boundary pos).2.1) := by
  cases hend : find (crlf ++ crlf) f.buffer with
  | none => simp [parseBodyWithHeader, header, toParser, hend, pure, Except.pure]
  | some headerEnd =>
      have hpush : (f.toParser boundary popped dataSize).updateLastContent =
          { f.toParser boundary popped dataSize with
            contentData := f.framing.contents ++ [{}]
            lastContent := some (popped + f.framing.contents.length) } := by
        rcases hkind with h | ⟨before, last, h⟩ <;>
          simp [toParser, updateLastContent, h]
      have hclosed : f.framing.isClosed = false := by
        rcases hkind with h | ⟨before, last, h⟩ <;> simp [h]
      have hunfinished := headerAt_isFinished boundary f.buffer pos
      rw [parseBodyWithHeader_of_push pos headerEnd hend hpush]
      simp only [header, hend]
      unfold headerAt at hunfinished ⊢
      rcases hheader : parseBodyHeader f.buffer pos (startBoundary boundary).length {} with
        ⟨status, content⟩
      rw [hheader] at hunfinished
      obtain ⟨filename, name, contentType, data, isFileCreated, isFinished⟩ := content
      simp only at hunfinished
      subst hunfinished
      simp [toParser, hclosed, hheader]

private theorem end_toParser {f : Framer} {pos : Nat} {before : List RequestContent}
    {last content : RequestContent} (hstart : find (startBoundary boundary) f.buffer = none)
    (hend : find (endBoundary boundary) f.buffer = some pos)
    (hcontents : f.framing.contents = before ++ [content]) (hfresh : f.framing.isFresh = false)
    (hdata : content = { last with isFinished := content.isFinished }) (status : Status) :
    (f.toParser boundary popped dataSize).feedRound status =
      .ok ((⟨.closed before { last with data := last.data ++ f.buffer.take pos }, []⟩ :
        Framer).toParser boundary popped dataSize, status, true) := by
  rw [feedRound_of_end hstart hend hcontents
    (toParser_pointer boundary popped dataSize f hcontents hfresh)]
  rw [hdata]
  simp [toParser, hcontents, hfresh]

private theorem keepTail_toParser {framing : RequestContent → Framing} {buffer : Bytes}
    {before : List RequestContent} {last : RequestContent} (finished : Bool)
    (hcontents : ∀ content,
      (framing content).contents = before ++ [{ content with isFinished := finished }])
    (hfresh : ∀ content, (framing content).isFresh = false)
    (hclosed : ∀ content, (framing content).isClosed = false)
    (hstart : find (startBoundary boundary) buffer = none)
    (hend : find (endBoundary boundary) buffer = none) (status : Status) :
    ((⟨framing last, buffer⟩ : Framer).toParser boundary popped dataSize).feedRound status =
      .ok ((keepTail boundary framing last buffer).1.toParser boundary popped dataSize,
        (keepTail boundary framing last buffer).2) := by
  have hpointer := toParser_pointer boundary popped dataSize ⟨framing last, buffer⟩
    (hcontents last) (hfresh last)
  have hfirst : ((⟨framing last, buffer⟩ : Framer).toParser boundary popped
      dataSize).firstHeaderFound = true := by
    simp [toParser, hfresh]
  rw [feedRound_of_neither hstart hend hfirst,
    parseBodyWithoutAnyBoundary_of_last (hcontents last) hpointer]
  by_cases hshort : (endBoundary boundary).length > buffer.length
  · simp [toParser, keepTail, hshort, Except.map]
  · simp [toParser, keepTail, hshort, Except.map, hcontents, hfresh, hclosed]

private theorem start_toParser {f : Framer} {pos : Nat}
    (hkind : f.framing = .fresh ∨ ∃ before last, f.framing = .between before last)
    (hstart : find (startBoundary boundary) f.buffer = some pos) (status : Status) :
    (f.toParser boundary popped dataSize).feedRound status =
      .ok ((f.header boundary pos).1.toParser boundary popped dataSize,
        (f.header boundary pos).2) := by
  have hclosed : (f.toParser boundary popped dataSize).endBoundaryFound = false := by
    rcases hkind with h | ⟨before, last, h⟩ <;> simp [toParser, h]
  have hlast : (f.toParser boundary popped dataSize).lastUnfinished = .ok false := by
    rcases hkind with h | ⟨before, last, h⟩
    · simp [lastUnfinished, toParser, h]
    · have hcontents : f.framing.contents = before ++ [{ last with isFinished := true }] := by
        rw [h, contents_between]
      have hpointer := toParser_pointer boundary popped dataSize f hcontents (by simp [h])
      rw [lastUnfinished, derefLast_of_last hcontents hpointer, hpointer]
      rfl
  have hleave : ((f.header boundary pos).2.1, false) = (f.header boundary pos).2 := by
    unfold header
    split <;> rfl
  rw [feedRound_of_start_header hstart hclosed hlast,
    header_toParser boundary popped dataSize f pos hkind, ← hleave]
  rfl

/-- One round of the parser is one round of the machine. -/
theorem round_toParser (f : Framer) (status : Status) (hopen : f.framing.isClosed = false) :
    (f.toParser boundary popped dataSize).feedRound status =
      (f.round boundary status).map
        (fun r => (r.1.toParser boundary popped dataSize, r.2)) := by
  obtain ⟨framing, buffer⟩ := f
  have hS := startBoundary_length_lt boundary
  cases hstart : find (startBoundary boundary) buffer with
  | some pos =>
      cases framing with
      | fresh =>
          rw [start_toParser boundary popped dataSize (Or.inl rfl) hstart]
          simp [round, hstart, Except.map]
      | inPart before current =>
          have hpointer := toParser_pointer boundary popped dataSize ⟨.inPart before current, buffer⟩
            rfl rfl
          have hlast : ((⟨.inPart before current, buffer⟩ : Framer).toParser boundary popped
              dataSize).lastUnfinished = .ok true := by
            rw [lastUnfinished, derefLast_of_last rfl hpointer, hpointer]
            rfl
          rw [feedRound_of_start_unfinished hstart rfl hlast,
            parseAndFinishContent_of_last rfl hpointer]
          simp only [round, hstart]
          by_cases hpos : pos < 2
          · simp [hpos, Except.map]
          · by_cases hline : charAt buffer (pos - 2) = 13 ∧ charAt buffer (pos - 1) = 10
            · simp [hpos, hline, Except.map, toParser]
            · simp only [toParser, hpos, hline, not_false_eq_true, if_true, if_false, Except.map]
              rfl
      | between before last =>
          rw [start_toParser boundary popped dataSize (Or.inr ⟨before, last, rfl⟩) hstart]
          simp [round, hstart, Except.map]
      | closed before last => cases hopen
  | none =>
      cases hend : find (endBoundary boundary) buffer with
      | some pos =>
          cases framing with
          | fresh =>
              simp [feedRound, searchBoundary, round, toParser, hstart, hend, derefLast, bind,
                Except.bind, Except.map]
          | inPart before last =>
              rw [end_toParser boundary popped dataSize hstart hend rfl rfl rfl]
              simp [round, hstart, hend, Except.map]
          | between before last =>
              rw [end_toParser boundary popped dataSize hstart hend rfl rfl rfl]
              simp [round, hstart, hend, Except.map]
          | closed before last => cases hopen
      | none =>
          cases framing with
          | fresh =>
              by_cases hlong : buffer.length ≥ (startBoundary boundary).length
              · simp [feedRound, searchBoundary, round, toParser, hstart, hend, hlong, Except.map,
                  pure, Except.pure]
              · have hshort : (endBoundary boundary).length > buffer.length := by omega
                simp [feedRound, searchBoundary, round, toParser, hstart, hend, hlong, hshort,
                  parseBodyWithoutAnyBoundary, bind, Except.bind, Except.map, pure, Except.pure]
          | inPart before current =>
              rw [keepTail_toParser boundary popped dataSize false (fun _ => rfl) (fun _ => rfl)
                (fun _ => rfl) hstart hend]
              simp [round, hstart, hend, Except.map]
          | between before last =>
              rw [keepTail_toParser boundary popped dataSize true (fun _ => rfl) (fun _ => rfl)
                (fun _ => rfl) hstart hend]
              simp [round, hstart, hend, Except.map]
          | closed before last => cases hopen

/-- What a round that comes to its end has done. -/
inductive RoundResult (f : Framer) (status : Status) : Framer × Status × Bool → Prop
  | waits : RoundResult f status (f, .dataIsNotReady, false)
  | refused : RoundResult f status (f, .badRequest, true)
  | header (pos headerEnd : Nat) : find (crlf ++ crlf) f.buffer = some headerEnd →
      RoundResult f status
        (⟨.inPart f.framing.contents (headerAt boundary f.buffer pos).2,
          f.buffer.drop (headerEnd + 4)⟩, (headerAt boundary f.buffer pos).1, false)
  | next (before : List RequestContent) (last : RequestContent) (pos : Nat) :
      find (startBoundary boundary) f.buffer = some pos → 2 ≤ pos →
      RoundResult f status (⟨.between before last, f.buffer.drop pos⟩, .ok, false)
  | keeps (framing : RequestContent → Framing) (last : RequestContent) :
      (∀ content, (framing content).isClosed = f.framing.isClosed) →
      (∀ content, (framing content).isFresh = false) →
      RoundResult f status (keepTail boundary framing last f.buffer)
  | ends (before : List RequestContent) (last : RequestContent) (pos : Nat) :
      find (startBoundary boundary) f.buffer = none →
      find (endBoundary boundary) f.buffer = some pos →
      RoundResult f status (⟨.closed before last, []⟩, status, true)

private theorem header_result (f : Framer) (status : Status) (pos : Nat) :
    RoundResult boundary f status (f.header boundary pos) := by
  unfold header
  cases hend : find (crlf ++ crlf) f.buffer with
  | none => exact .waits
  | some headerEnd => exact .header pos headerEnd hend

theorem round_result {f : Framer} {status : Status} {r : Framer × Status × Bool}
    (hround : f.round boundary status = .ok r) : RoundResult boundary f status r := by
  unfold round at hround
  cases hstart : find (startBoundary boundary) f.buffer with
  | some pos =>
      simp only [hstart] at hround
      cases hframing : f.framing with
      | inPart before current =>
          simp only [hframing] at hround
          split at hround
          · cases hround
          · rename_i hpos
            split at hround
            · cases hround
              exact .refused
            · cases hround
              exact .next before _ pos hstart (by omega)
      | fresh | between | closed =>
          simp only [hframing, Except.ok.injEq] at hround
          rw [← hround]
          exact header_result boundary f status pos
  | none =>
      simp only [hstart] at hround
      cases hend : find (endBoundary boundary) f.buffer with
      | some pos =>
          simp only [hend] at hround
          cases hframing : f.framing with
          | fresh => simp [hframing] at hround
          | inPart before last | between before last | closed before last =>
              simp only [hframing, Except.ok.injEq] at hround
              rw [← hround]
              exact .ends before _ pos hstart hend
      | none =>
          simp only [hend] at hround
          cases hframing : f.framing with
          | fresh =>
              simp only [hframing] at hround
              split at hround
              · cases hround
                exact .refused
              · cases hround
                exact .waits
          | inPart before last | between before last | closed before last =>
              simp only [hframing, Except.ok.injEq] at hround
              rw [← hround]
              exact .keeps _ last (by simp [hframing]) (by simp)

theorem keepTail_status (framing : RequestContent → Framing) (last : RequestContent)
    (buffer : Bytes) : (keepTail boundary framing last buffer).2 = (.dataIsNotReady, false) := by
  unfold keepTail
  split <;> rfl

theorem keepTail_isClosed {framing : RequestContent → Framing} {closed : Bool}
    (h : ∀ content, (framing content).isClosed = closed) (last : RequestContent)
    (buffer : Bytes) :
    (keepTail boundary framing last buffer).1.framing.isClosed = closed := by
  unfold keepTail
  split <;> exact h _

theorem keepTail_isFresh {framing : RequestContent → Framing}
    (h : ∀ content, (framing content).isFresh = false) (last : RequestContent) (buffer : Bytes) :
    (keepTail boundary framing last buffer).1.framing.isFresh = false := by
  unfold keepTail
  split <;> exact h _

/-- A round after which `feed` goes on has used up bytes of the buffer. -/
theorem round_shrinks {f next : Framer} {status status' : Status}
    (hround : f.round boundary status = .ok (next, status', false))
    (hgoes : next.goesOn boundary status') : next.buffer.length < f.buffer.length := by
  obtain ⟨_, _, hready⟩ := hgoes
  generalize hr : (next, status', false) = r at hround
  cases round_result boundary hround with
  | waits =>
      cases hr
      exact absurd rfl hready
  | refused => cases hr
  | header pos headerEnd hend =>
      cases hr
      have hle := find_add_length_le hend
      have hlen : (crlf ++ crlf).length = 4 := rfl
      rw [List.length_drop]
      omega
  | next before last pos hstart hpos =>
      cases hr
      have hle := find_add_length_le hstart
      have hne := List.length_pos_iff.mpr (startBoundary_ne_nil boundary)
      rw [List.length_drop]
      omega
  | keeps framing last _ _ =>
      have hstatus := keepTail_status boundary framing last f.buffer
      rw [← hr] at hstatus
      exact absurd (congrArg Prod.fst hstatus) hready
  | ends => cases hr

/-- One round, and what does the same as the loop on the shorter buffers behind it. -/
private theorem loop_round (n : Nat) (f : Framer) (status : Status)
    (later : Framer → Status → Except Fault (Framer × Status))
    (hlater : ∀ next status', next.buffer.length < f.buffer.length →
      loop boundary n next status' = later next status') :
    loop boundary (n + 1) f status =
      (f.round boundary status).bind (fun r =>
        if r.2.2 then .ok (r.1, r.2.1)
        else if r.1.goesOn boundary r.2.1 then later r.1 r.2.1
        else .ok (r.1, r.2.1)) := by
  rw [loop]
  cases hround : f.round boundary status with
  | error fault => rfl
  | ok r =>
      obtain ⟨next, status', leave⟩ := r
      simp only [Except.bind]
      cases leave with
      | true => rfl
      | false =>
          by_cases hgoes : next.goesOn boundary status'
          · simp only [Bool.false_eq_true, if_false, hgoes, if_true]
            exact hlater next status' (round_shrinks boundary hround hgoes)
          · simp only [Bool.false_eq_true, if_false, hgoes]

/-- Any number of rounds above the length of the buffer is enough. -/
theorem loop_congr (n m : Nat) (f : Framer) (status : Status) (hn : f.buffer.length < n)
    (hm : f.buffer.length < m) : loop boundary n f status = loop boundary m f status := by
  induction n generalizing m f status with
  | zero => omega
  | succ n ih =>
      obtain ⟨m, rfl⟩ : ∃ k, m = k + 1 := ⟨m - 1, by omega⟩
      rw [loop_round boundary m f status (loop boundary m) fun _ _ _ => rfl]
      apply loop_round
      intro next status' hlt
      exact ih m next status' (by omega) (by omega)

/-- The rounds of a `feed`, one by one. -/
theorem run_eq (f : Framer) (status : Status) :
    run boundary f status =
      (f.round boundary status).bind (fun r =>
        if r.2.2 then .ok (r.1, r.2.1)
        else if r.1.goesOn boundary r.2.1 then run boundary r.1 r.2.1
        else .ok (r.1, r.2.1)) := by
  apply loop_round
  intro next status' hlt
  exact loop_congr boundary _ _ next status' hlt (Nat.lt_succ_self _)

/-- A round that does not end the loop leaves the machine open. -/
theorem round_open {f next : Framer} {status status' : Status}
    (hopen : f.framing.isClosed = false)
    (hround : f.round boundary status = .ok (next, status', false)) :
    next.framing.isClosed = false := by
  generalize hr : (next, status', false) = r at hround
  cases round_result boundary hround with
  | waits =>
      cases hr
      exact hopen
  | refused => cases hr
  | header | next =>
      cases hr
      rfl
  | keeps framing last hclosed _ =>
      have hnext := keepTail_isClosed boundary hclosed last f.buffer
      rw [← hr, hopen] at hnext
      exact hnext
  | ends => cases hr

/-- What every round keeps, the loop keeps. -/
theorem loop_preserves {P : Framer → Prop}
    (hstep : ∀ {f status r}, P f → f.round boundary status = .ok r → P r.1) (n : Nat)
    {f : Framer} {status : Status} {r : Framer × Status} (hf : P f)
    (hloop : loop boundary n f status = .ok r) : P r.1 := by
  induction n generalizing f status with
  | zero => cases hloop
  | succ n ih =>
      simp only [loop] at hloop
      cases hround : f.round boundary status with
      | error fault =>
          rw [hround] at hloop
          cases hloop
      | ok r' =>
          obtain ⟨next, status', leave⟩ := r'
          have hnext : P next := hstep hf hround
          rw [hround] at hloop
          simp only [Except.bind] at hloop
          split at hloop
          · rw [← Except.ok.inj hloop]
            exact hnext
          · split at hloop
            · exact ih hnext hloop
            · rw [← Except.ok.inj hloop]
              exact hnext

theorem loop_toParser (n : Nat) (f : Framer) (status : Status)
    (hopen : f.framing.isClosed = false) :
    feedLoop n (f.toParser boundary popped dataSize) status =
      (loop boundary n f status).map
        (fun r => (r.1.toParser boundary popped dataSize, r.2)) := by
  induction n generalizing f status with
  | zero => rfl
  | succ n ih =>
      simp only [feedLoop, loop, round_toParser boundary popped dataSize f status hopen]
      cases hround : f.round boundary status with
      | error fault => rfl
      | ok r =>
          obtain ⟨next, status', leave⟩ := r
          simp only [Except.map, bind, Except.bind, pure, Except.pure]
          cases leave with
          | true => rfl
          | false =>
              have hopen' := round_open boundary hopen hround
              simp only [Bool.false_eq_true, if_false]
              by_cases hgoes : next.goesOn boundary status'
              · rw [if_pos hgoes]
                apply (if_pos hgoes).trans
                exact ih next status' hopen'
              · rw [if_neg hgoes]
                exact if_neg hgoes

/-- One `feed` of the parser is one `feed` of the machine. -/
theorem feed_toParser (f : Framer) (content : Bytes) :
    (f.toParser boundary popped dataSize).feed content 0 =
      (f.feed boundary content).map (fun r => (r.1.toParser boundary popped
        (if f.framing.isClosed then dataSize else addDataSize dataSize content.length), r.2)) := by
  unfold RequestMultipartParser.feed Framer.feed
  cases hclosed : f.framing.isClosed with
  | true =>
      have hfinished : (f.toParser boundary popped dataSize).finished = true := hclosed
      simp [hfinished, Except.map]
  | false =>
      have hfinished : (f.toParser boundary popped dataSize).finished = false := hclosed
      have hloop := loop_toParser boundary popped (addDataSize dataSize content.length)
        ((f.buffer ++ content).length + 1) ⟨f.framing, f.buffer ++ content⟩ .ok hclosed
      simp only [hfinished, Bool.false_eq_true, if_false, Nat.not_lt_zero, Nat.sub_zero,
        List.drop_zero]
      simp only [toParser, hclosed] at hloop ⊢
      exact hloop

private theorem round_not_fresh {f : Framer} {status : Status} {r : Framer × Status × Bool}
    (hf : f.framing.isFresh = false) (hround : f.round boundary status = .ok r) :
    r.1.framing.isFresh = false := by
  cases round_result boundary hround with
  | waits | refused => exact hf
  | header | next | ends => rfl
  | keeps framing last _ hfresh => exact keepTail_isFresh boundary hfresh last f.buffer

/-- The first header is found once. -/
theorem feed_not_fresh {f : Framer} {content : Bytes} {r : Framer × Status}
    (hf : f.framing.isFresh = false) (hfeed : f.feed boundary content = .ok r) :
    r.1.framing.isFresh = false := by
  unfold feed at hfeed
  split at hfeed
  · rw [← Except.ok.inj hfeed]
    exact hf
  · exact loop_preserves boundary (P := fun g => g.framing.isFresh = false)
      (round_not_fresh boundary) _ (f := ⟨f.framing, f.buffer ++ content⟩) hf hfeed

theorem init_eq_toParser : RequestMultipartParser.init boundary =
    (⟨.fresh, []⟩ : Framer).toParser boundary 0 0 := rfl

end Framer

end FortyTwo.Webserv
