import FortyTwo.Webserv.CGIResponseParser
import FortyTwo.Webserv.HeaderFields

/-!
Where the parser of CGI responses cuts between header and body. It skips every
line end that it finds behind a line, those that begin the body included.
-/

namespace FortyTwo.Webserv

open Foundation

/-- A line of a CGI header. Its name ends at the first `: `. -/
structure CgiLine where
  name : Bytes
  value : Bytes
  name_ends : find (bytes ": ") name = none
  name_line : NoLineEnd name
  value_line : NoLineEnd value

namespace CgiLine

def text (l : CgiLine) : Bytes := l.name ++ bytes ": " ++ l.value

/-- The name in any case, and the value without the blanks in front of it. -/
def field (l : CgiLine) : VisitedField := ⟨l.name.map toLower, l.value.dropWhile (· == 32)⟩

/-- The field as it is read. -/
def fieldRead (l : CgiLine) : VisitedField :=
  ⟨l.name.map toLower, l.value.dropWhile (fun c => (bytes ": ").contains c)⟩

/-- Every text with a `: ` in it that keeps to a line is one. -/
theorem exists_of_text {line : Bytes} (hline : NoLineEnd line) {k : Nat}
    (hfind : find (bytes ": ") line = some k) : ∃ l : CgiLine, l.text = line := by
  obtain ⟨value, hvalue⟩ := prefix_of_find hfind
  have hsplit : line = line.take k ++ (bytes ": " ++ value) := by
    rw [hvalue, List.take_append_drop]
  have hname : find (bytes ": ") (line.take k) = none := by
    rw [find_take_eq_none_iff (by simp [bytes])]
    intro j hj
    rw [hfind] at hj
    cases hj
    simp [bytes]
  have hpart {part : Bytes} (hsub : part ⊆ line) : NoLineEnd part :=
    ⟨fun hmem => hline.1 (hsub hmem), fun hmem => hline.2 (hsub hmem)⟩
  refine ⟨⟨line.take k, value, hname, hpart (List.take_subset k line), hpart ?_⟩, ?_⟩
  · rw [hsplit]
    simp
  · rw [text, List.append_assoc, ← hsplit]

private theorem text_no_cr (l : CgiLine) : (13 : UInt8) ∉ l.text := by
  rw [text, List.mem_append, List.mem_append, not_or, not_or]
  exact ⟨⟨l.name_line.1, by decide⟩, l.value_line.1⟩

private theorem text_head (l : CgiLine) :
    ∃ c rest, l.text = c :: rest ∧ crlf.contains c = false := by
  cases hname : l.name with
  | nil => exact ⟨byteOf ':', byteOf ' ' :: l.value, by rw [text, hname]; rfl, by decide⟩
  | cons c rest =>
      have hmem : c ∈ l.name := by simp [hname]
      have hcr : c ≠ 13 := fun h => l.name_line.1 (h ▸ hmem)
      have hlf : c ≠ 10 := fun h => l.name_line.2 (h ▸ hmem)
      refine ⟨c, rest ++ bytes ": " ++ l.value, by rw [text, hname]; rfl, ?_⟩
      simp [crlf, hcr, hlf]

end CgiLine

/-- What a program writes. -/
def headerText (lines : List CgiLine) : Bytes := crlf.intercalate (lines.map CgiLine.text)

def outputText (lines : List CgiLine) (body : Bytes) : Bytes :=
  headerText lines ++ (crlf ++ (crlf ++ body))

private theorem headerText_cons_cons (l m : CgiLine) (lines : List CgiLine) :
    headerText (l :: m :: lines) = l.text ++ (crlf ++ headerText (m :: lines)) := by
  rw [headerText, List.map_cons, List.map_cons, List.intercalate_cons_cons, List.append_assoc]
  rfl

private theorem headerText_singleton (l : CgiLine) : headerText [l] = l.text := by
  rw [headerText, List.map_singleton, List.intercalate_singleton]

private theorem headerText_head (l : CgiLine) (lines : List CgiLine) :
    ∃ c rest, headerText (l :: lines) = c :: rest ∧ crlf.contains c = false := by
  obtain ⟨c, rest, htext, hc⟩ := l.text_head
  cases lines with
  | nil => exact ⟨c, rest, by rw [headerText_singleton, htext], hc⟩
  | cons m lines => exact ⟨c, _, by rw [headerText_cons_cons, htext]; rfl, hc⟩

/-- The blank line is found behind the last line. -/
private theorem find_headerText (lines : List CgiLine) : ∀ (l : CgiLine) (body : Bytes),
    find (crlf ++ crlf) (outputText (l :: lines) body) =
      some (headerText (l :: lines)).length := by
  induction lines with
  | nil =>
      intro l body
      rw [outputText, headerText_singleton]
      exact find_blank l.text_no_cr body
  | cons m lines ih =>
      intro l body
      have hm := ih m body
      obtain ⟨c, rest, htext, hc⟩ := headerText_head m lines
      have hhead : (outputText (m :: lines) body).head? ≠ some 13 := by
        rw [outputText, htext]
        intro hcr
        cases hcr
        cases hc
      have hsplit : outputText (l :: m :: lines) body =
          l.text ++ (crlf ++ outputText (m :: lines) body) := by
        rw [outputText, outputText, headerText_cons_cons, List.append_assoc, List.append_assoc]
      rw [hsplit, find_blank_of_line l.text_no_cr hhead, hm, headerText_cons_cons, Option.map_some]
      simp only [List.length_append, crlf, List.length_cons, List.length_nil]
      congr 1
      omega

/-- What the parsers of the fields make of a request, one after the other, and
nothing if one of them refuses its value. -/
def applyFields : List VisitedField → Request → Except Fault (Option Request)
  | [], request => .ok (some request)
  | field :: rest, request => do
      let (status, request) ← CGIResponseParser.parseField field request
      if status.isError then pure none else applyFields rest request

/-- What is left of the output behind the header. -/
def bodyRead (body : Bytes) : Bytes := behindLineEnds (crlf ++ body)

section Loop

variable {buffer : Bytes} {pos : Nat}

/-- What the loop over the fields has come to. -/
private def reached (r : Nat × Status × Request) : Option (Nat × Request) :=
  if r.2.1.isError then none else some (r.1, r.2.2)

private theorem readField_line {l : CgiLine} {rest : Bytes}
    (hdrop : buffer.drop pos = l.text ++ (crlf ++ rest)) :
    readField buffer pos = (l.fieldRead, buffer.length - (behindLineEnds rest).length) := by
  have hpos : pos ≤ buffer.length := by
    by_contra hlt
    rw [List.drop_eq_nil_of_le (by omega)] at hdrop
    have hlength := congrArg List.length hdrop
    simp [crlf] at hlength
  have hnext := nextField_line l.name_ends l.value_line.1 rest
  rw [← List.append_assoc] at hnext
  rw [readField_eq hpos, hdrop, CgiLine.text, hnext]
  rfl

/-- A round whose field is not refused goes on behind its line. -/
private theorem headerLoop_line {l : CgiLine} {rest : Bytes}
    (hdrop : buffer.drop pos = l.text ++ (crlf ++ rest)) (headerEnd fuel : Nat)
    (request : Request) (fields : List VisitedField) {f : Request → Nat × Request}
    (hnext : ∀ request',
      (if buffer.length - (behindLineEnds rest).length < headerEnd then
          CGIResponseParser.headerLoop buffer headerEnd fuel
            (buffer.length - (behindLineEnds rest).length) request'
        else .ok (buffer.length - (behindLineEnds rest).length, .ok, request')).map reached =
      (applyFields fields request').map (Option.map f)) :
    (CGIResponseParser.headerLoop buffer headerEnd (fuel + 1) pos request).map reached =
      (applyFields (l.fieldRead :: fields) request).map (Option.map f) := by
  rw [CGIResponseParser.headerLoop, readField_line hdrop, applyFields]
  simp only [bind, Except.bind]
  cases CGIResponseParser.parseField l.fieldRead request with
  | error fault => rfl
  | ok r =>
      obtain ⟨status, request'⟩ := r
      cases hstatus : status.isError with
      | true =>
          simp only [hstatus, if_true]
          simp only [pure, Except.pure, Except.map, reached, hstatus, if_true, Option.map_none]
      | false =>
          simp only [hstatus, Bool.false_eq_true, if_false]
          exact hnext request'

private theorem headerLoop_lines (lines : List CgiLine) (body : Bytes) :
    ∀ (l : CgiLine) (fuel pos : Nat) (request : Request),
      buffer.drop pos = outputText (l :: lines) body → lines.length < fuel →
      (CGIResponseParser.headerLoop buffer (pos + (headerText (l :: lines)).length) fuel pos
          request).map reached =
        (applyFields ((l :: lines).map CgiLine.fieldRead) request).map
          (Option.map fun r => (buffer.length - (bodyRead body).length, r)) := by
  induction lines with
  | nil =>
      intro l fuel pos request hdrop hfuel
      obtain ⟨fuel, rfl⟩ : ∃ n, fuel = n + 1 := ⟨fuel - 1, by omega⟩
      rw [outputText, headerText_singleton] at hdrop
      apply headerLoop_line hdrop _ fuel request []
      intro request'
      have hlength := congrArg List.length hdrop
      have hbehind := behindLineEnds_length (crlf ++ body)
      rw [List.length_drop, List.length_append, List.length_append] at hlength
      rw [headerText_singleton, if_neg]
      · rfl
      · have htwo : crlf.length = 2 := rfl
        omega
  | cons m lines ih =>
      intro l fuel pos request hdrop hfuel
      rw [List.length_cons] at hfuel
      obtain ⟨fuel, rfl⟩ : ∃ n, fuel = n + 1 := ⟨fuel - 1, by omega⟩
      rw [outputText, headerText_cons_cons, List.append_assoc, List.append_assoc,
        ← outputText] at hdrop
      apply headerLoop_line hdrop _ fuel request _
      intro request'
      obtain ⟨c, rest, htext, hc⟩ := headerText_head m lines
      have hbehind : behindLineEnds (outputText (m :: lines) body) =
          outputText (m :: lines) body := by
        rw [behindLineEnds, outputText, htext, List.cons_append,
          List.dropWhile_cons_of_neg (by simpa using hc), if_neg (List.cons_ne_nil _ _)]
      have hlength := congrArg List.length hdrop
      rw [List.length_drop, List.length_append, List.length_append] at hlength
      have htwo : crlf.length = 2 := rfl
      have hpos : buffer.length - (outputText (m :: lines) body).length =
          pos + (l.text ++ crlf).length := by
        rw [List.length_append]
        omega
      have hend : pos + (headerText (l :: m :: lines)).length =
          pos + (l.text ++ crlf).length + (headerText (m :: lines)).length := by
        rw [headerText_cons_cons, ← List.append_assoc, List.length_append, Nat.add_assoc]
      have hshown : 0 < (headerText (m :: lines)).length := by simp [htext]
      have hbuffer : buffer.drop (pos + (l.text ++ crlf).length) =
          outputText (m :: lines) body := by
        rw [← List.drop_drop, hdrop, ← List.append_assoc, List.drop_left]
      rw [hbehind, hpos, hend, if_pos (by omega)]
      exact ih m fuel _ request' hbuffer (by omega)

end Loop

/-- The record that `parse` leaves, unless it refuses the output. -/
def accepted (r : CGIResponseParser × Request × Status) : Option Request :=
  if r.2.2.isError then none else some r.2.1

/-- The request with the bytes of a response behind those that it has. -/
def withBody (body : Bytes) (request : Request) : Request :=
  let content := request.contentData.headD {}
  { request with
    contentData := { content with data := content.data ++ body } :: request.contentData.tail }

private theorem bodyRead_suffix (body : Bytes) : bodyRead body <:+ crlf ++ (crlf ++ body) := by
  rw [bodyRead, behindLineEnds]
  split
  · exact List.suffix_refl _
  · exact (List.dropWhile_suffix _).trans (List.suffix_append _ _)

private theorem drop_bodyRead (lines : List CgiLine) (body : Bytes) :
    (outputText lines body).drop ((outputText lines body).length - (bodyRead body).length) =
      bodyRead body := by
  obtain ⟨front, hfront⟩ := (bodyRead_suffix body).trans (List.suffix_append (headerText lines) _)
  rw [outputText, ← hfront, List.length_append, Nat.add_sub_cancel, List.drop_left]

private theorem length_lt_headerText (lines : List CgiLine) : ∀ l : CgiLine,
    lines.length < (headerText (l :: lines)).length := by
  induction lines with
  | nil =>
      intro l
      obtain ⟨c, rest, htext, _⟩ := headerText_head l []
      simp [htext]
  | cons m lines ih =>
      intro l
      have hm := ih m
      rw [headerText_cons_cons, List.length_append, List.length_append, List.length_cons]
      simp only [crlf, List.length_cons, List.length_nil]
      omega

/-- What the parser makes of the whole output. -/
theorem parse_outputText (l : CgiLine) (lines : List CgiLine) (body : Bytes) (request : Request) :
    (CGIResponseParser.parse {} (outputText (l :: lines) body) request).map accepted =
      (applyFields ((l :: lines).map CgiLine.fieldRead) request).map
        (Option.map (withBody (bodyRead body))) := by
  have hcount : lines.length < (outputText (l :: lines) body).length + 1 := by
    have hlines := length_lt_headerText lines l
    rw [outputText, List.length_append]
    omega
  have hloop := headerLoop_lines lines body l _ 0 request
    (List.drop_zero : (outputText (l :: lines) body).drop 0 = _) hcount
  have happly : (applyFields ((l :: lines).map CgiLine.fieldRead) request).map
      (Option.map (withBody (bodyRead body))) =
        ((applyFields ((l :: lines).map CgiLine.fieldRead) request).map (Option.map fun r =>
          ((outputText (l :: lines) body).length - (bodyRead body).length, r))).map
            (Option.map fun r => withBody ((outputText (l :: lines) body).drop r.1) r.2) := by
    cases applyFields ((l :: lines).map CgiLine.fieldRead) request with
    | error fault => rfl
    | ok applied =>
        cases applied with
        | none => rfl
        | some r => simp only [Except.map, Option.map_some, drop_bodyRead]
  rw [happly, ← hloop, Nat.zero_add]
  simp only [CGIResponseParser.parse, List.nil_append, Bool.false_eq_true, if_false,
    CGIResponseParser.parseHeader, find_headerText, bind, Except.bind]
  cases CGIResponseParser.headerLoop (outputText (l :: lines) body)
      (headerText (l :: lines)).length ((outputText (l :: lines) body).length + 1) 0 request with
  | error fault => rfl
  | ok r =>
      obtain ⟨pos, status, request'⟩ := r
      cases hstatus : status.isError with
      | true => simp [hstatus, accepted, reached, pure, Except.pure, Except.map]
      | false =>
          simp [hstatus, accepted, reached, pure, Except.pure, Except.map,
            CGIResponseParser.parseBody, withBody]

/-- A body that nothing is taken from. -/
def Shows (body : Bytes) : Prop := ∃ c rest, body = c :: rest ∧ c ≠ 13 ∧ c ≠ 10

private theorem bodyRead_eq_iff (body : Bytes) : bodyRead body = body ↔ Shows body := by
  have hskip : (crlf ++ body).dropWhile (fun c => crlf.contains c) =
      body.dropWhile (fun c => crlf.contains c) :=
    List.dropWhile_append_of_pos fun d hd => by simpa using hd
  have hin (c : UInt8) : crlf.contains c = true ↔ c = 13 ∨ c = 10 := by simp [crlf]
  rw [bodyRead, behindLineEnds, hskip]
  constructor
  · intro h
    split at h
    · have hlength := congrArg List.length h
      simp [crlf] at hlength
      omega
    · rename_i hshown
      cases body with
      | nil => exact absurd rfl hshown
      | cons c rest =>
          refine ⟨c, rest, rfl, ?_⟩
          by_contra hend
          have hc : crlf.contains c = true := by
            rw [hin]
            by_contra hnot
            exact hend ⟨fun h => hnot (Or.inl h), fun h => hnot (Or.inr h)⟩
          rw [List.dropWhile_cons_of_pos hc] at h
          have hle := (List.dropWhile_suffix (fun c => crlf.contains c) (l := rest)).length_le
          rw [h, List.length_cons] at hle
          omega
  · rintro ⟨c, rest, rfl, hcr, hlf⟩
    have hc : ¬ crlf.contains c = true := by
      rw [hin]
      exact fun h => h.elim hcr hlf
    rw [List.dropWhile_cons_of_neg hc, if_neg (List.cons_ne_nil c rest)]

/-- No field touches the content of a response. -/
private theorem parseField_contentData {field : VisitedField} {request request' : Request}
    {status : Status}
    (h : CGIResponseParser.parseField field request = .ok (status, request')) :
    request'.contentData = request.contentData := by
  rw [CGIResponseParser.parseField] at h
  split at h
  · injection h with h
    simp only [CGIResponseParser.parseStatus] at h
    split at h <;> cases h <;> rfl
  · split at h
    · rw [CGIResponseParser.parseContentType] at h
      split at h
      · cases h
        rfl
      · split at h
        · cases h
          rfl
        · rename_i mediaType pos _
          cases hloop : CGIResponseParser.parametersLoop field.fieldValue
              (field.fieldValue.length + 1) (skipWs field.fieldValue pos) mediaType with
          | error fault =>
              rw [hloop] at h
              cases h
          | ok r =>
              obtain ⟨returned, result⟩ := r
              rw [hloop] at h
              cases returned <;> cases h <;> rfl
    · cases h
      rfl

private theorem applyFields_contentData (fields : List VisitedField) :
    ∀ (request request' : Request), applyFields fields request = .ok (some request') →
      request'.contentData = request.contentData := by
  induction fields with
  | nil =>
      intro request request' h
      cases h
      rfl
  | cons field fields ih =>
      intro request request' h
      rw [applyFields] at h
      cases hfield : CGIResponseParser.parseField field request with
      | error fault =>
          rw [hfield] at h
          cases h
      | ok r =>
          obtain ⟨status, next⟩ := r
          rw [hfield] at h
          simp only [bind, Except.bind] at h
          split at h
          · cases h
          · exact (ih next request' h).trans (parseField_contentData hfield)

private theorem withBody_inj {body body' : Bytes} {request request' : Request}
    (hcontent : request.contentData = request'.contentData)
    (h : withBody body request = withBody body' request') : request = request' ∧ body = body' := by
  constructor
  · have hback (b : Bytes) (r : Request) :
        { withBody b r with contentData := r.contentData } = r := rfl
    rw [← hback body request, ← hback body' request', h, hcontent]
  · have hdata := congrArg (fun r => (r.contentData.headD {}).data) h
    simp only [withBody, List.headD_cons, hcontent] at hdata
    exact List.append_cancel_left hdata

/-- The output is refused exactly when a line of it is, and otherwise the record
has what the lines say and the body as it was written. -/
def SplitsExactly (lines : List CgiLine) (body : Bytes) (request : Request) : Prop :=
  (CGIResponseParser.parse {} (outputText lines body) request).map accepted =
    (applyFields (lines.map CgiLine.field) request).map (Option.map (withBody body))

/-- To the parsers of the fields it makes no difference that the colons in front
of a value are skipped with the blanks. -/
def ColonsHarmless (lines : List CgiLine) (request : Request) : Prop :=
  applyFields (lines.map CgiLine.fieldRead) request =
    applyFields (lines.map CgiLine.field) request

private theorem CgiLine.fieldRead_eq {l : CgiLine}
    (h : (l.value.dropWhile (· == 32)).head? ≠ some (byteOf ':')) : l.fieldRead = l.field := by
  have hvalue : ∀ value : Bytes, (value.dropWhile (· == 32)).head? ≠ some (byteOf ':') →
      value.dropWhile (fun c => (bytes ": ").contains c) = value.dropWhile (· == 32) := by
    intro value
    induction value with
    | nil => exact fun _ => rfl
    | cons c value ih =>
        intro hcolon
        by_cases hblank : c = 32
        · have hskipped : (bytes ": ").contains c = true := by
            rw [hblank]
            decide
          have hws : (c == 32) = true := beq_iff_eq.mpr hblank
          rw [List.dropWhile_cons, if_pos hws] at hcolon
          rw [List.dropWhile_cons, if_pos hskipped, List.dropWhile_cons, if_pos hws, ih hcolon]
        · have hws : ¬ (c == 32) = true := fun h => hblank (beq_iff_eq.mp h)
          rw [List.dropWhile_cons, if_neg hws] at hcolon
          have hkept : ¬ (bytes ": ").contains c = true := by
            intro hmem
            have hcases : c = byteOf ':' ∨ c = 32 := by simpa [bytes, byteOf] using hmem
            rcases hcases with hc | hc
            · exact hcolon (by rw [hc]; rfl)
            · exact hblank hc
          rw [List.dropWhile_cons, if_neg hkept, List.dropWhile_cons, if_neg hws]
  rw [fieldRead, field, hvalue l.value h]

/-- No value of a line that is looked at begins with a colon. -/
theorem colonsHarmless_of_head {lines : List CgiLine}
    (h : ∀ l ∈ lines, l.field.fieldType = bytes "status" ∨
      l.field.fieldType = bytes "content-type" →
      l.field.fieldValue.head? ≠ some (byteOf ':')) (request : Request) :
    ColonsHarmless lines request := by
  have hparse : ∀ l ∈ lines, ∀ request, CGIResponseParser.parseField l.fieldRead request =
      CGIResponseParser.parseField l.field request := by
    intro l hl request
    by_cases hnamed : l.field.fieldType = bytes "status" ∨
        l.field.fieldType = bytes "content-type"
    · rw [CgiLine.fieldRead_eq (h l hl hnamed)]
    · rw [not_or] at hnamed
      have hread : l.fieldRead.fieldType = l.field.fieldType := rfl
      rw [CGIResponseParser.parseField, CGIResponseParser.parseField, hread, if_neg hnamed.1,
        if_neg hnamed.2, if_neg hnamed.1, if_neg hnamed.2]
  rw [ColonsHarmless]
  induction lines generalizing request with
  | nil => rfl
  | cons l lines ih =>
      rw [List.map_cons, List.map_cons, applyFields, applyFields, hparse l (by simp)]
      congr 1
      funext ⟨status, request'⟩
      simp only
      rw [ih (fun m hm => h m (by simp [hm])) request' (fun m hm => hparse m (by simp [hm]))]

/-- Where the output is cut between header and body. -/
theorem splitsExactly_iff {lines : List CgiLine} (hlines : lines ≠ []) (body : Bytes)
    (request : Request) :
    SplitsExactly lines body request ↔ ColonsHarmless lines request ∧
      ((∃ r, applyFields (lines.map CgiLine.field) request = .ok (some r)) → Shows body) := by
  obtain ⟨l, lines, rfl⟩ := List.exists_cons_of_ne_nil hlines
  rw [SplitsExactly, parse_outputText, ColonsHarmless]
  constructor
  · intro h
    cases hread : applyFields ((l :: lines).map CgiLine.fieldRead) request with
    | error fault =>
        rw [hread] at h
        cases hfields : applyFields ((l :: lines).map CgiLine.field) request with
        | error fault' =>
            rw [hfields] at h
            cases h
            exact ⟨rfl, fun ⟨r, hr⟩ => by cases hr⟩
        | ok applied =>
            rw [hfields] at h
            cases h
    | ok read =>
        rw [hread] at h
        cases hfields : applyFields ((l :: lines).map CgiLine.field) request with
        | error fault =>
            rw [hfields] at h
            cases h
        | ok applied =>
            rw [hfields] at h
            injection h with h
            cases read with
            | none =>
                cases applied with
                | none => exact ⟨rfl, fun ⟨r, hr⟩ => by cases hr⟩
                | some r => cases h
            | some r =>
                cases applied with
                | none => cases h
                | some r' =>
                    injection h with h
                    have hcontent := (applyFields_contentData _ request r hread).trans
                      (applyFields_contentData _ request r' hfields).symm
                    obtain ⟨rfl, hbody⟩ := withBody_inj hcontent h
                    exact ⟨rfl, fun _ => (bodyRead_eq_iff body).mp hbody⟩
  · rintro ⟨hharmless, hshows⟩
    rw [hharmless]
    cases hfields : applyFields ((l :: lines).map CgiLine.field) request with
    | error fault => rfl
    | ok applied =>
        cases applied with
        | none => rfl
        | some r => rw [(bodyRead_eq_iff body).mpr (hshows ⟨r, hfields⟩)]

/-- `Content-Type: text/html`. -/
def htmlLine : CgiLine where
  name := bytes "Content-Type"
  value := bytes "text/html"
  name_ends := by decide
  name_line := ⟨by decide, by decide⟩
  value_line := ⟨by decide, by decide⟩

theorem splitsExactly_html :
    SplitsExactly [htmlLine] (bytes "<p>\r\n") cgiContextRequest := by
  refine (splitsExactly_iff (List.cons_ne_nil _ _) _ _).mpr ⟨?_, ?_⟩
  · apply colonsHarmless_of_head
    rw [List.forall_mem_singleton]
    exact fun _ => by decide
  · exact fun _ => ⟨byteOf '<', _, rfl, by decide, by decide⟩

/-- An empty body comes out as two line ends. -/
theorem not_splitsExactly_empty : ¬ SplitsExactly [htmlLine] [] cgiContextRequest := by
  intro h
  have hfields : applyFields [htmlLine.field] cgiContextRequest = .ok (some { cgiContextRequest with
      contentType := { type := bytes "text", subtype := bytes "html" } }) := rfl
  have hread : applyFields [htmlLine.fieldRead] cgiContextRequest =
      .ok (some { cgiContextRequest with
        contentType := { type := bytes "text", subtype := bytes "html" } }) := rfl
  rw [SplitsExactly, parse_outputText, List.map_singleton, List.map_singleton, hfields, hread] at h
  injection h with h
  injection h with h
  have hbody := congrArg (fun r => (r.contentData.headD {}).data) h
  exact absurd hbody (by decide)

end FortyTwo.Webserv
