import FortyTwo.Webserv.MultipartRun

/-!
Whether the way a body is cut into chunks decides its fate. `Regular` walks
over the body once and says when it does not: every cut then ends in the same
verdict.
-/

namespace FortyTwo.Webserv

open Foundation

/-- Whether feeding ended in an error, and `is_finished()` then. -/
structure Verdict where
  error : Bool
  finished : Bool
  deriving DecidableEq, Repr

def Verdict.pending : Verdict := ⟨false, false⟩
def Verdict.complete : Verdict := ⟨false, true⟩
def Verdict.refused : Verdict := ⟨true, false⟩

/-- The verdict on a fresh parser that is fed the chunks up to the first error. -/
def verdict (boundary : Bytes) (chunks : List Bytes) : Except Fault Verdict :=
  ((RequestMultipartParser.init boundary).feedChunks chunks).map (fun r => ⟨r.2, r.1.finished⟩)

/-- The header is refused when `buffer` is what has arrived. -/
def refuses (boundary buffer : Bytes) (pos : Nat) : Bool := (headerAt boundary buffer pos).1.isError

mutual

/-- The bytes after a header, up to the end of the body. -/
inductive PartBody (boundary : Bytes) : Bytes → Verdict → Prop
  /-- No boundary follows. -/
  | quiet (rest : Bytes) : find (startBoundary boundary) rest = none →
      find (endBoundary boundary) rest = none → PartBody boundary rest .pending
  /-- The first end boundary ends the body. -/
  | ended (rest : Bytes) (pos : Nat) : find (startBoundary boundary) rest = none →
      find (endBoundary boundary) rest = some pos →
      pos + (endBoundary boundary).length = rest.length → PartBody boundary rest .complete
  /-- A start boundary in the middle of a line. -/
  | misplaced (rest : Bytes) (pos : Nat) : find (startBoundary boundary) rest = some pos →
      2 ≤ pos → ¬ Framer.lineEndBefore rest pos →
      find (endBoundary boundary)
        (rest.take (pos + (startBoundary boundary).length - 1)) = none →
      PartBody boundary rest .refused
  /-- A start boundary at the beginning of a line, no end boundary before it. -/
  | next (rest : Bytes) (pos : Nat) (v : Verdict) : find (startBoundary boundary) rest = some pos →
      2 ≤ pos → Framer.lineEndBefore rest pos →
      find (endBoundary boundary)
        (rest.take (pos + (startBoundary boundary).length - 1)) = none →
      PartHead boundary 0 (rest.drop pos) v → PartBody boundary rest v

/-- The bytes from the buffer's begin on, the start boundary standing at `pos`. -/
inductive PartHead (boundary : Bytes) : Nat → Bytes → Verdict → Prop
  /-- The header never ends. -/
  | waiting (pos : Nat) (text : Bytes) : find (crlf ++ crlf) text = none →
      PartHead boundary pos text .pending
  /-- The header ends. If it can be refused, for what has come with it, the
  verdict is a refusal; if it is accepted as soon as possible, the rest of the
  body decides; and a rest so short that it may stay unread leaves the parser
  waiting. -/
  | header (pos : Nat) (text : Bytes) (headerEnd : Nat) (v : Verdict) :
      find (crlf ++ crlf) text = some headerEnd →
      (∀ arrived, max (pos + (startBoundary boundary).length) (headerEnd + 4) ≤ arrived →
        arrived ≤ text.length → refuses boundary (text.take arrived) pos = true → v = .refused) →
      (refuses boundary
        (text.take (max (pos + (startBoundary boundary).length) (headerEnd + 4))) pos = false →
        PartBody boundary (text.drop (headerEnd + 4)) v) →
      (refuses boundary text pos = false →
        (text.drop (headerEnd + 4)).length ≤ (endBoundary boundary).length → v = .pending) →
      PartHead boundary pos text v

end

/-- The bodies whose verdict does not depend on the cut, with that verdict. -/
inductive Regular (boundary : Bytes) : Bytes → Verdict → Prop
  | short (body : Bytes) : body.length < (startBoundary boundary).length →
      Regular boundary body .pending
  | parts (body : Bytes) (v : Verdict) : find (startBoundary boundary) body = some 0 →
      PartHead boundary 0 body v → Regular boundary body v
  | nothing (body : Bytes) : (startBoundary boundary).length ≤ body.length →
      find (startBoundary boundary) body = none → find (endBoundary boundary) body = none →
      Regular boundary body .refused
  /-- Bytes before the first start boundary are refused only if its header is. -/
  | preamble (body : Bytes) (pos : Nat) : find (startBoundary boundary) body = some pos →
      0 < pos →
      find (endBoundary boundary)
        (body.take (pos + (startBoundary boundary).length - 1)) = none →
      PartHead boundary pos body .refused → Regular boundary body .refused

namespace Framer

variable {boundary : Bytes}

/-- The verdict of the machine from a state on. -/
def verdict (boundary : Bytes) (f : Framer) (chunks : List Bytes) : Except Fault Verdict :=
  (f.feedChunks boundary chunks).map (fun r => ⟨r.2, r.1.framing.isClosed⟩)

/-- Every cut of the bytes to come ends in the same verdict. -/
def Uniform (boundary : Bytes) (f : Framer) (text : Bytes) (v : Verdict) : Prop :=
  ∀ chunks, IsCut text chunks → f.verdict boundary chunks = .ok v

/-- The result of one feed, when `text` is still to come. -/
def Leads (boundary : Bytes) (result : Except Fault (Framer × Status)) (text : Bytes)
    (v : Verdict) : Prop :=
  ∃ f status, result = .ok (f, status) ∧
    (status.isError = true → v = ⟨true, f.framing.isClosed⟩) ∧
    (status.isError = false → Uniform boundary f text v)

theorem verdict_cons (f : Framer) (chunk : Bytes) (rest : List Bytes) :
    f.verdict boundary (chunk :: rest) = (f.feed boundary chunk).bind (fun r =>
      if r.2.isError then .ok ⟨true, r.1.framing.isClosed⟩ else r.1.verdict boundary rest) := by
  unfold verdict
  simp only [feedChunks]
  cases f.feed boundary chunk with
  | error fault => rfl
  | ok r =>
      simp only [bind, Except.bind]
      cases r.2.isError <;> rfl

theorem uniform_iff (f : Framer) (text : Bytes) (v : Verdict) :
    Uniform boundary f text v ↔
      (text = [] → v = ⟨false, f.framing.isClosed⟩) ∧
      ∀ chunk more, chunk ≠ [] → chunk ++ more = text →
        Leads boundary (f.feed boundary chunk) more v := by
  constructor
  · intro h
    constructor
    · rintro rfl
      have hv := h [] ((isCut_nil_iff []).mpr rfl)
      exact (Except.ok.inj hv).symm
    · rintro chunk more hne rfl
      have hall : ∀ rest, IsCut more rest →
          f.verdict boundary (chunk :: rest) = .ok v := by
        intro rest hrest
        exact h (chunk :: rest) ((isCut_cons_iff _ _ _).mpr ⟨hne, more, rfl, hrest⟩)
      cases hfeed : f.feed boundary chunk with
      | error fault =>
          obtain ⟨rest, hrest⟩ := exists_isCut more
          have hv := hall rest hrest
          rw [verdict_cons, hfeed] at hv
          cases hv
      | ok r =>
          obtain ⟨next, status⟩ := r
          refine ⟨next, status, rfl, ?_, ?_⟩
          · intro herror
            obtain ⟨rest, hrest⟩ := exists_isCut more
            have hv := hall rest hrest
            rw [verdict_cons, hfeed] at hv
            simp only [Except.bind, herror, if_true] at hv
            exact (Except.ok.inj hv).symm
          · intro hok rest hrest
            have hv := hall rest hrest
            rw [verdict_cons, hfeed] at hv
            simpa only [Except.bind, hok, Bool.false_eq_true, if_false] using hv
  · rintro ⟨hnil, hcons⟩ chunks hcut
    cases chunks with
    | nil =>
        have htext : text = [] := hcut.1.symm
        rw [hnil htext]
        rfl
    | cons chunk rest =>
        obtain ⟨hne, more, rfl, hrest⟩ := (isCut_cons_iff _ _ _).mp hcut
        obtain ⟨next, status, hfeed, herror, hok⟩ := hcons chunk more hne rfl
        rw [verdict_cons, hfeed]
        simp only [Except.bind]
        cases hstatus : status.isError with
        | true => simp [herror hstatus]
        | false => simpa using hok hstatus rest hrest

theorem uniform_of_open {f : Framer} {text : Bytes} {v : Verdict}
    (hopen : f.framing.isClosed = false) (hnil : text = [] → v = .pending)
    (hcons : ∀ chunk more, chunk ≠ [] → chunk ++ more = text →
      Leads boundary (run boundary ⟨f.framing, f.buffer ++ chunk⟩ .ok) more v) :
    Uniform boundary f text v := by
  rw [uniform_iff]
  constructor
  · intro htext
    rw [hopen]
    exact hnil htext
  · intro chunk more hne happend
    rw [feed_of_open hopen]
    exact hcons chunk more hne happend

theorem uniform_closed {before : List RequestContent} {last : RequestContent} {buffer : Bytes} :
    Uniform boundary ⟨.closed before last, buffer⟩ [] .complete := by
  rw [uniform_iff]
  refine ⟨fun _ => rfl, ?_⟩
  intro chunk more hne happend
  rw [List.append_eq_nil_iff] at happend
  exact absurd happend.1 hne

theorem leads_error {f : Framer} {status : Status} {text : Bytes}
    (hopen : f.framing.isClosed = false) (herror : status.isError = true) :
    Leads boundary (.ok (f, status)) text .refused := by
  refine ⟨f, status, rfl, ?_, ?_⟩
  · intro _
    rw [hopen]
    rfl
  · intro hok
    rw [herror] at hok
    cases hok

theorem leads_ok {f : Framer} {status : Status} {text : Bytes} {v : Verdict}
    (hstatus : status.isError = false) (h : Uniform boundary f text v) :
    Leads boundary (.ok (f, status)) text v := by
  refine ⟨f, status, rfl, ?_, fun _ => h⟩
  intro herror
  rw [hstatus] at herror
  cases herror

theorem leads_resume {f : Framer} {text : Bytes} {v : Verdict}
    (hlong : f.buffer.length > (endBoundary boundary).length →
      Leads boundary (run boundary f .ok) text v)
    (hshort : f.buffer.length ≤ (endBoundary boundary).length → Uniform boundary f text v) :
    Leads boundary (resume boundary f) text v := by
  unfold resume
  by_cases h : f.buffer.length > (endBoundary boundary).length
  · rw [if_pos h]
    exact hlong h
  · rw [if_neg h]
    exact leads_ok rfl (hshort (by omega))

end Framer

/-- Handing bytes to the part does not change what the rest will do. -/
theorem PartBody.drop {boundary rest : Bytes} {v : Verdict} (h : PartBody boundary rest v)
    {arrived k : Nat} (hk : k + (endBoundary boundary).length ≤ arrived)
    (hstart : find (startBoundary boundary) (rest.take arrived) = none)
    (hend : find (endBoundary boundary) (rest.take arrived) = none) :
    PartBody boundary (rest.drop k) v := by
  have hsize := startBoundary_length_lt boundary
  have hS := startBoundary_ne_nil boundary
  have hE := endBoundary_ne_nil boundary
  rw [find_take_eq_none_iff hS] at hstart
  rw [find_take_eq_none_iff hE] at hend
  have hline : ∀ pos, k + 2 ≤ pos →
      (Framer.lineEndBefore (rest.drop k) (pos - k) ↔ Framer.lineEndBefore rest pos) := by
    intro pos hpos
    have hsum : k + (pos - k - 2) = pos - 2 := by omega
    have hsum' : k + (pos - k - 1) = pos - 1 := by omega
    unfold Framer.lineEndBefore charAt
    rw [List.getD_eq_getElem?_getD, List.getD_eq_getElem?_getD, List.getElem?_drop,
      List.getElem?_drop, hsum, hsum', ← List.getD_eq_getElem?_getD, ← List.getD_eq_getElem?_getD]
  have hbefore : ∀ pos, k + 5 ≤ pos →
      find (endBoundary boundary) (rest.take (pos + (startBoundary boundary).length - 1)) = none →
      find (endBoundary boundary)
        ((rest.drop k).take (pos - k + (startBoundary boundary).length - 1)) = none := by
    intro pos hpos hnone
    have htake : (rest.drop k).take (pos - k + (startBoundary boundary).length - 1) =
        (rest.take (pos + (startBoundary boundary).length - 1)).drop k := by
      rw [List.drop_take]
      congr 1
      omega
    rw [htake]
    exact find_drop_eq_none k hnone
  cases h with
  | quiet _ hnone hnone' =>
      exact .quiet _ (find_drop_eq_none k hnone) (find_drop_eq_none k hnone')
  | ended _ pos hnone hfound hlen =>
      have hlt := hend pos hfound
      refine .ended _ (pos - k) (find_drop_eq_none k hnone) (find_drop hfound (by omega)) ?_
      rw [List.length_drop]
      omega
  | misplaced _ pos hfound hpos hnot hnone =>
      have hlt := hstart pos hfound
      exact .misplaced _ (pos - k) (find_drop hfound (by omega)) (by omega)
        (by rwa [hline pos (by omega)]) (hbefore pos (by omega) hnone)
  | next _ pos _ hfound hpos hin hnone hhead =>
      have hlt := hstart pos hfound
      refine .next _ (pos - k) _ (find_drop hfound (by omega)) (by omega)
        (by rwa [hline pos (by omega)]) (hbefore pos (by omega) hnone) ?_
      rw [List.drop_drop]
      have hsum : k + (pos - k) = pos := by omega
      rwa [hsum]

/-- Bytes that may stay unread after a part promise nothing. -/
private theorem PartHead.pending_of_short {boundary text : Bytes} {v : Verdict}
    (h : PartHead boundary 0 text v) (hshort : text.length ≤ (endBoundary boundary).length) :
    v = .pending := by
  have hsize := startBoundary_length_lt boundary
  cases h with
  | waiting => rfl
  | header _ _ headerEnd _ _ _ _ hunread =>
      apply hunread
      · rw [refuses, headerAt_of_short (by omega)]
        rfl
      · rw [List.length_drop]
        omega

private theorem lineEndBefore_append {buffer : Bytes} (more : Bytes) {pos : Nat} (hpos : 0 < pos)
    (hle : pos ≤ buffer.length) :
    Framer.lineEndBefore (buffer ++ more) pos ↔ Framer.lineEndBefore buffer pos := by
  unfold Framer.lineEndBefore charAt
  rw [List.getD_eq_getElem?_getD, List.getD_eq_getElem?_getD,
    List.getElem?_append_left (by omega), List.getElem?_append_left (by omega),
    ← List.getD_eq_getElem?_getD, ← List.getD_eq_getElem?_getD]

namespace Framer

variable {boundary : Bytes}

/-- The round that finds the next part's boundary in the buffer. -/
private theorem leads_inPart_start {buffer text : Bytes} {v : Verdict} {pos : Nat}
    {before : List RequestContent} {current : RequestContent}
    (hstart : find (startBoundary boundary) buffer = some pos)
    (hbody : PartBody boundary (buffer ++ text) v)
    (hnext : ∀ last, 2 ≤ pos → PartHead boundary 0 (buffer.drop pos ++ text) v →
      Leads boundary (resume boundary ⟨.between before last, buffer.drop pos⟩) text v) :
    Leads boundary (run boundary ⟨.inPart before current, buffer⟩ .ok) text v := by
  have hsize := startBoundary_length_lt boundary
  have hfound := find_append_of_some text hstart
  have hle := find_add_length_le hstart
  have hline : 2 ≤ pos →
      (lineEndBefore (buffer ++ text) pos ↔ lineEndBefore buffer pos) :=
    fun hpos => lineEndBefore_append text (by omega) (by omega)
  cases hbody with
  | quiet _ hnone _ =>
      rw [hfound] at hnone
      cases hnone
  | ended _ _ hnone _ _ =>
      rw [hfound] at hnone
      cases hnone
  | misplaced _ pos' hfound' hpos hnot _ =>
      rw [hfound] at hfound'
      obtain rfl := Option.some.inj hfound'
      rw [run_misplaced hstart hpos (by rwa [← hline hpos])]
      exact leads_error rfl rfl
  | next _ pos' _ hfound' hpos hin _ hhead =>
      rw [hfound] at hfound'
      obtain rfl := Option.some.inj hfound'
      rw [run_next hstart hpos ((hline hpos).mp hin)]
      rw [List.drop_append_of_le_length (by omega)] at hhead
      exact hnext _ hpos hhead

/-- The round that finds the closing boundary: a part's boundary still to come
would have the closing one before it. -/
private theorem leads_inPart_close {buffer text : Bytes} {v : Verdict} {pos : Nat}
    {before : List RequestContent} {current : RequestContent}
    (hstart : find (startBoundary boundary) buffer = none)
    (hend : find (endBoundary boundary) buffer = some pos)
    (hbody : PartBody boundary (buffer ++ text) v) :
    Leads boundary (run boundary ⟨.inPart before current, buffer⟩ .ok) text v := by
  have hnone := hstart
  rw [show buffer = (buffer ++ text).take buffer.length by rw [List.take_left],
    find_take_eq_none_iff (startBoundary_ne_nil boundary)] at hnone
  have hfound := find_append_of_some text hend
  have hle := find_add_length_le hend
  rw [run_close hstart hend]
  have habs : ∀ pos', find (startBoundary boundary) (buffer ++ text) = some pos' →
      find (endBoundary boundary) ((buffer ++ text).take
        (pos' + (startBoundary boundary).length - 1)) ≠ none := by
    intro pos' hpos' hempty
    rw [find_take_eq_none_iff (endBoundary_ne_nil boundary)] at hempty
    have hlt := hempty pos hfound
    have hlt' := hnone pos' hpos'
    omega
  cases hbody with
  | quiet _ _ hempty =>
      rw [hfound] at hempty
      cases hempty
  | ended _ pos' _ hfound' hlen =>
      rw [hfound] at hfound'
      obtain rfl := Option.some.inj hfound'
      rw [List.length_append] at hlen
      have htext : text = [] := List.length_eq_zero_iff.mp (by omega)
      subst htext
      exact leads_ok rfl uniform_closed
  | misplaced _ pos' hfound' _ _ hempty => exact absurd hempty (habs pos' hfound')
  | next _ pos' _ hfound' _ _ hempty _ => exact absurd hempty (habs pos' hfound')

/-- The round that finds neither and keeps the spare bytes. -/
private theorem leads_inPart_keep {buffer text : Bytes} {v : Verdict}
    {before : List RequestContent} {current : RequestContent}
    (hstart : find (startBoundary boundary) buffer = none)
    (hend : find (endBoundary boundary) buffer = none)
    (hbody : PartBody boundary (buffer ++ text) v)
    (hlater : ∀ before current chunk more buffer', chunk ≠ [] → chunk ++ more = text →
      PartBody boundary (buffer' ++ text) v →
      Leads boundary (run boundary ⟨.inPart before current, buffer' ++ chunk⟩ .ok) more v) :
    Leads boundary (run boundary ⟨.inPart before current, buffer⟩ .ok) text v := by
  rw [run_keep hstart hend]
  have hbuffer : buffer = (buffer ++ text).take buffer.length := by rw [List.take_left]
  have hstart' := hstart
  have hend' := hend
  rw [hbuffer] at hstart' hend'
  have hrest : PartBody boundary (buffer.drop (spare boundary buffer) ++ text) v := by
    rw [← List.drop_append_of_le_length (by unfold spare; omega)]
    by_cases hshort : (endBoundary boundary).length ≤ buffer.length
    · exact hbody.drop (by unfold spare; omega) hstart' hend'
    · have hzero : spare boundary buffer = 0 := by
        unfold spare
        omega
      rwa [hzero]
  apply leads_ok rfl
  apply uniform_of_open rfl
  · rintro rfl
    rw [List.append_nil] at hbody
    cases hbody with
    | quiet => rfl
    | ended _ _ _ hfound _ =>
        rw [hend] at hfound
        cases hfound
    | misplaced _ _ hfound _ _ _ =>
        rw [hstart] at hfound
        cases hfound
    | next _ _ _ hfound _ _ _ _ =>
        rw [hstart] at hfound
        cases hfound
  · intro chunk more hne happend
    exact hlater _ _ chunk more _ hne happend hrest

/-- What the rounds of one feed do inside a part, when all later feeds do what
`PartBody` and `PartHead` say. -/
private theorem leads_inPart {buffer text : Bytes} {v : Verdict}
    (before : List RequestContent) (current : RequestContent)
    (hbody : PartBody boundary (buffer ++ text) v)
    (hlater : ∀ before current chunk more buffer', chunk ≠ [] → chunk ++ more = text →
      PartBody boundary (buffer' ++ text) v →
      Leads boundary (run boundary ⟨.inPart before current, buffer' ++ chunk⟩ .ok) more v)
    (hnext : ∀ before last pos, find (startBoundary boundary) buffer = some pos → 2 ≤ pos →
      PartHead boundary 0 (buffer.drop pos ++ text) v →
      Leads boundary (resume boundary ⟨.between before last, buffer.drop pos⟩) text v) :
    Leads boundary (run boundary ⟨.inPart before current, buffer⟩ .ok) text v := by
  cases hstart : find (startBoundary boundary) buffer with
  | some pos =>
      exact leads_inPart_start hstart hbody fun last hpos hhead =>
        hnext _ last pos hstart hpos hhead
  | none =>
      cases hend : find (endBoundary boundary) buffer with
      | some pos => exact leads_inPart_close hstart hend hbody
      | none => exact leads_inPart_keep hstart hend hbody hlater

/-- What the rounds of one feed do at a header. -/
private theorem leads_header {f : Framer} {text : Bytes} {v : Verdict}
    {pos : Nat} (hseeks : f.SeeksHeader) (hopen : f.framing.isClosed = false)
    (hstart : find (startBoundary boundary) f.buffer = some pos)
    (hhead : PartHead boundary pos (f.buffer ++ text) v)
    (hlater : ∀ chunk more, chunk ≠ [] → chunk ++ more = text →
      Leads boundary (run boundary ⟨f.framing, f.buffer ++ chunk⟩ .ok) more v)
    (hinner : ∀ before current k, PartBody boundary (f.buffer.drop (k + 4) ++ text) v →
      k + 4 ≤ f.buffer.length →
      (text = [] → (f.buffer.drop (k + 4)).length ≤ (endBoundary boundary).length →
        v = .pending) →
      Leads boundary (resume boundary ⟨.inPart before current, f.buffer.drop (k + 4)⟩) text v) :
    Leads boundary (run boundary f .ok) text v := by
  have hle := find_add_length_le hstart
  have hbuffer : (f.buffer ++ text).take f.buffer.length = f.buffer := by rw [List.take_left]
  cases hblank : find (crlf ++ crlf) f.buffer with
  | none =>
      rw [run_header_waits hseeks hstart hblank]
      apply leads_ok rfl
      apply uniform_of_open hopen
      · rintro rfl
        rw [List.append_nil] at hhead
        cases hhead with
        | waiting => rfl
        | header _ _ _ _ hfound _ _ _ =>
            rw [hblank] at hfound
            cases hfound
      · exact hlater
  | some headerEnd =>
      have hfound := find_append_of_some text hblank
      have hend : headerEnd + 4 ≤ f.buffer.length := find_add_length_le hblank
      cases hhead with
      | waiting _ _ hnone =>
          rw [hfound] at hnone
          cases hnone
      | header _ _ headerEnd' _ hfound' hrefused haccepted hunread =>
          rw [hfound] at hfound'
          obtain rfl := Option.some.inj hfound'
          cases hstatus : (headerAt boundary f.buffer pos).1.isError with
          | true =>
              have hv := hrefused f.buffer.length (by omega)
                (by rw [List.length_append]; omega) (by rw [hbuffer]; exact hstatus)
              rw [run_header_refused hseeks hstart hblank hstatus, hv]
              exact leads_error rfl hstatus
          | false =>
              rw [run_header_accepted hseeks hstart hblank hstatus]
              have hsoon : refuses boundary ((f.buffer ++ text).take
                  (max (pos + (startBoundary boundary).length) (headerEnd + 4))) pos = false := by
                by_contra hnot
                have hlate := headerAt_take_refused boundary pos hfound
                  (t := f.buffer.length) (by omega) (by simpa [refuses] using hnot)
                rw [hbuffer, hstatus] at hlate
                cases hlate
              have hbody := haccepted hsoon
              rw [List.drop_append_of_le_length hend] at hbody hunread
              apply hinner _ _ _ hbody hend
              rintro rfl hshort
              rw [List.append_nil] at hunread
              exact hunread hstatus (by rwa [List.append_nil])

/-- From inside a part and from a header on, every cut of a regular body leads
to its verdict. -/
private theorem leads_of_regular (boundary : Bytes) (n : Nat) :
    ∀ (m : Nat) (text buffer : Bytes), text.length = n → buffer.length = m →
      (∀ before current v, PartBody boundary (buffer ++ text) v →
        Leads boundary (run boundary ⟨.inPart before current, buffer⟩ .ok) text v) ∧
      (∀ framing pos v, SeeksHeader ⟨framing, buffer⟩ → framing.isClosed = false →
        find (startBoundary boundary) buffer = some pos →
        PartHead boundary pos (buffer ++ text) v →
        Leads boundary (run boundary ⟨framing, buffer⟩ .ok) text v) := by
  have hsize := startBoundary_length_lt boundary
  have hpos := List.length_pos_iff.mpr (startBoundary_ne_nil boundary)
  induction n using Nat.strong_induction_on with
  | _ n ihn =>
      intro m
      induction m using Nat.strong_induction_on with
      | _ m ihm =>
          intro text buffer htext hbuffer
          have hless : ∀ {chunk more : Bytes}, chunk ≠ [] → chunk ++ more = text →
              more.length < n := by
            intro chunk more hne happend
            have hlen := congrArg List.length happend
            have hchunk := List.length_pos_iff.mpr hne
            rw [List.length_append] at hlen
            omega
          constructor
          · intro before current v hbody
            apply leads_inPart before current hbody
            · intro before current chunk more buffer' hne happend hlater
              rw [← happend, ← List.append_assoc] at hlater
              exact (ihn _ (hless hne happend) _ more (buffer' ++ chunk) rfl rfl).1 _ _ v hlater
            · intro before last pos hstart htwo hhead
              have hle := find_add_length_le hstart
              have hzero : find (startBoundary boundary) (buffer.drop pos) = some 0 := by
                rw [find_eq_zero_iff]
                exact prefix_of_find hstart
              apply leads_resume
              · intro _
                exact (ihm (buffer.drop pos).length (by rw [List.length_drop]; omega) text
                  (buffer.drop pos) htext rfl).2 _ 0 v (Or.inr ⟨before, last, rfl⟩) rfl hzero hhead
              · intro hshort
                apply uniform_of_open rfl
                · rintro rfl
                  rw [List.append_nil] at hhead
                  exact hhead.pending_of_short hshort
                · intro chunk more hne happend
                  rw [← happend, ← List.append_assoc] at hhead
                  exact (ihn _ (hless hne happend) _ more (buffer.drop pos ++ chunk) rfl rfl).2 _ 0
                    v (Or.inr ⟨before, last, rfl⟩) rfl (find_append_of_some chunk hzero) hhead
          · intro framing pos v hseeks hopen hstart hhead
            apply leads_header hseeks hopen hstart hhead
            · intro chunk more hne happend
              rw [← happend, ← List.append_assoc] at hhead
              exact (ihn _ (hless hne happend) _ more (buffer ++ chunk) rfl rfl).2 framing pos v
                hseeks hopen (find_append_of_some chunk hstart) hhead
            · intro before current k hbody hend hunread
              apply leads_resume
              · intro _
                exact (ihm (buffer.drop (k + 4)).length (by rw [List.length_drop]; simp only at hend; omega) text
                  (buffer.drop (k + 4)) htext rfl).1 before current v hbody
              · intro hshort
                apply uniform_of_open rfl
                · intro hnil
                  exact hunread hnil hshort
                · intro chunk more hne happend
                  rw [← happend, ← List.append_assoc] at hbody
                  exact (ihn _ (hless hne happend) _ more (buffer.drop (k + 4) ++ chunk) rfl
                    rfl).1 before current v hbody

/-- Every cut of a regular body ends in its verdict. -/
theorem uniform_of_regular (n : Nat) :
    ∀ (text buffer : Bytes) (v : Verdict), text.length = n →
      buffer.length < (startBoundary boundary).length → Regular boundary (buffer ++ text) v →
      Uniform boundary ⟨.fresh, buffer⟩ text v := by
  have hsize := startBoundary_length_lt boundary
  induction n using Nat.strong_induction_on with
  | _ n ih =>
      intro text buffer v htext hshort hregular
      have hseeks : ∀ buffer, SeeksHeader ⟨.fresh, buffer⟩ := fun _ => Or.inl rfl
      have habs : ∀ {pos}, find (startBoundary boundary) buffer ≠ some pos := by
        intro pos hfound
        have hle := find_add_length_le hfound
        omega
      apply uniform_of_open rfl
      · rintro rfl
        rw [List.append_nil] at hregular
        cases hregular with
        | short => rfl
        | parts _ hfound _ => exact absurd hfound habs
        | nothing hlong _ _ => omega
        | preamble _ hfound _ _ _ => exact absurd hfound habs
      · intro chunk more hne happend
        have hbody : buffer ++ text = (buffer ++ chunk) ++ more := by
          rw [← happend, List.append_assoc]
        have htake : (buffer ++ chunk) = (buffer ++ text).take (buffer ++ chunk).length := by
          rw [hbody, List.take_left]
        have hlen : (buffer ++ chunk).length ≤ (buffer ++ text).length := by
          rw [hbody]
          simp
        by_cases hstill : (buffer ++ chunk).length < (startBoundary boundary).length
        · rw [run_fresh_short hstill]
          apply leads_ok rfl
          apply ih more.length ?_ more (buffer ++ chunk) v rfl hstill
          · rwa [← hbody]
          · have hlen := congrArg List.length happend
            have hchunk := List.length_pos_iff.mpr hne
            rw [List.length_append] at hlen
            omega
        · have hparts := fun pos v' => (leads_of_regular boundary more.length
            (buffer ++ chunk).length more (buffer ++ chunk) rfl rfl).2 .fresh pos v' (hseeks _) rfl
          cases hregular with
          | short hbound => omega
          | parts _ hfound hhead =>
              rw [hbody] at hhead
              apply hparts 0 v ?_ hhead
              rw [htake, find_take_eq_some_iff (startBoundary_ne_nil boundary)]
              exact ⟨hfound, by omega⟩
          | nothing _ hnone hnone' =>
              rw [run_fresh_refused (not_lt.mp hstill)]
              · exact leads_error rfl rfl
              · rw [htake, find_take_eq_none_iff (startBoundary_ne_nil boundary), hnone]
                rintro k ⟨⟩
              · rw [htake, find_take_eq_none_iff (endBoundary_ne_nil boundary), hnone']
                rintro k ⟨⟩
          | preamble pos hfound _ hnone hhead =>
              by_cases hin : pos + (startBoundary boundary).length ≤ (buffer ++ chunk).length
              · rw [hbody] at hhead
                apply hparts pos .refused ?_ hhead
                rw [htake, find_take_eq_some_iff (startBoundary_ne_nil boundary)]
                exact ⟨hfound, hin⟩
              · rw [run_fresh_refused (not_lt.mp hstill)]
                · exact leads_error rfl rfl
                · rw [htake, find_take_eq_none_iff (startBoundary_ne_nil boundary)]
                  intro k hk
                  rw [hfound] at hk
                  obtain rfl := Option.some.inj hk
                  omega
                · rw [find_take_eq_none_iff (endBoundary_ne_nil boundary)] at hnone
                  rw [htake, find_take_eq_none_iff (endBoundary_ne_nil boundary)]
                  intro k hk
                  have hlt := hnone k hk
                  omega

theorem Uniform.nil {f : Framer} {v : Verdict} (h : Uniform boundary f [] v) :
    v = ⟨false, f.framing.isClosed⟩ :=
  ((uniform_iff f [] v).mp h).1 rfl

/-- One feed of the bytes that have arrived when `t` of them have. -/
private theorem Uniform.leads {framing : Framing} {buffer text : Bytes} {v : Verdict}
    (h : Uniform boundary ⟨framing, buffer⟩ text v) (hopen : framing.isClosed = false) (t : Nat)
    (hlt : buffer.length < t) (hle : t ≤ (buffer ++ text).length) :
    Leads boundary (run boundary ⟨framing, (buffer ++ text).take t⟩ .ok)
      ((buffer ++ text).drop t) v := by
  have htake : (buffer ++ text).take t = buffer ++ text.take (t - buffer.length) := by
    rw [List.take_append, List.take_of_length_le (by omega)]
  have hdrop : (buffer ++ text).drop t = text.drop (t - buffer.length) := by
    rw [List.drop_append, List.drop_of_length_le (by omega), List.nil_append]
  have hne : text.take (t - buffer.length) ≠ [] := by
    rw [List.length_append] at hle
    rw [← List.length_pos_iff, List.length_take]
    omega
  have hleads := ((uniform_iff _ _ _).mp h).2 _ _ hne (List.take_append_drop _ text)
  rw [feed_of_open (f := ⟨framing, buffer⟩) hopen] at hleads
  rw [htake, hdrop]
  exact hleads

theorem Leads.error {f : Framer} {status : Status} {text : Bytes} {v : Verdict}
    (h : Leads boundary (.ok (f, status)) text v) (herror : status.isError = true) :
    v = ⟨true, f.framing.isClosed⟩ := by
  obtain ⟨f', status', heq, hv, _⟩ := h
  obtain ⟨rfl, rfl⟩ := Prod.mk.inj (Except.ok.inj heq)
  exact hv herror

theorem Leads.uniform {f : Framer} {status : Status} {text : Bytes} {v : Verdict}
    (h : Leads boundary (.ok (f, status)) text v) (hok : status.isError = false) :
    Uniform boundary f text v := by
  obtain ⟨f', status', heq, _, hv⟩ := h
  obtain ⟨rfl, rfl⟩ := Prod.mk.inj (Except.ok.inj heq)
  exact hv hok

theorem not_leads_fault {fault : Fault} {text : Bytes} {v : Verdict} :
    ¬ Leads boundary (.error fault) text v := by
  rintro ⟨f, status, heq, _⟩
  cases heq

private theorem Leads.uniform_of_short {f : Framer} {text : Bytes} {v : Verdict}
    (h : Leads boundary (resume boundary f) text v)
    (hshort : f.buffer.length ≤ (endBoundary boundary).length) : Uniform boundary f text v := by
  unfold resume at h
  rw [if_neg (by omega)] at h
  exact h.uniform rfl

/-- Bytes after the end boundary are an error of the parser that has finished. -/
private theorem uniform_closed_cons {before : List RequestContent} {last : RequestContent}
    {buffer text : Bytes} {v : Verdict}
    (h : Uniform boundary ⟨.closed before last, buffer⟩ text v) (hne : text ≠ []) :
    v = ⟨true, true⟩ := by
  have hleads := ((uniform_iff _ _ _).mp h).2 text [] hne (by simp)
  rw [feed_of_closed rfl] at hleads
  exact hleads.error rfl

/-- The status that comes with the end boundary is the one from before. -/
private theorem round_closes {f next : Framer} {status status' : Status}
    (hopen : f.framing.isClosed = false)
    (hround : f.round boundary status = .ok (next, status', true))
    (hclosed : next.framing.isClosed = true) : status' = status := by
  generalize hr : (next, status', true) = r at hround
  cases round_result boundary hround with
  | waits | header | next => cases hr
  | refused =>
      cases hr
      rw [hopen] at hclosed
      cases hclosed
  | keeps framing last _ _ =>
      have hstatus := keepTail_status boundary framing last f.buffer
      rw [← hr] at hstatus
      cases hstatus
  | ends =>
      cases hr
      rfl

/-- One feed does not both finish and fail. -/
private theorem loop_error_open (n : Nat) (f next : Framer) (status status' : Status)
    (hopen : f.framing.isClosed = false) (hok : status.isError = false)
    (hrun : loop boundary n f status = .ok (next, status')) (herror : status'.isError = true) :
    next.framing.isClosed = false := by
  induction n generalizing f status with
  | zero => cases hrun
  | succ n ih =>
      simp only [loop] at hrun
      cases hround : f.round boundary status with
      | error fault =>
          rw [hround] at hrun
          cases hrun
      | ok r =>
          obtain ⟨g, st, leave⟩ := r
          rw [hround] at hrun
          simp only [Except.bind] at hrun
          cases leave with
          | true =>
              obtain ⟨rfl, rfl⟩ := Prod.mk.inj (Except.ok.inj hrun)
              by_contra hclosed
              rw [round_closes hopen hround (by simpa using hclosed), hok] at herror
              cases herror
          | false =>
              have hopen' := round_open boundary hopen hround
              simp only [Bool.false_eq_true, if_false] at hrun
              by_cases hgoes : g.goesOn boundary st
              · rw [if_pos hgoes] at hrun
                exact ih g st hopen' hgoes.2.1 hrun
              · rw [if_neg hgoes] at hrun
                obtain ⟨rfl, rfl⟩ := Prod.mk.inj (Except.ok.inj hrun)
                exact hopen'

/-- A body that comes in one chunk is not both finished and refused. -/
private theorem Leads.not_both {framing : Framing} {buffer : Bytes} {v : Verdict}
    (hopen : framing.isClosed = false)
    (h : Leads boundary (run boundary ⟨framing, buffer⟩ .ok) [] v) : v ≠ ⟨true, true⟩ := by
  obtain ⟨f, status, hrun, herror, hok⟩ := h
  rintro rfl
  cases hstatus : status.isError with
  | true =>
      have hopen' := loop_error_open _ _ _ _ _ hopen rfl hrun hstatus
      have hv := herror hstatus
      rw [hopen'] at hv
      cases hv
  | false =>
      have hv := (hok hstatus).nil
      cases hv

private theorem lineEndBefore_take {text : Bytes} {pos t : Nat} (hpos : 0 < pos) (hle : pos ≤ t)
    (hlen : t ≤ text.length) : lineEndBefore (text.take t) pos ↔ lineEndBefore text pos := by
  have htake : pos ≤ (text.take t).length := by
    rw [List.length_take]
    omega
  have h := lineEndBefore_append (text.drop t) hpos htake
  rw [List.take_append_drop] at h
  exact h.symm

/-- The start boundary that has just arrived inside a part. -/
private theorem partBody_of_leads {rest : Bytes} {v : Verdict}
    {pos t : Nat} {before : List RequestContent} {current : RequestContent}
    (hhead : ∀ framing buffer more, buffer ++ more = rest.drop pos → framing.isClosed = false →
      SeeksHeader ⟨framing, buffer⟩ → find (startBoundary boundary) buffer = some 0 →
      buffer.length ≤ (startBoundary boundary).length + 1 →
      Uniform boundary ⟨framing, buffer⟩ more v → 2 ≤ pos →
      PartHead boundary 0 (rest.drop pos) v)
    (hfound : find (startBoundary boundary) rest = some pos)
    (hnone : find (endBoundary boundary)
      (rest.take (pos + (startBoundary boundary).length - 1)) = none)
    (hge : pos + (startBoundary boundary).length ≤ t)
    (hle : t ≤ pos + (startBoundary boundary).length + 1) (hlen : t ≤ rest.length)
    (h : Leads boundary (run boundary ⟨.inPart before current, rest.take t⟩ .ok) (rest.drop t) v) :
    PartBody boundary rest v := by
  have hsize := startBoundary_length_lt boundary
  have hstart : find (startBoundary boundary) (rest.take t) = some pos := by
    rw [find_take_eq_some_iff (startBoundary_ne_nil boundary)]
    exact ⟨hfound, hge⟩
  by_cases hpos : pos < 2
  · rw [run_outOfBounds hstart hpos] at h
    exact absurd h not_leads_fault
  · have hline : lineEndBefore (rest.take t) pos ↔ lineEndBefore rest pos :=
      lineEndBefore_take (by omega) (by omega) hlen
    by_cases hin : lineEndBefore (rest.take t) pos
    · rw [run_next hstart (by omega) hin] at h
      refine .next rest pos v hfound (by omega) (hline.mp hin) hnone ?_
      have hshort : ((rest.take t).drop pos).length ≤ (startBoundary boundary).length + 1 := by
        rw [List.length_drop, List.length_take]
        omega
      have hzero : find (startBoundary boundary) ((rest.take t).drop pos) = some 0 := by
        rw [find_eq_zero_iff]
        exact prefix_of_find hstart
      refine hhead _ _ _ ?_ rfl (Or.inr ⟨_, _, rfl⟩) hzero hshort (h.uniform_of_short ?_)
        (by omega)
      · rw [← List.drop_append_of_le_length, List.take_append_drop]
        rw [List.length_take]
        omega
      · simp only
        omega
    · rw [run_misplaced hstart (by omega) hin] at h
      have hv := h.error rfl
      rw [show v = .refused from hv]
      exact .misplaced rest pos hfound (by omega) (by rwa [← hline]) hnone

/-- One feed of everything. -/
private theorem Uniform.whole {framing : Framing} {buffer text : Bytes} {v : Verdict}
    (h : Uniform boundary ⟨framing, buffer⟩ text v) (hopen : framing.isClosed = false)
    (hne : text ≠ []) : Leads boundary (run boundary ⟨framing, buffer ++ text⟩ .ok) [] v := by
  have hpos := List.length_pos_iff.mpr hne
  have hall := h.leads hopen (buffer ++ text).length (by rw [List.length_append]; omega)
    (le_refl _)
  rwa [List.take_length, List.drop_length] at hall

section InPart

variable {before : List RequestContent} {current : RequestContent} {buffer more : Bytes}
  {v : Verdict}

/-- A cut right behind an end boundary that more bytes follow. -/
private theorem both_of_end_inside (h : Uniform boundary ⟨.inPart before current, buffer⟩ more v)
    {i : Nat} (hend : find (endBoundary boundary) (buffer ++ more) = some i)
    (hstart : ∀ k, find (startBoundary boundary) (buffer ++ more) = some k →
      i + (endBoundary boundary).length < k + (startBoundary boundary).length)
    (hbuffer : buffer.length < i + (endBoundary boundary).length)
    (hmore : i + (endBoundary boundary).length < (buffer ++ more).length) : v = ⟨true, true⟩ := by
  have hcut := h.leads rfl (i + (endBoundary boundary).length) hbuffer hmore.le
  rw [run_close ((find_take_eq_none_iff (startBoundary_ne_nil boundary) _ _).mpr hstart)
    ((find_take_eq_some_iff (endBoundary_ne_nil boundary) _ _ _).mpr ⟨hend, le_refl _⟩)] at hcut
  apply uniform_closed_cons (hcut.uniform rfl)
  rw [← List.length_pos_iff, List.length_drop]
  omega

private theorem partBody_of_no_start (hbuffer : buffer.length < (startBoundary boundary).length)
    (h : Uniform boundary ⟨.inPart before current, buffer⟩ more v)
    (hstart : find (startBoundary boundary) (buffer ++ more) = none) :
    PartBody boundary (buffer ++ more) v := by
  have hsize := startBoundary_length_lt boundary
  cases hend : find (endBoundary boundary) (buffer ++ more) with
  | none =>
      have hv : v = .pending := by
        by_cases hnil : more = []
        · subst hnil
          exact h.nil
        · have hkeep := h.whole rfl hnil
          rw [run_keep hstart hend] at hkeep
          exact (hkeep.uniform rfl).nil
      rw [hv]
      exact .quiet _ hstart hend
  | some pos =>
      have hle := find_add_length_le hend
      have hne : more ≠ [] := by
        rintro rfl
        rw [List.append_nil] at hle
        omega
      have hcomplete := h.whole rfl hne
      rw [run_close hstart hend] at hcomplete
      have hv : v = .complete := (hcomplete.uniform rfl).nil
      subst hv
      refine .ended _ pos hstart hend ?_
      by_contra hmore
      have hboth := both_of_end_inside h hend (by rw [hstart]; rintro k ⟨⟩) (by omega) (by omega)
      cases hboth

private theorem partBody_of_start (hbuffer : buffer.length < (startBoundary boundary).length)
    (h : Uniform boundary ⟨.inPart before current, buffer⟩ more v) {pos : Nat}
    (hstart : find (startBoundary boundary) (buffer ++ more) = some pos)
    (hhead : ∀ framing buffer' more', buffer' ++ more' = (buffer ++ more).drop pos →
      framing.isClosed = false → SeeksHeader ⟨framing, buffer'⟩ →
      find (startBoundary boundary) buffer' = some 0 →
      buffer'.length ≤ (startBoundary boundary).length + 1 →
      Uniform boundary ⟨framing, buffer'⟩ more' v → 2 ≤ pos →
      PartHead boundary 0 ((buffer ++ more).drop pos) v) :
    PartBody boundary (buffer ++ more) v := by
  have hsize := startBoundary_length_lt boundary
  have hle := find_add_length_le hstart
  have hne : more ≠ [] := by
    rintro rfl
    rw [List.append_nil] at hle
    omega
  have hnone : find (endBoundary boundary)
      ((buffer ++ more).take (pos + (startBoundary boundary).length - 1)) = none := by
    cases hend : find (endBoundary boundary)
        ((buffer ++ more).take (pos + (startBoundary boundary).length - 1)) with
    | none => rfl
    | some i =>
        obtain ⟨hfound, hbound⟩ :=
          (find_take_eq_some_iff (endBoundary_ne_nil boundary) _ _ _).mp hend
        refine absurd (both_of_end_inside h hfound ?_ (by omega) (by omega))
          ((h.whole rfl hne).not_both rfl)
        rw [hstart]
        rintro k ⟨⟩
        omega
  have hat := h.leads rfl (pos + (startBoundary boundary).length) (by omega) hle
  exact partBody_of_leads hhead hstart hnone (le_refl _) (by omega) hle hat

end InPart

section AtHeader

variable {framing : Framing} {buffer more : Bytes} {v : Verdict} {headerEnd : Nat}

/-- The header has been accepted by the first feed whose bytes hold the whole of
it. -/
private theorem partBody_of_accepted (hopen : framing.isClosed = false)
    (hseeks : ∀ text, SeeksHeader ⟨framing, text⟩)
    (hstart : find (startBoundary boundary) buffer = some 0)
    (hbuffer : buffer.length ≤ (startBoundary boundary).length + 1)
    (h : Uniform boundary ⟨framing, buffer⟩ more v)
    (hend : find (crlf ++ crlf) (buffer ++ more) = some headerEnd)
    (haccepted : refuses boundary
      ((buffer ++ more).take (max (0 + (startBoundary boundary).length) (headerEnd + 4))) 0 = false)
    (hpart : ∀ before current buffer' more', buffer' ++ more' = (buffer ++ more).drop (headerEnd + 4) →
      buffer'.length < (startBoundary boundary).length →
      Uniform boundary ⟨.inPart before current, buffer'⟩ more' v →
      PartBody boundary ((buffer ++ more).drop (headerEnd + 4)) v) :
    PartBody boundary ((buffer ++ more).drop (headerEnd + 4)) v := by
  have hsize := startBoundary_length_lt boundary
  have hSpos := List.length_pos_iff.mpr (startBoundary_ne_nil boundary)
  have hle := find_add_length_le hstart
  have hbound : headerEnd + 4 ≤ (buffer ++ more).length := find_add_length_le hend
  obtain ⟨t, ht⟩ : ∃ t, t = max (buffer.length + 1) (headerEnd + 4) := ⟨_, rfl⟩
  by_cases hmore : t ≤ (buffer ++ more).length
  · have haccepted' : refuses boundary ((buffer ++ more).take t) 0 = false := by
      by_cases hlate : buffer.length < headerEnd + 4
      · have hmax : max (0 + (startBoundary boundary).length) (headerEnd + 4) = t := by omega
        rwa [hmax] at haccepted
      · rw [refuses, headerAt_of_short (by rw [List.length_take]; omega)]
        rfl
    have hstart' : find (startBoundary boundary) ((buffer ++ more).take t) = some 0 := by
      rw [find_take_eq_some_iff (startBoundary_ne_nil boundary)]
      exact ⟨find_append_of_some more hstart, by omega⟩
    have hend' : find (crlf ++ crlf) ((buffer ++ more).take t) = some headerEnd := by
      rw [find_take_eq_some_iff (by decide)]
      exact ⟨hend, show headerEnd + 4 ≤ t by omega⟩
    have hat := h.leads hopen t (by omega) hmore
    rw [run_header_accepted (f := ⟨framing, (buffer ++ more).take t⟩) (hseeks _) hstart' hend'
      haccepted'] at hat
    have hlen : (((buffer ++ more).take t).drop (headerEnd + 4)).length <
        (startBoundary boundary).length := by
      rw [List.length_drop, List.length_take]
      omega
    refine hpart _ _ _ _ ?_ hlen (hat.uniform_of_short ?_)
    · rw [← List.drop_append_of_le_length, List.take_append_drop]
      rw [List.length_take]
      omega
    · simp only
      omega
  · have hnil : more = [] := by
      rw [← List.length_eq_zero_iff]
      rw [List.length_append] at hmore hbound
      omega
    subst hnil
    have hv := h.nil
    rw [hopen] at hv
    rw [hv]
    have hshort : ((buffer ++ []).drop (headerEnd + 4)).length <
        (startBoundary boundary).length := by
      rw [List.append_nil, List.length_drop]
      omega
    exact .quiet _ (find_eq_none_of_length_lt hshort) (find_eq_none_of_length_lt (by omega))

private theorem partHead_of_start (hopen : framing.isClosed = false)
    (hseeks : ∀ text, SeeksHeader ⟨framing, text⟩)
    (hstart : find (startBoundary boundary) buffer = some 0)
    (hbuffer : buffer.length ≤ (startBoundary boundary).length + 1)
    (h : Uniform boundary ⟨framing, buffer⟩ more v)
    (hpart : ∀ headerEnd before current buffer' more',
      buffer' ++ more' = (buffer ++ more).drop (headerEnd + 4) →
      headerEnd + 4 ≤ (buffer ++ more).length →
      buffer'.length < (startBoundary boundary).length →
      Uniform boundary ⟨.inPart before current, buffer'⟩ more' v →
      PartBody boundary ((buffer ++ more).drop (headerEnd + 4)) v) :
    PartHead boundary 0 (buffer ++ more) v := by
  have hle := find_add_length_le hstart
  have hfound := find_append_of_some more hstart
  have hnil : more = [] → v = .pending := by
    rintro rfl
    have hv := h.nil
    rwa [hopen] at hv
  cases hend : find (crlf ++ crlf) (buffer ++ more) with
  | none =>
      have hv : v = .pending := by
        by_cases hmore : more = []
        · exact hnil hmore
        · have hall := h.whole hopen hmore
          rw [run_header_waits (f := ⟨framing, buffer ++ more⟩) (hseeks _) hfound hend] at hall
          have hv := (hall.uniform rfl).nil
          rwa [hopen] at hv
      rw [hv]
      exact .waiting 0 _ hend
  | some headerEnd =>
      refine .header 0 _ headerEnd v hend ?_ ?_ ?_
      · intro t ht hlen hrefused
        have hlt : buffer.length < t := by
          by_contra hnot
          rw [refuses, headerAt_of_short (by rw [List.length_take]; omega)] at hrefused
          cases hrefused
        have hat := h.leads hopen t hlt hlen
        rw [run_header_refused (f := ⟨framing, (buffer ++ more).take t⟩) (hseeks _)
          ((find_take_eq_some_iff (startBoundary_ne_nil boundary) _ _ _).mpr ⟨hfound, by omega⟩)
          ((find_take_eq_some_iff (by decide) _ _ _).mpr
            ⟨hend, show headerEnd + 4 ≤ t by omega⟩) hrefused] at hat
        exact hat.error hrefused
      · intro haccepted
        exact partBody_of_accepted hopen hseeks hstart hbuffer h hend haccepted
          fun before current buffer' more' happend =>
            hpart headerEnd before current buffer' more' happend (find_add_length_le hend)
      · intro haccepted hshort
        by_cases hmore : more = []
        · exact hnil hmore
        · have hat := h.whole hopen hmore
          rw [run_header_accepted (f := ⟨framing, buffer ++ more⟩) (hseeks _) hfound hend
            haccepted] at hat
          exact (hat.uniform_of_short hshort).nil

end AtHeader

/-- What a uniform verdict says of the bytes after a header and of a header. -/
private theorem regular_of_uniform_parts (n : Nat) :
    (∀ before current buffer more v, (buffer ++ more).length = n →
      buffer.length < (startBoundary boundary).length →
      Uniform boundary ⟨.inPart before current, buffer⟩ more v →
      PartBody boundary (buffer ++ more) v) ∧
    (∀ framing buffer more v, (buffer ++ more).length = n → framing.isClosed = false →
      SeeksHeader ⟨framing, buffer⟩ → find (startBoundary boundary) buffer = some 0 →
      buffer.length ≤ (startBoundary boundary).length + 1 →
      Uniform boundary ⟨framing, buffer⟩ more v → PartHead boundary 0 (buffer ++ more) v) := by
  induction n using Nat.strong_induction_on with
  | _ n ih =>
      constructor
      · intro before current buffer more v hn hbuffer h
        cases hstart : find (startBoundary boundary) (buffer ++ more) with
        | none => exact partBody_of_no_start hbuffer h hstart
        | some pos =>
            have hle := find_add_length_le hstart
            have hSpos := List.length_pos_iff.mpr (startBoundary_ne_nil boundary)
            apply partBody_of_start hbuffer h hstart
            intro framing buffer' more' happend hopen hseeks hzero hshort huniform htwo
            rw [← happend]
            exact (ih ((buffer ++ more).drop pos).length (by rw [List.length_drop]; omega)).2 framing
              buffer' more' v (by rw [happend]) hopen hseeks hzero hshort huniform
      · intro framing buffer more v hn hopen hseeks hstart hbuffer h
        apply partHead_of_start hopen (fun _ => hseeks) hstart hbuffer h
        intro headerEnd before current buffer' more' happend hle hshort huniform
        rw [← happend]
        exact (ih ((buffer ++ more).drop (headerEnd + 4)).length
          (by rw [List.length_drop]; omega)).1 before current buffer' more' v (by rw [happend])
          hshort huniform

/-- A header that is accepted while bytes before its start boundary are still
in the buffer. -/
private theorem partBody_of_preamble {rest : Bytes} {pos : Nat}
    {before : List RequestContent} {current : RequestContent}
    (hfound : find (startBoundary boundary) rest = some pos)
    (hnone : find (endBoundary boundary)
      (rest.take (pos + (startBoundary boundary).length - 1)) = none)
    (h : Leads boundary
      (resume boundary ⟨.inPart before current,
        rest.take (pos + (startBoundary boundary).length)⟩)
      (rest.drop (pos + (startBoundary boundary).length)) .refused) :
    PartBody boundary rest .refused := by
  have hsize := startBoundary_length_lt boundary
  have hle := find_add_length_le hfound
  have hlen : (rest.take (pos + (startBoundary boundary).length)).length =
      pos + (startBoundary boundary).length := by
    rw [List.length_take]
    omega
  have hhead : ∀ framing buffer more, buffer ++ more = rest.drop pos →
      framing.isClosed = false → SeeksHeader ⟨framing, buffer⟩ →
      find (startBoundary boundary) buffer = some 0 →
      buffer.length ≤ (startBoundary boundary).length + 1 →
      Uniform boundary ⟨framing, buffer⟩ more .refused → 2 ≤ pos →
      PartHead boundary 0 (rest.drop pos) .refused := by
    intro framing buffer more happend hopen hseeks hzero hshort huniform _
    rw [← happend]
    exact (regular_of_uniform_parts _).2 framing buffer more _ rfl hopen hseeks hzero hshort
      huniform
  unfold resume at h
  by_cases hlong : pos + (startBoundary boundary).length > (endBoundary boundary).length
  · rw [if_pos (by simpa only [hlen] using hlong)] at h
    exact partBody_of_leads hhead hfound hnone (le_refl _) (by omega) hle h
  · rw [if_neg (by simpa only [hlen] using hlong)] at h
    have huniform := h.uniform rfl
    by_cases hmore : rest.length = pos + (startBoundary boundary).length
    · rw [List.drop_of_length_le (by omega)] at huniform
      cases huniform.nil
    · -- one byte more makes the parser look at the start boundary
      have hat := huniform.leads rfl (pos + (startBoundary boundary).length + 1) (by omega) (by
        rw [List.take_append_drop]
        omega)
      rw [List.take_append_drop] at hat
      exact partBody_of_leads hhead hfound hnone (by omega) (le_refl _) (by omega) hat

/-- The first start boundary of a body. -/
private theorem partHead_of_uniform {body : Bytes} {pos : Nat} {v : Verdict}
    (h : Uniform boundary ⟨.fresh, []⟩ body v) (hpreamble : 0 < pos → v = .refused)
    (hfound : find (startBoundary boundary) body = some pos)
    (hnone : find (endBoundary boundary)
      (body.take (pos + (startBoundary boundary).length - 1)) = none) :
    PartHead boundary pos body v := by
  have hS := startBoundary_ne_nil boundary
  have hSpos := List.length_pos_iff.mpr hS
  have hsize := startBoundary_length_lt boundary
  have hle := find_add_length_le hfound
  have hseeks : ∀ buffer, SeeksHeader ⟨.fresh, buffer⟩ := fun _ => Or.inl rfl
  have hleads : ∀ t, 0 < t → t ≤ body.length →
      Leads boundary (run boundary ⟨.fresh, body.take t⟩ .ok) (body.drop t) v :=
    fun t hpos hle => h.leads rfl t hpos hle
  have hwhole := hleads body.length (by omega) (le_refl _)
  rw [List.take_length, List.drop_length] at hwhole
  cases hblank : find (crlf ++ crlf) body with
  | none =>
      rw [run_header_waits (hseeks body) hfound hblank] at hwhole
      rw [show v = .pending from (hwhole.uniform rfl).nil]
      exact .waiting pos body hblank
  | some headerEnd =>
      have hend : headerEnd + 4 ≤ body.length := find_add_length_le hblank
      have hfour : (crlf ++ crlf).length = 4 := rfl
      have hstart' : ∀ t, pos + (startBoundary boundary).length ≤ t →
          find (startBoundary boundary) (body.take t) = some pos := by
        intro t ht
        rw [find_take_eq_some_iff hS]
        exact ⟨hfound, ht⟩
      have hend' : ∀ t, headerEnd + 4 ≤ t →
          find (crlf ++ crlf) (body.take t) = some headerEnd := by
        intro t ht
        rw [find_take_eq_some_iff (by decide)]
        exact ⟨hblank, ht⟩
      refine .header pos body headerEnd _ hblank ?_ ?_ ?_
      · intro t ht hlen hrefused
        have hat := hleads t (by omega) hlen
        rw [run_header_refused (hseeks _) (hstart' t (by omega)) (hend' t (by omega)) hrefused]
          at hat
        exact hat.error hrefused
      · intro haccepted
        obtain ⟨t, ht⟩ : ∃ t, t = max (pos + (startBoundary boundary).length) (headerEnd + 4) :=
          ⟨_, rfl⟩
        rw [← ht] at haccepted
        have hat := hleads t (by omega) (by omega)
        rw [run_header_accepted (hseeks _) (hstart' t (by omega)) (hend' t (by omega)) haccepted]
          at hat
        by_cases hbefore : headerEnd + 4 ≤ pos
        · -- the blank line is part of the preamble
          have hv := hpreamble (by omega)
          subst hv
          have hsum : t = headerEnd + 4 +
              (pos - (headerEnd + 4) + (startBoundary boundary).length) := by omega
          have hlast : pos + (startBoundary boundary).length - 1 - (headerEnd + 4) =
              pos - (headerEnd + 4) + (startBoundary boundary).length - 1 := by omega
          have hdrop : body.drop t = (body.drop (headerEnd + 4)).drop
              (pos - (headerEnd + 4) + (startBoundary boundary).length) := by
            rw [hsum, List.drop_drop]
          rw [hdrop, hsum, List.drop_take, Nat.add_sub_cancel_left] at hat
          refine partBody_of_preamble (find_drop hfound hbefore) ?_ hat
          have hnone' := find_drop_eq_none (headerEnd + 4) hnone
          rwa [List.drop_take, hlast] at hnone'
        · have hlen : ((body.take t).drop (headerEnd + 4)).length <
              (startBoundary boundary).length := by
            rw [List.length_drop, List.length_take]
            omega
          have hrest : (body.take t).drop (headerEnd + 4) ++ body.drop t =
              body.drop (headerEnd + 4) := by
            rw [← List.drop_append_of_le_length, List.take_append_drop]
            rw [List.length_take]
            omega
          rw [← hrest]
          refine (regular_of_uniform_parts _).1 _ _ _ _ _ rfl hlen (hat.uniform_of_short ?_)
          simp only
          omega
      · intro haccepted hshort
        rw [run_header_accepted (hseeks body) hfound hblank haccepted] at hwhole
        exact (hwhole.uniform_of_short hshort).nil

/-- A body with one verdict for all its cuts is regular. -/
theorem regular_of_uniform {body : Bytes} {v : Verdict}
    (h : Uniform boundary ⟨.fresh, []⟩ body v) : Regular boundary body v := by
  have hsize := startBoundary_length_lt boundary
  have hS := startBoundary_ne_nil boundary
  have hE := endBoundary_ne_nil boundary
  have hSpos := List.length_pos_iff.mpr hS
  have hleads : ∀ t, 0 < t → t ≤ body.length →
      Leads boundary (run boundary ⟨.fresh, body.take t⟩ .ok) (body.drop t) v :=
    fun t hpos hle => h.leads rfl t hpos hle
  have hwhole : 0 < body.length →
      Leads boundary (run boundary ⟨.fresh, body⟩ .ok) [] v := by
    intro hpos
    have hall := hleads body.length hpos (le_refl _)
    rwa [List.take_length, List.drop_length] at hall
  by_cases hshort : body.length < (startBoundary boundary).length
  · have hv : v = .pending := by
      by_cases hnil : body = []
      · subst hnil
        exact h.nil
      · have hwait := hwhole (List.length_pos_iff.mpr hnil)
        rw [run_fresh_short hshort] at hwait
        exact (hwait.uniform rfl).nil
    rw [hv]
    exact .short body hshort
  · rw [not_lt] at hshort
    cases hstart : find (startBoundary boundary) body with
    | none =>
        cases hend : find (endBoundary boundary) body with
        | none =>
            have hrefused := hwhole (by omega)
            rw [run_fresh_refused hshort hstart hend] at hrefused
            rw [show v = .refused from hrefused.error rfl]
            exact .nothing body hshort hstart hend
        | some pos =>
            have hfault := hwhole (by omega)
            rw [run_fresh_nullPointer hstart hend] at hfault
            exact absurd hfault not_leads_fault
    | some pos =>
        have hle := find_add_length_le hstart
        have hbefore : ∀ t, t < pos + (startBoundary boundary).length →
            find (startBoundary boundary) (body.take t) = none := by
          intro t ht
          rw [find_take_eq_none_iff hS]
          intro k hk
          rw [hstart] at hk
          obtain rfl := Option.some.inj hk
          exact ht
        have hpreamble : 0 < pos → v = .refused := by
          intro hpos
          have hfirst := hleads (startBoundary boundary).length hSpos hshort
          rw [run_fresh_refused (by rw [List.length_take]; omega) (hbefore _ (by omega))
            (find_eq_none_of_length_lt (by rw [List.length_take]; omega))] at hfirst
          exact hfirst.error rfl
        have hnone : find (endBoundary boundary)
            (body.take (pos + (startBoundary boundary).length - 1)) = none := by
          cases hend : find (endBoundary boundary)
              (body.take (pos + (startBoundary boundary).length - 1)) with
          | none => rfl
          | some i =>
              obtain ⟨hfound, hbound⟩ := (find_take_eq_some_iff hE _ _ _).mp hend
              have hcut := hleads (i + (endBoundary boundary).length) (by omega) (by omega)
              rw [run_fresh_nullPointer (hbefore _ (by omega))
                ((find_take_eq_some_iff hE _ _ _).mpr ⟨hfound, le_refl _⟩)] at hcut
              exact absurd hcut not_leads_fault
        have hhead := partHead_of_uniform h hpreamble hstart hnone
        by_cases hpos : pos = 0
        · subst hpos
          exact .parts body v hstart hhead
        · have hv := hpreamble (by omega)
          subst hv
          exact .preamble body pos hstart (by omega) hnone hhead

end Framer

/-- The verdict of the parser is the verdict of the machine. -/
theorem verdict_eq_framer (boundary : Bytes) (chunks : List Bytes) :
    verdict boundary chunks = Framer.verdict boundary ⟨.fresh, []⟩ chunks := by
  have h := Framer.feedChunks_toParser boundary 0 0 ⟨.fresh, []⟩ chunks
  rw [← Framer.init_eq_toParser] at h
  unfold verdict Framer.verdict
  cases hparser : (RequestMultipartParser.init boundary).feedChunks chunks with
  | error fault =>
      cases hframer : Framer.feedChunks boundary ⟨.fresh, []⟩ chunks with
      | error fault' =>
          rw [hparser, hframer] at h
          cases h
          rfl
      | ok r =>
          rw [hparser, hframer] at h
          cases h
  | ok r =>
      cases hframer : Framer.feedChunks boundary ⟨.fresh, []⟩ chunks with
      | error fault' =>
          rw [hparser, hframer] at h
          cases h
      | ok r' =>
          rw [hparser, hframer] at h
          simp only [Except.map, Except.ok.injEq, Prod.mk.injEq] at h ⊢
          rw [h.2.1, h.2.2]

/-- Any two cuts of a body end in the same verdict exactly when the body is
regular. -/
theorem verdict_uniform_iff (boundary body : Bytes) :
    (∀ chunks₁ chunks₂, IsCut body chunks₁ → IsCut body chunks₂ →
      ∃ v, verdict boundary chunks₁ = .ok v ∧ verdict boundary chunks₂ = .ok v) ↔
      ∃ v, Regular boundary body v := by
  constructor
  · intro h
    obtain ⟨chunks, hcut⟩ := exists_isCut body
    obtain ⟨v, hv, _⟩ := h chunks chunks hcut hcut
    refine ⟨v, Framer.regular_of_uniform ?_⟩
    intro chunks' hcut'
    obtain ⟨v', hv', hother⟩ := h chunks chunks' hcut hcut'
    rw [hv] at hv'
    obtain rfl := Except.ok.inj hv'
    rwa [verdict_eq_framer] at hother
  · rintro ⟨v, hregular⟩ chunks₁ chunks₂ hcut₁ hcut₂
    have huniform := Framer.uniform_of_regular body.length body [] v rfl
      (List.length_pos_iff.mpr (startBoundary_ne_nil boundary)) hregular
    refine ⟨v, ?_, ?_⟩
    · rw [verdict_eq_framer]
      exact huniform chunks₁ hcut₁
    · rw [verdict_eq_framer]
      exact huniform chunks₂ hcut₂

/-- Bytes before the first boundary are refused unless the boundary comes with
them. -/
theorem verdict_depends_on_cut :
    ∃ chunks₁ chunks₂, IsCut (bytes "x--B\r\n") chunks₁ ∧ IsCut (bytes "x--B\r\n") chunks₂ ∧
      verdict (bytes "B") chunks₁ = .ok .pending ∧ verdict (bytes "B") chunks₂ = .ok .refused := by
  refine ⟨[bytes "x--B\r\n"], [bytes "x--B\r", bytes "\n"], ?_, ?_, ?_, ?_⟩
  · exact ⟨rfl, by decide⟩
  · exact ⟨rfl, by decide⟩
  · rfl
  · rfl

end FortyTwo.Webserv
