import FortyTwo.Foundation.Cut
import FortyTwo.Webserv.MultipartHeader

/-!
Feeding a parser the chunks of a body one after the other, up to the first
error, and what one `feed` of the machine does from each of its states.
-/

namespace FortyTwo.Webserv

open Foundation

namespace RequestMultipartParser

/-- The parser after the last feed made, and whether that one was an error. -/
def feedChunks (p : RequestMultipartParser) :
    List Bytes → Except Fault (RequestMultipartParser × Bool)
  | [] => .ok (p, false)
  | chunk :: rest => do
      let (p, status) ← p.feed chunk 0
      if status.isError then pure (p, true) else p.feedChunks rest

end RequestMultipartParser

namespace Framer

open RequestMultipartParser

def feedChunks (boundary : Bytes) (f : Framer) : List Bytes → Except Fault (Framer × Bool)
  | [] => .ok (f, false)
  | chunk :: rest => do
      let (f, status) ← f.feed boundary chunk
      if status.isError then pure (f, true) else feedChunks boundary f rest

/-- The machine ends where the parser ends. -/
theorem feedChunks_toParser (boundary : Bytes) (popped : Nat) (dataSize : Int) (f : Framer)
    (chunks : List Bytes) :
    ((f.toParser boundary popped dataSize).feedChunks chunks).map
        (fun r => (r.1.contentData, r.1.finished, r.2)) =
      (f.feedChunks boundary chunks).map
        (fun r => (r.1.framing.contents, r.1.framing.isClosed, r.2)) := by
  induction chunks generalizing f dataSize with
  | nil => rfl
  | cons chunk rest ih =>
      simp only [RequestMultipartParser.feedChunks, Framer.feedChunks,
        feed_toParser boundary popped dataSize f chunk]
      cases hfeed : f.feed boundary chunk with
      | error fault => rfl
      | ok r =>
          obtain ⟨next, status⟩ := r
          simp only [Except.map, bind, Except.bind]
          cases hstatus : status.isError with
          | true => rfl
          | false =>
              simp only [Bool.false_eq_true, if_false]
              exact ih _ next

variable {boundary : Bytes}

theorem feed_of_open {f : Framer} (hopen : f.framing.isClosed = false) (content : Bytes) :
    f.feed boundary content = run boundary ⟨f.framing, f.buffer ++ content⟩ .ok := by
  simp [feed, hopen]

theorem feed_of_closed {f : Framer} (hclosed : f.framing.isClosed = true) (content : Bytes) :
    f.feed boundary content = .ok (f, .badRequest) := by
  simp [feed, hclosed]

/-- A status of a round after which nothing more is done. -/
private theorem run_of_round {f next : Framer} {status : Status} (leave : Bool)
    (hround : f.round boundary .ok = .ok (next, status, leave))
    (hstop : leave = true ∨ ¬ next.goesOn boundary status) :
    run boundary f .ok = .ok (next, status) := by
  rw [run_eq, hround]
  simp only [Except.bind]
  rcases hstop with rfl | hgoes
  · simp
  · simp [hgoes]

/-- What `feed` makes of a round that ends well. -/
def resume (boundary : Bytes) (f : Framer) : Except Fault (Framer × Status) :=
  if f.buffer.length > (endBoundary boundary).length then run boundary f .ok else .ok (f, .ok)

private theorem run_of_round_ok {f next : Framer}
    (hround : f.round boundary .ok = .ok (next, .ok, false)) :
    run boundary f .ok = resume boundary next := by
  rw [run_eq, hround]
  simp only [Except.bind, Bool.false_eq_true, if_false, resume]
  by_cases hlong : next.buffer.length > (endBoundary boundary).length
  · have hgoes : next.goesOn boundary .ok := ⟨hlong, rfl, by decide⟩
    rw [if_pos hgoes, if_pos hlong]
  · have hgoes : ¬ next.goesOn boundary .ok := fun h => hlong h.1
    rw [if_neg hgoes, if_neg hlong]

private theorem not_goesOn_dataIsNotReady (f : Framer) :
    ¬ f.goesOn boundary .dataIsNotReady := fun h => h.2.2 rfl

private theorem not_goesOn_error {f : Framer} {status : Status} (h : status.isError = true) :
    ¬ f.goesOn boundary status := by
  rintro ⟨_, hok, _⟩
  rw [h] at hok
  cases hok

section Part

variable {before : List RequestContent} {current : RequestContent} {buffer : Bytes} {pos : Nat}

/-- The byte pair before a start boundary. -/
def lineEndBefore (buffer : Bytes) (pos : Nat) : Prop :=
  charAt buffer (pos - 2) = 13 ∧ charAt buffer (pos - 1) = 10

instance (buffer : Bytes) (pos : Nat) : Decidable (lineEndBefore buffer pos) :=
  inferInstanceAs (Decidable (_ ∧ _))

theorem run_outOfBounds (hstart : find (startBoundary boundary) buffer = some pos)
    (hpos : pos < 2) :
    run boundary ⟨.inPart before current, buffer⟩ .ok = .error .outOfBounds := by
  rw [run_eq]
  simp [round, hstart, hpos, Except.bind]

theorem run_misplaced (hstart : find (startBoundary boundary) buffer = some pos)
    (hpos : 2 ≤ pos) (hline : ¬ lineEndBefore buffer pos) :
    run boundary ⟨.inPart before current, buffer⟩ .ok =
      .ok (⟨.inPart before current, buffer⟩, .badRequest) := by
  apply run_of_round true
  · unfold lineEndBefore at hline
    simp only [round, hstart]
    rw [if_neg (by omega), if_pos hline]
  · exact Or.inl rfl

/-- The part ends where the next one begins. -/
theorem run_next (hstart : find (startBoundary boundary) buffer = some pos) (hpos : 2 ≤ pos)
    (hline : lineEndBefore buffer pos) :
    run boundary ⟨.inPart before current, buffer⟩ .ok =
      resume boundary ⟨.between before
        { current with data := current.data ++ buffer.take (pos - 2) }, buffer.drop pos⟩ := by
  apply run_of_round_ok
  unfold lineEndBefore at hline
  simp only [round, hstart]
  rw [if_neg (by omega), if_neg (by simpa using hline)]

/-- The last part ends at the end boundary. -/
theorem run_close (hstart : find (startBoundary boundary) buffer = none)
    (hend : find (endBoundary boundary) buffer = some pos) :
    run boundary ⟨.inPart before current, buffer⟩ .ok =
      .ok (⟨.closed before { current with data := current.data ++ buffer.take pos }, []⟩, .ok) := by
  apply run_of_round true
  · simp [round, hstart, hend]
  · exact Or.inl rfl

/-- How much of a buffer without a boundary is handed to the part. -/
def spare (boundary buffer : Bytes) : Nat := buffer.length - (endBoundary boundary).length

/-- Without a boundary all but the last bytes go to the part. -/
theorem run_keep (hstart : find (startBoundary boundary) buffer = none)
    (hend : find (endBoundary boundary) buffer = none) :
    run boundary ⟨.inPart before current, buffer⟩ .ok =
      .ok (⟨.inPart before
          { current with data := current.data ++ buffer.take (spare boundary buffer) },
        buffer.drop (spare boundary buffer)⟩, .dataIsNotReady) := by
  have hround : round boundary ⟨.inPart before current, buffer⟩ .ok =
      .ok (⟨.inPart before
          { current with data := current.data ++ buffer.take (spare boundary buffer) },
        buffer.drop (spare boundary buffer)⟩, .dataIsNotReady, false) := by
    simp only [round, hstart, hend, keepTail]
    split
    · rename_i hshort
      have hzero : spare boundary buffer = 0 := by
        unfold spare
        omega
      simp [hzero]
    · rfl
  exact run_of_round false hround (Or.inr (not_goesOn_dataIsNotReady _))

end Part

section Header

variable {f : Framer} {pos : Nat}

/-- A round that finds the start boundary looks for a header. -/
def SeeksHeader (f : Framer) : Prop :=
  f.framing = .fresh ∨ ∃ before last, f.framing = .between before last

private theorem round_header (hseeks : f.SeeksHeader)
    (hstart : find (startBoundary boundary) f.buffer = some pos) :
    f.round boundary .ok = .ok (f.header boundary pos) := by
  rcases hseeks with h | ⟨before, last, h⟩ <;> simp [round, hstart, h]

theorem run_header_waits (hseeks : f.SeeksHeader)
    (hstart : find (startBoundary boundary) f.buffer = some pos)
    (hblank : find (crlf ++ crlf) f.buffer = none) :
    run boundary f .ok = .ok (f, .dataIsNotReady) := by
  apply run_of_round false
  · rw [round_header hseeks hstart, header, hblank]
  · exact Or.inr (not_goesOn_dataIsNotReady f)

theorem run_header_refused {headerEnd : Nat} (hseeks : f.SeeksHeader)
    (hstart : find (startBoundary boundary) f.buffer = some pos)
    (hblank : find (crlf ++ crlf) f.buffer = some headerEnd)
    (hrefused : (headerAt boundary f.buffer pos).1.isError = true) :
    run boundary f .ok =
      .ok (⟨.inPart f.framing.contents (headerAt boundary f.buffer pos).2,
        f.buffer.drop (headerEnd + 4)⟩, (headerAt boundary f.buffer pos).1) := by
  apply run_of_round false
  · rw [round_header hseeks hstart, header, hblank]
  · exact Or.inr (not_goesOn_error hrefused)

theorem run_header_accepted {headerEnd : Nat} (hseeks : f.SeeksHeader)
    (hstart : find (startBoundary boundary) f.buffer = some pos)
    (hblank : find (crlf ++ crlf) f.buffer = some headerEnd)
    (haccepted : (headerAt boundary f.buffer pos).1.isError = false) :
    run boundary f .ok =
      resume boundary ⟨.inPart f.framing.contents (headerAt boundary f.buffer pos).2,
        f.buffer.drop (headerEnd + 4)⟩ := by
  apply run_of_round_ok
  rw [round_header hseeks hstart, header, hblank, ← headerAt_ok_of_not_error haccepted]

theorem run_fresh_short {buffer : Bytes}
    (hshort : buffer.length < (startBoundary boundary).length) :
    run boundary ⟨.fresh, buffer⟩ .ok = .ok (⟨.fresh, buffer⟩, .dataIsNotReady) := by
  have hsize := startBoundary_length_lt boundary
  have hstart : find (startBoundary boundary) buffer = none := find_eq_none_of_length_lt hshort
  have hend : find (endBoundary boundary) buffer = none :=
    find_eq_none_of_length_lt (by omega)
  apply run_of_round false
  · simp only [round, hstart, hend]
    rw [if_neg (by omega)]
  · exact Or.inr (not_goesOn_dataIsNotReady _)

theorem run_fresh_refused {buffer : Bytes}
    (hlong : (startBoundary boundary).length ≤ buffer.length)
    (hstart : find (startBoundary boundary) buffer = none)
    (hend : find (endBoundary boundary) buffer = none) :
    run boundary ⟨.fresh, buffer⟩ .ok = .ok (⟨.fresh, buffer⟩, .badRequest) := by
  apply run_of_round true
  · simp only [round, hstart, hend]
    rw [if_pos hlong]
  · exact Or.inl rfl

theorem run_fresh_nullPointer {buffer : Bytes}
    (hstart : find (startBoundary boundary) buffer = none)
    (hend : find (endBoundary boundary) buffer = some pos) :
    run boundary ⟨.fresh, buffer⟩ .ok = .error .nullPointer := by
  rw [run_eq]
  simp [round, hstart, hend, Except.bind]

end Header

end Framer

end FortyTwo.Webserv
