import FortyTwo.Foundation.BoundedLoop
import FortyTwo.Webserv.MultipartApply
import FortyTwo.Webserv.ServerRequestParser

/-!
How many bytes the multipart parser hands to parts. It is given the declared
length and never looks at it, so what it receives is the only bound.
-/

namespace FortyTwo.Webserv

open Foundation (except_bind_eq_ok)

namespace RequestMultipartParser

/-- The bytes that the parts of a list have. -/
def storedLength (contents : List RequestContent) : Nat :=
  (contents.map (fun content => content.data.length)).sum

/-- The bytes that the loop of `feed` appends, round by round up to a fault. -/
def loopAppends : Nat → RequestMultipartParser → Status → Nat
  | 0, _, _ => 0
  | fuel + 1, p, status =>
      match p.feedRound status with
      | .error _ => 0
      | .ok (next, status, leave) =>
          storedLength next.contentData - storedLength p.contentData +
            if leave = false ∧ next.buffer.length > next.endBoundary.length ∧
                status.isError = false ∧ status ≠ .dataIsNotReady then
              loopAppends fuel next status
            else 0

def feedAppends (p : RequestMultipartParser) (content : Bytes) : Nat :=
  if p.finished then 0
  else loopAppends ((p.buffer ++ content).length + 1)
    { p with dataSize := addDataSize p.dataSize content.length, buffer := p.buffer ++ content } .ok

/-- The bytes appended while the chunks of a body go through `parse_body`. -/
def bodyAppends (p : RequestMultipartParser) (request : Request) : List Bytes → Nat
  | [] => 0
  | chunk :: rest => p.feedAppends chunk +
      match parseBody p chunk 0 request with
      | .error _ => 0
      | .ok (next, request, status) =>
          if status.isError then 0 else bodyAppends next request rest

private theorem storedLength_append (xs ys : List RequestContent) :
    storedLength (xs ++ ys) = storedLength xs + storedLength ys := by
  rw [storedLength, List.map_append, List.sum_append]
  rfl

private theorem storedLength_set {contents : List RequestContent} {old : RequestContent} :
    ∀ {i : Nat}, contents[i]? = some old → ∀ new : RequestContent,
      storedLength (contents.set i new) + old.data.length =
        storedLength contents + new.data.length := by
  induction contents with
  | nil =>
      intro i h
      cases h
  | cons content contents ih =>
      intro i h new
      cases i with
      | zero =>
          cases h
          simp only [storedLength, List.set_cons_zero, List.map_cons, List.sum_cons]
          omega
      | succ i =>
          have hrest := ih (i := i) h new
          simp only [storedLength, List.set_cons_succ, List.map_cons, List.sum_cons] at hrest ⊢
          omega

/-- What storing a changed element adds. -/
private theorem storedLength_storeLast {p : RequestMultipartParser} {last : RequestContent}
    (h : p.derefLast = .ok last) (new : RequestContent) :
    storedLength (p.storeLast new).contentData + last.data.length =
      storedLength p.contentData + new.data.length := by
  rw [derefLast] at h
  rw [storeLast]
  cases hlast : p.lastContent with
  | none =>
      rw [hlast] at h
      cases h
  | some number =>
      rw [hlast] at h
      simp only at h ⊢
      split at h
      · cases h
      · split at h
        · rename_i content hcontent
          cases h
          exact storedLength_set hcontent new
        · cases h

@[simp] private theorem storeLast_buffer (p : RequestMultipartParser) (content : RequestContent) :
    (p.storeLast content).buffer = p.buffer := by
  rw [storeLast]
  split <;> rfl

private theorem updateLastContent_buffer (p : RequestMultipartParser) :
    p.updateLastContent.buffer = p.buffer := by
  rw [updateLastContent]
  split
  · split <;> rfl
  · rfl

private theorem storedLength_updateLastContent (p : RequestMultipartParser) :
    storedLength p.updateLastContent.contentData = storedLength p.contentData := by
  have hempty : storedLength (p.contentData ++ [({} : RequestContent)]) =
      storedLength p.contentData := by
    rw [storedLength_append]
    rfl
  unfold updateLastContent
  split
  · split
    · exact hempty
    · rfl
  · exact hempty

private theorem parseBodyHeader_data (buffer : Bytes) (boundaryPos startSize : Nat)
    (content : RequestContent) :
    (parseBodyHeader buffer boundaryPos startSize content).2.data = content.data := by
  simp only [parseBodyHeader]
  split <;> rfl

/-- What a step appends to parts, it takes from the buffer. -/
structure Moves (p next : RequestMultipartParser) : Prop where
  grows : storedLength p.contentData ≤ storedLength next.contentData
  takes : storedLength next.contentData + next.buffer.length ≤
    storedLength p.contentData + p.buffer.length

private theorem Moves.refl (p : RequestMultipartParser) : Moves p p :=
  ⟨Nat.le_refl _, Nat.le_refl _⟩

/-- A step that appends `data` to the last part and leaves `buffer`. -/
private theorem Moves.append {p next : RequestMultipartParser} {last new : RequestContent}
    {data : Bytes} (hlast : p.derefLast = .ok last) (hnew : new.data = last.data ++ data)
    (hcontents : next.contentData = (p.storeLast new).contentData)
    (hbuffer : data.length + next.buffer.length ≤ p.buffer.length) : Moves p next := by
  have hstored := storedLength_storeLast hlast new
  rw [← hcontents, hnew, List.length_append] at hstored
  exact ⟨by omega, by omega⟩

private theorem parseBodyWithoutAnyBoundary_moves {p next : RequestMultipartParser}
    {status : Status} (h : p.parseBodyWithoutAnyBoundary = .ok (next, status)) : Moves p next := by
  rw [parseBodyWithoutAnyBoundary] at h
  split at h
  · cases h
    exact Moves.refl p
  · obtain ⟨last, hlast, h⟩ := except_bind_eq_ok.mp h
    cases h
    refine Moves.append hlast rfl rfl ?_
    simp only [storeLast_buffer, List.length_take, List.length_drop]
    omega

private theorem parseAndFinishContent_moves {p next : RequestMultipartParser} {boundaryPos : Nat}
    {status : Status} (h : p.parseAndFinishContent boundaryPos = .ok (next, status)) :
    Moves p next := by
  rw [parseAndFinishContent] at h
  split at h
  · cases h
  · split at h
    · cases h
      exact Moves.refl p
    · obtain ⟨last, hlast, h⟩ := except_bind_eq_ok.mp h
      cases h
      refine Moves.append hlast rfl rfl ?_
      simp only [storeLast_buffer, List.length_take, List.length_drop]
      omega

private theorem parseBodyWithHeader_moves {p next : RequestMultipartParser} {boundaryPos : Nat}
    {status : Status} (h : p.parseBodyWithHeader boundaryPos = .ok (next, status)) :
    Moves p next := by
  rw [parseBodyWithHeader] at h
  split at h
  · cases h
    exact Moves.refl p
  · obtain ⟨last, hlast, h⟩ := except_bind_eq_ok.mp h
    simp only [pure, Except.pure] at h
    cases h
    have hstored := storedLength_storeLast hlast
      (parseBodyHeader p.updateLastContent.buffer boundaryPos
        p.updateLastContent.startBoundary.length last).2
    rw [parseBodyHeader_data, storedLength_updateLastContent] at hstored
    constructor
    · simp only
      omega
    · simp only [storeLast_buffer, updateLastContent_buffer, List.length_drop] at hstored ⊢
      omega

private theorem searchBoundary_eq {p q : RequestMultipartParser} {found : Option Nat}
    (h : p.searchBoundary = (found, q)) : q.contentData = p.contentData ∧ q.buffer = p.buffer := by
  rw [searchBoundary] at h
  split at h
  · cases h
    exact ⟨rfl, rfl⟩
  · split at h <;> cases h <;> exact ⟨rfl, rfl⟩

/-- What one round of the loop of `feed` moves. -/
private theorem feedRound_moves {p next : RequestMultipartParser} {status status' : Status}
    {leave : Bool} (h : p.feedRound status = .ok (next, status', leave)) : Moves p next := by
  rw [feedRound] at h
  cases hsearch : p.searchBoundary with
  | mk found q =>
      obtain ⟨hcontents, hbuffer⟩ := searchBoundary_eq hsearch
      have hmoves : Moves q next → Moves p next := by
        rintro ⟨hgrows, htakes⟩
        rw [hcontents] at hgrows htakes
        rw [hbuffer] at htakes
        exact ⟨hgrows, htakes⟩
      apply hmoves
      rw [hsearch] at h
      cases found with
      | none =>
          simp only at h
          split at h
          · cases h
            exact Moves.refl _
          · obtain ⟨r, hround, h⟩ := except_bind_eq_ok.mp h
            cases h
            exact parseBodyWithoutAnyBoundary_moves hround
      | some boundaryPos =>
          simp only at h
          split at h
          · obtain ⟨last, hlast, h⟩ := except_bind_eq_ok.mp h
            cases h
            refine Moves.append hlast rfl rfl ?_
            simp only [List.length_take, List.length_nil]
            omega
          · obtain ⟨unfinished, -, h⟩ := except_bind_eq_ok.mp h
            split at h
            · obtain ⟨r, hround, h⟩ := except_bind_eq_ok.mp h
              cases h
              exact parseAndFinishContent_moves hround
            · obtain ⟨r, hround, h⟩ := except_bind_eq_ok.mp h
              cases h
              exact parseBodyWithHeader_moves hround

/-- What the loop appends, it takes from the buffer, also when it faults. -/
private theorem loopAppends_le (fuel : Nat) : ∀ (p : RequestMultipartParser) (status : Status),
    loopAppends fuel p status ≤ p.buffer.length ∧
      ∀ next status', feedLoop fuel p status = .ok (next, status') →
        loopAppends fuel p status + next.buffer.length ≤ p.buffer.length := by
  induction fuel with
  | zero =>
      intro p status
      refine ⟨Nat.zero_le _, ?_⟩
      intro next status' h
      cases h
  | succ fuel ih =>
      intro p status
      rw [loopAppends, feedLoop]
      cases hround : p.feedRound status with
      | error fault =>
          refine ⟨Nat.zero_le _, ?_⟩
          intro next status' h
          cases h
      | ok r =>
          obtain ⟨next, status', leave⟩ := r
          obtain ⟨hgrows, htakes⟩ := feedRound_moves hround
          obtain ⟨hle, hbuffer⟩ := ih next status'
          simp only [bind, Except.bind]
          cases leave with
          | true =>
              rw [if_neg (fun h => Bool.noConfusion h.1)]
              refine ⟨by omega, ?_⟩
              intro last status'' h
              cases h
              omega
          | false =>
              simp only [Bool.false_eq_true, if_false, true_and]
              split
              · refine ⟨by omega, ?_⟩
                intro last status'' h
                have hlast := hbuffer last status'' h
                omega
              · refine ⟨by omega, ?_⟩
                intro last status'' h
                cases h
                omega

private theorem feedAppends_le (p : RequestMultipartParser) (content : Bytes) :
    p.feedAppends content ≤ p.buffer.length + content.length ∧
      ∀ next status, p.feed content 0 = .ok (next, status) →
        p.feedAppends content + next.buffer.length ≤ p.buffer.length + content.length := by
  rw [feedAppends, feed]
  by_cases hfinished : p.finished = true
  · rw [if_pos hfinished, if_pos hfinished]
    refine ⟨Nat.zero_le _, ?_⟩
    intro next status h
    cases h
    omega
  · rw [if_neg hfinished, if_neg hfinished, if_neg (Nat.not_lt_zero _)]
    have hloop := loopAppends_le ((p.buffer ++ content).length + 1)
      { p with
        dataSize := addDataSize p.dataSize content.length
        buffer := p.buffer ++ content } .ok
    simp only [List.length_append] at hloop ⊢
    exact hloop

/-- No more is appended than the parser holds and receives. -/
private theorem bodyAppends_le (chunks : List Bytes) :
    ∀ (p : RequestMultipartParser) (request : Request),
      p.bodyAppends request chunks ≤ p.buffer.length + chunks.flatten.length := by
  induction chunks with
  | nil => exact fun p request => Nat.zero_le _
  | cons chunk rest ih =>
      intro p request
      obtain ⟨hle, hbuffer⟩ := p.feedAppends_le chunk
      rw [bodyAppends, List.flatten_cons, List.length_append]
      cases hfeed : p.feed chunk 0 with
      | error fault =>
          rw [parseBody_of_fault hfeed]
          simp only
          omega
      | ok r =>
          obtain ⟨next, status⟩ := r
          have hnext := hbuffer next status hfeed
          have hrest := ih (next.apply request).1 (next.apply request).2
          have hkept : (next.apply request).1.buffer = next.buffer := rfl
          rw [hkept] at hrest
          rw [parseBody_of_feed hfeed]
          by_cases herror : status.isError = true
          · rw [if_pos herror]
            simp only [herror, if_true]
            omega
          · have hstops (refused : Status) :
                (if refused.isError then 0
                else (next.apply request).1.bodyAppends (next.apply request).2 rest) ≤
                  next.buffer.length + rest.flatten.length := by
              split
              · exact Nat.zero_le _
              · exact hrest
            rw [if_neg herror]
            have hbound := hstops (if (next.apply request).1.finished = true ∧
                (next.apply request).2.transferedLength ≠ (next.apply request).2.contentLength then
              .badRequest
            else .ok)
            simp only
            omega

/-- After each chunk no more has been appended than the head declares. -/
def AppendsWithin (p : RequestMultipartParser) (request : Request) (chunks : List Bytes) : Prop :=
  ∀ sent, sent <+: chunks → p.bodyAppends request sent ≤ request.contentLength

/-- The declared length bounds the parts of a body that is not longer. -/
theorem appendsWithin_of_length {request : Request} {p : RequestMultipartParser}
    (hparser : ServerRequestParser.createBodyParser request = .ok (.multipart p))
    {chunks : List Bytes} (hlength : chunks.flatten.length ≤ request.contentLength) :
    p.AppendsWithin request chunks := by
  have hempty : p.buffer = [] := by
    rw [ServerRequestParser.createBodyParser] at hparser
    split at hparser
    · cases hparser
    · split at hparser
      · split at hparser
        · cases hparser
          rfl
        · cases hparser
      · cases hparser
  rintro sent ⟨rest, rfl⟩
  have hsent := bodyAppends_le sent p request
  rw [hempty, List.length_nil, Nat.zero_add] at hsent
  rw [List.flatten_append, List.length_append] at hlength
  omega

/-- A form with the boundary `b`. -/
def formOf (contentLength : Nat) : Request := {
  method := bytes "POST"
  contentLength := contentLength
  contentType := {
    type := bytes "multipart"
    subtype := bytes "form-data"
    parameters := [(bytes "boundary", bytes "b")] } }

/-- A body whose part has no end yet. -/
def openForm : Bytes :=
  bytes "--b\r\nContent-Disposition: form-data; name=\"n\"\r\n\r\nabcdefghijklmnop"

theorem appendsWithin_openForm :
    (init (bytes "b")).AppendsWithin (formOf 100) [openForm] :=
  appendsWithin_of_length rfl (by decide)

/-- Seven bytes go to the part behind a head that declares one. -/
theorem not_appendsWithin_openForm :
    ServerRequestParser.createBodyParser (formOf 1) = .ok (.multipart (init (bytes "b"))) ∧
      ¬ (init (bytes "b")).AppendsWithin (formOf 1) [openForm] := by
  refine ⟨rfl, ?_⟩
  intro h
  have hone : (init (bytes "b")).bodyAppends (formOf 1) [openForm] ≤ 1 :=
    h [openForm] (List.prefix_refl _)
  exact absurd hone (by decide +kernel)

end RequestMultipartParser

end FortyTwo.Webserv
