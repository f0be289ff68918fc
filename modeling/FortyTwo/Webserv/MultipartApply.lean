import FortyTwo.Webserv.MultipartRun

/-!
`apply` between the feeds. It takes elements off the front of the list that
`_last_content` points into; what is left is the state of the machine with
fewer elements before its last one, unless all of them have gone.
-/

namespace FortyTwo.Webserv

open Foundation

namespace RequestMultipartParser

/-- What `apply` leaves in the parser: the first elements are gone, and the next
one may have lost its bytes. -/
structure LeftAfter (contents left : List RequestContent) (k : Nat) : Prop where
  le : k ≤ contents.length
  gone : ∀ c ∈ contents.take k, c.isFinished = true
  rest : left = contents.drop k ∨
    ∃ front rest, contents.drop k = front :: rest ∧ left = { front with data := [] } :: rest

private theorem LeftAfter.cons {front : RequestContent} {contents left : List RequestContent}
    {k : Nat} (hfront : front.isFinished = true) (h : LeftAfter contents left k) :
    LeftAfter (front :: contents) left (k + 1) where
  le := by
    have hle := h.le
    rw [List.length_cons]
    omega
  gone := by
    intro c hc
    rw [List.take_succ_cons, List.mem_cons] at hc
    rcases hc with rfl | hc
    · exact hfront
    · exact h.gone c hc
  rest := h.rest

private theorem leftAfter_break (front : RequestContent) (rest : List RequestContent) :
    LeftAfter (front :: rest) ({ front with data := [] } :: rest) 0 where
  le := by omega
  gone := by simp
  rest := Or.inr ⟨front, rest, rfl, rfl⟩

theorem applyLoop_left (requestData contents : List RequestContent) :
    LeftAfter contents (applyLoop requestData contents).2.1
      (applyLoop requestData contents).2.2 := by
  induction contents generalizing requestData with
  | nil => exact ⟨by simp [applyLoop], by simp, Or.inl rfl⟩
  | cons front contents ih =>
      rw [applyLoop]
      cases hlast : requestData.getLast? with
      | none =>
          simp only
          split
          · exact leftAfter_break front contents
          · rename_i hfront
            exact (ih _).cons (by simpa using hfront)
      | some last =>
          simp only
          split
          · rename_i hmerge
            exact (LeftAfter.cons hmerge.1 ⟨by omega, by simp, Or.inl rfl⟩)
          · split
            · exact leftAfter_break front contents
            · rename_i hfront
              exact (ih _).cons (by simpa using hfront)

/-- The last element of what is left is the last element of the list. -/
theorem LeftAfter.getLast? {contents left : List RequestContent} {k : Nat}
    (h : LeftAfter contents left k) {before : List RequestContent} {last : RequestContent}
    (hcontents : contents = before ++ [last]) (hne : left ≠ []) :
    ∃ before' last', left = before' ++ [last'] ∧ last'.isFinished = last.isFinished := by
  have hk : k ≤ before.length := by
    by_contra hlt
    have hdrop : contents.drop k = [] := by
      rw [List.drop_eq_nil_iff, hcontents, List.length_append, List.length_singleton]
      omega
    rcases h.rest with hrest | ⟨front, rest, hrest, _⟩
    · exact hne (hrest.trans hdrop)
    · rw [hdrop] at hrest
      cases hrest
  have hdrop : contents.drop k = before.drop k ++ [last] := by
    rw [hcontents, List.drop_append_of_le_length hk]
  rcases h.rest with hrest | ⟨front, rest, hrest, hleft⟩
  · exact ⟨before.drop k, last, hrest.trans hdrop, rfl⟩
  · rw [hdrop] at hrest
    cases hbefore : before.drop k with
    | nil =>
        rw [hbefore, List.nil_append] at hrest
        obtain ⟨rfl, rfl⟩ := List.cons.inj hrest
        exact ⟨[], { last with data := [] }, hleft, rfl⟩
    | cons c before' =>
        rw [hbefore, List.cons_append] at hrest
        obtain ⟨rfl, rfl⟩ := List.cons.inj hrest
        exact ⟨{ c with data := [] } :: before', last, hleft, rfl⟩

theorem LeftAfter.length_eq {contents left : List RequestContent} {k : Nat}
    (h : LeftAfter contents left k) : contents.length = k + left.length := by
  have hle := h.le
  have hlen : (contents.drop k).length = contents.length - k := List.length_drop
  rcases h.rest with hrest | ⟨front, rest, hrest, hleft⟩
  · rw [hrest, hlen]
    omega
  · rw [hrest] at hlen
    rw [hleft, List.length_cons]
    rw [List.length_cons] at hlen
    omega

/-- `apply` on a parser that holds `left` afterwards. -/
theorem apply_toParser (boundary : Bytes) (f g : Framer) (popped : Nat) (dataSize : Int)
    (request : Request) (requestData : List RequestContent) (k : Nat)
    (hbuffer : g.buffer = f.buffer) (hclosed : g.framing.isClosed = f.framing.isClosed)
    (hfresh : g.framing.isFresh = f.framing.isFresh)
    (hlength : f.framing.contents.length = k + g.framing.contents.length)
    (happly : applyLoop request.contentData f.framing.contents =
      (requestData, g.framing.contents, k)) :
    (f.toParser boundary popped dataSize).apply request =
      (g.toParser boundary (popped + k) dataSize,
        { request with
          contentData := requestData
          transferedLength := (dataSize % 2 ^ 64).toNat }) := by
  have hsum : popped + (k + g.framing.contents.length) - 1 =
      popped + k + g.framing.contents.length - 1 := by omega
  simp only [apply, Framer.toParser, happly, hlength, hbuffer, hclosed, hfresh, hsum]

/-- The parser after all of its elements have gone over. -/
def allPopped (boundary buffer : Bytes) (number : Nat) (dataSize : Int) (closed : Bool) :
    RequestMultipartParser where
  startBoundary := Webserv.startBoundary boundary
  endBoundary := Webserv.endBoundary boundary
  buffer := buffer
  dataSize := dataSize
  contentData := []
  popped := number + 1
  lastContent := some number
  endBoundaryFound := closed
  finished := closed
  firstHeaderFound := true

theorem apply_allPopped (boundary : Bytes) (f : Framer) (popped : Nat) (dataSize : Int)
    (request : Request) (hfresh : f.framing.isFresh = false)
    (hleft : (applyLoop request.contentData f.framing.contents).2.1 = []) :
    ∃ number, ((f.toParser boundary popped dataSize).apply request).1 =
      allPopped boundary f.buffer number dataSize f.framing.isClosed := by
  have hlen := (applyLoop_left request.contentData f.framing.contents).length_eq
  rw [hleft, List.length_nil, Nat.add_zero] at hlen
  have hpos : 0 < f.framing.contents.length := by
    cases hf : f.framing <;> simp [hf] at hfresh ⊢
  obtain ⟨number, hnumber⟩ : ∃ n, popped + f.framing.contents.length = n + 1 :=
    ⟨popped + f.framing.contents.length - 1, by omega⟩
  refine ⟨number, ?_⟩
  simp [apply, Framer.toParser, allPopped, hleft, ← hlen, hnumber, hfresh]

/-- The states of a parser between two calls of `parse_body`. -/
inductive Linked (boundary : Bytes) : RequestMultipartParser → Prop
  | live (f : Framer) (popped : Nat) (dataSize : Int) :
      Linked boundary (f.toParser boundary popped dataSize)
  | popped (buffer : Bytes) (number : Nat) (dataSize : Int) (closed : Bool) :
      Linked boundary (allPopped boundary buffer number dataSize closed)

theorem linked_init (boundary : Bytes) : Linked boundary (init boundary) :=
  .live ⟨.fresh, []⟩ 0 0

/-- A state with the elements that are left. -/
private theorem exists_framing {framing : Framing} {left : List RequestContent} {k : Nat}
    (h : LeftAfter framing.contents left k) (hne : left ≠ []) :
    ∃ g : Framing, g.contents = left ∧ g.isClosed = framing.isClosed ∧
      g.isFresh = framing.isFresh := by
  cases framing with
  | fresh =>
      have hlen := h.length_eq
      rw [contents_fresh, List.length_nil] at hlen
      exact absurd (List.length_eq_zero_iff.mp (by omega)) hne
  | inPart before current =>
      obtain ⟨before', last', hleft, hlast⟩ := h.getLast? rfl hne
      refine ⟨.inPart before' last', ?_, rfl, rfl⟩
      rw [contents_inPart, hleft]
      simp only at hlast
      rw [← hlast]
  | between before last =>
      obtain ⟨before', last', hleft, hlast⟩ := h.getLast? rfl hne
      refine ⟨.between before' last', ?_, rfl, rfl⟩
      rw [contents_between, hleft]
      simp only at hlast
      rw [← hlast]
  | closed before last =>
      obtain ⟨before', last', hleft, hlast⟩ := h.getLast? rfl hne
      refine ⟨.closed before' last', ?_, rfl, rfl⟩
      rw [contents_closed, hleft]
      simp only at hlast
      rw [← hlast]

/-- `apply` keeps the link between the list and `_last_content`. -/
theorem linked_apply {boundary : Bytes} {p : RequestMultipartParser} (h : Linked boundary p)
    (request : Request) : Linked boundary (p.apply request).1 := by
  cases h with
  | popped buffer number dataSize closed => exact .popped buffer number dataSize closed
  | live f popped dataSize =>
      have hleft := applyLoop_left request.contentData f.framing.contents
      by_cases hfresh : f.framing.isFresh = true
      · have hframing : f.framing = .fresh := by
          cases hf : f.framing <;> simp [hf] at hfresh
          rfl
        have happly : applyLoop request.contentData f.framing.contents =
            (request.contentData, f.framing.contents, 0) := by
          simp [hframing, applyLoop]
        rw [apply_toParser boundary f f popped dataSize _ _ _ rfl rfl rfl (by omega) happly]
        exact .live f _ _
      · by_cases hne : (applyLoop request.contentData f.framing.contents).2.1 = []
        · obtain ⟨number, hpopped⟩ := apply_allPopped boundary f popped dataSize
            request (Bool.eq_false_iff.mpr hfresh) hne
          rw [hpopped]
          exact .popped _ _ _ _
        · obtain ⟨g, hg, hclosed, hfresh'⟩ := exists_framing hleft hne
          have happly : applyLoop request.contentData f.framing.contents =
              ((applyLoop request.contentData f.framing.contents).1,
                (⟨g, f.buffer⟩ : Framer).framing.contents,
                (applyLoop request.contentData f.framing.contents).2.2) := by
            simp only [hg]
          rw [apply_toParser boundary f ⟨g, f.buffer⟩ popped dataSize _ _ _ rfl hclosed hfresh'
            (by rw [hg]; exact hleft.length_eq) happly]
          exact .live _ _ _

/-- What a round asks of the state it begins in: no end boundary before the
first header, no boundary and not many bytes once all elements have gone over,
and two bytes before a start boundary that ends a part. -/
structure Safe (p : RequestMultipartParser) : Prop where
  first : p.firstHeaderFound = false → find p.endBoundary p.buffer ≠ none →
    find p.startBoundary p.buffer ≠ none
  popped : p.firstHeaderFound = true → p.contentData = [] →
    find p.startBoundary p.buffer = none ∧ find p.endBoundary p.buffer = none ∧
      p.buffer.length < p.endBoundary.length
  line : ∀ last pos, p.contentData.getLast? = some last → last.isFinished = false →
    find p.startBoundary p.buffer = some pos → 2 ≤ pos

/-- Every round of the loop of `feed` begins in a safe state. -/
def SafeLoop : Nat → RequestMultipartParser → Status → Prop
  | 0, _, _ => True
  | fuel + 1, p, status => p.Safe ∧ ∀ next status',
      p.feedRound status = .ok (next, status', false) →
      next.buffer.length > next.endBoundary.length ∧ status'.isError = false ∧
        status' ≠ .dataIsNotReady →
      SafeLoop fuel next status'

def SafeFeed (p : RequestMultipartParser) (content : Bytes) : Prop :=
  p.finished = false → SafeLoop ((p.buffer ++ content).length + 1)
    { p with dataSize := addDataSize p.dataSize content.length, buffer := p.buffer ++ content } .ok

/-- Every round of all the feeds that `parse_body` makes begins in a safe state. -/
def SafeRun (p : RequestMultipartParser) (request : Request) : List Bytes → Prop
  | [] => True
  | chunk :: rest => p.SafeFeed chunk ∧ ∀ p' request' status,
      parseBody p chunk 0 request = .ok (p', request', status) → status.isError = false →
      SafeRun p' request' rest

section Live

variable (boundary : Bytes) {f : Framer} (popped : Nat) (dataSize : Int)

private theorem safe_iff_round (status : Status) (hopen : f.framing.isClosed = false) :
    (f.toParser boundary popped dataSize).Safe ↔ ∃ r, f.round boundary status = .ok r := by
  obtain ⟨framing, buffer⟩ := f
  cases framing with
  | closed before last => cases hopen
  | fresh =>
      constructor
      · rintro ⟨hfirst, _, _⟩
        simp only [Framer.toParser] at hfirst
        cases hstart : find (Webserv.startBoundary boundary) buffer with
        | some pos =>
            simp only [Framer.round, hstart]
            exact ⟨_, rfl⟩
        | none =>
            cases hend : find (Webserv.endBoundary boundary) buffer with
            | some pos => exact absurd hstart (hfirst rfl (by rw [hend]; simp))
            | none =>
                simp only [Framer.round, hstart, hend]
                split <;> exact ⟨_, rfl⟩
      · rintro ⟨r, hround⟩
        refine ⟨?_, ?_, ?_⟩
        · intro _ hend hstart
          simp only [Framer.toParser] at hend hstart
          obtain ⟨pos, hpos⟩ := Option.ne_none_iff_exists'.mp hend
          simp [Framer.round, hstart, hpos] at hround
        · intro h
          cases h
        · intro last pos h
          cases h
  | inPart before current =>
      constructor
      · rintro ⟨_, _, hline⟩
        simp only [Framer.toParser] at hline
        cases hstart : find (Webserv.startBoundary boundary) buffer with
        | some pos =>
            have hpos := hline { current with isFinished := false } pos (by simp) rfl hstart
            simp only [Framer.round, hstart]
            rw [if_neg (by omega)]
            split <;> exact ⟨_, rfl⟩
        | none =>
            cases hend : find (Webserv.endBoundary boundary) buffer with
            | some pos =>
                simp only [Framer.round, hstart, hend]
                exact ⟨_, rfl⟩
            | none =>
                simp only [Framer.round, hstart, hend]
                exact ⟨_, rfl⟩
      · rintro ⟨r, hround⟩
        refine ⟨?_, ?_, ?_⟩
        · intro h
          cases h
        · intro _ h
          simp [Framer.toParser] at h
        · intro last pos _ _ hstart
          by_contra hlt
          simp only [Framer.toParser] at hstart
          simp only [Framer.round, hstart] at hround
          rw [if_pos (by omega)] at hround
          cases hround
  | between before last =>
      refine ⟨fun _ => ?_, fun _ => ⟨?_, ?_, ?_⟩⟩
      · cases hstart : find (Webserv.startBoundary boundary) buffer with
        | some pos =>
            simp only [Framer.round, hstart]
            exact ⟨_, rfl⟩
        | none =>
            cases hend : find (Webserv.endBoundary boundary) buffer with
            | some pos =>
                simp only [Framer.round, hstart, hend]
                exact ⟨_, rfl⟩
            | none =>
                simp only [Framer.round, hstart, hend]
                exact ⟨_, rfl⟩
      · intro h
        cases h
      · intro _ h
        simp [Framer.toParser] at h
      · intro last' pos hlast hfinished
        simp only [Framer.toParser, contents_between, List.getLast?_concat,
          Option.some.injEq] at hlast
        rw [← hlast] at hfinished
        cases hfinished

private theorem feedLoop_live_iff (n : Nat) (status : Status) (hopen : f.framing.isClosed = false)
    (hn : f.buffer.length < n) :
    (∃ r, feedLoop n (f.toParser boundary popped dataSize) status = .ok r) ↔
      SafeLoop n (f.toParser boundary popped dataSize) status := by
  induction n generalizing f status with
  | zero => omega
  | succ n ih =>
      have hsafe := safe_iff_round boundary popped dataSize status hopen
      have hround := Framer.round_toParser boundary popped dataSize f status hopen
      simp only [feedLoop, SafeLoop, hsafe, hround]
      cases hstep : f.round boundary status with
      | error fault => simp [Except.map, bind, Except.bind]
      | ok r =>
          obtain ⟨next, status', leave⟩ := r
          simp only [Except.map, bind, Except.bind, pure, Except.pure]
          cases leave with
          | true => simp
          | false =>
              have hopen' := Framer.round_open boundary hopen hstep
              by_cases hgoes : next.goesOn boundary status'
              · have hlt := Framer.round_shrinks boundary hstep hgoes
                have hnext := ih (f := next) status' hopen' (by omega)
                have hgoes' : (next.toParser boundary popped dataSize).buffer.length >
                    (next.toParser boundary popped dataSize).endBoundary.length ∧
                    status'.isError = false ∧ status' ≠ .dataIsNotReady := hgoes
                rw [if_neg Bool.false_ne_true, if_pos hgoes', hnext]
                constructor
                · rintro h
                  refine ⟨⟨_, rfl⟩, ?_⟩
                  intro next' status'' heq _
                  cases heq
                  exact h
                · rintro ⟨_, h⟩
                  exact h _ _ rfl hgoes'
              · have hgoes' : ¬ ((next.toParser boundary popped dataSize).buffer.length >
                    (next.toParser boundary popped dataSize).endBoundary.length ∧
                    status'.isError = false ∧ status' ≠ .dataIsNotReady) := hgoes
                rw [if_neg Bool.false_ne_true, if_neg hgoes']
                refine ⟨fun _ => ⟨⟨_, rfl⟩, ?_⟩, fun _ => ⟨_, rfl⟩⟩
                intro next' status'' heq hgoes''
                cases heq
                exact absurd hgoes'' hgoes'

end Live

section Popped

variable (boundary buffer : Bytes) (number : Nat) (dataSize : Int)

/-- Without an element to point to, a round can only wait. -/
private theorem popped_round (status : Status) :
    ((allPopped boundary buffer number dataSize false).Safe ∧
      (allPopped boundary buffer number dataSize false).feedRound status =
        .ok (allPopped boundary buffer number dataSize false, .dataIsNotReady, false)) ∨
    (¬ (allPopped boundary buffer number dataSize false).Safe ∧
      (allPopped boundary buffer number dataSize false).feedRound status = .error .dangling) := by
  cases hstart : find (Webserv.startBoundary boundary) buffer with
  | some pos =>
      right
      constructor
      · intro hsafe
        have hnone := (hsafe.popped rfl rfl).1
        simp only [allPopped] at hnone
        rw [hstart] at hnone
        cases hnone
      · simp [feedRound, searchBoundary, allPopped, hstart, lastUnfinished, derefLast, bind,
          Except.bind, Except.map]
  | none =>
      cases hend : find (Webserv.endBoundary boundary) buffer with
      | some pos =>
          right
          constructor
          · intro hsafe
            have hnone := (hsafe.popped rfl rfl).2.1
            simp only [allPopped] at hnone
            rw [hend] at hnone
            cases hnone
          · simp [feedRound, searchBoundary, allPopped, hstart, hend, derefLast, bind, Except.bind]
      | none =>
          by_cases hshort : buffer.length < (Webserv.endBoundary boundary).length
          · left
            refine ⟨⟨?_, fun _ _ => ⟨hstart, hend, hshort⟩, ?_⟩, ?_⟩
            · intro h
              cases h
            · intro last pos h
              cases h
            · simp [feedRound, searchBoundary, allPopped, hstart, hend, hshort,
                parseBodyWithoutAnyBoundary, bind, Except.bind, pure, Except.pure]
          · right
            constructor
            · intro hsafe
              exact hshort (hsafe.popped rfl rfl).2.2
            · simp [feedRound, searchBoundary, allPopped, hstart, hend, hshort, derefLast,
                parseBodyWithoutAnyBoundary, bind, Except.bind]

private theorem popped_loop (n : Nat) (status : Status) :
    (SafeLoop (n + 1) (allPopped boundary buffer number dataSize false) status ∧
      feedLoop (n + 1) (allPopped boundary buffer number dataSize false) status =
        .ok (allPopped boundary buffer number dataSize false, .dataIsNotReady)) ∨
    (¬ SafeLoop (n + 1) (allPopped boundary buffer number dataSize false) status ∧
      feedLoop (n + 1) (allPopped boundary buffer number dataSize false) status =
        .error .dangling) := by
  rcases popped_round boundary buffer number dataSize status with ⟨hsafe, hround⟩ | ⟨hsafe, hround⟩
  · left
    refine ⟨⟨hsafe, ?_⟩, ?_⟩
    · intro next status' heq hgoes
      rw [hround] at heq
      cases heq
      exact absurd rfl hgoes.2.2
    · simp [feedLoop, hround, bind, Except.bind, pure, Except.pure]
  · right
    refine ⟨fun h => hsafe h.1, ?_⟩
    simp [feedLoop, hround, bind, Except.bind]

end Popped

/-- A feed from a linked state ends without a fault exactly when its rounds are
safe, and then in a linked state. -/
theorem feed_linked {boundary : Bytes} {p : RequestMultipartParser} (h : Linked boundary p)
    (content : Bytes) :
    ((∃ r, p.feed content 0 = .ok r) ↔ p.SafeFeed content) ∧
      ∀ r, p.feed content 0 = .ok r → Linked boundary r.1 := by
  cases h with
  | live f popped dataSize =>
      have hfeed := Framer.feed_toParser boundary popped dataSize f content
      constructor
      · cases hclosed : f.framing.isClosed with
        | true =>
            have hfinished : (f.toParser boundary popped dataSize).finished = true := hclosed
            refine ⟨fun _ hopen => ?_, fun _ => ⟨_, by simp only [feed, hfinished, if_true]; rfl⟩⟩
            rw [hfinished] at hopen
            cases hopen
        | false =>
            have hfinished : (f.toParser boundary popped dataSize).finished = false := hclosed
            have hloop := feedLoop_live_iff boundary (f := ⟨f.framing, f.buffer ++ content⟩) popped
              (addDataSize dataSize content.length) ((f.buffer ++ content).length + 1) .ok hclosed
              (by simp only; omega)
            simp only [feed, hfinished, Bool.false_eq_true, if_false, Nat.not_lt_zero, Nat.sub_zero,
              List.drop_zero, SafeFeed, true_implies]
            simp only [Framer.toParser, hclosed] at hloop ⊢
            exact hloop
      · intro r hr
        rw [hfeed] at hr
        cases hmachine : f.feed boundary content with
        | error fault =>
            rw [hmachine] at hr
            cases hr
        | ok next =>
            rw [hmachine] at hr
            cases hr
            exact .live next.1 _ _
  | popped buffer number dataSize closed =>
      cases closed with
      | true =>
          have hfeed : (allPopped boundary buffer number dataSize true).feed content 0 =
              .ok (allPopped boundary buffer number dataSize true, .badRequest) := rfl
          rw [hfeed]
          refine ⟨⟨fun _ hopen => ?_, fun _ => ⟨_, rfl⟩⟩, ?_⟩
          · cases hopen
          · rintro r ⟨⟩
            exact .popped _ _ _ _
      | false =>
          have hfeed : (allPopped boundary buffer number dataSize false).feed content 0 =
              feedLoop ((buffer ++ content).length + 1) (allPopped boundary (buffer ++ content)
                number (addDataSize dataSize content.length) false) .ok := by
            simp [feed, allPopped]
          have hsafe : (allPopped boundary buffer number dataSize false).SafeFeed content ↔
              SafeLoop ((buffer ++ content).length + 1) (allPopped boundary (buffer ++ content)
                number (addDataSize dataSize content.length) false) .ok :=
            ⟨fun h => h rfl, fun h _ => h⟩
          rw [hfeed, hsafe]
          rcases popped_loop boundary (buffer ++ content) number
            (addDataSize dataSize content.length) (buffer ++ content).length .ok with
            ⟨hloop, hrun⟩ | ⟨hloop, hrun⟩
          · rw [hrun]
            refine ⟨⟨fun _ => hloop, fun _ => ⟨_, rfl⟩⟩, ?_⟩
            rintro r ⟨⟩
            exact .popped _ _ _ _
          · rw [hrun]
            refine ⟨⟨?_, fun h => absurd h hloop⟩, ?_⟩
            · rintro ⟨r, hr⟩
              cases hr
            · intro r hr
              cases hr

/-- After all elements have gone over, the parser looks at one of them when it
finds the next start boundary. -/
theorem feed_allPopped_start {boundary buffer content : Bytes} {pos : Nat} (number : Nat)
    (dataSize : Int)
    (hstart : find (Webserv.startBoundary boundary) (buffer ++ content) = some pos) :
    (allPopped boundary buffer number dataSize false).feed content 0 = .error .dangling := by
  simp [feed, allPopped, feedLoop, feedRound, searchBoundary, hstart, lastUnfinished, derefLast,
    bind, Except.bind, Except.map]

/-- Without elements nothing finishes. -/
theorem feed_allPopped_finished {boundary buffer content : Bytes} {number : Nat} {dataSize : Int}
    {r : RequestMultipartParser × Status}
    (h : (allPopped boundary buffer number dataSize false).feed content 0 = .ok r) :
    r.1.finished = false := by
  have hfeed : (allPopped boundary buffer number dataSize false).feed content 0 =
      feedLoop ((buffer ++ content).length + 1) (allPopped boundary (buffer ++ content)
        number (addDataSize dataSize content.length) false) .ok := by
    simp [feed, allPopped]
  rw [hfeed] at h
  rcases popped_loop boundary (buffer ++ content) number
    (addDataSize dataSize content.length) (buffer ++ content).length .ok with
    ⟨_, hrun⟩ | ⟨_, hrun⟩
  · rw [hrun] at h
    cases h
    rfl
  · rw [hrun] at h
    cases h

theorem parseBody_of_feed {p next : RequestMultipartParser} {content : Bytes} {status : Status}
    (hfeed : p.feed content 0 = .ok (next, status)) (request : Request) :
    parseBody p content 0 request =
      if status.isError then .ok (next, request, status)
      else .ok ((next.apply request).1, (next.apply request).2,
        if (next.apply request).1.finished = true ∧
            (next.apply request).2.transferedLength ≠ (next.apply request).2.contentLength then
          .badRequest
        else .ok) := by
  change (p.feed content 0 >>= _) = _
  rw [hfeed]
  simp only [bind, Except.bind]
  split
  · rfl
  · change (if _ then _ else _) = _
    split
    · rename_i h
      have hlength : (next.apply request).1.finished = true ∧
          (next.apply request).2.transferedLength ≠ (next.apply request).2.contentLength := h
      rw [if_pos hlength]
      rfl
    · rename_i h
      have hlength : ¬ ((next.apply request).1.finished = true ∧
          (next.apply request).2.transferedLength ≠ (next.apply request).2.contentLength) := h
      rw [if_neg hlength]
      rfl

theorem parseBody_of_fault {p : RequestMultipartParser} {content : Bytes} {fault : Fault}
    (hfeed : p.feed content 0 = .error fault) (request : Request) :
    parseBody p content 0 request = .error fault := by
  change (p.feed content 0 >>= _) = _
  rw [hfeed]
  rfl

/-- `parse_body` keeps the link, too. -/
theorem parseBody_linked {boundary : Bytes} {p : RequestMultipartParser} (h : Linked boundary p)
    (content : Bytes) (request : Request) :
    ((∃ r, parseBody p content 0 request = .ok r) ↔ p.SafeFeed content) ∧
      ∀ r, parseBody p content 0 request = .ok r → Linked boundary r.1 := by
  obtain ⟨hiff, hlinked⟩ := feed_linked h content
  rw [← hiff]
  have hbody : ∀ next status, p.feed content 0 = .ok (next, status) →
      ∃ r, parseBody p content 0 request = .ok r ∧ Linked boundary r.1 := by
    intro next status hfeed
    have hnext := hlinked _ hfeed
    rw [parseBody_of_feed hfeed]
    split
    · exact ⟨_, rfl, hnext⟩
    · exact ⟨_, rfl, linked_apply hnext request⟩
  cases hfeed : p.feed content 0 with
  | error fault =>
      rw [parseBody_of_fault hfeed]
      refine ⟨⟨?_, ?_⟩, ?_⟩
      · rintro ⟨r, hr⟩
        cases hr
      · rintro ⟨r, hr⟩
        cases hr
      · intro r hr
        cases hr
  | ok next =>
      obtain ⟨r, hr, hnext⟩ := hbody next.1 next.2 hfeed
      rw [hr]
      refine ⟨⟨fun _ => ⟨_, rfl⟩, fun _ => ⟨_, rfl⟩⟩, ?_⟩
      rintro r' ⟨⟩
      exact hnext

/-- A run of `parse_body` over any chunks dereferences and indexes only what is
there, and comes to its end, exactly when its rounds begin in safe states. -/
theorem parseBodyChunks_ok_iff (boundary : Bytes) (request : Request) (chunks : List Bytes) :
    (∃ r, parseBodyChunks (init boundary) request chunks = .ok r) ↔
      SafeRun (init boundary) request chunks := by
  suffices hlinked : ∀ p request, Linked boundary p →
      ((∃ r, parseBodyChunks p request chunks = .ok r) ↔ SafeRun p request chunks) from
    hlinked _ request (linked_init boundary)
  intro p request hp
  induction chunks generalizing p request with
  | nil => exact ⟨fun _ => trivial, fun _ => ⟨_, rfl⟩⟩
  | cons chunk rest ih =>
      obtain ⟨hiff, hlinked⟩ := parseBody_linked hp chunk request
      simp only [parseBodyChunks, SafeRun, ← hiff]
      cases hbody : parseBody p chunk 0 request with
      | error fault => simp [bind, Except.bind]
      | ok r =>
          obtain ⟨next, request', status⟩ := r
          have hnext := ih next request' (hlinked _ hbody)
          simp only [bind, Except.bind]
          cases hstatus : status.isError with
          | true =>
              refine ⟨fun _ => ⟨⟨_, rfl⟩, ?_⟩, fun _ => ⟨_, rfl⟩⟩
              intro p' r' st heq hok
              cases heq
              rw [hstatus] at hok
              cases hok
          | false =>
              simp only [Bool.false_eq_true, if_false, hnext]
              constructor
              · intro hrun
                refine ⟨⟨_, rfl⟩, ?_⟩
                intro p' r' st heq _
                cases heq
                exact hrun
              · rintro ⟨_, hrun⟩
                exact hrun next request' status rfl hstatus

/-- An end boundary that comes first is taken for the end of a part. -/
theorem parseBodyChunks_nullPointer :
    parseBodyChunks (init (bytes "B")) {} [bytes "\r\n--B--\r\n"] = .error .nullPointer := by
  rfl

end RequestMultipartParser

end FortyTwo.Webserv
