import FortyTwo.Webserv.HeaderFields

/-!
The loop of `parse_complete_header` over the fields. It compares its position
with the length that the head had before folded lines were joined, so at the end
of a head that has become shorter it stays where it is, unless a field is
refused before.
-/

namespace FortyTwo.Webserv

open Foundation

/-- A line end that is followed by a blank. -/
def Folded (buffer : Bytes) : Prop :=
  ∃ before w after, buffer = before ++ 13 :: 10 :: w :: after ∧ isWs w = true

theorem folded_cons {c : UInt8} {rest : Bytes} (h : Folded rest) : Folded (c :: rest) := by
  obtain ⟨before, w, after, rfl, hw⟩ := h
  exact ⟨c :: before, w, after, rfl, hw⟩

theorem unfoldString_le (buffer : Bytes) : (unfoldString buffer).length ≤ buffer.length := by
  fun_induction unfoldString buffer <;> simp only [List.length_cons, List.length_nil] at * <;> omega

/-- Joining folded lines changes nothing else. -/
theorem unfoldString_eq_of_not_folded {buffer : Bytes} (h : ¬ Folded buffer) :
    unfoldString buffer = buffer := by
  fun_induction unfoldString buffer with
  | case1 w rest hw ih => exact absurd ⟨[], w, rest, rfl, hw⟩ h
  | case2 w rest hw ih => rw [ih fun hfolded => h (folded_cons hfolded)]
  | case3 c rest hne ih => rw [ih fun hfolded => h (folded_cons hfolded)]
  | case4 => rfl

theorem unfoldString_lt_of_folded {buffer : Bytes} (h : Folded buffer) :
    (unfoldString buffer).length < buffer.length := by
  fun_induction unfoldString buffer with
  | case1 w rest hw ih =>
      have hle := unfoldString_le rest
      simp only [List.length_cons]
      omega
  | case2 w rest hw ih =>
      have hrest : Folded (10 :: w :: rest) := by
        obtain ⟨before, w', after, heq, hw'⟩ := h
        cases before with
        | nil =>
            simp only [List.nil_append, List.cons.injEq, true_and] at heq
            exact absurd (heq.1 ▸ hw') hw
        | cons c before =>
            simp only [List.cons_append, List.cons.injEq] at heq
            exact ⟨before, w', after, heq.2, hw'⟩
      exact Nat.succ_lt_succ (ih hrest)
  | case3 c rest hne ih =>
      have hrest : Folded rest := by
        obtain ⟨before, w, after, heq, hw⟩ := h
        cases before with
        | nil =>
            simp only [List.nil_append, List.cons.injEq] at heq
            exact absurd heq.2 (hne w after heq.1)
        | cons c' before =>
            simp only [List.cons_append, List.cons.injEq] at heq
            exact ⟨before, w, after, heq.2, hw⟩
      exact Nat.succ_lt_succ (ih hrest)
  | case4 =>
      obtain ⟨before, w, after, heq, -⟩ := h
      simp at heq

/-- Every field takes something off the text. -/
theorem nextField_lt {text : Bytes} (h : text ≠ []) : (nextField text).2.length < text.length := by
  have hpos := List.length_pos_iff.mpr h
  change (cutToken crlf (cutToken (bytes ": ") text).2).2.length < text.length
  cases hfind : find (bytes ": ") text with
  | none =>
      have hcut : (cutToken (bytes ": ") text).2 = [] := by simp [cutToken, hfind]
      rw [hcut]
      exact hpos
  | some stop =>
      obtain ⟨rest, hrest⟩ := prefix_of_find hfind
      have hdrop : text.drop stop = 58 :: 32 :: rest := hrest.symm
      have hlength : (text.drop stop).length = text.length - stop := List.length_drop
      by_cases hall : (text.drop stop).dropWhile (fun c => (bytes ": ").contains c) = []
      · -- only colons and spaces are left, so the value goes to the end
        have hcut : (cutToken (bytes ": ") text).2 = text.drop stop := by
          simp only [cutToken, hfind]
          exact if_pos hall
        have hnot : find crlf (text.drop stop) = none := by
          rw [find_eq_none_iff]
          rintro ⟨before, after, heq⟩
          have hmem : (13 : UInt8) ∈ text.drop stop := by
            rw [← heq]
            simp [crlf]
          have hin := List.dropWhile_eq_nil_iff.mp hall 13 hmem
          exact absurd hin (by decide)
        rw [hcut, cutToken, hnot]
        exact hpos
      · have hcut : (cutToken (bytes ": ") text).2 =
            (text.drop stop).dropWhile fun c => (bytes ": ").contains c := by
          simp only [cutToken, hfind]
          exact if_neg hall
        have hshorter : ((text.drop stop).dropWhile
            fun c => (bytes ": ").contains c).length < (text.drop stop).length := by
          have hhead : (bytes ": ").contains 58 = true := by decide
          rw [hdrop, List.dropWhile_cons_of_pos hhead]
          have hle := ((32 :: rest).dropWhile_suffix fun c => (bytes ": ").contains c).length_le
          exact Nat.lt_succ_of_le hle
        have hle := (cutToken_suffix crlf (cutToken (bytes ": ") text).2).length_le
        rw [hcut] at hle ⊢
        omega

/-- The fields of a text, one after the other. -/
def headerFields (text : Bytes) : List VisitedField :=
  if _h : text = [] then [] else (nextField text).1 :: headerFields (nextField text).2
termination_by text.length
decreasing_by exact nextField_lt _h

/-- The parser of some field does not accept it. -/
def Refused (parsers : FieldParsers) : List VisitedField → Request → Prop
  | [], _ => False
  | field :: fields, request =>
      match parseField parsers field request with
      | .error _ => True
      | .ok (status, request) => status.isError = true ∨ Refused parsers fields request

/-- From `pos` on the loop ends after finitely many iterations, and each of them
moves `pos` forward or is the last one. -/
inductive Ends (parsers : FieldParsers) (buffer : Bytes) (len : Nat) : Nat → Request → Prop
  | fault {pos request fault}
      (hparse : parseField parsers (readField buffer pos).1 request = .error fault) :
      Ends parsers buffer len pos request
  | refused {pos request status request'}
      (hparse : parseField parsers (readField buffer pos).1 request = .ok (status, request'))
      (hstatus : status.isError = true) : Ends parsers buffer len pos request
  | done {pos request status request'}
      (hparse : parseField parsers (readField buffer pos).1 request = .ok (status, request'))
      (hpos : ¬ (readField buffer pos).2 < len) : Ends parsers buffer len pos request
  | next {pos request status request'}
      (hparse : parseField parsers (readField buffer pos).1 request = .ok (status, request'))
      (hstatus : status.isError = false) (hadvance : pos < (readField buffer pos).2)
      (hmore : Ends parsers buffer len (readField buffer pos).2 request') :
      Ends parsers buffer len pos request

section Loop

variable {parsers : FieldParsers} {buffer : Bytes} {len pos : Nat} {request : Request}

/-- The position after a field, and what is left there. -/
theorem readField_next (h : pos ≤ buffer.length) :
    (readField buffer pos).1 = (nextField (buffer.drop pos)).1 ∧
      (readField buffer pos).2 ≤ buffer.length ∧
      buffer.drop (readField buffer pos).2 = (nextField (buffer.drop pos)).2 ∧
      (pos < buffer.length → pos < (readField buffer pos).2) := by
  obtain ⟨front, hfront⟩ := (nextField_suffix (buffer.drop pos)).trans (List.drop_suffix pos buffer)
  have hlength : buffer.length = front.length + (nextField (buffer.drop pos)).2.length := by
    rw [← List.length_append, hfront]
  rw [readField_eq h]
  refine ⟨rfl, Nat.sub_le _ _, ?_, fun hlt => ?_⟩
  · have hsub : buffer.length - (nextField (buffer.drop pos)).2.length = front.length := by omega
    have hdrop : (front ++ (nextField (buffer.drop pos)).2).drop front.length =
        (nextField (buffer.drop pos)).2 := List.drop_left
    rw [hfront] at hdrop
    rw [hsub, hdrop]
  · have hne : buffer.drop pos ≠ [] := by simpa [List.drop_eq_nil_iff] using hlt
    have hnext := nextField_lt hne
    rw [List.length_drop] at hnext
    change pos < buffer.length - (nextField (buffer.drop pos)).2.length
    omega

/-- At the end of the text the loop reads a field without a name. -/
theorem readField_end (parsers : FieldParsers) (buffer : Bytes) (request : Request) :
    parseField parsers (readField buffer buffer.length).1 request = .ok (.ok, request) ∧
      (readField buffer buffer.length).2 = buffer.length := by
  have hnext := @readField_next buffer buffer.length le_rfl
  rw [List.drop_length] at hnext
  constructor
  · rw [hnext.1]
    rfl
  · have hdrop : buffer.drop (readField buffer buffer.length).2 = [] := hnext.2.2.1
    rw [List.drop_eq_nil_iff] at hdrop
    exact le_antisymm hnext.2.1 hdrop

/-- A head that is as long as it was. -/
theorem ends_of_length (h : pos ≤ buffer.length) :
    Ends parsers buffer buffer.length pos request := by
  induction hleft : buffer.length - pos using Nat.strong_induction_on generalizing pos request with
  | _ left ih =>
      obtain ⟨-, hle, -, hadvance⟩ := readField_next h
      cases hparse : parseField parsers (readField buffer pos).1 request with
      | error fault => exact .fault hparse
      | ok r =>
          obtain ⟨status, request'⟩ := r
          cases hstatus : status.isError with
          | true => exact .refused hparse hstatus
          | false =>
              by_cases hmore : (readField buffer pos).2 < buffer.length
              · have hlt : pos < buffer.length := by
                  by_contra hnot
                  obtain rfl : pos = buffer.length := by omega
                  rw [(readField_end parsers buffer request).2] at hmore
                  exact lt_irrefl _ hmore
                have hpos := hadvance hlt
                exact .next hparse hstatus hpos (ih _ (by omega) hle rfl)
              · exact .done hparse hmore

/-- A field that is parsed, with more text behind it than the loop reads. -/
private theorem Ends.of_ok {status : Status} {request' : Request}
    (hends : Ends parsers buffer len pos request)
    (hparse : parseField parsers (readField buffer pos).1 request = .ok (status, request'))
    (hmore : (readField buffer pos).2 < len) :
    status.isError = true ∨ (pos < (readField buffer pos).2 ∧
      Ends parsers buffer len (readField buffer pos).2 request') := by
  cases hends with
  | fault hparse' =>
      rw [hparse] at hparse'
      cases hparse'
  | refused hparse' hstatus =>
      rw [hparse] at hparse'
      cases hparse'
      exact Or.inl hstatus
  | done _ hnot => exact absurd hmore hnot
  | next hparse' _ hadvance hends =>
      rw [hparse] at hparse'
      cases hparse'
      exact Or.inr ⟨hadvance, hends⟩

/-- A head that has become shorter. -/
theorem ends_iff_refused (h : pos ≤ buffer.length) (hlen : buffer.length < len) :
    Ends parsers buffer len pos request ↔
      Refused parsers (headerFields (buffer.drop pos)) request := by
  induction hleft : buffer.length - pos using Nat.strong_induction_on generalizing pos request with
  | _ left ih =>
      rcases Nat.lt_or_ge pos buffer.length with hlt | hge
      · obtain ⟨hfield, hle, hdrop, hadvance⟩ := readField_next h
        have hne : buffer.drop pos ≠ [] := by simpa [List.drop_eq_nil_iff] using hlt
        have hpos := hadvance hlt
        have hmore : ∀ request', Ends parsers buffer len (readField buffer pos).2 request' ↔
            Refused parsers (headerFields (buffer.drop (readField buffer pos).2)) request' :=
          fun _ => ih (buffer.length - (readField buffer pos).2) (by omega) hle rfl
        rw [headerFields, dif_neg hne, ← hdrop, ← hfield, Refused]
        cases hparse : parseField parsers (readField buffer pos).1 request with
        | error fault => exact ⟨fun _ => trivial, fun _ => .fault hparse⟩
        | ok r =>
            obtain ⟨status, request'⟩ := r
            dsimp only
            rw [← hmore request']
            constructor
            · intro hends
              exact (hends.of_ok hparse (by omega)).imp_right And.right
            · intro hends
              cases hstatus : status.isError with
              | true => exact .refused hparse hstatus
              | false =>
                  refine .next hparse hstatus hpos (hends.resolve_left ?_)
                  simp [hstatus]
      · obtain rfl : pos = buffer.length := by omega
        obtain ⟨hparse, hstays⟩ := readField_end parsers buffer request
        rw [List.drop_length, headerFields, dif_pos rfl]
        refine ⟨fun hends => ?_, fun hrefused => hrefused.elim⟩
        rcases hends.of_ok hparse (by omega) with herror | ⟨hadvance, -⟩
        · cases herror
        · omega

/-- The loop ends in this sense exactly when some number of rounds is enough. -/
theorem ends_iff_fuel (hparsers : ∀ t v r, parsers t v r ≠ .error .outOfFuel)
    (h : pos ≤ buffer.length) :
    Ends parsers buffer len pos request ↔
      ∃ fuel, ∀ visited, fieldsLoop parsers buffer len fuel pos request visited ≠
        .error .outOfFuel := by
  have hfield : ∀ field request, parseField parsers field request ≠ .error .outOfFuel := by
    intro field request
    unfold parseField
    split
    · exact hparsers _ _ _
    · simp
  constructor
  · intro hends
    clear h
    induction hends with
    | @fault pos request fault hparse =>
        refine ⟨1, fun visited => ?_⟩
        have hne := hfield (readField buffer pos).1 request
        rw [hparse] at hne
        simpa [fieldsLoop, hparse, bind, Except.bind] using hne
    | refused hparse hstatus =>
        refine ⟨1, fun visited => ?_⟩
        simp [fieldsLoop, hparse, hstatus, bind, Except.bind, pure, Except.pure]
    | @done pos request status request' hparse hpos =>
        refine ⟨1, fun visited => ?_⟩
        cases hstatus : status.isError <;>
          simp [fieldsLoop, hparse, hstatus, hpos, bind, Except.bind, pure, Except.pure]
    | @next pos request status request' hparse hstatus _ _ ih =>
        obtain ⟨fuel, hfuel⟩ := ih
        refine ⟨fuel + 1, fun visited => ?_⟩
        by_cases hmore : (readField buffer pos).2 < len
        · simpa [fieldsLoop, hparse, hstatus, hmore, bind, Except.bind] using hfuel _
        · simp [fieldsLoop, hparse, hstatus, hmore, bind, Except.bind, pure, Except.pure]
  · rintro ⟨fuel, hfuel⟩
    have hrun := hfuel []
    clear hfuel
    generalize ([] : List VisitedField) = visited at hrun
    induction fuel generalizing pos request visited with
    | zero => exact absurd rfl hrun
    | succ fuel ih =>
        obtain ⟨-, hle, -, hadvance⟩ := readField_next h
        cases hparse : parseField parsers (readField buffer pos).1 request with
        | error fault => exact .fault hparse
        | ok r =>
            obtain ⟨status, request'⟩ := r
            cases hstatus : status.isError with
            | true => exact .refused hparse hstatus
            | false =>
                by_cases hmore : (readField buffer pos).2 < len
                · have hnext : Ends parsers buffer len (readField buffer pos).2 request' := by
                    apply ih hle (visited ++ [(readField buffer pos).1])
                    simpa [fieldsLoop, hparse, hstatus, hmore, bind, Except.bind] using hrun
                  rcases Nat.lt_or_ge pos buffer.length with hlt | hge
                  · exact .next hparse hstatus (hadvance hlt) hnext
                  · -- the loop is where it was
                    obtain rfl : pos = buffer.length := by omega
                    obtain ⟨hsame, hstays⟩ :=
                      readField_end parsers buffer request
                    rw [hparse] at hsame
                    cases hsame
                    rw [hstays] at hnext
                    exact hnext
                · exact .done hparse hmore

end Loop

namespace RequestHeaderParser

variable (p : RequestHeaderParser)

/-- The head without folded lines. -/
def unfolded : Bytes := unfoldString p.buffer

/-- Where the fields begin in it. -/
def fieldsPos : Nat := (getTokenWithDelim p.unfolded 0 crlf true).2

/-- The status of the request line, and the request that the fields are read into. -/
def headRequest (config : Config) (request : Request) : Status × Request :=
  let r := parseRequestLine (getTokenWithDelim p.unfolded 0 crlf true).1 request
  (r.1, if r.1.isError then r.2 else routeCgi config r.2)

/-- `parse_complete_header` returns, and each iteration of its loop moves the
position forward or is the last one. -/
def Returns (parsers : FieldParsers) (config : Config) (request : Request) : Prop :=
  p.endFound = false ∨ (p.headRequest config request).1.isError = true ∨
    Ends parsers p.unfolded p.buffer.length p.fieldsPos (p.headRequest config request).2

/-- The request line or a field is refused. -/
def Rejected (parsers : FieldParsers) (config : Config) (request : Request) : Prop :=
  (p.headRequest config request).1.isError = true ∨
    Refused parsers (headerFields (p.unfolded.drop p.fieldsPos)) (p.headRequest config request).2

theorem fieldsPos_le : p.fieldsPos ≤ p.unfolded.length := by
  rw [fieldsPos, getTokenWithDelim_eq (Nat.zero_le _)]
  exact Nat.sub_le _ _

/-- What `parse_complete_header` does is decided by its loop. -/
theorem parseCompleteHeader_eq (parsers : FieldParsers) (config : Config) (request : Request)
    (hp : p.endFound = true) (hline : (p.headRequest config request).1.isError = false) :
    p.parseCompleteHeader parsers config request = .error .outOfFuel ↔
      fieldsLoop parsers p.unfolded p.buffer.length (p.buffer.length + 1) p.fieldsPos
        (p.headRequest config request).2 [] = .error .outOfFuel := by
  simp only [headRequest, unfolded] at hline
  simp only [parseCompleteHeader, headRequest, fieldsPos, unfolded, hp, hline, bind, Except.bind,
    Bool.false_eq_true, Bool.true_eq_false, if_false]
  cases fieldsLoop parsers (unfoldString p.buffer) p.buffer.length (p.buffer.length + 1)
      (getTokenWithDelim (unfoldString p.buffer) 0 crlf true).2 (routeCgi config
        (parseRequestLine (getTokenWithDelim (unfoldString p.buffer) 0 crlf true).1 request).2) [] with
  | error fault => simp
  | ok r =>
      obtain ⟨visited, status, request'⟩ := r
      dsimp only
      split_ifs <;> simp [pure, Except.pure]

end RequestHeaderParser

end FortyTwo.Webserv
