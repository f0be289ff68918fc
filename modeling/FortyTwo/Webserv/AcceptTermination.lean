import FortyTwo.Webserv.AcceptList

/-!
Termination of `parse_accept`. Behind a token whose separators end the text the
position is that of its last character: an iteration that begins at a slash
there ends where it began.
-/

namespace FortyTwo.Webserv

open Foundation RequestHeaderParser

namespace RequestHeaderParser

/-- A slash, and then nothing but separators. -/
def Stuck (rest : Bytes) : Prop :=
  ∃ separators, rest = byteOf '/' :: separators ∧ separators ≠ [] ∧
    ∀ c ∈ separators, c ∈ bytes ";,"

/-- A position between another one and the end of the text. -/
def Within (s : Bytes) (pos next : Nat) : Prop := pos ≤ next ∧ next ≤ s.length

private theorem Within.trans {s : Bytes} {a b c : Nat} (h : Within s a b) (h' : Within s b c) :
    Within s a c := ⟨h.1.trans h'.1, h'.2⟩

/-- A text as a token, the separators behind it and what follows them. -/
private theorem exists_token (text : Bytes) : ∃ token between rest,
    text = token ++ (between ++ rest) ∧ (∀ c ∈ token, c ∉ bytes ";,") ∧
      (∀ c ∈ between, c ∈ bytes ";,") ∧
      (rest = [] ∨ between ≠ [] ∧ ∀ c ∈ rest.head?, c ∉ bytes ";,") := by
  have hsplit := List.takeWhile_append_dropWhile
    (p := fun c => !(bytes ";,").contains c) (l := text)
  have hbehind := List.takeWhile_append_dropWhile (p := fun c => (bytes ";,").contains c)
    (l := text.dropWhile (fun c => !(bytes ";,").contains c))
  refine ⟨_, _, _, (by rw [hbehind, hsplit]), ?_, ?_, ?_⟩
  · intro c hc
    simpa using List.mem_takeWhile_imp hc
  · intro c hc
    simpa using List.mem_takeWhile_imp hc
  · have hfirst := List.head?_dropWhile_not (fun c => !(bytes ";,").contains c) text
    cases hrest : text.dropWhile (fun c => !(bytes ";,").contains c) with
    | nil => exact Or.inl rfl
    | cons c rest =>
        rw [hrest] at hfirst
        have hc : (bytes ";,").contains c = true := by simpa using hfirst
        right
        refine ⟨by rw [List.takeWhile_cons_of_pos hc]; simp, ?_⟩
        intro d hd
        have hlast := List.head?_dropWhile_not (fun c => (bytes ";,").contains c) (c :: rest)
        rw [Option.mem_def.mp hd] at hlast
        simpa using hlast

private theorem parseMediaType_no_slash {token between rest : Bytes} (front : Bytes)
    (hslash : byteOf '/' ∉ token) (htoken : ∀ c ∈ token, c ∉ bytes ";,")
    (hbetween : ∀ c ∈ between, c ∈ bytes ";,")
    (hrest : rest = [] ∨ between ≠ [] ∧ ∀ c ∈ rest.head?, c ∉ bytes ";,") :
    parseMediaType (front ++ (token ++ (between ++ rest))) front.length = .error .badRequest := by
  have hread := getTokenWithDelims_skip front htoken hbetween hrest
  have hfind : findFrom (bytes "/") token 0 = none := by
    rw [findFrom, if_neg (by omega), List.drop_zero, Option.map_eq_none_iff, find_eq_none_iff]
    intro hin
    exact hslash (hin.subset (by decide))
  have hwhole : getTokenWithDelim token 0 (bytes "/") false = (token, token.length) := by
    rw [getTokenWithDelim, hfind]
    simp
  rw [parseMediaType, hread]
  simp [hwhole]

/-- A media type that is read ends behind its beginning, or the text is stuck
there. -/
private theorem parseMediaType_cases {s : Bytes} {pos : Nat} (hpos : pos ≤ s.length) :
    parseMediaType s pos = .error .badRequest ∨
      ∃ mediaType next, parseMediaType s pos = .ok (mediaType, next) ∧ Within s pos next ∧
        (next = pos → Stuck (s.drop pos)) := by
  obtain ⟨front, text, rfl, rfl⟩ : ∃ front text, s = front ++ text ∧ pos = front.length :=
    ⟨s.take pos, s.drop pos, (List.take_append_drop pos s).symm, by rw [List.length_take]; omega⟩
  obtain ⟨token, between, rest, rfl, htoken, hbetween, hrest⟩ := exists_token text
  by_cases hslash : byteOf '/' ∈ token
  · obtain ⟨type, subtype, rfl, htype⟩ := List.eq_append_cons_of_mem hslash
    right
    refine ⟨_, _, parseMediaType_slash front htype htoken hbetween hrest, ?_, ?_⟩
    · rw [Within, separatorPos]
      simp only [List.length_append, List.length_cons]
      split
      · split <;> omega
      · rename_i hne
        have hnonempty := List.length_pos_iff.mpr (hrest.resolve_left hne).1
        omega
    · rw [separatorPos, List.drop_left]
      intro hstays
      by_cases hend : rest = []
      · by_cases hnone : between = []
        · simp [hend, hnone] at hstays
        · simp only [hend, hnone, if_true, if_false, List.length_append, List.length_cons]
            at hstays
          have htype' : type = [] := List.length_eq_zero_iff.mp (by omega)
          have hsubtype : subtype = [] := List.length_eq_zero_iff.mp (by omega)
          subst htype' hsubtype hend
          exact ⟨between, by simp, hnone, hbetween⟩
      · have hnonempty := List.length_pos_iff.mpr (hrest.resolve_left hend).1
        rw [if_neg hend, List.length_append, List.length_cons] at hstays
        omega
  · exact Or.inl (parseMediaType_no_slash front hslash htoken hbetween hrest)

private theorem Stuck.parseMediaType {s : Bytes} {pos : Nat} (hpos : pos ≤ s.length)
    (h : Stuck (s.drop pos)) :
    ∃ mediaType, parseMediaType s pos = .ok (mediaType, pos) := by
  obtain ⟨separators, hdrop, hne, hall⟩ := h
  obtain ⟨front, text, rfl, rfl⟩ : ∃ front text, s = front ++ text ∧ pos = front.length :=
    ⟨s.take pos, s.drop pos, (List.take_append_drop pos s).symm, by rw [List.length_take]; omega⟩
  rw [List.drop_left] at hdrop
  have hparse := @parseMediaType_slash [] [] separators [] front (by simp)
    (by decide +kernel) hall
    (Or.inl rfl)
  rw [List.append_nil, separatorPos, if_pos rfl, if_neg hne] at hparse
  rw [hdrop]
  exact ⟨_, hparse⟩

private theorem getTokenWithDelims_within {s : Bytes} {pos : Nat} (hpos : pos ≤ s.length)
    (delims : Bytes) : Within s pos (getTokenWithDelims s pos delims false).2 := by
  rw [getTokenWithDelims]
  cases findFirstOf delims s pos with
  | none =>
      simp only [List.length_drop]
      exact ⟨by omega, by omega⟩
  | some stop =>
      simp only [Bool.false_eq_true, if_false, List.length_take, List.length_drop]
      exact ⟨by omega, by omega⟩

private theorem parseParameter_within {s : Bytes} {pos : Nat} (hpos : pos ≤ s.length) :
    Within s pos (CGIResponseParser.parseParameter s pos).2.2 := by
  have hself : Within s pos pos := ⟨le_refl _, hpos⟩
  have htoken := getTokenWithDelims_within hpos (bytes ";,")
  rw [CGIResponseParser.parseParameter]
  split
  · cases parseQuotedString s pos with
    | ok r => exact hself
    | error status =>
        simp only
        split <;> exact hself
  · cases hread : getTokenWithDelims s pos (bytes ";,") false with
    | mk buffer stop =>
        rw [hread] at htoken
        simp only
        repeat' split
        all_goals first | exact hself | exact htoken

private theorem skipQValue_within {s : Bytes} {pos : Nat} (hpos : pos ≤ s.length) :
    Within s pos (skipQValue s pos) := by
  rw [skipQValue, findFirstOf]
  cases hfind : (s.drop pos).findIdx? (fun c => (bytes ";,").contains c) with
  | none => exact ⟨hpos, le_refl _⟩
  | some i =>
      have hlt := (List.findIdx?_eq_some_iff_getElem.mp hfind).1
      rw [List.length_drop] at hlt
      exact ⟨Nat.le_add_left _ _, by simp; omega⟩

private theorem parseQvalue_within {s : Bytes} {pos : Nat} (hpos : pos ≤ s.length) :
    ∃ value next, parseQvalue s pos = .ok (value, next) ∧ Within s pos next := by
  have hself : Within s pos pos := ⟨le_refl _, hpos⟩
  have htoken := getTokenWithDelims_within hpos (bytes ";,")
  rw [parseQvalue, substrFrom_of_le hpos]
  cases hread : getTokenWithDelims s pos (bytes ";,") false with
  | mk number stop =>
      rw [hread] at htoken
      by_cases hlong : number.length > 5
      · exact ⟨none, pos, by simp [bind, Except.bind, pure, Except.pure, hlong], hself⟩
      · cases hvalue : readDouble number with
        | none =>
            exact ⟨none, pos, by simp [bind, Except.bind, pure, Except.pure, hlong, hvalue], hself⟩
        | some value =>
            exact ⟨some value, stop,
              by simp [bind, Except.bind, pure, Except.pure, hlong, hvalue], htoken⟩

/-- What a run of the loop over the parameters gives: no fault, and a position
that is not before its start. -/
def ReturnsWithin (s : Bytes) (pos : Nat)
    (run : Except Fault (Status × AcceptItem × Option Nat)) : Prop :=
  ∃ status item separatorPos, run = .ok (status, item, separatorPos) ∧
    ∀ next ∈ separatorPos, Within s pos next

private theorem ReturnsWithin.weaken {s : Bytes} {pos start : Nat}
    {run : Except Fault (Status × AcceptItem × Option Nat)} (h : ReturnsWithin s start run)
    (hle : pos ≤ start) : ReturnsWithin s pos run := by
  obtain ⟨status, item, separatorPos, hrun, hwithin⟩ := h
  exact ⟨status, item, separatorPos, hrun,
    fun next hnext => ⟨hle.trans (hwithin next hnext).1, (hwithin next hnext).2⟩⟩

private theorem acceptParametersLoop_returns {s : Bytes} (fuel : Nat) :
    ∀ (pos : Nat) (qParsed : Bool) (item : AcceptItem), pos ≤ s.length →
      s.length - pos < fuel →
      ReturnsWithin s pos (acceptParametersLoop s fuel pos qParsed item) := by
  induction fuel with
  | zero =>
      intro pos qParsed item _ hfuel
      omega
  | succ fuel ih =>
      intro pos qParsed item hpos hfuel
      rw [acceptParametersLoop, readAt_of_le hpos]
      by_cases hsemicolon : charAt s pos = byteOf ';'
      · have hlt := lt_length_of_charAt hsemicolon (by decide)
        have hws : isWs (charAt s pos) = false := by rw [hsemicolon]; rfl
        obtain ⟨start, hstart⟩ : ∃ start, start = skipWs s (pos + 1) := ⟨_, rfl⟩
        have hbegin : pos + 1 ≤ start := hstart ▸ le_skipWs s (pos + 1)
        have hend : start ≤ s.length := hstart ▸ skipWs_le hlt
        rw [skipWsFrom_of_le hpos, skipWs_of_not_ws hws]
        simp only [bind, Except.bind, hsemicolon, if_true]
        rw [skipWsFrom_of_le hlt, ← hstart]
        cases hfind : findFrom (bytes "=") s start with
        | none =>
            simp only [hfind, substrFrom_of_le hend]
            exact ⟨_, _, none, rfl, by simp⟩
        | some equalSignPos =>
            obtain ⟨hle, _, hat⟩ := (findFrom_eq_some_iff _ _ _ _).mp hfind
            have hlength := find_add_length_le hat
            have hone : (bytes "=").length = 1 := rfl
            rw [List.length_drop, hone] at hlength
            have hvalue : equalSignPos + 1 ≤ s.length := by omega
            simp only [hfind, substrFrom_of_le hend, isStringValidToken_eq_true, Bool.true_eq_false,
              if_false, parameterReading_of_le hvalue]
            have hnext : ∀ next, Within s (equalSignPos + 1) next → ∀ qParsed item,
                ReturnsWithin s pos (acceptParametersLoop s fuel next qParsed item) := by
              intro next hwithin qParsed item
              have hlater := hwithin.1
              exact (ih next qParsed item hwithin.2 (by omega)).weaken (by omega)
            split
            · have hwithin := parseParameter_within hvalue
              cases hparse : CGIResponseParser.parseParameter s (equalSignPos + 1) with
              | mk status r =>
                  obtain ⟨value, next⟩ := r
                  rw [hparse] at hwithin
                  simp only
                  split
                  · rw [substrFrom_of_le hwithin.2]
                    exact ⟨_, _, none, rfl, by simp⟩
                  · split <;> exact hnext next hwithin _ _
            · split
              · exact hnext _ (skipQValue_within hvalue) _ _
              · obtain ⟨value, next, hparse, hwithin⟩ := parseQvalue_within hvalue
                rw [hparse]
                cases value with
                | none =>
                    simp only [substrFrom_of_le hwithin.2]
                    exact ⟨_, _, none, rfl, by simp⟩
                | some value => exact hnext next hwithin _ _
      · simp only [bind, Except.bind, hsemicolon, if_false]
        exact ⟨_, _, some pos, rfl, by simpa using ⟨le_refl _, hpos⟩⟩

private theorem parseParameters_returns {s : Bytes} {pos : Nat} (hpos : pos ≤ s.length)
    (item : AcceptItem) : ∃ status item' next,
      parseParameters s item pos = .ok (status, item', next) ∧ Within s pos next := by
  obtain ⟨status, item', separatorPos, hloop, hwithin⟩ := acceptParametersLoop_returns
    (s.length + 1) (skipWs s pos) false item (skipWs_le hpos) (by omega)
  refine ⟨status, item', separatorPos.getD pos, ?_, ?_⟩
  · rw [parseParameters, skipWsFrom_of_le hpos]
    simp [bind, Except.bind, hloop, pure, Except.pure]
  · cases separatorPos with
    | none => exact ⟨le_refl _, hpos⟩
    | some next =>
        have hnext := hwithin next rfl
        exact ⟨(le_skipWs s pos).trans hnext.1, hnext.2⟩

/-- An iteration reads no byte behind the terminating zero. It refuses the value
or takes some of it, unless the rest is stuck. -/
theorem acceptRound_cases {s : Bytes} {pos : Nat} (hpos : pos ≤ s.length) :
    ∃ status item next, acceptRound s pos = .ok (status, item, next) ∧ Within s pos next ∧
      (status.isError = true ∨ pos < next ∨ Stuck (s.drop pos)) := by
  rw [acceptRound, substrFrom_of_le hpos]
  rcases parseMediaType_cases hpos with hparse | ⟨mediaType, start, hparse, hstart, hstuck⟩
  · rw [hparse]
    exact ⟨.badRequest, {}, pos, rfl, ⟨le_refl _, hpos⟩, Or.inl rfl⟩
  · obtain ⟨status, item, stop, hparameters, hstop⟩ :=
      parseParameters_returns hstart.2 { mediaType := mediaType }
    have hall := hstart.trans hstop
    have hmoves : pos < stop ∨ Stuck (s.drop pos) := by
      by_cases hstays : start = pos
      · exact Or.inr (hstuck hstays)
      · have hle := hstart.1
        have hle' := hstop.1
        exact Or.inl (by omega)
    rw [hparse]
    simp only [bind, Except.bind, hparameters]
    cases herror : status.isError with
    | true =>
        simp only [if_true, substrFrom_of_le hall.2]
        exact ⟨status, item, stop, rfl, hall, Or.inl herror⟩
    | false =>
        simp only [Bool.false_eq_true, if_false, readAt_of_le hall.2]
        by_cases hcomma : charAt s stop = byteOf ','
        · have hlt := lt_length_of_charAt hcomma (by decide)
          have hle := hall.1
          rw [if_pos hcomma]
          exact ⟨.ok, item, stop + 1, rfl, ⟨by omega, hlt⟩, Or.inr (Or.inl (by omega))⟩
        · rw [if_neg hcomma]
          exact ⟨.ok, item, stop, rfl, hall, Or.inr hmoves⟩

/-- At a stuck rest an iteration takes nothing. -/
theorem Stuck.acceptRound {s : Bytes} {pos : Nat} (hpos : pos ≤ s.length)
    (h : Stuck (s.drop pos)) : ∃ item, acceptRound s pos = .ok (.ok, item, pos) := by
  obtain ⟨mediaType, hparse⟩ := h.parseMediaType hpos
  obtain ⟨separators, hdrop, _, _⟩ := h
  have hat : charAt s pos = byteOf '/' := charAt_of_drop hdrop
  have hround := acceptRound_of_mediaType hpos hparse hpos (by rw [hat]; rfl)
    (by rw [hat]; decide)
  rw [hat] at hround
  exact ⟨_, hround⟩

/-- The positions at which an iteration of the loop begins. -/
inductive Begins (s : Bytes) : Nat → Prop where
  | first (h : 0 < s.length) : Begins s 0
  | next {pos : Nat} {status : Status} {item : AcceptItem} {stop : Nat} (h : Begins s pos)
      (hround : acceptRound s pos = .ok (status, item, stop)) (hok : status.isError = false)
      (hin : stop < s.length) : Begins s stop

theorem Begins.lt {s : Bytes} {pos : Nat} (h : Begins s pos) : pos < s.length := by
  cases h with
  | first h => exact h
  | next _ _ _ hin => exact hin

/-- The loop ends, each iteration refuses the value or takes some of it, and
nothing is read behind the terminating zero. -/
structure AcceptEnds (s : Bytes) : Prop where
  ends : ∃ fuel status items, acceptLoop s fuel 0 [] = .ok (status, items)
  takes : ∀ pos, Begins s pos → ∀ status item next, acceptRound s pos = .ok (status, item, next) →
    status.isError = true ∨ pos < next
  inside : ∀ fuel fault, acceptLoop s fuel 0 [] = .error fault → fault = .outOfFuel

private theorem acceptLoop_round {s : Bytes} {pos stop : Nat} {status : Status}
    {item : AcceptItem} (hpos : pos < s.length)
    (hround : acceptRound s pos = .ok (status, item, stop)) (fuel : Nat)
    (items : List AcceptItem) :
    acceptLoop s (fuel + 1) pos items =
      if status.isError then .ok (status, items)
      else acceptLoop s fuel stop (items ++ [item]) := by
  rw [acceptLoop, if_pos hpos, hround]
  rfl

private theorem acceptLoop_end {s : Bytes} {pos : Nat} (hpos : s.length ≤ pos) (fuel : Nat)
    (items : List AcceptItem) : acceptLoop s (fuel + 1) pos items = .ok (.ok, items) := by
  rw [acceptLoop, if_neg (Nat.not_lt.mpr hpos)]
  rfl

/-- A run that ends does so from every iteration on. -/
private theorem Begins.ends {s : Bytes} {pos : Nat} (h : Begins s pos) {fuel : Nat}
    {r : Status × List AcceptItem} (hrun : acceptLoop s fuel 0 [] = .ok r) :
    ∃ fuel items, acceptLoop s fuel pos items = .ok r := by
  induction h with
  | first _ => exact ⟨fuel, [], hrun⟩
  | next hbegins hround hok _ ih =>
      obtain ⟨fuel, items, hrun⟩ := ih
      cases fuel with
      | zero => cases hrun
      | succ fuel =>
          rw [acceptLoop_round hbegins.lt hround, hok, if_neg Bool.false_ne_true] at hrun
          exact ⟨fuel, _, hrun⟩

private theorem Stuck.runs_on {s : Bytes} {pos : Nat} (hpos : pos < s.length)
    (h : Stuck (s.drop pos)) (fuel : Nat) (items : List AcceptItem)
    (r : Status × List AcceptItem) : acceptLoop s fuel pos items ≠ .ok r := by
  obtain ⟨item, hround⟩ := h.acceptRound (le_of_lt hpos)
  induction fuel generalizing items with
  | zero => rintro ⟨⟩
  | succ fuel ih =>
      rw [acceptLoop_round hpos hround, Status.ok_isError, if_neg Bool.false_ne_true]
      exact ih _

/-- What is left of the value bounds the iterations. -/
private theorem acceptLoop_ends {s : Bytes} (hfree : ∀ pos, Begins s pos → ¬ Stuck (s.drop pos))
    (fuel : Nat) : ∀ (pos : Nat) (items : List AcceptItem), (pos < s.length → Begins s pos) →
      pos ≤ s.length → s.length - pos < fuel →
      ∃ status items', acceptLoop s fuel pos items = .ok (status, items') := by
  induction fuel with
  | zero =>
      intro pos items _ _ hfuel
      omega
  | succ fuel ih =>
      intro pos items hbegins hpos hfuel
      by_cases hin : pos < s.length
      · obtain ⟨status, item, stop, hround, hwithin, hmoves⟩ := acceptRound_cases hpos
        rw [acceptLoop_round hin hround]
        cases herror : status.isError with
        | true => exact ⟨_, _, rfl⟩
        | false =>
            rw [herror] at hmoves
            have hlt := (hmoves.resolve_left Bool.false_ne_true).resolve_right
              (hfree pos (hbegins hin))
            exact ih stop _ (fun hstop => (hbegins hin).next hround herror hstop) hwithin.2
              (by omega)
      · exact ⟨_, _, acceptLoop_end (Nat.not_lt.mp hin) fuel items⟩

private theorem acceptLoop_fault {s : Bytes} (fuel : Nat) : ∀ (pos : Nat)
    (items : List AcceptItem) (fault : Fault), pos ≤ s.length →
    acceptLoop s fuel pos items = .error fault → fault = .outOfFuel := by
  induction fuel with
  | zero =>
      intro pos items fault _ hrun
      cases hrun
      rfl
  | succ fuel ih =>
      intro pos items fault hpos hrun
      by_cases hin : pos < s.length
      · obtain ⟨status, item, stop, hround, hwithin, _⟩ := acceptRound_cases hpos
        rw [acceptLoop_round hin hround] at hrun
        split at hrun
        · cases hrun
        · exact ih stop _ fault hwithin.2 hrun
      · rw [acceptLoop_end (Nat.not_lt.mp hin)] at hrun
        cases hrun

/-- The loop ends exactly when no iteration begins at a slash behind which there
is nothing but separators. -/
theorem acceptEnds_iff (s : Bytes) :
    AcceptEnds s ↔ ∀ pos, Begins s pos → ¬ Stuck (s.drop pos) := by
  constructor
  · intro h pos hbegins hstuck
    obtain ⟨fuel, status, items, hrun⟩ := h.ends
    obtain ⟨fuel, items, hrun⟩ := hbegins.ends hrun
    exact hstuck.runs_on hbegins.lt fuel items _ hrun
  · intro hfree
    refine ⟨⟨s.length + 1, ?_⟩, ?_, fun fuel fault => acceptLoop_fault fuel 0 [] fault (by omega)⟩
    · exact acceptLoop_ends hfree (s.length + 1) 0 [] (fun h => .first h) (by omega) (by omega)
    · intro pos hbegins status item next hround
      obtain ⟨status', item', next', hround', _, hmoves⟩ :=
        acceptRound_cases (le_of_lt hbegins.lt)
      rw [hround] at hround'
      cases hround'
      rcases hmoves with herror | hlt | hstuck
      · exact Or.inl herror
      · exact Or.inr hlt
      · exact absurd hstuck (hfree pos hbegins)

/-- `/,`. -/
theorem not_acceptEnds_slash : ¬ AcceptEnds (bytes "/,") := by
  intro h
  have hstuck : Stuck ((bytes "/,").drop 0) := ⟨bytes ",", rfl, by decide, by decide +kernel⟩
  obtain ⟨item, hround⟩ := hstuck.acceptRound (Nat.zero_le _)
  rcases h.takes 0 (.first (by decide)) _ _ _ hround with herror | hlt
  · cases herror
  · exact Nat.lt_irrefl 0 hlt

end RequestHeaderParser

end FortyTwo.Webserv
