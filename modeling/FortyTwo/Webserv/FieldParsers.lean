import FortyTwo.Webserv.CGIResponseParser

/-!
`RequestHeaderParser.cpp`: the parsers of `Content-Type` and `Accept`. Those of
a parameter and of the parameters of a content type are the ones of
`CGIResponseParser.cpp` again. What `parse_accept` reads is checked: the
terminating zero is the last byte of a value that may be looked at.
-/

namespace FortyTwo.Webserv

open Foundation

namespace RequestHeaderParser

def mediaTypes : List Bytes := CGIResponseParser.mediaTypes ++ [bytes "plain"]

/-- The media type and the position of the separator. -/
def parseMediaType (fieldValue : Bytes) (pos : Nat) : Except Status (MediaType × Nat) :=
  let (typeWithSubtype, pos) := getTokenWithDelims fieldValue pos (bytes ";,") true
  if typeWithSubtype = [] then .error .badRequest
  else
    let pos := if pos ≠ fieldValue.length then pos - 1 else pos
    let (type, slashPos) := getTokenWithDelim typeWithSubtype 0 (bytes "/") false
    if slashPos = typeWithSubtype.length then .error .badRequest
    else if mediaTypes.contains type then
      .ok ({ type := type, subtype := typeWithSubtype.drop (slashPos + 1) }, pos)
    else .ok ({ type := bytes "*", subtype := bytes "*" }, pos)

def parseContentType (fieldValue : Bytes) (request : Request) :
    Except Fault (Status × Request) :=
  if fieldValue = [] then .ok (.badRequest, request)
  else
    match parseMediaType fieldValue 0 with
    | .error _ => .ok (.badRequest, request)
    | .ok (mediaType, pos) => do
        let (returned, mediaType) ← CGIResponseParser.parametersLoop fieldValue
          (fieldValue.length + 1) (skipWs fieldValue pos) mediaType
        match returned with
        | some status => pure (status, request)
        | none => pure (.ok, { request with contentType := mediaType })

/-- `s[pos]`. -/
def readAt (s : Bytes) (pos : Nat) : Except Fault UInt8 :=
  if pos ≤ s.length then .ok (charAt s pos) else .error .outOfBounds

/-- `s.substr(pos)`, also where it is only logged. -/
def substrFrom (s : Bytes) (pos : Nat) : Except Fault Bytes :=
  if pos ≤ s.length then .ok (s.drop pos) else .error .outOfRange

/-- `skip_ws`. -/
def skipWsReading (s : Bytes) : Nat → Nat → Except Fault Nat
  | 0, _ => .error .outOfFuel
  | fuel + 1, pos => do
      let c ← readAt s pos
      if isWs c then skipWsReading s fuel (pos + 1) else pure pos

def skipWsFrom (s : Bytes) (pos : Nat) : Except Fault Nat := skipWsReading s (s.length + 1) pos

/-- `is_ows(s.c_str() + pos)`. -/
def readOws (s : Bytes) (pos : Nat) : Except Fault Bool := do
  let c ← readAt s pos
  if c = 13 then
    let d ← readAt s (pos + 1)
    if d = 10 then
      let e ← readAt s (pos + 2)
      pure (isWs e || isWs c)
    else pure (isWs c)
  else pure (isWs c)

/-- The loop of `parse_quoted_string` with its reads. -/
def quotedLoopReading (s : Bytes) : Nat → Nat → Bytes → Except Fault (Except Status (Nat × Bytes))
  | 0, _, _ => .error .outOfFuel
  | fuel + 1, pos, buffer => do
      if pos < s.length then
        let c ← readAt s pos
        if c = 34 then pure (.ok (pos, buffer))
        else if pos + 1 < s.length ∧ c = 92 then
          let d ← readAt s (pos + 1)
          if isQuotedPairChar d then quotedLoopReading s fuel (pos + 2) (buffer ++ [d])
          else pure (.error .invalidFilenameFormat)
        else
          let ows ← if pos + 2 < s.length then readOws s pos else pure false
          if ows then
            match findFirstNotOf [9, 32] s (pos + 3) with
            | none => pure (.error .invalidFilenameFormat)
            | some next => quotedLoopReading s fuel next (buffer ++ [32])
          else if isQdText c then quotedLoopReading s fuel (pos + 1) (buffer ++ [c])
          else pure (.error .invalidFilenameFormat)
      else pure (.ok (pos, buffer))

def quotedStringReading (s : Bytes) (pos : Nat) :
    Except Fault (Except Status (Bytes × Nat)) := do
  let c ← readAt s pos
  if c ≠ 34 then pure (.error .invalidFilenameFormat)
  else
    match ← quotedLoopReading s (s.length + 1) (pos + 1) [] with
    | .error status => pure (.error status)
    | .ok (stop, buffer) =>
        let d ← readAt s stop
        if d ≠ 34 then pure (.error .invalidFilenameFormat) else pure (.ok (buffer, stop))

/-- `parse_parameter` with its reads: the status, the value and the position
after it. -/
def parameterReading (fieldValue : Bytes) (pos : Nat) : Except Fault (Status × Bytes × Nat) := do
  let c ← readAt fieldValue pos
  if c = 34 then
    match ← quotedStringReading fieldValue pos with
    | .ok (buffer, _) => pure (.ok, buffer, pos)
    | .error status => pure (if status.isError then (status, [], pos) else (.ok, [], pos))
  else
    -- `data.substr(start)` where no delimiter follows
    let _ ← substrFrom fieldValue pos
    let (buffer, stop) := getTokenWithDelims fieldValue pos (bytes ";,") false
    if buffer = [] then pure (.badRequest, [], pos)
    else if isStringValidToken buffer buffer.length = false then pure (.badRequest, [], pos)
    else pure (.ok, buffer, stop)

/-- The sign in front of a number, and what follows it. -/
def readSign : Bytes → Bool × Bytes
  | 45 :: rest => (true, rest)
  | 43 :: rest => (false, rest)
  | text => (false, text)

/-- `iss >> value`: the decimal number at the front. It is not rounded; one that
a `double` cannot hold fails. -/
def readDouble (number : Bytes) : Option ℚ :=
  let (negative, text) := readSign (number.dropWhile (fun c => c == 32 || (9 ≤ c && c ≤ 13)))
  let whole := text.takeWhile isDigit
  let text := text.dropWhile isDigit
  let (fraction, text) :=
    match text with
    | 46 :: rest => (rest.takeWhile isDigit, rest.dropWhile isDigit)
    | _ => ([], text)
  let mantissa : ℚ := CGIResponseParser.atoi (whole ++ fraction) / 10 ^ fraction.length
  let value : Option ℚ :=
    if whole = [] ∧ fraction = [] then none
    else if text.head? = some (byteOf 'e') ∨ text.head? = some (byteOf 'E') then
      let (shrinks, exponent) := readSign (text.drop 1)
      let exponent := exponent.takeWhile isDigit
      if exponent = [] then none
      else if shrinks then some (mantissa / 10 ^ CGIResponseParser.atoi exponent)
      else some (mantissa * 10 ^ CGIResponseParser.atoi exponent)
    else some mantissa
  value.bind (fun value =>
    if 2 ^ 1024 - 2 ^ 970 ≤ value then none else some (if negative then -value else value))

/-- The number and the position after it. -/
def parseQvalue (fieldValue : Bytes) (pos : Nat) : Except Fault (Option ℚ × Nat) := do
  let _ ← substrFrom fieldValue pos
  let (number, stop) := getTokenWithDelims fieldValue pos (bytes ";,") false
  if number.length > 5 then pure (none, pos)
  else
    match readDouble number with
    | none => pure (none, pos)
    | some value => pure (some value, stop)

def skipQValue (fieldValue : Bytes) (pos : Nat) : Nat :=
  (findFirstOf (bytes ";,") fieldValue pos).getD fieldValue.length

/-- `t_accept_item`. -/
structure AcceptItem where
  mediaType : MediaType := {}
  acceptExt : List (Bytes × Bytes) := []
  q : ℚ := 1
  deriving DecidableEq

/-- The loop of `parse_parameters`: the status, the item and, where the loop
runs to its end, the position of the separator. -/
def acceptParametersLoop (fieldValue : Bytes) :
    Nat → Nat → Bool → AcceptItem → Except Fault (Status × AcceptItem × Option Nat)
  | 0, _, _, _ => .error .outOfFuel
  | fuel + 1, pos, qParsed, item => do
      let c ← readAt fieldValue pos
      if c = byteOf ';' then
        let pos ← skipWsFrom fieldValue pos
        let pos ← skipWsFrom fieldValue (pos + 1)
        match findFrom (bytes "=") fieldValue pos with
        | none =>
            let _ ← substrFrom fieldValue pos
            pure (.badRequest, item, none)
        | some equalSignPos =>
            let text ← substrFrom fieldValue pos
            if isStringValidToken text (equalSignPos - pos) = false then
              pure (.badRequest, item, none)
            else
              let parameter := text.take (equalSignPos - pos)
              let pos := equalSignPos + 1
              if parameter ≠ bytes "q" then
                let (status, value, pos) ← parameterReading fieldValue pos
                if status.isError ∨ value = [] then
                  let _ ← substrFrom fieldValue pos
                  pure (status, item, none)
                else if qParsed then
                  acceptParametersLoop fieldValue fuel pos qParsed
                    { item with acceptExt := item.acceptExt ++ [(parameter, value)] }
                else
                  acceptParametersLoop fieldValue fuel pos qParsed
                    { item with mediaType := item.mediaType.addParameter parameter value }
              else if qParsed then
                acceptParametersLoop fieldValue fuel (skipQValue fieldValue pos) qParsed item
              else
                match ← parseQvalue fieldValue pos with
                | (none, pos) =>
                    let _ ← substrFrom fieldValue pos
                    pure (.badRequest, item, none)
                | (some value, pos) =>
                    acceptParametersLoop fieldValue fuel pos true { item with q := value }
      else pure (.ok, item, some pos)

/-- The status, the item and the position, which an early return leaves where
it was. -/
def parseParameters (fieldValue : Bytes) (item : AcceptItem) (pos : Nat) :
    Except Fault (Status × AcceptItem × Nat) := do
  let start ← skipWsFrom fieldValue pos
  let (status, item, separatorPos) ←
    acceptParametersLoop fieldValue (fieldValue.length + 1) start false item
  pure (status, item, separatorPos.getD pos)

/-- One iteration of the loop of `parse_accept`: the status, the item and where
the next one begins. -/
def acceptRound (fieldValue : Bytes) (pos : Nat) : Except Fault (Status × AcceptItem × Nat) := do
  let _ ← substrFrom fieldValue pos
  match parseMediaType fieldValue pos with
  | .error status => pure (status, {}, pos)
  | .ok (mediaType, pos) =>
      let (status, item, pos) ← parseParameters fieldValue { mediaType := mediaType } pos
      if status.isError then
        let _ ← substrFrom fieldValue pos
        pure (status, item, pos)
      else
        let c ← readAt fieldValue pos
        pure (.ok, item, if c = byteOf ',' then pos + 1 else pos)

/-- The loop of `parse_accept`, for at most `fuel` iterations. -/
def acceptLoop (fieldValue : Bytes) :
    Nat → Nat → List AcceptItem → Except Fault (Status × List AcceptItem)
  | 0, _, _ => .error .outOfFuel
  | fuel + 1, pos, acceptItems => do
      if pos < fieldValue.length then
        let (status, item, pos) ← acceptRound fieldValue pos
        if status.isError then pure (status, acceptItems)
        else acceptLoop fieldValue fuel pos (acceptItems ++ [item])
      else pure (.ok, acceptItems)

/-- The fields of `t_request` that `parse_accept` writes. -/
structure AcceptFields where
  accept : Bytes := []
  acceptItems : List AcceptItem := []
  deriving DecidableEq

def parseAccept (fieldValue : Bytes) (request : AcceptFields) :
    Except Fault (Status × AcceptFields) :=
  if fieldValue = [] then .ok (.badRequest, request)
  else do
    let (status, acceptItems) ← acceptLoop fieldValue (fieldValue.length + 1) 0 []
    if status.isError then pure (status, request)
    else pure (.ok, { accept := fieldValue, acceptItems := acceptItems })

theorem readAt_of_le {s : Bytes} {pos : Nat} (h : pos ≤ s.length) :
    readAt s pos = .ok (charAt s pos) := if_pos h

theorem substrFrom_of_le {s : Bytes} {pos : Nat} (h : pos ≤ s.length) :
    substrFrom s pos = .ok (s.drop pos) := if_pos h

theorem lt_length_of_charAt {s : Bytes} {pos : Nat} {c : UInt8} (h : charAt s pos = c)
    (hc : c ≠ 0) : pos < s.length := by
  by_contra hle
  exact hc (h.symm.trans (charAt_of_length_le (Nat.not_lt.mp hle)))

theorem skipWs_of_ws {s : Bytes} {pos : Nat} (h : isWs (charAt s pos) = true) :
    skipWs s pos = skipWs s (pos + 1) := by
  have hlt : pos < s.length := by
    apply lt_length_of_charAt rfl
    intro hzero
    rw [hzero] at h
    exact absurd h (by decide)
  rw [skipWs, skipWs, drop_eq_charAt_cons hlt, List.takeWhile_cons_of_pos h, List.length_cons]
  omega

theorem skipWs_of_not_ws {s : Bytes} {pos : Nat} (h : isWs (charAt s pos) = false) :
    skipWs s pos = pos := by
  rw [skipWs]
  by_cases hlt : pos < s.length
  · rw [drop_eq_charAt_cons hlt, List.takeWhile_cons_of_neg (by simp [h]), List.length_nil,
      Nat.add_zero]
  · rw [List.drop_eq_nil_of_le (Nat.not_lt.mp hlt), List.takeWhile_nil, List.length_nil,
      Nat.add_zero]

theorem le_skipWs (s : Bytes) (pos : Nat) : pos ≤ skipWs s pos := Nat.le_add_right _ _

theorem skipWs_le {s : Bytes} {pos : Nat} (h : pos ≤ s.length) : skipWs s pos ≤ s.length := by
  have hlen := (List.takeWhile_prefix isWs (l := s.drop pos)).length_le
  rw [List.length_drop] at hlen
  rw [skipWs]
  omega

private theorem skipWsReading_of_le {s : Bytes} (fuel : Nat) : ∀ pos, pos ≤ s.length →
    s.length - pos < fuel → skipWsReading s fuel pos = .ok (skipWs s pos) := by
  induction fuel with
  | zero =>
      intro pos _ hfuel
      omega
  | succ fuel ih =>
      intro pos hpos hfuel
      rw [skipWsReading, readAt_of_le hpos]
      cases hws : isWs (charAt s pos) with
      | true =>
          have hlt : pos < s.length := by
            apply lt_length_of_charAt rfl
            intro hzero
            rw [hzero] at hws
            exact absurd hws (by decide)
          rw [skipWs_of_ws hws, ← ih (pos + 1) hlt (by omega)]
          simp [bind, Except.bind, hws]
      | false =>
          rw [skipWs_of_not_ws hws]
          simp [bind, Except.bind, hws, pure, Except.pure]

theorem skipWsFrom_of_le {s : Bytes} {pos : Nat} (h : pos ≤ s.length) :
    skipWsFrom s pos = .ok (skipWs s pos) :=
  skipWsReading_of_le _ pos h (by omega)

private theorem readOws_of_lt {s : Bytes} {pos : Nat} (h : pos + 2 < s.length) :
    readOws s pos = .ok (isOws s pos) := by
  rw [readOws, readAt_of_le (by omega), readAt_of_le (by omega), readAt_of_le (by omega), isOws,
    isCrlf]
  by_cases hreturn : charAt s pos = 13
  · by_cases hnewline : charAt s (pos + 1) = 10 <;>
      simp [bind, Except.bind, pure, Except.pure, hreturn, hnewline]
  · simp [bind, Except.bind, pure, Except.pure, hreturn]

/-- The loop of `parse_quoted_string` reads no byte behind the terminating
zero. -/
private theorem quotedLoopReading_of_le {s : Bytes} (fuel : Nat) : ∀ (pos : Nat) (buffer : Bytes),
    pos ≤ s.length → s.length - pos < fuel →
    quotedLoopReading s fuel pos buffer = .ok (quotedLoop s fuel pos buffer) := by
  induction fuel with
  | zero =>
      intro pos buffer _ hfuel
      omega
  | succ fuel ih =>
      intro pos buffer hpos hfuel
      rw [quotedLoopReading, quotedLoop]
      by_cases hin : pos < s.length
      · rw [if_pos hin, readAt_of_le hpos]
        by_cases hquote : charAt s pos = 34
        · simp [bind, Except.bind, pure, Except.pure, hquote]
        · rw [if_pos (show pos < s.length ∧ charAt s pos ≠ 34 from ⟨hin, hquote⟩)]
          by_cases hescape : pos + 1 < s.length ∧ charAt s pos = 92
          · rw [if_pos hescape, readAt_of_le (by omega)]
            by_cases hpair : isQuotedPairChar (charAt s (pos + 1)) = true
            · simp [bind, Except.bind, hescape, hpair, ih (pos + 2) _ (by omega) (by omega)]
            · simp [bind, Except.bind, pure, Except.pure, hescape, hpair]
          · rw [if_neg hescape]
            by_cases hows : pos + 2 < s.length ∧ isOws s pos = true
            · rw [if_pos hows, readOws_of_lt hows.1]
              cases hnext : findFirstNotOf [9, 32] s (pos + 3) with
              | none =>
                  simp [bind, Except.bind, pure, Except.pure, hquote, hescape, hows]
              | some next =>
                  obtain ⟨hle, ⟨c, hc, _⟩, _⟩ := (findFirstNotOf_eq_some_iff _ _ _ _).mp hnext
                  have hlt := (List.getElem?_eq_some_iff.mp hc).1
                  simp [bind, Except.bind, hquote, hescape, hows,
                    ih next _ (by omega) (by omega)]
            · rw [if_neg hows]
              have hplain : pos + 2 < s.length → readOws s pos = .ok false := by
                intro hlong
                have hfalse : isOws s pos = false := by simpa [hlong] using hows
                rw [readOws_of_lt hlong, hfalse]
              have hrest := ih (pos + 1) (buffer ++ [charAt s pos]) (by omega) (by omega)
              by_cases hlong : pos + 2 < s.length <;>
                by_cases hqd : isQdText (charAt s pos) = true <;>
                  simp [bind, Except.bind, pure, Except.pure, hquote, hescape, hlong, hplain, hqd,
                    hrest]
      · simp [pure, Except.pure, hin]

private theorem quotedLoop_le {s : Bytes} (fuel : Nat) : ∀ (pos : Nat) (buffer : Bytes)
    (r : Nat × Bytes), pos ≤ s.length → quotedLoop s fuel pos buffer = .ok r →
    r.1 ≤ s.length := by
  induction fuel with
  | zero =>
      intro pos buffer r hpos hloop
      cases hloop
      exact hpos
  | succ fuel ih =>
      intro pos buffer r hpos hloop
      rw [quotedLoop] at hloop
      split at hloop
      · split at hloop
        · split at hloop
          · exact ih _ _ _ (by omega) hloop
          · cases hloop
        · split at hloop
          · split at hloop
            · cases hloop
            · rename_i next hnext
              obtain ⟨_, ⟨c, hc, _⟩, _⟩ := (findFirstNotOf_eq_some_iff _ _ _ _).mp hnext
              exact ih _ _ _ (le_of_lt (List.getElem?_eq_some_iff.mp hc).1) hloop
          · split at hloop
            · exact ih _ _ _ (by omega) hloop
            · cases hloop
      · cases hloop
        exact hpos

theorem quotedStringReading_of_le {s : Bytes} {pos : Nat} (h : pos ≤ s.length) :
    quotedStringReading s pos = .ok (parseQuotedString s pos) := by
  rw [quotedStringReading, parseQuotedString, readAt_of_le h]
  by_cases hquote : charAt s pos = 34
  · have hlt := lt_length_of_charAt hquote (by decide)
    rw [quotedLoopReading_of_le _ (pos + 1) [] (by omega) (by omega)]
    cases hloop : quotedLoop s (s.length + 1) (pos + 1) [] with
    | error status => simp [bind, Except.bind, pure, Except.pure, hquote]
    | ok r =>
        have hstop := quotedLoop_le _ _ _ _ (by omega) hloop
        by_cases hclose : charAt s r.1 = 34 <;>
          simp [bind, Except.bind, pure, Except.pure, hquote, readAt_of_le hstop, hclose]
  · simp [bind, Except.bind, pure, Except.pure, hquote]

/-- Where the value of a parameter begins inside the text, all reads are inside
it. -/
theorem parameterReading_of_le {s : Bytes} {pos : Nat} (h : pos ≤ s.length) :
    parameterReading s pos = .ok (CGIResponseParser.parseParameter s pos) := by
  rw [parameterReading, CGIResponseParser.parseParameter, readAt_of_le h, substrFrom_of_le h,
    quotedStringReading_of_le h]
  by_cases hquote : charAt s pos = 34
  · cases hparse : parseQuotedString s pos <;>
      simp [bind, Except.bind, pure, Except.pure, hquote]
  · by_cases hempty : (getTokenWithDelims s pos (bytes ";,") false).1 = [] <;>
      simp [bind, Except.bind, pure, Except.pure, hquote, hempty]

end RequestHeaderParser

end FortyTwo.Webserv
