import FortyTwo.Webserv.ConfigScan

/-!
The scanner of `Parser.cpp` over `_source`, `_start` and `_current`, and where it
finds the tokens that `scanTokens` says. `_start` is an `int`, and `narrow` is what the
compiler makes of an offset in it.
-/

namespace FortyTwo.Webserv

namespace ConfigSource

open ConfigParser (toInt)

/-- `_start`, `_current`, `_line` and `_tokens`. -/
structure Cursor where
  start : Int := 0
  current : Nat := 0
  line : Int := 1
  tokens : List Token := []

section Functions

variable (narrow : Nat → Int) (source : Bytes)

/-- `_source.at`. -/
def sourceAt (index : Nat) : Except ParserError UInt8 :=
  match source[index]? with
  | some c => .ok c
  | none => .error .outOfRange

/-- `_source.substr`. A negative number is a `size_t` beyond the length of any string. -/
def substr (pos count : Int) : Except ParserError Bytes :=
  if pos < 0 ∨ source.length < pos then .error .outOfRange
  else .ok ((source.drop pos.toNat).take (if count < 0 then source.length else count.toNat))

def addToken (type : TokenType) (s : Cursor) : Except ParserError Cursor := do
  let text ← substr source s.start (s.current - s.start)
  return { s with tokens := s.tokens ++ [⟨type, text, s.line, s.start⟩] }

def isAtEnd (s : Cursor) : Bool := decide (source.length ≤ s.current)

def advance (s : Cursor) : Except ParserError (UInt8 × Cursor) := do
  let c ← sourceAt source s.current
  return (c, { s with current := s.current + 1 })

def peek (s : Cursor) : Except ParserError UInt8 := sourceAt source s.current

/-- The loop of `identifier`. -/
def identifierLoop : Nat → Cursor → Except ParserError Cursor
  | 0, _ => .error .outOfFuel
  | fuel + 1, s =>
      if isAtEnd source s then .ok s
      else do
        let c ← peek source s
        if isIdentifierChar c then
          let (_, s) ← advance source s
          identifierLoop fuel s
        else return s

def identifier (s : Cursor) : Except ParserError Cursor := do
  let s ← identifierLoop source (source.length - s.current + 1) s
  let text ← substr source s.start (s.current - s.start)
  match keywords.lookup text with
  | some type => addToken source type s
  | none => addToken source .identifier s

/-- The loop of a comment. -/
def commentLoop : Nat → Cursor → Except ParserError Cursor
  | 0, _ => .error .outOfFuel
  | fuel + 1, s =>
      match source[s.current]? with
      | none => .ok s
      | some c => if c = 10 then .ok s else commentLoop fuel { s with current := s.current + 1 }

/-- The `switch` of `scanToken`. -/
def scanChar (c : UInt8) (s : Cursor) : Except ParserError Cursor :=
  if c = byteOf ' ' ∨ c = 13 ∨ c = 9 then .ok s
  else
    match charToken c with
    | some type => addToken source type s
    | none =>
        if c = byteOf '#' then commentLoop source (source.length - s.current + 1) s
        else if c = 10 then .ok { s with line := s.line + 1 }
        else if isIdentifierStart c then identifier source s
        else .ok s

def scanToken (s : Cursor) : Except ParserError Cursor := do
  let (c, s) ← advance source s
  scanChar source c s

/-- The loop of `scanTokens`. -/
def scanLoop : Nat → Cursor → Except ParserError Cursor
  | 0, _ => .error .outOfFuel
  | fuel + 1, s =>
      if s.current < source.length then do
        let s ← scanToken source { s with start := narrow s.current }
        scanLoop fuel s
      else .ok s

def scanTokens : Except ParserError (List Token) := do
  let s ← scanLoop narrow source (source.length + 1) {}
  return s.tokens ++ [endOfFile]

end Functions

/-- What a C++ compiler may make of an offset in an `int`: the number itself, if there
is such an `int`. -/
def Narrows (narrow : Nat → Int) : Prop := ∀ n < 2 ^ 31, narrow n = n

section Loops

variable {source : Bytes}

theorem peek_of_drop {s : Cursor} {c : UInt8} {tail : Bytes}
    (h : source.drop s.current = c :: tail) : sourceAt source s.current = .ok c ∧
      source.drop (s.current + 1) = tail ∧ s.current < source.length := by
  have hlt : s.current < source.length := by
    by_contra hge
    rw [List.drop_eq_nil_of_le (by omega)] at h
    cases h
  have hget : source[s.current]? = some c := by
    rw [← List.head?_drop, h]
    rfl
  refine ⟨by rw [sourceAt, hget], ?_, hlt⟩
  rw [← List.drop_drop, h]
  rfl

theorem identifierLoop_eq (fuel : Nat) (s : Cursor) (rest : Bytes)
    (hrest : source.drop s.current = rest) (hfuel : rest.length < fuel) :
    identifierLoop source fuel s =
      .ok { s with current := s.current + (rest.takeWhile isIdentifierChar).length } := by
  induction fuel generalizing s rest with
  | zero => omega
  | succ fuel ih =>
      rw [identifierLoop]
      cases rest with
      | nil =>
          have hend : isAtEnd source s = true := by
            simpa [isAtEnd] using List.drop_eq_nil_iff.mp hrest
          rw [if_pos hend]
          rfl
      | cons c tail =>
          obtain ⟨hat, htail, hlt⟩ := peek_of_drop hrest
          have hend : ¬isAtEnd source s = true := by simpa [isAtEnd] using hlt
          rw [if_neg hend, peek, hat]
          change (if isIdentifierChar c = true then _ else _ : Except ParserError Cursor) = _
          rw [List.length_cons] at hfuel
          by_cases hc : isIdentifierChar c = true
          · rw [if_pos hc, advance, hat, List.takeWhile_cons, if_pos hc, List.length_cons]
            change identifierLoop source fuel { s with current := s.current + 1 } = _
            rw [ih _ tail htail (by omega)]
            simp only [Except.ok.injEq, Cursor.mk.injEq, true_and, and_true]
            omega
          · rw [if_neg hc, List.takeWhile_cons, if_neg hc]
            rfl

theorem commentLoop_eq (fuel : Nat) (s : Cursor) (rest : Bytes)
    (hrest : source.drop s.current = rest) (hfuel : rest.length < fuel) :
    commentLoop source fuel s =
      .ok { s with current := s.current + (rest.takeWhile (fun d => d != 10)).length } := by
  induction fuel generalizing s rest with
  | zero => omega
  | succ fuel ih =>
      rw [commentLoop]
      cases rest with
      | nil =>
          have hnone : source[s.current]? = none :=
            List.getElem?_eq_none (List.drop_eq_nil_iff.mp hrest)
          rw [hnone]
          rfl
      | cons c tail =>
          obtain ⟨_, htail, hlt⟩ := peek_of_drop hrest
          have hget : source[s.current]? = some c := by
            rw [← List.head?_drop, hrest]
            rfl
          rw [List.length_cons] at hfuel
          rw [hget]
          change (if c = 10 then _ else _ : Except ParserError Cursor) = _
          by_cases hc : c = 10
          · rw [if_pos hc, List.takeWhile_cons, if_neg (by simp [hc])]
            rfl
          · rw [if_neg hc, ih _ tail htail (by omega), List.takeWhile_cons, if_pos (by simp [hc]),
              List.length_cons]
            simp only [Except.ok.injEq, Cursor.mk.injEq, true_and, and_true]
            omega

end Loops

section Step

variable {source : Bytes}

/-- The same place in the source. -/
structure At (source : Bytes) (s : Cursor) (t : ScanState) : Prop where
  rest : source.drop s.current = t.rest
  current : t.current = s.current
  line : t.line = s.line

theorem addToken_of_neg {s : Cursor} (type : TokenType) (h : s.start < 0) :
    addToken source type s = .error .outOfRange := by
  rw [addToken, substr, if_pos (Or.inl h)]
  rfl

/-- The token is the text since `_start`. -/
theorem addToken_eq {s : Cursor} {n : Nat} {text rest : Bytes} (type : TokenType)
    (hstart : s.start = n) (hdrop : source.drop n = text ++ rest)
    (hcurrent : s.current = n + text.length) (hn : n ≤ source.length) :
    substr source s.start (s.current - s.start) = .ok text ∧
      addToken source type s = .ok { s with tokens := s.tokens ++ [⟨type, text, s.line, n⟩] } := by
  have hcount : (s.current : Int) - s.start = text.length := by
    rw [hstart, hcurrent]
    push_cast
    omega
  have htext : substr source s.start (s.current - s.start) = .ok text := by
    rw [hcount, substr, if_neg (by omega), if_neg (by omega), hstart, Int.toNat_natCast,
      Int.toNat_natCast, hdrop, List.take_left]
  refine ⟨htext, ?_⟩
  rw [addToken, htext, hstart]
  rfl

theorem identifier_of_neg {s : Cursor} (h : s.start < 0) :
    identifier source s = .error .outOfRange := by
  have hloop := identifierLoop_eq (source.length - s.current + 1) s
    (source.drop s.current) rfl (by rw [List.length_drop]; omega)
  rw [identifier, hloop]
  change (substr source s.start _ >>= _) = _
  rw [substr, if_pos (Or.inl h)]
  rfl

theorem identifier_eq {s : Cursor} {n : Nat} {c : UInt8} {tail : Bytes} (hstart : s.start = n)
    (hdrop : source.drop n = c :: tail) (hcurrent : s.current = n + 1) :
    identifier source s = .ok { s with
      current := s.current + (tail.takeWhile isIdentifierChar).length
      tokens := s.tokens ++ [⟨identifierType (c :: tail.takeWhile isIdentifierChar),
        c :: tail.takeWhile isIdentifierChar, s.line, n⟩] } := by
  have hn : n ≤ source.length := by
    by_contra hge
    rw [List.drop_eq_nil_of_le (by omega)] at hdrop
    cases hdrop
  have htail : source.drop s.current = tail := by
    rw [hcurrent, ← List.drop_drop, hdrop]
    rfl
  have hloop := identifierLoop_eq (source.length - s.current + 1) s
    (source.drop s.current) rfl (by rw [List.length_drop]; omega)
  rw [htail] at hloop
  generalize htext : c :: tail.takeWhile isIdentifierChar = text
  have hsplit : source.drop n = text ++ tail.dropWhile isIdentifierChar := by
    rw [hdrop, ← htext, List.cons_append, List.takeWhile_append_dropWhile]
  have hend : s.current + (tail.takeWhile isIdentifierChar).length = n + text.length := by
    rw [hcurrent, ← htext, List.length_cons]
    omega
  rw [hend] at hloop ⊢
  have hread := fun type => addToken_eq (s := { s with current := n + text.length }) type hstart
    hsplit rfl hn
  rw [identifier, hloop]
  change (substr source s.start ((n + text.length : Nat) - s.start) >>= _) = _
  rw [(hread .identifier).1]
  change (match keywords.lookup text with
    | some type => addToken source type _
    | none => addToken source .identifier _) = _
  rw [identifierType]
  cases keywords.lookup text with
  | none => exact (hread .identifier).2
  | some type => exact (hread type).2

theorem At.jump {s next : Cursor} {t : ScanState} {c rest : Bytes}
    (hat : At source s t) (hrest : t.rest = c ++ rest)
    (hcurrent : next.current = s.current + c.length) (hline : next.line = s.line) :
    At source next (t.jump rest) := by
  refine ⟨?_, ?_, hat.line.trans hline.symm⟩
  · rw [ScanState.jump_rest, hcurrent, ← List.drop_drop, hat.rest, hrest, List.drop_left]
  · have hlength := congrArg List.length hrest
    rw [List.length_append] at hlength
    change t.current + ((t.rest.length : Int) - rest.length) = next.current
    rw [hat.current, hcurrent]
    push_cast
    omega

/-- What a call of `scanToken` comes to: `next` where it reads no token or `_start` is
the offset, and an error where it reads one and `_start` is negative. -/
structure Steps (source : Bytes) (s : Cursor) (x : Int) (token : Option Token) (t : ScanState) :
    Prop where
  ok : token = none ∨ x = s.current → ∃ next, scanToken source { s with start := x } = .ok next ∧
    At source next t ∧ next.tokens = s.tokens ++ token.toList
  error : token ≠ none → x < 0 → scanToken source { s with start := x } = .error .outOfRange

theorem steps_none {s next : Cursor} {x : Int} {t : ScanState}
    (h : scanToken source { s with start := x } = .ok next) (hat : At source next t)
    (htokens : next.tokens = s.tokens) : Steps source s x none t :=
  ⟨fun _ => ⟨next, h, hat, by simp [htokens]⟩, fun h => absurd rfl h⟩

theorem scanToken_steps {s : Cursor} {t : ScanState} {c : UInt8} {tail : Bytes}
    (hat : At source s t) (hrest : t.rest = c :: tail) (x : Int) :
    Steps source s x (Webserv.scanToken t c tail).1 (Webserv.scanToken t c tail).2 := by
  have hdrop : source.drop s.current = c :: tail := hat.rest.trans hrest
  obtain ⟨hread, htail, hlt⟩ := peek_of_drop hdrop
  have hcall : scanToken source { s with start := x } =
      scanChar source c { s with start := x, current := s.current + 1 } := by
    rw [scanToken, advance, hread]
    rfl
  have hone : ∀ next : Cursor, next.current = s.current + 1 → next.line = s.line →
      At source next (t.jump tail) := by
    intro next hcurrent hline
    exact hat.jump (c := [c]) hrest hcurrent hline
  rw [Webserv.scanToken]
  by_cases hblank : c = byteOf ' ' ∨ c = 13 ∨ c = 9
  · rw [if_pos hblank]
    exact steps_none (hcall.trans (if_pos hblank)) (hone _ rfl rfl) rfl
  rw [if_neg hblank]
  cases htype : charToken c with
  | some type =>
      have hchar : scanToken source { s with start := x } =
          addToken source type { s with start := x, current := s.current + 1 } := by
        rw [hcall, scanChar, if_neg hblank, htype]
      refine ⟨?_, fun _ hx => hchar.trans (addToken_of_neg type hx)⟩
      rintro (h | rfl)
      · cases h
      · have hsingle : source.drop s.current = [c] ++ tail := hdrop
        have hread := addToken_eq (s := { s with start := s.current, current := s.current + 1 })
          type rfl hsingle rfl hlt.le
        refine ⟨_, hchar.trans hread.2, hone _ rfl rfl, ?_⟩
        rw [hat.line, hat.current]
        rfl
  | none =>
      have hchar : ∀ y, scanChar source c y =
          if c = byteOf '#' then commentLoop source (source.length - y.current + 1) y
          else if c = 10 then .ok { y with line := y.line + 1 }
          else if isIdentifierStart c then identifier source y
          else .ok y := by
        intro y
        rw [scanChar, if_neg hblank, htype]
      rw [hchar] at hcall
      by_cases hcomment : c = byteOf '#'
      · simp only [if_pos hcomment] at hcall ⊢
        have hloop := commentLoop_eq (source.length - (s.current + 1) + 1)
          { s with start := x, current := s.current + 1 } tail htail (by
            rw [← htail, List.length_drop]
            omega)
        refine steps_none (hcall.trans hloop) (hat.jump
          (c := c :: tail.takeWhile (fun d => d != 10)) ?_ ?_ rfl) rfl
        · rw [hrest, List.cons_append, List.takeWhile_append_dropWhile]
        · simp only [List.length_cons]
          omega
      by_cases hline : c = 10
      · simp only [if_neg hcomment, if_pos hline] at hcall ⊢
        refine steps_none hcall ?_ rfl
        have hnext := hone { s with start := x, current := s.current + 1 } rfl rfl
        exact ⟨hnext.rest, hnext.current, congrArg (· + 1) hat.line⟩
      by_cases hstart : isIdentifierStart c = true
      · simp only [if_neg hcomment, if_neg hline, if_pos hstart] at hcall ⊢
        refine ⟨?_, fun _ hx => hcall.trans (identifier_of_neg hx)⟩
        rintro (h | rfl)
        · cases h
        · have hread := identifier_eq (s := { s with start := s.current, current := s.current + 1 })
            rfl hdrop rfl
          refine ⟨_, hcall.trans hread, hat.jump
            (c := c :: tail.takeWhile isIdentifierChar) ?_ ?_ rfl, ?_⟩
          · rw [hrest, List.cons_append, List.takeWhile_append_dropWhile]
          · simp only [List.length_cons]
            omega
          · rw [hat.line, hat.current]
            rfl
      · simp only [if_neg hcomment, if_neg hline, if_neg hstart] at hcall ⊢
        exact steps_none hcall (hone _ rfl rfl) rfl

end Step

section Run

variable {narrow : Nat → Int} {source : Bytes}

private theorem column_of_read {s : Cursor} {t : ScanState} {c : UInt8} {tail : Bytes}
    {token : Token} (hat : At source s t) (hrest : t.rest = c :: tail)
    (h : (Webserv.scanToken t c tail).1 = some token) : token.column = s.current :=
  (scanToken_read hrest h).column.trans hat.current

/-- `_start` is the offset, or is not read. -/
private theorem start_of_lt (hnarrow : Narrows narrow) {s : Cursor} {t : ScanState} {c : UInt8}
    {tail : Bytes} (hat : At source s t) (hrest : t.rest = c :: tail)
    (h : ∀ token ∈ (Webserv.scanToken t c tail).1, token.column < 2 ^ 31) :
    (Webserv.scanToken t c tail).1 = none ∨ narrow s.current = s.current := by
  cases hread : (Webserv.scanToken t c tail).1 with
  | none => exact Or.inl rfl
  | some token =>
      have hcolumn := column_of_read hat hrest hread
      have hbound := h token hread
      exact Or.inr (hnarrow _ (by omega))

/-- Where every token begins at an offset that an `int` holds, the tokens are those of
`scan`. -/
theorem scanLoop_ok (hnarrow : Narrows narrow) (t : ScanState) (s : Cursor) (fuel : Nat)
    (hat : At source s t) (htokens : ∀ token ∈ scan t, token.column < 2 ^ 31)
    (hfuel : t.rest.length < fuel) : ∃ next,
      scanLoop narrow source fuel s = .ok next ∧ next.tokens = s.tokens ++ scan t := by
  induction t using scan_induction generalizing s fuel with
  | hnil t h =>
      obtain ⟨fuel, rfl⟩ : ∃ less, fuel = less + 1 := ⟨fuel - 1, by omega⟩
      have hend : ¬s.current < source.length := by
        have := List.drop_eq_nil_iff.mp (hat.rest.trans h)
        omega
      exact ⟨s, by rw [scanLoop, if_neg hend], by rw [scan_nil h, List.append_nil]⟩
  | hcons t c tail h ih =>
      obtain ⟨fuel, rfl⟩ : ∃ less, fuel = less + 1 := ⟨fuel - 1, by omega⟩
      obtain ⟨_, _, hlt⟩ := peek_of_drop (hat.rest.trans h)
      have hsteps := scanToken_steps hat h (narrow s.current)
      have hle := (scanToken_rest t c tail).length_le
      rw [scan_cons h] at htokens ⊢
      rw [h, List.length_cons] at hfuel
      have hstart := start_of_lt hnarrow hat h fun token hread =>
        htokens token (List.mem_append_left _ (Option.mem_toList.mpr hread))
      obtain ⟨mid, hcall, hmid, hmidTokens⟩ := hsteps.ok hstart
      obtain ⟨next, hrun, hnext⟩ := ih mid fuel hmid
        (fun token ht => htokens token (List.mem_append_right _ ht)) (by omega)
      refine ⟨next, ?_, by rw [hnext, hmidTokens, List.append_assoc]⟩
      rw [scanLoop, if_pos hlt, hcall]
      exact hrun

/-- A compiler that makes negative numbers of the others. -/
theorem scanLoop_error (hnarrow : Narrows narrow) (hneg : ∀ n, 2 ^ 31 ≤ n → narrow n < 0)
    (t : ScanState) (s : Cursor) (fuel : Nat) (hat : At source s t)
    (htokens : ∃ token ∈ scan t, 2 ^ 31 ≤ token.column) (hfuel : t.rest.length < fuel) :
    scanLoop narrow source fuel s = .error .outOfRange := by
  induction t using scan_induction generalizing s fuel with
  | hnil t h =>
      obtain ⟨token, htoken, _⟩ := htokens
      rw [scan_nil h] at htoken
      cases htoken
  | hcons t c tail h ih =>
      obtain ⟨fuel, rfl⟩ : ∃ less, fuel = less + 1 := ⟨fuel - 1, by omega⟩
      obtain ⟨_, _, hlt⟩ := peek_of_drop (hat.rest.trans h)
      have hsteps := scanToken_steps hat h (narrow s.current)
      have hle := (scanToken_rest t c tail).length_le
      rw [h, List.length_cons] at hfuel
      rw [scanLoop, if_pos hlt]
      by_cases hfirst : ∃ token ∈ (Webserv.scanToken t c tail).1, 2 ^ 31 ≤ token.column
      · obtain ⟨token, htoken, hcolumn⟩ := hfirst
        have hread : (Webserv.scanToken t c tail).1 = some token := htoken
        rw [column_of_read hat h hread] at hcolumn
        rw [hsteps.error (by simp [hread]) (hneg _ (by omega))]
        rfl
      · have hstart := start_of_lt hnarrow hat h fun token hread =>
          not_le.mp fun hlarge => hfirst ⟨token, hread, hlarge⟩
        obtain ⟨mid, hcall, hmid, _⟩ := hsteps.ok hstart
        rw [hcall]
        refine ih mid fuel hmid ?_ (by omega)
        obtain ⟨token, htoken, hcolumn⟩ := htokens
        rw [scan_cons h] at htoken
        rcases List.mem_append.mp htoken with hhead | htail
        · exact absurd ⟨token, Option.mem_toList.mp hhead, hcolumn⟩ hfirst
        · exact ⟨token, htail, hcolumn⟩

theorem at_start : At source {} ⟨1, 0, source⟩ := ⟨rfl, rfl, rfl⟩

theorem scanTokens_eq (hnarrow : Narrows narrow)
    (h : ∀ token ∈ scanText source, token.column < 2 ^ 31) :
    scanTokens narrow source = .ok (Webserv.scanTokens source) := by
  obtain ⟨next, hrun, hnext⟩ := scanLoop_ok hnarrow _ _ (source.length + 1)
    at_start h (Nat.lt_succ_self _)
  rw [scanTokens, hrun]
  change Except.ok (next.tokens ++ [endOfFile]) = _
  rw [hnext]
  rfl

theorem scanTokens_error (hnarrow : Narrows narrow) (hneg : ∀ n, 2 ^ 31 ≤ n → narrow n < 0)
    (h : ∃ token ∈ scanText source, 2 ^ 31 ≤ token.column) :
    scanTokens narrow source = .error .outOfRange := by
  rw [scanTokens, scanLoop_error hnarrow hneg _ _ (source.length + 1) at_start h
    (Nat.lt_succ_self _)]
  rfl

end Run

end ConfigSource

end FortyTwo.Webserv
