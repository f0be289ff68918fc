import FortyTwo.Webserv.CgiPassThrough

/-!
`parse_quoted_string` on well-formed quoted strings. Each round of its loop puts
out one character, so a round that skips more of the text than one character
stands for is never made up for.
-/

namespace FortyTwo.Webserv

/-- What the inside of a quoted string stands for. -/
def unquote : Bytes → Bytes
  | [] => []
  | 92 :: c :: rest => c :: unquote rest
  | c :: rest => c :: unquote rest

/-- No blank stands unescaped inside, except as the last character of all. -/
def KeepsBlanks (suffix : Bytes) : Bytes → Prop
  | [] => True
  | 92 :: _ :: rest => KeepsBlanks suffix rest
  | c :: rest => (isWs c = true → rest = [] ∧ suffix = []) ∧ KeepsBlanks suffix rest

/-- A quoted string. -/
def quote (inside : Bytes) : Bytes := 34 :: (inside ++ [34])

theorem unquote_cons {c : UInt8} (h : c ≠ 92) (rest : Bytes) :
    unquote (c :: rest) = c :: unquote rest := by
  rw [unquote]
  exact fun _ _ hc => absurd hc h

theorem keepsBlanks_cons {c : UInt8} (h : c ≠ 92) (suffix rest : Bytes) :
    KeepsBlanks suffix (c :: rest) ↔
      (isWs c = true → rest = [] ∧ suffix = []) ∧ KeepsBlanks suffix rest := by
  rw [KeepsBlanks]
  exact fun _ _ hc => absurd hc h

theorem isQuotedText_cons {c : UInt8} (h : c ≠ 92) (rest : Bytes) :
    isQuotedText (c :: rest) = (isQdText c && isQuotedText rest) := by
  rw [isQuotedText]
  exact fun _ _ hc => absurd hc h

/-- The inside of a quoted string, read from the front. -/
theorem quoted_cases {inside : Bytes} (h : isQuotedText inside = true) :
    inside = [] ∨
    (∃ c rest, inside = 92 :: c :: rest ∧ isQuotedPairChar c = true ∧ isQuotedText rest = true) ∨
    ∃ c rest, inside = c :: rest ∧ c ≠ 92 ∧ isQdText c = true ∧ isQuotedText rest = true := by
  cases inside with
  | nil => exact Or.inl rfl
  | cons c rest =>
      right
      by_cases hc : c = 92
      · cases rest with
        | nil =>
            rw [hc, isQuotedText] at h
            · exact absurd h (by decide)
            · simp
        | cons d rest =>
            rw [hc, isQuotedText, Bool.and_eq_true] at h
            exact Or.inl ⟨d, rest, by rw [hc], h⟩
      · rw [isQuotedText_cons hc, Bool.and_eq_true] at h
        exact Or.inr ⟨c, rest, rfl, hc, h⟩

private theorem unquote_drop_one (text : Bytes) :
    (unquote (text.drop 1)).length ≤ (unquote text).length := by
  induction text using unquote.induct with
  | case1 => exact le_refl _
  | case2 c rest ih =>
      rw [List.drop_succ_cons, List.drop_zero, unquote, List.length_cons]
      by_cases hc : c = 92
      · cases rest with
        | nil => simp [unquote]
        | cons d rest =>
            rw [hc, unquote, List.length_cons]
            rw [List.drop_succ_cons, List.drop_zero] at ih
            omega
      · rw [unquote_cons hc, List.length_cons]
  | case3 c rest hc ih =>
      rw [List.drop_succ_cons, List.drop_zero, unquote, List.length_cons]
      · exact Nat.le_succ _
      · exact hc

/-- A shorter rest stands for no more characters. -/
theorem unquote_drop (text : Bytes) (n : Nat) :
    (unquote (text.drop n)).length ≤ (unquote text).length := by
  induction n with
  | zero => exact le_refl _
  | succ n ih =>
      have hone := unquote_drop_one (text.drop n)
      rw [List.drop_drop] at hone
      exact hone.trans ih

/-- So does a shorter beginning. -/
theorem unquote_take (text : Bytes) (n : Nat) :
    (unquote (text.take n)).length ≤ (unquote text).length := by
  induction text using unquote.induct generalizing n with
  | case1 => rw [List.take_nil]
  | case2 c rest ih =>
      match n with
      | 0 => exact Nat.zero_le _
      | 1 => simp [unquote]
      | n + 2 =>
          rw [List.take_succ_cons, List.take_succ_cons, unquote, unquote, List.length_cons,
            List.length_cons]
          exact Nat.succ_le_succ (ih n)
  | case3 c rest hc ih =>
      match n with
      | 0 => exact Nat.zero_le _
      | n + 1 =>
          by_cases hslash : c = 92
          · cases rest with
            | nil => rw [List.take_succ_cons, List.take_nil]
            | cons d rest => exact absurd rfl (hc d rest hslash)
          · rw [List.take_succ_cons, unquote_cons hslash, unquote_cons hslash, List.length_cons,
              List.length_cons]
            exact Nat.succ_le_succ (ih n)

/-- A rest that begins behind the first character stands for fewer. -/
theorem unquote_drop_lt {c : UInt8} (h : c ≠ 92) (rest : Bytes) {n : Nat} (hn : 0 < n) :
    (unquote ((c :: rest).drop n)).length < (unquote (c :: rest)).length := by
  obtain ⟨n, rfl⟩ : ∃ m, n = m + 1 := ⟨n - 1, by omega⟩
  rw [List.drop_succ_cons, unquote_cons h, List.length_cons]
  exact Nat.lt_succ_of_le (unquote_drop rest n)

/-- What a round of the loop does: it stops, or it puts out a character for two
bytes that begin with a backslash, or for at least one other byte. -/
private theorem quotedLoop_cases {s : Bytes} {fuel pos stop : Nat} {buffer out : Bytes}
    (h : quotedLoop s (fuel + 1) pos buffer = .ok (stop, out)) :
    (stop = pos ∧ out = buffer) ∨
    ∃ next c, quotedLoop s fuel next (buffer ++ [c]) = .ok (stop, out) ∧
      ((charAt s pos = 92 ∧ pos + 1 < s.length ∧ next = pos + 2) ∨
        (charAt s pos ≠ 92 ∧ pos < s.length ∧ pos < next)) := by
  rw [quotedLoop] at h
  split at h
  · rename_i hin
    right
    split at h
    · rename_i hescape
      split at h
      · exact ⟨pos + 2, _, h, Or.inl ⟨hescape.2, hescape.1, rfl⟩⟩
      · cases h
    · split at h
      · rename_i hows
        split at h
        · cases h
        · rename_i next hnext
          have hnext' := ((findFirstNotOf_eq_some_iff _ _ _ _).mp hnext).1
          refine ⟨next, _, h, Or.inr ⟨?_, hin.1, by omega⟩⟩
          intro hslash
          have hno : isOws s pos = false := by simp [isOws, isCrlf, hslash, isWs]
          rw [hno] at hows
          exact absurd hows.2 Bool.false_ne_true
      · split at h
        · rename_i hplain
          refine ⟨pos + 1, _, h, Or.inr ⟨?_, hin.1, Nat.lt_succ_self _⟩⟩
          intro hslash
          rw [hslash] at hplain
          exact absurd hplain (by decide)
        · cases h
  · cases h
    exact Or.inl ⟨rfl, rfl⟩

/-- The loop puts out no more characters than the bytes up to where it stops
stand for. -/
private theorem quotedLoop_bound (s : Bytes) (fuel : Nat) :
    ∀ (pos : Nat) (buffer : Bytes) (stop : Nat) (out : Bytes),
      quotedLoop s fuel pos buffer = .ok (stop, out) → pos ≤ stop ∧
        out.length ≤ buffer.length + (unquote ((s.drop pos).take (stop - pos))).length := by
  induction fuel with
  | zero =>
      intro pos buffer stop out h
      cases h
      exact ⟨le_refl _, Nat.le_add_right _ _⟩
  | succ fuel ih =>
      intro pos buffer stop out h
      rcases quotedLoop_cases h with ⟨rfl, rfl⟩ | ⟨next, c, hloop, hround⟩
      · exact ⟨le_refl _, Nat.le_add_right _ _⟩
      · obtain ⟨hle, hlen⟩ := ih next _ stop out hloop
        rw [List.length_append, List.length_singleton] at hlen
        rcases hround with ⟨hslash, hin, rfl⟩ | ⟨hslash, hin, hlt⟩
        · refine ⟨by omega, ?_⟩
          obtain ⟨n, hn⟩ : ∃ n, stop - pos = n + 2 := ⟨stop - pos - 2, by omega⟩
          have hrest : stop - (pos + 1 + 1) = n := by omega
          have hnext : pos + 2 = pos + 1 + 1 := rfl
          rw [hnext, hrest] at hlen
          rw [drop_eq_charAt_cons (by omega), drop_eq_charAt_cons hin, hslash, hn,
            List.take_succ_cons, List.take_succ_cons, unquote, List.length_cons]
          omega
        · refine ⟨by omega, ?_⟩
          obtain ⟨n, hn⟩ : ∃ n, stop - pos = n + 1 := ⟨stop - pos - 1, by omega⟩
          have hrest : (s.drop next).take (stop - next) =
              ((s.drop pos).take (stop - pos)).drop (next - pos) := by
            have hfront : pos + (next - pos) = next := by omega
            have hlength : stop - pos - (next - pos) = stop - next := by omega
            rw [List.drop_take, List.drop_drop, hfront, hlength]
          have hfewer : (unquote ((s.drop next).take (stop - next))).length <
              (unquote ((s.drop pos).take (stop - pos))).length := by
            rw [hrest, drop_eq_charAt_cons hin, hn, List.take_succ_cons]
            exact unquote_drop_lt hslash _ (by omega)
          omega

/-- The rest of a quoted inside behind at least two of its bytes stands for
fewer characters. -/
private theorem unquote_drop_two_lt {inside : Bytes} (h : isQuotedText inside = true)
    (hne : inside ≠ []) {n : Nat} (hn : 2 ≤ n) :
    (unquote (inside.drop n)).length < (unquote inside).length := by
  rcases quoted_cases h with rfl | ⟨c, rest, rfl, _, _⟩ | ⟨c, rest, rfl, hc, _, _⟩
  · exact absurd rfl hne
  · obtain ⟨n, rfl⟩ : ∃ m, n = m + 2 := ⟨n - 2, by omega⟩
    rw [List.drop_succ_cons, List.drop_succ_cons, unquote, List.length_cons]
    exact Nat.lt_succ_of_le (unquote_drop rest n)
  · exact unquote_drop_lt hc rest (by omega)

section Loop

variable {s : Bytes} {pos : Nat} {c : UInt8} {rest : Bytes}

private theorem quotedLoop_stop (h : s.drop pos = 34 :: rest) (fuel : Nat) (buffer : Bytes) :
    quotedLoop s (fuel + 1) pos buffer = .ok (pos, buffer) := by
  rw [quotedLoop, if_neg (fun hin => hin.2 (charAt_of_drop h))]

private theorem quotedLoop_escape (h : s.drop pos = 92 :: c :: rest)
    (hc : isQuotedPairChar c = true) (fuel : Nat) (buffer : Bytes) :
    quotedLoop s (fuel + 1) pos buffer = quotedLoop s fuel (pos + 2) (buffer ++ [c]) := by
  have hlen := length_of_drop h
  have hat := charAt_of_drop h
  have hnext : charAt s (pos + 1) = c := charAt_of_drop (drop_succ_of_drop h)
  rw [List.length_cons] at hlen
  rw [quotedLoop, hat, hnext, if_pos ⟨by omega, by decide⟩, if_pos ⟨by omega, rfl⟩, if_pos hc]

private theorem qdText_ne {c : UInt8} (h : isQdText c = true) : c ≠ 34 ∧ c ≠ 92 ∧ c ≠ 13 := by
  refine ⟨?_, ?_, ?_⟩ <;> rintro rfl <;> exact absurd h (by decide)

/-- A blank is taken for itself only in front of the last byte of all. -/
private theorem quotedLoop_plain (h : s.drop pos = c :: rest) (hc : isQdText c = true)
    (hblank : isWs c = true → rest.length < 2) (fuel : Nat) (buffer : Bytes) :
    quotedLoop s (fuel + 1) pos buffer = quotedLoop s fuel (pos + 1) (buffer ++ [c]) := by
  have hlen := length_of_drop h
  obtain ⟨hquote, hslash, hreturn⟩ := qdText_ne hc
  have hows : ¬ (pos + 2 < s.length ∧ isOws s pos = true) := by
    rintro ⟨hlt, hows⟩
    rw [isOws, isCrlf, charAt_of_drop h] at hows
    have hreturn' : (c == 13) = false := by simpa using hreturn
    rw [hreturn', Bool.false_and, Bool.false_and, Bool.false_or] at hows
    have hshort := hblank hows
    omega
  rw [quotedLoop, charAt_of_drop h, if_pos ⟨by omega, hquote⟩, if_neg (fun hin => hslash hin.2),
    if_neg hows, if_pos hc]

/-- Any other blank takes two more bytes with it. -/
private theorem quotedLoop_blank (h : s.drop pos = c :: rest) (hc : isWs c = true)
    (hrest : 2 ≤ rest.length) {fuel : Nat} {buffer : Bytes} {r : Nat × Bytes}
    (hloop : quotedLoop s (fuel + 1) pos buffer = .ok r) :
    ∃ next, pos + 3 ≤ next ∧ quotedLoop s fuel next (buffer ++ [32]) = .ok r := by
  have hlen := length_of_drop h
  have hne : c ≠ 34 ∧ c ≠ 92 := by constructor <;> rintro rfl <;> exact absurd hc (by decide)
  have hows : isOws s pos = true := by rw [isOws, charAt_of_drop h, hc, Bool.or_true]
  rw [quotedLoop, charAt_of_drop h, if_pos ⟨by omega, hne.1⟩, if_neg (fun hin => hne.2 hin.2),
    if_pos ⟨by omega, hows⟩] at hloop
  split at hloop
  · cases hloop
  · rename_i next hnext
    exact ⟨next, ((findFirstNotOf_eq_some_iff _ _ _ _).mp hnext).1, hloop⟩

end Loop

/-- A round that skips over more than it puts out is not made up for. -/
private theorem quotedLoop_blank_lt {s rest suffix out : Bytes} {c : UInt8} {pos stop fuel : Nat}
    {buffer : Bytes} (hdrop : s.drop pos = c :: (rest ++ 34 :: suffix)) (hslash : c ≠ 92)
    (hc : isWs c = true) (hrest : isQuotedText rest = true)
    (hlong : 2 ≤ (rest ++ 34 :: suffix).length) (hstop : stop ≤ pos + (rest.length + 1))
    (hloop : quotedLoop s (fuel + 1) pos buffer = .ok (stop, out)) :
    out.length < buffer.length + (unquote (c :: rest)).length := by
  obtain ⟨next, hnext, hloop⟩ := quotedLoop_blank hdrop hc hlong hloop
  obtain ⟨hle, hlen⟩ := quotedLoop_bound s fuel next _ _ _ hloop
  obtain ⟨k, rfl⟩ : ∃ k, next = pos + 1 + k := ⟨next - (pos + 1), by omega⟩
  have hbehind : (s.drop (pos + 1 + k)).take (stop - (pos + 1 + k)) =
      (rest.drop k).take (stop - (pos + 1 + k)) := by
    rw [← List.drop_drop, drop_succ_of_drop hdrop, List.drop_append_of_le_length (by omega),
      List.take_append_of_le_length]
    rw [List.length_drop]
    omega
  have hne : rest ≠ [] := by
    rintro rfl
    rw [List.length_nil] at hstop
    omega
  have hfewer := unquote_drop_two_lt hrest hne (by omega : 2 ≤ k)
  have htake := unquote_take (rest.drop k) (stop - (pos + 1 + k))
  rw [hbehind, List.length_append, List.length_singleton] at hlen
  rw [unquote_cons hslash, List.length_cons]
  omega

private theorem length_append_lt_two {rest suffix : Bytes} :
    (rest ++ 34 :: suffix).length < 2 ↔ rest = [] ∧ suffix = [] := by
  rw [List.length_append, List.length_cons, ← List.length_eq_zero_iff, ← List.length_eq_zero_iff]
  omega

/-- The loop reads a quoted string without such blanks to its end. -/
private theorem quotedLoop_reads {s suffix : Bytes} (fuel : Nat) : ∀ (inside : Bytes) (pos : Nat)
    (buffer : Bytes), isQuotedText inside = true → KeepsBlanks suffix inside →
    s.drop pos = inside ++ 34 :: suffix → inside.length < fuel →
    quotedLoop s fuel pos buffer = .ok (pos + inside.length, buffer ++ unquote inside) := by
  induction fuel with
  | zero =>
      intro inside pos buffer _ _ _ hfuel
      omega
  | succ fuel ih =>
      intro inside pos buffer hinside hkeeps hdrop hfuel
      rcases quoted_cases hinside with rfl | ⟨c, rest, rfl, hc, hrest⟩ |
        ⟨c, rest, rfl, hslash, hc, hrest⟩
      · rw [quotedLoop_stop hdrop, unquote, List.append_nil, List.length_nil, Nat.add_zero]
      · rw [List.cons_append, List.cons_append] at hdrop
        rw [List.length_cons, List.length_cons] at hfuel
        rw [KeepsBlanks] at hkeeps
        rw [quotedLoop_escape hdrop hc, ih rest (pos + 2) (buffer ++ [c]) hrest hkeeps
          (drop_succ_of_drop (drop_succ_of_drop hdrop)) (by omega), unquote, List.append_assoc,
          List.singleton_append, List.length_cons, List.length_cons]
        congr 2
        omega
      · rw [List.cons_append] at hdrop
        rw [List.length_cons] at hfuel
        rw [keepsBlanks_cons hslash] at hkeeps
        have hblank : isWs c = true → (rest ++ 34 :: suffix).length < 2 :=
          fun hws => length_append_lt_two.mpr (hkeeps.1 hws)
        rw [quotedLoop_plain hdrop hc hblank, ih rest (pos + 1) (buffer ++ [c]) hrest hkeeps.2
          (drop_succ_of_drop hdrop) (by omega), unquote_cons hslash, List.append_assoc,
          List.singleton_append, List.length_cons]
        congr 2
        omega

/-- As many characters as the inside stands for are put out by the closing quote
only without such blanks. -/
private theorem keepsBlanks_of_quotedLoop {s suffix out : Bytes} (fuel : Nat) :
    ∀ (inside : Bytes) (pos stop : Nat) (buffer : Bytes), isQuotedText inside = true →
      s.drop pos = inside ++ 34 :: suffix → inside.length < fuel → stop ≤ pos + inside.length →
      quotedLoop s fuel pos buffer = .ok (stop, out) →
      buffer.length + (unquote inside).length ≤ out.length → KeepsBlanks suffix inside := by
  induction fuel with
  | zero =>
      intro inside pos stop buffer _ _ hfuel
      omega
  | succ fuel ih =>
      intro inside pos stop buffer hinside hdrop hfuel hstop hloop hlen
      rcases quoted_cases hinside with rfl | ⟨c, rest, rfl, hc, hrest⟩ |
        ⟨c, rest, rfl, hslash, hc, hrest⟩
      · trivial
      · rw [List.cons_append, List.cons_append] at hdrop
        rw [List.length_cons, List.length_cons] at hfuel hstop
        rw [unquote, List.length_cons] at hlen
        rw [quotedLoop_escape hdrop hc] at hloop
        refine ih rest (pos + 2) stop _ hrest (drop_succ_of_drop (drop_succ_of_drop hdrop))
          (by omega) (by omega) hloop ?_
        rw [List.length_append, List.length_singleton]
        omega
      · rw [List.cons_append] at hdrop
        rw [List.length_cons] at hfuel hstop
        have hblank : isWs c = true → (rest ++ 34 :: suffix).length < 2 := by
          intro hws
          by_contra hlong
          have hlt := quotedLoop_blank_lt hdrop hslash hws hrest (by omega) hstop hloop
          omega
        rw [quotedLoop_plain hdrop hc hblank] at hloop
        rw [unquote_cons hslash, List.length_cons] at hlen
        rw [keepsBlanks_cons hslash]
        refine ⟨fun hws => length_append_lt_two.mp (hblank hws),
          ih rest (pos + 1) stop _ hrest (drop_succ_of_drop hdrop) (by omega) (by omega) hloop ?_⟩
        rw [List.length_append, List.length_singleton]
        omega

section Parse

variable (front suffix : Bytes) {inside : Bytes}

private theorem drop_quote :
    (front ++ (quote inside ++ suffix)).drop front.length = 34 :: (inside ++ 34 :: suffix) := by
  simp [quote]

private theorem parseQuotedString_ok_iff (buffer : Bytes) (stop : Nat) :
    parseQuotedString (front ++ (quote inside ++ suffix)) front.length = .ok (buffer, stop) ↔
      quotedLoop (front ++ (quote inside ++ suffix))
          ((front ++ (quote inside ++ suffix)).length + 1) (front.length + 1) [] =
        .ok (stop, buffer) ∧ charAt (front ++ (quote inside ++ suffix)) stop = 34 := by
  rw [parseQuotedString, if_neg (not_not.mpr (charAt_of_drop (drop_quote front suffix)))]
  cases hrun : quotedLoop (front ++ (quote inside ++ suffix))
      ((front ++ (quote inside ++ suffix)).length + 1) (front.length + 1) [] with
  | error status => simp
  | ok r =>
      obtain ⟨stop', buffer'⟩ := r
      by_cases hclose : charAt (front ++ (quote inside ++ suffix)) stop' = 34
      · simp only [hclose, ne_eq, not_true, if_false, Except.ok.injEq, Prod.mk.injEq]
        constructor
        · rintro ⟨rfl, rfl⟩
          exact ⟨⟨rfl, rfl⟩, hclose⟩
        · rintro ⟨⟨rfl, rfl⟩, _⟩
          exact ⟨rfl, rfl⟩
      · simp only [hclose, ne_eq, not_false_eq_true, if_true, Except.ok.injEq, Prod.mk.injEq,
          reduceCtorEq, false_iff]
        rintro ⟨⟨rfl, _⟩, hat⟩
        exact hclose hat

private theorem inside_length_lt :
    inside.length < (front ++ (quote inside ++ suffix)).length + 1 := by
  simp [quote]
  omega

/-- A string whose blanks are all escaped, or one that ends the text with a
blank. -/
theorem parseQuotedString_quote (h : isQuotedText inside = true)
    (hkeeps : KeepsBlanks suffix inside) :
    parseQuotedString (front ++ (quote inside ++ suffix)) front.length =
      .ok (unquote inside, front.length + 1 + inside.length) := by
  have hbehind := drop_succ_of_drop (@drop_quote front suffix inside)
  rw [parseQuotedString_ok_iff, quotedLoop_reads _ inside (front.length + 1) [] h hkeeps hbehind
    (inside_length_lt front suffix)]
  refine ⟨rfl, @charAt_of_drop _ _ _ suffix ?_⟩
  rw [← List.drop_drop, hbehind, List.drop_left]

/-- The reported position is that of a character of the text. -/
theorem stop_lt_of_parseQuotedString {s buffer : Bytes} {pos stop : Nat}
    (h : parseQuotedString s pos = .ok (buffer, stop)) : stop < s.length := by
  rw [parseQuotedString] at h
  split at h
  · cases h
  · split at h
    · cases h
    · rename_i stop' buffer' _
      split at h
      · cases h
      · rename_i hquote
        simp only [Except.ok.injEq, Prod.mk.injEq] at h
        obtain ⟨rfl, rfl⟩ := h
        by_contra hend
        rw [charAt_of_length_le (Nat.not_lt.mp hend)] at hquote
        exact hquote (by decide)

/-- A string with such a blank is read as a shorter one, if it is read at all. -/
theorem length_lt_of_parseQuotedString (h : isQuotedText inside = true)
    (hnot : ¬ KeepsBlanks suffix inside) {out : Bytes} {stop : Nat}
    (hstop : stop ≤ front.length + 1 + inside.length)
    (hparse : parseQuotedString (front ++ (quote inside ++ suffix)) front.length =
      .ok (out, stop)) : out.length < (unquote inside).length := by
  obtain ⟨hloop, _⟩ := (parseQuotedString_ok_iff front suffix _ _).mp hparse
  by_contra hlen
  exact hnot (keepsBlanks_of_quotedLoop _ inside (front.length + 1) stop [] h
    (drop_succ_of_drop (drop_quote front suffix)) (inside_length_lt front suffix) hstop hloop
    (by rw [List.length_nil]; omega))

theorem keepsBlanks_of_parseQuotedString (h : isQuotedText inside = true) {stop : Nat}
    (hstop : stop ≤ front.length + 1 + inside.length)
    (hparse : parseQuotedString (front ++ (quote inside ++ suffix)) front.length =
      .ok (unquote inside, stop)) : KeepsBlanks suffix inside := by
  by_contra hnot
  exact absurd (length_lt_of_parseQuotedString front suffix h hnot hstop hparse) (lt_irrefl _)

end Parse

/-- A printable character, a blank or a byte from 128 up. -/
def isQuotable (c : UInt8) : Bool :=
  (decide (32 ≤ c) && decide (c ≤ 126)) || c == 9 || decide (128 ≤ c)

/-- A backslash before each double quote and each backslash. -/
def escape : Bytes → Bytes
  | [] => []
  | c :: rest => if c = 34 ∨ c = 92 then 92 :: c :: escape rest else c :: escape rest

theorem mem_escape {c : UInt8} {text : Bytes} (h : c ∈ escape text) : c ∈ text ∨ c = 92 := by
  induction text with
  | nil => cases h
  | cons d text ih =>
      rw [escape] at h
      split at h
      all_goals
        simp only [List.mem_cons] at h ⊢
        tauto

/-- The text is read back from its quoted form, wherever that stands. -/
def ReadsBack (front text suffix : Bytes) : Prop :=
  parseQuotedString (front ++ (quote (escape text) ++ suffix)) front.length =
    .ok (text, front.length + 1 + (escape text).length)

/-- A blank stands only at the end of the text, and then nothing follows the
closing quote. -/
def OnlyLastBlank (suffix text : Bytes) : Prop :=
  ∀ before c after, text = before ++ c :: after → isWs c = true → after = [] ∧ suffix = []

private theorem onlyLastBlank_cons (suffix : Bytes) (c : UInt8) (rest : Bytes) :
    OnlyLastBlank suffix (c :: rest) ↔
      (isWs c = true → rest = [] ∧ suffix = []) ∧ OnlyLastBlank suffix rest := by
  constructor
  · intro h
    refine ⟨h [] c rest rfl, ?_⟩
    intro before d after hrest
    exact h (c :: before) d after (by rw [hrest, List.cons_append])
  · rintro ⟨hfirst, hrest⟩ before d after hsplit
    cases before with
    | nil =>
        rw [List.nil_append, List.cons.injEq] at hsplit
        obtain ⟨rfl, rfl⟩ := hsplit
        exact hfirst
    | cons b before =>
        rw [List.cons_append, List.cons.injEq] at hsplit
        exact hrest before d after hsplit.2

private theorem unquote_escape (text : Bytes) : unquote (escape text) = text := by
  induction text with
  | nil => rfl
  | cons c rest ih =>
      rw [escape]
      split
      · rw [unquote, ih]
      · rename_i hplain
        rw [unquote_cons (fun h => hplain (Or.inr h)), ih]

private theorem isQuotable_cases {c : UInt8} (h : isQuotable c = true) :
    isQuotedPairChar c = true ∧ (c ≠ 34 → c ≠ 92 → isQdText c = true) := by
  simp only [isQuotable, isQuotedPairChar, isQdText, isVchar, isObsText, isWs, Bool.or_eq_true,
    Bool.and_eq_true, decide_eq_true_eq, beq_iff_eq, ne_eq, UInt8.le_iff_toNat_le,
    ← UInt8.toNat_inj, UInt8.reduceToNat] at h ⊢
  omega

private theorem isQuotedText_escape {text : Bytes} (h : ∀ c ∈ text, isQuotable c = true) :
    isQuotedText (escape text) = true := by
  induction text with
  | nil => rfl
  | cons c rest ih =>
      obtain ⟨hpair, hplain⟩ := isQuotable_cases (h c (by simp))
      have hrest := ih (fun d hd => h d (by simp [hd]))
      rw [escape]
      split
      · rw [isQuotedText, hpair, hrest]
        rfl
      · rename_i hne
        rw [isQuotedText_cons (fun hc => hne (Or.inr hc)),
          hplain (fun hc => hne (Or.inl hc)) (fun hc => hne (Or.inr hc)), hrest]
        rfl

private theorem escape_eq_nil {text : Bytes} : escape text = [] ↔ text = [] := by
  constructor
  · intro h
    rw [← unquote_escape text, h]
    rfl
  · rintro rfl
    rfl

private theorem keepsBlanks_escape (suffix text : Bytes) :
    KeepsBlanks suffix (escape text) ↔ OnlyLastBlank suffix text := by
  induction text with
  | nil =>
      apply iff_of_true trivial
      intro before c after h
      cases before <;> cases h
  | cons c rest ih =>
      rw [escape, onlyLastBlank_cons]
      split
      · rename_i hescaped
        have hws : isWs c = false := by
          rcases hescaped with rfl | rfl <;> rfl
        rw [KeepsBlanks, ih, hws]
        simp
      · rename_i hplain
        rw [keepsBlanks_cons (fun h => hplain (Or.inr h)), ih, escape_eq_nil]

theorem ReadsBack.of_onlyLastBlank (front suffix : Bytes) {text : Bytes}
    (h : ∀ c ∈ text, isQuotable c = true) (hblank : OnlyLastBlank suffix text) :
    ReadsBack front text suffix := by
  have hparse := parseQuotedString_quote front suffix (isQuotedText_escape h)
    ((keepsBlanks_escape suffix text).mpr hblank)
  rw [unquote_escape] at hparse
  exact hparse

/-- With another blank in it the text is read as a shorter one, if at all. -/
theorem length_lt_of_blank (front suffix : Bytes) {text out : Bytes} {stop : Nat}
    (h : ∀ c ∈ text, isQuotable c = true) (hblank : ¬ OnlyLastBlank suffix text)
    (hstop : stop ≤ front.length + 1 + (escape text).length)
    (hparse : parseQuotedString (front ++ (quote (escape text) ++ suffix)) front.length =
      .ok (out, stop)) : out.length < text.length := by
  rw [← keepsBlanks_escape] at hblank
  have hlt := length_lt_of_parseQuotedString front suffix (isQuotedText_escape h) hblank hstop
    hparse
  rwa [unquote_escape] at hlt

/-- A text comes back from its quoted form exactly when no blank stands in it:
each one takes the two bytes behind it along, as a folded line would. -/
theorem readsBack_iff (front suffix : Bytes) {text : Bytes}
    (h : ∀ c ∈ text, isQuotable c = true) :
    ReadsBack front text suffix ↔ OnlyLastBlank suffix text := by
  refine ⟨fun hreads => ?_, ReadsBack.of_onlyLastBlank front suffix h⟩
  by_contra hblank
  exact absurd (length_lt_of_blank front suffix h hblank (le_refl _) hreads) (lt_irrefl _)

/-- A file name with a space. -/
theorem not_readsBack_space :
    ¬ ReadsBack (bytes "filename=") (bytes "a b") [] := by
  rw [ReadsBack]
  decide

theorem readsBack_escaped_quote :
    ReadsBack (bytes "filename=") (bytes "a\"b\\") (bytes ";x") := by
  apply (readsBack_iff _ _ (by decide +kernel)).mpr
  intro before c after hsplit hws
  have hnone : ∀ c ∈ bytes "a\"b\\", isWs c = false := by decide +kernel
  have hc := hnone c (by rw [hsplit]; simp)
  rw [hws] at hc
  cases hc

end FortyTwo.Webserv
