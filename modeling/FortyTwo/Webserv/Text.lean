import FortyTwo.Foundation.Search
import FortyTwo.Webserv.Status

/-!
`ServerRequestParserHelpers.cpp`: character classes and tokens of the request
parsers. A string is the list of its bytes; reading one past its end gives the
terminating zero, as `std::string` does.
-/

namespace FortyTwo.Webserv

open Foundation

abbrev Bytes := List UInt8

/-- The bytes of a literal of the source. -/
def bytes (s : String) : Bytes := s.toList.map (fun c => UInt8.ofNat c.toNat)

def byteOf (c : Char) : UInt8 := UInt8.ofNat c.toNat

/-- `s[pos]`. -/
def charAt (s : Bytes) (pos : Nat) : UInt8 := s.getD pos 0

def crlf : Bytes := [13, 10]

/-- A text that can stand in one line. -/
def NoLineEnd (text : Bytes) : Prop := 13 ∉ text ∧ 10 ∉ text

/-- `a - b` of two `size_t`. -/
def sizeSub (a b : Nat) : Nat := (a + 2 ^ 64 - b) % 2 ^ 64

/-- `isalpha` and `isdigit`. -/
def isAlpha (c : UInt8) : Bool :=
  (decide (65 ≤ c) && decide (c ≤ 90)) || (decide (97 ≤ c) && decide (c ≤ 122))

def isDigit (c : UInt8) : Bool := decide (48 ≤ c) && decide (c ≤ 57)

def isCharTspecial (c : UInt8) : Bool := (bytes "()<>@,;:\\\"/[]?=").contains c

def isCharCtl (c : UInt8) : Bool := decide (c ≤ 31) || c == 127

def isVchar (c : UInt8) : Bool := decide (33 ≤ c) && decide (c ≤ 126)

def isObsText (c : UInt8) : Bool := decide (128 ≤ c)

def isWs (c : UInt8) : Bool := c == 32 || c == 9

/-- `is_crlf(s.c_str() + pos)`. -/
def isCrlf (s : Bytes) (pos : Nat) : Bool := charAt s pos == 13 && charAt s (pos + 1) == 10

/-- `is_ows(s.c_str() + pos)`. -/
def isOws (s : Bytes) (pos : Nat) : Bool :=
  (isCrlf s pos && isWs (charAt s (pos + 2))) || isWs (charAt s pos)

def isQdText (c : UInt8) : Bool :=
  c == 33 || (decide (35 ≤ c) && decide (c ≤ 91)) || (decide (93 ≤ c) && decide (c ≤ 126)) ||
    isObsText c || isWs c

def isQuotedPairChar (c : UInt8) : Bool := isWs c || isVchar c || isObsText c

/-- The loop of `is_string_valid_token`, from index `i` on: it goes on while
`len < i`, so it never begins. -/
def validTokenLoop (len i : Nat) : Bytes → Bool
  | [] => true
  | c :: rest =>
      if c ≠ 0 ∧ len < i then
        if isCharTspecial c || isCharCtl c then false else validTokenLoop len (i + 1) rest
      else true

def isStringValidToken (c : Bytes) (len : Nat) : Bool :=
  validTokenLoop (if len = 0 then 4294967295 else len) 0 c

@[simp] theorem isStringValidToken_eq_true (c : Bytes) (len : Nat) :
    isStringValidToken c len = true := by
  cases c <;> simp [isStringValidToken, validTokenLoop]

/-- `text.find_first_not_of(chars, start)`. -/
def findFirstNotOf (chars text : Bytes) (start : Nat) : Option Nat :=
  ((text.drop start).findIdx? (fun c => !chars.contains c)).map (· + start)

theorem findFirstNotOf_eq_some_iff (chars text : Bytes) (start p : Nat) :
    findFirstNotOf chars text start = some p ↔
      start ≤ p ∧ (∃ c, text[p]? = some c ∧ c ∉ chars) ∧
        ∀ j c, start ≤ j → j < p → text[j]? = some c → c ∈ chars := by
  unfold findFirstNotOf
  rw [Option.map_eq_some_iff]
  constructor
  · rintro ⟨i, hi, rfl⟩
    rw [List.findIdx?_eq_some_iff_getElem] at hi
    obtain ⟨hlt, hnot, hbefore⟩ := hi
    rw [List.length_drop] at hlt
    refine ⟨by omega, ⟨text[i + start], List.getElem?_eq_getElem (by omega), ?_⟩, ?_⟩
    · rw [List.getElem_drop] at hnot
      simpa [Nat.add_comm] using hnot
    · intro j c hj hlt' hc
      have hat := hbefore (j - start) (by omega)
      rw [List.getElem_drop] at hat
      obtain ⟨hlen, rfl⟩ := List.getElem?_eq_some_iff.mp hc
      have hsum : start + (j - start) = j := by omega
      simpa [hsum] using hat
  · rintro ⟨hle, ⟨c, hc, hnot⟩, hbefore⟩
    obtain ⟨hlen, rfl⟩ := List.getElem?_eq_some_iff.mp hc
    refine ⟨p - start, ?_, by omega⟩
    rw [List.findIdx?_eq_some_iff_getElem]
    refine ⟨by rw [List.length_drop]; omega, ?_, ?_⟩
    · rw [List.getElem_drop]
      have hsum : start + (p - start) = p := by omega
      simpa [hsum] using hnot
    · intro j hj
      rw [List.getElem_drop]
      have hin := hbefore (start + j) text[start + j] (by omega) (by omega)
        (List.getElem?_eq_getElem (by omega))
      simpa using hin

/-- The first other character of the bytes that have arrived. -/
theorem findFirstNotOf_take_eq_some_iff (chars text : Bytes) (n start p : Nat) :
    findFirstNotOf chars (text.take n) start = some p ↔
      findFirstNotOf chars text start = some p ∧ p < n := by
  simp only [findFirstNotOf_eq_some_iff, List.getElem?_take]
  constructor
  · rintro ⟨hle, ⟨c, hc, hnot⟩, hbefore⟩
    by_cases hp : p < n
    · rw [if_pos hp] at hc
      refine ⟨⟨hle, ⟨c, hc, hnot⟩, ?_⟩, hp⟩
      intro j c hj hlt hc
      exact hbefore j c hj hlt (by rw [if_pos (by omega)]; exact hc)
    · rw [if_neg hp] at hc
      cases hc
  · rintro ⟨⟨hle, ⟨c, hc, hnot⟩, hbefore⟩, hp⟩
    refine ⟨hle, ⟨c, by rw [if_pos hp]; exact hc, hnot⟩, ?_⟩
    intro j c hj hlt hc
    rw [if_pos (by omega)] at hc
    exact hbefore j c hj hlt hc

/-- The first other character is the one in front of what `dropWhile` leaves. -/
theorem findFirstNotOf_eq (chars text : Bytes) (start : Nat) (h : start ≤ text.length) :
    findFirstNotOf chars text start =
      if (text.drop start).dropWhile (fun c => chars.contains c) = [] then none
      else some (text.length -
        ((text.drop start).dropWhile (fun c => chars.contains c)).length) := by
  have hlen : (text.drop start).length = text.length - start := List.length_drop
  unfold findFirstNotOf
  generalize text.drop start = rest at hlen
  induction rest generalizing start with
  | nil => rfl
  | cons c rest ih =>
      rw [List.length_cons] at hlen
      rw [List.findIdx?_cons, List.dropWhile_cons]
      cases hc : chars.contains c with
      | false =>
          simp only [Bool.not_false, if_true, Option.map_some, Bool.false_eq_true, if_false,
            List.length_cons, reduceCtorEq, Option.some.injEq]
          omega
      | true =>
          have hnext := ih (start + 1) (by omega) (by omega)
          simp only [Bool.not_true, Bool.false_eq_true, if_false, if_true, ← hnext, Option.map_map]
          congr 1
          funext i
          simp only [Function.comp]
          omega

/-- The token and the position after it. -/
def getTokenWithDelim (data : Bytes) (start : Nat) (delim : Bytes) (skipDelims : Bool) :
    Bytes × Nat :=
  match findFrom delim data start with
  | none => (data.drop start, (data.drop start).length + start)
  | some stop =>
      let result := (data.drop start).take (stop - start)
      if skipDelims then
        match findFirstNotOf delim data stop with
        | some next => (result, next)
        | none => (result, start + result.length)
      else (result, start + result.length)

/-- The loop of `parse_quoted_string`: the position where it stops and what it
has read. `fuel` counts the bytes from `pos` to the end. -/
def quotedLoop (s : Bytes) : Nat → Nat → Bytes → Except Status (Nat × Bytes)
  | 0, pos, buffer => .ok (pos, buffer)
  | fuel + 1, pos, buffer =>
      if pos < s.length ∧ charAt s pos ≠ 34 then
        if pos + 1 < s.length ∧ charAt s pos = 92 then
          if isQuotedPairChar (charAt s (pos + 1)) then
            quotedLoop s fuel (pos + 2) (buffer ++ [charAt s (pos + 1)])
          else .error .invalidFilenameFormat
        else if pos + 2 < s.length ∧ isOws s pos = true then
          -- three bytes are skipped whichever whitespace was found
          match findFirstNotOf [9, 32] s (pos + 3) with
          | none => .error .invalidFilenameFormat
          | some next => quotedLoop s fuel next (buffer ++ [32])
        else if isQdText (charAt s pos) then
          quotedLoop s fuel (pos + 1) (buffer ++ [charAt s pos])
        else .error .invalidFilenameFormat
      else .ok (pos, buffer)

/-- The string and the position of its closing quote. -/
def parseQuotedString (s : Bytes) (pos : Nat) : Except Status (Bytes × Nat) :=
  if charAt s pos ≠ 34 then .error .invalidFilenameFormat
  else
    match quotedLoop s (s.length + 1) (pos + 1) [] with
    | .error status => .error status
    | .ok (stop, buffer) =>
        if charAt s stop ≠ 34 then .error .invalidFilenameFormat else .ok (buffer, stop)

section Position

variable {s : Bytes} {pos : Nat} {c : UInt8} {rest : Bytes}

theorem charAt_of_drop (h : s.drop pos = c :: rest) : charAt s pos = c := by
  have hin : s[pos]? = some c := by
    rw [← List.head?_drop, h]
    rfl
  simp [charAt, List.getD_eq_getElem?_getD, hin]

theorem charAt_append (front : Bytes) (c : UInt8) (rest : Bytes) :
    charAt (front ++ c :: rest) front.length = c :=
  charAt_of_drop List.drop_left

theorem charAt_of_length_le (h : s.length ≤ pos) : charAt s pos = 0 := by
  simp [charAt, List.getD_eq_getElem?_getD, List.getElem?_eq_none h]

theorem length_of_drop (h : s.drop pos = c :: rest) : s.length = pos + (rest.length + 1) := by
  have hlen : (s.drop pos).length = rest.length + 1 := by rw [h, List.length_cons]
  rw [List.length_drop] at hlen
  omega

theorem drop_succ_of_drop (h : s.drop pos = c :: rest) : s.drop (pos + 1) = rest := by
  rw [← List.drop_drop, h, List.drop_succ_cons, List.drop_zero]

theorem drop_eq_charAt_cons (h : pos < s.length) :
    s.drop pos = charAt s pos :: s.drop (pos + 1) := by
  rw [List.drop_eq_getElem_cons h]
  simp [charAt, List.getD_eq_getElem?_getD, List.getElem?_eq_getElem h]

end Position

section Digits

/-- The number that decimal digits stand for. -/
def decimalValue (digits : Bytes) : Nat :=
  Nat.ofDigits 10 (digits.reverse.map (fun c => c.toNat - 48))

theorem decimalValue_cons (c : UInt8) (rest : Bytes) :
    decimalValue (c :: rest) = (c.toNat - 48) * 10 ^ rest.length + decimalValue rest := by
  simp only [decimalValue, List.reverse_cons, List.map_append, List.map_cons, List.map_nil,
    Nat.ofDigits_append, Nat.ofDigits_singleton, List.length_map, List.length_reverse]
  ring

theorem foldl_digits (digits : Bytes) (n : Nat) :
    digits.foldl (fun n c => n * 10 + (c.toNat - 48)) n =
      n * 10 ^ digits.length + decimalValue digits := by
  induction digits generalizing n with
  | nil => simp [decimalValue]
  | cons c rest ih =>
      rw [List.foldl_cons, ih, decimalValue_cons, List.length_cons, Nat.pow_succ]
      ring

end Digits

theorem find_crlf_of_line {line : Bytes} (hline : 13 ∉ line) (rest : Bytes) :
    find crlf (line ++ (crlf ++ rest)) = some line.length := by
  have hzero : find crlf (crlf ++ rest) = some 0 := by
    rw [find_eq_zero_iff]
    exact List.prefix_append _ _
  have hsplit : find crlf (line ++ (crlf ++ rest)) =
      (find crlf (crlf ++ rest)).map (· + line.length) :=
    find_append_of_not_mem hline [10] (crlf ++ rest)
  rw [hsplit, hzero, Option.map_some, Nat.zero_add]

private theorem find_blank_append {line : Bytes} (hline : 13 ∉ line) (rest : Bytes) :
    find (crlf ++ crlf) (line ++ rest) = (find (crlf ++ crlf) rest).map (· + line.length) :=
  find_append_of_not_mem hline [10, 13, 10] rest

/-- A line that is not followed by a blank one. -/
theorem find_blank_of_line {line rest : Bytes} (hline : 13 ∉ line) (hrest : rest.head? ≠ some 13) :
    find (crlf ++ crlf) (line ++ (crlf ++ rest)) =
      (find (crlf ++ crlf) rest).map (· + (line.length + 2)) := by
  have hnot : ¬ (crlf ++ crlf).isPrefixOf (13 :: 10 :: rest) = true := by
    cases rest with
    | nil => simp [crlf, List.isPrefixOf]
    | cons c rest =>
        have hc : (13 : UInt8) ≠ c := fun h => hrest (by simp [h])
        simp [crlf, List.isPrefixOf, hc]
  have hnot' : ¬ (crlf ++ crlf).isPrefixOf (10 :: rest) = true := by
    simp [crlf, List.isPrefixOf]
  have hcrlf : find (crlf ++ crlf) (crlf ++ rest) =
      (find (crlf ++ crlf) rest).map (· + 2) := by
    change find (crlf ++ crlf) (13 :: 10 :: rest) = _
    rw [find, if_neg hnot, find, if_neg hnot', Option.map_map]
    rfl
  rw [find_blank_append hline, hcrlf, Option.map_map]
  congr 1
  funext k
  simp only [Function.comp]
  omega

theorem find_blank {line : Bytes} (hline : 13 ∉ line) (rest : Bytes) :
    find (crlf ++ crlf) (line ++ (crlf ++ (crlf ++ rest))) = some line.length := by
  have hzero : find (crlf ++ crlf) (crlf ++ (crlf ++ rest)) = some 0 := by
    rw [find_eq_zero_iff, ← List.append_assoc]
    exact List.prefix_append _ _
  rw [find_blank_append hline, hzero, Option.map_some, Nat.zero_add]

end FortyTwo.Webserv
