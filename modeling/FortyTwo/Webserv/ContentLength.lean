import Mathlib.Data.List.TakeWhile
import Mathlib.Data.Nat.Digits.Defs
import FortyTwo.Webserv.CGIResponseParser

/-!
`parse_content_length` (`RequestHeaderParser.cpp`) against the syntax that its
comment gives, `OWS 1*DIGIT OWS`: which values it takes for a length.
-/

namespace FortyTwo.Webserv

namespace RequestHeaderParser

/-- The loop of `parse_uint<uint64_t>`. -/
def parseUintLoop (val : Nat) : Bytes → Option Nat
  | [] => some val
  | c :: rest =>
      if c < byteOf '0' ∨ c > byteOf '9' then none
      else
        let digit := c.toNat - (byteOf '0').toNat
        if val > (2 ^ 64 - 1 - digit) / 10 then none else parseUintLoop (val * 10 + digit) rest

def parseUint (s : Bytes) : Option Nat := if s = [] then none else parseUintLoop 0 s

/-- The `do` loop over the characters that are left. It looks at one before it
compares the position, so at the end it finds the terminating zero. -/
def onlyDigits : Bytes → Bool
  | [] => isDigit 0
  | [c] => isDigit c
  | c :: rest => isDigit c && onlyDigits rest

def parseContentLength (fieldValue : Bytes) (request : Request) : Status × Request :=
  if fieldValue = [] then (.badRequest, request)
  else
    let start := skipWs fieldValue 0
    if onlyDigits (fieldValue.drop start) = false then (.badRequest, request)
    else
      -- `substr(start, pos)` with the position behind the last character
      match parseUint ((fieldValue.drop start).take fieldValue.length) with
      | none => (.badRequest, request)
      | some contentLength => (.ok, { request with contentLength := contentLength })

end RequestHeaderParser

open RequestHeaderParser

/-- `OWS 1*DIGIT OWS`. -/
structure LengthField where
  before : Bytes
  digits : Bytes
  after : Bytes
  before_ws : ∀ c ∈ before, isWs c = true
  digits_ne : digits ≠ []
  digits_digit : ∀ c ∈ digits, isDigit c = true
  after_ws : ∀ c ∈ after, isWs c = true

namespace LengthField

def text (f : LengthField) : Bytes := f.before ++ (f.digits ++ f.after)

def value (f : LengthField) : Nat := decimalValue f.digits

end LengthField

/-- A value is taken exactly when it has the syntax of a length that fits into
64 bits, and then for that length. -/
def ReadsLength (fieldValue : Bytes) (request : Request) : Prop :=
  ((parseContentLength fieldValue request).1.isError = false ↔
    ∃ f : LengthField, f.text = fieldValue ∧ f.value < 2 ^ 64) ∧
  ∀ f : LengthField, f.text = fieldValue →
    (parseContentLength fieldValue request).1.isError = false →
    (parseContentLength fieldValue request).2 = { request with contentLength := f.value }

private theorem isDigit_iff {c : UInt8} : isDigit c = true ↔ 48 ≤ c ∧ c ≤ 57 := by
  simp [isDigit]

private theorem digit_le {c : UInt8} (h : isDigit c = true) : c.toNat - 48 ≤ 9 := by
  have hle := (isDigit_iff.mp h).2
  rw [UInt8.le_iff_toNat_le] at hle
  have h57 : (57 : UInt8).toNat = 57 := rfl
  omega

/-- The division guards the multiplication exactly: a number that does not fit
is given up at the digit that makes it too large. -/
private theorem parseUintLoop_digits (digits : Bytes) (h : ∀ c ∈ digits, isDigit c = true) :
    ∀ val < 2 ^ 64, parseUintLoop val digits =
      if val * 10 ^ digits.length + decimalValue digits < 2 ^ 64 then
        some (val * 10 ^ digits.length + decimalValue digits)
      else none := by
  induction digits with
  | nil =>
      intro val hval
      have hvalue : val * 10 ^ ([] : Bytes).length + decimalValue [] = val := by
        simp [decimalValue]
      rw [parseUintLoop, hvalue, if_pos hval]
  | cons c rest ih =>
      intro val hval
      have hc := isDigit_iff.mp (h c (by simp))
      have hdigit := digit_le (h c (by simp))
      have hrange : ¬ (c < byteOf '0' ∨ c > byteOf '9') := by
        rintro (hlt | hgt)
        · exact absurd hc.1 (UInt8.not_le.mpr hlt)
        · exact absurd hc.2 (UInt8.not_le.mpr hgt)
      have htotal : val * 10 ^ (c :: rest).length + decimalValue (c :: rest) =
          (val * 10 + (c.toNat - 48)) * 10 ^ rest.length + decimalValue rest := by
        rw [decimalValue_cons, List.length_cons, Nat.pow_succ]
        ring
      have hpow : 0 < 10 ^ rest.length := Nat.pow_pos (by decide)
      rw [parseUintLoop, if_neg hrange, htotal]
      have hzero : (byteOf '0').toNat = 48 := rfl
      simp only [hzero]
      by_cases hfits : val > (2 ^ 64 - 1 - (c.toNat - 48)) / 10
      · have hlarge : 2 ^ 64 ≤ (val * 10 + (c.toNat - 48)) * 10 ^ rest.length :=
          le_trans (by omega) (Nat.le_mul_of_pos_right _ hpow)
        rw [if_pos hfits, if_neg (by omega)]
      · rw [if_neg hfits, ih (fun d hd => h d (by simp [hd])) _ (by omega)]

private theorem parseUint_digits {digits : Bytes} (hne : digits ≠ [])
    (h : ∀ c ∈ digits, isDigit c = true) :
    parseUint digits = if decimalValue digits < 2 ^ 64 then some (decimalValue digits) else none := by
  rw [parseUint, if_neg hne, parseUintLoop_digits digits h 0 (by decide), Nat.zero_mul,
    Nat.zero_add]

private theorem onlyDigits_iff (text : Bytes) :
    onlyDigits text = true ↔ text ≠ [] ∧ ∀ c ∈ text, isDigit c = true := by
  induction text with
  | nil => simp [onlyDigits, isDigit]
  | cons c rest ih =>
      cases rest with
      | nil => simp [onlyDigits]
      | cons d rest => simpa [onlyDigits] using fun _ => ih

private theorem digit_not_ws {c : UInt8} (h : isDigit c = true) : isWs c = false := by
  have hc := isDigit_iff.mp h
  cases hws : isWs c with
  | false => rfl
  | true =>
      simp only [isWs, Bool.or_eq_true, beq_iff_eq] at hws
      rcases hws with rfl | rfl
      · exact absurd hc.1 (by decide)
      · exact absurd hc.1 (by decide)

/-- What is left behind the leading blanks. -/
private theorem drop_skipWs (fieldValue : Bytes) :
    fieldValue.drop (skipWs fieldValue 0) = fieldValue.dropWhile isWs := by
  have hsplit : fieldValue.takeWhile isWs ++ fieldValue.dropWhile isWs = fieldValue :=
    List.takeWhile_append_dropWhile
  rw [skipWs, Nat.zero_add, List.drop_zero]
  calc fieldValue.drop (fieldValue.takeWhile isWs).length
      = (fieldValue.takeWhile isWs ++ fieldValue.dropWhile isWs).drop
          (fieldValue.takeWhile isWs).length := by rw [hsplit]
    _ = fieldValue.dropWhile isWs := List.drop_left

private theorem LengthField.behind_blanks (f : LengthField) :
    f.text.dropWhile isWs = f.digits ++ f.after := by
  rw [LengthField.text, List.dropWhile_append_of_pos f.before_ws]
  cases hdigits : f.digits with
  | nil => exact absurd hdigits f.digits_ne
  | cons c rest =>
      have hc := digit_not_ws (f.digits_digit c (by simp [hdigits]))
      rw [List.cons_append, List.dropWhile_cons, if_neg (by simp [hc])]

/-- Behind the leading blanks a value must be digits to its end. -/
private theorem parseContentLength_eq (fieldValue : Bytes) (request : Request) :
    parseContentLength fieldValue request =
      if onlyDigits (fieldValue.dropWhile isWs) = true ∧
          decimalValue (fieldValue.dropWhile isWs) < 2 ^ 64 then
        (.ok, { request with contentLength := decimalValue (fieldValue.dropWhile isWs) })
      else (.badRequest, request) := by
  have hlength := (List.dropWhile_suffix isWs : fieldValue.dropWhile isWs <:+ fieldValue).length_le
  simp only [parseContentLength, drop_skipWs, List.take_of_length_le hlength]
  by_cases honly : onlyDigits (fieldValue.dropWhile isWs) = true
  · obtain ⟨hne, hdigits⟩ := (onlyDigits_iff _).mp honly
    have hvalue : fieldValue ≠ [] := by
      rintro rfl
      exact hne rfl
    rw [if_neg hvalue, if_neg (by simp [honly]), parseUint_digits hne hdigits]
    by_cases hfits : decimalValue (fieldValue.dropWhile isWs) < 2 ^ 64
    · rw [if_pos hfits, if_pos ⟨honly, hfits⟩]
    · rw [if_neg hfits, if_neg (fun h => hfits h.2)]
  · have hrefused : ¬ (onlyDigits (fieldValue.dropWhile isWs) = true ∧
        decimalValue (fieldValue.dropWhile isWs) < 2 ^ 64) := fun h => honly h.1
    rw [if_neg hrefused]
    split
    · rfl
    · rw [if_pos (by simpa using honly)]

private theorem parseContentLength_ok_iff (fieldValue : Bytes) (request : Request) :
    (parseContentLength fieldValue request).1.isError = false ↔
      onlyDigits (fieldValue.dropWhile isWs) = true ∧
        decimalValue (fieldValue.dropWhile isWs) < 2 ^ 64 := by
  rw [parseContentLength_eq]
  by_cases h : onlyDigits (fieldValue.dropWhile isWs) = true ∧
      decimalValue (fieldValue.dropWhile isWs) < 2 ^ 64
  · rw [if_pos h]
    exact iff_of_true Status.ok_isError h
  · rw [if_neg h]
    exact iff_of_false (by simp) h

/-- A length with nothing behind its digits. -/
private theorem LengthField.onlyDigits_iff (f : LengthField) :
    onlyDigits (f.text.dropWhile isWs) = true ↔ f.after = [] := by
  rw [f.behind_blanks, Webserv.onlyDigits_iff]
  constructor
  · rintro ⟨_, hall⟩
    cases hafter : f.after with
    | nil => rfl
    | cons c rest =>
        have hdigit := hall c (by simp [hafter])
        have hws := f.after_ws c (by simp [hafter])
        rw [digit_not_ws hdigit] at hws
        cases hws
  · intro hafter
    rw [hafter, List.append_nil]
    exact ⟨f.digits_ne, f.digits_digit⟩

/-- Digits behind leading blanks are a length. -/
private theorem exists_lengthField {fieldValue : Bytes}
    (h : onlyDigits (fieldValue.dropWhile isWs) = true) :
    ∃ f : LengthField, f.text = fieldValue ∧ f.value = decimalValue (fieldValue.dropWhile isWs) := by
  obtain ⟨hne, hdigits⟩ := (onlyDigits_iff _).mp h
  refine ⟨⟨fieldValue.takeWhile isWs, fieldValue.dropWhile isWs, [],
    fun c hc => List.mem_takeWhile_imp hc, hne, hdigits, by simp⟩, ?_, rfl⟩
  rw [LengthField.text, List.append_nil]
  exact List.takeWhile_append_dropWhile

/-- The blanks that may follow the number are not skipped: a length that fits
is refused exactly when some do. -/
theorem readsLength_iff (fieldValue : Bytes) (request : Request) :
    ReadsLength fieldValue request ↔
      ¬ ∃ f : LengthField, f.text = fieldValue ∧ f.value < 2 ^ 64 ∧ f.after ≠ [] := by
  constructor
  · rintro ⟨haccepted, _⟩ ⟨f, rfl, hfits, hafter⟩
    have hok := haccepted.mpr ⟨f, rfl, hfits⟩
    rw [parseContentLength_ok_iff, f.onlyDigits_iff] at hok
    exact hafter hok.1
  · intro hnone
    refine ⟨⟨?_, ?_⟩, ?_⟩
    · intro hok
      obtain ⟨honly, hfits⟩ := (parseContentLength_ok_iff fieldValue request).mp hok
      obtain ⟨f, htext, hvalue⟩ := exists_lengthField honly
      exact ⟨f, htext, hvalue ▸ hfits⟩
    · rintro ⟨f, rfl, hfits⟩
      have hafter : f.after = [] := by
        by_contra hne
        exact hnone ⟨f, rfl, hfits, hne⟩
      have hbehind := f.behind_blanks
      rw [hafter, List.append_nil] at hbehind
      rw [parseContentLength_ok_iff, f.onlyDigits_iff, hbehind]
      exact ⟨hafter, hfits⟩
    · rintro f rfl hok
      have haccepted := (parseContentLength_ok_iff f.text request).mp hok
      have hafter := f.onlyDigits_iff.mp haccepted.1
      rw [parseContentLength_eq, if_pos haccepted, f.behind_blanks, hafter, List.append_nil]
      rfl

theorem not_readsLength_trailing_blank : ¬ ReadsLength (bytes "1 ") {} := by
  intro hreads
  have hlength : ∃ f : LengthField, f.text = bytes "1 " ∧ f.value < 2 ^ 64 :=
    ⟨⟨[], bytes "1", bytes " ", by simp, by decide, by decide +kernel, by decide +kernel⟩, by decide,
      by decide⟩
  exact absurd (hreads.1.mpr hlength) (by decide)

end FortyTwo.Webserv
