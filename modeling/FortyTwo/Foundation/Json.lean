import FortyTwo.Foundation.ChunkedCoding

/-!
JSON texts that are arrays of strings. A text is its bytes, and those from 128
on stand for themselves. A string is read unit by unit: a character as it is, or
an escape sequence.
-/

namespace FortyTwo.Foundation.Json

abbrev Text := List UInt8

def isSpace (c : UInt8) : Bool := c == 32 || c == 9 || c == 10 || c == 13

def skipSpace (text : Text) : Text := text.dropWhile isSpace

/-- A character that stands for itself between quotes. -/
def isPlain (c : UInt8) : Bool := decide (32 ≤ c) && c != 34 && c != 92

section Units

/-- What a backslash and one letter stand for. -/
def simpleEscape (c : UInt8) : Option UInt8 :=
  if c = 34 ∨ c = 92 ∨ c = 47 then some c
  else if c = 98 then some 8
  else if c = 102 then some 12
  else if c = 110 then some 10
  else if c = 114 then some 13
  else if c = 116 then some 9
  else none

/-- Four hexadecimal digits. -/
def hex4 : Text → Option (Nat × Text)
  | a :: b :: c :: d :: rest => do
      let a ← Chunked.hexValue a
      let b ← Chunked.hexValue b
      let c ← Chunked.hexValue c
      let d ← Chunked.hexValue d
      some (((a * 16 + b) * 16 + c) * 16 + d, rest)
  | _ => none

def encode (n : Nat) : Text := String.utf8EncodeChar (Char.ofNat n)

/-- The second half of a surrogate pair. -/
def readLow (high : Nat) : Text → Option (Text × Text)
  | 92 :: 117 :: text =>
      match hex4 text with
      | none => none
      | some (low, rest) =>
          if 0xDC00 ≤ low ∧ low < 0xE000 then
            some (encode (0x10000 + (high - 0xD800) * 0x400 + (low - 0xDC00)), rest)
          else none
  | _ => none

/-- What follows `\u`. -/
def readUnicode (text : Text) : Option (Text × Text) :=
  match hex4 text with
  | none => none
  | some (code, rest) =>
      if code < 0xD800 ∨ 0xE000 ≤ code then some (encode code, rest)
      else if code < 0xDC00 then readLow code rest
      else none

/-- What follows a backslash. -/
def readEscape : Text → Option (Text × Text)
  | [] => none
  | c :: rest => if c = 117 then readUnicode rest else (simpleEscape c).map (fun d => ([d], rest))

/-- The first unit of a string: its value and what follows it. -/
def readUnit : Text → Option (Text × Text)
  | [] => none
  | c :: rest => if isPlain c then some ([c], rest) else if c = 92 then readEscape rest else none

end Units

/-- The string up to its closing quote, and what follows that. -/
def readString : Nat → Text → Option (Text × Text)
  | 0, _ => none
  | fuel + 1, text =>
      if text.head? = some 34 then some ([], text.tail)
      else
        match readUnit text with
        | none => none
        | some (value, rest) => (readString fuel rest).map (fun r => (value ++ r.1, r.2))

/-- A string with its quotes. -/
def readQuoted : Text → Option (Text × Text)
  | 34 :: rest => readString (rest.length + 1) rest
  | _ => none

/-- The elements of an array that is not empty, and what follows its end. -/
def readElements : Nat → Text → Option (List Text × Text)
  | 0, _ => none
  | fuel + 1, text =>
      match readQuoted (skipSpace text) with
      | none => none
      | some (value, rest) =>
          match skipSpace rest with
          | 44 :: rest => (readElements fuel rest).map (fun r => (value :: r.1, r.2))
          | 93 :: rest => some ([value], rest)
          | _ => none

def readArray : Text → Option (List Text × Text)
  | 91 :: text =>
      match skipSpace text with
      | 93 :: rest => some ([], rest)
      | rest => readElements (rest.length + 1) rest
  | _ => none

/-- The strings of the array that the text is. -/
def decodeStrings (text : Text) : Option (List Text) :=
  match readArray (skipSpace text) with
  | some (values, rest) => if skipSpace rest = [] then some values else none
  | none => none

section Reading

variable {text value rest : Text}

private theorem ne_quote_of_hexValue {c : UInt8} {n : Nat} (h : Chunked.hexValue c = some n) :
    c ≠ 34 := by
  rintro rfl
  cases h

/-- The four digits are no quotes. -/
theorem hex4_eq_some {n : Nat} (h : hex4 text = some (n, rest)) :
    ∃ digits, text = digits ++ rest ∧ digits.length = 4 ∧ digits.count 34 = 0 := by
  unfold hex4 at h
  split at h
  · rename_i a b c d rest'
    simp only [Option.bind_eq_bind, Option.bind_eq_some_iff, Option.some.injEq,
      Prod.mk.injEq] at h
    obtain ⟨a', ha, b', hb, c', hc, d', hd, _, rfl⟩ := h
    refine ⟨[a, b, c, d], rfl, rfl, List.count_eq_zero.mpr ?_⟩
    simp [(ne_quote_of_hexValue ha).symm, (ne_quote_of_hexValue hb).symm,
      (ne_quote_of_hexValue hc).symm, (ne_quote_of_hexValue hd).symm]
  · cases h

private theorem length_encode_le (n : Nat) : (encode n).length ≤ 4 := by
  rw [encode, String.length_utf8EncodeChar]
  exact Char.utf8Size_le_four _

/-- An escape sequence is longer than its value, and has no quote that is not
part of the value. -/
structure Shortens (raw value : Text) : Prop where
  length : value.length < raw.length
  quotes : raw.count 34 ≤ value.count 34

private theorem readLow_shortens {high : Nat} (h : readLow high text = some (value, rest)) :
    ∃ raw, text = raw ++ rest ∧ Shortens raw value := by
  unfold readLow at h
  split at h
  · rename_i text
    split at h
    · cases h
    · rename_i low rest' hlow
      split at h
      · simp only [Option.some.injEq, Prod.mk.injEq] at h
        obtain ⟨rfl, rfl⟩ := h
        obtain ⟨digits, rfl, hlen, hcount⟩ := hex4_eq_some hlow
        refine ⟨92 :: 117 :: digits, rfl, ?_, ?_⟩
        · have hle := length_encode_le (0x10000 + (high - 0xD800) * 0x400 + (low - 0xDC00))
          rw [List.length_cons, List.length_cons]
          omega
        · simp [hcount]
      · cases h
  · cases h

private theorem readUnicode_shortens (h : readUnicode text = some (value, rest)) :
    ∃ raw, text = raw ++ rest ∧ value.length ≤ raw.length ∧ raw.count 34 ≤ value.count 34 := by
  unfold readUnicode at h
  split at h
  · cases h
  · rename_i code more hcode
    obtain ⟨digits, rfl, hlen, hcount⟩ := hex4_eq_some hcode
    split at h
    · simp only [Option.some.injEq, Prod.mk.injEq] at h
      obtain ⟨rfl, rfl⟩ := h
      exact ⟨digits, rfl, hlen ▸ length_encode_le code, by omega⟩
    · split at h
      · obtain ⟨raw, rfl, hshort⟩ := readLow_shortens h
        have hlength := hshort.length
        have hquotes := hshort.quotes
        refine ⟨digits ++ raw, (List.append_assoc _ _ _).symm, ?_, ?_⟩
        · rw [List.length_append]
          omega
        · rw [List.count_append, hcount]
          omega
      · cases h

private theorem quote_of_simpleEscape {c d : UInt8} (h : simpleEscape c = some d) (hc : c = 34) :
    d = 34 := by
  subst hc
  exact (Option.some.inj h).symm

theorem readEscape_shortens (h : readEscape text = some (value, rest)) :
    ∃ raw, text = raw ++ rest ∧ Shortens (92 :: raw) value := by
  cases text with
  | nil => cases h
  | cons c text =>
      rw [readEscape] at h
      split at h
      · rename_i hc
        obtain ⟨raw, rfl, hlength, hquotes⟩ := readUnicode_shortens h
        refine ⟨c :: raw, rfl, ?_, ?_⟩
        · rw [List.length_cons, List.length_cons]
          omega
        · simpa [hc] using hquotes
      · obtain ⟨d, hd, heq⟩ := Option.map_eq_some_iff.mp h
        simp only [Prod.mk.injEq] at heq
        obtain ⟨rfl, rfl⟩ := heq
        refine ⟨[c], rfl, by simp, ?_⟩
        by_cases hc : c = 34
        · rw [quote_of_simpleEscape hd hc, hc]
          decide
        · simp [hc]

/-- A unit is a plain character or shorter than its text. -/
theorem readUnit_cases (h : readUnit text = some (value, rest)) :
    (∃ c, isPlain c = true ∧ text = c :: rest ∧ value = [c]) ∨
      ∃ raw, text = raw ++ rest ∧ Shortens raw value := by
  cases text with
  | nil => cases h
  | cons c text =>
      rw [readUnit] at h
      split at h
      · rename_i hc
        simp only [Option.some.injEq, Prod.mk.injEq] at h
        obtain ⟨rfl, rfl⟩ := h
        exact Or.inl ⟨c, hc, rfl, rfl⟩
      · split at h
        · rename_i hc
          obtain ⟨raw, rfl, hshort⟩ := readEscape_shortens h
          subst hc
          exact Or.inr ⟨92 :: raw, rfl, hshort⟩
        · cases h

/-- What is read is not longer than its text, and when it is not shorter either,
all of it is plain. -/
theorem readString_raw (fuel : Nat) (h : readString fuel text = some (value, rest)) :
    ∃ raw, text = raw ++ 34 :: rest ∧ value.length ≤ raw.length ∧
      raw.count 34 ≤ value.count 34 ∧
      (raw.length = value.length → ∀ c ∈ raw, isPlain c = true) := by
  induction fuel generalizing text value with
  | zero => cases h
  | succ fuel ih =>
      rw [readString] at h
      split at h
      · rename_i hhead
        simp only [Option.some.injEq, Prod.mk.injEq] at h
        obtain ⟨rfl, rfl⟩ := h
        refine ⟨[], ?_, by simp, by simp, by simp⟩
        exact (List.cons_head?_tail (by simpa using hhead)).symm
      · split at h
        · cases h
        · rename_i unit more hunit
          obtain ⟨⟨value', rest'⟩, hrest, heq⟩ := Option.map_eq_some_iff.mp h
          simp only [Prod.mk.injEq] at heq
          obtain ⟨rfl, rfl⟩ := heq
          obtain ⟨raw, rfl, hlength, hquotes, hplain⟩ := ih hrest
          rcases readUnit_cases hunit with ⟨c, hc, rfl, rfl⟩ | ⟨raw', rfl, hshort⟩
          · refine ⟨c :: raw, rfl, by simpa using hlength, ?_, ?_⟩
            · rw [List.count_cons, List.count_append, List.count_singleton]
              omega
            · intro hsame
              have hsame' : raw.length = value'.length := by simpa [Nat.add_comm] using hsame
              simpa [hc] using hplain hsame'
          · have hlength' := hshort.length
            have hquotes' := hshort.quotes
            refine ⟨raw' ++ raw, (List.append_assoc _ _ _).symm, ?_, ?_, ?_⟩
            · simp only [List.length_append]
              omega
            · simp only [List.count_append]
              omega
            · intro hsame
              simp only [List.length_append] at hsame
              omega

/-- A text that is read back from itself in quotes is plain: a quote inside of
it would be one more than what is read has. -/
theorem readQuoted_self {more : Text}
    (h : readQuoted (34 :: (text ++ 34 :: more)) = some (text, rest)) :
    (∀ c ∈ text, isPlain c = true) ∧ rest = more := by
  obtain ⟨raw, hsplit, hlength, hquotes, hplain⟩ := readString_raw _ h
  rcases List.append_eq_append_iff.mp hsplit with ⟨extra, hraw, hmore⟩ | ⟨extra, htext, hmore⟩
  · cases extra with
    | nil =>
        simp only [List.append_nil] at hraw
        simp only [List.nil_append, List.cons.injEq, true_and] at hmore
        subst hraw
        exact ⟨hplain rfl, hmore.symm⟩
    | cons c extra =>
        rw [List.cons_append, List.cons.injEq] at hmore
        rw [hraw, List.count_append, List.count_cons, ← hmore.1] at hquotes
        simp at hquotes
  · have hnil : extra = [] := by
      rw [htext, List.length_append] at hlength
      exact List.length_eq_zero_iff.mp (by omega)
    subst hnil
    simp only [List.append_nil] at htext
    simp only [List.nil_append, List.cons.injEq, true_and] at hmore
    subst htext
    exact ⟨hplain rfl, hmore⟩

private theorem readString_plain (fuel : Nat) (h : ∀ c ∈ text, isPlain c = true)
    (hfuel : text.length < fuel) (more : Text) :
    readString fuel (text ++ 34 :: more) = some (text, more) := by
  induction fuel generalizing text with
  | zero => omega
  | succ fuel ih =>
      cases text with
      | nil => rfl
      | cons c text =>
          have hc := h c (by simp)
          have hquote : c ≠ 34 := by
            rintro rfl
            cases hc
          have hrest := ih (fun d hd => h d (List.mem_cons_of_mem c hd)) (by simpa using hfuel)
          have hunit : readUnit (c :: (text ++ 34 :: more)) = some ([c], text ++ 34 :: more) := by
            rw [readUnit, if_pos hc]
          rw [readString, List.cons_append, List.head?_cons, if_neg (by simpa using hquote), hunit]
          simp only [hrest]
          rfl

/-- A plain text is read back. -/
theorem readQuoted_plain (h : ∀ c ∈ text, isPlain c = true) (more : Text) :
    readQuoted (34 :: (text ++ 34 :: more)) = some (text, more) := by
  rw [readQuoted, readString_plain _ h (by rw [List.length_append]; omega)]

end Reading

section Rendering

/-- The string in quotes, as it is. -/
def quote (text : Text) : Text := 34 :: (text ++ [34])

def renderArray (values : List Text) : Text :=
  91 :: (((values.map quote).intersperse [44]).flatten ++ [93])

/-- The quoted strings with a comma in front of each. -/
private def renderTail (values : List Text) : Text :=
  (values.map (fun value => 44 :: quote value)).flatten ++ [93]

private theorem renderArray_cons (value : Text) (values : List Text) :
    renderArray (value :: values) = 91 :: (quote value ++ renderTail values) := by
  rw [renderArray, renderTail, List.cons.injEq]
  refine ⟨rfl, ?_⟩
  induction values generalizing value with
  | nil => simp
  | cons next values ih => simpa using ih next

private theorem readElements_head {fuel : Nat} {text rest : Text} {value : Text}
    {values : List Text} (h : readElements (fuel + 1) text = some (value :: values, rest)) :
    ∃ more, readQuoted (skipSpace text) = some (value, more) := by
  rw [readElements] at h
  split at h
  · cases h
  · rename_i value' more hquoted
    split at h
    · obtain ⟨r, _, heq⟩ := Option.map_eq_some_iff.mp h
      simp only [Prod.mk.injEq, List.cons.injEq] at heq
      exact ⟨more, by rw [hquoted, heq.1.1]⟩
    · simp only [Option.some.injEq, Prod.mk.injEq, List.cons.injEq] at h
      exact ⟨more, by rw [hquoted, h.1.1]⟩
    · cases h

private theorem readElements_last {fuel : Nat} {text : Text} {value : Text}
    (h : readQuoted (skipSpace text) = some (value, renderTail [])) :
    readElements (fuel + 1) text = some ([value], []) := by
  rw [readElements, h]
  rfl

private theorem readElements_next {fuel : Nat} {text : Text} {value next : Text}
    {values : List Text}
    (h : readQuoted (skipSpace text) = some (value, renderTail (next :: values))) :
    readElements (fuel + 1) text =
      (readElements fuel (quote next ++ renderTail values)).map (fun r => (value :: r.1, r.2)) := by
  have htail : renderTail (next :: values) = 44 :: (quote next ++ renderTail values) := by
    simp [renderTail]
  rw [readElements, h, htail]
  rfl

private theorem skipSpace_quote (value : Text) (values : List Text) :
    skipSpace (quote value ++ renderTail values) = 34 :: (value ++ 34 :: renderTail values) := by
  simp [quote, skipSpace, isSpace]

private theorem readElements_plain (fuel : Nat) (value : Text) (values : List Text)
    (hfuel : values.length < fuel) (h : ∀ v ∈ value :: values, ∀ c ∈ v, isPlain c = true) :
    readElements fuel (quote value ++ renderTail values) = some (value :: values, []) := by
  induction fuel generalizing value values with
  | zero => omega
  | succ fuel ih =>
      rw [List.forall_mem_cons] at h
      have hread := readQuoted_plain h.1 (renderTail values)
      rw [← skipSpace_quote] at hread
      cases values with
      | nil => exact readElements_last hread
      | cons next values =>
          rw [readElements_next hread, ih next values (by simpa using hfuel) h.2]
          rfl

private theorem plain_of_readElements (fuel : Nat) (value : Text) (values : List Text)
    {rest : Text}
    (h : readElements fuel (quote value ++ renderTail values) = some (value :: values, rest)) :
    ∀ v ∈ value :: values, ∀ c ∈ v, isPlain c = true := by
  induction fuel generalizing value values with
  | zero => cases h
  | succ fuel ih =>
      obtain ⟨more, hmore⟩ := readElements_head h
      have hread := hmore
      rw [skipSpace_quote] at hread
      obtain ⟨hplain, rfl⟩ := readQuoted_self hread
      rw [List.forall_mem_cons]
      refine ⟨hplain, ?_⟩
      cases values with
      | nil => simp
      | cons next values =>
          rw [readElements_next hmore] at h
          obtain ⟨⟨values', rest'⟩, hrest, heq⟩ := Option.map_eq_some_iff.mp h
          simp only [Prod.mk.injEq, List.cons.injEq, true_and] at heq
          obtain ⟨rfl, rfl⟩ := heq
          exact ih next values hrest

private theorem length_le_renderTail (values : List Text) :
    values.length ≤ (renderTail values).length := by
  induction values with
  | nil => exact Nat.zero_le _
  | cons value values ih =>
      have htail : renderTail (value :: values) = 44 :: (quote value ++ renderTail values) := by
        simp [renderTail]
      rw [htail, List.length_cons, List.length_cons, List.length_append]
      omega

/-- An array of strings in quotes is read back exactly when all of them are
plain. -/
theorem decodeStrings_renderArray_iff (values : List Text) :
    decodeStrings (renderArray values) = some values ↔
      ∀ value ∈ values, ∀ c ∈ value, isPlain c = true := by
  cases values with
  | nil => simp [renderArray, decodeStrings, skipSpace, isSpace, readArray]
  | cons value values =>
      have hlen := length_le_renderTail values
      have harray : readArray (skipSpace (renderArray (value :: values))) =
          readElements ((quote value ++ renderTail values).length + 1)
            (quote value ++ renderTail values) := by
        rw [renderArray_cons]
        rfl
      rw [decodeStrings, harray]
      constructor
      · intro h
        split at h
        · rename_i values' rest helements
          split at h
          · obtain rfl := Option.some.inj h
            exact plain_of_readElements _ value values helements
          · cases h
        · cases h
      · intro h
        rw [readElements_plain _ value values (by rw [List.length_append]; omega) h]
        rfl

end Rendering

end FortyTwo.Foundation.Json
