import FortyTwo.Foundation.ChunkedCoding
import FortyTwo.Foundation.Utf8
import FortyTwo.Webserv.RequestTarget

/-!
Percent-decoding of request targets. The decoder groups an encoded byte with as
many further ones as it announces, looks at the second of two digits only and
never at the values of the bytes.
-/

namespace FortyTwo.Webserv

open Foundation

def isHexDigit (c : UInt8) : Bool := (bytes "0123456789abcdefABCDEF").contains c

/-- A `%` and the two characters behind it, as `is_pos_hex` accepts them. -/
structure Octet where
  high : UInt8
  low : UInt8
  low_hex : isHexDigit low = true

namespace Octet

def text (o : Octet) : Bytes := [byteOf '%', o.high, o.low]

def byte (o : Octet) : UInt8 := UInt8.ofNat (charToHex o.high * 16 + charToHex o.low)

end Octet

/-- What a round of the decoding loop reads: a character that stands for itself,
or an encoded byte with those that it announces. -/
inductive Piece (plain : UInt8 → Bool) where
  | char (c : UInt8) (h : plain c = true)
  | group (lead : Octet) (rest : List Octet)
      (h : rest.length = continuationByteSize lead.byte)

namespace Piece

variable {plain : UInt8 → Bool}

def text : Piece plain → Bytes
  | .char c _ => [c]
  | .group lead rest _ => lead.text ++ rest.flatMap Octet.text

def bytes : Piece plain → Bytes
  | .char c _ => [c]
  | .group lead rest _ => lead.byte :: rest.map Octet.byte

end Piece

section Decoder

variable {s : Bytes} {pos : Nat}

private theorem isPosHex_of_drop {o : Octet} {rest : Bytes} (h : s.drop pos = o.text ++ rest) :
    isPosHex s pos = true ∧ hexByte s pos = o.byte ∧ s.drop (pos + 3) = rest := by
  have htext : s.drop pos = byteOf '%' :: o.high :: o.low :: rest := h
  have hfirst := charAt_of_drop htext
  have hlen := length_of_drop htext
  have hdrop := drop_succ_of_drop htext
  have hhigh := charAt_of_drop hdrop
  have hdrop' := drop_succ_of_drop hdrop
  have hlow := charAt_of_drop hdrop'
  refine ⟨?_, ?_, drop_succ_of_drop hdrop'⟩
  · have hhex := o.low_hex
    rw [isHexDigit] at hhex
    simp only [List.length_cons] at hlen
    have hfits : pos + 3 ≤ s.length := by omega
    rw [isPosHex, hfirst, hlow, hhex]
    simp [hfits]
  · rw [hexByte, hhigh, hlow, Octet.byte]

private theorem exists_octet (h : isPosHex s pos = true) :
    ∃ o : Octet, s.drop pos = o.text ++ s.drop (pos + 3) := by
  simp only [isPosHex, Bool.and_eq_true, decide_eq_true_eq, beq_iff_eq] at h
  obtain ⟨⟨hlen, hpercent⟩, hhex⟩ := h
  refine ⟨⟨charAt s (pos + 1), charAt s (pos + 2), hhex⟩, ?_⟩
  rw [drop_eq_charAt_cons (by omega : pos < s.length),
    drop_eq_charAt_cons (by omega : pos + 1 < s.length),
    drop_eq_charAt_cons (by omega : pos + 2 < s.length), hpercent]
  rfl

private theorem continuationBytes_of_drop (octets : List Octet) : ∀ (pos : Nat) (rest : Bytes),
    s.drop (pos + 3) = octets.flatMap Octet.text ++ rest →
    continuationBytes s octets.length pos = some (octets.map Octet.byte) := by
  induction octets with
  | nil =>
      intro pos rest _
      rfl
  | cons o octets ih =>
      intro pos rest h
      rw [List.flatMap_cons, List.append_assoc] at h
      obtain ⟨hhex, hbyte, hdrop⟩ := isPosHex_of_drop h
      rw [List.length_cons, continuationBytes, if_pos hhex, ih (pos + 3) rest hdrop, hbyte]
      rfl

private theorem exists_octets (n : Nat) : ∀ (pos : Nat) (data : Bytes),
    continuationBytes s n pos = some data →
    ∃ octets : List Octet, octets.length = n ∧ data = octets.map Octet.byte ∧
      s.drop (pos + 3) = octets.flatMap Octet.text ++ s.drop (pos + 3 * (n + 1)) := by
  induction n with
  | zero =>
      intro pos data h
      cases h
      exact ⟨[], rfl, rfl, rfl⟩
  | succ n ih =>
      intro pos data h
      rw [continuationBytes] at h
      split at h
      · rename_i hhex
        obtain ⟨o, ho⟩ := exists_octet hhex
        obtain ⟨more, hmore, rfl⟩ := Option.map_eq_some_iff.mp h
        obtain ⟨octets, hlength, rfl, hdrop⟩ := ih (pos + 3) more hmore
        have hend : pos + 3 + 3 * (n + 1) = pos + 3 * (n + 1 + 1) := by omega
        rw [hend] at hdrop
        refine ⟨o :: octets, by rw [List.length_cons, hlength], ?_, ?_⟩
        · rw [List.map_cons, (isPosHex_of_drop ho).2.1]
        · rw [ho, hdrop, List.flatMap_cons, List.append_assoc]
      · cases h

private theorem utf8CharDecoder_of_drop {lead : Octet} {octets : List Octet} {rest : Bytes}
    (hlength : octets.length = continuationByteSize lead.byte)
    (h : s.drop pos = lead.text ++ octets.flatMap Octet.text ++ rest) :
    utf8CharDecoder s pos =
      some (lead.byte :: octets.map Octet.byte, 3 * (octets.length + 1)) := by
  rw [List.append_assoc] at h
  obtain ⟨_, hbyte, hdrop⟩ := isPosHex_of_drop h
  have hcontinuation := continuationBytes_of_drop octets pos rest hdrop
  simp only [utf8CharDecoder, hbyte, ← hlength, hcontinuation, Option.map_some]

private theorem exists_group {o : Octet} (ho : s.drop pos = o.text ++ s.drop (pos + 3))
    {data : Bytes} {consumed : Nat} (h : utf8CharDecoder s pos = some (data, consumed)) :
    ∃ octets : List Octet, octets.length = continuationByteSize o.byte ∧
      data = o.byte :: octets.map Octet.byte ∧ 0 < consumed ∧
      s.drop pos = o.text ++ octets.flatMap Octet.text ++ s.drop (pos + consumed) := by
  obtain ⟨_, hbyte, _⟩ := isPosHex_of_drop ho
  simp only [utf8CharDecoder, hbyte] at h
  obtain ⟨rest, hrest, hpair⟩ := Option.map_eq_some_iff.mp h
  obtain ⟨octets, hlength, rfl, hdrop⟩ := exists_octets _ pos rest hrest
  rw [Prod.mk.injEq] at hpair
  obtain ⟨rfl, rfl⟩ := hpair
  refine ⟨octets, hlength, rfl, by omega, ?_⟩
  rw [ho, hdrop, List.append_assoc]

end Decoder

theorem length_octets (octets : List Octet) :
    (octets.flatMap Octet.text).length = 3 * octets.length := by
  induction octets with
  | nil => rfl
  | cons o octets ih =>
      rw [List.flatMap_cons, List.length_append, ih, List.length_cons]
      simp only [Octet.text, List.length_cons, List.length_nil]
      omega

theorem Piece.length_le {plain : UInt8 → Bool} (pieces : List (Piece plain)) :
    pieces.length ≤ (pieces.flatMap Piece.text).length := by
  induction pieces with
  | nil => exact Nat.le_refl 0
  | cons piece pieces ih =>
      have hpos : 1 ≤ piece.text.length := by
        cases piece with
        | char c h => exact Nat.le_refl 1
        | group lead rest h =>
            rw [Piece.text, List.length_append]
            exact Nat.le_add_right_of_le (by decide : 1 ≤ 3)
      rw [List.flatMap_cons, List.length_append, List.length_cons]
      omega

/-- The characters that a loop passes over as they are. -/
def passes (stop : UInt8) (isPlain : UInt8 → Bool) (c : UInt8) : Bool :=
  (isPlain c || isPchar c) && c != stop

section Loop

variable {s : Bytes} {stop : UInt8} {isPlain : UInt8 → Bool}

private theorem decodeLoop_succ (fuel pos : Nat) (out : Bytes) :
    decodeLoop s stop isPlain (fuel + 1) pos out =
      if pos < s.length ∧ charAt s pos ≠ stop then
        if isPlain (charAt s pos) || isPchar (charAt s pos) then
          decodeLoop s stop isPlain fuel (pos + 1) (out ++ [charAt s pos])
        else if isPosHex s pos then
          match utf8CharDecoder s pos with
          | none => none
          | some (decoded, consumed) =>
              decodeLoop s stop isPlain fuel (pos + consumed) (out ++ decoded)
        else some (out, pos)
      else some (out, pos) := (rfl)

/-- A round of the loop reads a piece. -/
private theorem decodeLoop_round (hpercent : stop ≠ byteOf '%')
    (hplain : isPlain (byteOf '%') = false) (piece : Piece (passes stop isPlain)) {pos : Nat}
    {rest : Bytes} (hdrop : s.drop pos = piece.text ++ rest) (fuel : Nat) (out : Bytes) :
    decodeLoop s stop isPlain (fuel + 1) pos out =
      decodeLoop s stop isPlain fuel (pos + piece.text.length) (out ++ piece.bytes) := by
  cases piece with
  | char c hc =>
      have hchar := hc
      simp only [passes, Bool.and_eq_true, bne_iff_ne] at hchar
      have hlen := length_of_drop hdrop
      rw [decodeLoop_succ, charAt_of_drop hdrop, if_pos ⟨by omega, hchar.2⟩, if_pos hchar.1]
      rfl
  | group lead octets hlength =>
      have hgroup : s.drop pos = lead.text ++ octets.flatMap Octet.text ++ rest := hdrop
      have hcount : (@Piece.group (passes stop isPlain) lead octets hlength).text.length =
          3 * (octets.length + 1) := by
        rw [Piece.text, List.length_append, length_octets, Nat.mul_succ, Nat.add_comm]
        rfl
      have htext : s.drop pos = byteOf '%' :: lead.high :: lead.low ::
          (octets.flatMap Octet.text ++ rest) := by
        rw [hgroup, List.append_assoc]
        rfl
      have hlen := length_of_drop htext
      have hhex : isPosHex s pos = true := by
        rw [List.append_assoc] at hgroup
        exact (isPosHex_of_drop hgroup).1
      have hpchar : (isPlain (byteOf '%') || isPchar (byteOf '%')) = false := by
        rw [hplain]
        decide
      rw [decodeLoop_succ, charAt_of_drop htext, if_pos ⟨by omega, Ne.symm hpercent⟩, hpchar,
        if_neg Bool.false_ne_true, if_pos hhex, utf8CharDecoder_of_drop hlength hgroup, hcount]
      rfl

private theorem drop_piece {plain : UInt8 → Bool} {piece : Piece plain} {pos : Nat} {rest : Bytes}
    (h : s.drop pos = piece.text ++ rest) : s.drop (pos + piece.text.length) = rest := by
  rw [← List.drop_drop, h, List.drop_left]

/-- The loop reads pieces up to the end of the text or to its stop character. -/
theorem decodeLoop_pieces (hpercent : stop ≠ byteOf '%') (hplain : isPlain (byteOf '%') = false)
    (pieces : List (Piece (passes stop isPlain))) :
    ∀ (fuel pos : Nat) (out rest : Bytes), s.drop pos = pieces.flatMap Piece.text ++ rest →
      (rest = [] ∨ rest.head? = some stop) → pieces.length ≤ fuel →
      decodeLoop s stop isPlain fuel pos out =
        some (out ++ pieces.flatMap Piece.bytes, pos + (pieces.flatMap Piece.text).length) := by
  induction pieces with
  | nil =>
      intro fuel pos out rest hdrop hrest _
      have hend : ¬ (pos < s.length ∧ charAt s pos ≠ stop) := by
        rintro ⟨hlt, hne⟩
        rw [List.flatMap_nil, List.nil_append, drop_eq_charAt_cons hlt] at hdrop
        rw [← hdrop] at hrest
        rcases hrest with hrest | hrest
        · cases hrest
        · exact hne (Option.some.inj hrest)
      cases fuel with
      | zero =>
          change some (out, pos) = _
          simp
      | succ fuel =>
          rw [decodeLoop_succ, if_neg hend]
          simp
  | cons piece pieces ih =>
      intro fuel pos out rest hdrop hrest hfuel
      rw [List.length_cons] at hfuel
      obtain ⟨fuel, rfl⟩ : ∃ n, fuel = n + 1 := ⟨fuel - 1, by omega⟩
      rw [List.flatMap_cons, List.append_assoc] at hdrop
      rw [decodeLoop_round hpercent hplain piece hdrop,
        ih fuel _ _ rest (drop_piece hdrop) hrest (by omega), List.flatMap_cons, List.flatMap_cons,
        List.length_append, List.append_assoc, Nat.add_assoc]

/-- What the loop has read is made of pieces, and where it stops none begins
with a character that it passes over. -/
theorem exists_pieces (fuel : Nat) : ∀ (pos : Nat) (out out' : Bytes) (pos' : Nat),
    decodeLoop s stop isPlain fuel pos out = some (out', pos') → s.length - pos ≤ fuel →
    ∃ pieces : List (Piece (passes stop isPlain)),
      s.drop pos = pieces.flatMap Piece.text ++ s.drop pos' ∧
      out' = out ++ pieces.flatMap Piece.bytes ∧
      (pos' < s.length → charAt s pos' = stop ∨ isPchar (charAt s pos') = false) := by
  induction fuel with
  | zero =>
      intro pos out out' pos' h hfuel
      cases h
      exact ⟨[], rfl, by simp, fun hlt => by omega⟩
  | succ fuel ih =>
      intro pos out out' pos' h hfuel
      rw [decodeLoop_succ] at h
      split at h
      · rename_i hin
        split at h
        · rename_i hpasses
          obtain ⟨pieces, hdrop, rfl, hstop⟩ := ih (pos + 1) _ out' pos' h (by omega)
          have hchar : passes stop isPlain (charAt s pos) = true := by
            simp only [passes, hpasses, Bool.true_and, bne_iff_ne]
            exact hin.2
          refine ⟨.char (charAt s pos) hchar :: pieces, ?_, by simp [Piece.bytes], hstop⟩
          rw [drop_eq_charAt_cons hin.1, hdrop]
          rfl
        · rename_i hblocked
          split at h
          · rename_i hhex
            split at h
            · cases h
            · rename_i decoded consumed hdecoder
              obtain ⟨o, ho⟩ := exists_octet hhex
              obtain ⟨octets, hlength, rfl, hpos, hgroup⟩ := exists_group ho hdecoder
              obtain ⟨pieces, hdrop, rfl, hstop⟩ := ih (pos + consumed) _ out' pos' h (by omega)
              refine ⟨.group o octets hlength :: pieces, ?_, by simp [Piece.bytes], hstop⟩
              rw [hgroup, hdrop, List.flatMap_cons, Piece.text]
              simp only [List.append_assoc]
          · cases h
            simp only [Bool.or_eq_true, not_or, Bool.not_eq_true] at hblocked
            exact ⟨[], rfl, by simp, fun _ => Or.inr hblocked.2⟩
      · rename_i hout
        cases h
        refine ⟨[], rfl, by simp, fun hlt => Or.inl ?_⟩
        by_contra hne
        exact hout ⟨hlt, hne⟩

end Loop

open Chunked (hexValue)

/-- The characters of a path that stand for themselves. -/
def isPathChar (c : UInt8) : Bool := passes (byteOf '?') (· == byteOf '/') c

/-- The bytes that a path stands for, when each `%` has two hexadecimal digits. -/
def percentDecode : Bytes → Option Bytes
  | [] => some []
  | 37 :: high :: low :: rest =>
      match hexValue high, hexValue low with
      | some x, some y => (percentDecode rest).map (UInt8.ofNat (x * 16 + y) :: ·)
      | _, _ => none
  | c :: rest => if isPathChar c then (percentDecode rest).map (c :: ·) else none

private theorem hexValue_eq (c : UInt8) :
    hexValue c = if isHexDigit c then some (charToHex c) else none := by
  have hall : ∀ n : Fin 256, hexValue (UInt8.ofNat n) =
      if isHexDigit (UInt8.ofNat n) then some (charToHex (UInt8.ofNat n)) else none := by
    decide +kernel
  have hc := hall ⟨c.toNat, c.toNat_lt⟩
  simpa using hc

theorem isUnreserved_ascii {c : UInt8} (h : isUnreserved c = true) : c < 128 := by
  have hmarks : ∀ mark ∈ bytes "-._~", mark < 128 :=
    List.forall_iff_forall_mem.mp (by decide)
  simp only [isUnreserved, isDigit, isAlpha, Bool.or_eq_true, Bool.and_eq_true, decide_eq_true_eq,
    List.contains_iff_mem] at h
  rcases h with (⟨_, hdigit⟩ | ⟨_, hupper⟩ | ⟨_, hlower⟩) | hmark
  · exact UInt8.lt_of_le_of_lt hdigit (by decide)
  · exact UInt8.lt_of_le_of_lt hupper (by decide)
  · exact UInt8.lt_of_le_of_lt hlower (by decide)
  · exact hmarks c hmark

theorem isPchar_ascii {c : UInt8} (h : isPchar c = true) : c < 128 := by
  have hdelims : ∀ delim ∈ bytes "!$&'()*+,;=", delim < 128 :=
    List.forall_iff_forall_mem.mp (by decide)
  simp only [isPchar, isSubDelim, Bool.or_eq_true, List.contains_iff_mem, beq_iff_eq] at h
  rcases h with ((hunreserved | hdelim) | rfl) | rfl
  · exact isUnreserved_ascii hunreserved
  · exact hdelims c hdelim
  · decide
  · decide

private theorem isPathChar_ascii {c : UInt8} (h : isPathChar c = true) : c < 128 ∧ c ≠ 37 := by
  constructor
  · simp only [isPathChar, passes, Bool.and_eq_true, Bool.or_eq_true, beq_iff_eq] at h
    rcases h.1 with rfl | hpchar
    · decide
    · exact isPchar_ascii hpchar
  · rintro rfl
    exact absurd h (by decide)

private theorem percentDecode_char {c : UInt8} (h : isPathChar c = true) (rest : Bytes) :
    percentDecode (c :: rest) = (percentDecode rest).map (c :: ·) := by
  rw [percentDecode, if_pos h]
  exact fun _ _ _ hc _ => (isPathChar_ascii h).2 hc

private theorem percentDecode_octet (o : Octet) (rest : Bytes) :
    percentDecode (o.text ++ rest) =
      if isHexDigit o.high then (percentDecode rest).map (o.byte :: ·) else none := by
  have htext : o.text ++ rest = 37 :: o.high :: o.low :: rest := rfl
  rw [htext, percentDecode, hexValue_eq, hexValue_eq, if_pos o.low_hex]
  cases isHexDigit o.high <;> rfl

private theorem percentDecode_octets (octets : List Octet) (rest : Bytes) :
    percentDecode (octets.flatMap Octet.text ++ rest) =
      if octets.all (isHexDigit ·.high) then
        (percentDecode rest).map (octets.map Octet.byte ++ ·)
      else none := by
  induction octets with
  | nil => simp
  | cons o octets ih =>
      rw [List.flatMap_cons, List.append_assoc, percentDecode_octet, ih, List.all_cons]
      cases isHexDigit o.high with
      | false => rfl
      | true =>
          cases octets.all (isHexDigit ·.high) with
          | false => rfl
          | true =>
              simp only [if_true, Bool.true_and, Option.map_map]
              rfl

/-- The first byte of a decoded text is a character of it or an encoded one. -/
private theorem percentDecode_cons {text decoded : Bytes} {b : UInt8}
    (h : percentDecode text = some (b :: decoded)) :
    (isPathChar b = true ∧ ∃ rest, text = b :: rest ∧ percentDecode rest = some decoded) ∨
      ∃ (o : Octet) (rest : Bytes), text = o.text ++ rest ∧ o.byte = b ∧
        percentDecode rest = some decoded := by
  revert h
  fun_cases percentDecode text with
  | case1 => rintro ⟨⟩
  | case2 high low rest x y hy hx =>
      intro h
      obtain ⟨decoded', hrest, heq⟩ := Option.map_eq_some_iff.mp h
      rw [List.cons.injEq] at heq
      obtain ⟨rfl, rfl⟩ := heq
      rw [hexValue_eq] at hx hy
      split at hx
      · split at hy
        · rename_i hlow
          cases hx
          cases hy
          exact Or.inr ⟨⟨high, low, hlow⟩, rest, rfl, rfl, hrest⟩
        · cases hy
      · cases hx
  | case3 => rintro ⟨⟩
  | case4 c rest hshape hchar =>
      intro h
      obtain ⟨decoded', hrest, heq⟩ := Option.map_eq_some_iff.mp h
      rw [List.cons.injEq] at heq
      obtain ⟨rfl, rfl⟩ := heq
      exact Or.inl ⟨hchar, rest, rfl, hrest⟩
  | case5 => rintro ⟨⟩

private theorem percentDecode_eq_nil {text : Bytes} (h : percentDecode text = some []) :
    text = [] := by
  revert h
  fun_cases percentDecode text <;> simp

/-- The text of bytes that are not those of characters is a text of octets. -/
private theorem exists_octets_of_percentDecode (followed : Bytes) :
    ∀ (text more : Bytes), percentDecode text = some (followed ++ more) →
      (∀ b ∈ followed, 128 ≤ b) →
      ∃ (octets : List Octet) (rest : Bytes), text = octets.flatMap Octet.text ++ rest ∧
        octets.length = followed.length ∧ percentDecode rest = some more := by
  induction followed with
  | nil =>
      intro text more h _
      exact ⟨[], text, rfl, rfl, h⟩
  | cons b followed ih =>
      intro text more h hhigh
      rw [List.forall_mem_cons] at hhigh
      rcases percentDecode_cons h with ⟨hchar, _⟩ | ⟨o, rest, rfl, _, hrest⟩
      · exact absurd (isPathChar_ascii hchar).1 (UInt8.not_lt.mpr hhigh.1)
      · obtain ⟨octets, rest', rfl, hlength, hrest'⟩ := ih rest more hrest hhigh.2
        refine ⟨o :: octets, rest', ?_, by rw [List.length_cons, hlength, List.length_cons], hrest'⟩
        rw [List.flatMap_cons, List.append_assoc]

namespace Piece

variable {plain : UInt8 → Bool}

/-- A piece that stands for one character. -/
def WellFormed : Piece plain → Prop
  | .char _ _ => True
  | .group lead rest _ =>
      (∀ o ∈ lead :: rest, isHexDigit o.high = true) ∧
        Utf8.IsChar (lead.byte :: rest.map Octet.byte)

end Piece

/-- A piece of a path. -/
abbrev PathPiece : Type := Piece (passes (byteOf '?') (· == byteOf '/'))

namespace PathPiece

/-- What a path stands for that begins with a piece. -/
private theorem percentDecode_piece (piece : PathPiece) (rest decoded : Bytes) :
    percentDecode (piece.text ++ rest) = some decoded ∧ Utf8.Valid decoded ↔
      piece.WellFormed ∧ ∃ more, percentDecode rest = some more ∧ Utf8.Valid more ∧
        decoded = piece.bytes ++ more := by
  cases piece with
  | char c hc =>
      have hdecode : percentDecode (c :: rest) = (percentDecode rest).map (c :: ·) :=
        percentDecode_char hc rest
      have hascii := Utf8.followers_ascii (isPathChar_ascii hc).1
      change percentDecode (c :: rest) = some decoded ∧ _ ↔
        True ∧ ∃ more, _ ∧ _ ∧ decoded = c :: more
      rw [hdecode, Option.map_eq_some_iff, true_and]
      constructor
      · rintro ⟨⟨more, hmore, rfl⟩, hvalid⟩
        have hsplit := (@Utf8.valid_cons_iff c [] more hascii.symm).mp hvalid
        exact ⟨more, hmore, hsplit.2, rfl⟩
      · rintro ⟨more, hmore, hvalid, rfl⟩
        exact ⟨⟨more, hmore, rfl⟩, (Utf8.isChar_ascii (isPathChar_ascii hc).1).append hvalid⟩
  | group lead octets hlength =>
      have hcount : (octets.map Octet.byte).length = Utf8.followers lead.byte := by
        rw [List.length_map, hlength]
        rfl
      have hdecode : percentDecode (lead.text ++ octets.flatMap Octet.text ++ rest) =
          if (lead :: octets).all (isHexDigit ·.high) then
            (percentDecode rest).map ((lead :: octets).map Octet.byte ++ ·)
          else none := percentDecode_octets (lead :: octets) rest
      change percentDecode (lead.text ++ octets.flatMap Octet.text ++ rest) = some decoded ∧ _ ↔
        ((∀ o ∈ lead :: octets, isHexDigit o.high = true) ∧
            Utf8.IsChar (lead.byte :: octets.map Octet.byte)) ∧
          ∃ more, _ ∧ _ ∧ decoded = lead.byte :: octets.map Octet.byte ++ more
      rw [hdecode, ← List.all_eq_true]
      constructor
      · rintro ⟨hsome, hvalid⟩
        split at hsome
        · rename_i hhex
          obtain ⟨more, hmore, rfl⟩ := Option.map_eq_some_iff.mp hsome
          have hsplit := (Utf8.valid_cons_iff hcount).mp hvalid
          exact ⟨⟨hhex, hsplit.1⟩, more, hmore, hsplit.2, rfl⟩
        · cases hsome
      · rintro ⟨⟨hhex, hchar⟩, more, hmore, hvalid, rfl⟩
        rw [if_pos hhex, hmore]
        exact ⟨rfl, hchar.append hvalid⟩

/-- Pieces are what their text stands for when each is well formed. -/
theorem percentDecode_pieces (pieces : List PathPiece) : ∀ decoded : Bytes,
    percentDecode (pieces.flatMap Piece.text) = some decoded ∧ Utf8.Valid decoded ↔
      (∀ piece ∈ pieces, piece.WellFormed) ∧ decoded = pieces.flatMap Piece.bytes := by
  induction pieces with
  | nil =>
      intro decoded
      constructor
      · rintro ⟨hsome, _⟩
        cases hsome
        exact ⟨by simp, rfl⟩
      · rintro ⟨_, rfl⟩
        exact ⟨rfl, Utf8.valid_nil⟩
  | cons piece pieces ih =>
      intro decoded
      rw [List.flatMap_cons, percentDecode_piece, List.forall_mem_cons, List.flatMap_cons]
      constructor
      · rintro ⟨hpiece, more, hmore, hvalid, rfl⟩
        obtain ⟨hpieces, rfl⟩ := (ih more).mp ⟨hmore, hvalid⟩
        exact ⟨⟨hpiece, hpieces⟩, rfl⟩
      · rintro ⟨⟨hpiece, hpieces⟩, rfl⟩
        obtain ⟨hmore, hvalid⟩ := (ih _).mpr ⟨hpieces, rfl⟩
        exact ⟨hpiece, _, hmore, hvalid, rfl⟩

/-- A path that stands for a text is made of pieces. -/
theorem exists_of_percentDecode (n : Nat) : ∀ (text decoded : Bytes), text.length ≤ n →
    percentDecode text = some decoded → Utf8.Valid decoded →
    ∃ pieces : List PathPiece, text = pieces.flatMap Piece.text := by
  induction n with
  | zero =>
      intro text decoded hlength _ _
      exact ⟨[], List.length_eq_zero_iff.mp (Nat.le_zero.mp hlength)⟩
  | succ n ih =>
      intro text decoded hlength h hvalid
      cases decoded with
      | nil => exact ⟨[], percentDecode_eq_nil h⟩
      | cons b decoded =>
          rcases percentDecode_cons h with ⟨hchar, rest, rfl, hrest⟩ | ⟨o, rest, rfl, rfl, hrest⟩
          · have hascii := Utf8.followers_ascii (isPathChar_ascii hchar).1
            have hsplit := (@Utf8.valid_cons_iff b [] decoded hascii.symm).mp hvalid
            obtain ⟨pieces, rfl⟩ := ih rest decoded (Nat.le_of_succ_le_succ hlength) hrest hsplit.2
            exact ⟨.char b hchar :: pieces, rfl⟩
          · obtain ⟨followed, more, rfl, hfollowed, hhigh, hmore⟩ := hvalid.exists_followed
            obtain ⟨octets, rest', rfl, hoctets, hrest'⟩ :=
              exists_octets_of_percentDecode followed rest more hrest hhigh
            have hshort : rest'.length ≤ n := by
              simp only [Octet.text, List.length_append, List.length_cons, List.length_nil]
                at hlength
              omega
            obtain ⟨pieces, rfl⟩ := ih rest' more hshort hrest' hmore
            refine ⟨.group o octets (hoctets.trans hfollowed) :: pieces, ?_⟩
            rw [List.flatMap_cons, Piece.text, List.append_assoc]

end PathPiece

private theorem charAt_zero_eq_iff {target : Bytes} {c : UInt8} (hc : c ≠ 0) :
    charAt target 0 = c ↔ target.head? = some c := by
  cases target with
  | nil => exact ⟨fun h => absurd h.symm hc, fun h => by cases h⟩
  | cons d rest => exact Option.some_inj.symm

/-- A path that is made of pieces is accepted. -/
theorem parseAbsolutePath_pieces (pieces : List PathPiece) (request : Request)
    (hhead : (pieces.flatMap Piece.text).head? = some (byteOf '/')) :
    parseAbsolutePath (pieces.flatMap Piece.text) request =
      (.ok, setUriPath (pieces.flatMap Piece.bytes) request) := by
  have hloop := @decodeLoop_pieces (pieces.flatMap Piece.text) (byteOf '?') (· == byteOf '/')
    (by decide) (by decide) pieces _ 0 [] [] (List.append_nil _).symm (Or.inl rfl)
    (Piece.length_le pieces)
  have hend : charAt (pieces.flatMap Piece.text) (pieces.flatMap Piece.text).length = 0 :=
    charAt_of_length_le (Nat.le_refl _)
  rw [parseAbsolutePath, if_neg (not_not.mpr ((charAt_zero_eq_iff (by decide)).mpr hhead)), hloop]
  simp only [Nat.zero_add, List.nil_append, hend]
  rw [if_neg (fun h => Nat.lt_irrefl _ h.1), if_neg (by decide)]

/-- What is accepted is made of pieces. -/
theorem exists_of_parseAbsolutePath {target : Bytes} {request : Request}
    (hquery : byteOf '?' ∉ target)
    (h : (parseAbsolutePath target request).1.isError = false) :
    target.head? = some (byteOf '/') ∧
      ∃ pieces : List PathPiece, target = pieces.flatMap Piece.text := by
  rw [parseAbsolutePath] at h
  split at h
  · cases h
  · rename_i hhead
    refine ⟨(charAt_zero_eq_iff (by decide)).mp (not_not.mp hhead), ?_⟩
    split at h
    · cases h
    · rename_i path pos hloop
      obtain ⟨pieces, hdrop, _, hstop⟩ := exists_pieces _ 0 [] path pos hloop (Nat.le_refl _)
      refine ⟨pieces, ?_⟩
      have hend : target.length ≤ pos := by
        by_contra hlt
        have hlt' := Nat.not_le.mp hlt
        have hmem : charAt target pos ∈ target.drop pos := by
          rw [drop_eq_charAt_cons hlt']
          exact List.mem_cons_self
        have hne : charAt target pos ≠ byteOf '?' := fun heq => hquery (heq ▸ List.mem_of_mem_drop hmem)
        rw [if_pos ⟨hlt', hne, (hstop hlt').resolve_left hne⟩] at h
        cases h
      rw [List.drop_zero, List.drop_eq_nil_of_le hend, List.append_nil] at hdrop
      exact hdrop

/-- The target is a path and stands for a text. -/
def IsPath (target decoded : Bytes) : Prop :=
  target.head? = some (byteOf '/') ∧ percentDecode target = some decoded ∧ Utf8.Valid decoded

/-- The paths are accepted, and what is stored is what they stand for. -/
def DecodesExactly (target : Bytes) (request : Request) : Prop :=
  ((parseAbsolutePath target request).1.isError = false ↔ ∃ decoded, IsPath target decoded) ∧
    ((parseAbsolutePath target request).1.isError = false →
      percentDecode target = some (parseAbsolutePath target request).2.uriPath)

/-- Where the target is cut after each encoded byte and those that it announces,
every piece has its digits and stands for one character. -/
def PiecesWellFormed (target : Bytes) : Prop :=
  target.head? = some (byteOf '/') →
    ∀ pieces : List PathPiece, target = pieces.flatMap Piece.text →
      ∀ piece ∈ pieces, piece.WellFormed

theorem IsPath.piecesWellFormed {target decoded : Bytes} (h : IsPath target decoded) :
    PiecesWellFormed target := by
  rintro _ pieces rfl
  exact ((PathPiece.percentDecode_pieces pieces decoded).mp h.2).1

/-- Percent-decoding is exact on the targets whose pieces are well formed. -/
theorem decodesExactly_iff {target : Bytes} (hquery : byteOf '?' ∉ target) (request : Request) :
    DecodesExactly target request ↔ PiecesWellFormed target := by
  constructor
  · rintro ⟨haccepts, _⟩ hhead pieces rfl
    have haccepted := parseAbsolutePath_pieces pieces request hhead
    obtain ⟨decoded, hpath⟩ := haccepts.mp (by rw [haccepted]; rfl)
    exact hpath.piecesWellFormed hhead pieces rfl
  · intro hpieces
    have hdecoded (h : (parseAbsolutePath target request).1.isError = false) :
        target.head? = some (byteOf '/') ∧
          percentDecode target = some (parseAbsolutePath target request).2.uriPath ∧
          Utf8.Valid (parseAbsolutePath target request).2.uriPath := by
      obtain ⟨hhead, pieces, rfl⟩ := exists_of_parseAbsolutePath hquery h
      rw [parseAbsolutePath_pieces pieces request hhead]
      exact ⟨hhead, (PathPiece.percentDecode_pieces pieces _).mpr
        ⟨hpieces hhead pieces rfl, rfl⟩⟩
    refine ⟨⟨fun h => ⟨_, hdecoded h⟩, ?_⟩, fun h => (hdecoded h).2.1⟩
    rintro ⟨decoded, hhead, hdecode, hvalid⟩
    obtain ⟨pieces, rfl⟩ :=
      PathPiece.exists_of_percentDecode _ target decoded (Nat.le_refl _) hdecode hvalid
    rw [parseAbsolutePath_pieces pieces request hhead]
    rfl

theorem decodesExactly_space : DecodesExactly (bytes "/a%20") {} := by
  have hpath : IsPath (bytes "/a%20") (bytes "/a ") := ⟨rfl, by decide, ['/', 'a', ' '], rfl⟩
  exact (decodesExactly_iff (by decide) {}).mpr hpath.piecesWellFormed

/-- The first of two digits is not looked at. -/
theorem not_decodesExactly_letter : ¬ DecodesExactly (bytes "/%g5") {} := by
  rintro ⟨haccepts, _⟩
  have haccepted : (parseAbsolutePath (bytes "/%g5") {}).1.isError = false := by decide
  obtain ⟨decoded, _, hdecode, _⟩ := haccepts.mp haccepted
  have hnone : percentDecode (bytes "/%g5") = none := by decide
  rw [hnone] at hdecode
  cases hdecode

end FortyTwo.Webserv
