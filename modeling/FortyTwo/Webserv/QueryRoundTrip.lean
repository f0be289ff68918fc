import FortyTwo.Webserv.PercentDecoding
import FortyTwo.Webserv.ServerResponse

/-!
Query parameters, from a target that encodes them to `get_query_param`. A query
is decoded before it is cut at its first `=`.
-/

namespace FortyTwo.Webserv

open Foundation ServerResponse

theorem cutAt_eq_some_iff {c : UInt8} {text : Bytes} : ∀ {front behind : Bytes},
    cutAt c text = some (front, behind) ↔ c ∉ front ∧ text = front ++ c :: behind := by
  induction text with
  | nil =>
      intro front behind
      simp [cutAt]
  | cons d text ih =>
      intro front behind
      have hcons : cutAt c (d :: text) =
          if d = c then some ([], text) else (cutAt c text).map (fun p => (d :: p.1, p.2)) := by
        rw [cutAt, List.idxOf?_cons]
        by_cases hd : d = c
        · rw [if_pos (beq_iff_eq.mpr hd), if_pos hd]
          rfl
        · rw [if_neg (by simpa using hd), if_neg hd, cutAt, Option.map_map, Option.map_map]
          rfl
      rw [hcons]
      by_cases hd : d = c
      · subst hd
        rw [if_pos rfl, Option.some_inj, Prod.mk.injEq]
        constructor
        · rintro ⟨rfl, rfl⟩
          exact ⟨by simp, rfl⟩
        · rintro ⟨hnot, htext⟩
          cases front with
          | nil => exact ⟨rfl, (List.cons.inj htext).2⟩
          | cons e front => exact absurd (by rw [(List.cons.inj htext).1]; simp) hnot
      · rw [if_neg hd, Option.map_eq_some_iff]
        constructor
        · rintro ⟨p, hp, hpair⟩
          rw [Prod.mk.injEq] at hpair
          obtain ⟨rfl, rfl⟩ := hpair
          obtain ⟨hnot, rfl⟩ := ih.mp hp
          exact ⟨by simpa [Ne.symm hd] using hnot, rfl⟩
        · rintro ⟨hnot, htext⟩
          cases front with
          | nil => exact absurd (List.cons.inj htext).1 hd
          | cons e front =>
              obtain ⟨rfl, rfl⟩ := List.cons.inj htext
              exact ⟨(front, behind), ih.mpr ⟨fun h => hnot (by simp [h]), rfl⟩, rfl⟩

/-- The queries before the one that is found have other keys. -/
private theorem getQueryParam_of_first {key value query : Bytes} {before after : List Bytes}
    {request : Request} (hqueries : request.pathQueries = before ++ query :: after)
    (hbefore : ∀ q ∈ before, ∀ other, cutAt (byteOf '=') q ≠ some (key, other))
    (hquery : cutAt (byteOf '=') query = some (key, value)) :
    getQueryParam key request = value := by
  have hfind : ((before ++ query :: after).filterMap (cutAt (byteOf '='))).find?
      (fun pair => pair.1 == key) = some (key, value) := by
    rw [List.find?_eq_some_iff_append]
    refine ⟨by simp, before.filterMap (cutAt (byteOf '=')), after.filterMap (cutAt (byteOf '=')),
      ?_, ?_⟩
    · rw [List.filterMap_append, List.filterMap_cons_some hquery]
    · rintro ⟨k, other⟩ hpair
      obtain ⟨q, hq, hcut⟩ := List.mem_filterMap.mp hpair
      have hne : k ≠ key := by
        rintro rfl
        exact hbefore q hq other hcut
      simpa using hne
  rw [getQueryParam, hqueries, hfind]
  rfl

private theorem getQueryParam_of_none {key : Bytes} {request : Request}
    (h : ∀ q ∈ request.pathQueries, ∀ other, cutAt (byteOf '=') q ≠ some (key, other)) :
    getQueryParam key request = [] := by
  have hfind : (request.pathQueries.filterMap (cutAt (byteOf '='))).find?
      (fun pair => pair.1 == key) = none := by
    rw [List.find?_eq_none]
    rintro ⟨k, other⟩ hpair
    obtain ⟨q, hq, hcut⟩ := List.mem_filterMap.mp hpair
    have hne : k ≠ key := by
      rintro rfl
      exact h q hq other hcut
    simpa using hne
  rw [getQueryParam, hfind]
  rfl

section Encoding

def hexDigit (upper : Bool) (n : Nat) : UInt8 :=
  (bytes (if upper then "0123456789ABCDEF" else "0123456789abcdef")).getD n 0

/-- The digits may be of either case. -/
def percentEncode (upper : Bool) (c : UInt8) : Bytes :=
  if isUnreserved c then [c]
  else [byteOf '%', hexDigit upper (c.toNat / 16), hexDigit upper (c.toNat % 16)]

def encodeText (upper : Bool) (text : Bytes) : Bytes := text.flatMap (percentEncode upper)

/-- A piece of a query. -/
abbrev QueryPiece : Type :=
  Piece (passes (byteOf '&') (fun c => c == byteOf '/' || c == byteOf '?'))

/-- A digit is read back. -/
private theorem charToHex_hexDigit (upper : Bool) {digit : Nat} (h : digit < 16) :
    charToHex (hexDigit upper digit) = digit ∧ isHexDigit (hexDigit upper digit) = true := by
  have hall : ∀ (upper : Bool) (digit : Fin 16), charToHex (hexDigit upper digit) = digit ∧
      isHexDigit (hexDigit upper digit) = true := by
    decide +kernel
  exact hall upper ⟨digit, h⟩

private theorem exists_encoded (upper : Bool) (c : UInt8) :
    ∃ o : Octet, o.byte = c ∧
      o.text = [byteOf '%', hexDigit upper (c.toNat / 16), hexDigit upper (c.toNat % 16)] := by
  have hhalf : c.toNat / 16 < 16 := Nat.div_lt_of_lt_mul c.toNat_lt
  obtain ⟨hhigh, _⟩ := charToHex_hexDigit upper hhalf
  obtain ⟨hlow, hhex⟩ := charToHex_hexDigit upper (Nat.mod_lt c.toNat (by decide : 16 > 0))
  refine ⟨⟨hexDigit upper (c.toNat / 16), hexDigit upper (c.toNat % 16), hhex⟩, ?_, rfl⟩
  rw [Octet.byte, hhigh, hlow, Nat.div_add_mod', UInt8.ofNat_toNat]

private theorem unreserved_passes {c : UInt8} (h : isUnreserved c = true) :
    passes (byteOf '&') (fun c => c == byteOf '/' || c == byteOf '?') c = true ∧ c < 128 := by
  have hne : c ≠ byteOf '&' := by
    rintro rfl
    exact absurd h (by decide)
  refine ⟨?_, isUnreserved_ascii h⟩
  simp only [passes, isPchar, h, Bool.true_or, Bool.or_true, Bool.true_and, bne_iff_ne]
  exact hne

private theorem exists_encoded_octets (upper : Bool) (data : Bytes) (h : ∀ b ∈ data, 128 ≤ b) :
    ∃ octets : List Octet, octets.map Octet.byte = data ∧
      octets.flatMap Octet.text = encodeText upper data := by
  induction data with
  | nil => exact ⟨[], rfl, rfl⟩
  | cons b data ih =>
      rw [List.forall_mem_cons] at h
      obtain ⟨octets, hbytes, htext⟩ := ih h.2
      obtain ⟨o, hbyte, hoctet⟩ := exists_encoded upper b
      have hreserved : ¬ isUnreserved b = true :=
        fun hb => absurd (unreserved_passes hb).2 (UInt8.not_lt.mpr h.1)
      refine ⟨o :: octets, by rw [List.map_cons, hbytes, hbyte], ?_⟩
      rw [encodeText, List.flatMap_cons, List.flatMap_cons, percentEncode, if_neg hreserved,
        hoctet, htext, encodeText]

/-- A character is encoded as a piece. -/
private theorem exists_piece (upper : Bool) (c : Char) :
    ∃ piece : QueryPiece, piece.bytes = String.utf8EncodeChar c ∧
      piece.text = encodeText upper (String.utf8EncodeChar c) := by
  obtain ⟨lead, rest, hchar, hlength, hhigh⟩ := Utf8.exists_lead c
  rw [hchar, encodeText, List.flatMap_cons, percentEncode]
  by_cases hlead : isUnreserved lead = true
  · obtain ⟨hpasses, hascii⟩ := unreserved_passes hlead
    rw [Utf8.followers_ascii hascii] at hlength
    cases List.length_eq_zero_iff.mp hlength
    refine ⟨.char lead hpasses, rfl, ?_⟩
    rw [if_pos hlead]
    rfl
  · obtain ⟨o, hbyte, hoctet⟩ := exists_encoded upper lead
    obtain ⟨octets, hbytes, htext⟩ := exists_encoded_octets upper rest hhigh
    have hcount : octets.length = continuationByteSize o.byte := by
      rw [hbyte, ← List.length_map Octet.byte, hbytes, hlength]
      rfl
    refine ⟨.group o octets hcount, ?_, ?_⟩
    · rw [Piece.bytes, hbyte, hbytes]
    · rw [Piece.text, if_neg hlead, hoctet, htext, encodeText]

/-- A text is encoded as pieces. -/
private theorem exists_pieces_of_valid (upper : Bool) {data : Bytes} (h : Utf8.Valid data) :
    ∃ pieces : List QueryPiece, pieces.flatMap Piece.bytes = data ∧
      pieces.flatMap Piece.text = encodeText upper data := by
  obtain ⟨text, rfl⟩ := h
  induction text with
  | nil => exact ⟨[], rfl, rfl⟩
  | cons c text ih =>
      obtain ⟨pieces, hbytes, htext⟩ := ih
      obtain ⟨piece, hbyte, hpiece⟩ := exists_piece upper c
      refine ⟨piece :: pieces, ?_, ?_⟩
      · rw [List.flatMap_cons, hbytes, hbyte, Utf8.encode, Utf8.encode, List.flatMap_cons]
      · rw [List.flatMap_cons, htext, hpiece, Utf8.encode, Utf8.encode, List.flatMap_cons,
          encodeText, encodeText, encodeText, List.flatMap_append]

end Encoding

structure QueryPair where
  key : Bytes
  value : Bytes
  key_ne : key ≠ []
  key_valid : Utf8.Valid key
  value_valid : Utf8.Valid value

namespace QueryPair

/-- The pair as it is stored. -/
def plain (p : QueryPair) : Bytes := p.key ++ byteOf '=' :: p.value

def encoded (upper : Bool) (p : QueryPair) : Bytes :=
  encodeText upper p.key ++ byteOf '=' :: encodeText upper p.value

private theorem exists_pieces (upper : Bool) (p : QueryPair) :
    ∃ pieces : List QueryPiece, pieces.flatMap Piece.bytes = p.plain ∧
      pieces.flatMap Piece.text = p.encoded upper := by
  obtain ⟨key, hkey, hkeyText⟩ := exists_pieces_of_valid upper p.key_valid
  obtain ⟨value, hvalue, hvalueText⟩ := exists_pieces_of_valid upper p.value_valid
  refine ⟨key ++ .char (byteOf '=') (by decide) :: value, ?_, ?_⟩
  · rw [List.flatMap_append, List.flatMap_cons, hkey, hvalue]
    rfl
  · rw [List.flatMap_append, List.flatMap_cons, hkeyText, hvalueText]
    rfl

end QueryPair

/-- The query part of a target. -/
def queryText (upper : Bool) (pairs : List QueryPair) : Bytes :=
  [byteOf '&'].intercalate (pairs.map (QueryPair.encoded upper))

/-- A round of the loop reads a pair. -/
private theorem queriesLoop_round {uriPath rest : Bytes} {pos : Nat} {upper : Bool}
    {p : QueryPair} (hdrop : uriPath.drop pos = p.encoded upper ++ rest)
    (hrest : rest = [] ∨ rest.head? = some (byteOf '&')) (fuel : Nat) (queries : List Bytes) :
    queriesLoop uriPath (fuel + 1) pos queries =
      queriesLoop uriPath fuel (pos + (p.encoded upper).length + (rest.take 1).length)
        (queries ++ [p.plain]) := by
  obtain ⟨pieces, hplain, hencoded⟩ := p.exists_pieces upper
  have hlength : (p.encoded upper).length + rest.length ≤ uriPath.length := by
    rw [← List.length_append, ← hdrop, List.length_drop]
    exact Nat.sub_le _ _
  have hpos : pos < uriPath.length := by
    have hdropped := congrArg List.length hdrop
    rw [List.length_drop, QueryPair.encoded, List.length_append, List.length_append,
      List.length_cons] at hdropped
    omega
  have hcount : pieces.length ≤ uriPath.length := by
    have hpieces := Piece.length_le pieces
    rw [hencoded] at hpieces
    omega
  have hdropped : uriPath.drop pos = pieces.flatMap Piece.text ++ rest := by rw [hdrop, hencoded]
  have hloop := decodeLoop_pieces (by decide) (by decide) pieces uriPath.length pos [] rest
    hdropped hrest hcount
  rw [hplain, hencoded, List.nil_append] at hloop
  have hne : p.plain ≠ [] := by simp [QueryPair.plain]
  have hbehind : uriPath.drop (pos + (p.encoded upper).length) = rest := by
    rw [← List.drop_drop, hdrop, List.drop_left]
  rw [queriesLoop, if_pos hpos, hloop]
  simp only [if_neg hne]
  congr 1
  cases rest with
  | nil =>
      have hend : charAt uriPath (pos + (p.encoded upper).length) = 0 :=
        charAt_of_length_le (List.drop_eq_nil_iff.mp hbehind)
      rw [hend, if_neg (by decide)]
      rfl
  | cons c rest =>
      rcases hrest with hnil | hhead
      · cases hnil
      · cases hhead
        rw [charAt_of_drop hbehind, if_pos rfl]
        rfl

/-- The loop gives back the pairs. -/
private theorem queriesLoop_pairs {uriPath : Bytes} {upper : Bool} (pairs : List QueryPair) :
    ∀ (fuel pos : Nat) (queries : List Bytes), uriPath.drop pos = queryText upper pairs →
      pairs.length < fuel →
      queriesLoop uriPath fuel pos queries = .ok (queries ++ pairs.map QueryPair.plain) := by
  induction pairs with
  | nil =>
      intro fuel pos queries hdrop hfuel
      obtain ⟨fuel, rfl⟩ : ∃ n, fuel = n + 1 := ⟨fuel - 1, by omega⟩
      have hend : uriPath.length ≤ pos := List.drop_eq_nil_iff.mp hdrop
      rw [queriesLoop, if_neg (by omega), List.map_nil, List.append_nil]
  | cons p pairs ih =>
      intro fuel pos queries hdrop hfuel
      rw [List.length_cons] at hfuel
      obtain ⟨fuel, rfl⟩ : ∃ n, fuel = n + 1 := ⟨fuel - 1, by omega⟩
      have hround : ∃ rest, uriPath.drop pos = p.encoded upper ++ rest ∧
          (rest = [] ∨ rest.head? = some (byteOf '&')) ∧
          rest.drop 1 = queryText upper pairs := by
        cases pairs with
        | nil =>
            rw [queryText, List.map_singleton, List.intercalate_singleton] at hdrop
            exact ⟨[], by rw [hdrop, List.append_nil], Or.inl rfl, rfl⟩
        | cons q pairs =>
            rw [queryText, List.map_cons, List.map_cons, List.intercalate_cons_cons,
              List.append_assoc] at hdrop
            exact ⟨_, hdrop, Or.inr rfl, rfl⟩
      obtain ⟨rest, hrest, hhead, hqueries⟩ := hround
      rw [queriesLoop_round hrest hhead, ih fuel _ _ ?_ (by omega), List.map_cons,
        List.append_assoc]
      · rfl
      · rw [← hqueries, ← List.drop_drop, ← List.drop_drop, hrest, List.drop_left]
        cases rest with
        | nil => rfl
        | cons c rest => rfl

private theorem length_le_queryText (upper : Bool) (pairs : List QueryPair) :
    pairs.length ≤ (queryText upper pairs).length := by
  have hone (p : QueryPair) : 1 ≤ (p.encoded upper).length := by
    rw [QueryPair.encoded, List.length_append, List.length_cons]
    omega
  induction pairs with
  | nil => exact Nat.zero_le _
  | cons p pairs ih =>
      cases pairs with
      | nil =>
          rw [queryText, List.map_singleton, List.intercalate_singleton]
          exact hone p
      | cons q pairs =>
          have hp := hone p
          rw [queryText, List.map_cons] at ih
          rw [queryText, List.map_cons, List.map_cons, List.intercalate_cons_cons,
            List.length_append, List.length_append, List.length_cons]
          omega

/-- A query behind a path that is accepted is stored pair by pair. -/
theorem parseAbsolutePath_query {path : Bytes} {request : Request}
    (hquery : byteOf '?' ∉ path)
    (haccepted : (parseAbsolutePath path request).1.isError = false) (upper : Bool)
    (pairs : List QueryPair) :
    ∃ uriPath, parseAbsolutePath (path ++ byteOf '?' :: queryText upper pairs) request =
      (.ok, setUriPath uriPath { request with pathQueries := pairs.map QueryPair.plain }) := by
  obtain ⟨hhead, pieces, rfl⟩ := exists_of_parseAbsolutePath hquery haccepted
  refine ⟨pieces.flatMap Piece.bytes, ?_⟩
  have hslash : charAt (pieces.flatMap Piece.text ++ byteOf '?' :: queryText upper pairs) 0 =
      byteOf '/' := by
    obtain ⟨rest, htext⟩ := List.head?_eq_some_iff.mp hhead
    rw [htext]
    rfl
  have hcount : pieces.length ≤
      (pieces.flatMap Piece.text ++ byteOf '?' :: queryText upper pairs).length := by
    rw [List.length_append]
    exact Nat.le_add_right_of_le (Piece.length_le pieces)
  have hloop := @decodeLoop_pieces (pieces.flatMap Piece.text ++ byteOf '?' :: queryText upper pairs)
    (byteOf '?') (· == byteOf '/') (by decide) (by decide) pieces _ 0 []
    (byteOf '?' :: queryText upper pairs) rfl (Or.inr rfl) hcount
  have hmark := charAt_append (pieces.flatMap Piece.text) (byteOf '?') (queryText upper pairs)
  have hqueries := @queriesLoop_pairs
    (pieces.flatMap Piece.text ++ byteOf '?' :: queryText upper pairs) upper pairs
    ((pieces.flatMap Piece.text ++ byteOf '?' :: queryText upper pairs).length + 1)
    ((pieces.flatMap Piece.text).length + 1) []
    (by rw [← List.drop_drop, List.drop_left]; rfl)
    (by
      have hpairs := length_le_queryText upper pairs
      rw [List.length_append, List.length_cons]
      omega)
  rw [parseAbsolutePath, if_neg (not_not.mpr hslash), hloop]
  simp only [Nat.zero_add, List.nil_append, hmark]
  rw [if_neg (fun h => h.2.1 rfl), if_pos trivial, parseAbsolutePathQueries, hqueries]
  rfl

/-- The target is accepted and each key gives the value of its first pair. -/
def RoundTrips (upper : Bool) (path : Bytes) (pairs : List QueryPair) (request : Request) : Prop :=
  (parseAbsolutePath (path ++ byteOf '?' :: queryText upper pairs) request).1.isError = false ∧
    ∀ before p after, pairs = before ++ p :: after → (∀ q ∈ before, q.key ≠ p.key) →
      getQueryParam p.key
        (parseAbsolutePath (path ++ byteOf '?' :: queryText upper pairs) request).2 = p.value

/-- The key of the pair, followed by an equals sign, begins the key. -/
def QueryPair.hides (p q : QueryPair) : Bool := (p.key ++ [byteOf '=']).isPrefixOf q.key

private theorem QueryPair.hides_iff {p q : QueryPair} :
    p.hides q = true ↔ ∃ rest, q.key = p.key ++ byteOf '=' :: rest := by
  rw [QueryPair.hides, List.isPrefixOf_iff_prefix]
  constructor
  · rintro ⟨rest, hrest⟩
    exact ⟨rest, by rw [← hrest, List.append_assoc]; rfl⟩
  · rintro ⟨rest, hrest⟩
    exact ⟨rest, by rw [hrest, List.append_assoc]; rfl⟩

/-- What a stored pair is cut into. -/
private theorem cutAt_plain {p q : QueryPair} {other : Bytes}
    (h : cutAt (byteOf '=') q.plain = some (p.key, other)) :
    byteOf '=' ∉ p.key ∧ (q.key = p.key ∨ p.hides q = true) := by
  obtain ⟨hnot, hplain⟩ := cutAt_eq_some_iff.mp h
  refine ⟨hnot, ?_⟩
  rw [QueryPair.plain, List.append_eq_append_iff] at hplain
  rcases hplain with ⟨more, hkey, hbehind⟩ | ⟨more, hkey, hbehind⟩
  · cases more with
    | nil => exact Or.inl (by rw [hkey, List.append_nil])
    | cons c more =>
        obtain ⟨rfl, _⟩ := List.cons.inj hbehind
        exact absurd (by simp [hkey]) hnot
  · cases more with
    | nil => exact Or.inl (by rw [hkey, List.append_nil])
    | cons c more =>
        obtain ⟨rfl, _⟩ := List.cons.inj hbehind
        exact Or.inr (QueryPair.hides_iff.mpr ⟨more, hkey⟩)

/-- A key with an equals sign in it has no value, and a key that begins an
earlier one is stored with the same text as that. -/
def KeysReadable (pairs : List QueryPair) : Prop :=
  ∀ before p after, pairs = before ++ p :: after → (∀ q ∈ before, q.key ≠ p.key) →
    (byteOf '=' ∈ p.key → p.value = []) ∧
      (byteOf '=' ∉ p.key → ∀ q, before.find? p.hides = some q → q.plain = p.plain)

theorem keysReadable_of_not_mem {pairs : List QueryPair}
    (h : ∀ p ∈ pairs, byteOf '=' ∉ p.key) : KeysReadable pairs := by
  rintro before p after rfl _
  refine ⟨fun hmem => absurd hmem (h p (by simp)), ?_⟩
  intro _ q hfind
  obtain ⟨rest, hkey⟩ := QueryPair.hides_iff.mp (List.find?_some hfind)
  have hq : q ∈ before ++ p :: after := List.mem_append_left _ (List.mem_of_find?_eq_some hfind)
  exact absurd (by simp [hkey]) (h q hq)

/-- What the first pair with its key gives. -/
private theorem getQueryParam_eq_iff {before after : List QueryPair} {p : QueryPair}
    {request : Request} (hqueries : request.pathQueries = (before ++ p :: after).map QueryPair.plain)
    (hfirst : ∀ q ∈ before, q.key ≠ p.key) :
    getQueryParam p.key request = p.value ↔
      (byteOf '=' ∈ p.key → p.value = []) ∧
        (byteOf '=' ∉ p.key → ∀ q, before.find? p.hides = some q → q.plain = p.plain) := by
  rw [List.map_append, List.map_cons] at hqueries
  by_cases hkey : byteOf '=' ∈ p.key
  · have hnone : getQueryParam p.key request = [] := by
      apply getQueryParam_of_none
      intro query hquery other hcut
      rw [hqueries, ← List.map_cons, ← List.map_append] at hquery
      obtain ⟨q, _, rfl⟩ := List.mem_map.mp hquery
      exact (cutAt_plain hcut).1 hkey
    rw [hnone]
    exact ⟨fun h => ⟨fun _ => h.symm, fun hnot => absurd hkey hnot⟩, fun h => (h.1 hkey).symm⟩
  · cases hhidden : before.find? p.hides with
    | none =>
        have hvalue : getQueryParam p.key request = p.value := by
          refine getQueryParam_of_first hqueries ?_ (cutAt_eq_some_iff.mpr ⟨hkey, rfl⟩)
          intro query hquery other hcut
          obtain ⟨q, hq, rfl⟩ := List.mem_map.mp hquery
          rcases (cutAt_plain hcut).2 with hsame | hhides
          · exact hfirst q hq hsame
          · exact List.find?_eq_none.mp hhidden q hq hhides
        exact ⟨fun _ => ⟨fun hmem => absurd hmem hkey, fun _ q hq => by cases hq⟩, fun _ => hvalue⟩
    | some q =>
        obtain ⟨hhides, first, last, rfl, hbefore⟩ := List.find?_eq_some_iff_append.mp hhidden
        obtain ⟨rest, hrest⟩ := QueryPair.hides_iff.mp hhides
        have hplain : q.plain = p.key ++ byteOf '=' :: (rest ++ byteOf '=' :: q.value) := by
          rw [QueryPair.plain, hrest, List.append_assoc, List.cons_append]
        have hvalue : getQueryParam p.key request = rest ++ byteOf '=' :: q.value := by
          rw [List.map_append, List.map_cons, List.append_assoc, List.cons_append] at hqueries
          refine getQueryParam_of_first hqueries ?_ (cutAt_eq_some_iff.mpr ⟨hkey, hplain⟩)
          intro query hquery other hcut
          obtain ⟨r, hr, rfl⟩ := List.mem_map.mp hquery
          rcases (cutAt_plain hcut).2 with hsame | hearlier
          · exact hfirst r (List.mem_append_left _ hr) hsame
          · have hnot := hbefore r hr
            rw [hearlier] at hnot
            cases hnot
        have hsame : q.plain = p.plain ↔ rest ++ byteOf '=' :: q.value = p.value := by
          rw [hplain, QueryPair.plain, List.append_cancel_left_eq, List.cons.injEq]
          exact and_iff_right rfl
        rw [hvalue, ← hsame]
        constructor
        · intro h
          refine ⟨fun hmem => absurd hmem hkey, ?_⟩
          rintro _ r hr
          cases hr
          exact h
        · intro h
          exact h.2 hkey q rfl

/-- Query parameters come back exactly for the readable keys. -/
theorem roundTrips_iff {path : Bytes} {request : Request} (hquery : byteOf '?' ∉ path)
    (haccepted : (parseAbsolutePath path request).1.isError = false) (upper : Bool)
    (pairs : List QueryPair) :
    RoundTrips upper path pairs request ↔ KeysReadable pairs := by
  obtain ⟨uriPath, hparse⟩ := parseAbsolutePath_query hquery haccepted upper pairs
  rw [RoundTrips, hparse]
  have hvalues (before : List QueryPair) (p : QueryPair) (after : List QueryPair)
      (hpairs : pairs = before ++ p :: after) (hfirst : ∀ q ∈ before, q.key ≠ p.key) :=
    @getQueryParam_eq_iff before after p
      (setUriPath uriPath { request with pathQueries := pairs.map QueryPair.plain })
      (by rw [hpairs]; rfl) hfirst
  constructor
  · rintro ⟨_, hround⟩ before p after hpairs hfirst
    exact (hvalues before p after hpairs hfirst).mp (hround before p after hpairs hfirst)
  · intro hreadable
    refine ⟨rfl, ?_⟩
    intro before p after hpairs hfirst
    exact (hvalues before p after hpairs hfirst).mpr (hreadable before p after hpairs hfirst)

/-- A value with separators, behind a plain key. -/
def passwordPair : QueryPair where
  key := bytes "password"
  value := bytes "a=b&c%"
  key_ne := by decide
  key_valid := ⟨"password".toList, rfl⟩
  value_valid := ⟨"a=b&c%".toList, rfl⟩

theorem roundTrips_passwordPair : RoundTrips true (bytes "/login") [passwordPair] {} := by
  apply (roundTrips_iff (by decide) (by decide) true [passwordPair]).mpr
  apply keysReadable_of_not_mem
  rw [List.forall_mem_singleton]
  decide

/-- The key `a=b`. -/
def equalsPair : QueryPair where
  key := bytes "a=b"
  value := bytes "c"
  key_ne := by decide
  key_valid := ⟨"a=b".toList, rfl⟩
  value_valid := ⟨"c".toList, rfl⟩

/-- A key with an equals sign in it is not found. -/
theorem not_roundTrips_equalsPair : ¬ RoundTrips true (bytes "/login") [equalsPair] {} := by
  rintro ⟨_, hvalues⟩
  have hvalue := hvalues [] equalsPair [] rfl (by simp)
  exact absurd hvalue (by decide)

end FortyTwo.Webserv
