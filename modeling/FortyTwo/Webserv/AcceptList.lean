import FortyTwo.Webserv.CgiPassThrough
import FortyTwo.Webserv.FieldParsers

/-!
`parse_accept` on lists of media ranges without parameters. A blank behind a
comma becomes part of the next type, which then stands for any type.
-/

namespace FortyTwo.Webserv

open Foundation RequestHeaderParser

namespace RequestHeaderParser

/-- The media type that is kept for a range. -/
def mediaTypeOf (type subtype : Bytes) : MediaType :=
  if mediaTypes.contains type then { type := type, subtype := subtype }
  else { type := bytes "*", subtype := bytes "*" }

/-- The position that `parse_media_type` leaves behind a token: that of the last
separator, or inside the token where separators end the text. -/
def separatorPos (tokenEnd : Nat) (between rest : Bytes) : Nat :=
  if rest = [] then (if between = [] then tokenEnd else tokenEnd - 1)
  else tokenEnd + between.length - 1

private theorem separatorPos_eq (front token between rest : Bytes) :
    (if (if rest = [] then front.length + token.length
          else front.length + token.length + between.length) ≠
        (front ++ (token ++ (between ++ rest))).length then
      (if rest = [] then front.length + token.length
        else front.length + token.length + between.length) - 1
      else if rest = [] then front.length + token.length
        else front.length + token.length + between.length) =
      separatorPos (front.length + token.length) between rest := by
  rw [separatorPos]
  simp only [List.length_append]
  by_cases hrest : rest = []
  · by_cases hbetween : between = []
    · simp [hrest, hbetween]
    · have hpos := List.length_pos_iff.mpr hbetween
      simp only [hrest, hbetween, if_true, if_false, List.length_nil]
      rw [if_pos (by omega)]
  · have hpos := List.length_pos_iff.mpr hrest
    simp only [hrest, if_false]
    rw [if_pos (by omega)]

/-- A token with a slash, wherever it stands. -/
theorem parseMediaType_slash {type subtype between rest : Bytes} (front : Bytes)
    (hslash : byteOf '/' ∉ type) (htoken : ∀ c ∈ type ++ byteOf '/' :: subtype, c ∉ bytes ";,")
    (hbetween : ∀ c ∈ between, c ∈ bytes ";,")
    (hrest : rest = [] ∨ between ≠ [] ∧ ∀ c ∈ rest.head?, c ∉ bytes ";,") :
    parseMediaType (front ++ ((type ++ byteOf '/' :: subtype) ++ (between ++ rest))) front.length =
      .ok (mediaTypeOf type subtype,
        separatorPos (front.length + (type ++ byteOf '/' :: subtype).length) between rest) := by
  have hread := getTokenWithDelims_skip front htoken hbetween hrest
  have hne : type ++ byteOf '/' :: subtype ≠ [] := by simp
  have hlength : type.length ≠ (type ++ byteOf '/' :: subtype).length := by simp
  have hsubtype : (type ++ byteOf '/' :: subtype).drop (type.length + 1) = subtype := by
    rw [← List.drop_drop, List.drop_left]
    rfl
  have hpos := separatorPos_eq front (type ++ byteOf '/' :: subtype) between rest
  rw [parseMediaType, hread]
  simp only [hne, getTokenWithDelim_slash hslash, hlength, hsubtype, hpos, if_false, mediaTypeOf]
  split <;> rfl

/-- An item without parameters. -/
theorem parseParameters_none {s : Bytes} {pos : Nat} (item : AcceptItem) (hpos : pos ≤ s.length)
    (hws : isWs (charAt s pos) = false) (hsemicolon : charAt s pos ≠ byteOf ';') :
    parseParameters s item pos = .ok (.ok, item, pos) := by
  rw [parseParameters, skipWsFrom_of_le hpos, skipWs_of_not_ws hws]
  simp [acceptParametersLoop, readAt_of_le hpos, hsemicolon, bind, Except.bind, pure, Except.pure]

/-- An iteration over a media type that no parameter follows. -/
theorem acceptRound_of_mediaType {s : Bytes} {pos next : Nat} {mediaType : MediaType}
    (hpos : pos ≤ s.length) (hparse : parseMediaType s pos = .ok (mediaType, next))
    (hnext : next ≤ s.length) (hws : isWs (charAt s next) = false)
    (hsemicolon : charAt s next ≠ byteOf ';') :
    acceptRound s pos = .ok (.ok, { mediaType := mediaType },
      if charAt s next = byteOf ',' then next + 1 else next) := by
  rw [acceptRound, substrFrom_of_le hpos, hparse]
  simp [parseParameters_none _ hnext hws hsemicolon, readAt_of_le hnext, bind, Except.bind, pure,
    Except.pure]

end RequestHeaderParser

/-- `type/subtype`, with a type that the parser knows. -/
structure MediaRange where
  type : Bytes
  subtype : Bytes
  type_known : type ∈ mediaTypes
  subtype_ne : subtype ≠ []
  subtype_token : ∀ c ∈ subtype, isTchar c = true

namespace MediaRange

def text (r : MediaRange) : Bytes := r.type ++ byteOf '/' :: r.subtype

def pair (r : MediaRange) : Bytes × Bytes := (r.type, r.subtype)

private theorem type_chars (r : MediaRange) :
    r.type ≠ [] ∧ r.type ≠ bytes "*" ∧
      ∀ c ∈ r.type, c ∉ bytes ";," ∧ c ≠ byteOf '/' ∧ c ≠ 32 := by
  have hall : ∀ type ∈ mediaTypes, type ≠ [] ∧ type ≠ bytes "*" ∧
      ∀ c ∈ type, c ∉ bytes ";," ∧ c ≠ byteOf '/' ∧ c ≠ 32 := by decide +kernel
  exact hall r.type r.type_known

end MediaRange

namespace AcceptList

/-- The ranges behind the first one. -/
def behind (rest : List (Nat × MediaRange)) : Bytes :=
  rest.flatMap (fun p => byteOf ',' :: (List.replicate p.1 32 ++ p.2.text))

/-- `first`, and `,` with blanks in front of each further range. -/
def text (first : MediaRange) (rest : List (Nat × MediaRange)) : Bytes := first.text ++ behind rest

/-- The request has the ranges in their order. -/
def Listed (first : MediaRange) (rest : List (Nat × MediaRange)) (request : AcceptFields) : Prop :=
  ∃ items, parseAccept (text first rest) request =
      .ok (.ok, { accept := text first rest, acceptItems := items }) ∧
    items.map (fun item => (item.mediaType.type, item.mediaType.subtype)) =
      first.pair :: rest.map (fun p => p.2.pair)

/-- The item that is kept for a range behind blanks. -/
def itemOf (p : Nat × MediaRange) : AcceptItem where
  mediaType := mediaTypeOf (List.replicate p.1 32 ++ p.2.type) p.2.subtype

private theorem range_free (p : Nat × MediaRange) :
    byteOf '/' ∉ List.replicate p.1 32 ++ p.2.type ∧
      ∀ c ∈ (List.replicate p.1 32 ++ p.2.type) ++ byteOf '/' :: p.2.subtype, c ∉ bytes ";," := by
  obtain ⟨_, _, hchars⟩ := p.2.type_chars
  constructor
  · intro hmem
    rcases List.mem_append.mp hmem with hmem | hmem
    · exact absurd (List.eq_of_mem_replicate hmem) (by decide)
    · exact (hchars _ hmem).2.1 rfl
  · intro c hc
    rw [List.mem_append, List.mem_append, List.mem_cons] at hc
    rcases hc with (hc | hc) | rfl | hc
    · rw [List.eq_of_mem_replicate hc]
      decide
    · exact (hchars c hc).1
    · decide
    · exact (tchar_not (p.2.subtype_token c hc)).1

/-- A range behind its blanks. -/
def spaced (p : Nat × MediaRange) : Bytes :=
  (List.replicate p.1 32 ++ p.2.type) ++ byteOf '/' :: p.2.subtype

private theorem behind_cons (p : Nat × MediaRange) (rest : List (Nat × MediaRange)) :
    behind (p :: rest) = byteOf ',' :: (spaced p ++ behind rest) := by
  simp [behind, spaced, MediaRange.text]

private theorem spaced_head (p : Nat × MediaRange) (more : Bytes) :
    spaced p ++ more ≠ [] ∧ ∀ c ∈ (spaced p ++ more).head?, c ∉ bytes ";," := by
  obtain ⟨hne, _, _⟩ := p.2.type_chars
  cases hspaced : spaced p with
  | nil => simp [spaced] at hspaced
  | cons c text =>
      refine ⟨by simp, ?_⟩
      intro d hd
      obtain rfl : c = d := by simpa using hd
      exact (range_free p).2 c (by rw [← spaced, hspaced]; simp)

/-- An iteration that begins at a range ends behind the comma after it. -/
private theorem acceptRound_range (front : Bytes) (p : Nat × MediaRange)
    (rest : List (Nat × MediaRange)) :
    acceptRound (front ++ (spaced p ++ behind rest)) front.length =
      .ok (.ok, itemOf p, if rest = [] then (front ++ spaced p).length
        else (front ++ spaced p).length + 1) := by
  obtain ⟨hslash, hfree⟩ := range_free p
  cases rest with
  | nil =>
      have hparse := @parseMediaType_slash _ p.2.subtype [] [] front hslash hfree (by simp)
        (Or.inl rfl)
      have hend : charAt (front ++ (spaced p ++ behind [])) (front ++ spaced p).length = 0 :=
        charAt_of_length_le (by simp [behind])
      have htext : ([] : Bytes) ++ [] = behind [] := rfl
      rw [← spaced, separatorPos, if_pos rfl, if_pos rfl, ← List.length_append, htext] at hparse
      rw [acceptRound_of_mediaType (by simp) hparse (by simp) (by rw [hend]; rfl)
        (by rw [hend]; decide), hend]
      rfl
  | cons q rest =>
      have hparse := @parseMediaType_slash _ p.2.subtype (bytes ",") (spaced q ++ behind rest) front
        hslash hfree (by decide +kernel) (Or.inr ⟨by decide, (spaced_head q _).2⟩)
      have hcomma : charAt (front ++ (spaced p ++ behind (q :: rest))) (front ++ spaced p).length =
          byteOf ',' := by
        rw [behind_cons, ← List.append_assoc, charAt_append]
      have hone : (bytes ",").length = 1 := rfl
      have htext : bytes "," ++ (spaced q ++ behind rest) = behind (q :: rest) := by
        rw [behind_cons]
        rfl
      rw [← spaced, separatorPos, if_neg (spaced_head q _).1, ← List.length_append, hone,
        Nat.add_sub_cancel, htext] at hparse
      rw [acceptRound_of_mediaType (by simp) hparse (by simp) (by rw [hcomma]; rfl)
        (by rw [hcomma]; decide), hcomma]
      rfl

/-- The loop keeps an item for each range. -/
private theorem acceptLoop_ranges (rest : List (Nat × MediaRange)) :
    ∀ (front : Bytes) (p : Nat × MediaRange) (fuel : Nat) (items : List AcceptItem),
      rest.length + 1 < fuel →
      acceptLoop (front ++ (spaced p ++ behind rest)) fuel front.length items =
        .ok (.ok, items ++ (p :: rest).map itemOf) := by
  induction rest with
  | nil =>
      intro front p fuel items hfuel
      obtain ⟨fuel, rfl⟩ : ∃ n, fuel = n + 2 := ⟨fuel - 2, by simp at hfuel; omega⟩
      have hin : front.length < (front ++ (spaced p ++ behind [])).length := by
        simp [spaced]
      rw [acceptLoop, if_pos hin, acceptRound_range]
      simp [acceptLoop, behind, bind, Except.bind, pure, Except.pure]
  | cons q rest ih =>
      intro front p fuel items hfuel
      obtain ⟨fuel, rfl⟩ : ∃ n, fuel = n + 1 := ⟨fuel - 1, by omega⟩
      rw [List.length_cons] at hfuel
      have hin : front.length < (front ++ (spaced p ++ behind (q :: rest))).length := by
        simp [spaced]
      have hnext := ih (front ++ spaced p ++ bytes ",") q fuel (items ++ [itemOf p]) (by omega)
      have htext : front ++ spaced p ++ bytes "," ++ (spaced q ++ behind rest) =
          front ++ (spaced p ++ behind (q :: rest)) := by
        rw [behind_cons, List.append_assoc, List.append_assoc]
        rfl
      have hlength : (front ++ spaced p ++ bytes ",").length = (front ++ spaced p).length + 1 := by
        rw [List.length_append]
        rfl
      rw [htext, hlength, List.append_assoc] at hnext
      rw [acceptLoop, if_pos hin, acceptRound_range, if_neg (by simp)]
      simp only [bind, Except.bind, Status.ok_isError, Bool.false_eq_true, if_false]
      exact hnext

private theorem itemOf_pair_iff (p : Nat × MediaRange) :
    ((itemOf p).mediaType.type, (itemOf p).mediaType.subtype) = p.2.pair ↔ p.1 = 0 := by
  obtain ⟨hne, hany, hchars⟩ := p.2.type_chars
  obtain ⟨n, r⟩ := p
  cases n with
  | zero =>
      have hknown : mediaTypes.contains r.type = true := by simpa using r.type_known
      simp only [itemOf, mediaTypeOf, List.replicate_zero, List.nil_append, hknown, if_true,
        MediaRange.pair]
  | succ n =>
      have hunknown : mediaTypes.contains (List.replicate (n + 1) 32 ++ r.type) = false := by
        have hall : ∀ type ∈ mediaTypes, type.head? ≠ some 32 := by decide
        rw [← Bool.not_eq_true, List.contains_iff_mem]
        intro hmem
        exact hall _ hmem rfl
      simp only [itemOf, mediaTypeOf, hunknown, Bool.false_eq_true, if_false, MediaRange.pair,
        Prod.mk.injEq, Nat.succ_ne_zero, iff_false, not_and]
      intro htype
      exact absurd htype.symm hany

/-- The list arrives exactly when no blank follows a comma. -/
theorem listed_iff (first : MediaRange) (rest : List (Nat × MediaRange))
    (request : AcceptFields) :
    Listed first rest request ↔ ∀ p ∈ rest, p.1 = 0 := by
  have htext : text first rest = [] ++ (spaced (0, first) ++ behind rest) := by
    simp [text, spaced, MediaRange.text]
  have hcount : rest.length ≤ (behind rest).length := by
    induction rest with
    | nil => exact Nat.zero_le _
    | cons p rest ih =>
        have hle := ih (by simp [text, spaced, MediaRange.text])
        rw [behind_cons, List.length_cons, List.length_cons, List.length_append]
        omega
  have hne : text first rest ≠ [] := by
    rw [htext]
    simp [spaced]
  have hrun := acceptLoop_ranges rest [] (0, first) ((text first rest).length + 1) [] (by
    rw [htext]
    simp [spaced]
    omega)
  rw [← htext, List.length_nil, List.nil_append] at hrun
  have hparse : parseAccept (text first rest) request = .ok (.ok,
      { accept := text first rest, acceptItems := ((0, first) :: rest).map itemOf }) := by
    rw [parseAccept, if_neg hne, hrun]
    rfl
  have hpairs : (((0, first) :: rest).map itemOf).map
      (fun item => (item.mediaType.type, item.mediaType.subtype)) =
        first.pair :: rest.map (fun p => p.2.pair) ↔ ∀ p ∈ rest, p.1 = 0 := by
    have hfirst := (itemOf_pair_iff (0, first)).mpr rfl
    rw [List.map_map, List.map_cons, Function.comp_apply, hfirst, List.cons_inj_right,
      List.map_inj_left]
    exact forall_congr' fun p => imp_congr_right fun _ => itemOf_pair_iff p
  rw [← hpairs]
  constructor
  · rintro ⟨items, hitems, hsame⟩
    rw [hparse] at hitems
    injection hitems with hitems
    have hequal : ((0, first) :: rest).map itemOf = items :=
      congrArg (fun r => r.2.acceptItems) hitems
    rw [hequal]
    exact hsame
  · intro hsame
    exact ⟨_, hparse, hsame⟩

def htmlRange : MediaRange := ⟨bytes "text", bytes "html", by decide, by decide, by decide +kernel⟩

def pngRange : MediaRange := ⟨bytes "image", bytes "png", by decide, by decide, by decide +kernel⟩

/-- `text/html, image/png`. -/
theorem not_listed_spaced : ¬ Listed htmlRange [(1, pngRange)] {} := by
  rintro ⟨items, hparse, hpairs⟩
  have hrun : parseAccept (text htmlRange [(1, pngRange)]) {} =
      .ok (.ok, { accept := text htmlRange [(1, pngRange)], acceptItems :=
        [{ mediaType := { type := bytes "text", subtype := bytes "html" } },
          { mediaType := { type := bytes "*", subtype := bytes "*" } }] }) := by decide +kernel
  rw [hrun] at hparse
  injection hparse with hparse
  have hitems : ([{ mediaType := { type := bytes "text", subtype := bytes "html" } },
      { mediaType := { type := bytes "*", subtype := bytes "*" } }] : List AcceptItem) = items :=
    congrArg (fun r => r.2.acceptItems) hparse
  rw [← hitems] at hpairs
  exact absurd hpairs (by decide)

end AcceptList

end FortyTwo.Webserv
