import FortyTwo.Webserv.FieldParsers
import FortyTwo.Webserv.QuotedString

/-!
Which parameters `parse_content_type` finds. Behind a quoted value the position
stays at the opening quote, where no further parameter begins.
-/

namespace FortyTwo.Webserv

open Foundation

/-- What a value stands for. -/
def ParameterValue.meaning : ParameterValue → Bytes
  | .token text => text
  | .quoted inside => unquote inside

/-- A `Content-Type` with its parameters. -/
structure ContentTypeField where
  type : Bytes
  subtype : Bytes
  parameters : List (Bytes × ParameterValue)
  type_known : type ∈ RequestHeaderParser.mediaTypes
  subtype_ne : subtype ≠ []
  subtype_token : ∀ c ∈ subtype, isTchar c = true
  names_ne : ∀ p ∈ parameters, p.1 ≠ []
  names_token : ∀ p ∈ parameters, ∀ c ∈ p.1, isTchar c = true
  values : ∀ p ∈ parameters, p.2.WellFormed
  distinct : (parameters.map Prod.fst).Nodup

namespace ContentTypeField

/-- `; name=value`. -/
def listed (p : Bytes × ParameterValue) : Parameter where
  after := [32]
  name := p.1
  value := p.2

/-- `type/subtype` and the parameters. -/
def text (f : ContentTypeField) : Bytes :=
  f.type ++ byteOf '/' :: f.subtype ++ ((f.parameters.map listed).map Parameter.render).flatten

/-- The parameters, as a map has them. -/
def entries (ps : List (Bytes × ParameterValue)) : List (Bytes × Bytes) :=
  ps.map (fun p => (p.1, p.2.meaning))

/-- The media type and every parameter arrive in the request. -/
def Arrives (f : ContentTypeField) (request : Request) : Prop :=
  ∃ mediaType, RequestHeaderParser.parseContentType f.text request =
      .ok (.ok, { request with contentType := mediaType }) ∧
    mediaType.type = f.type ∧ mediaType.subtype = f.subtype ∧
    ∀ name, mediaType.parameters.lookup name = (entries f.parameters).lookup name

end ContentTypeField

/-- Only the last value is quoted, and then it is not empty and has no blank
that is not escaped, except at its end. -/
def OnlyLastQuoted (ps : List (Bytes × ParameterValue)) : Prop :=
  ∀ before name inside after, ps = before ++ (name, .quoted inside) :: after →
    after = [] ∧ inside ≠ [] ∧ KeepsBlanks [] inside

open ContentTypeField

private theorem onlyLastQuoted_nil : OnlyLastQuoted [] := by
  intro before name inside after h
  cases before <;> cases h

private theorem onlyLastQuoted_token (name token : Bytes) (ps : List (Bytes × ParameterValue)) :
    OnlyLastQuoted ((name, .token token) :: ps) ↔ OnlyLastQuoted ps := by
  constructor
  · intro h before name' inside after hsplit
    exact h ((name, .token token) :: before) name' inside after (by rw [hsplit, List.cons_append])
  · intro h before name' inside after hsplit
    cases before with
    | nil => cases hsplit
    | cons p before =>
        rw [List.cons_append, List.cons.injEq] at hsplit
        exact h before name' inside after hsplit.2

private theorem onlyLastQuoted_quoted (name inside : Bytes) (ps : List (Bytes × ParameterValue)) :
    OnlyLastQuoted ((name, .quoted inside) :: ps) ↔
      ps = [] ∧ inside ≠ [] ∧ KeepsBlanks [] inside := by
  constructor
  · intro h
    exact h [] name inside ps rfl
  · rintro ⟨rfl, hrest⟩ before name' inside' after hsplit
    cases before with
    | nil =>
        cases hsplit
        exact ⟨rfl, hrest⟩
    | cons p before =>
        rw [List.cons_append, List.cons.injEq] at hsplit
        cases before <;> cases hsplit.2

private theorem unquote_eq_nil {inside : Bytes} : unquote inside = [] ↔ inside = [] := by
  constructor
  · intro h
    cases inside with
    | nil => rfl
    | cons c rest =>
        by_cases hslash : c = 92
        · cases rest with
          | nil => simp [hslash, unquote] at h
          | cons d rest => rw [hslash, unquote] at h; cases h
        · rw [unquote_cons hslash] at h
          cases h
  · rintro rfl
    rfl

/-- A quoted value is never refused; it is read as nothing where its quotes are
not found. -/
private theorem parseParameter_quote (front suffix : Bytes) {inside : Bytes}
    (h : isQuotedText inside = true) :
    ∃ read, CGIResponseParser.parseParameter (front ++ (quote inside ++ suffix)) front.length =
        (.ok, read, front.length) ∧
      (KeepsBlanks suffix inside → read = unquote inside) ∧
      (suffix = [] → inside ≠ [] → read = unquote inside → KeepsBlanks [] inside) := by
  have hquote : charAt (front ++ (quote inside ++ suffix)) front.length = 34 := charAt_append _ _ _
  rw [CGIResponseParser.parseParameter, if_pos hquote]
  cases hparse : parseQuotedString (front ++ (quote inside ++ suffix)) front.length with
  | ok r =>
      obtain ⟨buffer, stop⟩ := r
      refine ⟨buffer, rfl, ?_, ?_⟩
      · intro hkeeps
        rw [parseQuotedString_quote front suffix h hkeeps] at hparse
        cases hparse
        rfl
      · rintro rfl _ rfl
        have hstop := stop_lt_of_parseQuotedString hparse
        refine keepsBlanks_of_parseQuotedString front [] h ?_ hparse
        simp [quote] at hstop
        omega
  | error status =>
      refine ⟨[], by simp [parseQuotedString_error hparse], ?_, ?_⟩
      · intro hkeeps
        rw [parseQuotedString_quote front suffix h hkeeps] at hparse
        cases hparse
      · intro _ hne hread
        exact absurd (unquote_eq_nil.mp hread.symm) hne

private theorem blanksBefore_listed (ps : List (Bytes × ParameterValue)) :
    blanksBefore (ps.map listed) = [] := by
  cases ps <;> rfl

private theorem lookup_singleton_ne {name name' : Bytes} (h : name' ≠ name) (value : Bytes) :
    List.lookup name' [(name, value)] = none := by
  rw [List.lookup_eq_none_iff]
  simpa using h

private theorem addParameter_fresh {mediaType : MediaType} {name : Bytes}
    (h : mediaType.parameters.lookup name = none) (value : Bytes) :
    mediaType.addParameter name value =
      { mediaType with parameters := mediaType.parameters ++ [(name, value)] } := by
  rw [MediaType.addParameter, h, Option.isSome_none, if_neg Bool.false_ne_true]

/-- What a map has found so far, and a value that is new. -/
private theorem lookup_snoc {known : List (Bytes × Bytes)} {name : Bytes}
    (h : known.lookup name = none) (value : Bytes) :
    (known ++ [(name, value)]).lookup name = some value := by
  rw [List.lookup_append, h, Option.none_or, List.lookup_cons_self]

private theorem ne_of_mem {name : Bytes} {ps : List (Bytes × ParameterValue)}
    {q : Bytes × ParameterValue} (hdistinct : name ∉ ps.map Prod.fst) (hq : q ∈ ps) :
    q.1 ≠ name :=
  fun heq => hdistinct (List.mem_map.mpr ⟨q, hq, heq⟩)

/-- The names of the other parameters stay new. -/
private theorem fresh_snoc {known : List (Bytes × Bytes)} {name : Bytes}
    {ps : List (Bytes × ParameterValue)} (hdistinct : name ∉ ps.map Prod.fst)
    (hfresh : ∀ q ∈ ps, known.lookup q.1 = none) (value : Bytes) :
    ∀ q ∈ ps, (known ++ [(name, value)]).lookup q.1 = none := by
  intro q hq
  rw [List.lookup_append, hfresh q hq, lookup_singleton_ne (ne_of_mem hdistinct hq),
    Option.none_or]

/-- What follows a quoted value is missing in the map, unless it is nothing. -/
private theorem nil_of_lookup {known : List (Bytes × Bytes)} {name read : Bytes}
    {value : ParameterValue} {ps : List (Bytes × ParameterValue)}
    (hdistinct : name ∉ ps.map Prod.fst) (hfresh : ∀ q ∈ ps, known.lookup q.1 = none)
    (hlookup : ∀ other, (known ++ [(name, read)]).lookup other =
      (known ++ entries ((name, value) :: ps)).lookup other) : ps = [] := by
  cases ps with
  | nil => rfl
  | cons q ps =>
      have hmissing := hlookup q.1
      have hbeq : (q.1 == name) = false := by
        simpa using ne_of_mem hdistinct (List.mem_cons_self)
      rw [fresh_snoc hdistinct hfresh read q (by simp), List.lookup_append,
        hfresh q (by simp)] at hmissing
      simp [entries, List.lookup_cons, hbeq] at hmissing

section Round

variable {name : Bytes} {ps : List (Bytes × ParameterValue)} {mediaType : MediaType}

/-- A round of the loop over a token. -/
private theorem parametersLoop_token {token : Bytes}
    (hp : (listed (name, .token token)).WellFormed) (hrest : ∀ p ∈ ps, (listed p).WellFormed)
    (front : Bytes) (hnew : mediaType.parameters.lookup name = none) (fuel : Nat) :
    ∃ before, front ++ fromSemicolon (listed (name, .token token) :: ps.map listed) =
        before ++ fromSemicolon (ps.map listed) ∧
      CGIResponseParser.parametersLoop
          (front ++ fromSemicolon (listed (name, .token token) :: ps.map listed)) (fuel + 1)
          front.length mediaType =
        CGIResponseParser.parametersLoop (before ++ fromSemicolon (ps.map listed)) fuel
          before.length
          { mediaType with parameters := mediaType.parameters ++ [(name, token)] } := by
  obtain ⟨before, htext, hround⟩ := parametersLoop_name hp (ps.map listed) front
  rw [render_parameters, blanksBefore_listed, List.nil_append] at htext
  obtain ⟨hne, htoken⟩ := hp.value
  have hcut : front ++ fromSemicolon (listed (name, .token token) :: ps.map listed) =
      before ++ token ++ fromSemicolon (ps.map listed) := by
    rw [htext, List.append_assoc]
    rfl
  have hparse := @parseParameter_wellFormed before token (ps.map listed) ⟨hne, htoken⟩
    (by
      intro r hr
      obtain ⟨q, hq, rfl⟩ := List.mem_map.mp hr
      exact hrest q hq)
  rw [blanksBefore_listed, List.append_nil, ← List.append_assoc] at hparse
  refine ⟨before ++ token, hcut, ?_⟩
  rw [hround, hcut, hparse]
  simp only [Status.ok_isError, Bool.false_eq_true, hne, or_self, if_false]
  rw [← List.length_append, listed, addParameter_fresh hnew]

/-- The round over a quoted value is the last one: the position stays in front
of the quote. -/
private theorem parametersLoop_quoted {inside : Bytes}
    (hp : (listed (name, .quoted inside)).WellFormed) (front : Bytes)
    (hnew : mediaType.parameters.lookup name = none) (fuel : Nat) :
    ∃ read, CGIResponseParser.parametersLoop
          (front ++ fromSemicolon (listed (name, .quoted inside) :: ps.map listed)) (fuel + 2)
          front.length mediaType =
        .ok (if read = [] then (some .ok, mediaType)
          else (none, { mediaType with parameters := mediaType.parameters ++ [(name, read)] })) ∧
      (KeepsBlanks (fromSemicolon (ps.map listed)) inside → read = unquote inside) ∧
      (fromSemicolon (ps.map listed) = [] → inside ≠ [] → read = unquote inside →
        KeepsBlanks [] inside) := by
  obtain ⟨before, htext, hround⟩ := parametersLoop_name hp (ps.map listed) front
  rw [render_parameters, blanksBefore_listed, List.nil_append] at htext
  have hcut : front ++ fromSemicolon (listed (name, .quoted inside) :: ps.map listed) =
      before ++ (quote inside ++ fromSemicolon (ps.map listed)) := htext
  obtain ⟨read, hparse, hkept, hkeeps⟩ :=
    parseParameter_quote before (fromSemicolon (ps.map listed)) hp.value
  refine ⟨read, ?_, hkept, hkeeps⟩
  rw [hround, hcut, hparse]
  have hexit : ¬ (before.length <
      (before ++ (quote inside ++ fromSemicolon (ps.map listed))).length ∧
      charAt (before ++ (quote inside ++ fromSemicolon (ps.map listed))) before.length =
        byteOf ';') := by
    rintro ⟨_, hat⟩
    rw [quote, List.cons_append, charAt_append] at hat
    exact absurd hat (by decide)
  by_cases hempty : read = []
  · simp only [Status.ok_isError, Bool.false_eq_true, hempty, or_true, if_true]
  · simp only [Status.ok_isError, Bool.false_eq_true, hempty, or_self, if_false]
    rw [parametersLoop_exit fuel _ hexit, listed, addParameter_fresh hnew]

end Round

/-- The parameters in front of which the loop stands arrive exactly when only
the last one is quoted. -/
private theorem parametersLoop_entries (ps : List (Bytes × ParameterValue)) :
    ∀ (front : Bytes) (mediaType : MediaType) (fuel : Nat), (∀ p ∈ ps, (listed p).WellFormed) →
      (ps.map Prod.fst).Nodup → (∀ p ∈ ps, mediaType.parameters.lookup p.1 = none) →
      ps.length < fuel → ∃ returned result,
        CGIResponseParser.parametersLoop (front ++ fromSemicolon (ps.map listed)) fuel front.length
            mediaType = .ok (returned, { mediaType with parameters := result }) ∧
          ((returned = none ∧
              ∀ name, result.lookup name = (mediaType.parameters ++ entries ps).lookup name) ↔
            OnlyLastQuoted ps) := by
  induction ps with
  | nil =>
      intro front mediaType fuel _ _ _ hfuel
      obtain ⟨fuel, rfl⟩ : ∃ less, fuel = less + 1 := ⟨fuel - 1, by omega⟩
      refine ⟨none, mediaType.parameters,
        parametersLoop_exit fuel mediaType (by simp [fromSemicolon]), ?_⟩
      refine iff_of_true ⟨rfl, fun name => ?_⟩ onlyLastQuoted_nil
      rw [entries, List.map_nil, List.append_nil]
  | cons p ps ih =>
      intro front mediaType fuel hwf hdistinct hfresh hfuel
      obtain ⟨name, value⟩ := p
      rw [List.length_cons] at hfuel
      rw [List.map_cons, List.nodup_cons] at hdistinct
      rw [List.forall_mem_cons] at hwf hfresh
      obtain ⟨fuel, rfl⟩ : ∃ less, fuel = less + 2 := ⟨fuel - 2, by omega⟩
      rw [List.map_cons]
      cases value with
      | token token =>
          obtain ⟨before, _, hround⟩ :=
            parametersLoop_token hwf.1 hwf.2 front hfresh.1 (fuel + 1)
          obtain ⟨returned, result, hloop, hiff⟩ := ih before
            { mediaType with parameters := mediaType.parameters ++ [(name, token)] } (fuel + 1)
            hwf.2 hdistinct.2 (fresh_snoc hdistinct.1 hfresh.2 token) (by omega)
          rw [onlyLastQuoted_token, ← hiff]
          refine ⟨returned, result, hround.trans hloop, ?_⟩
          rw [List.append_assoc]
          rfl
      | quoted inside =>
          obtain ⟨read, hround, hkept, hkeeps⟩ :=
            @parametersLoop_quoted name ps mediaType inside hwf.1 front hfresh.1 fuel
          rw [onlyLastQuoted_quoted, hround]
          by_cases hempty : read = []
          · refine ⟨some .ok, mediaType.parameters, by rw [if_pos hempty],
              iff_of_false (by simp) ?_⟩
            rintro ⟨rfl, hne, hblanks⟩
            exact hne (unquote_eq_nil.mp ((hkept hblanks).symm.trans hempty))
          · refine ⟨none, mediaType.parameters ++ [(name, read)], by rw [if_neg hempty], ?_⟩
            constructor
            · rintro ⟨_, hlookup⟩
              obtain rfl := nil_of_lookup hdistinct.1 hfresh.2 hlookup
              have hread := hlookup name
              rw [lookup_snoc hfresh.1, entries, List.map_cons, List.map_nil,
                lookup_snoc hfresh.1, Option.some.injEq] at hread
              have hne : inside ≠ [] := by
                rintro rfl
                exact hempty hread
              exact ⟨rfl, hne, hkeeps rfl hne hread⟩
            · rintro ⟨rfl, _, hblanks⟩
              refine ⟨rfl, fun other => ?_⟩
              rw [hkept hblanks]
              rfl

namespace ContentTypeField

variable (f : ContentTypeField)

private theorem listed_wellFormed : ∀ p ∈ f.parameters, (listed p).WellFormed := by
  intro p hp
  exact ⟨by simp [listed], by simp [listed, isWs], f.names_ne p hp, f.names_token p hp,
    f.values p hp⟩

private theorem text_eq : f.text =
    (f.type ++ byteOf '/' :: f.subtype) ++ fromSemicolon (f.parameters.map listed) := by
  rw [text, render_parameters, blanksBefore_listed, List.nil_append]

private theorem type_free : f.type ≠ [] ∧ ∀ c ∈ f.type, c ∉ bytes ";," ∧ c ≠ byteOf '/' := by
  have hall : ∀ type ∈ RequestHeaderParser.mediaTypes,
      type ≠ [] ∧ ∀ c ∈ type, c ∉ bytes ";," ∧ c ≠ byteOf '/' := by decide +kernel
  exact hall f.type f.type_known

/-- The type of the field, with the position of its first parameter. -/
private theorem parseMediaType_text :
    RequestHeaderParser.parseMediaType f.text 0 =
      .ok ({ type := f.type, subtype := f.subtype },
        (f.type ++ byteOf '/' :: f.subtype).length) := by
  have hfree : ∀ c ∈ f.type ++ byteOf '/' :: f.subtype, c ∉ bytes ";," := by
    intro c hc hin
    rw [List.mem_append, List.mem_cons] at hc
    rcases hc with hc | rfl | hc
    · exact (f.type_free.2 c hc).1 hin
    · exact absurd hin (by decide)
    · exact (tchar_not (f.subtype_token c hc)).1 hin
  have hslash : byteOf '/' ∉ f.type := fun hmem => (f.type_free.2 _ hmem).2 rfl
  have hwf : ∀ p ∈ f.parameters.map listed, p.WellFormed := by
    intro p hp
    obtain ⟨q, hq, rfl⟩ := List.mem_map.mp hp
    exact f.listed_wellFormed q hq
  obtain ⟨pos, hread, hpos⟩ := getTokenWithDelims_parameters hwf hfree
  have hlength : f.type.length ≠ (f.type ++ byteOf '/' :: f.subtype).length := by simp
  have hne : f.type ++ byteOf '/' :: f.subtype ≠ [] := by simp
  have hsubtype : (f.type ++ byteOf '/' :: f.subtype).drop (f.type.length + 1) = f.subtype := by
    rw [← List.drop_drop, List.drop_left]
    rfl
  have hknown : RequestHeaderParser.mediaTypes.contains f.type = true := by
    simpa using f.type_known
  rw [text_eq]
  simp only [RequestHeaderParser.parseMediaType, hread, hne, getTokenWithDelim_slash hslash,
    hlength, hpos, hknown, hsubtype, if_false, if_true]

/-- All parameters arrive exactly when no value but the last is quoted, and that
one is read whole. -/
theorem arrives_iff (f : ContentTypeField) :
    (∀ request, f.Arrives request) ↔ OnlyLastQuoted f.parameters := by
  have hcount : f.parameters.length < f.text.length + 1 := by
    have hle := parameters_length_le (f.parameters.map listed)
    rw [List.length_map] at hle
    rw [text, List.length_append]
    omega
  obtain ⟨returned, result, hloop, hiff⟩ := parametersLoop_entries f.parameters
    (f.type ++ byteOf '/' :: f.subtype) { type := f.type, subtype := f.subtype }
    (f.text.length + 1) f.listed_wellFormed f.distinct (by simp) hcount
  have hskip : skipWs f.text (f.type ++ byteOf '/' :: f.subtype).length =
      (f.type ++ byteOf '/' :: f.subtype).length := by
    rw [text_eq]
    apply skipWs_none _
    cases f.parameters with
    | nil => simp [fromSemicolon]
    | cons p rest => simp [fromSemicolon, byteOf, isWs]
  have hne : f.text ≠ [] := by
    rw [text]
    simp
  rw [← text_eq] at hloop
  have hrun : ∀ request, RequestHeaderParser.parseContentType f.text request =
      returned.elim (.ok (.ok, { request with contentType :=
          { type := f.type, subtype := f.subtype, parameters := result } }))
        (fun status => .ok (status, request)) := by
    intro request
    rw [RequestHeaderParser.parseContentType, if_neg hne, f.parseMediaType_text]
    simp only [hskip, hloop, bind, Except.bind]
    cases returned <;> rfl
  rw [← hiff]
  constructor
  · intro harrives
    obtain ⟨mediaType, hparse, htype, _, hlookup⟩ := harrives {}
    rw [hrun] at hparse
    cases returned with
    | some status =>
        injection hparse with hparse
        have hsame : ({} : MediaType) = mediaType := congrArg (fun r => r.2.contentType) hparse
        rw [← hsame] at htype
        exact absurd htype.symm f.type_free.1
    | none =>
        injection hparse with hparse
        have hsame : MediaType.mk f.type f.subtype result = mediaType :=
          congrArg (fun r => r.2.contentType) hparse
        rw [← hsame] at hlookup
        exact ⟨rfl, hlookup⟩
  · rintro ⟨rfl, hlookup⟩ request
    exact ⟨_, hrun request, rfl, rfl, hlookup⟩

/-- `multipart/form-data; charset="a"; boundary=b`. -/
def quotedCharset : ContentTypeField where
  type := bytes "multipart"
  subtype := bytes "form-data"
  parameters := [(bytes "charset", .quoted (bytes "a")), (bytes "boundary", .token (bytes "b"))]
  type_known := by decide
  subtype_ne := by decide
  subtype_token := by decide +kernel
  names_ne := by decide
  names_token := by decide +kernel
  values := by
    rintro p hp
    rw [List.mem_cons, List.mem_singleton] at hp
    rcases hp with rfl | rfl
    · exact (rfl : isQuotedText (bytes "a") = true)
    · exact ⟨by decide, by decide +kernel⟩
  distinct := by decide

/-- The boundary behind a quoted value is lost. -/
theorem not_arrives_quotedCharset : ¬ quotedCharset.Arrives {} := by
  rintro ⟨mediaType, hparse, _, _, hlookup⟩
  have hrun : RequestHeaderParser.parseContentType quotedCharset.text {} =
      .ok (.ok, { contentType := {
        type := bytes "multipart"
        subtype := bytes "form-data"
        parameters := [(bytes "charset", bytes "a")] } }) := by decide
  rw [hrun] at hparse
  injection hparse with hparse
  have hsame : MediaType.mk (bytes "multipart") (bytes "form-data")
      [(bytes "charset", bytes "a")] = mediaType := congrArg (fun r => r.2.contentType) hparse
  have hboundary := hlookup (bytes "boundary")
  rw [← hsame] at hboundary
  exact absurd hboundary (by decide)

end ContentTypeField

end FortyTwo.Webserv
