import FortyTwo.Webserv.CGIResponseParser
import FortyTwo.Webserv.HeaderFields
import FortyTwo.Webserv.ResponseFraming

/-!
What becomes of the media type that a CGI program names. The parser accepts
every valid header block and keeps the media type in the request; the response
takes its `content-type` from the first content element, where nobody puts it.
-/

namespace FortyTwo.Webserv

open Foundation

/-- The inside of a quoted string. -/
def isQuotedText : Bytes → Bool
  | [] => true
  | 92 :: c :: rest => isQuotedPairChar c && isQuotedText rest
  | c :: rest => isQdText c && isQuotedText rest

inductive ParameterValue where
  | token (text : Bytes)
  | quoted (text : Bytes)
  deriving DecidableEq, Repr

namespace ParameterValue

def text : ParameterValue → Bytes
  | .token text => text
  | .quoted text => 34 :: (text ++ [34])

def WellFormed : ParameterValue → Prop
  | .token text => text ≠ [] ∧ ∀ c ∈ text, isTchar c = true
  | .quoted text => isQuotedText text = true

end ParameterValue

/-- `OWS ";" OWS name "=" value`. -/
structure Parameter where
  before : Bytes := []
  after : Bytes := []
  name : Bytes
  value : ParameterValue
  deriving DecidableEq, Repr

namespace Parameter

/-- What follows the semicolon. -/
def behind (p : Parameter) : Bytes := p.after ++ (p.name ++ byteOf '=' :: p.value.text)

def render (p : Parameter) : Bytes := p.before ++ byteOf ';' :: p.behind

structure WellFormed (p : Parameter) : Prop where
  before_ws : ∀ c ∈ p.before, isWs c = true
  after_ws : ∀ c ∈ p.after, isWs c = true
  name_ne : p.name ≠ []
  name_token : ∀ c ∈ p.name, isTchar c = true
  value : p.value.WellFormed

end Parameter

/-- A status code from 100 to 599, and a reason behind it. -/
structure StatusField where
  code : Bytes
  reason : Option Bytes := none
  deriving DecidableEq, Repr

namespace StatusField

def text (s : StatusField) : Bytes := s.code ++ (s.reason.elim [] fun reason => 32 :: reason)

structure WellFormed (s : StatusField) : Prop where
  digits : ∃ a b c, s.code = [a, b, c] ∧ 49 ≤ a ∧ a ≤ 53 ∧ isDigit b = true ∧ isDigit c = true
  reason_line : ∀ reason ∈ s.reason, NoLineEnd reason

end StatusField

/-- The output of a CGI program: a media type, perhaps a status, and a body. -/
structure CgiOutput where
  type : Bytes
  subtype : Bytes
  parameters : List Parameter := []
  status : Option StatusField := none
  statusFirst : Bool := false
  body : Bytes := []
  deriving DecidableEq, Repr

namespace CgiOutput

def typeWithSubtype (out : CgiOutput) : Bytes := out.type ++ byteOf '/' :: out.subtype

def mediaType (out : CgiOutput) : Bytes :=
  out.typeWithSubtype ++ (out.parameters.map Parameter.render).flatten

def contentTypeLine (out : CgiOutput) : Bytes := bytes "Content-Type: " ++ out.mediaType

def statusLine (s : StatusField) : Bytes := bytes "Status: " ++ s.text

/-- The header block without the blank line. -/
def head (out : CgiOutput) : Bytes :=
  match out.status with
  | none => out.contentTypeLine
  | some s =>
      if out.statusFirst then statusLine s ++ (crlf ++ out.contentTypeLine)
      else out.contentTypeLine ++ (crlf ++ statusLine s)

def text (out : CgiOutput) : Bytes := out.head ++ (crlf ++ (crlf ++ out.body))

structure WellFormed (out : CgiOutput) : Prop where
  type_ne : out.type ≠ []
  type_token : ∀ c ∈ out.type, isTchar c = true
  subtype_ne : out.subtype ≠ []
  subtype_token : ∀ c ∈ out.subtype, isTchar c = true
  parameters : ∀ p ∈ out.parameters, p.WellFormed
  status : ∀ s ∈ out.status, s.WellFormed

end CgiOutput

/-- The response that the request of the CGI context is answered with, once all
pieces are parsed, carries a `content-type` with the media type, with its
parameters or without them, and the body. -/
def PassesThrough (config : Config) (status : Status) (fileSystem : FileSystem)
    (sessionStore : SessionStore) (out : CgiOutput) (pieces : List Bytes) : Prop :=
  ∃ parser request response message,
    CGIResponseParser.parseAll {} cgiContextRequest pieces = .ok (parser, request) ∧
    (ServerResponse.create status request fileSystem sessionStore false).generateCgiResponse
      config = .ok response ∧
    readMessage response.response = some message ∧
    (∃ value ∈ message.values (bytes "content-type"),
      value = out.mediaType ∨ value = out.typeWithSubtype) ∧
    message.body = out.body

section Tokens

theorem tchar_not {c : UInt8} (h : isTchar c = true) :
    c ∉ bytes ";," ∧ c ∉ bytes "/=: " ∧ c ≠ 34 ∧ c ∉ crlf ∧ isWs c = false := by
  have hquote : c ∉ ([34] : Bytes) := tchar_not_mem h (by decide)
  exact ⟨tchar_not_mem h (by decide), tchar_not_mem h (by decide), by simpa using hquote,
    tchar_not_mem h (by decide), tchar_not_ws h⟩

private theorem findFirstOf_none {delims token : Bytes} (front : Bytes)
    (htoken : ∀ c ∈ token, c ∉ delims) :
    findFirstOf delims (front ++ token) front.length = none := by
  rw [findFirstOf, List.drop_left, Option.map_eq_none_iff, List.findIdx?_eq_none_iff]
  intro c hc
  simpa using htoken c hc

private theorem findFirstOf_some {delims token : Bytes} (front : Bytes)
    (htoken : ∀ c ∈ token, c ∉ delims) {d : UInt8} (hd : d ∈ delims) (more : Bytes) :
    findFirstOf delims (front ++ (token ++ d :: more)) front.length =
      some (front.length + token.length) := by
  have hfind : (token ++ d :: more).findIdx? (fun c => delims.contains c) =
      some token.length := by
    rw [List.findIdx?_append, List.findIdx?_eq_none_iff.2 fun c hc => by simpa using htoken c hc]
    simp [List.findIdx?_cons, hd]
  rw [findFirstOf, List.drop_left, hfind, Option.map_some, Nat.add_comm]

/-- A token up to the end of the text, or up to a delimiter. -/
theorem getTokenWithDelims_eq {delims token rest : Bytes} (front : Bytes)
    (htoken : ∀ c ∈ token, c ∉ delims) (hrest : rest = [] ∨ ∃ d more, rest = d :: more ∧ d ∈ delims) :
    getTokenWithDelims (front ++ (token ++ rest)) front.length delims false =
      (token, front.length + token.length) := by
  rcases hrest with rfl | ⟨d, more, rfl, hd⟩
  · rw [List.append_nil, getTokenWithDelims, findFirstOf_none front htoken]
    simp only [List.drop_left, Nat.add_comm]
  · rw [getTokenWithDelims, findFirstOf_some front htoken hd]
    simp

/-- A token and the delimiters behind it, which are skipped unless they end the
text. -/
theorem getTokenWithDelims_skip {delims token between rest : Bytes} (front : Bytes)
    (htoken : ∀ c ∈ token, c ∉ delims) (hbetween : ∀ c ∈ between, c ∈ delims)
    (hrest : rest = [] ∨ between ≠ [] ∧ ∀ c ∈ rest.head?, c ∉ delims) :
    getTokenWithDelims (front ++ (token ++ (between ++ rest))) front.length delims true =
      (token, if rest = [] then front.length + token.length
        else front.length + token.length + between.length) := by
  cases between with
  | nil =>
      obtain rfl : rest = [] := hrest.resolve_right (fun h => h.1 rfl)
      rw [List.append_nil, List.append_nil, getTokenWithDelims, findFirstOf_none front htoken,
        if_pos rfl]
      simp only [List.drop_left, Nat.add_comm]
  | cons d between =>
      have hstop : findFirstOf delims (front ++ (token ++ (d :: between ++ rest))) front.length =
          some (front.length + token.length) :=
        findFirstOf_some front htoken (hbetween d (by simp)) (between ++ rest)
      have hbehind : (front ++ (token ++ (d :: between ++ rest))).drop
          (front.length + token.length) = d :: between ++ rest := by
        rw [← List.drop_drop, List.drop_left, List.drop_left]
      have htake : ((front ++ (token ++ (d :: between ++ rest))).drop front.length).take
          (front.length + token.length - front.length) = token := by
        rw [List.drop_left, Nat.add_sub_cancel_left, List.take_left]
      have hnext : findFirstNotOf delims (front ++ (token ++ (d :: between ++ rest)))
          (front.length + token.length) =
          if rest = [] then none else some (front.length + token.length + (d :: between).length) := by
        rw [findFirstNotOf, hbehind, List.findIdx?_append,
          List.findIdx?_eq_none_iff.2 fun c hc => by simpa using hbetween c hc]
        cases rest with
        | nil => rfl
        | cons c rest =>
            have hc : c ∉ delims := (hrest.resolve_left (by simp)).2 c rfl
            simp [List.findIdx?_cons, hc, Nat.add_comm]
      rw [getTokenWithDelims, hstop]
      simp only [htake, hnext, if_true]
      by_cases hend : rest = []
      · rw [if_pos hend, if_pos hend]
      · rw [if_neg hend, if_neg hend]

theorem skipWs_eq {blanks rest : Bytes} (front : Bytes)
    (hblanks : ∀ c ∈ blanks, isWs c = true) (hrest : ∀ c ∈ rest.head?, isWs c = false) :
    skipWs (front ++ (blanks ++ rest)) front.length = front.length + blanks.length := by
  have hnone : rest.takeWhile isWs = [] := by
    cases rest with
    | nil => rfl
    | cons c rest => rw [List.takeWhile_cons_of_neg (by simpa using hrest c rfl)]
  rw [skipWs, List.drop_left, List.takeWhile_append_of_pos hblanks, hnone, List.append_nil]

theorem skipWs_none {rest : Bytes} (front : Bytes)
    (hrest : ∀ c ∈ rest.head?, isWs c = false) :
    skipWs (front ++ rest) front.length = front.length := by
  simpa using @skipWs_eq [] rest front (by simp) hrest

end Tokens

section ContentType

private theorem quotedLoop_error {s : Bytes} (fuel : Nat) :
    ∀ (pos : Nat) (buffer : Bytes) (status : Status),
      quotedLoop s fuel pos buffer = .error status → status = .invalidFilenameFormat := by
  induction fuel with
  | zero => intro pos buffer status h; cases h
  | succ fuel ih =>
      intro pos buffer status h
      rw [quotedLoop] at h
      repeat' split at h
      all_goals first | exact ih _ _ _ h | cases h
      all_goals rfl

theorem parseQuotedString_error {s : Bytes} {pos : Nat} {status : Status}
    (h : parseQuotedString s pos = .error status) : status.isError = false := by
  rw [parseQuotedString] at h
  split at h
  · cases h
    rfl
  · split at h
    · rename_i hloop
      cases h
      rw [quotedLoop_error _ _ _ _ hloop]
      rfl
    · split at h <;> cases h
      rfl

/-- A quoted string is never refused, and the position stays in front of it. -/
private theorem parseParameter_quoted {s : Bytes} {pos : Nat} (h : charAt s pos = 34) :
    ∃ value, CGIResponseParser.parseParameter s pos = (.ok, value, pos) := by
  rw [CGIResponseParser.parseParameter, if_pos h]
  cases hparse : parseQuotedString s pos with
  | ok r => exact ⟨r.1, rfl⟩
  | error status => exact ⟨[], by simp [parseQuotedString_error hparse]⟩

private theorem parseParameter_token {token rest : Bytes} (front : Bytes) (hne : token ≠ [])
    (htoken : ∀ c ∈ token, c ∉ bytes ";,") (hquote : token.head? ≠ some 34)
    (hrest : rest = [] ∨ ∃ d more, rest = d :: more ∧ d ∈ bytes ";,") :
    CGIResponseParser.parseParameter (front ++ (token ++ rest)) front.length =
      (.ok, token, front.length + token.length) := by
  obtain ⟨c, token, rfl⟩ := List.exists_cons_of_ne_nil hne
  have hc : charAt (front ++ (c :: token ++ rest)) front.length ≠ 34 := by
    rw [List.cons_append, charAt_append]
    exact fun h => hquote (by simp [h])
  rw [CGIResponseParser.parseParameter, if_neg hc, getTokenWithDelims_eq front htoken hrest]
  simp

/-- The parameters from the semicolon of the first one on. -/
def fromSemicolon : List Parameter → Bytes
  | [] => []
  | p :: rest => byteOf ';' :: (p.behind ++ (rest.map Parameter.render).flatten)

/-- The blanks in front of the first semicolon. -/
def blanksBefore : List Parameter → Bytes
  | [] => []
  | p :: _ => p.before

theorem render_parameters (ps : List Parameter) :
    (ps.map Parameter.render).flatten = blanksBefore ps ++ fromSemicolon ps := by
  cases ps with
  | nil => rfl
  | cons p rest => simp [blanksBefore, fromSemicolon, Parameter.render]

theorem parameters_length_le (ps : List Parameter) :
    ps.length ≤ (ps.map Parameter.render).flatten.length := by
  induction ps with
  | nil => simp
  | cons p ps ih =>
      rw [List.map_cons, List.flatten_cons, List.length_append, List.length_cons, Parameter.render,
        List.length_append, List.length_cons]
      omega

theorem ws_not_delim {c : UInt8} (h : isWs c = true) : c ∉ bytes ";," := by
  have hcases : c = 32 ∨ c = 9 := by simpa [isWs] using h
  rcases hcases with rfl | rfl <;> decide

theorem fromSemicolon_ends (ps : List Parameter) :
    fromSemicolon ps = [] ∨ ∃ d more, fromSemicolon ps = d :: more ∧ d ∈ bytes ";," := by
  cases ps with
  | nil => exact Or.inl rfl
  | cons p rest => exact Or.inr ⟨_, _, rfl, by decide⟩

private theorem blanksBefore_ws {ps : List Parameter} (hps : ∀ p ∈ ps, p.WellFormed) :
    ∀ c ∈ blanksBefore ps, isWs c = true := by
  cases ps with
  | nil => simp [blanksBefore]
  | cons p rest => exact (hps p (by simp)).before_ws

theorem parametersLoop_exit {s : Bytes} {pos : Nat} (fuel : Nat) (mediaType : MediaType)
    (h : ¬ (pos < s.length ∧ charAt s pos = byteOf ';')) :
    CGIResponseParser.parametersLoop s (fuel + 1) pos mediaType = .ok (none, mediaType) := by
  rw [CGIResponseParser.parametersLoop, if_neg h]

/-- A round of the loop gets to the value behind the equals sign. -/
theorem parametersLoop_name {p : Parameter} (hp : p.WellFormed) (ps : List Parameter)
    (front : Bytes) :
    ∃ value : Bytes, front ++ fromSemicolon (p :: ps) =
        value ++ (p.value.text ++ (ps.map Parameter.render).flatten) ∧
      ∀ fuel mediaType, CGIResponseParser.parametersLoop (front ++ fromSemicolon (p :: ps))
          (fuel + 1) front.length mediaType =
        let (status, read, pos) := CGIResponseParser.parseParameter
          (front ++ fromSemicolon (p :: ps)) value.length
        if status.isError ∨ read = [] then .ok (some status, mediaType)
        else CGIResponseParser.parametersLoop (front ++ fromSemicolon (p :: ps)) fuel pos
          (mediaType.addParameter p.name read) := by
  obtain ⟨c, name, hname⟩ := List.exists_cons_of_ne_nil hp.name_ne
  have hc := tchar_not (hp.name_token c (by simp [hname]))
  -- the name, from behind the semicolon and the blanks
  obtain ⟨start, hstart⟩ : ∃ start, start = front ++ [byteOf ';'] ++ p.after := ⟨_, rfl⟩
  obtain ⟨value, hvalue⟩ : ∃ value, value = start ++ p.name ++ [byteOf '='] := ⟨_, rfl⟩
  have htext : front ++ fromSemicolon (p :: ps) =
      start ++ (p.name ++ byteOf '=' :: (p.value.text ++ (ps.map Parameter.render).flatten)) := by
    simp [fromSemicolon, Parameter.behind, hstart]
  have hcond : front.length < (front ++ fromSemicolon (p :: ps)).length ∧
      charAt (front ++ fromSemicolon (p :: ps)) front.length = byteOf ';' := by
    refine ⟨?_, charAt_append _ _ _⟩
    rw [fromSemicolon, List.length_append, List.length_cons]
    omega
  have hsemicolon : skipWs (front ++ fromSemicolon (p :: ps)) front.length = front.length :=
    skipWs_none front (by simp [fromSemicolon, byteOf, isWs])
  have hblanks : skipWs (front ++ fromSemicolon (p :: ps)) (front.length + 1) =
      start.length := by
    have hcut : front ++ fromSemicolon (p :: ps) = (front ++ [byteOf ';']) ++ (p.after ++
        (p.name ++ byteOf '=' :: (p.value.text ++ (ps.map Parameter.render).flatten))) := by
      simp [fromSemicolon, Parameter.behind]
    have hskip := skipWs_eq (front ++ [byteOf ';']) hp.after_ws (show ∀ c ∈ (p.name ++
      byteOf '=' :: (p.value.text ++ (ps.map Parameter.render).flatten)).head?,
        isWs c = false by
      rw [hname]
      intro d hd
      obtain rfl : c = d := by simpa using hd
      exact hc.2.2.2.2)
    rw [← hcut, List.length_append, List.length_singleton] at hskip
    rw [hskip, hstart, List.length_append, List.length_append, List.length_singleton]
  have hfind : findFrom (bytes "=") (front ++ fromSemicolon (p :: ps)) start.length =
      some (start.length + p.name.length) := by
    have hnotin : byteOf '=' ∉ p.name := fun hmem =>
      (tchar_not (hp.name_token _ hmem)).2.1 (by decide)
    rw [findFrom_eq_some_iff, htext, List.drop_left]
    refine ⟨by omega, by simp, ?_⟩
    rw [Nat.add_sub_cancel_left]
    exact find_single hnotin _
  have hvaluePos : start.length + p.name.length + 1 = value.length := by
    rw [hvalue, List.length_append, List.length_append, List.length_singleton]
  have hparameter : ((front ++ fromSemicolon (p :: ps)).drop start.length).take
      (start.length + p.name.length - start.length) = p.name := by
    rw [htext, List.drop_left, Nat.add_sub_cancel_left, List.take_left]
  refine ⟨value, ?_, fun fuel mediaType => ?_⟩
  · rw [htext, hvalue]
    simp
  · rw [CGIResponseParser.parametersLoop, if_pos hcond]
    simp only [hsemicolon, hblanks, hfind, isStringValidToken_eq_true, hvaluePos, hparameter,
      Bool.true_eq_false, if_false]

theorem parseParameter_wellFormed {value token : Bytes} {ps : List Parameter}
    (hwf : (ParameterValue.token token).WellFormed) (hps : ∀ q ∈ ps, q.WellFormed) :
    CGIResponseParser.parseParameter (value ++ ((token ++ blanksBefore ps) ++ fromSemicolon ps))
        value.length =
      (.ok, token ++ blanksBefore ps, value.length + (token ++ blanksBefore ps).length) := by
  obtain ⟨hne, htoken⟩ := hwf
  have hquote : (token ++ blanksBefore ps).head? ≠ some 34 := by
    obtain ⟨d, rest, rfl⟩ := List.exists_cons_of_ne_nil hne
    intro hd
    obtain rfl : d = 34 := by simpa using hd
    exact (tchar_not (htoken 34 (by simp))).2.2.1 rfl
  have hfree : ∀ c ∈ token ++ blanksBefore ps, c ∉ bytes ";," := by
    intro d hd
    rcases List.mem_append.1 hd with hd | hd
    · exact (tchar_not (htoken d hd)).1
    · exact ws_not_delim (blanksBefore_ws hps d hd)
  exact parseParameter_token value (by simp [hne]) hfree hquote (fromSemicolon_ends ps)

/-- The loop over well-formed parameters ends without an error. -/
private theorem parametersLoop_ok (ps : List Parameter) :
    ∀ (front : Bytes) (mediaType : MediaType) (fuel : Nat), (∀ p ∈ ps, p.WellFormed) →
      ps.length < fuel →
      ∃ returned result, CGIResponseParser.parametersLoop (front ++ fromSemicolon ps) fuel
          front.length mediaType = .ok (returned, result) ∧
        ∀ status ∈ returned, status.isError = false := by
  induction ps with
  | nil =>
      intro front mediaType fuel _ hfuel
      obtain ⟨fuel, rfl⟩ : ∃ less, fuel = less + 1 := ⟨fuel - 1, by omega⟩
      exact ⟨none, mediaType, parametersLoop_exit fuel mediaType (by simp [fromSemicolon]),
        by simp⟩
  | cons p ps ih =>
      intro front mediaType fuel hps hfuel
      obtain ⟨fuel, rfl⟩ : ∃ less, fuel = less + 1 := ⟨fuel - 1, by omega⟩
      have hp := hps p (by simp)
      have hrest : ∀ q ∈ ps, q.WellFormed := fun q hq => hps q (List.mem_cons_of_mem _ hq)
      simp only [List.length_cons] at hfuel
      obtain ⟨value, htext, hround⟩ := parametersLoop_name hp ps front
      rw [hround]
      cases hkind : p.value with
      | token token =>
          have hwf := hp.value
          rw [hkind] at hwf
          have hcut : front ++ fromSemicolon (p :: ps) =
              value ++ ((token ++ blanksBefore ps) ++ fromSemicolon ps) := by
            rw [htext, hkind, render_parameters, ParameterValue.text, List.append_assoc]
          rw [hcut, parseParameter_wellFormed hwf hrest]
          simp only [Status.ok_isError, Bool.false_eq_true, List.append_eq_nil_iff, hwf.1,
            false_and, or_false, if_false]
          have hnext := ih (value ++ (token ++ blanksBefore ps))
            (mediaType.addParameter p.name (token ++ blanksBefore ps)) fuel hrest (by omega)
          rw [List.length_append, List.append_assoc] at hnext
          exact hnext
      | quoted text =>
          have hquote : charAt (front ++ fromSemicolon (p :: ps)) value.length = 34 := by
            rw [htext, hkind, ParameterValue.text, List.cons_append, charAt_append]
          obtain ⟨read, hparse⟩ := parseParameter_quoted hquote
          rw [hparse]
          by_cases hempty : read = []
          · exact ⟨some .ok, mediaType, by simp [hempty], by simp⟩
          · -- the position is in front of the quote, so that the loop ends
            obtain ⟨fuel, rfl⟩ : ∃ less, fuel = less + 1 := ⟨fuel - 1, by omega⟩
            simp only [Status.ok_isError, Bool.false_eq_true, hempty, or_self, if_false]
            exact ⟨none, _, parametersLoop_exit fuel _ (by
              rw [hquote]
              exact fun h => absurd h.2 (by decide)), by simp⟩

/-- The type in front of the parameters; the separator is not consumed. -/
theorem getTokenWithDelims_parameters {token : Bytes} {ps : List Parameter}
    (hps : ∀ p ∈ ps, p.WellFormed) (hfree : ∀ c ∈ token, c ∉ bytes ";,") :
    ∃ pos, getTokenWithDelims (token ++ fromSemicolon ps) 0 (bytes ";,") true = (token, pos) ∧
      (if pos ≠ (token ++ fromSemicolon ps).length then pos - 1 else pos) = token.length := by
  cases ps with
  | nil =>
      have hread := @getTokenWithDelims_skip (bytes ";,") token [] [] [] hfree (by simp) (Or.inl rfl)
      rw [List.append_nil, List.append_nil, List.nil_append, if_pos rfl] at hread
      refine ⟨_, by rw [fromSemicolon, List.append_nil]; exact hread, ?_⟩
      rw [fromSemicolon, List.append_nil]
      simp
  | cons p rest =>
      have hp := hps p (by simp)
      obtain ⟨c, more, hc, hin⟩ : ∃ c more, p.behind ++ (rest.map Parameter.render).flatten =
          c :: more ∧ c ∉ bytes ";," := by
        cases hafter : p.after with
        | cons c after =>
            refine ⟨c, _, by rw [Parameter.behind, hafter]; rfl, ?_⟩
            exact ws_not_delim (hp.after_ws c (by simp [hafter]))
        | nil =>
            obtain ⟨c, name, hname⟩ := List.exists_cons_of_ne_nil hp.name_ne
            refine ⟨c, _, by rw [Parameter.behind, hafter, hname]; rfl, ?_⟩
            exact (tchar_not (hp.name_token c (by simp [hname]))).1
      have hread := @getTokenWithDelims_skip (bytes ";,") token (bytes ";") (c :: more) [] hfree
        (by decide +kernel) (Or.inr ⟨by decide, by simpa using hin⟩)
      rw [List.nil_append, if_neg (List.cons_ne_nil c more)] at hread
      rw [fromSemicolon, hc]
      refine ⟨_, hread, ?_⟩
      rw [if_pos]
      · simp [bytes]
      · simp [bytes]

/-- The first token up to a slash that it has not. -/
theorem getTokenWithDelim_slash {type : Bytes} (h : byteOf '/' ∉ type) (rest : Bytes) :
    getTokenWithDelim (type ++ byteOf '/' :: rest) 0 (bytes "/") false = (type, type.length) := by
  have hfind : findFrom (bytes "/") (type ++ byteOf '/' :: rest) 0 = some type.length := by
    rw [findFrom_eq_some_iff]
    exact ⟨by omega, by omega, find_single h _⟩
  rw [getTokenWithDelim, hfind]
  simp only [Nat.sub_zero, List.drop_zero, Nat.zero_add, Bool.false_eq_true, if_false]
  rw [List.take_left]

private theorem parseMediaType_ok {out : CgiOutput} (h : out.WellFormed) :
    ∃ mediaType, CGIResponseParser.parseMediaType out.mediaType 0 =
      .ok (mediaType, (out.typeWithSubtype ++ blanksBefore out.parameters).length) := by
  have htext : out.mediaType = (out.typeWithSubtype ++ blanksBefore out.parameters) ++
      fromSemicolon out.parameters := by
    rw [CgiOutput.mediaType, render_parameters, List.append_assoc]
  obtain ⟨token, htoken⟩ : ∃ token, token = out.typeWithSubtype ++ blanksBefore out.parameters :=
    ⟨_, rfl⟩
  rw [← htoken] at htext ⊢
  have hslash : byteOf '/' ∉ out.type := fun hmem =>
    (tchar_not (h.type_token _ hmem)).2.1 (by decide)
  have hfree : ∀ c ∈ token, c ∉ bytes ";," := by
    intro c hc
    rw [htoken, CgiOutput.typeWithSubtype, List.mem_append, List.mem_append, List.mem_cons] at hc
    rcases hc with (hc | rfl | hc) | hc
    · exact (tchar_not (h.type_token c hc)).1
    · decide
    · exact (tchar_not (h.subtype_token c hc)).1
    · exact ws_not_delim (blanksBefore_ws h.parameters c hc)
  have hne : token ≠ [] := by
    rw [htoken, CgiOutput.typeWithSubtype]
    simp
  have hcut : token = out.type ++ byteOf '/' :: (out.subtype ++ blanksBefore out.parameters) := by
    rw [htoken, CgiOutput.typeWithSubtype, List.append_assoc, List.cons_append]
  obtain ⟨pos, htokenRead, hpos⟩ := getTokenWithDelims_parameters h.parameters hfree
  rw [← htext] at htokenRead hpos
  have hslashToken := getTokenWithDelim_slash hslash (out.subtype ++ blanksBefore out.parameters)
  rw [← hcut] at hslashToken
  have hlen : out.type.length ≠ token.length := by
    rw [hcut]
    simp
  simp only [CGIResponseParser.parseMediaType, htokenRead, hne, hslashToken, hlen, hpos, if_false]
  split
  · exact ⟨_, rfl⟩
  · exact ⟨_, rfl⟩

/-- A valid content type is no error, and puts nothing in the content. -/
theorem parseContentType_ok {out : CgiOutput} (h : out.WellFormed) (request : Request) :
    ∃ status request', CGIResponseParser.parseContentType out.mediaType request =
        .ok (status, request') ∧ status.isError = false ∧
      request'.contentData = request.contentData ∧
      request'.statusString = request.statusString := by
  have hne : out.mediaType ≠ [] := by
    rw [CgiOutput.mediaType, CgiOutput.typeWithSubtype]
    simp
  have htext : out.mediaType = (out.typeWithSubtype ++ blanksBefore out.parameters) ++
      fromSemicolon out.parameters := by
    rw [CgiOutput.mediaType, render_parameters, List.append_assoc]
  obtain ⟨mediaType, hmedia⟩ := parseMediaType_ok h
  have hskip : skipWs out.mediaType (out.typeWithSubtype ++ blanksBefore out.parameters).length =
      (out.typeWithSubtype ++ blanksBefore out.parameters).length := by
    rw [htext]
    apply skipWs_none _
    cases out.parameters with
    | nil => simp [fromSemicolon]
    | cons p rest => simp [fromSemicolon, byteOf, isWs]
  have hcount : out.parameters.length < out.mediaType.length + 1 := by
    have hle := parameters_length_le out.parameters
    rw [CgiOutput.mediaType, List.length_append]
    omega
  obtain ⟨returned, result, hloop, hstatus⟩ := parametersLoop_ok out.parameters
    (out.typeWithSubtype ++ blanksBefore out.parameters) mediaType (out.mediaType.length + 1)
    h.parameters hcount
  rw [← htext] at hloop
  rw [CGIResponseParser.parseContentType, if_neg hne, hmedia]
  simp only [hskip, hloop, bind, Except.bind]
  cases returned with
  | none => exact ⟨_, _, rfl, rfl, rfl, rfl⟩
  | some status => exact ⟨_, _, rfl, hstatus status rfl, rfl, rfl⟩

end ContentType

section Header

private theorem isValidStatusCode_ok {s : StatusField} (h : s.WellFormed) :
    CGIResponseParser.isValidStatusCode s.code = true := by
  obtain ⟨a, b, c, hcode, hlo, hhi, hb, hc⟩ := h.digits
  have hlo' := UInt8.le_iff_toNat_le.mp hlo
  have hhi' := UInt8.le_iff_toNat_le.mp hhi
  simp only [isDigit, Bool.and_eq_true, decide_eq_true_eq, UInt8.le_iff_toNat_le] at hb hc
  simp only [UInt8.reduceToNat] at hlo' hhi' hb hc
  have ha : isDigit a = true := by
    simp only [isDigit, Bool.and_eq_true, decide_eq_true_eq, UInt8.le_iff_toNat_le,
      UInt8.reduceToNat]
    omega
  have hatoi : CGIResponseParser.atoi s.code =
      100 * (a.toNat - 48) + 10 * (b.toNat - 48) + (c.toNat - 48) := by
    rw [hcode]
    simp only [CGIResponseParser.atoi, List.foldl_cons, List.foldl_nil]
    omega
  have hdigits : isDigit b = true ∧ isDigit c = true := by
    simp only [isDigit, Bool.and_eq_true, decide_eq_true_eq, UInt8.le_iff_toNat_le,
      UInt8.reduceToNat]
    omega
  rw [CGIResponseParser.isValidStatusCode, hatoi]
  simp only [hcode, List.all_cons, ha, hdigits, List.all_nil, Bool.and_true, Bool.and_eq_true,
    decide_eq_true_eq, bne_iff_ne, ne_eq, List.cons_ne_nil, not_false_eq_true, true_and]
  omega

private theorem code_not_blank {s : StatusField} (h : s.WellFormed) : ∀ c ∈ s.code,
    c ≠ 32 ∧ c ≠ 13 ∧ c ≠ byteOf ':' ∧ isWs c = false := by
  obtain ⟨a, b, c, hcode, hlo, hhi, hb, hc⟩ := h.digits
  have hdigit : ∀ d, isDigit d = true → d ≠ 32 ∧ d ≠ 13 ∧ d ≠ byteOf ':' ∧ isWs d = false := by
    intro d hd
    refine ⟨?_, ?_, ?_, ?_⟩
    · rintro rfl; exact absurd hd (by decide)
    · rintro rfl; exact absurd hd (by decide)
    · rintro rfl; exact absurd hd (by decide)
    · rw [Bool.eq_false_iff]
      intro hws
      have hcases : d = 32 ∨ d = 9 := by simpa [isWs] using hws
      rcases hcases with rfl | rfl <;> exact absurd hd (by decide)
  have hvalid := isValidStatusCode_ok h
  simp only [CGIResponseParser.isValidStatusCode, Bool.and_eq_true, List.all_eq_true] at hvalid
  exact fun d hd => hdigit d (hvalid.1.1.2 d hd)

/-- A valid status is kept as it stands. -/
theorem parseStatus_ok {s : StatusField} (h : s.WellFormed) (request : Request) :
    CGIResponseParser.parseStatus s.text request =
      (.ok, { request with statusString := s.text }) := by
  have hblank := code_not_blank h
  have hhead : ∀ d ∈ s.text.head?, isWs d = false := by
    obtain ⟨a, b, c, hcode, _⟩ := h.digits
    intro d hd
    rw [StatusField.text, hcode] at hd
    obtain rfl : a = d := by simpa using hd
    exact (hblank a (by simp [hcode])).2.2.2
  have hskip : skipWs s.text 0 = 0 := skipWs_none [] hhead
  have hnot : (32 : UInt8) ∉ s.code := fun hmem => (hblank 32 hmem).1 rfl
  have htoken : (cutToken (bytes " ") (s.text.drop 0)).1 = s.code := by
    rw [List.drop_zero, StatusField.text]
    cases s.reason with
    | none =>
        have hnone : find (bytes " ") s.code = none := by
          rw [find_eq_none_iff]
          exact fun hin => hnot (hin.mem (by decide))
        rw [Option.elim_none, List.append_nil, cutToken, hnone]
    | some reason =>
        have hsome : find (bytes " ") (s.code ++ 32 :: reason) = some s.code.length :=
          find_single hnot reason
        rw [Option.elim_some, cutToken, hsome]
        exact List.take_left
  rw [CGIResponseParser.parseStatus, hskip, getTokenWithDelim_eq (Nat.zero_le _), htoken]
  simp [isValidStatusCode_ok h]

/-- What a field leaves of a request: no content, and a status that keeps to
its line. -/
def KeepsContent (request request' : Request) : Prop :=
  request'.contentData = request.contentData ∧
    ((13 : UInt8) ∉ request.statusString → (13 : UInt8) ∉ request'.statusString)

/-- A line of a header block with a field that is not refused. -/
structure Acceptable (line : Bytes) : Prop where
  no_cr : (13 : UInt8) ∉ line
  head : ∃ c more, line = c :: more ∧ crlf.contains c = false
  field : ∃ name value, line = name ++ bytes ": " ++ value ∧ byteOf ':' ∉ name ∧
    (∃ c more, value = c :: more ∧ c ∉ bytes ": ") ∧
    ∀ request, ∃ status request', CGIResponseParser.parseField ⟨name.map toLower, value⟩ request =
      .ok (status, request') ∧ status.isError = false ∧ KeepsContent request request'

private theorem Acceptable.read {line : Bytes} (h : Acceptable line) (front rest : Bytes)
    (request : Request) :
    ∃ field status request',
      readField (front ++ (line ++ (crlf ++ rest))) front.length =
        (field, (front ++ (line ++ (crlf ++ rest))).length - (behindLineEnds rest).length) ∧
      CGIResponseParser.parseField field request = .ok (status, request') ∧
      status.isError = false ∧ KeepsContent request request' := by
  obtain ⟨name, value, hline, hname, hhead, haccept⟩ := h.field
  have hvalue : (13 : UInt8) ∉ value := fun hmem => h.no_cr (by rw [hline]; simp [hmem])
  obtain ⟨status, request', hparse, hstatus, hkeeps⟩ := haccept request
  refine ⟨_, status, request', ?_, hparse, hstatus, hkeeps⟩
  have hunsplit : find (bytes ": ") name = none :=
    (find_eq_none_iff _ _).mpr fun hin => hname (hin.mem (by decide))
  have hstripped : value.dropWhile (fun c => (bytes ": ").contains c) = value := by
    obtain ⟨c, more, rfl, hc⟩ := hhead
    exact List.dropWhile_cons_of_neg (by simpa using hc)
  have hnext := nextField_line hunsplit hvalue rest
  rw [hstripped, ← List.append_assoc, ← hline] at hnext
  rw [readField_eq (by simp), List.drop_left, hnext]

/-- The last line: the loop ends behind it. -/
private theorem Acceptable.last {line : Bytes} (h : Acceptable line) (front more : Bytes)
    (headerEnd fuel : Nat) (hend : headerEnd ≤ front.length + line.length) (request : Request) :
    ∃ pos request',
      CGIResponseParser.headerLoop (front ++ (line ++ (crlf ++ (crlf ++ more)))) headerEnd
        (fuel + 1) front.length request = .ok (pos, .ok, request') ∧
      KeepsContent request request' := by
  obtain ⟨field, status, request', hread, hparse, hstatus, hkeeps⟩ :=
    h.read front (crlf ++ more) request
  have hlen := behindLineEnds_length (crlf ++ more)
  have hpos : ¬ (front ++ (line ++ (crlf ++ (crlf ++ more)))).length -
      (behindLineEnds (crlf ++ more)).length < headerEnd := by
    simp only [List.length_append, show crlf.length = 2 from rfl] at hlen ⊢
    omega
  refine ⟨(front ++ (line ++ (crlf ++ (crlf ++ more)))).length -
    (behindLineEnds (crlf ++ more)).length, request', ?_, hkeeps⟩
  rw [CGIResponseParser.headerLoop, hread]
  simp only [hparse, bind, Except.bind, hstatus, Bool.false_eq_true, if_false, hpos]
  rfl

/-- A line that another one follows. -/
private theorem Acceptable.next {line other : Bytes} (h : Acceptable line)
    (hother : Acceptable other) (rest : Bytes) (headerEnd fuel : Nat)
    (hend : line.length + 2 < headerEnd) (request : Request) :
    ∃ request',
      CGIResponseParser.headerLoop (line ++ (crlf ++ (other ++ rest))) headerEnd (fuel + 1) 0
          request =
        CGIResponseParser.headerLoop (line ++ (crlf ++ (other ++ rest))) headerEnd fuel
          (line ++ crlf).length request' ∧
      KeepsContent request request' := by
  obtain ⟨field, status, request', hread, hparse, hstatus, hkeeps⟩ :=
    h.read [] (other ++ rest) request
  obtain ⟨c, more, hcons, hc⟩ := hother.head
  have hbehind : behindLineEnds (other ++ rest) = other ++ rest := by
    rw [behindLineEnds, hcons, List.cons_append,
      List.dropWhile_cons_of_neg (by simpa using hc), if_neg (by simp)]
  have hpos : (line ++ (crlf ++ (other ++ rest))).length - (other ++ rest).length =
      (line ++ crlf).length := by
    simp only [List.length_append]
    omega
  have hlt : (line ++ crlf).length < headerEnd := by
    simpa [crlf] using hend
  rw [List.nil_append, List.length_nil, hbehind, hpos] at hread
  refine ⟨request', ?_, hkeeps⟩
  rw [CGIResponseParser.headerLoop, hread]
  simp only [hparse, bind, Except.bind, hstatus, Bool.false_eq_true, if_false, hlt, if_true]

/-- A block of one or two lines is accepted, however much has arrived behind it. -/
private theorem parseHeader_one {line : Bytes} (h : Acceptable line) (more : Bytes)
    (request : Request) :
    ∃ left request', (⟨line ++ (crlf ++ (crlf ++ more)), false⟩ : CGIResponseParser).parseHeader
        request = .ok (⟨left, true⟩, request', .ok) ∧ KeepsContent request request' := by
  obtain ⟨pos, request', hloop, hkeeps⟩ :=
    h.last [] more line.length (line ++ (crlf ++ (crlf ++ more))).length (by simp) request
  refine ⟨(line ++ (crlf ++ (crlf ++ more))).drop pos, request', ?_, hkeeps⟩
  rw [List.nil_append, List.length_nil] at hloop
  rw [CGIResponseParser.parseHeader, find_blank h.no_cr]
  simp only [hloop, bind, Except.bind]
  rfl

private theorem find_two {line other : Bytes} (h : Acceptable line) (hother : Acceptable other)
    (more : Bytes) :
    find (crlf ++ crlf) (line ++ (crlf ++ (other ++ (crlf ++ (crlf ++ more))))) =
      some (other.length + (line.length + 2)) := by
  obtain ⟨c, rest, hcons, hc⟩ := hother.head
  rw [find_blank_of_line h.no_cr, find_blank hother.no_cr, Option.map_some]
  rw [hcons]
  intro hhead
  obtain rfl : c = 13 := by simpa using hhead
  exact absurd hc (by decide)

private theorem parseHeader_two {line other : Bytes} (h : Acceptable line)
    (hother : Acceptable other) (more : Bytes) (request : Request) :
    ∃ left request', (⟨line ++ (crlf ++ other) ++ (crlf ++ (crlf ++ more)), false⟩ :
        CGIResponseParser).parseHeader request = .ok (⟨left, true⟩, request', .ok) ∧
      KeepsContent request request' := by
  have htext : line ++ (crlf ++ other) ++ (crlf ++ (crlf ++ more)) =
      line ++ (crlf ++ (other ++ (crlf ++ (crlf ++ more)))) := by simp
  obtain ⟨c, rest, hcons, hc⟩ := hother.head
  have hpos : 0 < other.length := by simp [hcons]
  obtain ⟨fuel, hfuel⟩ : ∃ fuel, (line ++ (crlf ++ (other ++ (crlf ++ (crlf ++ more))))).length =
      fuel + 1 := by
    refine ⟨(line ++ (crlf ++ (other ++ (crlf ++ (crlf ++ more))))).length - 1, ?_⟩
    simp only [List.length_append]
    omega
  obtain ⟨request', hfirst, hkeeps⟩ := h.next hother (crlf ++ (crlf ++ more))
    (other.length + (line.length + 2)) (fuel + 1) (by omega) request
  obtain ⟨pos, request'', hlast, hkeeps'⟩ := hother.last (line ++ crlf) more
    (other.length + (line.length + 2)) fuel
    (by simp only [List.length_append, show crlf.length = 2 from rfl]; omega) request'
  rw [List.append_assoc] at hlast
  refine ⟨(line ++ (crlf ++ (other ++ (crlf ++ (crlf ++ more))))).drop pos, request'', ?_,
    hkeeps'.1.trans hkeeps.1, hkeeps'.2 ∘ hkeeps.2⟩
  rw [htext, CGIResponseParser.parseHeader, find_two h hother]
  simp only [hfuel, hfirst, hlast, bind, Except.bind]
  rfl

end Header

section Feeding

variable {out : CgiOutput}

private theorem quotedText_no_cr (text : Bytes) (h : isQuotedText text = true) :
    (13 : UInt8) ∉ text := by
  induction text using isQuotedText.induct with
  | case1 => simp
  | case2 c rest ih =>
      rw [isQuotedText, Bool.and_eq_true] at h
      simp only [List.mem_cons, not_or]
      refine ⟨by decide, ?_, ih h.2⟩
      rintro rfl
      exact absurd h.1 (by decide)
  | case3 c rest _ ih =>
      rw [isQuotedText, Bool.and_eq_true] at h
      · rw [List.mem_cons, not_or]
        refine ⟨?_, ih h.2⟩
        rintro rfl
        exact absurd h.1 (by decide)
      · assumption

private theorem tokens_no_cr {text : Bytes} (h : ∀ c ∈ text, isTchar c = true) :
    (13 : UInt8) ∉ text :=
  fun hmem => (tchar_not (h 13 hmem)).2.2.2.1 (by decide)

private theorem blanks_no_cr {text : Bytes} (h : ∀ c ∈ text, isWs c = true) :
    (13 : UInt8) ∉ text :=
  fun hmem => absurd (h 13 hmem) (by decide)

private theorem Parameter.WellFormed.no_cr {p : Parameter} (h : p.WellFormed) :
    (13 : UInt8) ∉ p.render := by
  have hvalue : (13 : UInt8) ∉ p.value.text := by
    have hwf := h.value
    cases hkind : p.value with
    | token text =>
        rw [hkind] at hwf
        exact tokens_no_cr hwf.2
    | quoted text =>
        rw [hkind] at hwf
        have := quotedText_no_cr text hwf
        simp [ParameterValue.text, this]
  simp only [Parameter.render, Parameter.behind, List.mem_append, List.mem_cons, not_or]
  exact ⟨blanks_no_cr h.before_ws, by decide, blanks_no_cr h.after_ws, tokens_no_cr h.name_token,
    by decide, hvalue⟩

private theorem mediaType_no_cr (h : out.WellFormed) : (13 : UInt8) ∉ out.mediaType := by
  simp only [CgiOutput.mediaType, CgiOutput.typeWithSubtype, List.mem_append, List.mem_cons,
    List.mem_flatten, List.mem_map, not_or, not_exists, not_and]
  refine ⟨⟨tokens_no_cr h.type_token, by decide, tokens_no_cr h.subtype_token⟩, ?_⟩
  rintro _ ⟨p, hp, rfl⟩ hmem
  exact (h.parameters p hp).no_cr hmem

private theorem contentTypeLine_acceptable (h : out.WellFormed) :
    Acceptable out.contentTypeLine where
  no_cr := by
    rw [CgiOutput.contentTypeLine, List.mem_append, not_or]
    exact ⟨by decide, mediaType_no_cr h⟩
  head := ⟨byteOf 'C', bytes "ontent-Type: " ++ out.mediaType, rfl, by decide⟩
  field := by
    obtain ⟨c, type, htype⟩ := List.exists_cons_of_ne_nil h.type_ne
    have hmedia : out.mediaType = c :: (type ++ byteOf '/' :: out.subtype ++
        (out.parameters.map Parameter.render).flatten) := by
      rw [CgiOutput.mediaType, CgiOutput.typeWithSubtype, htype]
      rfl
    refine ⟨bytes "Content-Type", out.mediaType, rfl, by decide, ⟨c, _, hmedia, ?_⟩, ?_⟩
    · have hc := (tchar_not (h.type_token c (by simp [htype]))).2.1
      have hsub : ∀ d ∈ bytes ": ", d ∈ bytes "/=: " :=
        List.forall_iff_forall_mem.mp (by decide)
      exact fun hmem => hc (hsub c hmem)
    · intro request
      obtain ⟨status, request', hparse, hstatus, hdata, hstring⟩ := parseContentType_ok h request
      refine ⟨status, request', ?_, hstatus, hdata, fun hno => by rwa [hstring]⟩
      rw [CGIResponseParser.parseField,
        if_neg (show (bytes "Content-Type").map toLower ≠ bytes "status" by decide),
        if_pos (show (bytes "Content-Type").map toLower = bytes "content-type" by decide)]
      exact hparse

private theorem statusText_no_cr {s : StatusField} (h : s.WellFormed) :
    (13 : UInt8) ∉ s.text := by
  rw [StatusField.text, List.mem_append, not_or]
  refine ⟨fun hmem => (code_not_blank h 13 hmem).2.1 rfl, ?_⟩
  cases hreason : s.reason with
  | none => simp
  | some reason =>
      have := (h.reason_line reason hreason).1
      simp [this]

private theorem statusLine_acceptable {s : StatusField} (h : s.WellFormed) :
    Acceptable (CgiOutput.statusLine s) where
  no_cr := by
    rw [CgiOutput.statusLine, List.mem_append, not_or]
    exact ⟨by decide, statusText_no_cr h⟩
  head := ⟨byteOf 'S', bytes "tatus: " ++ s.text, rfl, by decide⟩
  field := by
    obtain ⟨a, b, c, hcode, _⟩ := h.digits
    refine ⟨bytes "Status", s.text, rfl, by decide, ⟨a, [b, c] ++ s.reason.elim [] (32 :: ·), ?_,
      ?_⟩, ?_⟩
    · rw [StatusField.text, hcode]
      rfl
    · obtain ⟨hspace, _, hcolon, _⟩ := code_not_blank h a (by simp [hcode])
      intro hmem
      have hcases : a = byteOf ':' ∨ a = 32 := by simpa [bytes, byteOf] using hmem
      exact hcases.elim hcolon hspace
    · intro request
      refine ⟨.ok, { request with statusString := s.text }, ?_, rfl, rfl,
        fun _ => statusText_no_cr h⟩
      rw [CGIResponseParser.parseField,
        if_pos (show (bytes "Status").map toLower = bytes "status" by decide)]
      exact congrArg Except.ok (parseStatus_ok h request)

/-- The whole header block is accepted, however much has arrived behind it. -/
private theorem parseHeader_ok (h : out.WellFormed) (more : Bytes) (request : Request) :
    ∃ left request', (⟨out.head ++ (crlf ++ (crlf ++ more)), false⟩ : CGIResponseParser).parseHeader
        request = .ok (⟨left, true⟩, request', .ok) ∧ KeepsContent request request' := by
  have htype := contentTypeLine_acceptable h
  rw [CgiOutput.head]
  cases hstatus : out.status with
  | none => exact parseHeader_one htype more request
  | some s =>
      have hline := statusLine_acceptable (h.status s hstatus)
      simp only
      split
      · exact parseHeader_two hline htype more request
      · exact parseHeader_two htype hline more request

private theorem find_head (h : out.WellFormed) (more : Bytes) :
    find (crlf ++ crlf) (out.head ++ (crlf ++ (crlf ++ more))) = some out.head.length := by
  have htype := contentTypeLine_acceptable h
  have htwo : ∀ {line other : Bytes}, Acceptable line → Acceptable other →
      find (crlf ++ crlf) (line ++ (crlf ++ other) ++ (crlf ++ (crlf ++ more))) =
        some (line ++ (crlf ++ other)).length := by
    intro line other hline hother
    have htext : line ++ (crlf ++ other) ++ (crlf ++ (crlf ++ more)) =
        line ++ (crlf ++ (other ++ (crlf ++ (crlf ++ more)))) := by simp
    rw [htext, find_two hline hother]
    simp only [List.length_append, show crlf.length = 2 from rfl]
    congr 1
    omega
  rw [CgiOutput.head]
  cases hstatus : out.status with
  | none => exact find_blank htype.no_cr more
  | some s =>
      have hline := statusLine_acceptable (h.status s hstatus)
      simp only
      split
      · exact htwo hline htype
      · exact htwo htype hline

/-- What the parser has made of the bytes it has seen: nothing before the end of
the header block, and then one content element with no type. -/
private def Fed (out : CgiOutput) (seen : Bytes) (p : CGIResponseParser) (request : Request) :
    Prop :=
  if out.head.length + 4 ≤ seen.length then
    p = ⟨[], true⟩ ∧ (∃ data, request.contentData = [{ data := data }]) ∧
      (13 : UInt8) ∉ request.statusString
  else p = ⟨seen, false⟩ ∧ request = cgiContextRequest

private theorem Fed.parse (h : out.WellFormed) {seen content : Bytes} {p : CGIResponseParser}
    {request : Request} (hfed : Fed out seen p request)
    (hpre : seen ++ content <+: out.text) :
    ∃ p' request' status, p.parse content request = .ok (p', request', status) ∧
      Fed out (seen ++ content) p' request' := by
  unfold Fed at hfed
  split at hfed
  · rename_i hpast
    obtain ⟨rfl, ⟨data, hdata⟩, hstring⟩ := hfed
    refine ⟨_, _, _, rfl, ?_⟩
    rw [Fed, if_pos (by rw [List.length_append]; omega)]
    refine ⟨rfl, ⟨data ++ content, ?_⟩, hstring⟩
    simp [hdata]
  · obtain ⟨rfl, rfl⟩ := hfed
    by_cases hpast : out.head.length + 4 ≤ (seen ++ content).length
    · -- the header block is complete
      obtain ⟨more, hmore⟩ : ∃ more, seen ++ content = out.head ++ (crlf ++ (crlf ++ more)) := by
        have hblock : out.head ++ (crlf ++ crlf) <+: seen ++ content := by
          refine List.prefix_of_prefix_length_le ⟨out.body, ?_⟩ hpre ?_
          · simp [CgiOutput.text]
          · simp only [List.length_append, show crlf.length = 2 from rfl] at hpast ⊢
            omega
        obtain ⟨more, hmore⟩ := hblock
        exact ⟨more, by rw [← hmore]; simp⟩
      obtain ⟨left, request', hparse, hdata, hstring⟩ := parseHeader_ok h more cgiContextRequest
      rw [← hmore] at hparse
      refine ⟨⟨[], true⟩, { request' with contentData := [{ data := left }] }, .ok, ?_, ?_⟩
      · have hnil : request'.contentData = [] := hdata
        simp [CGIResponseParser.parse, hparse, bind, Except.bind, pure, Except.pure,
          CGIResponseParser.parseBody, hnil]
      · rw [Fed, if_pos hpast]
        exact ⟨rfl, ⟨left, rfl⟩, hstring (by decide)⟩
    · have hnone : find (crlf ++ crlf) (seen ++ content) = none := by
        obtain ⟨rest, hrest⟩ := hpre
        have htake : seen ++ content = out.text.take (seen ++ content).length := by
          rw [← hrest, List.take_left]
        rw [htake]
        cases hfind : find (crlf ++ crlf) (out.text.take (seen ++ content).length) with
        | none => rfl
        | some k =>
            rw [find_take_eq_some_iff (by decide), CgiOutput.text, find_head h] at hfind
            obtain ⟨hk, hle⟩ := hfind
            cases hk
            exact absurd hle (by simpa [crlf] using hpast)
      refine ⟨⟨seen ++ content, false⟩, cgiContextRequest, .ok, ?_, ?_⟩
      · simp [CGIResponseParser.parse, CGIResponseParser.parseHeader, hnone, bind, Except.bind, pure,
          Except.pure]
      · rw [Fed, if_neg hpast]
        exact ⟨rfl, rfl⟩

private theorem Fed.parseAll (h : out.WellFormed) (pieces : List Bytes) :
    ∀ (seen : Bytes) (p : CGIResponseParser) (request : Request), Fed out seen p request →
      seen ++ pieces.flatten = out.text →
      ∃ p' request', p.parseAll request pieces = .ok (p', request') ∧
        Fed out out.text p' request' := by
  induction pieces with
  | nil =>
      intro seen p request hfed hseen
      rw [List.flatten_nil, List.append_nil] at hseen
      subst hseen
      exact ⟨p, request, rfl, hfed⟩
  | cons content pieces ih =>
      intro seen p request hfed hseen
      rw [List.flatten_cons, ← List.append_assoc] at hseen
      obtain ⟨p', request', status, hparse, hfed'⟩ := hfed.parse h ⟨_, hseen⟩
      obtain ⟨p'', request'', hall, hdone⟩ := ih _ p' request' hfed' hseen
      refine ⟨p'', request'', ?_, hdone⟩
      rw [CGIResponseParser.parseAll, hparse]
      exact hall

/-- Every valid output is parsed, in whatever pieces it arrives, into one
content element that has no type. -/
theorem parseAll_ok (h : out.WellFormed) {pieces : List Bytes}
    (hpieces : pieces.flatten = out.text) :
    ∃ p request data, CGIResponseParser.parseAll {} cgiContextRequest pieces = .ok (p, request) ∧
      request.contentData = [{ data := data }] ∧ (13 : UInt8) ∉ request.statusString := by
  have hstart : Fed out [] {} cgiContextRequest := by
    rw [Fed, if_neg (by simp)]
    exact ⟨rfl, rfl⟩
  obtain ⟨p, request, hall, hfed⟩ := Fed.parseAll h pieces [] {} cgiContextRequest hstart (by simpa using hpieces)
  rw [Fed, if_pos (by simp [CgiOutput.text, crlf])] at hfed
  obtain ⟨_, ⟨data, hdata⟩, hstring⟩ := hfed
  exact ⟨p, request, data, hall, hdata, hstring⟩

end Feeding

/-- The response to one content element without a type names no type. -/
theorem generateCgiResponse_untyped {config : Config} {r response : ServerResponse}
    (hheaders : r.headers = []) (hserver : ∀ name ∈ config.serverName, (13 : UInt8) ∉ name)
    {data : Bytes} (hdata : r.request.contentData = [{ data := data }])
    (hstring : (13 : UInt8) ∉ r.request.statusString)
    (hresponse : r.generateCgiResponse config = .ok response) :
    ∃ message, readMessage response.response = some message ∧
      message.values (bytes "content-type") = [[]] := by
  obtain ⟨name, hname, hclose⟩ := except_bind_eq_ok.mp hresponse
  have hserverFits := ServerResponse.serverField_fits hserver hname
  simp only [ServerResponse.header, hdata] at hclose
  cases hclose
  obtain ⟨startLine, hline, hne, hstart⟩ : ∃ startLine, (13 : UInt8) ∉ startLine ∧
      startLine ≠ [] ∧ bytes "HTTP/1.1" ++ (if r.request.statusString = [] then
        statusLine 200 (bytes "OK") else bytes " " ++ r.request.statusString ++ crlf) =
      startLine ++ crlf := by
    by_cases hempty : r.request.statusString = []
    · exact ⟨bytes "HTTP/1.1 200 OK", by decide, by decide, by rw [if_pos hempty]; decide⟩
    · refine ⟨bytes "HTTP/1.1 " ++ r.request.statusString, ?_, by simp [bytes], ?_⟩
      · rw [List.mem_append, not_or]
        exact ⟨by decide, hstring⟩
      · rw [if_neg hempty]
        simp [bytes]
  have hfields : ∀ field ∈ [(bytes "server", name), (bytes "content-type", []),
      (bytes "content-length", decimal data.length)], FitsLine field := by
    intro field hfield
    simp only [List.mem_cons, List.not_mem_nil, or_false] at hfield
    rcases hfield with rfl | rfl | rfl
    · exact hserverFits
    · exact ServerResponse.fitsLine_of_isPlainField (by decide)
    · exact ServerResponse.fitsLine_of_isPlainField (ServerResponse.decimal_plain _)
  have hread := readMessage_render (no_crlf_of_line hline) hne hfields data
  refine ⟨_, Eq.trans (congrArg readMessage ?_) hread, rfl⟩
  rw [hstart, hheaders]
  simp [renderFields, renderField]

namespace CgiOutput

/-- No output of a CGI program passes through: the response has one
`content-type`, and it is empty. -/
theorem not_passesThrough {config : Config}
    (hserver : ∀ name ∈ config.serverName, (13 : UInt8) ∉ name) (status : Status)
    (fileSystem : FileSystem) (sessionStore : SessionStore) {out : CgiOutput}
    (hout : out.WellFormed) {pieces : List Bytes} (hpieces : pieces.flatten = out.text) :
    ¬ PassesThrough config status fileSystem sessionStore out pieces := by
  rintro ⟨parser, request, response, message, hparse, hresponse, hread, ⟨value, hvalue, htype⟩, _⟩
  obtain ⟨parser', request', data, hparse', hdata, hstring⟩ := parseAll_ok hout hpieces
  rw [hparse'] at hparse
  cases hparse
  obtain ⟨message', hread', hvalues⟩ := generateCgiResponse_untyped rfl hserver hdata hstring
    hresponse
  rw [hread] at hread'
  cases hread'
  rw [hvalues, List.mem_singleton] at hvalue
  subst hvalue
  rcases htype with hnil | hnil
  · rw [CgiOutput.mediaType, typeWithSubtype] at hnil
    simp at hnil
  · rw [typeWithSubtype] at hnil
    simp at hnil

/-- `Content-Type: text/html` and a body. -/
def page : CgiOutput where
  type := bytes "text"
  subtype := bytes "html"
  body := bytes "hello"

private theorem page_wellFormed : page.WellFormed where
  type_ne := by decide
  type_token := List.forall_iff_forall_mem.mp (by decide)
  subtype_ne := by decide
  subtype_token := List.forall_iff_forall_mem.mp (by decide)
  parameters := by simp [page]
  status := by simp [page]

def namedServer : Config := { serverName := [bytes "a"] }

def emptyFileSystem : FileSystem where
  node _ := none
  readable _ := false
  appendable _ := false
  removable _ := false

theorem not_passesThrough_page :
    ¬ PassesThrough namedServer .ok emptyFileSystem {} page [page.text] :=
  not_passesThrough (by decide) .ok emptyFileSystem {} page_wellFormed (by simp)

/-- What the receiver of a response reads, when the pieces are all parsed. -/
def received (pieces : List Bytes) : Except Fault (Option Message) := do
  let (_, request) ← CGIResponseParser.parseAll {} cgiContextRequest pieces
  let response ← (ServerResponse.create .ok request emptyFileSystem {} false).generateCgiResponse
    namedServer
  pure (readMessage response.response)

private theorem received_page : received [page.text] = .ok (some {
    startLine := bytes "HTTP/1.1 200 OK"
    fields := [(bytes "server", bytes "a"), (bytes "content-type", []),
      (bytes "content-length", bytes "5")]
    body := bytes "hello" }) := by
  decide +kernel

/-- The page arrives whole, under an empty `content-type`. -/
theorem page_arrives_untyped :
    page.WellFormed ∧ ¬ PassesThrough namedServer .ok emptyFileSystem {} page [page.text] := by
  refine ⟨page_wellFormed, ?_⟩
  rintro ⟨parser, request, response, message, hparse, hresponse, hread, ⟨value, hvalue, htype⟩, _⟩
  have hreceived := received_page
  simp only [received, hparse, bind, Except.bind, hresponse, hread, pure, Except.pure,
    Except.ok.injEq, Option.some.injEq] at hreceived
  subst hreceived
  have hvalues : Message.values {
      startLine := bytes "HTTP/1.1 200 OK"
      fields := [(bytes "server", bytes "a"), (bytes "content-type", []),
        (bytes "content-length", bytes "5")]
      body := bytes "hello" } (bytes "content-type") = [[]] := by decide
  rw [hvalues, List.mem_singleton] at hvalue
  subst hvalue
  exact absurd htype (by decide)

end CgiOutput

end FortyTwo.Webserv
