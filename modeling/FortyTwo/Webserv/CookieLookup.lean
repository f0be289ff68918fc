import FortyTwo.Foundation.Trimming
import FortyTwo.Webserv.ConfigParser
import FortyTwo.Webserv.HeaderFields

/-!
`parse_cookie` (`RequestHeaderParser.cpp`): which of the cookies of a field gives
the session. The key is searched for in the field as a whole.
-/

namespace FortyTwo.Webserv

open Foundation ConfigParser

namespace RequestHeaderParser

def sessionKey : Bytes := bytes "session_id="

def parseCookie (fieldValue : Bytes) (request : Request) : Status × Request :=
  match find sessionKey fieldValue with
  | none => (.ok, request)
  | some pos =>
      let pos := pos + sessionKey.length
      let value :=
        match findFrom [byteOf ';'] fieldValue pos with
        | none => fieldValue.drop pos
        | some stop => (fieldValue.drop pos).take (stop - pos)
      (.ok, { request with sessionId := trim isSpace value })

end RequestHeaderParser

open RequestHeaderParser

/-- A pair `name=value`. -/
structure Cookie where
  name : Bytes
  value : Bytes
  name_ne : name ≠ []
  name_token : ∀ c ∈ name, isTchar c = true
  value_free : byteOf ';' ∉ value
  value_bare : Bare isWs value

namespace Cookie

def text (c : Cookie) : Bytes := c.name ++ byteOf '=' :: c.value

def isSession (c : Cookie) : Bool := c.name == bytes "session_id"

/-- The key stands in the cookie: at the end of its name, or inside its value. -/
def mentions (c : Cookie) : Bool := (find sessionKey c.text).isSome

/-- Behind the first key in the cookie stands this value, with nothing but
whitespace around it. -/
def Carries (c : Cookie) (value : Bytes) : Prop :=
  Bare isSpace value ∧ ∃ front left right,
    c.text = front ++ (sessionKey ++ (left ++ (value ++ right))) ∧
    find sessionKey c.text = some front.length ∧
    (∀ b ∈ left, isSpace b = true) ∧ ∀ b ∈ right, isSpace b = true

end Cookie

/-- The cookies with `"; "` between them. -/
def renderCookies : List Cookie → Bytes
  | [] => []
  | [c] => c.text
  | c :: next :: rest => c.text ++ (bytes "; " ++ renderCookies (next :: rest))

/-- The request with the session of the first cookie that is named so. -/
def withSession (cookies : List Cookie) (request : Request) : Request :=
  match cookies.find? Cookie.isSession with
  | some c => { request with sessionId := c.value }
  | none => request

/-- The field gives the session that its cookies name. -/
def LooksUp (cookies : List Cookie) : Prop :=
  ∀ request, parseCookie (renderCookies cookies) request = (.ok, withSession cookies request)

section Search

variable {c : Cookie}

/-- What stands behind the key in the text up to the end of its cookie. -/
private def behindKey (text : Bytes) : Option Bytes :=
  (find sessionKey text).map fun pos =>
    (text.drop (pos + sessionKey.length)).takeWhile (· != byteOf ';')

/-- The text up to its first `;`. -/
private theorem takeWhile_of_find (text : Bytes) :
    text.takeWhile (· != byteOf ';') = text.take ((find [byteOf ';'] text).getD text.length) := by
  induction text with
  | nil => rfl
  | cons b text ih =>
      by_cases hb : b = byteOf ';'
      · subst hb
        rfl
      · have hnot : ¬ [byteOf ';'].isPrefixOf (b :: text) = true := by
          simpa [List.isPrefixOf] using fun h => hb h.symm
        rw [List.takeWhile_cons, if_pos (by simpa using hb), ih, find, if_neg hnot]
        cases find [byteOf ';'] text <;> simp

theorem parseCookie_eq (fieldValue : Bytes) (request : Request) :
    parseCookie fieldValue request = (.ok,
      ((behindKey fieldValue).map fun value =>
        { request with sessionId := trim isSpace value }).getD request) := by
  rw [parseCookie, behindKey]
  cases hkey : find sessionKey fieldValue with
  | none => rfl
  | some pos =>
      have hle := find_add_length_le hkey
      simp only [Option.map_some, Option.getD_some, takeWhile_of_find]
      rw [findFrom, if_neg (by omega)]
      cases find [byteOf ';'] (fieldValue.drop (pos + sessionKey.length)) with
      | none => simp only [Option.map_none, Option.getD_none, List.take_length]
      | some stop => simp

private theorem takeWhile_free {text : Bytes} (h : byteOf ';' ∉ text) (more : Bytes)
    (hmore : more = [] ∨ more.head? = some (byteOf ';')) :
    (text ++ more).takeWhile (· != byteOf ';') = text := by
  have hall : ∀ b ∈ text, (b != byteOf ';') = true := by
    intro b hb
    simp only [bne_iff_ne, ne_eq]
    rintro rfl
    exact h hb
  rw [List.takeWhile_append_of_pos hall]
  rcases hmore with rfl | hhead
  · simp
  · obtain ⟨rest, rfl⟩ := List.head?_eq_some_iff.mp hhead
    simp

namespace Cookie

theorem text_free (c : Cookie) : byteOf ';' ∉ c.text := by
  have hname : byteOf ';' ∉ c.name := by
    intro hmem
    exact absurd (c.name_token _ hmem) (by decide)
  have heq : byteOf ';' ≠ byteOf '=' := by decide
  simp [text, hname, c.value_free, heq]

/-- A key that stands in the first cookie is the first of the field. -/
private theorem behindKey_of_some (c : Cookie) (rest : Bytes) {k : Nat}
    (hkey : find sessionKey c.text = some k) :
    behindKey (c.text ++ byteOf ';' :: rest) = behindKey c.text := by
  have hle := find_add_length_le hkey
  have hfree : byteOf ';' ∉ c.text.drop (k + sessionKey.length) :=
    fun h => c.text_free (List.drop_subset _ _ h)
  have halone := takeWhile_free hfree [] (Or.inl rfl)
  rw [List.append_nil] at halone
  rw [behindKey, find_append_of_some _ hkey, behindKey, hkey, Option.map_some, Option.map_some,
    List.drop_append_of_le_length hle, takeWhile_free hfree _ (Or.inr rfl), halone]

/-- Where there is none, the first of the others is. -/
private theorem behindKey_of_none (c : Cookie) (rest : Bytes)
    (hkey : find sessionKey c.text = none) :
    behindKey (c.text ++ byteOf ';' :: ([byteOf ' '] ++ rest)) = behindKey rest := by
  have hne : sessionKey ≠ [] := by decide
  have hsemicolon : byteOf ';' ∉ sessionKey := by decide
  have hspace : byteOf 's' ∉ [byteOf ' '] := by decide
  have hfirst := find_append_cons_of_none hne hsemicolon ([byteOf ' '] ++ rest) hkey
  have hbehind : find sessionKey ([byteOf ' '] ++ rest) = (find sessionKey rest).map (· + 1) :=
    find_append_of_not_mem hspace _ rest
  have hsplit : c.text ++ byteOf ';' :: ([byteOf ' '] ++ rest) =
      (c.text ++ [byteOf ';', byteOf ' ']) ++ rest := by simp
  rw [behindKey, hfirst, hbehind, behindKey, Option.map_map, Option.map_map]
  congr 1
  funext k
  have hlen : k + 1 + (c.text.length + 1) + sessionKey.length =
      (c.text ++ [byteOf ';', byteOf ' ']).length + (k + sessionKey.length) := by
    simp
    omega
  simp only [Function.comp]
  rw [hsplit, hlen, ← List.drop_drop, List.drop_left]

/-- The first key of the field stands in its first cookie, or in the others. -/
theorem behindKey_cons (c : Cookie) (cookies : List Cookie) :
    behindKey (renderCookies (c :: cookies)) =
      (behindKey c.text).or (behindKey (renderCookies cookies)) := by
  cases cookies with
  | nil => simp [renderCookies, behindKey, show find sessionKey [] = none from rfl]
  | cons next cookies =>
      have hfield : renderCookies (c :: next :: cookies) =
          c.text ++ byteOf ';' :: ([byteOf ' '] ++ renderCookies (next :: cookies)) := rfl
      rw [hfield]
      generalize renderCookies (next :: cookies) = rest
      cases hkey : find sessionKey c.text with
      | some k =>
          rw [behindKey_of_some c _ hkey, behindKey, hkey]
          rfl
      | none =>
          have hnone : behindKey c.text = none := by rw [behindKey, hkey, Option.map_none]
          rw [behindKey_of_none c rest hkey, hnone, Option.none_or]

theorem behindKey_renderCookies (cookies : List Cookie) :
    behindKey (renderCookies cookies) =
      (cookies.find? mentions).bind (fun c => behindKey c.text) := by
  induction cookies with
  | nil => rfl
  | cons c cookies ih =>
      rw [behindKey_cons, ih, List.find?_cons, mentions, behindKey]
      cases hkey : find sessionKey c.text with
      | none => rfl
      | some k => simp [behindKey, hkey]

/-- A cookie that is named so has the key at its front. -/
theorem find_of_isSession {c : Cookie} (h : c.isSession = true) :
    find sessionKey c.text = some 0 := by
  rw [find_eq_zero_iff, text, beq_iff_eq.mp h]
  exact ⟨c.value, rfl⟩

/-- What `parse_cookie` takes from a cookie that has the key in it. -/
theorem carries_iff {c : Cookie} {k : Nat} (hkey : find sessionKey c.text = some k)
    (value : Bytes) :
    c.Carries value ↔ (behindKey c.text).map (trim isSpace) = some value := by
  have hfree : byteOf ';' ∉ c.text.drop (k + sessionKey.length) :=
    fun h => c.text_free (List.drop_subset _ _ h)
  have hbehind := takeWhile_free hfree [] (Or.inl rfl)
  rw [List.append_nil] at hbehind
  rw [behindKey, hkey, Option.map_some, Option.map_some, Option.some.injEq, hbehind, trim_eq_iff,
    Carries]
  constructor
  · rintro ⟨hbare, front, left, right, htext, hfront, hleft, hright⟩
    rw [hkey, Option.some.injEq] at hfront
    refine ⟨hbare, left, right, ?_, hleft, hright⟩
    rw [htext, hfront, ← List.drop_drop, List.drop_left, List.drop_left]
  · rintro ⟨hbare, left, right, hrest, hleft, hright⟩
    obtain ⟨rest, hpre⟩ := prefix_of_find hkey
    have hle := find_add_length_le hkey
    refine ⟨hbare, c.text.take k, left, right, ?_, ?_, hleft, hright⟩
    · rw [← hrest, ← List.drop_drop, ← hpre, List.drop_left, hpre, List.take_append_drop]
    · rw [hkey, List.length_take, Nat.min_eq_left (by omega)]

end Cookie

private theorem withSession_none {cookies : List Cookie}
    (h : cookies.find? Cookie.isSession = none) (request : Request) :
    withSession cookies request = request := by
  rw [withSession, h]

/-- The field gives the right session exactly when the first cookie that has the
key in it carries the value of the first one that is named so. -/
theorem looksUp_iff (cookies : List Cookie) :
    LooksUp cookies ↔ ∀ c, cookies.find? Cookie.mentions = some c →
      ∃ d, cookies.find? Cookie.isSession = some d ∧ c.Carries d.value := by
  unfold LooksUp
  simp only [parseCookie_eq, Cookie.behindKey_renderCookies, Prod.mk.injEq, true_and]
  cases hfirst : cookies.find? Cookie.mentions with
  | none =>
      have hnone : cookies.find? Cookie.isSession = none := by
        rw [List.find?_eq_none] at hfirst ⊢
        intro c hc hsession
        exact hfirst c hc (by rw [Cookie.mentions, Cookie.find_of_isSession hsession]; rfl)
      simp [withSession_none hnone]
  | some c =>
      have hmentions : c.mentions = true := List.find?_some hfirst
      obtain ⟨k, hkey⟩ := Option.isSome_iff_exists.mp hmentions
      simp only [Option.bind_some, Option.some.injEq, forall_eq', Cookie.carries_iff hkey]
      rw [behindKey, hkey]
      simp only [Option.map_some, Option.getD_some, Option.some.injEq]
      generalize trim isSpace _ = found
      cases hsession : cookies.find? Cookie.isSession with
      | none =>
          simp only [withSession_none hsession, reduceCtorEq, false_and, exists_false, iff_false]
          intro hsame
          have hlen := congrArg (fun r : Request => r.sessionId.length)
            (hsame { sessionId := 0 :: found })
          simp at hlen
      | some d =>
          simp only [withSession, hsession, Option.some.injEq, exists_eq_left']
          constructor
          · exact fun hsame => congrArg Request.sessionId (hsame {})
          · rintro rfl
            exact fun _ => rfl

/-- A cookie that only ends like the session's name, in front of that one. -/
private def nearlySession : Cookie where
  name := bytes "xsession_id"
  value := bytes "1"
  name_ne := by decide
  name_token := by decide +kernel
  value_free := by decide
  value_bare := ⟨by decide +kernel, by decide +kernel⟩

private def session : Cookie where
  name := bytes "session_id"
  value := bytes "2"
  name_ne := by decide
  name_token := by decide +kernel
  value_free := by decide
  value_bare := ⟨by decide +kernel, by decide +kernel⟩

theorem not_looksUp_nearly : ¬ LooksUp [nearlySession, session] := by
  intro h
  have hsame := congrArg (fun r : Status × Request => r.2.sessionId) (h {})
  revert hsame
  decide

end Search

end FortyTwo.Webserv
