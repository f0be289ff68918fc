import Mathlib.Data.List.TakeWhile
import FortyTwo.Webserv.RequestHeader

/-!
Which header blocks `parse_complete_header` reads field by field. The
tokeniser is first seen as a function of the bytes that are left.
-/

namespace FortyTwo.Webserv

open Foundation

/-- The token at the front of a text and what is left behind the delimiters. -/
def cutToken (delim text : Bytes) : Bytes × Bytes :=
  match find delim text with
  | none => (text, [])
  | some stop =>
      (text.take stop,
        if (text.drop stop).dropWhile (fun c => delim.contains c) = [] then text.drop stop
        else (text.drop stop).dropWhile (fun c => delim.contains c))

theorem cutToken_suffix (delim text : Bytes) : (cutToken delim text).2 <:+ text := by
  unfold cutToken
  cases find delim text with
  | none => exact List.nil_suffix
  | some stop =>
      simp only
      split
      · exact List.drop_suffix _ _
      · exact (List.dropWhile_suffix _).trans (List.drop_suffix _ _)

theorem getTokenWithDelim_eq {data : Bytes} {start : Nat} (h : start ≤ data.length)
    (delim : Bytes) :
    getTokenWithDelim data start delim true = ((cutToken delim (data.drop start)).1,
      data.length - (cutToken delim (data.drop start)).2.length) := by
  have hlen : (data.drop start).length = data.length - start := List.length_drop
  unfold getTokenWithDelim findFrom cutToken
  rw [if_neg (by omega)]
  cases hfind : find delim (data.drop start) with
  | none =>
      simp only [Option.map_none, List.length_nil, Prod.mk.injEq, true_and]
      omega
  | some stop =>
      have hstop := find_add_length_le hfind
      have hdrop : data.drop (stop + start) = (data.drop start).drop stop := by
        rw [List.drop_drop, Nat.add_comm]
      simp only [Option.map_some, if_true, Nat.add_sub_cancel]
      rw [findFirstNotOf_eq delim data (stop + start) (by omega), hdrop]
      by_cases hall : ((data.drop start).drop stop).dropWhile (fun c => delim.contains c) = []
      · simp only [if_pos hall, Prod.mk.injEq, true_and, List.length_take, List.length_drop]
        omega
      · simp only [if_neg hall]

/-- The field at the front of a text and what is left behind its line. -/
def nextField (text : Bytes) : VisitedField × Bytes :=
  let (fieldType, rest) := cutToken (bytes ": ") text
  let (fieldValue, rest) := cutToken crlf rest
  (⟨fieldType.map toLower, fieldValue⟩, rest)

private theorem find_colon_blank {name : Bytes} (h : find (bytes ": ") name = none)
    (rest : Bytes) : find (bytes ": ") (name ++ (bytes ": " ++ rest)) = some name.length := by
  induction name with
  | nil => exact (find_eq_zero_iff _ _).mpr (List.prefix_append _ _)
  | cons c name ih =>
      rw [find] at h
      split at h
      · cases h
      · rename_i hnot
        have hskip : ¬ (bytes ": ").isPrefixOf (c :: (name ++ (bytes ": " ++ rest))) = true := by
          intro hpre
          apply hnot
          cases name with
          | nil =>
              have hblank : byteOf ' ' = byteOf ':' := by
                have hpre' := (List.isPrefixOf_iff_prefix.mp hpre)
                obtain ⟨more, hmore⟩ := hpre'
                exact (List.cons.inj (List.cons.inj hmore).2).1
              exact absurd hblank (by decide)
          | cons d name =>
              obtain ⟨more, hmore⟩ := List.isPrefixOf_iff_prefix.mp hpre
              obtain ⟨rfl, htail⟩ := List.cons.inj hmore
              obtain ⟨rfl, _⟩ := List.cons.inj htail
              rfl
        rw [List.cons_append, find, if_neg hskip, ih (Option.map_eq_none_iff.mp h)]
        rfl

/-- What is left behind the line ends, or with them if nothing else is. -/
def behindLineEnds (rest : Bytes) : Bytes :=
  if rest.dropWhile (fun c => crlf.contains c) = [] then crlf ++ rest
  else rest.dropWhile (fun c => crlf.contains c)

theorem behindLineEnds_length (rest : Bytes) :
    (behindLineEnds rest).length ≤ rest.length + 2 := by
  rw [behindLineEnds]
  split
  · simp [crlf]
  · exact (List.dropWhile_suffix _).length_le.trans (by omega)

/-- `name ": " value` on a line of its own: colons and blanks in front of the
value are skipped. -/
theorem nextField_line {name value : Bytes} (hname : find (bytes ": ") name = none)
    (hvalue : 13 ∉ value) (rest : Bytes) :
    nextField (name ++ bytes ": " ++ (value ++ (crlf ++ rest))) =
      (⟨name.map toLower, value.dropWhile (fun c => (bytes ": ").contains c)⟩,
        behindLineEnds rest) := by
  have hskip : (bytes ": " ++ (value ++ (crlf ++ rest))).dropWhile
      (fun c => (bytes ": ").contains c) =
        value.dropWhile (fun c => (bytes ": ").contains c) ++ (crlf ++ rest) := by
    have hcr : (crlf ++ rest).dropWhile (fun c => (bytes ": ").contains c) = crlf ++ rest := rfl
    rw [List.dropWhile_append_of_pos (fun d hd => by simpa using hd), List.dropWhile_append]
    split
    · rename_i hempty
      rw [hcr, List.isEmpty_iff.mp hempty, List.nil_append]
    · rfl
  have hfirst : cutToken (bytes ": ") (name ++ bytes ": " ++ (value ++ (crlf ++ rest))) =
      (name, value.dropWhile (fun c => (bytes ": ").contains c) ++ (crlf ++ rest)) := by
    rw [List.append_assoc, cutToken, find_colon_blank hname]
    simp only [List.take_left, List.drop_left, hskip]
    rw [if_neg (by simp [crlf])]
  have hread : (13 : UInt8) ∉ value.dropWhile (fun c => (bytes ": ").contains c) :=
    fun hmem => hvalue ((List.dropWhile_suffix _).mem hmem)
  have hends : (crlf ++ rest).dropWhile (fun c => crlf.contains c) =
      rest.dropWhile (fun c => crlf.contains c) :=
    List.dropWhile_append_of_pos fun d hd => by simpa using hd
  have hsecond : cutToken crlf (value.dropWhile (fun c => (bytes ": ").contains c) ++
      (crlf ++ rest)) =
        (value.dropWhile (fun c => (bytes ": ").contains c), behindLineEnds rest) := by
    rw [cutToken, find_crlf_of_line hread]
    simp only [List.take_left, List.drop_left, hends, behindLineEnds]
  simp only [nextField, hfirst, hsecond]

theorem nextField_suffix (text : Bytes) : (nextField text).2 <:+ text :=
  (cutToken_suffix crlf _).trans (cutToken_suffix (bytes ": ") text)

private theorem drop_of_suffix {rest text : Bytes} (h : rest <:+ text) :
    text.drop (text.length - rest.length) = rest := by
  obtain ⟨before, rfl⟩ := h
  rw [List.length_append, Nat.add_sub_cancel, List.drop_left]

theorem readField_eq {buffer : Bytes} {pos : Nat} (h : pos ≤ buffer.length) :
    readField buffer pos = ((nextField (buffer.drop pos)).1,
      buffer.length - (nextField (buffer.drop pos)).2.length) := by
  have hsuffix := (cutToken_suffix (bytes ": ") (buffer.drop pos)).trans (List.drop_suffix _ _)
  simp only [readField, nextField, getTokenWithDelim_eq h, getTokenWithDelim_eq (Nat.sub_le _ _),
    drop_of_suffix hsuffix]

/-- A token character. -/
def isTchar (c : UInt8) : Bool := isAlpha c || isDigit c || (bytes "!#$%&'*+-.^_`|~").contains c

/-- `name ":" OWS value OWS`. -/
structure HeaderLine where
  name : Bytes
  before : Bytes := []
  value : Bytes := []
  after : Bytes := []
  deriving DecidableEq, Repr

namespace HeaderLine

/-- Blanks alone are taken to stand before the value. -/
structure WellFormed (l : HeaderLine) : Prop where
  name_ne : l.name ≠ []
  name_token : ∀ c ∈ l.name, isTchar c = true
  before_ws : ∀ c ∈ l.before, isWs c = true
  after_ws : ∀ c ∈ l.after, isWs c = true
  value_line : NoLineEnd l.value
  value_head : ∀ c ∈ l.value.head?, isWs c = false
  value_last : ∀ c ∈ l.value.getLast?, isWs c = false
  value_nil : l.value = [] → l.after = []

def padded (l : HeaderLine) : Bytes := l.before ++ l.value ++ l.after

/-- The text behind the colon without the spaces and colons in front. -/
def shown (l : HeaderLine) : Bytes := l.padded.dropWhile (fun c => (bytes ": ").contains c)

def render (l : HeaderLine) : Bytes := l.name ++ byteOf ':' :: l.padded

def fieldType (l : HeaderLine) : Bytes := l.name.map toLower

/-- A space comes right after the colon. -/
def Spaced (l : HeaderLine) : Prop := l.before.head? = some 32

/-- The value begins and ends where the tokeniser cuts it: spaces only before
it, nothing behind it, no colon at its front, and some text if the line is the
last one. -/
def CutAtValue (l : HeaderLine) (isLast : Bool) : Prop :=
  (∀ c ∈ l.before, c = 32) ∧ l.after = [] ∧ l.value.head? ≠ some (byteOf ':') ∧
    (isLast = true → l.value ≠ [])

end HeaderLine

/-- The lines as they stand in the buffer. -/
def joinLines : List HeaderLine → Bytes
  | [] => []
  | [l] => l.render
  | l :: next :: rest => l.render ++ (crlf ++ joinLines (next :: rest))

/-- A request head. -/
def renderHead (requestLine : Bytes) (lines : List HeaderLine) : Bytes :=
  requestLine ++ crlf ++ (lines.map (fun l => l.render ++ crlf)).flatten ++ crlf

/-- The field is the one of the line, with its value if the field is known. -/
def Follows (l : HeaderLine) (field : VisitedField) : Prop :=
  field.fieldType = l.fieldType ∧
    (getFieldType field.fieldType ≠ none → field.fieldValue = l.value)

/-- What the loop asks of the lines: a space after each colon; values of known
fields where the tokeniser cuts them; and no known field refused before the
last line. -/
def LineByLine (parsers : FieldParsers) : List HeaderLine → Request → Prop
  | [], _ => True
  | l :: rest, request => l.Spaced ∧
      match getFieldType l.fieldType with
      | none => LineByLine parsers rest request
      | some fieldType => l.CutAtValue rest.isEmpty ∧
          ∃ status request', parsers fieldType l.value request = .ok (status, request') ∧
            (rest ≠ [] → status.isError = false ∧ LineByLine parsers rest request')

section Line

variable {l : HeaderLine}

/-- A token character is none of the characters that no token has. -/
theorem tchar_not_mem {c : UInt8} (h : isTchar c = true) {delims : Bytes}
    (hdelims : delims.all (fun d => !isTchar d) = true) : c ∉ delims := by
  intro hmem
  have hnot := List.all_eq_true.mp hdelims c hmem
  rw [h] at hnot
  cases hnot

private theorem tchar_facts {c : UInt8} (h : isTchar c = true) :
    c ≠ 58 ∧ c ≠ 32 ∧ c ≠ 9 ∧ c ≠ 13 ∧ c ≠ 10 := by
  have hnot : c ∉ ([58, 32, 9, 13, 10] : Bytes) := tchar_not_mem h (by decide)
  simpa using hnot

theorem tchar_not_ws {c : UInt8} (hc : isTchar c = true) : isWs c = false := by
  have hfacts := tchar_facts hc
  simp [isWs, hfacts.2.1, hfacts.2.2.1]

private theorem ws_cases {c : UInt8} (h : isWs c = true) : c = 32 ∨ c = 9 := by
  simpa [isWs] using h

private theorem toLower_eq_colon {c : UInt8} (h : toLower c = 58) : c = 58 := by
  unfold toLower at h
  split at h
  · rename_i hupper
    have hlo := UInt8.le_iff_toNat_le.mp hupper.1
    have hhi := UInt8.le_iff_toNat_le.mp hupper.2
    have hsum := congrArg UInt8.toNat h
    rw [UInt8.toNat_add] at hsum
    simp only [UInt8.reduceToNat] at hlo hhi hsum
    omega
  · exact h

private theorem colon_not_mem_fieldType (h : l.WellFormed) : byteOf ':' ∉ l.fieldType := by
  intro hmem
  obtain ⟨c, hc, hlower⟩ := List.mem_map.mp hmem
  exact (tchar_facts (h.name_token c hc)).1 (toLower_eq_colon hlower)

private theorem no_cr_padded (h : l.WellFormed) : (13 : UInt8) ∉ l.padded := by
  simp only [HeaderLine.padded, List.mem_append, not_or]
  refine ⟨⟨?_, h.value_line.1⟩, ?_⟩
  · intro hc
    exact absurd (h.before_ws _ hc) (by decide)
  · intro hc
    exact absurd (h.after_ws _ hc) (by decide)

/-- What the tokeniser takes for the value: the text behind the colon without
the spaces and colons in front, or with all of them if nothing follows. -/
private def valueRead (l : HeaderLine) (tail : Bytes) : Bytes :=
  if l.shown = [] ∧ tail = [] then byteOf ':' :: l.padded else l.shown

/-- What can stand behind a line: nothing, or a line end and another line. -/
private def EndsLine (tail next : Bytes) : Prop :=
  (tail = [] ∧ next = []) ∨
    (tail = crlf ++ next ∧ ∃ c rest, next = c :: rest ∧ crlf.contains c = false)

private theorem find_colon (h : l.WellFormed) (tail : Bytes) :
    find (bytes ": ") (l.render ++ tail) =
      (find (bytes ": ") (byteOf ':' :: (l.padded ++ tail))).map (· + l.name.length) := by
  have hcolon : byteOf ':' ∉ l.name := fun hc => (tchar_facts (h.name_token _ hc)).1 rfl
  have hsplit := find_append_of_not_mem hcolon [32] (byteOf ':' :: (l.padded ++ tail))
  rw [HeaderLine.render, List.append_assoc, List.cons_append]
  exact hsplit

private theorem head_of_ends {tail next : Bytes} (htail : EndsLine tail next) :
    tail.head? ≠ some 32 := by
  rcases htail with ⟨rfl, _⟩ | ⟨rfl, _⟩
  · simp
  · simp [crlf]

private theorem head_padded_iff (h : l.WellFormed) {tail next : Bytes}
    (htail : EndsLine tail next) : (l.padded ++ tail).head? = some 32 ↔ l.Spaced := by
  unfold HeaderLine.Spaced HeaderLine.padded
  cases hbefore : l.before with
  | cons c before => simp
  | nil =>
      refine ⟨fun hhead => ?_, fun hhead => by cases hhead⟩
      cases hvalue : l.value with
      | cons c value =>
          simp only [hvalue, List.nil_append, List.cons_append, List.head?_cons,
            Option.some.injEq] at hhead
          have hc := h.value_head c (by simp [hvalue])
          rw [hhead] at hc
          cases hc
      | nil =>
          rw [hvalue, h.value_nil hvalue] at hhead
          exact absurd hhead (head_of_ends htail)

/-- Without a space after the colon the type goes on behind the colon. -/
private theorem unspaced_type (h : l.WellFormed) (hspaced : ¬ l.Spaced) {tail next : Bytes}
    (htail : EndsLine tail next) :
    byteOf ':' ∈ (nextField (l.render ++ tail)).1.fieldType := by
  have hnot : ¬ (bytes ": ").isPrefixOf (byteOf ':' :: (l.padded ++ tail)) = true := by
    rw [List.isPrefixOf_iff_prefix]
    rintro ⟨more, hmore⟩
    apply hspaced
    rw [← head_padded_iff h htail, ← (List.cons.inj hmore).2]
    rfl
  have htoken : byteOf ':' ∈ (cutToken (bytes ": ") (l.render ++ tail)).1 := by
    unfold cutToken
    rw [find_colon h, find, if_neg hnot]
    cases find (bytes ": ") (l.padded ++ tail) with
    | none => simp [HeaderLine.render]
    | some k =>
        have hsum : k + 1 + l.name.length = (l.name ++ [byteOf ':']).length + k := by
          rw [List.length_append, List.length_singleton]
          omega
        have hrender : l.render ++ tail = (l.name ++ [byteOf ':']) ++ (l.padded ++ tail) := by
          simp [HeaderLine.render]
        simp only [Option.map_some, hsum, hrender, List.take_length_add_append]
        simp
  have hlower : toLower (byteOf ':') = byteOf ':' := rfl
  rw [← hlower]
  exact List.mem_map_of_mem htoken

/-- The first token of a line with a space after its colon. -/
private theorem spaced_type (h : l.WellFormed) (hspaced : l.Spaced) {tail next : Bytes}
    (htail : EndsLine tail next) :
    cutToken (bytes ": ") (l.render ++ tail) =
      (l.name, if l.shown = [] ∧ tail = [] then byteOf ':' :: l.padded else l.shown ++ tail) := by
  obtain ⟨more, hmore⟩ : ∃ more, l.padded ++ tail = 32 :: more := by
    have hhead := (head_padded_iff h htail).mpr hspaced
    cases hall : l.padded ++ tail with
    | nil => simp [hall] at hhead
    | cons c more =>
        rw [hall] at hhead
        exact ⟨more, by rw [Option.some.inj hhead]⟩
  have hfind : find (bytes ": ") (byteOf ':' :: (l.padded ++ tail)) = some 0 := by
    rw [find_eq_zero_iff, hmore]
    exact ⟨more, rfl⟩
  have hrender : l.render ++ tail = l.name ++ (byteOf ':' :: (l.padded ++ tail)) := by
    simp [HeaderLine.render]
  have htailDrop : tail.dropWhile (fun c => (bytes ": ").contains c) = tail := by
    rcases htail with ⟨rfl, _⟩ | ⟨rfl, _⟩ <;> rfl
  have hshown : (byteOf ':' :: (l.padded ++ tail)).dropWhile (fun c => (bytes ": ").contains c) =
      l.shown ++ tail := by
    rw [List.dropWhile_cons_of_pos rfl, List.dropWhile_append, htailDrop]
    unfold HeaderLine.shown
    split
    · rename_i hnil
      rw [List.isEmpty_iff.mp hnil, List.nil_append]
    · rfl
  unfold cutToken
  rw [find_colon h, hfind, hrender]
  simp only [Option.map_some, Nat.zero_add, List.take_left, List.drop_left, hshown,
    List.append_eq_nil_iff]
  by_cases hnil : l.shown = [] ∧ tail = []
  · rw [if_pos hnil, if_pos hnil, hnil.2, List.append_nil]
  · rw [if_neg hnil, if_neg hnil]

private theorem no_cr_shown (h : l.WellFormed) : (13 : UInt8) ∉ l.shown :=
  fun hc => no_cr_padded h ((List.dropWhile_suffix _).mem hc)

/-- A line with a space after its colon is read alone. -/
private theorem spaced_field (h : l.WellFormed) (hspaced : l.Spaced) {tail next : Bytes}
    (htail : EndsLine tail next) :
    nextField (l.render ++ tail) = (⟨l.fieldType, valueRead l tail⟩, next) := by
  simp only [nextField, spaced_type h hspaced htail, HeaderLine.fieldType]
  rcases htail with ⟨rfl, rfl⟩ | ⟨rfl, c, rest, rfl, hc⟩
  · have hcr : (13 : UInt8) ∉ valueRead l [] := by
      unfold valueRead
      split
      · rw [List.mem_cons, not_or]
        exact ⟨by decide, no_cr_padded h⟩
      · exact no_cr_shown h
    have hnone : find crlf (valueRead l []) = none := by
      have hsplit := find_append_of_not_mem hcr [10] []
      rw [List.append_nil] at hsplit
      exact hsplit
    have hrest : (if l.shown = [] ∧ ([] : Bytes) = [] then byteOf ':' :: l.padded
        else l.shown ++ []) = valueRead l [] := by
      rw [List.append_nil, valueRead]
    rw [hrest, cutToken, hnone]
  · have hne : ¬ (l.shown = [] ∧ crlf ++ c :: rest = []) := fun hnil => by cases hnil.2
    have hfind : find crlf (l.shown ++ (crlf ++ c :: rest)) = some l.shown.length := by
      have hsplit : find crlf (l.shown ++ (crlf ++ c :: rest)) =
          (find crlf (crlf ++ c :: rest)).map (· + l.shown.length) :=
        find_append_of_not_mem (no_cr_shown h) [10] (crlf ++ c :: rest)
      have hzero : find crlf (crlf ++ c :: rest) = some 0 := by
        rw [find_eq_zero_iff]
        exact List.prefix_append _ _
      rw [hsplit, hzero, Option.map_some, Nat.zero_add]
    have hnext : (crlf ++ c :: rest).dropWhile (fun c => crlf.contains c) = c :: rest := by
      rw [List.dropWhile_append_of_pos (fun d hd => by simpa using hd),
        List.dropWhile_cons_of_neg (by simpa using hc)]
    rw [if_neg hne, valueRead, if_neg hne, cutToken, hfind]
    simp only [List.take_left, List.drop_left, hnext, reduceCtorEq, if_false]

private theorem shown_of_spaces (hbefore : ∀ c ∈ l.before, c = 32) :
    l.shown = (l.value ++ l.after).dropWhile (fun c => (bytes ": ").contains c) := by
  have hall : ∀ c ∈ l.before, (bytes ": ").contains c = true := by
    intro c hc
    rw [hbefore c hc]
    rfl
  rw [HeaderLine.shown, HeaderLine.padded, List.append_assoc, List.dropWhile_append_of_pos hall]

private theorem shown_of_tab {c : UInt8} (h : l.WellFormed) (hc : c ∈ l.before) (hne : c ≠ 32) :
    l.value.length < l.shown.length := by
  have hnot : ¬ ∀ d ∈ l.before, (bytes ": ").contains d = true := by
    intro hall
    rcases ws_cases (h.before_ws c hc) with rfl | rfl
    · exact hne rfl
    · exact absurd (hall 9 hc) (by decide)
  have hpos : l.before.dropWhile (fun c => (bytes ": ").contains c) ≠ [] :=
    fun hnil => hnot (by rwa [List.dropWhile_eq_nil_iff] at hnil)
  have hlen := List.length_pos_iff.mpr hpos
  rw [HeaderLine.shown, HeaderLine.padded, List.append_assoc, List.dropWhile_append,
    if_neg (by simpa using hpos), List.length_append, List.length_append]
  omega

/-- The line is cut at its value exactly when nothing but spaces come before the
value, nothing after it, and it has no colon at its front. -/
private theorem shown_eq_iff (h : l.WellFormed) :
    l.shown = l.value ↔
      (∀ c ∈ l.before, c = 32) ∧ l.after = [] ∧ l.value.head? ≠ some (byteOf ':') := by
  constructor
  · intro hshown
    have hbefore : ∀ c ∈ l.before, c = 32 := by
      intro c hc
      by_contra hne
      have hlen := shown_of_tab h hc hne
      rw [hshown] at hlen
      omega
    refine ⟨hbefore, ?_⟩
    cases hvalue : l.value with
    | nil => exact ⟨h.value_nil hvalue, by simp⟩
    | cons c value =>
        have hc : (bytes ": ").contains c = false := by
          have hhead := List.head?_dropWhile_not (fun c => (bytes ": ").contains c) l.padded
          rw [← HeaderLine.shown, hshown, hvalue] at hhead
          simpa using hhead
        constructor
        · rw [shown_of_spaces hbefore, hvalue, List.cons_append,
            List.dropWhile_cons_of_neg (by simpa using hc), List.cons.injEq] at hshown
          exact List.append_right_eq_self.mp hshown.2
        · rintro hhead
          obtain rfl := Option.some.inj hhead
          exact absurd hc (by decide)
  · rintro ⟨hbefore, hafter, hhead⟩
    rw [shown_of_spaces hbefore, hafter, List.append_nil]
    cases hvalue : l.value with
    | nil => rfl
    | cons c value =>
        have hws := h.value_head c (by simp [hvalue])
        rw [hvalue, List.head?_cons] at hhead
        have hc : (bytes ": ").contains c = false := by
          have hspace : c ≠ 32 := by
            rintro rfl
            cases hws
          have hcolon : c ≠ byteOf ':' := fun heq => hhead (by rw [heq])
          simp only [bytes, List.contains_eq_mem, decide_eq_false_iff_not]
          exact fun hmem => (List.mem_cons.mp hmem).elim hcolon
            (fun hmem => hspace (List.mem_singleton.mp hmem))
        rw [List.dropWhile_cons_of_neg (by simpa using hc)]

/-- The value that is read is the one of the line exactly when the tokeniser
cuts it there. -/
private theorem valueRead_eq_iff (h : l.WellFormed) (tail : Bytes) :
    valueRead l tail = l.value ↔ l.CutAtValue (decide (tail = [])) := by
  have hshown := shown_eq_iff h
  unfold valueRead HeaderLine.CutAtValue
  by_cases hnil : l.shown = [] ∧ tail = []
  · rw [if_pos hnil]
    constructor
    · intro hvalue
      have hlen := congrArg List.length hvalue
      simp only [HeaderLine.padded, List.length_cons, List.length_append] at hlen
      omega
    · rintro ⟨hbefore, hafter, hhead, hlast⟩
      have hvalue := hshown.mpr ⟨hbefore, hafter, hhead⟩
      exact absurd (hvalue.symm.trans hnil.1) (hlast (by simpa using hnil.2))
  · rw [if_neg hnil, hshown]
    refine ⟨fun ⟨hbefore, hafter, hhead⟩ => ⟨hbefore, hafter, hhead, ?_⟩,
      fun ⟨hbefore, hafter, hhead, _⟩ => ⟨hbefore, hafter, hhead⟩⟩
    intro htail hvalue
    exact hnil ⟨(hshown.mpr ⟨hbefore, hafter, hhead⟩).trans hvalue, by simpa using htail⟩

end Line

section Loop

variable (parsers : FieldParsers)

private theorem fieldsLoop_visited (buffer : Bytes) (len n pos : Nat) (request : Request)
    (visited : List VisitedField) :
    fieldsLoop parsers buffer len n pos request visited =
      (fieldsLoop parsers buffer len n pos request []).map (fun r => (visited ++ r.1, r.2)) := by
  induction n generalizing pos request visited with
  | zero => rfl
  | succ n ih =>
      simp only [fieldsLoop, bind, Except.bind]
      cases parseField parsers (readField buffer pos).1 request with
      | error fault => rfl
      | ok r =>
          simp only
          split
          · rfl
          · split
            · rw [ih _ _ (visited ++ _), ih _ _ ([] ++ _)]
              cases fieldsLoop parsers buffer len n (readField buffer pos).2 r.2 [] with
              | error fault => rfl
              | ok q => simp [Except.map]
            · rfl

/-- One round of the loop on the bytes that are left. -/
private theorem fieldsLoop_succ {buffer : Bytes} {pos : Nat} (h : pos ≤ buffer.length) (n : Nat)
    (request : Request) {field : VisitedField} {rest : Bytes}
    (hnext : nextField (buffer.drop pos) = (field, rest)) :
    fieldsLoop parsers buffer buffer.length (n + 1) pos request [] =
      (parseField parsers field request).bind (fun r =>
        if r.1.isError = true ∨ rest = [] then .ok ([field], r)
        else (fieldsLoop parsers buffer buffer.length n (buffer.length - rest.length) r.2 []).map
          (fun q => (field :: q.1, q.2))) := by
  have hle := (nextField_suffix (buffer.drop pos)).length_le
  rw [hnext, List.length_drop] at hle
  simp only at hle
  simp only [fieldsLoop, readField_eq h, hnext, bind, Except.bind, List.nil_append]
  cases parseField parsers field request with
  | error fault => rfl
  | ok r =>
      simp only
      by_cases herror : r.1.isError = true
      · rw [if_pos herror, if_pos (Or.inl herror)]
        rfl
      · rw [if_neg herror]
        by_cases hrest : rest = []
        · rw [if_neg (by simp [hrest]), if_pos (Or.inr hrest)]
          rfl
        · have hpos := List.length_pos_iff.mpr hrest
          rw [if_pos (by omega), if_neg (by simp [herror, hrest]), fieldsLoop_visited]
          rfl

/-- The fields that have a name. -/
def named (visited : List VisitedField) : List VisitedField :=
  visited.filter (fun field => !field.fieldType.isEmpty)

/-- A run of the loop has read the lines one by one. -/
private def Reads (result : Except Fault (List VisitedField × Status × Request))
    (lines : List HeaderLine) : Prop :=
  ∃ visited r, result = .ok (visited, r) ∧ List.Forall₂ Follows lines (named visited)

private theorem fieldType_ne_nil {l : HeaderLine} (h : l.WellFormed) : l.fieldType ≠ [] :=
  fun hnil => h.name_ne (List.map_eq_nil_iff.mp hnil)

private theorem named_cons {l : HeaderLine} (h : l.WellFormed) {field : VisitedField}
    (hfield : field.fieldType = l.fieldType) (visited : List VisitedField) :
    named (field :: visited) = field :: named visited := by
  have hne := fieldType_ne_nil h
  rw [← hfield] at hne
  exact List.filter_cons_of_pos (by simpa using hne)

private theorem reads_map {l : HeaderLine} (h : l.WellFormed) {field : VisitedField}
    (hfield : field.fieldType = l.fieldType) (lines : List HeaderLine)
    (result : Except Fault (List VisitedField × Status × Request)) :
    Reads (result.map (fun q => (field :: q.1, q.2))) (l :: lines) ↔
      Follows l field ∧ Reads result lines := by
  cases result with
  | error fault => simp [Reads, Except.map]
  | ok q =>
      simp only [Reads, Except.map, Except.ok.injEq]
      constructor
      · rintro ⟨visited, r, heq, hall⟩
        obtain ⟨rfl, rfl⟩ := Prod.mk.inj heq
        rw [named_cons h hfield, List.forall₂_cons] at hall
        exact ⟨hall.1, _, _, rfl, hall.2⟩
      · rintro ⟨hfollows, visited, r, rfl, hall⟩
        refine ⟨_, _, rfl, ?_⟩
        rw [named_cons h hfield, List.forall₂_cons]
        exact ⟨hfollows, hall⟩

private theorem reads_one {l : HeaderLine} (h : l.WellFormed) {field : VisitedField}
    (hfield : field.fieldType = l.fieldType) (lines : List HeaderLine) (r : Status × Request) :
    Reads (.ok ([field], r)) (l :: lines) ↔ Follows l field ∧ lines = [] := by
  have hmap := reads_map h hfield lines (.ok ([], r))
  have hnil : Reads (.ok ([], r)) lines ↔ lines = [] := by
    constructor
    · rintro ⟨visited, r', heq, hall⟩
      obtain ⟨rfl, _⟩ := Prod.mk.inj (Except.ok.inj heq)
      exact List.forall₂_nil_right_iff.mp hall
    · rintro rfl
      exact ⟨[], r, rfl, .nil⟩
  rw [← hnil, ← hmap]
  rfl

private theorem follows_iff {l : HeaderLine} (h : l.WellFormed) (tail : Bytes) :
    Follows l ⟨l.fieldType, valueRead l tail⟩ ↔
      (getFieldType l.fieldType ≠ none → l.CutAtValue (decide (tail = []))) := by
  rw [← valueRead_eq_iff h]
  exact ⟨fun hfollows => hfollows.2, fun hknown => ⟨rfl, hknown⟩⟩

/-- A run whose first field is not the one of the line. -/
private theorem not_reads_unspaced {l : HeaderLine} (h : l.WellFormed) (lines : List HeaderLine)
    {field : VisitedField} (hcolon : byteOf ':' ∈ field.fieldType)
    {result : Except Fault (List VisitedField × Status × Request)}
    (hresult : ∀ q, result = .ok q → ∃ more, q.1 = field :: more) :
    ¬ Reads result (l :: lines) := by
  rintro ⟨visited, r, rfl, hall⟩
  obtain ⟨more, hmore⟩ := hresult _ rfl
  simp only at hmore
  have hne : field.fieldType ≠ [] := List.ne_nil_of_mem hcolon
  rw [hmore, named, List.filter_cons_of_pos (by simpa using hne), List.forall₂_cons] at hall
  rw [hall.1.1] at hcolon
  exact colon_not_mem_fieldType h hcolon

/-- The first field visited is the one where the loop stands. -/
private theorem fieldsLoop_first {buffer : Bytes} {pos : Nat} (h : pos ≤ buffer.length) {n : Nat}
    {request : Request} {q : List VisitedField × Status × Request}
    (hrun : fieldsLoop parsers buffer buffer.length (n + 1) pos request [] = .ok q) :
    ∃ more, q.1 = (nextField (buffer.drop pos)).1 :: more := by
  rw [fieldsLoop_succ parsers h n request (Prod.mk.eta).symm] at hrun
  cases hparse : parseField parsers (nextField (buffer.drop pos)).1 request with
  | error fault =>
      rw [hparse] at hrun
      cases hrun
  | ok r =>
      rw [hparse, Except.bind] at hrun
      split at hrun
      · cases hrun
        exact ⟨[], rfl⟩
      · cases hrest : fieldsLoop parsers buffer buffer.length n
            (buffer.length - (nextField (buffer.drop pos)).2.length) r.2 [] with
        | error fault =>
            rw [hrest] at hrun
            cases hrun
        | ok q' =>
            rw [hrest] at hrun
            cases hrun
            exact ⟨_, rfl⟩

/-- What the loop does behind a field, told of the lines. -/
private theorem reads_behind {l : HeaderLine} (h : l.WellFormed) {lines : List HeaderLine}
    {value : Bytes} {later : Except Fault (List VisitedField × Status × Request)}
    {r : Status × Request}
    (hlater : lines ≠ [] → (Reads later lines ↔ LineByLine parsers lines r.2)) :
    Reads (if r.1.isError = true ∨ lines = [] then .ok ([⟨l.fieldType, value⟩], r)
      else later.map (fun q => (⟨l.fieldType, value⟩ :: q.1, q.2))) (l :: lines) ↔
      Follows l ⟨l.fieldType, value⟩ ∧
        (lines ≠ [] → r.1.isError = false ∧ LineByLine parsers lines r.2) := by
  by_cases hstop : r.1.isError = true ∨ lines = []
  · rw [if_pos hstop, reads_one h rfl]
    rcases hstop with herror | rfl
    · simp only [herror, Bool.true_eq_false, false_and, imp_false, not_not]
    · simp
  · rw [if_neg hstop, reads_map h rfl]
    rw [not_or, Bool.not_eq_true] at hstop
    rw [hlater hstop.2]
    simp [hstop.1, hstop.2]

/-- The first line of those that are left, when the loop reads the others. -/
private theorem line_reads_iff {l : HeaderLine} (h : l.WellFormed) {lines : List HeaderLine}
    {buffer tail next : Bytes} {pos n : Nat} {request : Request} (hpos : pos ≤ buffer.length)
    (htail : EndsLine tail next) (hdrop : buffer.drop pos = l.render ++ tail)
    (hlast : tail = [] ↔ lines = []) (hnext : next = [] ↔ lines = [])
    (ih : lines ≠ [] → ∀ request,
      Reads (fieldsLoop parsers buffer buffer.length n (buffer.length - next.length) request [])
        lines ↔ LineByLine parsers lines request) :
    Reads (fieldsLoop parsers buffer buffer.length (n + 1) pos request []) (l :: lines) ↔
      LineByLine parsers (l :: lines) request := by
  have hempty : lines.isEmpty = decide (tail = []) := by
    by_cases hnil : lines = []
    · simp [hlast.mpr hnil, hnil]
    · have hne : tail ≠ [] := fun htail => hnil (hlast.mp htail)
      simp [hnil, hne]
  by_cases hspaced : l.Spaced
  · have hfield : nextField (buffer.drop pos) = (⟨l.fieldType, valueRead l tail⟩, next) := by
      rw [hdrop]
      exact spaced_field h hspaced htail
    rw [fieldsLoop_succ parsers hpos n request hfield, LineByLine, hempty]
    simp only [hnext]
    have hfollows := follows_iff h tail
    have hreads (r : Status × Request) :=
      @reads_behind parsers l h lines (valueRead l tail) _ r (fun hne => ih hne r.2)
    cases hknown : getFieldType l.fieldType with
    | none =>
        have hone : Follows l ⟨l.fieldType, valueRead l tail⟩ :=
          hfollows.mpr fun hne => absurd hknown hne
        have hgo := hreads (.ok, request)
        simp only [hone, true_and, Status.ok_isError] at hgo
        simp only [parseField, hknown, Except.bind, Status.ok_isError, hgo, hspaced, true_and]
        constructor
        · intro hlater
          by_cases hnil : lines = []
          · rw [hnil]
            trivial
          · exact hlater hnil
        · exact fun hlater _ => hlater
    | some fieldType =>
        rw [hknown] at hfollows
        simp only [ne_eq, reduceCtorEq, not_false_eq_true, true_imp_iff] at hfollows
        simp only [parseField, hknown, hspaced, true_and, ← hfollows]
        constructor
        · intro hrun
          cases hparse : parsers fieldType (valueRead l tail) request with
          | error fault =>
              rw [hparse] at hrun
              obtain ⟨visited, r, heq, _⟩ := hrun
              cases heq
          | ok r =>
              rw [hparse, Except.bind, hreads] at hrun
              have hvalue : valueRead l tail = l.value := hrun.1.2 (by simp [hknown])
              rw [hvalue] at hparse
              exact ⟨hrun.1, r.1, r.2, hparse, hrun.2⟩
        · rintro ⟨hone, status, request', hparse, hlater⟩
          have hvalue : valueRead l tail = l.value := hone.2 (by simp [hknown])
          rw [← hvalue] at hparse
          rw [hparse, Except.bind, hreads]
          exact ⟨hone, hlater⟩
  · have hcolon := unspaced_type h hspaced htail
    rw [← hdrop] at hcolon
    have hfirst := not_reads_unspaced h lines hcolon
      (fun q hq => @fieldsLoop_first parsers buffer pos hpos n request q hq)
    refine ⟨fun hreads => absurd hreads hfirst, fun hlines => absurd ?_ hspaced⟩
    rw [LineByLine] at hlines
    exact hlines.1

private theorem joinLines_head {l : HeaderLine} (h : l.WellFormed) (rest : List HeaderLine) :
    ∃ c more, joinLines (l :: rest) = c :: more ∧ isTchar c = true := by
  obtain ⟨c, name, hname⟩ := List.exists_cons_of_ne_nil h.name_ne
  have hc := h.name_token c (by simp [hname])
  cases rest with
  | nil => exact ⟨c, _, by rw [joinLines, HeaderLine.render, hname]; rfl, hc⟩
  | cons next rest => exact ⟨c, _, by rw [joinLines, HeaderLine.render, hname]; rfl, hc⟩

private theorem fieldsLoop_reads_iff (lines : List HeaderLine) (hne : lines ≠ [])
    (hlines : ∀ l ∈ lines, l.WellFormed) {buffer : Bytes} {pos n : Nat} (request : Request)
    (hpos : pos ≤ buffer.length) (hdrop : buffer.drop pos = joinLines lines)
    (hn : buffer.length - pos < n) :
    Reads (fieldsLoop parsers buffer buffer.length n pos request []) lines ↔
      LineByLine parsers lines request := by
  induction lines generalizing pos n request with
  | nil => exact absurd rfl hne
  | cons l lines ih =>
      obtain ⟨n, rfl⟩ : ∃ m, n = m + 1 := ⟨n - 1, by omega⟩
      have h := hlines l (by simp)
      cases lines with
      | nil =>
          rw [joinLines, ← List.append_nil l.render] at hdrop
          exact line_reads_iff parsers h hpos (Or.inl ⟨rfl, rfl⟩) hdrop (by simp) (by simp)
            (fun hnil => absurd rfl hnil)
      | cons next rest =>
          obtain ⟨c, more, hhead, hc⟩ := joinLines_head (hlines next (by simp)) rest
          have hcrlf : crlf.contains c = false := by
            have hfacts := tchar_facts hc
            simp [crlf, hfacts.2.2.2.1, hfacts.2.2.2.2]
          rw [joinLines] at hdrop
          refine line_reads_iff parsers h hpos (Or.inr ⟨rfl, c, more, hhead, hcrlf⟩) hdrop
            (by simp [crlf]) (by simp [hhead]) (fun hcons request' => ?_)
          have hlen := congrArg List.length hdrop
          rw [List.length_drop, List.length_append, List.length_append] at hlen
          have hcr : crlf.length = 2 := rfl
          have hsuffix : joinLines (next :: rest) <:+ buffer := by
            have hline : joinLines (next :: rest) <:+ buffer.drop pos := by
              rw [hdrop]
              exact (List.suffix_append crlf _).trans (List.suffix_append l.render _)
            exact hline.trans (List.drop_suffix _ _)
          refine ih hcons (fun l hl => hlines l (by simp [hl])) request' (Nat.sub_le _ _) ?_ ?_
          · exact drop_of_suffix hsuffix
          · omega

end Loop

/-- A request head without its blank line, as `feed` keeps it. -/
def headText (requestLine : Bytes) : List HeaderLine → Bytes
  | [] => requestLine
  | l :: rest => requestLine ++ (crlf ++ joinLines (l :: rest))

section Head

variable {requestLine : Bytes} {lines : List HeaderLine}

private theorem no_cr_render {l : HeaderLine} (h : l.WellFormed) : (13 : UInt8) ∉ l.render := by
  rw [HeaderLine.render, List.mem_append, List.mem_cons, not_or, not_or]
  exact ⟨fun hc => (tchar_facts (h.name_token _ hc)).2.2.2.1 rfl, by decide, no_cr_padded h⟩

private theorem flatten_lines (l : HeaderLine) (rest : List HeaderLine) :
    ((l :: rest).map (fun l => l.render ++ crlf)).flatten = joinLines (l :: rest) ++ crlf := by
  induction rest generalizing l with
  | nil => simp [joinLines]
  | cons next rest ih =>
      rw [List.map_cons, List.flatten_cons, ih next, joinLines]
      simp

private theorem renderHead_eq (requestLine : Bytes) (lines : List HeaderLine) :
    renderHead requestLine lines = headText requestLine lines ++ (crlf ++ crlf) := by
  cases lines with
  | nil => simp [renderHead, headText]
  | cons l rest =>
      rw [renderHead, flatten_lines, headText]
      simp

private theorem find_blank_lines (l : HeaderLine) (rest : List HeaderLine)
    (hlines : ∀ l' ∈ l :: rest, l'.WellFormed) :
    find (crlf ++ crlf) (joinLines (l :: rest) ++ (crlf ++ crlf)) =
      some (joinLines (l :: rest)).length := by
  induction rest generalizing l with
  | nil => exact find_blank (no_cr_render (hlines l (by simp))) []
  | cons next rest ih =>
      have hnext : ∀ l' ∈ next :: rest, l'.WellFormed := fun l' hl' => hlines l' (by simp [hl'])
      obtain ⟨c, more, hhead, hc⟩ := joinLines_head (hnext next (by simp)) rest
      rw [joinLines, List.append_assoc, List.append_assoc,
        find_blank_of_line (no_cr_render (hlines l (by simp))), ih next hnext]
      · simp only [Option.map_some, List.length_append, Option.some.injEq]
        have hcr : crlf.length = 2 := rfl
        omega
      · rw [hhead, List.cons_append, List.head?_cons]
        exact fun heq => (tchar_facts hc).2.2.2.1 (Option.some.inj heq)

private theorem find_blank_renderHead (hline : 13 ∉ requestLine)
    (hlines : ∀ l ∈ lines, l.WellFormed) :
    find (crlf ++ crlf) (renderHead requestLine lines) =
      some (headText requestLine lines).length := by
  rw [renderHead_eq]
  cases lines with
  | nil => exact find_blank hline []
  | cons l rest =>
      obtain ⟨c, more, hhead, hc⟩ := joinLines_head (hlines l (by simp)) rest
      rw [headText, List.append_assoc, List.append_assoc, find_blank_of_line hline,
        find_blank_lines l rest hlines]
      · simp only [Option.map_some, List.length_append, Option.some.injEq]
        have hcr : crlf.length = 2 := rfl
        omega
      · rw [hhead, List.cons_append, List.head?_cons]
        exact fun heq => (tchar_facts hc).2.2.2.1 (Option.some.inj heq)

/-- `feed` keeps the head without its blank line. -/
theorem feed_renderHead (hline : 13 ∉ requestLine) (hlines : ∀ l ∈ lines, l.WellFormed) :
    ((({} : RequestHeaderParser).feed (renderHead requestLine lines) 0).1) =
      ⟨headText requestLine lines, true⟩ := by
  have hfind := find_blank_renderHead hline hlines
  simp only [RequestHeaderParser.feed, List.nil_append, Bool.false_eq_true, if_false, hfind]
  rw [renderHead_eq, List.take_left]

private theorem unfoldString_append {line : Bytes} (hline : 13 ∉ line) (rest : Bytes) :
    unfoldString (line ++ rest) = line ++ unfoldString rest := by
  induction line with
  | nil => rfl
  | cons c line ih =>
      have hc : c ≠ 13 := fun h => hline (by simp [h])
      have htail := ih (fun h => hline (by simp [h]))
      rw [List.cons_append, List.cons_append, ← htail]
      cases hrest : line ++ rest with
      | nil => simp [unfoldString]
      | cons d more => simp [unfoldString, hc]

private theorem unfoldString_crlf {c : UInt8} (hc : isWs c = false) (rest : Bytes) :
    unfoldString (crlf ++ c :: rest) = crlf ++ unfoldString (c :: rest) := by
  change unfoldString (13 :: 10 :: c :: rest) = 13 :: 10 :: unfoldString (c :: rest)
  have hlf := unfoldString_append (show (13 : UInt8) ∉ ([10] : Bytes) by decide) (c :: rest)
  rw [unfoldString, hc, if_neg (by simp)]
  exact congrArg (13 :: ·) hlf

private theorem unfoldString_lines (l : HeaderLine) (rest : List HeaderLine)
    (hlines : ∀ l' ∈ l :: rest, l'.WellFormed) :
    unfoldString (joinLines (l :: rest)) = joinLines (l :: rest) := by
  induction rest generalizing l with
  | nil =>
      have happend := unfoldString_append (no_cr_render (hlines l (by simp))) []
      rw [List.append_nil] at happend
      rw [joinLines, happend]
      simp [unfoldString]
  | cons next rest ih =>
      have hnext : ∀ l' ∈ next :: rest, l'.WellFormed := fun l' hl' => hlines l' (by simp [hl'])
      obtain ⟨c, more, hhead, hc⟩ := joinLines_head (hnext next (by simp)) rest
      have htail := ih next hnext
      rw [hhead] at htail
      rw [joinLines, unfoldString_append (no_cr_render (hlines l (by simp))), hhead,
        unfoldString_crlf (tchar_not_ws hc), htail]

/-- No line of a head is folded. -/
private theorem unfoldString_headText (hline : 13 ∉ requestLine)
    (hlines : ∀ l ∈ lines, l.WellFormed) :
    unfoldString (headText requestLine lines) = headText requestLine lines := by
  cases lines with
  | nil =>
      have happend := unfoldString_append hline []
      rw [List.append_nil] at happend
      rw [headText, happend]
      simp [unfoldString]
  | cons l rest =>
      obtain ⟨c, more, hhead, hc⟩ := joinLines_head (hlines l (by simp)) rest
      have htail := unfoldString_lines l rest hlines
      rw [hhead] at htail
      rw [headText, unfoldString_append hline, hhead, unfoldString_crlf (tchar_not_ws hc), htail]

/-- The request line is the first token, and the lines come behind it. -/
private theorem cutToken_headText (hline : 13 ∉ requestLine)
    (hlines : ∀ l ∈ lines, l.WellFormed) :
    cutToken crlf (headText requestLine lines) = (requestLine, joinLines lines) := by
  cases lines with
  | nil =>
      have hsplit : find crlf (requestLine ++ []) = (find crlf []).map (· + requestLine.length) :=
        find_append_of_not_mem hline [10] []
      rw [List.append_nil] at hsplit
      rw [headText, cutToken, hsplit]
      rfl
  | cons l rest =>
      obtain ⟨c, more, hhead, hc⟩ := joinLines_head (hlines l (by simp)) rest
      have hnext : (crlf ++ joinLines (l :: rest)).dropWhile (fun c => crlf.contains c) =
          joinLines (l :: rest) := by
        have hfacts := tchar_facts hc
        rw [List.dropWhile_append_of_pos (fun d hd => by simpa using hd), hhead,
          List.dropWhile_cons_of_neg (by simp [crlf, hfacts.2.2.2.1, hfacts.2.2.2.2])]
      have hne : joinLines (l :: rest) ≠ [] := by
        rw [hhead]
        simp
      rw [headText, cutToken, find_crlf_of_line hline]
      simp only [List.take_left, List.drop_left, hnext, if_neg hne]

end Head

open RequestHeaderParser

/-- Without lines the loop runs once and finds no field. -/
private theorem no_lines_read (parsers : FieldParsers) (buffer : Bytes) (n : Nat)
    (request : Request) :
    Reads (fieldsLoop parsers buffer buffer.length (n + 1) buffer.length request []) [] := by
  have hfield : nextField (buffer.drop buffer.length) = (⟨[], []⟩, []) := by
    rw [List.drop_length]
    rfl
  have hunknown : getFieldType [] = none := rfl
  refine ⟨[⟨[], []⟩], (.ok, request), ?_, .nil⟩
  rw [fieldsLoop_succ parsers (Nat.le_refl _) n request hfield]
  simp [parseField, hunknown, Except.bind]

/-- `parse_complete_header` reads a request head line by line, each known field
with its own value, exactly when the lines have the form that its tokeniser
expects and no known field before the last line is refused. -/
theorem parseCompleteHeader_lineByLine_iff (parsers : FieldParsers) (config : Config)
    (requestLine : Bytes) (lines : List HeaderLine) (request : Request)
    (hline : NoLineEnd requestLine)
    (hvalid : (parseRequestLine requestLine request).1.isError = false)
    (hlines : ∀ l ∈ lines, l.WellFormed) :
    (∃ p visited r,
      (({} : RequestHeaderParser).feed (renderHead requestLine lines) 0).1.parseCompleteHeader
        parsers config request = .ok (p, visited, r) ∧
      List.Forall₂ Follows lines (named visited)) ↔
      LineByLine parsers lines (routeCgi config (parseRequestLine requestLine request).2) := by
  have htoken := getTokenWithDelim_eq (Nat.zero_le (headText requestLine lines).length) crlf
  rw [List.drop_zero, cutToken_headText hline.1 hlines] at htoken
  have hsuffix := cutToken_suffix crlf (headText requestLine lines)
  rw [cutToken_headText hline.1 hlines] at hsuffix
  rw [feed_renderHead hline.1 hlines, parseCompleteHeader]
  simp only [unfoldString_headText hline.1 hlines, htoken, hvalid]
  have hloop : Reads (fieldsLoop parsers (headText requestLine lines)
        (headText requestLine lines).length ((headText requestLine lines).length + 1)
        ((headText requestLine lines).length - (joinLines lines).length)
        (routeCgi config (parseRequestLine requestLine request).2) []) lines ↔
      LineByLine parsers lines (routeCgi config (parseRequestLine requestLine request).2) := by
    cases lines with
    | nil =>
        rw [joinLines, List.length_nil, Nat.sub_zero]
        exact ⟨fun _ => trivial, fun _ => no_lines_read parsers _ _ _⟩
    | cons l rest =>
        exact fieldsLoop_reads_iff parsers (l :: rest) (by simp) hlines _ (Nat.sub_le _ _)
          (drop_of_suffix hsuffix) (by omega)
  rw [← hloop]
  generalize fieldsLoop parsers (headText requestLine lines) _ _ _ _ [] = result
  cases result with
  | error fault => simp [Reads, bind, Except.bind]
  | ok q =>
      simp only [Reads, bind, Except.bind, pure, Except.pure, Bool.true_eq_false,
        Bool.false_eq_true, if_false]
      constructor
      · rintro ⟨p, visited, r, heq, hall⟩
        refine ⟨q.1, q.2, rfl, ?_⟩
        split at heq <;> cases heq <;> exact hall
      · rintro ⟨visited, r, heq, hall⟩
        obtain rfl := Except.ok.inj heq
        split
        · exact ⟨_, _, _, rfl, hall⟩
        · exact ⟨_, _, _, rfl, hall⟩

/-- Host lines alone are accepted. -/
def hostOnly : FieldParsers := fun fieldType fieldValue request =>
  match fieldType with
  | .host => .ok (parseHost fieldValue request)
  | _ => .ok (.badRequest, request)

def getLine : Bytes := bytes "GET / HTTP/1.1"

def hostLine : HeaderLine := ⟨bytes "Host", bytes " ", bytes "a", []⟩

private theorem hostLine_wellFormed : hostLine.WellFormed :=
  ⟨by decide, List.all_eq_true.mp (by decide), List.all_eq_true.mp (by decide),
    List.all_eq_true.mp (by decide), ⟨by decide, by decide⟩, by simp [hostLine, bytes, isWs], by simp [hostLine, bytes, isWs],
    by decide⟩

theorem parseCompleteHeader_lineByLine_host :
    (∃ p visited r,
      (({} : RequestHeaderParser).feed (renderHead getLine [hostLine]) 0).1.parseCompleteHeader
        hostOnly {} {} = .ok (p, visited, r) ∧
      List.Forall₂ Follows [hostLine] (named visited)) ↔
      LineByLine hostOnly [hostLine] (routeCgi {} (parseRequestLine getLine {}).2) :=
  parseCompleteHeader_lineByLine_iff hostOnly {} getLine [hostLine] {} ⟨by decide, by decide⟩
    (by decide) (by simpa using hostLine_wellFormed)

def tightLine : HeaderLine := ⟨bytes "X", [], bytes "b", []⟩

/-- Without a space after its colon a line is joined with the next one. -/
theorem parseCompleteHeader_joins_lines :
    tightLine.WellFormed ∧ hostLine.WellFormed ∧
    ((({} : RequestHeaderParser).feed (renderHead getLine [tightLine, hostLine]) 0).1
      |>.parseCompleteHeader hostOnly {} {}).map (fun r => (r.2.1, r.2.2.2.host)) =
      .ok ([⟨bytes "x:b\r\nhost", bytes "a"⟩], []) := by
  refine ⟨⟨by decide, List.all_eq_true.mp (by decide), List.all_eq_true.mp (by decide),
    List.all_eq_true.mp (by decide), ⟨by decide, by decide⟩,
    by simp [tightLine, bytes, isWs], by simp [tightLine, bytes, isWs], by decide⟩,
    hostLine_wellFormed, by decide +kernel⟩

end FortyTwo.Webserv
