import FortyTwo.Webserv.MultipartHeader

/-!
The format of a multipart body as the comment at the head of
`RequestMultipartBodyParser.cpp` shows it, and what the parser reads from the
header of a rendered part.
-/

namespace FortyTwo.Webserv

open Foundation

/-- Letters, digits, `.`, `-` and `_`. -/
def isWordChar (c : UInt8) : Bool :=
  (decide (65 ≤ c) && decide (c ≤ 90)) || (decide (97 ≤ c) && decide (c ≤ 122)) ||
    (decide (48 ≤ c) && decide (c ≤ 57)) || c == 46 || c == 45 || c == 95

/-- The characters of a media type token. -/
def isTypeChar (c : UInt8) : Bool := isVchar c && !isCharTspecial c

structure Part where
  name : Bytes
  filename : Option Bytes
  contentType : Option (Bytes × Bytes)
  data : Bytes

namespace Part

def disposition (p : Part) : Bytes :=
  bytes "Content-Disposition: form-data; name=\"" ++ p.name ++ bytes "\"" ++
    match p.filename with
    | some filename => bytes "; filename=\"" ++ filename ++ bytes "\""
    | none => []

def typeLine (type subtype : Bytes) : Bytes :=
  bytes "Content-Type: " ++ type ++ bytes "/" ++ subtype

/-- The line end and the content type line, where there is one. -/
def typeLines (p : Part) : Bytes :=
  match p.contentType with
  | some (type, subtype) => crlf ++ typeLine type subtype
  | none => []

/-- `--B CRLF headers CRLF CRLF`. -/
def head (boundary : Bytes) (p : Part) : Bytes :=
  startBoundary boundary ++ p.disposition ++ p.typeLines ++ crlf ++ crlf

def render (boundary : Bytes) (p : Part) : Bytes := p.head boundary ++ p.data ++ crlf

structure WellFormed (boundary : Bytes) (p : Part) : Prop where
  name_word : ∀ c ∈ p.name, isWordChar c = true
  name_key : ¬ bytes "filename" <:+: p.name
  filename_word : ∀ f, p.filename = some f → ∀ c ∈ f, isWordChar c = true
  type_token : ∀ t s, p.contentType = some (t, s) → ∀ c ∈ t ++ s, isTypeChar c = true
  data_free : ¬ bytes "--" ++ boundary <:+: p.data

/-- The parser can tell the lines of the header and the data apart. -/
structure Legible (boundary : Bytes) (p : Part) : Prop where
  disposition_line : 13 ∉ p.disposition
  filename_taken : (parseFilename p.disposition []).1 ≠ .badRequest
  type_line : ∀ t s, p.contentType = some (t, s) → 13 ∉ typeLine t s
  data_free : ¬ bytes "--" ++ boundary <:+: p.data

end Part

/-- The rendered parts and the closing line. -/
def renderBody (boundary : Bytes) : List Part → Bytes
  | [] => bytes "--" ++ boundary ++ bytes "--" ++ crlf
  | p :: rest => p.render boundary ++ renderBody boundary rest

/-- The text up to its first line end. -/
def lineOf (text : Bytes) : Bytes :=
  match find crlf text with
  | some stop => text.take stop
  | none => text

/-- The line that `parse_body_header` takes for the content type line: the
part's own, or else the first one among the data bytes that have come along. -/
def Part.typeLineRead (p : Part) (arrived : Bytes) : Bytes :=
  match p.contentType with
  | some (type, subtype) => typeLine type subtype
  | none => lineOf (arrived.dropWhile (fun c => crlf.contains c))

theorem isQdText_of_isWordChar {c : UInt8} (h : isWordChar c = true) : isQdText c = true := by
  simp only [isWordChar, isQdText, Bool.or_eq_true, Bool.and_eq_true, decide_eq_true_eq,
    beq_iff_eq, UInt8.le_iff_toNat_le, ← UInt8.toNat_inj] at h ⊢
  have h46 : (46 : UInt8).toNat = 46 := rfl
  simp only [UInt8.reduceToNat] at h ⊢
  omega

/-- A character of a class is not in a text of others. -/
theorem not_mem_of_class {class' : UInt8 → Bool} {text : Bytes} {d : UInt8}
    (h : ∀ c ∈ text, class' c = true) (hd : class' d = false) : d ∉ text := by
  intro hmem
  rw [h d hmem] at hd
  cases hd

theorem charAt_append_right (before after : Bytes) (i : Nat) :
    charAt (before ++ after) (before.length + i) = charAt after i := by
  unfold charAt
  rw [List.getD_eq_getElem?_getD, List.getD_eq_getElem?_getD,
    List.getElem?_append_right (by omega), Nat.add_sub_cancel_left]

theorem charAt_append_length (before after : Bytes) :
    charAt (before ++ after) before.length = charAt after 0 :=
  charAt_append_right before after 0

theorem skipOwsAndFolds_of_not (line : Bytes) (fuel pos : Nat) (hcr : charAt line pos ≠ 13)
    (hws : isWs (charAt line pos) = false) : skipOwsAndFolds line fuel pos = pos := by
  have hline : isCrlf line pos = false := by
    simp [isCrlf, hcr]
  cases fuel with
  | zero => rfl
  | succ fuel => simp [skipOwsAndFolds, hline, hws]

private theorem quotedLoop_word (word : Bytes) (hword : ∀ c ∈ word, isWordChar c = true)
    (before after buffer : Bytes) (fuel : Nat) (hfuel : word.length < fuel) :
    quotedLoop (before ++ (word ++ 34 :: after)) fuel before.length buffer =
      .ok (before.length + word.length, buffer ++ word) := by
  induction word generalizing before buffer fuel with
  | nil =>
      obtain ⟨fuel, rfl⟩ : ∃ k, fuel = k + 1 := ⟨fuel - 1, by simp at hfuel; omega⟩
      have hat : charAt (before ++ ([] ++ 34 :: after)) before.length = 34 :=
        charAt_append_length before _
      rw [quotedLoop, hat, if_neg (fun h => h.2 rfl), List.length_nil, List.append_nil]
      rfl
  | cons c word ih =>
      obtain ⟨fuel, rfl⟩ : ∃ k, fuel = k + 1 := ⟨fuel - 1, by simp at hfuel; omega⟩
      have hc := hword c (by simp)
      have hat : charAt (before ++ (c :: word ++ 34 :: after)) before.length = c :=
        charAt_append_length before _
      have hother : ∀ d, isWordChar d = false → c ≠ d := by
        rintro d hd rfl
        rw [hc] at hd
        cases hd
      have hcr := hother 13 rfl
      have hows : isOws (before ++ (c :: word ++ 34 :: after)) before.length = false := by
        simp only [isOws, isCrlf, isWs, hat]
        simp [hcr, hother 32 rfl, hother 9 rfl]
      have hlen : before.length < (before ++ (c :: word ++ 34 :: after)).length := by
        simp
      have hnext := ih (fun d hd => hword d (by simp [hd])) (before ++ [c]) (buffer ++ [c]) fuel
        (by simpa using hfuel)
      have hsplit : before ++ [c] ++ (word ++ 34 :: after) =
          before ++ (c :: word ++ 34 :: after) := by simp
      rw [hsplit, List.length_append, List.length_singleton] at hnext
      rw [quotedLoop, hat, if_pos ⟨hlen, hother 34 rfl⟩, if_neg (fun h => hother 92 rfl h.2), hows,
        if_neg (by simp), isQdText_of_isWordChar hc, if_pos rfl, hnext]
      simp [Nat.add_comm, Nat.add_left_comm]

/-- A word in quotes. -/
theorem parseQuotedString_word {word : Bytes} (hword : ∀ c ∈ word, isWordChar c = true)
    (before after : Bytes) :
    parseQuotedString (before ++ 34 :: (word ++ 34 :: after)) before.length =
      .ok (word, before.length + 1 + word.length) := by
  have hat : charAt (before ++ 34 :: (word ++ 34 :: after)) before.length = 34 :=
    charAt_append_length before _
  have hsplit : before ++ 34 :: (word ++ 34 :: after) =
      (before ++ [34]) ++ (word ++ 34 :: after) := by simp
  have hsize : (before ++ [(34 : UInt8)]).length = before.length + 1 := by simp
  have hloop := quotedLoop_word word hword (before ++ [34]) after []
    ((before ++ 34 :: (word ++ 34 :: after)).length + 1) (by simp; omega)
  have hend : charAt (before ++ 34 :: (word ++ 34 :: after)) (before.length + 1 + word.length) =
      34 := by
    have hword' : before ++ 34 :: (word ++ 34 :: after) =
        (before ++ [34] ++ word) ++ 34 :: after := by simp
    have hlen : before.length + 1 + word.length = (before ++ [34] ++ word).length := by
      simp only [List.length_append, List.length_singleton]
    rw [hword', hlen]
    exact charAt_append_length _ _
  rw [← hsplit, hsize] at hloop
  rw [parseQuotedString, hat, if_neg (by simp), hloop]
  simp only [hend, ne_eq, not_true_eq_false, if_false, List.nil_append]

namespace Part

variable {boundary : Bytes}

theorem find_filename {name : Bytes} (hname : ¬ bytes "filename" <:+: name)
    (rest : Bytes) : find (bytes "filename")
      (bytes "Content-Disposition: form-data; name=\"" ++ name ++ bytes "\"" ++ rest) =
      (find (bytes "filename") rest).map (· + (name.length + 39)) := by
  have hne : bytes "filename" ≠ [] := by decide
  have hquote : (34 : UInt8) ∉ bytes "filename" := by decide
  have hline : bytes "Content-Disposition: form-data; name=\"" ++ name ++ bytes "\"" ++ rest =
      bytes "Content-Disposition: form-data; name=" ++ 34 :: (name ++ 34 :: rest) := by
    simp [bytes]
  have hbefore : find (bytes "filename") (bytes "Content-Disposition: form-data; name=") = none :=
    rfl
  rw [hline, find_append_cons_of_none hne hquote _ hbefore,
    find_append_cons_of_none hne hquote _ ((find_eq_none_iff _ _).mpr hname), Option.map_map]
  rfl

/-- The file name of a rendered part. -/
theorem parseFilename_disposition {p : Part} (hp : p.WellFormed boundary) :
    parseFilename p.disposition [] =
      (if p.filename.isSome then .ok else .noFilename, p.filename.getD []) := by
  unfold disposition parseFilename
  cases hname : p.filename with
  | none => 
      rw [find_filename hp.name_key]
      rfl
  | some filename =>
      have hkey : find (bytes "filename") (bytes "; filename=\"" ++ filename ++ bytes "\"") =
          some 2 := rfl
      have hline : bytes "Content-Disposition: form-data; name=\"" ++ p.name ++ bytes "\"" ++
          (bytes "; filename=\"" ++ filename ++ bytes "\"") =
          (bytes "Content-Disposition: form-data; name=\"" ++ p.name ++ bytes "\"; filename") ++
            61 :: 34 :: (filename ++ 34 :: []) := by
        simp [bytes]
      obtain ⟨before, hbefore⟩ : ∃ before, before =
        bytes "Content-Disposition: form-data; name=\"" ++ p.name ++ bytes "\"; filename" := ⟨_, rfl⟩
      have hsize : 2 + (p.name.length + 39) + 8 = before.length := by
        rw [hbefore]
        simp [bytes]
        omega
      have hsize' : before.length + 1 = (before ++ [61]).length := by simp
      have hsplit : before ++ 61 :: 34 :: (filename ++ [34]) =
          (before ++ [61]) ++ 34 :: (filename ++ 34 :: []) := by simp
      have heq : charAt (before ++ 61 :: 34 :: (filename ++ [34])) before.length = 61 :=
        charAt_append_length before _
      have hquote : charAt (before ++ 61 :: 34 :: (filename ++ [34])) (before.length + 1) = 34 :=
        charAt_append_right before _ 1
      have hstring := parseQuotedString_word (hp.filename_word filename hname) (before ++ [61]) []
      rw [← hsplit, ← hsize'] at hstring
      simp only
      rw [find_filename hp.name_key, hkey, Option.map_some, hline, ← hbefore]
      simp only [hsize]
      rw [skipOwsAndFolds_of_not _ _ _ (by rw [heq]; decide) (by rw [heq]; decide),
        heq, if_neg (by decide), skipOwsAndFolds_of_not _ _ _ (by rw [hquote]; decide)
          (by rw [hquote]; decide), hquote, if_pos rfl, hstring]
      rfl

/-- The field name of a rendered part. -/
theorem parseName_disposition {p : Part} (hp : p.WellFormed boundary) :
    parseName p.disposition [] = (.ok, p.name) := by
  obtain ⟨rest, hrest⟩ : ∃ rest, p.disposition =
      bytes "Content-Disposition: form-data; name=\"" ++ (p.name ++ 34 :: rest) := by
    refine ⟨match p.filename with
      | some filename => bytes "; filename=\"" ++ filename ++ bytes "\""
      | none => [], ?_⟩
    simp [disposition, bytes]
  have hkey : find (bytes "name=\"") p.disposition = some 32 := by
    rw [hrest]
    rfl
  have hquote : (34 : UInt8) ∉ p.name := not_mem_of_class hp.name_word rfl
  have hstop : find [34] (p.name ++ 34 :: rest) = some p.name.length := find_single hquote rest
  have hdrop : p.disposition.drop 38 = p.name ++ 34 :: rest := by
    rw [hrest]
    rfl
  have hfrom : findFrom [34] p.disposition 38 = some (38 + p.name.length) := by
    rw [findFrom_eq_some_iff, hdrop, hstop]
    refine ⟨by omega, ?_, by simp⟩
    rw [hrest, List.length_append]
    have hsize : (bytes "Content-Disposition: form-data; name=\"").length = 38 := rfl
    omega
  simp [parseName, hkey, hfrom, hdrop]

end Part

section Lines

theorem lineOf_of_line {line : Bytes} (hline : 13 ∉ line) (rest : Bytes) :
    lineOf (line ++ (crlf ++ rest)) = line := by
  rw [lineOf, find_crlf_of_line hline]
  exact List.take_left

theorem lineOf_crlf (rest : Bytes) : lineOf (crlf ++ rest) = [] := by
  have hnil : (13 : UInt8) ∉ ([] : Bytes) := by simp
  exact lineOf_of_line hnil rest

theorem getTokenWithDelim_crlf {data : Bytes} {start : Nat} (h : start ≤ data.length)
    (skip : Bool) : (getTokenWithDelim data start crlf skip).1 = lineOf (data.drop start) := by
  unfold getTokenWithDelim lineOf findFrom
  rw [if_neg (by omega)]
  cases hfind : find crlf (data.drop start) with
  | none => rfl
  | some stop =>
      simp only [Option.map_some, Nat.add_sub_cancel]
      cases skip with
      | false => rfl
      | true =>
          simp only [if_true]
          split <;> rfl

/-- The line after the one that ends at `stop`. -/
theorem nextLine_eq {data : Bytes} {stop : Nat} (hcrlf : crlf <+: data.drop stop) :
    (getTokenWithDelim data ((findFirstNotOf crlf data stop).getD stop) crlf true).1 =
      lineOf ((data.drop stop).dropWhile (fun c => crlf.contains c)) := by
  have hstop : stop ≤ data.length := by
    have hlen := hcrlf.length_le
    have hsize : crlf.length = 2 := rfl
    rw [List.length_drop] at hlen
    omega
  rw [List.dropWhile_eq_drop_findIdx_not, List.drop_drop]
  unfold findFirstNotOf
  cases hidx : (data.drop stop).findIdx? (fun c => !crlf.contains c) with
  | none =>
      obtain ⟨rest, hrest⟩ := hcrlf
      have hall : (data.drop stop).findIdx (fun c => !crlf.contains c) = (data.drop stop).length :=
        List.findIdx_eq_length.mpr (by simpa using hidx)
      rw [hall, Option.map_none, Option.getD_none, getTokenWithDelim_crlf hstop, ← hrest,
        lineOf_crlf, hrest, List.drop_of_length_le (by rw [List.length_drop]; omega)]
      rfl
  | some i =>
      obtain ⟨hi, hidx'⟩ := List.findIdx?_eq_some_iff_findIdx_eq.mp hidx
      rw [List.length_drop] at hi
      rw [hidx', Option.map_some, Option.getD_some, getTokenWithDelim_crlf (by omega),
        Nat.add_comm]

end Lines

namespace Part

variable {boundary : Bytes} {p : Part}

/-- A header of words is legible. -/
theorem WellFormed.legible (hp : p.WellFormed boundary) : p.Legible boundary where
  disposition_line := by
    have hname : (13 : UInt8) ∉ p.name := not_mem_of_class hp.name_word rfl
    have hkey : (13 : UInt8) ∉ bytes "Content-Disposition: form-data; name=\"" := by decide
    have hfilename : (13 : UInt8) ∉ bytes "; filename=\"" := by decide
    have hquote : (13 : UInt8) ∉ bytes "\"" := by decide
    unfold disposition
    cases hf : p.filename with
    | none => simp [hname, hkey, hquote]
    | some filename =>
        have hword : (13 : UInt8) ∉ filename := not_mem_of_class (hp.filename_word filename hf) rfl
        simp [hname, hkey, hquote, hfilename, hword]
  filename_taken := by
    rw [parseFilename_disposition hp]
    simp only
    split <;> decide
  type_line := by
    intro type subtype htype
    have hclass : (13 : UInt8) ∉ type ++ subtype :=
      not_mem_of_class (hp.type_token type subtype htype) rfl
    rw [List.mem_append, not_or] at hclass
    have hkey : (13 : UInt8) ∉ bytes "Content-Type: " := by decide
    have hslash : (13 : UInt8) ∉ bytes "/" := by decide
    simp [typeLine, hclass, hkey, hslash]
  data_free := hp.data_free

/-- What follows the first line of a header. -/
private def afterDisposition (p : Part) (arrived : Bytes) : Bytes :=
  p.typeLines ++ (crlf ++ (crlf ++ arrived))

private theorem head_append (boundary : Bytes) (p : Part) (arrived : Bytes) :
    p.head boundary ++ arrived =
      startBoundary boundary ++ (p.disposition ++ p.afterDisposition arrived) := by
  simp [head, afterDisposition]

private theorem afterDisposition_crlf (p : Part) (arrived : Bytes) :
    ∃ rest, p.afterDisposition arrived = crlf ++ rest := by
  unfold afterDisposition typeLines
  cases p.contentType with
  | none => exact ⟨crlf ++ arrived, rfl⟩
  | some t => exact ⟨typeLine t.1 t.2 ++ (crlf ++ (crlf ++ arrived)), by simp⟩

private theorem typeLineRead_eq (hp : p.Legible boundary) (arrived : Bytes) :
    lineOf ((p.afterDisposition arrived).dropWhile (fun c => crlf.contains c)) =
      p.typeLineRead arrived := by
  unfold afterDisposition typeLines typeLineRead
  cases htype : p.contentType with
  | none => rfl
  | some t =>
      obtain ⟨type, subtype⟩ := t
      exact lineOf_of_line (hp.type_line type subtype htype) (crlf ++ arrived)

/-- The header of a rendered part, as `parse_body_header` reads it. -/
theorem headerAt_head (hp : p.Legible boundary) (arrived : Bytes) :
    headerAt boundary (p.head boundary ++ arrived) 0 =
      (contentTypeStatus (p.typeLineRead arrived),
        { name := (parseName p.disposition []).2
          filename := (parseFilename p.disposition []).2
          contentType := (parseContentType (p.typeLineRead arrived) []).2 }) := by
  have hdrop : (p.head boundary ++ arrived).drop (startBoundary boundary).length =
      p.disposition ++ p.afterDisposition arrived := by
    rw [head_append]
    exact List.drop_left
  obtain ⟨rest, hrest⟩ := afterDisposition_crlf p arrived
  have hlen : (startBoundary boundary).length + p.disposition.length ≤
      (p.head boundary ++ arrived).length := by
    rw [head_append]
    simp only [List.length_append]
    omega
  have hstop : findFrom crlf (p.head boundary ++ arrived) (startBoundary boundary).length =
      some ((startBoundary boundary).length + p.disposition.length) := by
    rw [findFrom_eq_some_iff, hdrop, hrest, find_crlf_of_line hp.disposition_line]
    exact ⟨by omega, by omega, by simp⟩
  have hafter : (p.head boundary ++ arrived).drop
      ((startBoundary boundary).length + p.disposition.length) = p.afterDisposition arrived := by
    rw [← List.drop_drop, hdrop]
    exact List.drop_left
  have hfirst := getTokenWithDelim_of_find hstop
  rw [hdrop, Nat.add_sub_cancel_left, List.take_left] at hfirst
  have hcrlf : crlf <+: (p.head boundary ++ arrived).drop
      ((startBoundary boundary).length + p.disposition.length) := by
    rw [hafter, hrest]
    exact List.prefix_append _ _
  have hsecond := nextLine_eq hcrlf
  rw [hafter, typeLineRead_eq hp] at hsecond
  simp only [headerAt, parseBodyHeader, Nat.zero_add, hfirst, hp.filename_taken, if_false, hsecond]
  rfl

/-- The blank line that ends the header of a rendered part. -/
theorem find_blank_head (hB : 13 ∉ boundary) (hp : p.Legible boundary) (arrived : Bytes) :
    find (crlf ++ crlf) (p.head boundary ++ arrived) =
      some ((p.head boundary).length - 4) := by
  have hdash : (13 : UInt8) ∉ bytes "--" ++ boundary := by
    rw [List.mem_append, not_or]
    exact ⟨by decide, hB⟩
  have hhead : p.head boundary ++ arrived =
      (bytes "--" ++ boundary) ++ (crlf ++ (p.disposition ++ p.afterDisposition arrived)) := by
    rw [head_append]
    simp [startBoundary]
  have hfirst : ∀ rest, (p.disposition ++ rest).head? ≠ some 13 := by
    intro rest
    simp [disposition, bytes]
  have hdisposition := hp.disposition_line
  rw [hhead, find_blank_of_line hdash (hfirst _)]
  unfold afterDisposition head typeLines
  cases htype : p.contentType with
  | none =>
      simp only
      rw [List.nil_append, find_blank hdisposition]
      simp [startBoundary, bytes, crlf]
      omega
  | some t =>
      obtain ⟨type, subtype⟩ := t
      have hline := hp.type_line type subtype htype
      have hnext : (typeLine type subtype ++ (crlf ++ (crlf ++ arrived))).head? ≠ some 13 := by
        simp [typeLine, bytes]
      simp only
      rw [List.append_assoc crlf, find_blank_of_line hdisposition hnext, find_blank hline]
      simp [startBoundary, bytes, crlf]
      omega

end Part

section Boundaries

variable {boundary data : Bytes}

private theorem dashes_ne_nil : bytes "--" ++ boundary ≠ [] := by
  simp [bytes]

/-- Where the dashes of the boundary after the data first stand. -/
private theorem find_dashes (hB : NoLineEnd boundary) (hdata : ¬ bytes "--" ++ boundary <:+: data)
    (rest : Bytes) :
    find (bytes "--" ++ boundary) (data ++ (crlf ++ (bytes "--" ++ boundary ++ rest))) =
      some (data.length + 2) := by
  have hcr : (13 : UInt8) ∉ bytes "--" ++ boundary := by
    rw [List.mem_append, not_or]
    exact ⟨by decide, hB.1⟩
  have hlf : (10 : UInt8) ∉ bytes "--" ++ boundary := by
    rw [List.mem_append, not_or]
    exact ⟨by decide, hB.2⟩
  have hnil : find (bytes "--" ++ boundary) [] = none :=
    find_eq_none_of_length_lt (List.length_pos_iff.mpr dashes_ne_nil)
  have hzero : find (bytes "--" ++ boundary) (bytes "--" ++ boundary ++ rest) = some 0 := by
    rw [find_eq_zero_iff]
    exact List.prefix_append _ _
  have hline := find_append_cons_of_none dashes_ne_nil hlf (bytes "--" ++ boundary ++ rest) hnil
  have hall := find_append_cons_of_none dashes_ne_nil hcr
    (10 :: (bytes "--" ++ boundary ++ rest)) ((find_eq_none_iff _ _).mpr hdata)
  rw [List.nil_append] at hline
  rw [hline, hzero] at hall
  rw [show crlf ++ (bytes "--" ++ boundary ++ rest) =
    13 :: 10 :: (bytes "--" ++ boundary ++ rest) from rfl, hall]
  simp only [Option.map_some, List.length_nil, Option.some.injEq]
  omega

/-- A text that begins with the dashes is not found before them. -/
private theorem dashes_first (hB : NoLineEnd boundary)
    (hdata : ¬ bytes "--" ++ boundary <:+: data) {rest : Bytes} {j : Nat}
    (h : bytes "--" ++ boundary <+:
      (data ++ (crlf ++ (bytes "--" ++ boundary ++ rest))).drop j) : data.length + 2 ≤ j := by
  by_contra hlt
  exact ((find_eq_some_iff _ _ _).mp (find_dashes hB hdata rest)).2.2 j (by omega) h

private theorem dashes_prefix_start (boundary : Bytes) :
    bytes "--" ++ boundary <+: startBoundary boundary :=
  List.prefix_append _ _

/-- The start boundary of the next part. -/
theorem find_start_next (hB : NoLineEnd boundary) (hdata : ¬ bytes "--" ++ boundary <:+: data)
    (rest : Bytes) :
    find (startBoundary boundary) (data ++ (crlf ++ (startBoundary boundary ++ rest))) =
      some (data.length + 2) := by
  have hshape : startBoundary boundary ++ rest = bytes "--" ++ boundary ++ (crlf ++ rest) := by
    simp [startBoundary]
  have hdrop : (data ++ (crlf ++ (startBoundary boundary ++ rest))).drop (data.length + 2) =
      startBoundary boundary ++ rest := by
    rw [← List.drop_drop, List.drop_left]
    rfl
  rw [find_eq_some_iff]
  refine ⟨by rw [hdrop]; exact List.prefix_append _ _, by simp [crlf], ?_⟩
  intro j hj hpre
  rw [hshape] at hpre
  have hle := dashes_first hB hdata ((dashes_prefix_start boundary).trans hpre)
  omega

private theorem end_drop_two (boundary : Bytes) :
    (endBoundary boundary).drop 2 = bytes "--" ++ boundary ++ (bytes "--" ++ crlf) := by
  simp [endBoundary, crlf]

/-- An end boundary does not stand before the next start boundary. -/
theorem end_after_data (hB : NoLineEnd boundary) (hdata : ¬ bytes "--" ++ boundary <:+: data)
    {rest : Bytes} {k : Nat}
    (h : find (endBoundary boundary) (data ++ (crlf ++ (bytes "--" ++ boundary ++ rest))) = some k) :
    data.length ≤ k := by
  have hpre : bytes "--" ++ boundary <+:
      (data ++ (crlf ++ (bytes "--" ++ boundary ++ rest))).drop (k + 2) := by
    obtain ⟨tail, htail⟩ := prefix_of_find h
    rw [← List.drop_drop, ← htail, List.drop_append_of_le_length (by simp [endBoundary, crlf]),
      end_drop_two]
    exact ⟨(bytes "--" ++ crlf) ++ tail, by simp⟩
  have hle := dashes_first hB hdata hpre
  omega

/-- The end boundary after the last data. -/
theorem find_end (hB : NoLineEnd boundary) (hdata : ¬ bytes "--" ++ boundary <:+: data) :
    find (endBoundary boundary) (data ++ endBoundary boundary) = some data.length := by
  cases hfind : find (endBoundary boundary) (data ++ endBoundary boundary) with
  | none =>
      rw [find_eq_none_iff] at hfind
      exact absurd (List.suffix_append _ _).isInfix hfind
  | some k =>
      have hle := find_add_length_le hfind
      have hshape : endBoundary boundary =
          crlf ++ (bytes "--" ++ boundary ++ (bytes "--" ++ crlf)) := by
        simp [endBoundary]
      rw [List.length_append] at hle
      have hge := end_after_data hB hdata (k := k) (by rwa [← hshape])
      congr 1
      omega

/-- Two dashes go past a boundary of dashes only. -/
private theorem dashes_of_commute :
    ∀ boundary : Bytes, boundary ++ bytes "--" = bytes "--" ++ boundary →
      ∀ c ∈ boundary, c = 45
  | [], _ => by simp
  | [b], h => by
      have hb : b = 45 := (List.cons.inj h).1
      simpa using hb
  | b :: c :: rest, h => by
      have hb : b = 45 := (List.cons.inj h).1
      have hc : c = 45 := (List.cons.inj (List.cons.inj h).2).1
      have hrest : rest ++ bytes "--" = bytes "--" ++ rest := by
        have htail : rest ++ bytes "--" = b :: c :: rest :=
          (List.cons.inj (List.cons.inj h).2).2
        rw [htail, hb, hc]
        rfl
      intro d hd
      rcases List.mem_cons.mp hd with rfl | hd
      · exact hb
      · rcases List.mem_cons.mp hd with rfl | hd
        · exact hc
        · exact dashes_of_commute rest hrest d hd

/-- The closing line has no start boundary in it. -/
theorem find_start_closing (hB : NoLineEnd boundary) (hdashes : ∃ c ∈ boundary, c ≠ 45)
    (hdata : ¬ bytes "--" ++ boundary <:+: data) :
    find (startBoundary boundary) (data ++ endBoundary boundary) = none := by
  rw [find_eq_none_iff]
  intro hin
  obtain ⟨before, after, happend⟩ := hin
  have hshape : endBoundary boundary =
      crlf ++ (bytes "--" ++ boundary ++ (bytes "--" ++ crlf)) := by
    simp [endBoundary]
  have hpre : startBoundary boundary <+: (data ++ endBoundary boundary).drop before.length := by
    refine ⟨after, ?_⟩
    rw [← happend, List.append_assoc, List.drop_left]
  have hge : data.length + 2 ≤ before.length := by
    rw [hshape] at hpre
    exact dashes_first hB hdata ((dashes_prefix_start boundary).trans hpre)
  have hlen := congrArg List.length happend
  have hsizeS : (startBoundary boundary).length = boundary.length + 4 := by
    simp [startBoundary, bytes, crlf]
  have hsizeE : (endBoundary boundary).length = boundary.length + 8 := by
    simp [endBoundary, bytes, crlf]
  simp only [List.length_append] at hlen
  obtain ⟨i, hi⟩ : ∃ i, before.length = data.length + 2 + i := ⟨_, (Nat.add_sub_cancel' hge).symm⟩
  have hclosing : (data ++ endBoundary boundary).drop before.length =
      (45 :: 45 :: (boundary ++ [45, 45, 13, 10])).drop i := by
    rw [hi, ← List.drop_drop, ← List.drop_drop, List.drop_left, hshape]
    simp [bytes, crlf]
  have hstart : startBoundary boundary = 45 :: 45 :: (boundary ++ [13, 10]) := by
    simp [startBoundary, bytes, crlf]
  rw [hclosing, hstart] at hpre
  have hat : (45 :: 45 :: (boundary ++ [45, 45, 13, 10]))[i + (boundary.length + 2)]? =
      some (13 : UInt8) := by
    obtain ⟨rest, hrest⟩ := hpre
    rw [← List.getElem?_drop, ← hrest]
    simp
  have hcase : i = 0 ∨ i = 1 ∨ i = 2 := by omega
  rcases hcase with rfl | rfl | rfl
  · simp at hat
  · have hsum : 1 + (boundary.length + 2) = boundary.length + 1 + 2 := by omega
    rw [hsum] at hat
    simp at hat
  · -- the boundary begins at the second dash of the closing line
    have heq : 45 :: 45 :: (boundary ++ [13, 10]) = boundary ++ [45, 45, 13, 10] :=
      hpre.eq_of_length (by simp)
    have hcommute : boundary ++ bytes "--" = bytes "--" ++ boundary := by
      have hcancel : boundary ++ bytes "--" ++ [13, 10] = bytes "--" ++ boundary ++ [13, 10] := by
        rw [List.append_assoc]
        exact heq.symm
      exact List.append_cancel_right hcancel
    obtain ⟨c, hc, hne⟩ := hdashes
    exact hne (dashes_of_commute boundary hcommute c hc)

/-- A boundary of dashes stands in its own closing line. -/
theorem start_infix_end (hdashes : ∀ c ∈ boundary, c = 45) :
    startBoundary boundary <:+: endBoundary boundary := by
  have hreplicate : boundary = List.replicate boundary.length 45 := List.eq_replicate_of_mem hdashes
  refine ⟨crlf ++ bytes "--", [], ?_⟩
  have hcommute : bytes "--" ++ boundary = boundary ++ bytes "--" := by
    rw [hreplicate]
    change List.replicate 2 45 ++ _ = _ ++ List.replicate 2 45
    rw [List.replicate_append_replicate, List.replicate_append_replicate, Nat.add_comm]
  simp only [startBoundary, endBoundary, List.append_assoc, List.append_nil]
  rw [← List.append_assoc (bytes "--") boundary crlf, hcommute, List.append_assoc]

end Boundaries

namespace Part

end Part

end FortyTwo.Webserv
