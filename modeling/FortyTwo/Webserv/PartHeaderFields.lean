import FortyTwo.Webserv.MultipartFormat
import FortyTwo.Webserv.QuotedString

/-!
What `parse_name`, `parse_filename` and `parse_content_type`
(`RequestMultipartBodyParser.cpp`) return for the lines of a part's header. Each
of them looks for its key in the line as a whole.
-/

namespace FortyTwo.Webserv

open Foundation

/-- How a file name is written: in quotes or as a token. -/
inductive FilenameText where
  | quoted (filename : Bytes)
  | unquoted (filename : Bytes)

namespace FilenameText

def filename : FilenameText → Bytes
  | quoted filename => filename
  | unquoted filename => filename

def text : FilenameText → Bytes
  | quoted filename => quote (escape filename)
  | unquoted filename => filename

/-- Quotable characters in quotes, or a token. -/
def WellFormed : FilenameText → Prop
  | quoted filename => ∀ c ∈ filename, isQuotable c = true
  | unquoted filename => filename ≠ [] ∧ ∀ c ∈ filename, isTypeChar c = true

end FilenameText

/-- The attributes of a part, in either order, and its content type. -/
structure PartHeader where
  name : Bytes
  filename : FilenameText
  filenameFirst : Bool
  type : Bytes
  subtype : Bytes
  name_quotable : ∀ c ∈ name, isQuotable c = true
  name_free : byteOf '"' ∉ name
  filename_wellFormed : filename.WellFormed
  type_ne : type ≠ []
  type_token : ∀ c ∈ type, isTypeChar c = true
  subtype_ne : subtype ≠ []
  subtype_token : ∀ c ∈ subtype, isTypeChar c = true

namespace PartHeader

def nameText (h : PartHeader) : Bytes := bytes "; name=" ++ quote h.name

def filenameText (h : PartHeader) : Bytes := bytes "; filename=" ++ h.filename.text

def disposition (h : PartHeader) : Bytes :=
  bytes "Content-Disposition: form-data" ++
    if h.filenameFirst then h.filenameText ++ h.nameText else h.nameText ++ h.filenameText

def typeLine (h : PartHeader) : Bytes := Part.typeLine h.type h.subtype

/-- The three parsers return what the lines say, whatever the part had before. -/
def ReturnsExactly (h : PartHeader) : Prop :=
  ∀ content : RequestContent,
    parseName h.disposition content.name = (.ok, h.name) ∧
    parseFilename h.disposition content.filename = (.ok, h.filename.filename) ∧
    parseContentType h.typeLine content.contentType = (.ok, h.type ++ byteOf '/' :: h.subtype)

section Name

private theorem parseName_of_find {line front inside rest : Bytes}
    (hline : line = front ++ (bytes "name=\"" ++ (inside ++ byteOf '"' :: rest)))
    (hfind : find (bytes "name=\"") line = some front.length) (hfree : byteOf '"' ∉ inside)
    (out : Bytes) : parseName line out = (.ok, inside) := by
  have hsize : (bytes "name=\"").length = 6 := rfl
  have hdrop : line.drop (front.length + 6) = inside ++ byteOf '"' :: rest := by
    rw [hline, ← List.drop_drop, List.drop_left, ← hsize, List.drop_left]
  have hle : front.length + 6 ≤ line.length := find_add_length_le hfind
  have hquote : findFrom [34] line (front.length + 6) = some (inside.length + (front.length + 6)) := by
    rw [findFrom, if_neg (by omega), hdrop]
    exact Option.map_eq_some_iff.mpr ⟨_, find_single hfree rest, rfl⟩
  rw [parseName, hfind]
  simp only [hquote, hdrop, Nat.add_sub_cancel, List.take_left]

/-- A key that ends in a quote does not begin in front of the first one. -/
private theorem find_nameKey {front : Bytes} (hfree : byteOf '"' ∉ front) (rest : Bytes) :
    find (bytes "name=\"") (front ++ (bytes "name=\"" ++ rest)) = some front.length := by
  have hquote : byteOf '"' ∉ front ++ bytes "name=" := by
    have hkey : byteOf '"' ∉ bytes "name=" := by decide
    simp [hfree, hkey]
  rw [find_eq_some_iff]
  refine ⟨by rw [List.drop_left]; exact List.prefix_append _ _, by simp, ?_⟩
  rintro j hj ⟨more, hmore⟩
  have hat : (front ++ (bytes "name=\"" ++ rest))[j + 5]? = some (byteOf '"') := by
    rw [← List.getElem?_drop, ← hmore]
    rfl
  have hsplit : front ++ (bytes "name=\"" ++ rest) =
      (front ++ bytes "name=") ++ byteOf '"' :: rest := by
    rw [List.append_assoc]
    rfl
  have hsize : (front ++ bytes "name=").length = front.length + 5 := by
    rw [List.length_append]
    rfl
  rw [hsplit, List.getElem?_append_left (by omega)] at hat
  exact hquote (List.mem_of_getElem? hat)

variable (h : PartHeader)

/-- The name comes back, unless a quoted file name stands in front of it. -/
theorem parseName_disposition
    (hfirst : h.filenameFirst = true → ∃ token, h.filename = .unquoted token) (out : Bytes) :
    parseName h.disposition out = (.ok, h.name) := by
  cases horder : h.filenameFirst with
  | false =>
      have hfree : byteOf '"' ∉ bytes "Content-Disposition: form-data; " := by decide
      have hline : h.disposition = bytes "Content-Disposition: form-data; " ++
          (bytes "name=\"" ++ (h.name ++ byteOf '"' :: h.filenameText)) := by
        simp [disposition, horder, nameText, quote, bytes, byteOf]
      exact parseName_of_find hline (hline ▸ find_nameKey hfree _) h.name_free out
  | true =>
      obtain ⟨token, htoken⟩ := hfirst horder
      have hclass : ∀ c ∈ token, isTypeChar c = true := by
        have hfilename := h.filename_wellFormed
        rw [htoken] at hfilename
        exact hfilename.2
      have hfree : byteOf '"' ∉
          bytes "Content-Disposition: form-data; filename=" ++ token ++ bytes "; " := by
        have hquote : byteOf '"' ∉ token := not_mem_of_class hclass rfl
        have hfront : byteOf '"' ∉ bytes "Content-Disposition: form-data; filename=" := by decide
        have hbetween : byteOf '"' ∉ bytes "; " := by decide
        simp [hquote, hfront, hbetween]
      have hline : h.disposition =
          (bytes "Content-Disposition: form-data; filename=" ++ token ++ bytes "; ") ++
            (bytes "name=\"" ++ (h.name ++ byteOf '"' :: [])) := by
        simp [disposition, horder, htoken, filenameText, FilenameText.text, nameText, quote, bytes,
          byteOf]
      exact parseName_of_find hline (hline ▸ find_nameKey hfree _) h.name_free out

/-- Behind a quoted file name, that is taken for the name. -/
theorem parseName_of_filenameFirst (hfirst : h.filenameFirst = true) {filename : Bytes}
    (hquoted : h.filename = .quoted filename) (hfree : byteOf '"' ∉ filename) (out : Bytes) :
    parseName h.disposition out = (.ok, escape filename) := by
  have hfront : byteOf '"' ∉ bytes "Content-Disposition: form-data; file" := by decide
  have hinside : byteOf '"' ∉ escape filename := by
    intro hmem
    rcases mem_escape hmem with hmem | hslash
    · exact hfree hmem
    · exact absurd hslash (by decide)
  have hline : h.disposition = bytes "Content-Disposition: form-data; file" ++
      (bytes "name=\"" ++ (escape filename ++ byteOf '"' :: h.nameText)) := by
    simp [disposition, hfirst, hquoted, filenameText, FilenameText.text, quote, bytes, byteOf]
  exact parseName_of_find hline (hline ▸ find_nameKey hfront _) hinside out

end Name

section Filename

variable {front suffix : Bytes}

private theorem charAt_key (rest : Bytes) :
    charAt (front ++ (bytes "filename=" ++ rest)) (front.length + 8) = byteOf '=' := by
  rw [charAt_append_right]
  rfl

private theorem charAt_behindKey (c : UInt8) (rest : Bytes) :
    charAt (front ++ (bytes "filename=" ++ c :: rest)) (front.length + 8 + 1) = c := by
  rw [Nat.add_assoc, charAt_append_right]
  rfl

/-- The two skips of whitespace stop where they start. -/
private theorem skips_of_find {line rest : Bytes} {c : UInt8}
    (hline : line = front ++ (bytes "filename=" ++ c :: rest)) (hcr : c ≠ 13)
    (hws : isWs c = false) :
    skipOwsAndFolds line line.length (front.length + 8) = front.length + 8 ∧
      charAt line (front.length + 8) = byteOf '=' ∧
      skipOwsAndFolds line line.length (front.length + 8 + 1) = front.length + 8 + 1 ∧
      charAt line (front.length + 8 + 1) = c := by
  have hkey : charAt line (front.length + 8) = byteOf '=' := hline ▸ charAt_key _
  have hbehind : charAt line (front.length + 8 + 1) = c := hline ▸ charAt_behindKey c rest
  refine ⟨?_, hkey, ?_, hbehind⟩
  · exact skipOwsAndFolds_of_not _ _ _ (by rw [hkey]; decide) (by rw [hkey]; decide)
  · exact skipOwsAndFolds_of_not _ _ _ (by rwa [hbehind]) (by rwa [hbehind])

/-- A file name in quotes is what `parse_quoted_string` makes of it. -/
theorem parseFilename_inside {line inside : Bytes}
    (hline : line = front ++ (bytes "filename=" ++ (quote inside ++ suffix)))
    (hfind : find (bytes "filename") line = some front.length) (out : Bytes) :
    parseFilename line out =
      match parseQuotedString line (front ++ bytes "filename=").length with
      | .ok (text, _) => (.ok, text)
      | .error status => (status, out) := by
  obtain ⟨hskip, hkey, hskip', hbehind⟩ := skips_of_find hline (by decide) rfl
  have hsize : (front ++ bytes "filename=").length = front.length + 8 + 1 := by
    rw [List.length_append]
    rfl
  rw [parseFilename, hfind, hsize]
  cases hparse : parseQuotedString line (front.length + 8 + 1) with
  | ok r =>
      simp only [hskip, hkey, ne_eq, not_true_eq_false, if_false, hskip', hbehind, if_true, hparse]
  | error status =>
      simp only [hskip, hkey, ne_eq, not_true_eq_false, if_false, hskip', hbehind, if_true, hparse]

theorem parseFilename_quote {line filename : Bytes}
    (hline : line = front ++ (bytes "filename=" ++ (quote (escape filename) ++ suffix)))
    (hfind : find (bytes "filename") line = some front.length)
    (hreads : ReadsBack (front ++ bytes "filename=") filename suffix) (out : Bytes) :
    parseFilename line out = (.ok, filename) := by
  rw [ReadsBack, List.append_assoc, ← hline] at hreads
  rw [parseFilename_inside hline hfind, hreads]

private theorem parseFilename_token {line rest : Bytes} {c : UInt8}
    (hline : line = front ++ (bytes "filename=" ++ c :: rest))
    (hfind : find (bytes "filename") line = some front.length) (hc : isTypeChar c = true)
    (out : Bytes) :
    parseFilename line out = parseUnquotedFilename line (front.length + 8 + 1) out := by
  have hother : ∀ d, isTypeChar d = false → c ≠ d := by
    rintro d hd rfl
    rw [hc] at hd
    cases hd
  have hws : isWs c = false := by
    simp [isWs, hother 32 rfl, hother 9 rfl]
  obtain ⟨hskip, hkey, hskip', hbehind⟩ := skips_of_find hline (hother 13 rfl) hws
  rw [parseFilename, hfind]
  simp only [hskip, hkey, ne_eq, not_true_eq_false, if_false, hskip', hbehind,
    if_neg (hother 34 rfl)]

variable (h : PartHeader)

/-- The attributes behind the file name. -/
def behindFilename : Bytes := if h.filenameFirst then h.nameText else []

/-- The key of the file name is the first one, unless it stands in the name in
front of it. -/
private theorem find_filenameKey
    (hname : h.filenameFirst = true ∨ ¬ bytes "filename" <:+: h.name) :
    ∃ front, h.disposition = front ++ (bytes "filename=" ++ (h.filename.text ++ behindFilename h)) ∧
      find (bytes "filename") h.disposition = some front.length := by
  cases horder : h.filenameFirst with
  | true =>
      refine ⟨bytes "Content-Disposition: form-data; ", ?_, ?_⟩
      · simp [disposition, horder, filenameText, behindFilename, bytes]
      · rw [disposition, horder, if_pos rfl]
        rfl
  | false =>
      have hfree : ¬ bytes "filename" <:+: h.name := by simpa [horder] using hname
      have hline : h.disposition =
          bytes "Content-Disposition: form-data; name=\"" ++ h.name ++ bytes "\"" ++
            h.filenameText := by
        simp [disposition, horder, nameText, quote, bytes]
      have hkey : find (bytes "filename") h.filenameText = some 2 := rfl
      refine ⟨bytes "Content-Disposition: form-data; name=\"" ++ h.name ++ bytes "\"; ", ?_, ?_⟩
      · simp [hline, filenameText, behindFilename, horder, bytes]
      · rw [hline, Part.find_filename hfree, hkey]
        simp [bytes]
        omega

/-- A quoted file name comes back if no blank stands in it but at its end. -/
theorem parseFilename_quoted {filename : Bytes} (hquoted : h.filename = .quoted filename)
    (hname : h.filenameFirst = true ∨ ¬ bytes "filename" <:+: h.name)
    (hblank : OnlyLastBlank (behindFilename h) filename) (out : Bytes) :
    parseFilename h.disposition out = (.ok, filename) := by
  obtain ⟨front, hline, hfind⟩ := find_filenameKey h hname
  have hquotable : ∀ c ∈ filename, isQuotable c = true := by
    have hfilename := h.filename_wellFormed
    rwa [hquoted] at hfilename
  rw [hquoted] at hline
  exact parseFilename_quote hline hfind (.of_onlyLastBlank _ _ hquotable hblank) out

/-- The end of the value is taken for its length, so the delimiter itself is part
of what is cut out. -/
private theorem parseUnquotedFilename_ne {line token : Bytes} {pos : Nat} (hpos : 0 < pos)
    (htoken : ∀ c ∈ token, isTypeChar c = true) (out : Bytes) :
    parseUnquotedFilename line pos out ≠ (.ok, token) := by
  have hcut : ∀ (c : UInt8) (delim : Bytes) (stop : Nat),
      findFrom (c :: delim) line pos = some stop → isTypeChar c = false →
      (line.drop pos).take stop ≠ token := by
    rintro c delim stop hfind hc rfl
    obtain ⟨rest, hrest⟩ := prefix_of_findFrom hfind
    have hle := ((findFrom_eq_some_iff _ _ _ _).mp hfind).1
    have hat : ((line.drop pos).take stop)[stop - pos]? = some c := by
      rw [List.getElem?_take_of_lt (by omega), List.getElem?_drop, Nat.add_sub_cancel' hle,
        ← List.head?_drop, ← hrest]
      rfl
    rw [htoken c (List.mem_of_getElem? hat)] at hc
    cases hc
  rw [parseUnquotedFilename]
  simp only [isStringValidToken_eq_true, Bool.not_true, Bool.false_eq_true, if_false]
  intro hok
  cases hcrlf : findFrom crlf line pos with
  | some stop =>
      simp only [hcrlf] at hok
      split at hok
      · cases hok
      · exact hcut 13 [10] stop hcrlf rfl (Prod.mk.inj hok).2
  | none =>
      cases hsemicolon : findFrom (bytes "; ") line pos with
      | none =>
          simp only [hcrlf, hsemicolon] at hok
          cases hok
      | some stop =>
          simp only [hcrlf, hsemicolon] at hok
          split at hok
          · cases hok
          · exact hcut (byteOf ';') [byteOf ' '] stop hsemicolon rfl (Prod.mk.inj hok).2

/-- An unquoted one never does: at the end of the line it is refused, and in
front of the name it comes back with more of the line. -/
theorem parseFilename_unquoted {token : Bytes} (hunquoted : h.filename = .unquoted token)
    (hname : h.filenameFirst = true ∨ ¬ bytes "filename" <:+: h.name) (out : Bytes) :
    parseFilename h.disposition out ≠ (.ok, token) := by
  obtain ⟨front, hline, hfind⟩ := find_filenameKey h hname
  have htoken := h.filename_wellFormed
  rw [hunquoted] at htoken hline
  obtain ⟨hne, hclass⟩ := htoken
  obtain ⟨c, more, rfl⟩ := List.exists_cons_of_ne_nil hne
  rw [parseFilename_token hline hfind (hclass c (by simp))]
  exact parseUnquotedFilename_ne (Nat.succ_pos _) hclass out

end Filename

variable (h : PartHeader)

/-- The text behind the key is never cut out: a content type that is accepted
comes back with the key in front. -/
theorem typeLine_of_parseContentType {mime out : Bytes}
    (hok : parseContentType h.typeLine mime = (.ok, out)) : out = h.typeLine := by
  have hkey : find (bytes "Content-Type: ") h.typeLine = some 0 := by
    rw [find_eq_zero_iff]
    exact ⟨h.type ++ byteOf '/' :: h.subtype, by simp [typeLine, Part.typeLine, bytes, byteOf]⟩
  rw [parseContentType, hkey] at hok
  simp only [isStringValidToken_eq_true, Bool.not_true, Bool.false_eq_true, if_false] at hok
  split at hok
  · cases hok
  · split at hok
    · cases hok
    · exact (Prod.mk.inj hok).2.symm

/-- The content type never comes back as it is written. -/
theorem not_returnsExactly : ¬ h.ReturnsExactly := by
  intro hreturns
  obtain ⟨_, _, htype⟩ := hreturns {}
  have hlen := congrArg List.length (h.typeLine_of_parseContentType htype)
  simp [typeLine, Part.typeLine, bytes] at hlen
  omega

/-- A text file in a form. -/
private def textFile : PartHeader where
  name := bytes "file"
  filename := .quoted (bytes "a.txt")
  filenameFirst := false
  type := bytes "text"
  subtype := bytes "plain"
  name_quotable := by decide +kernel
  name_free := by decide
  filename_wellFormed := show ∀ c ∈ bytes "a.txt", isQuotable c = true by decide +kernel
  type_ne := by decide
  type_token := by decide +kernel
  subtype_ne := by decide
  subtype_token := by decide +kernel

theorem not_returnsExactly_textFile : ¬ textFile.ReturnsExactly := by
  intro hreturns
  have htype := (hreturns {}).2.2
  revert htype
  decide

end PartHeader

end FortyTwo.Webserv
