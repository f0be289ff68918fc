import FortyTwo.Webserv.MultipartFraming
import FortyTwo.Webserv.PartHeaderFields

/-!
Parts that carry files, and the name under which the parser takes each of them.
-/

namespace FortyTwo.Webserv

open Foundation

/-- A file as a part of a body: its name is that of an entry of a directory, and
quotes can hold it. -/
structure FilePart (boundary : Bytes) where
  name : Bytes
  filename : Bytes
  contentType : Option (Bytes × Bytes)
  data : Bytes
  name_line : 13 ∉ name
  name_key : ¬ bytes "filename" <:+: name
  filename_ne : filename ≠ []
  filename_entry : byteOf '/' ∉ filename
  filename_quotable : ∀ c ∈ filename, isQuotable c = true
  type_line : ∀ type subtype, contentType = some (type, subtype) → 13 ∉ type ++ subtype
  data_free : ¬ bytes "--" ++ boundary <:+: data

namespace FilePart

variable {boundary : Bytes} (file : FilePart boundary)

def part : Part where
  name := file.name
  filename := some (escape file.filename)
  contentType := file.contentType
  data := file.data

/-- The file name that the parser gives to the part. -/
def filenameRead : Bytes := file.part.contentRead.filename

private def beforeKey : Bytes :=
  bytes "Content-Disposition: form-data; name=\"" ++ file.name ++ bytes "\"; "

private theorem disposition_eq : file.part.disposition =
    file.beforeKey ++ (bytes "filename=" ++ (quote (escape file.filename) ++ [])) := by
  simp [Part.disposition, part, beforeKey, quote, bytes]

private theorem find_key :
    find (bytes "filename") file.part.disposition = some file.beforeKey.length := by
  have hkey : find (bytes "filename")
      (bytes "; filename=\"" ++ escape file.filename ++ bytes "\"") = some 2 := rfl
  rw [Part.disposition, part]
  simp only
  rw [Part.find_filename file.name_key, hkey, Option.map_some, beforeKey]
  simp [bytes]
  omega

/-- How the parser reads the file name from the line of the part. -/
private theorem parseFilename_part : parseFilename file.part.disposition [] =
    match parseQuotedString file.part.disposition
      (file.beforeKey ++ bytes "filename=").length with
    | .ok (text, _) => (.ok, text)
    | .error status => (status, []) :=
  PartHeader.parseFilename_inside file.disposition_eq file.find_key []

theorem legible : file.part.Legible boundary where
  disposition_line := by
    have hfilename : 13 ∉ escape file.filename := by
      intro hmem
      rcases mem_escape hmem with hin | hslash
      · exact absurd (file.filename_quotable 13 hin) (by decide)
      · exact absurd hslash (by decide)
    have hbefore : 13 ∉ bytes "Content-Disposition: form-data; name=\"" := by decide
    have hbetween : 13 ∉ bytes "\"; " := by decide
    have hkey : 13 ∉ bytes "filename=" := by decide
    rw [disposition_eq, beforeKey]
    simp [quote, hfilename, hbefore, hbetween, hkey, file.name_line]
  filename_taken := by
    rw [parseFilename_part]
    cases hparse : parseQuotedString file.part.disposition
        (file.beforeKey ++ bytes "filename=").length with
    | ok r => exact fun h => absurd (show Status.ok = .badRequest from h) (by decide)
    | error status =>
        rintro rfl
        exact absurd (parseQuotedString_error hparse) (by decide)
  type_line := by
    intro type subtype htype
    have hclass := file.type_line type subtype htype
    rw [List.mem_append, not_or] at hclass
    have hkey : (13 : UInt8) ∉ bytes "Content-Type: " := by decide
    have hslash : (13 : UInt8) ∉ bytes "/" := by decide
    simp [Part.typeLine, hclass, hkey, hslash]
  data_free := file.data_free

theorem filenameRead_of_onlyLastBlank (h : OnlyLastBlank [] file.filename) :
    file.filenameRead = file.filename := by
  have hreads := ReadsBack.of_onlyLastBlank (file.beforeKey ++ bytes "filename=") []
    file.filename_quotable h
  rw [filenameRead, Part.contentRead,
    PartHeader.parseFilename_quote file.disposition_eq file.find_key hreads]

/-- A name with a blank before its end is read as a shorter one. -/
theorem filenameRead_length_lt (h : ¬ OnlyLastBlank [] file.filename) :
    file.filenameRead.length < file.filename.length := by
  rw [filenameRead, Part.contentRead, parseFilename_part]
  cases hparse : parseQuotedString file.part.disposition
      (file.beforeKey ++ bytes "filename=").length with
  | error status => exact List.length_pos_iff.mpr file.filename_ne
  | ok r =>
      have hstop := stop_lt_of_parseQuotedString hparse
      rw [disposition_eq, ← List.append_assoc] at hparse hstop
      refine length_lt_of_blank _ [] file.filename_quotable h ?_ hparse
      simp only [quote, List.length_append, List.length_cons, List.length_nil] at hstop ⊢
      omega

/-- When the names are distinct and each one is the name of a file that is read,
each file is read under its own. -/
theorem onlyLastBlank_of_read {files : List (FilePart boundary)}
    (hnames : (files.map filename).Nodup)
    (hread : ∀ file ∈ files, ∃ other ∈ files, other.filenameRead = file.filename) :
    ∀ file ∈ files, OnlyLastBlank [] file.filename := by
  by_contra hnot
  simp only [not_forall, exists_prop] at hnot
  -- a name that is read as a shorter one is read from a longer one that is, too
  have hlonger : ∀ n, ∃ file ∈ files, ¬ OnlyLastBlank [] file.filename ∧
      n ≤ file.filename.length := by
    intro n
    induction n with
    | zero =>
        obtain ⟨file, hfile, hblank⟩ := hnot
        exact ⟨file, hfile, hblank, Nat.zero_le _⟩
    | succ n ih =>
        obtain ⟨file, hfile, hblank, hle⟩ := ih
        obtain ⟨other, hother, hread⟩ := hread file hfile
        have hblank' : ¬ OnlyLastBlank [] other.filename := by
          intro hplain
          have hname := (other.filenameRead_of_onlyLastBlank hplain).symm.trans hread
          rw [List.inj_on_of_nodup_map hnames hother hfile hname] at hplain
          exact hblank hplain
        have hlt := other.filenameRead_length_lt hblank'
        rw [hread] at hlt
        exact ⟨other, hother, hblank', by omega⟩
  obtain ⟨file, hfile, _, hle⟩ := hlonger ((files.map (fun file => file.filename.length)).sum + 1)
  have hsum : file.filename.length ≤ (files.map (fun file => file.filename.length)).sum :=
    List.le_sum_of_mem (List.mem_map_of_mem hfile)
  omega

end FilePart

end FortyTwo.Webserv
