import FortyTwo.Foundation.Json
import FortyTwo.Webserv.ServerResponse

/-!
What a JSON reader makes of the listing that `generate_directory` writes. The
names go into the text as they are, between quotes.
-/

namespace FortyTwo.Webserv

open Foundation ServerResponse

/-- The names without `.` and `..`. -/
def listedNames (entries : List Bytes) : List Bytes :=
  entries.filter (fun name => name != bytes "." && name != bytes "..")

/-- The listing of a directory with these entries is an array of strings, and
stands for their names. -/
def ListsExactly (fs : FileSystem) (path : Bytes) (entries : List Bytes) : Prop :=
  Json.decodeStrings (generateDirectory fs path) = some (listedNames entries)

/-- No character of the name has to be escaped in a string. -/
def NeedsNoEscape (name : Bytes) : Prop := ∀ c ∈ name, 32 ≤ c ∧ c ≠ 34 ∧ c ≠ 92

theorem needsNoEscape_iff (name : Bytes) :
    NeedsNoEscape name ↔ ∀ c ∈ name, Json.isPlain c = true := by
  simp [NeedsNoEscape, Json.isPlain, and_assoc]

instance (name : Bytes) : Decidable (NeedsNoEscape name) :=
  decidable_of_iff (name.all Json.isPlain = true)
    (by rw [needsNoEscape_iff, List.all_eq_true])

theorem generateDirectory_eq {fs : FileSystem} {path : Bytes} {entries : List Bytes}
    (h : fs.entries path = some entries) :
    generateDirectory fs path = Json.renderArray (listedNames entries) := by
  have hquote : (fun name : Bytes => bytes "\"" ++ name ++ bytes "\"") = Json.quote := by
    funext name
    rfl
  simp only [generateDirectory, h, hquote]
  rfl

/-- `.` and `..` need no escape, so it does not matter that they are left out. -/
private theorem forall_listedNames_iff (entries : List Bytes) :
    (∀ name ∈ listedNames entries, NeedsNoEscape name) ↔
      ∀ name ∈ entries, NeedsNoEscape name := by
  constructor
  · intro h name hname
    by_cases hdot : name = bytes "." ∨ name = bytes ".."
    · have hdots : NeedsNoEscape (bytes ".") ∧ NeedsNoEscape (bytes "..") := by
        constructor <;> decide +kernel
      rcases hdot with rfl | rfl
      · exact hdots.1
      · exact hdots.2
    · rw [not_or] at hdot
      exact h name (List.mem_filter.mpr ⟨hname, by simpa using hdot⟩)
  · intro h name hname
    exact h name (List.mem_filter.mp hname).1

theorem listsExactly_iff {fs : FileSystem} {path : Bytes} {entries : List Bytes}
    (h : fs.entries path = some entries) :
    ListsExactly fs path entries ↔ ∀ name ∈ entries, NeedsNoEscape name := by
  rw [ListsExactly, generateDirectory_eq h, Json.decodeStrings_renderArray_iff,
    ← forall_listedNames_iff]
  simp only [needsNoEscape_iff]

/-- A directory with these entries. -/
private def directoryOf (entries : List Bytes) : FileSystem where
  node := fun _ => some (.directory entries none)
  readable := fun _ => true
  appendable := fun _ => false
  removable := fun _ => false

/-- A name with a quote in it. -/
theorem not_listsExactly_quote :
    ¬ ListsExactly (directoryOf [bytes ".", bytes "..", bytes "a\"b"]) (bytes "/uploads")
      [bytes ".", bytes "..", bytes "a\"b"] := by
  rw [ListsExactly]
  decide

theorem listsExactly_plain :
    ListsExactly (directoryOf [bytes ".", bytes "..", bytes "a b"]) (bytes "/uploads")
      [bytes ".", bytes "..", bytes "a b"] :=
  (listsExactly_iff rfl).mpr (by
    intro name hname
    fin_cases hname <;> decide +kernel)

end FortyTwo.Webserv
