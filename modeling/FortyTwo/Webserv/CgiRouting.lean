import Mathlib.Data.List.Basic
import FortyTwo.Webserv.Config

/-!
`get_cgi_bin` (`ServerUtils.cpp`) for a path and for the same path with a slash
behind it. The comment on `get_directory_path` says that both belong to the same
directory.
-/

namespace FortyTwo.Webserv

section Slash

variable {path : Bytes}

/-- The last `/` is the one that has been put behind the path. -/
theorem findLastOf_append (c d : UInt8) (path : Bytes) :
    findLastOf c (path ++ [d]) = if d = c then some path.length else findLastOf c path := by
  rw [findLastOf, List.reverse_append, List.reverse_singleton, List.singleton_append,
    List.idxOf?_cons, List.length_append, List.length_singleton]
  by_cases hd : d = c
  · simp [hd]
  · have hnot : (d == c) = false := beq_eq_false_iff_ne.mpr hd
    rw [hnot, if_neg hd, findLastOf]
    simp only [Bool.false_eq_true, if_false, Option.map_map]
    congr 1
    funext i
    simp only [Function.comp]
    omega

theorem findLastOf_lt {c : UInt8} {start : Nat} (h : findLastOf c path = some start) :
    start < path.length := by
  induction path using List.reverseRecOn with
  | nil => cases h
  | append_singleton path d ih =>
      rw [findLastOf_append] at h
      rw [List.length_append, List.length_singleton]
      split at h
      · have hstart := Option.some.inj h
        omega
      · have hlt := ih h
        omega

/-- A path with a slash behind it is its own directory. -/
theorem getDirectoryPath_slash (hne : path ≠ []) :
    getDirectoryPath (path ++ bytes "/") = path := by
  have hlast : findLastOf (byteOf '/') (path ++ bytes "/") = some path.length :=
    findLastOf_append _ _ path
  have hslash : path ++ bytes "/" ≠ bytes "/" := by
    intro h
    exact hne (by simpa using congrArg List.length h)
  rw [getDirectoryPath, if_neg (by simp [hne]), if_neg hslash, hlast]
  obtain ⟨c, rest, rfl⟩ := List.exists_cons_of_ne_nil hne
  exact List.take_left

/-- The extension of the path with a slash behind it. The slash becomes part of
it, unless the dot is one of the first two characters. -/
def slashedExtension (path : Bytes) : Bytes :=
  match findLastOf (byteOf '.') path with
  | none => []
  | some start =>
      if path.length < 2 ∨ start + 1 = path.length then []
      else (path.drop start ++ bytes "/").take (path.length - 1)

theorem getFileExtension_slash (hne : path ≠ []) :
    getFileExtension (path ++ bytes "/") = slashedExtension path := by
  have hlen : (path ++ bytes "/").length = path.length + 1 := by
    rw [List.length_append]
    rfl
  have hlast : charAt (path ++ bytes "/") path.length = byteOf '/' := charAt_append path _ []
  have hdot : findLastOf (byteOf '.') (path ++ bytes "/") = findLastOf (byteOf '.') path := by
    rw [show bytes "/" = [byteOf '/'] from rfl, findLastOf_append, if_neg (by decide)]
  have hpos := List.length_pos_iff.mpr hne
  rw [getFileExtension, slashedExtension, hlen]
  simp only [Nat.add_sub_cancel, hlast, if_true, hdot]
  cases hstart : findLastOf (byteOf '.') path with
  | none => simp
  | some start =>
      have hlt := findLastOf_lt hstart
      simp only
      by_cases hshort : path.length < 2
      · rw [if_pos (by omega), if_pos (Or.inl hshort)]
      · rw [if_neg (by omega)]
        by_cases hend : start + 1 = path.length
        · rw [if_pos (by omega), if_pos (Or.inr hend)]
        · rw [if_neg (by omega), if_neg (by simp [hshort, hend]),
            List.drop_append_of_le_length hlt.le]

end Slash

/-- The interpreter that the configuration has for an extension in a directory:
the one of the server, or of the first location that is the directory. -/
def Serves (config : Config) (directory extension bin : Bytes) : Prop :=
  extension ≠ [] ∧
    ((directory = bytes "/" ∧ config.common.cgi.lookup extension = some bin) ∨
      (directory ≠ [] ∧ directory ≠ bytes "/" ∧ ∃ before location after,
        config.location = before ++ location :: after ∧ location.path = directory ∧
        (∀ other ∈ before, other.path ≠ directory) ∧
        location.common.cgi.lookup extension = some bin))

theorem getCgiBin_eq_some_iff (path : Bytes) (config : Config) (bin : Bytes) :
    getCgiBin path config = some bin ↔
      Serves config (getDirectoryPath path) (getFileExtension path) bin := by
  unfold getCgiBin Serves
  generalize getDirectoryPath path = directory
  generalize getFileExtension path = extension
  simp only
  by_cases hext : extension = []
  · simp [hext]
  by_cases hnil : directory = []
  · have hroot : ([] : Bytes) ≠ bytes "/" := by decide
    simp [hnil, hroot]
  rw [if_neg (by simp [hext, hnil])]
  by_cases hroot : directory = bytes "/"
  · simp [hroot, hext]
  · simp only [hext, hnil, hroot, ne_eq, not_false_eq_true, true_and, false_and,
      false_or]
    cases hfind : config.location.find? (fun location => location.path == directory) with
    | none =>
        have hnone : ∀ location ∈ config.location, location.path ≠ directory := by
          simpa using hfind
        constructor
        · rintro ⟨⟩
        · rintro ⟨before, location, after, hsplit, hpath, _⟩
          exact absurd hpath (hnone location (hsplit ▸ by simp))
    | some found =>
        simp only
        constructor
        · intro hbin
          obtain ⟨hpath, before, after, hsplit, hbefore⟩ := List.find?_eq_some_iff_append.mp hfind
          exact ⟨before, found, after, hsplit, by simpa using hpath, by simpa using hbefore, hbin⟩
        · rintro ⟨before, location, after, hsplit, hpath, hbefore, hbin⟩
          have hlocation : config.location.find? (fun location => location.path == directory) =
              some location := by
            rw [List.find?_eq_some_iff_append]
            exact ⟨by simpa using hpath, before, after, hsplit, by simpa using hbefore⟩
          rw [hfind] at hlocation
          rwa [Option.some.inj hlocation]

/-- The path and the path with a slash behind it are routed alike. -/
def IgnoresSlash (config : Config) (path : Bytes) : Prop :=
  getCgiBin path config = getCgiBin (path ++ bytes "/") config

/-- Exactly when the configuration has, in a location that is the path itself and
for the extension with the slash, what it has for the extension in the directory
of the path. -/
theorem ignoresSlash_iff (config : Config) {path : Bytes} (hne : path ≠ []) :
    IgnoresSlash config path ↔ ∀ bin,
      (Serves config (getDirectoryPath path) (getFileExtension path) bin ↔
        Serves config path (slashedExtension path) bin) := by
  rw [IgnoresSlash, Option.ext_iff]
  simp only [getCgiBin_eq_some_iff, getDirectoryPath_slash hne, getFileExtension_slash hne]

/-- Where no location is the path itself, that means that it is no script. -/
theorem ignoresSlash_iff_of_no_location {config : Config} {path : Bytes} (hne : path ≠ [])
    (hroot : path ≠ bytes "/") (hnone : ∀ location ∈ config.location, location.path ≠ path) :
    IgnoresSlash config path ↔ getCgiBin path config = none := by
  have hslashed : getCgiBin (path ++ bytes "/") config = none := by
    rw [Option.eq_none_iff_forall_ne_some]
    intro bin hbin
    rw [getCgiBin_eq_some_iff, getDirectoryPath_slash hne] at hbin
    obtain ⟨_, ⟨hslash, _⟩ | ⟨_, _, before, location, after, hsplit, hpath, _⟩⟩ := hbin
    · exact hroot hslash
    · exact hnone location (hsplit ▸ by simp) hpath
  rw [IgnoresSlash, hslashed]

/-- The example of the comment. -/
private def cgiBinConfig : Config where
  location := [{ path := bytes "/cgi-bin", common := { cgi := [(bytes ".py", bytes "/bin/py")] } }]

theorem not_ignoresSlash_aboba : ¬ IgnoresSlash cgiBinConfig (bytes "/cgi-bin/aboba.py") := by
  rw [IgnoresSlash]
  decide

theorem ignoresSlash_text : IgnoresSlash cgiBinConfig (bytes "/cgi-bin/aboba.txt") := by
  have hpath : getCgiBin (bytes "/cgi-bin/aboba.txt") cgiBinConfig = none := by decide
  have hslashed : getCgiBin (bytes "/cgi-bin/aboba.txt" ++ bytes "/") cgiBinConfig = none := by
    decide
  rw [ignoresSlash_iff cgiBinConfig (by decide)]
  intro bin
  rw [← getCgiBin_eq_some_iff, hpath, ← getFileExtension_slash (by decide)]
  constructor
  · rintro ⟨⟩
  · intro h
    have hserves : Serves cgiBinConfig (getDirectoryPath (bytes "/cgi-bin/aboba.txt" ++ bytes "/"))
        (getFileExtension (bytes "/cgi-bin/aboba.txt" ++ bytes "/")) bin := by
      rw [getDirectoryPath_slash (by decide)]
      exact h
    rw [← getCgiBin_eq_some_iff, hslashed] at hserves
    cases hserves

end FortyTwo.Webserv
