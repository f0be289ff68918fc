import Mathlib.Data.List.TakeWhile
import FortyTwo.Foundation.Runs
import FortyTwo.Webserv.Request

/-!
`fs::normalize_path` of `Utilities/fs.cpp`. A position of a string is `none`
where the source has `npos`.
-/

namespace FortyTwo.Webserv

open Foundation

/-- `out.append(path, pos, count)`, which throws for a position behind the end. -/
def appendFrom (out path : Bytes) (pos : Option Nat) (count : Nat) : Except Fault Bytes :=
  match pos with
  | none => .error .outOfRange
  | some pos =>
      if path.length < pos then .error .outOfRange else .ok (out ++ (path.drop pos).take count)

/-- The loop, from `last_pos` on. -/
def normalizeLoop (path : Bytes) : Nat → Option Nat → Bytes → Except Fault Bytes
  | 0, _, _ => .error .outOfFuel
  | fuel + 1, lastPos, out =>
      match lastPos.bind (findFrom (bytes "//") path) with
      | none => appendFrom out path lastPos (path.length - lastPos.getD 0)
      | some currPos => do
          let newPos := findFirstNotOf (bytes "//") path currPos
          let out ← appendFrom out path lastPos (currPos - lastPos.getD 0 + 1)
          normalizeLoop path fuel newPos out

/-- The status and what has become of `out`. -/
def normalizePath (out path : Bytes) : Except Fault (Status × Bytes) :=
  if path = [] then .ok (.custom "path is empty", out)
  else do
    let out ← normalizeLoop path (path.length + 1) (some 0) out
    .ok (.ok, if path.getLast? = some (byteOf '/') then out else out ++ bytes "/")

/-- The path with one `/` for each run of them, and one at its end. -/
def normalForm (path : Bytes) : Bytes :=
  if path.getLast? = some (byteOf '/') then collapse (byteOf '/') path
  else collapse (byteOf '/') path ++ bytes "/"

/-- The path is brought into its normal form, and that is left as it is. -/
def Normalizes (path : Bytes) : Prop :=
  normalizePath [] path = .ok (.ok, normalForm path) ∧
    normalizePath [] (normalForm path) = .ok (.ok, normalForm path)

section Loop

variable {path : Bytes} {lastPos : Nat}

/-- A round that finds nothing: no run is left. -/
private theorem normalizeLoop_last (fuel : Nat) (out : Bytes) (hle : lastPos ≤ path.length)
    (hfind : find [byteOf '/', byteOf '/'] (path.drop lastPos) = none) :
    normalizeLoop path (fuel + 1) (some lastPos) out =
      .ok (out ++ collapse (byteOf '/') (path.drop lastPos)) := by
  have hfrom : findFrom (bytes "//") path lastPos = none := by
    rw [findFrom, if_neg (by omega)]
    exact Option.map_eq_none_iff.mpr hfind
  have htake : (path.drop lastPos).take (path.length - lastPos) = path.drop lastPos :=
    List.take_of_length_le (by rw [List.length_drop])
  rw [normalizeLoop, Option.bind_some, hfrom, collapse_of_find_eq_none hfind]
  simp only [appendFrom, Option.getD_some]
  rw [if_neg (by omega), htake]

/-- A round that finds a run `k` characters on, and goes on behind it. -/
private theorem normalizeLoop_run (fuel k : Nat) (out : Bytes) (hle : lastPos ≤ path.length)
    (hfind : find [byteOf '/', byteOf '/'] (path.drop lastPos) = some k) :
    normalizeLoop path (fuel + 1) (some lastPos) out =
      normalizeLoop path fuel
        (findFirstNotOf [byteOf '/', byteOf '/'] path (k + lastPos))
        (out ++ (path.drop lastPos).take (k + 1)) := by
  have hfrom : findFrom (bytes "//") path lastPos = some (k + lastPos) := by
    rw [findFrom, if_neg (by omega)]
    exact Option.map_eq_some_iff.mpr ⟨k, hfind, rfl⟩
  rw [normalizeLoop, Option.bind_some, hfrom]
  simp only [appendFrom, Option.getD_some, Nat.add_sub_cancel]
  rw [if_neg (by omega)]
  rfl

private theorem dropWhile_slashes (text : Bytes) :
    text.dropWhile (fun c => [byteOf '/', byteOf '/'].contains c) =
      text.dropWhile (· = byteOf '/') := by
  congr 1
  funext c
  simp

/-- Behind the run stands what the search has found, if it has found anything. -/
private theorem behind_run {k : Nat}
    (hfind : find [byteOf '/', byteOf '/'] (path.drop lastPos) = some k)
    (hle : lastPos ≤ path.length) {next : Option Nat}
    (hnext : findFirstNotOf [byteOf '/', byteOf '/'] path (k + lastPos) = next) :
    (next = none ∧ ((path.drop lastPos).drop k).dropWhile (· = byteOf '/') = []) ∨
      ∃ p, next = some p ∧ lastPos < p ∧ p < path.length ∧
        path.drop p = ((path.drop lastPos).drop k).dropWhile (· = byteOf '/') := by
  have hbound := find_add_length_le hfind
  rw [List.length_drop, List.length_cons, List.length_cons] at hbound
  rw [List.drop_drop, Nat.add_comm lastPos k, ← dropWhile_slashes]
  rw [findFirstNotOf_eq _ _ _ (by omega)] at hnext
  split at hnext
  · rename_i hnil
    exact Or.inl ⟨hnext.symm, hnil⟩
  · rename_i hne
    have hsuffix := (List.dropWhile_suffix
      (fun c => [byteOf '/', byteOf '/'].contains c) (l := path.drop (k + lastPos))).trans
      (List.drop_suffix _ _)
    have hpos := List.length_pos_iff.mpr hne
    have hlen : ((path.drop (k + lastPos)).dropWhile
        (fun c => [byteOf '/', byteOf '/'].contains c)).length < path.length - (k + lastPos) := by
      obtain ⟨rest, hrest⟩ := prefix_of_find hfind
      rw [List.drop_drop, Nat.add_comm] at hrest
      have hrun : (path.drop (k + lastPos)).length = rest.length + 2 := by
        rw [← hrest, List.length_append, Nat.add_comm]
        rfl
      have hle := (List.dropWhile_suffix (l := rest)
        (fun c => [byteOf '/', byteOf '/'].contains c)).length_le
      have hdrop : (path.drop (k + lastPos)).dropWhile
          (fun c => [byteOf '/', byteOf '/'].contains c) =
          rest.dropWhile (fun c => [byteOf '/', byteOf '/'].contains c) := by
        rw [← hrest]
        rfl
      rw [List.length_drop] at hrun
      rw [hdrop]
      omega
    exact Or.inr ⟨_, hnext.symm, by omega, by omega, (List.suffix_iff_eq_drop.mp hsuffix).symm⟩

end Loop

private theorem run_suffix {text : Bytes} (hlen : 2 ≤ text.length)
    (hall : text.dropWhile (· = byteOf '/') = []) : [byteOf '/', byteOf '/'] <:+ text := by
  have hmem : ∀ c ∈ text, c = byteOf '/' := by
    simpa using List.dropWhile_eq_nil_iff.mp hall
  rw [List.eq_replicate_of_mem hmem, ← Nat.sub_add_cancel hlen, List.replicate_add]
  exact List.suffix_append _ _

/-- A path that ends in a run: its last round begins behind the end. -/
private theorem normalizeLoop_throws {path : Bytes} (fuel lastPos : Nat) (out : Bytes)
    (hfuel : path.length - lastPos < fuel) (hle : lastPos ≤ path.length)
    (hend : [byteOf '/', byteOf '/'] <:+ path.drop lastPos) :
    normalizeLoop path fuel (some lastPos) out = .error .outOfRange := by
  induction fuel generalizing lastPos out with
  | zero => omega
  | succ fuel ih =>
      cases hfind : find [byteOf '/', byteOf '/'] (path.drop lastPos) with
      | none => exact absurd hend.isInfix ((find_eq_none_iff _ _).mp hfind)
      | some k =>
          rw [normalizeLoop_run fuel k out hle hfind]
          rcases behind_run hfind hle rfl with ⟨hnone, _⟩ | ⟨p, hp, hlt, hin, hdrop⟩
          · have hlen := hend.length_le
            rw [List.length_drop, List.length_cons, List.length_cons] at hlen
            obtain ⟨fuel, rfl⟩ : ∃ less, fuel = less + 1 := ⟨fuel - 1, by omega⟩
            rw [hnone]
            rfl
          · have hsuffix : path.drop p <:+ path.drop lastPos := by
              rw [hdrop]
              exact (List.dropWhile_suffix _).trans (List.drop_suffix _ _)
            rw [hp]
            apply ih p _ (by omega) (by omega)
            rcases List.suffix_or_suffix_of_suffix hend hsuffix with hends | hshort
            · exact hends
            · -- what stands behind a run does not begin with the symbol of the run
              have hcons := List.drop_eq_getElem_cons hin
              have hmem : path[p] ∈ [byteOf '/', byteOf '/'] :=
                hshort.subset (by rw [hcons]; exact List.mem_cons_self)
              have hslash : path[p] = byteOf '/' := by simpa using hmem
              have hhead := List.head?_dropWhile_not (· = byteOf '/') ((path.drop lastPos).drop k)
              rw [← hdrop, hcons, List.head?_cons] at hhead
              simp [hslash] at hhead

private theorem normalizeLoop_collapses {path : Bytes} (fuel lastPos : Nat) (out : Bytes)
    (hfuel : path.length - lastPos < fuel) (hle : lastPos ≤ path.length)
    (hend : ¬ [byteOf '/', byteOf '/'] <:+ path.drop lastPos) :
    normalizeLoop path fuel (some lastPos) out =
      .ok (out ++ collapse (byteOf '/') (path.drop lastPos)) := by
  induction fuel generalizing lastPos out with
  | zero => omega
  | succ fuel ih =>
      cases hfind : find [byteOf '/', byteOf '/'] (path.drop lastPos) with
      | none => exact normalizeLoop_last fuel out hle hfind
      | some k =>
          rw [normalizeLoop_run fuel k out hle hfind]
          rcases behind_run hfind hle rfl with ⟨hnone, hall⟩ | ⟨p, hp, hlt, hend', hdrop⟩
          · have hbound := find_add_length_le hfind
            rw [List.length_cons, List.length_cons] at hbound
            have hrun := run_suffix (by rw [List.length_drop]; omega) hall
            exact absurd (hrun.trans (List.drop_suffix _ _)) hend
          · have hsuffix : path.drop p <:+ path.drop lastPos := by
              rw [hdrop]
              exact (List.dropWhile_suffix _).trans (List.drop_suffix _ _)
            rw [hp, ih p _ (by omega) (by omega) (fun h => hend (h.trans hsuffix)), hdrop,
              collapse_of_find hfind, List.append_assoc]

/-- Every path is brought into its normal form, or ends in a run. -/
theorem normalizePath_eq {path : Bytes} (hpath : path ≠ []) (out : Bytes) :
    normalizePath out path = if bytes "//" <:+ path then .error .outOfRange
      else .ok (.ok, out ++ normalForm path) := by
  rw [normalizePath, if_neg hpath]
  by_cases hend : bytes "//" <:+ path
  · rw [if_pos hend, normalizeLoop_throws _ 0 out (by omega) (Nat.zero_le _) hend]
    rfl
  · rw [if_neg hend, normalizeLoop_collapses _ 0 out (by omega) (Nat.zero_le _) hend,
      List.drop_zero, normalForm]
    split
    · rfl
    · rw [← List.append_assoc]
      rfl

/-- A normal form ends in one `/` and has no run. -/
theorem normalForm_spec (path : Bytes) :
    (normalForm path).getLast? = some (byteOf '/') ∧
      find (bytes "//") (normalForm path) = none := by
  unfold normalForm
  split
  · rename_i hlast
    exact ⟨by rw [getLast?_collapse, hlast], find_collapse path⟩
  · rename_i hlast
    exact ⟨by rw [List.getLast?_append]; rfl, find_collapse_append hlast⟩

theorem normalForm_of_normal {path : Bytes} (hlast : path.getLast? = some (byteOf '/'))
    (hfind : find (bytes "//") path = none) : normalForm path = path := by
  rw [normalForm, if_pos hlast]
  exact collapse_of_find_eq_none hfind

theorem normalizes_iff {path : Bytes} (hpath : path ≠ []) :
    Normalizes path ↔ ¬ bytes "//" <:+ path := by
  rw [Normalizes, normalizePath_eq hpath]
  constructor
  · rintro ⟨hok, _⟩ hend
    rw [if_pos hend] at hok
    cases hok
  · intro hend
    obtain ⟨hlast, hfind⟩ := normalForm_spec path
    have hne : normalForm path ≠ [] := by
      rintro hnil
      rw [hnil] at hlast
      cases hlast
    have hend' : ¬ bytes "//" <:+ normalForm path :=
      fun h => (find_eq_none_iff _ _).mp hfind h.isInfix
    rw [if_neg hend, normalizePath_eq hne, if_neg hend', normalForm_of_normal hlast hfind]
    exact ⟨rfl, rfl⟩

/-- A path that ends in two slashes. -/
theorem not_normalizes_run : ¬ Normalizes (bytes "logs//") := by
  rw [Normalizes]
  decide

theorem normalizes_runs : Normalizes (bytes "/var///logs//web") :=
  (normalizes_iff (by decide)).mpr (by decide)

end FortyTwo.Webserv
