import FortyTwo.Foundation.BoundedLoop
import FortyTwo.Foundation.Search

/-!
The replacement of a string in the lines of a file: `main` of `CPP01/ex04`. The loop looks
for the needle in the line that it rewrites, behind what it has put in.
-/

namespace FortyTwo.Cpp

open Foundation

abbrev Str := List Char

inductive SedFault where
  | outOfFuel
  /-- `substr` is given a position behind the end. -/
  | outOfRange
  deriving DecidableEq, Repr

/-- `s.substr(pos, count)`. -/
def substr (s : Str) (pos count : Nat) : Except SedFault Str :=
  if pos ≤ s.length then .ok ((s.drop pos).take count) else .error .outOfRange

/-- The body of the loop, on the line and on what was found in it. -/
def replaceRound (needle replacable : Str) (state : Str × Option Nat) :
    Except SedFault (Str × Option Nat) :=
  match state.2 with
  | none => .ok state
  | some found => do
      let before ← substr state.1 0 found
      let after ← substr state.1 (found + needle.length) state.1.length
      let s := before ++ replacable ++ after
      return (s, findFrom needle s (found + replacable.length))

def replaceLine (fuel : Nat) (needle replacable s : Str) : Except SedFault Str :=
  (boundedWhile .outOfFuel (fun state => state.2.isSome) (replaceRound needle replacable) fuel
    (s, find needle s)).map Prod.fst

/-- What is written for the lines of the input file. -/
def replaceLines (fuel : Nat) (needle replacable : Str) : List Str → Except SedFault Str
  | [] => .ok []
  | s :: lines => do
      let s ← replaceLine fuel needle replacable s
      let output ← replaceLines fuel needle replacable lines
      return s ++ '\n' :: output

/-- The line with the replacement for each occurrence of the needle, taken from left to right
so that no two overlap; what is put in is not looked at. -/
def replaced (needle replacable : Str) : Str → Str
  | [] => []
  | c :: rest =>
      if needle ≠ [] ∧ needle.isPrefixOf (c :: rest) then
        replacable ++ replaced needle replacable (rest.drop (needle.length - 1))
      else c :: replaced needle replacable rest
  termination_by text => text.length
  decreasing_by all_goals simp; try omega

/-- The loop comes to an end with what it should leave. -/
def ReplacesRight (needle replacable line : Str) : Prop :=
  ∃ enough, ∀ fuel, enough ≤ fuel →
    replaceLine fuel needle replacable line = .ok (replaced needle replacable line)

section Occurrences

variable {needle : Str} {replacable : Str}

theorem replaced_of_not_found {text : Str} (h : find needle text = none) :
    replaced needle replacable text = text := by
  induction text with
  | nil => rw [replaced]
  | cons c rest ih =>
      rw [find] at h
      split at h
      · cases h
      · next hprefix =>
          rw [replaced, if_neg fun hboth => hprefix hboth.2, ih (Option.map_eq_none_iff.mp h)]

/-- The first occurrence is replaced, and the replacement goes on behind it. -/
theorem replaced_of_found (hne : needle ≠ []) {text : Str} {found : Nat}
    (h : find needle text = some found) :
    replaced needle replacable text =
      text.take found ++ replacable ++
        replaced needle replacable (text.drop (found + needle.length)) := by
  induction text generalizing found with
  | nil =>
      have hlength := find_add_length_le h
      have hpos := List.length_pos_iff.mpr hne
      rw [List.length_nil] at hlength
      omega
  | cons c rest ih =>
      rw [find] at h
      split at h
      · next hprefix =>
          obtain rfl := Option.some.inj h
          obtain ⟨more, hmore⟩ := Nat.exists_eq_add_of_lt (List.length_pos_iff.mpr hne)
          rw [replaced, if_pos ⟨hne, hprefix⟩, hmore]
          simp
      · next hprefix =>
          obtain ⟨less, hless, rfl⟩ := Option.map_eq_some_iff.mp h
          rw [replaced, if_neg fun hboth => hprefix hboth.2, ih hless, Nat.add_right_comm]
          rfl

end Occurrences

section Loop

variable {needle replacable : Str}

/-- One round, where the needle was found. -/
theorem replaceRound_found {s : Str} {found : Nat} (h : found + needle.length ≤ s.length) :
    replaceRound needle replacable (s, some found) =
      .ok (s.take found ++ replacable ++ s.drop (found + needle.length),
        (find needle (s.drop (found + needle.length))).map (· + (found + replacable.length))) := by
  have hafter : (s.drop (found + needle.length)).take s.length = s.drop (found + needle.length) :=
    List.take_of_length_le (by rw [List.length_drop]; exact Nat.sub_le _ _)
  have hfront : (s.take found ++ replacable).length = found + replacable.length := by
    rw [List.length_append, List.length_take, Nat.min_eq_left (by omega)]
  have hsearch : findFrom needle (s.take found ++ replacable ++ s.drop (found + needle.length))
      (found + replacable.length) =
        (find needle (s.drop (found + needle.length))).map (· + (found + replacable.length)) := by
    rw [findFrom, if_neg (by rw [List.length_append]; omega), ← hfront, List.drop_left]
  simp only [replaceRound, substr, Nat.zero_le, if_true, List.drop_zero, if_pos h, hafter]
  exact congrArg (fun next => Except.ok (_, next)) hsearch

/-- What the loop has done of the line, and what is left of it. -/
private def Halfway (needle replacable line : Str) (state : Str × Option Nat) : Prop :=
  ∃ done rest, state = (done ++ rest, (find needle rest).map (· + done.length)) ∧
    done ++ replaced needle replacable rest = replaced needle replacable line

/-- So much of the line is still to be looked at. -/
private def ahead (state : Str × Option Nat) : Nat :=
  match state.2 with
  | none => 0
  | some found => state.1.length - found + 1

private theorem halfway_round (hne : needle ≠ []) {line : Str} {state : Str × Option Nat}
    (hstate : Halfway needle replacable line state) (hfound : state.2.isSome = true) :
    ∃ next, replaceRound needle replacable state = .ok next ∧
      Halfway needle replacable line next ∧ ahead next < ahead state := by
  obtain ⟨done, rest, rfl, hline⟩ := hstate
  obtain ⟨found, hfind⟩ := Option.isSome_iff_exists.mp hfound
  obtain ⟨k, hk, rfl⟩ := Option.map_eq_some_iff.mp hfind
  have hpos := List.length_pos_iff.mpr hne
  have hlength := find_add_length_le hk
  have hround := @replaceRound_found needle replacable (done ++ rest) (k + done.length)
    (by rw [List.length_append]; omega)
  have htake : (done ++ rest).take (k + done.length) = done ++ rest.take k := by
    rw [Nat.add_comm, List.take_length_add_append]
  have hdrop : (done ++ rest).drop (k + done.length + needle.length) =
      rest.drop (k + needle.length) := by
    rw [Nat.add_right_comm, Nat.add_comm _ done.length, List.drop_length_add_append]
  have hdone : (done ++ rest.take k ++ replacable).length = k + done.length + replacable.length := by
    rw [List.length_append, List.length_append, List.length_take, Nat.min_eq_left (by omega)]
    omega
  rw [htake, hdrop, ← hdone] at hround
  rw [hk]
  refine ⟨_, hround, ⟨_, _, rfl, ?_⟩, ?_⟩
  · rw [← hline, replaced_of_found hne hk, List.append_assoc, List.append_assoc, List.append_assoc]
  · simp only [ahead, Option.map_some]
    cases hnext : find needle (rest.drop (k + needle.length)) with
    | none => exact Nat.succ_pos _
    | some next =>
        simp only [Option.map_some, List.length_append, List.length_drop] at hdone ⊢
        omega

/-- With a needle the loop ends, and leaves what it should. -/
theorem replaceLine_eq (hne : needle ≠ []) (line : Str) : ReplacesRight needle replacable line := by
  have hstart : Halfway needle replacable line (line, find needle line) :=
    ⟨[], line, by simp, rfl⟩
  refine ⟨ahead (line, find needle line), ?_⟩
  intro fuel hfuel
  obtain ⟨final, hrun, ⟨done, rest, rfl, hline⟩, hexit⟩ := boundedWhile_total SedFault.outOfFuel _ _
    (Halfway needle replacable line) ahead (fun state => halfway_round hne) fuel _ hstart hfuel
  have hnone : find needle rest = none := by simpa using hexit
  rw [replaceLine, hrun, ← hline, replaced_of_not_found hnone]
  rfl

/-- So is each line of a file, whatever the number of lines. -/
theorem replaceLines_eq (hne : needle ≠ []) (lines : List Str) : ∃ enough, ∀ fuel, enough ≤ fuel →
    replaceLines fuel needle replacable lines =
      .ok (lines.flatMap fun line => replaced needle replacable line ++ ['\n']) := by
  induction lines with
  | nil => exact ⟨0, fun _ _ => rfl⟩
  | cons line lines ih =>
      obtain ⟨enough, hlines⟩ := ih
      obtain ⟨enough', hline⟩ := @replaceLine_eq needle replacable hne line
      refine ⟨max enough enough', ?_⟩
      intro fuel hfuel
      rw [replaceLines, hline fuel (le_trans (le_max_right _ _) hfuel),
        hlines fuel (le_trans (le_max_left _ _) hfuel), List.flatMap_cons, List.append_assoc]
      rfl

/-- The empty needle is found again and again. -/
theorem replaceLine_empty (replacable line : Str) (fuel : Nat) :
    replaceLine fuel [] replacable line ≠ .ok (replaced [] replacable line) := by
  intro heq
  rw [replaceLine] at heq
  cases hrun : boundedWhile SedFault.outOfFuel (fun state : Str × Option Nat => state.2.isSome)
      (replaceRound [] replacable) fuel (line, find [] line) with
  | error e =>
      rw [hrun] at heq
      cases heq
  | ok final =>
      have hempty : ∀ text : Str, find [] text = some 0 := fun text =>
        (find_eq_zero_iff [] text).mpr List.nil_prefix
      obtain ⟨⟨found, -, hfound⟩, hexit⟩ := boundedWhile_partial SedFault.outOfFuel _ _
        (fun state : Str × Option Nat => ∃ found ≤ state.1.length, state.2 = some found)
        (by
          rintro ⟨s, _⟩ next ⟨found, hle, rfl⟩ - hnext
          rw [replaceRound_found hle, hempty] at hnext
          obtain rfl := Except.ok.inj hnext
          refine ⟨_, ?_, rfl⟩
          have hle' : found ≤ s.length := hle
          simp only [List.length_append, List.length_take, Nat.min_eq_left hle', Nat.zero_add]
          exact Nat.le_add_right _ _)
        fuel _ final ⟨0, Nat.zero_le _, hempty line⟩ hrun
      rw [hfound] at hexit
      cases hexit

end Loop

/-- The loop leaves what it should for every needle but the empty one. -/
theorem replacesRight_iff (needle replacable line : Str) :
    ReplacesRight needle replacable line ↔ needle ≠ [] := by
  constructor
  · rintro ⟨enough, hrun⟩ rfl
    exact replaceLine_empty replacable line enough (hrun enough (le_refl enough))
  · intro hne
    exact replaceLine_eq hne line

/-- An empty needle, an empty replacement and an empty line. -/
theorem not_replacesRight : ¬∀ needle replacable line, ReplacesRight needle replacable line := by
  intro hall
  obtain ⟨enough, hrun⟩ := hall [] [] []
  exact replaceLine_empty [] [] enough (hrun enough (le_refl enough))

end FortyTwo.Cpp
