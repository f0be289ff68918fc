import FortyTwo.Cub3d.FileReading
import Mathlib.Data.List.TakeWhile

/-!
The lines that `ft_get_file` returns. They are those of the file, unless a place in a text
does not fit into the `unsigned int` that `ft_substr` counts with.
-/

namespace FortyTwo.Cub3d

section Copies

/-- Without the wrap of `start` this is the text itself. -/
theorem substrLoop_spec {s : Text} (hnul : '\x00' ∉ s) {len start : Nat} (hstart : start < 2 ^ 32)
    (hlen : start + len ≤ s.length) : (substrLoop s len start).length = len ∧
      ∀ k < len, (substrLoop s len start)[k]? = s[(start + k) % 2 ^ 32]? := by
  induction len generalizing start with
  | zero => exact ⟨rfl, fun k hk => absurd hk (Nat.not_lt_zero k)⟩
  | succ len ih =>
      have hin : start < s.length := by omega
      have hget : s.getD start '\x00' = s[start] := by
        rw [List.getD_eq_getElem?_getD, List.getElem?_eq_getElem hin, Option.getD_some]
      have hne : s[start] ≠ '\x00' := fun h => hnul (h ▸ List.getElem_mem hin)
      have hle : (start + 1) % 2 ^ 32 ≤ start + 1 := Nat.mod_le _ _
      obtain ⟨hlength, hrest⟩ := ih (Nat.mod_lt (start + 1) (by norm_num)) (by omega)
      rw [substrLoop, hget, if_neg hne, List.length_cons, hlength]
      refine ⟨rfl, ?_⟩
      intro k hk
      cases k with
      | zero =>
          change some s[start] = s[start % 2 ^ 32]?
          rw [Nat.mod_eq_of_lt hstart, List.getElem?_eq_getElem hin]
      | succ k =>
          rw [List.getElem?_cons_succ, hrest k (by omega), Nat.mod_add_mod]
          congr 2
          omega

theorem ftSubstr_front {s : Text} (hnul : '\x00' ∉ s) (len : Nat) (hlen : len ≤ s.length) :
    (ftSubstr s 0 len).length = len ∧ ∀ k < len, (ftSubstr s 0 len)[k]? = s[k % 2 ^ 32]? := by
  have heq : ftSubstr s 0 len = substrLoop s len 0 := by
    unfold ftSubstr
    simp only [Nat.zero_mod, Nat.not_lt_zero, if_false, Nat.sub_zero, gt_iff_lt]
    rw [if_neg (by omega)]
  obtain ⟨hlength, hget⟩ := @substrLoop_spec s hnul len 0 (by norm_num) (by omega)
  rw [heq]
  exact ⟨hlength, fun k hk => by rw [hget k hk, Nat.zero_add]⟩

theorem ftSubstr_rest {s : Text} (hnul : '\x00' ∉ s) (start : Nat) (hstart : start ≤ s.length) :
    (ftSubstr s start s.length).length = s.length - start % 2 ^ 32 ∧
      ∀ k < s.length - start % 2 ^ 32,
        (ftSubstr s start s.length)[k]? = s[(start + k) % 2 ^ 32]? := by
  have hle : start % 2 ^ 32 ≤ start := Nat.mod_le _ _
  have heq : ftSubstr s start s.length =
      substrLoop s (s.length - start % 2 ^ 32) (start % 2 ^ 32) := by
    unfold ftSubstr
    dsimp only
    rw [if_neg (by omega)]
    congr 1
    split <;> omega
  obtain ⟨hlength, hget⟩ :=
    @substrLoop_spec s hnul (s.length - start % 2 ^ 32) _ (Nat.mod_lt start (by norm_num))
      (by omega)
  rw [heq]
  exact ⟨hlength, fun k hk => by rw [hget k hk, Nat.mod_add_mod]⟩

end Copies

section Reading

/-- The text at hand when a newline has come or the file has ended, and what is still to be
read. -/
def arrived (kept : Text) : List Text → Text × List Text
  | [] => (kept, [])
  | piece :: rest =>
      if '\n' ∈ kept ++ piece then (kept ++ piece, rest) else arrived (kept ++ piece) rest

theorem arrived_flatten (kept : Text) (pieces : List Text) :
    (arrived kept pieces).1 ++ (arrived kept pieces).2.flatten = kept ++ pieces.flatten := by
  induction pieces generalizing kept with
  | nil => rfl
  | cons piece rest ih =>
      rw [arrived]
      split
      · simp
      · rw [ih, List.flatten_cons, List.append_assoc]

theorem arrived_front (kept : Text) (pieces : List Text) :
    kept <+: (arrived kept pieces).1 := by
  induction pieces generalizing kept with
  | nil => exact List.prefix_refl kept
  | cons piece rest ih =>
      rw [arrived]
      split
      · exact List.prefix_append _ _
      · exact (List.prefix_append _ _).trans (ih _)

theorem arrived_ended {kept : Text} {pieces : List Text}
    (h : '\n' ∉ (arrived kept pieces).1) : (arrived kept pieces).2 = [] := by
  induction pieces generalizing kept with
  | nil => rfl
  | cons piece rest ih =>
      rw [arrived] at h ⊢
      split at h
      · next hnewline => exact absurd hnewline h
      · next hnone =>
          rw [if_neg hnone]
          exact ih h

theorem mem_of_mem_arrived {kept : Text} {pieces : List Text} {piece : Text}
    (h : piece ∈ (arrived kept pieces).2) : piece ∈ pieces := by
  induction pieces generalizing kept with
  | nil => exact h
  | cons first rest ih =>
      rw [arrived] at h
      split at h
      · exact List.mem_cons_of_mem _ h
      · exact List.mem_cons_of_mem _ (ih h)

/-- No zero in what is kept, nor in what is still to be read. -/
structure NulFree (kept : Text) (pieces : List Text) : Prop where
  kept : '\x00' ∉ kept
  pieces : ∀ piece ∈ pieces, '\x00' ∉ piece

private theorem takeWhile_of_not_mem {c : Char} {text : Text} (h : c ∉ text) :
    text.takeWhile (· != c) = text := by
  apply List.takeWhile_eq_self_iff.mpr
  intro d hd
  rw [bne_iff_ne]
  rintro rfl
  exact h hd

theorem bufferString_eq {buf : Text} (h : '\x00' ∉ buf) : bufferString buf = buf :=
  takeWhile_of_not_mem h

theorem readLoop_eq {str : Option Text} {pieces : List Text}
    (hnul : ∀ piece ∈ pieces, '\x00' ∉ piece) (hsome : str.isSome ∨ pieces ≠ []) :
    readLoop str pieces =
      (some (arrived (str.getD []) pieces).1, (arrived (str.getD []) pieces).2) := by
  induction pieces generalizing str with
  | nil =>
      obtain ⟨kept, rfl⟩ := Option.isSome_iff_exists.mp (hsome.resolve_right (by simp))
      rfl
  | cons piece rest ih =>
      obtain ⟨hpiece, hrest⟩ := List.forall_mem_cons.mp hnul
      have hstatic : ftGetStatic str piece = str.getD [] ++ piece := by
        cases str with
        | none => exact bufferString_eq hpiece
        | some kept => rw [ftGetStatic, bufferString_eq hpiece, Option.getD_some]
      rw [readLoop, arrived, hstatic]
      split
      · rfl
      · exact ih hrest (Or.inl rfl)

theorem ftStockLine_line {line : Text} (hline : '\n' ∉ line) (rest : Text) :
    ftStockLine (line ++ '\n' :: rest) =
      (ftSubstr (line ++ '\n' :: rest) 0 line.length,
        some (ftSubstr (line ++ '\n' :: rest) (line.length + 1)
          (line ++ '\n' :: rest).length)) := by
  have htake : (line ++ '\n' :: rest).takeWhile (· != '\n') = line := by
    rw [List.takeWhile_append_of_pos, List.takeWhile_cons_of_neg (by simp), List.append_nil]
    intro c hc
    rw [bne_iff_ne]
    rintro rfl
    exact hline hc
  unfold ftStockLine
  dsimp only
  rw [htake, if_pos (by simp)]

theorem ftStockLine_last {line : Text} (hline : '\n' ∉ line) : ftStockLine line = (line, none) := by
  unfold ftStockLine
  dsimp only
  rw [takeWhile_of_not_mem hline, if_neg (Nat.lt_irrefl _)]

variable {str : Option Text} {pieces : List Text}

/-- A call of `gnl` that cuts off a line. -/
theorem gnl_line (hnul : ∀ piece ∈ pieces, '\x00' ∉ piece) {line rest : Text}
    {more : List Text} (harrived : arrived (str.getD []) pieces = (line ++ '\n' :: rest, more))
    (hline : '\n' ∉ line) : gnl str pieces =
      (ftSubstr (line ++ '\n' :: rest) 0 line.length, true,
        some (ftSubstr (line ++ '\n' :: rest) (line.length + 1) (line ++ '\n' :: rest).length),
        more) := by
  have hsome : str.isSome ∨ pieces ≠ [] := by
    by_contra hnone
    rw [not_or, not_not, Option.not_isSome_iff_eq_none] at hnone
    obtain ⟨rfl, rfl⟩ := hnone
    have hempty := congrArg Prod.fst harrived
    simp [arrived] at hempty
  rw [gnl, readLoop_eq hnul hsome, harrived]
  dsimp only
  rw [ftStockLine_line hline]
  rfl

/-- The last call. -/
theorem gnl_last (hnul : ∀ piece ∈ pieces, '\x00' ∉ piece)
    (hnone : '\n' ∉ (arrived (str.getD []) pieces).1) :
    gnl str pieces = (str.getD [] ++ pieces.flatten, false, none, []) := by
  by_cases hempty : str = none ∧ pieces = []
  · obtain ⟨rfl, rfl⟩ := hempty
    rfl
  · have hsome : str.isSome ∨ pieces ≠ [] := by
      rw [not_and_or] at hempty
      exact hempty.imp Option.isSome_iff_ne_none.mpr id
    have hended := arrived_ended hnone
    have hflatten := arrived_flatten (str.getD []) pieces
    rw [hended, List.flatten_nil, List.append_nil] at hflatten
    rw [gnl, readLoop_eq hnul hsome, hended]
    dsimp only
    rw [ftStockLine_last hnone, hflatten]
    rfl

end Reading

section Lines

/-- Behind the first 2^32 characters the text repeats itself. -/
def Repeats (text : Text) : Prop := ∀ n < text.length, text[n]? = text[n % 2 ^ 32]?

theorem repeats_of_length_le {text : Text} (h : text.length ≤ 2 ^ 32) : Repeats text := by
  intro n hn
  rw [Nat.mod_eq_of_lt (by omega)]

/-- Every line that a newline ends is shorter than an `unsigned int` can count, and the text
in which it is found when it has arrived is not longer either, or repeats itself. -/
inductive Cuttable : Text → List Text → Prop where
  | last {kept pieces} : '\n' ∉ kept ++ pieces.flatten → Cuttable kept pieces
  | line {kept pieces line rest more} :
      arrived kept pieces = (line ++ '\n' :: rest, more) → '\n' ∉ line →
      line.length + 1 < 2 ^ 32 → Repeats (line ++ '\n' :: rest) → Cuttable rest more →
      Cuttable kept pieces

theorem splitOn_line {line : Text} (hline : '\n' ∉ line) (rest : Text) :
    (line ++ '\n' :: rest).splitOn '\n' = line :: rest.splitOn '\n' := by
  rw [List.splitOn, List.splitOnP_append_cons line rest (by simp)]
  have hone := List.splitOn_eq_singleton hline
  rw [List.splitOn] at hone
  rw [hone]
  rfl

private theorem nulFree_rest {kept line rest : Text} {pieces more : List Text}
    (hnul : NulFree kept pieces) (harrived : arrived kept pieces = (line ++ '\n' :: rest, more)) :
    '\x00' ∉ line ++ '\n' :: rest ∧ NulFree rest more := by
  have hflatten := arrived_flatten kept pieces
  rw [harrived] at hflatten
  have hall : '\x00' ∉ kept ++ pieces.flatten := by
    rw [List.mem_append, List.mem_flatten, not_or]
    refine ⟨hnul.kept, ?_⟩
    rintro ⟨piece, hmem, hpiece⟩
    exact hnul.pieces piece hmem hpiece
  have htext : '\x00' ∉ line ++ '\n' :: rest := fun hmem =>
    hall (hflatten ▸ List.mem_append_left _ hmem)
  refine ⟨htext, fun hmem => htext (by simp [hmem]), ?_⟩
  intro piece hpiece
  apply hnul.pieces
  apply mem_of_mem_arrived
  rw [harrived]
  exact hpiece

theorem ftSubstr_line {line rest : Text} (hnul : '\x00' ∉ line ++ '\n' :: rest)
    (hshort : line.length + 1 < 2 ^ 32) : ftSubstr (line ++ '\n' :: rest) 0 line.length = line := by
  obtain ⟨hlength, hget⟩ := ftSubstr_front hnul line.length (by simp)
  apply List.ext_getElem?
  intro k
  by_cases hk : k < line.length
  · rw [hget k hk, Nat.mod_eq_of_lt (by omega), List.getElem?_append_left hk]
  · rw [List.getElem?_eq_none (by omega), List.getElem?_eq_none (by omega)]

private theorem getElem?_behind (line rest : Text) (k : Nat) :
    (line ++ '\n' :: rest)[line.length + 1 + k]? = rest[k]? := by
  have hk : line.length + 1 + k = line.length + (k + 1) := by omega
  rw [hk, List.getElem?_append_right (Nat.le_add_right _ _), Nat.add_sub_cancel_left,
    List.getElem?_cons_succ]

theorem ftSubstr_behind {line rest : Text} (hnul : '\x00' ∉ line ++ '\n' :: rest)
    (hshort : line.length + 1 < 2 ^ 32) (hrepeats : Repeats (line ++ '\n' :: rest)) :
    ftSubstr (line ++ '\n' :: rest) (line.length + 1) (line ++ '\n' :: rest).length = rest := by
  obtain ⟨hlength, hget⟩ := ftSubstr_rest hnul (line.length + 1) (by simp)
  have hall : (line ++ '\n' :: rest).length - (line.length + 1) % 2 ^ 32 = rest.length := by
    rw [Nat.mod_eq_of_lt hshort, List.length_append, List.length_cons]
    omega
  rw [hall] at hlength hget
  apply List.ext_getElem?
  intro k
  by_cases hk : k < rest.length
  · rw [hget k hk, ← hrepeats _ (by simp; omega), getElem?_behind]
  · rw [List.getElem?_eq_none (by omega), List.getElem?_eq_none (by omega)]

theorem ftGetFile_line {str : Option Text} {pieces more : List Text} {line rest : Text}
    (hnul : ∀ piece ∈ pieces, '\x00' ∉ piece)
    (harrived : arrived (str.getD []) pieces = (line ++ '\n' :: rest, more)) (hline : '\n' ∉ line)
    (fuel lvl : Nat) : ftGetFile (fuel + 1) lvl str pieces =
      if lvl + 1 ≥ 2 ^ 31 then .error .overflow
      else (ftGetFile fuel (lvl + 1) (some (ftSubstr (line ++ '\n' :: rest) (line.length + 1)
        (line ++ '\n' :: rest).length)) more).map
          (ftSubstr (line ++ '\n' :: rest) 0 line.length :: ·) := by
  rw [ftGetFile, gnl_line hnul harrived hline]
  rfl

theorem ftGetFile_last {str : Option Text} {pieces : List Text}
    (hnul : ∀ piece ∈ pieces, '\x00' ∉ piece) (hnone : '\n' ∉ (arrived (str.getD []) pieces).1)
    (fuel lvl : Nat) : ftGetFile (fuel + 1) lvl str pieces =
      if lvl + 2 ≥ 2 ^ 31 then .error .overflow else .ok [str.getD [] ++ pieces.flatten] := by
  rw [ftGetFile, gnl_last hnul hnone]
  rfl

private theorem map_cons_eq_ok {run : Except ReadFault (List Text)} {line : Text}
    {lines : List Text} (h : run.map (line :: ·) = .ok lines) :
    ∃ later, run = .ok later ∧ lines = line :: later := by
  cases run with
  | error fault => cases h
  | ok later => exact ⟨later, rfl, (Except.ok.inj h).symm⟩

/-- A run that returns has read the last line, or one line and then the others. -/
private theorem ftGetFile_ok {fuel lvl : Nat} {str : Option Text} {pieces lines : List Text}
    (hnul : NulFree (str.getD []) pieces)
    (h : ftGetFile (fuel + 1) lvl str pieces = .ok lines) :
    ('\n' ∉ str.getD [] ++ pieces.flatten ∧ lvl + 2 < 2 ^ 31 ∧
        lines = [str.getD [] ++ pieces.flatten]) ∨
      ∃ line rest more later, arrived (str.getD []) pieces = (line ++ '\n' :: rest, more) ∧
        '\n' ∉ line ∧ '\x00' ∉ line ++ '\n' :: rest ∧ NulFree rest more ∧
        ftGetFile fuel (lvl + 1) (some (ftSubstr (line ++ '\n' :: rest) (line.length + 1)
          (line ++ '\n' :: rest).length)) more = .ok later ∧
        lines = ftSubstr (line ++ '\n' :: rest) 0 line.length :: later := by
  by_cases hnone : '\n' ∉ (arrived (str.getD []) pieces).1
  · apply Or.inl
    rw [ftGetFile_last hnul.pieces hnone] at h
    split_ifs at h with hlvl
    have hflatten := arrived_flatten (str.getD []) pieces
    rw [arrived_ended hnone, List.flatten_nil, List.append_nil] at hflatten
    rw [← hflatten]
    exact ⟨hnone, Nat.lt_of_not_le hlvl, by rw [hflatten, Except.ok.inj h]⟩
  · apply Or.inr
    obtain ⟨line, rest, htext, hline⟩ := List.eq_append_cons_of_mem (not_not.mp hnone)
    have harrived : arrived (str.getD []) pieces =
        (line ++ '\n' :: rest, (arrived (str.getD []) pieces).2) := Prod.ext htext rfl
    obtain ⟨hnultext, hnulrest⟩ := nulFree_rest hnul harrived
    rw [ftGetFile_line hnul.pieces harrived hline] at h
    split_ifs at h with hlvl
    obtain ⟨later, hrun, hlines⟩ := map_cons_eq_ok h
    exact ⟨line, rest, _, later, harrived, hline, hnultext, hnulrest, hrun, hlines⟩

/-- As many rounds as there are lines are enough. -/
theorem ftGetFile_of_cuttable {kept : Text} {pieces : List Text} (h : Cuttable kept pieces)
    (hnul : NulFree kept pieces) {str : Option Text} (hstr : str.getD [] = kept) {lvl fuel : Nat}
    (hlvl : lvl + ((kept ++ pieces.flatten).splitOn '\n').length + 1 < 2 ^ 31)
    (hfuel : ((kept ++ pieces.flatten).splitOn '\n').length ≤ fuel) :
    ftGetFile fuel lvl str pieces = .ok ((kept ++ pieces.flatten).splitOn '\n') := by
  induction h generalizing str lvl fuel with
  | @last kept pieces hnone =>
      subst hstr
      have harrived : '\n' ∉ (arrived (str.getD []) pieces).1 := fun hmem =>
        hnone (arrived_flatten (str.getD []) pieces ▸ List.mem_append_left _ hmem)
      rw [List.splitOn_eq_singleton hnone, List.length_singleton] at hlvl hfuel
      obtain ⟨fuel, rfl⟩ := Nat.exists_eq_succ_of_ne_zero (n := fuel) (by omega)
      rw [List.splitOn_eq_singleton hnone, ftGetFile_last hnul.pieces harrived, if_neg (by omega)]
  | @line kept pieces line rest more harrived hline hshort hrepeats _ ih =>
      subst hstr
      obtain ⟨htext, hrest⟩ := nulFree_rest hnul harrived
      have hflatten := arrived_flatten (str.getD []) pieces
      rw [harrived, List.append_assoc, List.cons_append] at hflatten
      dsimp only at hflatten
      rw [← hflatten, splitOn_line hline] at hlvl hfuel ⊢
      rw [List.length_cons] at hlvl hfuel
      obtain ⟨fuel, rfl⟩ := Nat.exists_eq_succ_of_ne_zero (n := fuel) (by omega)
      rw [ftGetFile_line hnul.pieces harrived hline, if_neg (by omega), ftSubstr_line htext hshort,
        ftSubstr_behind htext hshort hrepeats, ih hrest rfl (by omega) (by omega)]
      rfl

/-- The text that the lines were cut from. -/
def unlines (lines : List Text) : Text := ['\n'].intercalate lines

theorem unlines_cons (line : Text) {lines : List Text} (h : lines ≠ []) :
    unlines (line :: lines) = line ++ '\n' :: unlines lines := by
  rw [unlines, List.intercalate_cons_of_ne_nil h]
  simp [unlines]

/-- What a run that ends says about the text that it began with. -/
structure Ended (lvl : Nat) (kept : Text) (pieces lines : List Text) : Prop where
  ne_nil : lines ≠ []
  levels : lvl + lines.length + 1 < 2 ^ 31
  length_le : (kept ++ pieces.flatten).length ≤ (unlines lines).length
  front : Repeats kept → (unlines lines).length = (kept ++ pieces.flatten).length →
    kept <+: unlines lines

theorem repeats_ftSubstr {text : Text} (hnul : '\x00' ∉ text) {start : Nat}
    (hstart : start ≤ text.length) : Repeats (ftSubstr text start text.length) := by
  obtain ⟨hlength, hget⟩ := ftSubstr_rest hnul start hstart
  intro n hn
  have hle : n % 2 ^ 32 ≤ n := Nat.mod_le _ _
  rw [hget n (by omega), hget (n % 2 ^ 32) (by omega), Nat.add_mod_mod]

private theorem nulFree_ftSubstr {line rest : Text} {more : List Text}
    (hnul : '\x00' ∉ line ++ '\n' :: rest) (hrest : NulFree rest more) :
    NulFree (ftSubstr (line ++ '\n' :: rest) (line.length + 1) (line ++ '\n' :: rest).length)
      more := by
  obtain ⟨hlength, hget⟩ := ftSubstr_rest hnul (line.length + 1) (by simp)
  refine ⟨fun hmem => ?_, hrest.pieces⟩
  obtain ⟨k, hk⟩ := List.mem_iff_getElem?.mp hmem
  have hlt := (List.getElem?_eq_some_iff.mp hk).1
  rw [hget k (by omega)] at hk
  exact hnul (List.mem_of_getElem? hk)

/-- A text that repeats itself is found again behind a cut, also where the copy wraps. -/
private theorem prefix_of_cut {kept line rest : Text} (hnul : '\x00' ∉ line ++ '\n' :: rest)
    (hfront : kept <+: line ++ '\n' :: rest) (hshort : line.length + 1 < 2 ^ 32)
    (hrepeats : Repeats kept) :
    kept <+: line ++ '\n' :: ftSubstr (line ++ '\n' :: rest) (line.length + 1)
      (line ++ '\n' :: rest).length := by
  obtain ⟨hlength, hget⟩ := ftSubstr_rest hnul (line.length + 1) (by simp)
  have hkept : ∀ n < kept.length, (line ++ '\n' :: rest)[n]? = kept[n]? := by
    intro n hn
    obtain ⟨more, hmore⟩ := hfront
    rw [← hmore, List.getElem?_append_left hn]
  have hle := hfront.length_le
  rw [List.prefix_iff_getElem?]
  intro n hn
  rw [← List.getElem?_eq_getElem hn]
  by_cases hin : n ≤ line.length
  · rw [← hkept n hn]
    rcases Nat.lt_or_eq_of_le hin with hlt | rfl
    · rw [List.getElem?_append_left hlt, List.getElem?_append_left hlt]
    · simp
  · obtain ⟨k, rfl⟩ := Nat.exists_eq_add_of_lt (Nat.lt_of_not_le hin)
    have hmod : (line.length + 1 + k) % 2 ^ 32 ≤ line.length + 1 + k := Nat.mod_le _ _
    have hk : line.length + k + 1 = line.length + 1 + k := by omega
    rw [hk] at hn ⊢
    rw [Nat.mod_eq_of_lt hshort] at hget
    rw [getElem?_behind, hget k (by omega), hkept _ (by omega), ← hrepeats _ hn]

theorem ended_of_ok {fuel lvl : Nat} {str : Option Text} {kept : Text} {pieces lines : List Text}
    (hkept : str.getD [] = kept) (hnul : NulFree kept pieces)
    (h : ftGetFile fuel lvl str pieces = .ok lines) : Ended lvl kept pieces lines := by
  induction fuel generalizing lvl str kept pieces lines with
  | zero => cases h
  | succ fuel ih =>
      subst hkept
      rcases ftGetFile_ok hnul h with ⟨-, hlvl, rfl⟩ |
        ⟨line, rest, more, later, harrived, -, hnultext, hnulrest, hrun, rfl⟩
      · have hone : unlines [str.getD [] ++ pieces.flatten] = str.getD [] ++ pieces.flatten := by
          simp [unlines]
        refine ⟨by simp, hlvl, by rw [hone], ?_⟩
        intro _ _
        rw [hone]
        exact List.prefix_append _ _
      · have hflatten := arrived_flatten (str.getD []) pieces
        have hfront := arrived_front (str.getD []) pieces
        rw [harrived] at hflatten hfront
        have hended := ih Option.getD_some (nulFree_ftSubstr hnultext hnulrest) hrun
        obtain ⟨hlength, -⟩ := ftSubstr_front hnultext line.length (by simp)
        obtain ⟨hbehind, -⟩ := ftSubstr_rest hnultext (line.length + 1) (by simp)
        have hle : (line.length + 1) % 2 ^ 32 ≤ line.length + 1 := Nat.mod_le _ _
        have hlater := hended.length_le
        have hlevels := hended.levels
        have htotal := congrArg List.length hflatten
        rw [List.length_append, hbehind] at hlater
        rw [List.length_append, List.length_append] at htotal
        simp only [List.length_append, List.length_cons] at hlater htotal
        constructor
        · simp
        · rw [List.length_cons]
          omega
        · rw [unlines_cons _ hended.ne_nil]
          simp only [List.length_append, List.length_cons, hlength]
          omega
        · intro hrepeats hequal
          rw [unlines_cons _ hended.ne_nil] at hequal ⊢
          simp only [List.length_append, List.length_cons, hlength] at hequal
          have hmod : (line.length + 1) % 2 ^ 32 = line.length + 1 := by omega
          have hshort : line.length + 1 < 2 ^ 32 := by
            rw [← hmod]
            exact Nat.mod_lt _ (by norm_num)
          have hcut := prefix_of_cut hnultext hfront hshort hrepeats
          have hgoes := hended.front (repeats_ftSubstr hnultext (by simp)) (by
            rw [List.length_append, hbehind]
            simp only [List.length_append, List.length_cons]
            omega)
          rw [ftSubstr_line hnultext hshort]
          apply hcut.trans
          rw [List.prefix_append_right_inj, List.cons_prefix_cons]
          exact ⟨rfl, hgoes⟩

/-- A run that gives the lines of the text has cut them right. -/
theorem cuttable_of_ok {fuel lvl : Nat} {str : Option Text} {kept : Text} {pieces : List Text}
    (hkept : str.getD [] = kept) (hnul : NulFree kept pieces)
    (h : ftGetFile fuel lvl str pieces = .ok ((kept ++ pieces.flatten).splitOn '\n')) :
    Cuttable kept pieces := by
  induction fuel generalizing lvl str kept pieces with
  | zero => cases h
  | succ fuel ih =>
      subst hkept
      rcases ftGetFile_ok hnul h with ⟨hnone, -, -⟩ |
        ⟨line, rest, more, later, harrived, hline, hnultext, hnulrest, hrun, hlines⟩
      · exact Cuttable.last hnone
      · have hflatten := arrived_flatten (str.getD []) pieces
        rw [harrived] at hflatten
        rw [← hflatten, List.append_assoc, List.cons_append, splitOn_line hline] at hlines
        obtain ⟨-, rfl⟩ := List.cons.inj hlines
        have hended := ended_of_ok Option.getD_some (nulFree_ftSubstr hnultext hnulrest) hrun
        obtain ⟨hbehind, hget⟩ := ftSubstr_rest hnultext (line.length + 1) (by simp)
        have hle : (line.length + 1) % 2 ^ 32 ≤ line.length + 1 := Nat.mod_le _ _
        have hback : unlines ((rest ++ more.flatten).splitOn '\n') = rest ++ more.flatten :=
          List.intercalate_splitOn '\n'
        have hlater := hended.length_le
        have hsum : ∀ text : Text,
            (text ++ more.flatten).length = text.length + more.flatten.length :=
          fun _ => List.length_append
        rw [hback, hsum, hsum, hbehind] at hlater
        simp only [List.length_append, List.length_cons] at hlater
        have hmod : (line.length + 1) % 2 ^ 32 = line.length + 1 := by omega
        have hshort : line.length + 1 < 2 ^ 32 := by
          rw [← hmod]
          exact Nat.mod_lt _ (by norm_num)
        have hlength : (ftSubstr (line ++ '\n' :: rest) (line.length + 1)
            (line ++ '\n' :: rest).length).length = rest.length := by
          rw [hbehind, hmod, List.length_append, List.length_cons]
          omega
        have hrest : ftSubstr (line ++ '\n' :: rest) (line.length + 1)
            (line ++ '\n' :: rest).length = rest := by
          have hgoes := hended.front (repeats_ftSubstr hnultext (by simp)) (by
            rw [hback, hsum, hsum, hlength])
          rw [hback] at hgoes
          exact (List.prefix_of_prefix_length_le hgoes (List.prefix_append _ _)
            (Nat.le_of_eq hlength)).eq_of_length hlength
        refine .line harrived hline hshort ?_ ?_
        · intro n hn
          by_cases hin : n ≤ line.length
          · rw [Nat.mod_eq_of_lt (by omega)]
          · obtain ⟨k, rfl⟩ := Nat.exists_eq_add_of_lt (Nat.lt_of_not_le hin)
            have hk : line.length + k + 1 = line.length + 1 + k := by omega
            rw [hk] at hn ⊢
            rw [← hget k (by omega), hrest, getElem?_behind]
        · rw [hrest] at hrun
          exact ih Option.getD_some hnulrest hrun

/-- Files of up to 4 GiB are cut right, however they are read. -/
theorem cuttable_of_length_lt {kept : Text} {pieces : List Text}
    (h : (kept ++ pieces.flatten).length < 2 ^ 32) : Cuttable kept pieces := by
  generalize hn : (kept ++ pieces.flatten).length = n at h
  induction n using Nat.strong_induction_on generalizing kept pieces with
  | _ n ih =>
      by_cases hnone : '\n' ∉ (arrived kept pieces).1
      · apply Cuttable.last
        have hflatten := arrived_flatten kept pieces
        rw [arrived_ended hnone, List.flatten_nil, List.append_nil] at hflatten
        rw [← hflatten]
        exact hnone
      · obtain ⟨line, rest, htext, hline⟩ := List.eq_append_cons_of_mem (not_not.mp hnone)
        have hlength := congrArg List.length (arrived_flatten kept pieces)
        rw [htext, hn] at hlength
        simp only [List.length_append, List.length_cons] at hlength
        apply Cuttable.line (Prod.ext htext rfl) hline (by omega)
        · apply repeats_of_length_le
          simp only [List.length_append, List.length_cons]
          omega
        · apply ih (rest ++ (arrived kept pieces).2.flatten).length
          · rw [List.length_append]
            omega
          · rfl
          · rw [List.length_append]
            omega

end Lines

/-- The lines of the file are returned, given enough rounds. -/
def ReadsLines (file : ReadResults) : Prop :=
  ∃ enough, ∀ fuel, enough ≤ fuel →
    ftGetFile fuel 0 none file.pieces = .ok (file.content.splitOn '\n')

/-- A file is read right exactly if its lines can be cut, and counted with an `int`. -/
theorem readsLines_iff (file : ReadResults) :
    ReadsLines file ↔ Cuttable [] file.pieces ∧
      (file.content.splitOn '\n').length ≤ 2 ^ 31 - 2 := by
  have hnul : NulFree [] file.pieces := ⟨by simp, file.nulFree⟩
  constructor
  · rintro ⟨enough, h⟩
    have hrun := h enough (Nat.le_refl _)
    have hlevels := (ended_of_ok Option.getD_none hnul hrun).levels
    exact ⟨cuttable_of_ok Option.getD_none hnul hrun, by omega⟩
  · rintro ⟨hcuttable, hlines⟩
    refine ⟨(file.content.splitOn '\n').length, ?_⟩
    intro fuel hfuel
    apply ftGetFile_of_cuttable hcuttable hnul rfl _ hfuel
    rw [List.nil_append, ← ReadResults.content]
    omega

/-- A line of `n` letters, read one by one. -/
private def longLine (n : Nat) : ReadResults where
  bufferSize := 1
  bufferSize_pos := Nat.le_refl 1
  pieces := List.replicate n ['a'] ++ [['\n']]
  ne_nil piece hpiece := by
    rcases List.mem_append.mp hpiece with hletter | hend
    · simp [List.eq_of_mem_replicate hletter]
    · simp [List.mem_singleton.mp hend]
  fits piece hpiece := by
    rcases List.mem_append.mp hpiece with hletter | hend
    · simp [List.eq_of_mem_replicate hletter]
    · simp [List.mem_singleton.mp hend]
  nulFree piece hpiece := by
    rcases List.mem_append.mp hpiece with hletter | hend
    · simp [List.eq_of_mem_replicate hletter]
    · simp [List.mem_singleton.mp hend]

private theorem longLine_short {n : Nat} (hreads : ReadsLines (longLine n)) : n + 1 < 2 ^ 32 := by
  obtain ⟨enough, hrun⟩ := hreads
  have h := cuttable_of_ok Option.getD_none ⟨by simp, (longLine n).nulFree⟩
    (hrun enough (Nat.le_refl _))
  have hcontent : (longLine n).pieces.flatten = List.replicate n 'a' ++ ['\n'] := by
    simp [longLine, List.flatten_append, List.flatten_replicate_singleton]
  generalize hkept : ([] : Text) = kept at h
  cases h with
  | last hnone =>
      rw [hcontent] at hnone
      simp at hnone
  | @line _ _ line rest more harrived hline hshort _ _ =>
      have hflatten := arrived_flatten kept (longLine n).pieces
      rw [harrived, ← hkept, List.nil_append, hcontent, List.append_assoc, List.cons_append]
        at hflatten
      have hletters : '\n' ∉ List.replicate n 'a' := by simp
      have hsplit := congrArg (List.splitOn '\n') hflatten
      rw [splitOn_line hline, splitOn_line hletters] at hsplit
      rw [(List.cons.inj hsplit).1, List.length_replicate] at hshort
      exact hshort

theorem not_readsLines : ¬∀ file, ReadsLines file := by
  intro h
  exact absurd (longLine_short (h (longLine (2 ^ 32 - 1)))) (by norm_num)

end FortyTwo.Cub3d
