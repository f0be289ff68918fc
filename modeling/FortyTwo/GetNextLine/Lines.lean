import FortyTwo.Foundation.Lines
import FortyTwo.GetNextLine.Reading

/-!
Successive calls of `get_next_line` return the lines of the file, however
`read` cuts it.
-/

namespace FortyTwo.GetNextLine

open Foundation

variable {bufferSize : Int}

/-- The ways in which `ft_read` ends: `read` has failed, there is a newline, or
nothing is left to be read. -/
inductive ReadEnd.Ended : ReadEnd bufferSize → Prop
  | failed {nlinePos myline outcomes} : Ended ⟨none, nlinePos, myline, outcomes⟩
  | newline {line rest myline outcomes} (hline : 10 ∉ line) :
      Ended ⟨some (line ++ 10 :: rest), line.length, myline, outcomes⟩
  | last {text outcomes} (htext : 10 ∉ text) : Ended ⟨some text, -1, text.length, outcomes⟩

private theorem strchrFrom_newline {line : Bytes} (hline : 10 ∉ line) (nlinePos : Int) (i : Nat)
    (rest : Bytes) :
    strchrFrom 10 nlinePos i (line ++ 10 :: rest) =
      (some (line.length + i), ((line.length + i : Nat) : Int)) := by
  induction line generalizing i with
  | nil => simp [strchrFrom]
  | cons c line ih =>
      have hc : c ≠ 10 := fun h => hline (by simp [h])
      rw [List.cons_append, strchrFrom, if_neg hc, ih (fun h => hline (by simp [h])),
        List.length_cons]
      simp only [Prod.mk.injEq, Option.some.injEq, Nat.cast_inj]
      omega

private theorem strchrFrom_none {text : Bytes} (htext : 10 ∉ text) (nlinePos : Int) (i : Nat) :
    strchrFrom 10 nlinePos i text = (none, nlinePos) := by
  induction text generalizing i with
  | nil => rfl
  | cons c text ih =>
      have hc : c ≠ 10 := fun h => htext (by simp [h])
      rw [strchrFrom, if_neg hc, ih fun h => htext (by simp [h])]

theorem ftStrchr_newline {line : Bytes} (hline : 10 ∉ line) (rest : Bytes) (nlinePos : Int) :
    ftStrchr (some (line ++ 10 :: rest)) 10 nlinePos =
      (some line.length, (line.length : Int)) := strchrFrom_newline hline nlinePos 0 rest

theorem ftStrchr_none {myStatic : Option Bytes} (h : 10 ∉ myStatic.getD []) (nlinePos : Int) :
    ftStrchr myStatic 10 nlinePos = (none, nlinePos) := by
  cases myStatic with
  | none => rfl
  | some text => exact strchrFrom_none h nlinePos 0

theorem exists_newline {text : Bytes} (h : 10 ∈ text) :
    ∃ line rest, text = line ++ 10 :: rest ∧ 10 ∉ line := by
  obtain ⟨line, rest, heq, hline⟩ := List.eq_append_cons_of_mem h
  exact ⟨line, rest, heq, hline⟩

section Reading

variable {myStatic : Option Bytes} {nlinePos myline : Int} {outcomes : List (Outcome bufferSize)}
  {read : Int → ReadEnd bufferSize}

theorem unlessFound_newline {line rest : Bytes} (hline : 10 ∉ line) :
    unlessFound (some (line ++ 10 :: rest)) nlinePos myline outcomes read =
      ⟨some (line ++ 10 :: rest), line.length, myline, outcomes⟩ := by
  simp [unlessFound, ftStrchr_newline hline]

theorem unlessFound_none (h : 10 ∉ myStatic.getD []) :
    unlessFound myStatic nlinePos myline outcomes read = read nlinePos := by
  simp [unlessFound, ftStrchr_none h]

theorem readNothing_eq (h : 10 ∉ myStatic.getD []) :
    readNothing myStatic nlinePos outcomes =
      ⟨some (myStatic.getD []), nlinePos, (myStatic.getD []).length, outcomes⟩ := by
  have hjoined : 10 ∉ (some (myStatic.getD [] ++ [])).getD [] := by simpa using h
  simp only [readNothing, createCopyReturn, ftStrchr_none hjoined]
  simp

/-- A search that finds nothing leaves it to `read` how `ft_read` ends. -/
theorem unlessFound_ended (hread : 10 ∉ myStatic.getD [] → (read nlinePos).Ended) :
    (unlessFound myStatic nlinePos myline outcomes read).Ended := by
  by_cases h : 10 ∈ myStatic.getD []
  · cases myStatic with
    | none => simp at h
    | some text =>
        obtain ⟨line, rest, rfl, hline⟩ := exists_newline h
        rw [unlessFound_newline hline]
        exact .newline hline
  · rw [unlessFound_none h]
    exact hread h

end Reading

theorem ftRead_ended (myStatic : Option Bytes) (myline : Int)
    (outcomes : List (Outcome bufferSize)) : (ftRead myStatic (-1) myline outcomes).Ended := by
  induction outcomes generalizing myStatic myline with
  | nil =>
      apply unlessFound_ended
      intro h
      rw [readNothing_eq h]
      exact .last h
  | cons outcome rest ih =>
      cases outcome with
      | none => exact unlessFound_ended fun _ => .failed
      | some piece =>
          apply unlessFound_ended
          intro h
          split
          · rw [readNothing_eq h]
            exact .last h
          · exact ih _ _

private theorem charAt_zero (text : Bytes) : charAt text 0 = .ok (text.getD 0 0) := by
  simp [charAt]

private theorem head_ne_zero {text : Bytes} (hnul : 0 ∉ text) (hne : text ≠ []) :
    text.getD 0 0 ≠ 0 := by
  cases text with
  | nil => exact absurd rfl hne
  | cons c text => exact fun h => hnul (by simp at h; simp [h])

section NextLine

variable {myStatic : Option Bytes} {outcomes rest : List (Outcome bufferSize)} {myline : Int}

theorem nextLine_failed {nlinePos : Int}
    (h : ftRead myStatic (-1) 0 outcomes = ⟨none, nlinePos, myline, rest⟩) :
    nextLine myStatic outcomes = .ok (none, none, rest) := by
  rw [nextLine, h]
  rfl

theorem nextLine_newline {line kept : Bytes}
    (h : ftRead myStatic (-1) 0 outcomes =
      ⟨some (line ++ 10 :: kept), line.length, myline, rest⟩) :
    nextLine myStatic outcomes = .ok (some (line ++ [10]), some kept, rest) := by
  have hsize : ((line ++ 10 :: kept).length : Int) = line.length + kept.length + 1 := by
    rw [List.length_append, List.length_cons]
    omega
  have hcopy : ftCopyUntilN (line ++ 10 :: kept) line.length myline =
      .ok (some (line ++ [10])) := by
    have hle : (line.length : Int) + 1 ≤ ((line ++ 10 :: kept).length : Int) := by omega
    have htake : (line ++ 10 :: kept).take ((line.length : Int) + 1).toNat = line ++ [10] := by
      rw [show ((line.length : Int) + 1).toNat = line.length + 1 by omega,
        List.take_length_add_append]
      rfl
    rw [ftCopyUntilN, if_neg (by omega), copyBytes, if_pos hle, htake]
    rfl
  have hlast : charAt (line ++ [10]) ((line.length : Int) + 1 - 1) = .ok 10 := by
    rw [charAt, if_pos (by simp), show ((line.length : Int) + 1 - 1).toNat = line.length by omega]
    simp
  have hbehind : ∃ c, charAt (line ++ 10 :: kept) ((line.length : Int) + 1) = .ok c :=
    ⟨_, by rw [charAt, if_pos (by omega)]⟩
  have hdrop : (line ++ 10 :: kept).drop ((line.length : Int) + 1).toNat = kept := by
    rw [show ((line.length : Int) + 1).toNat = line.length + 1 by omega,
      List.drop_length_add_append]
    rfl
  have hkept : ftStaticHandler (line ++ 10 :: kept) (some (line ++ [10])) line.length =
      .ok (some kept) := by
    obtain ⟨c, hc⟩ := hbehind
    have hpos : (line.length : Int) + 1 > 0 := by omega
    simp only [ftStaticHandler, hpos, if_true, hlast]
    change (charAt (line ++ 10 :: kept) ((line.length : Int) + 1)).bind _ = _
    rw [hc, Except.bind, hdrop]
    rfl
  rw [nextLine, h]
  simp only [hcopy]
  change (ftStaticHandler _ (some (line ++ [10])) line.length).bind _ = _
  rw [hkept]
  rfl

theorem nextLine_last {text : Bytes}
    (h : ftRead myStatic (-1) 0 outcomes = ⟨some text, -1, text.length, rest⟩) :
    nextLine myStatic outcomes =
      .ok (if text.getD 0 0 = 0 then none else some text, none, rest) := by
  have hcopy : ftCopyUntilN text (-1) text.length =
      .ok (if text.getD 0 0 = 0 then none else some text) := by
    rw [ftCopyUntilN, if_pos rfl, charAt_zero]
    split_ifs with hfirst
    · change (if text.getD 0 0 = 0 then _ else _) = _
      rw [if_pos hfirst]
      rfl
    · change (if text.getD 0 0 = 0 then _ else _) = _
      rw [if_neg hfirst, copyBytes, if_pos le_rfl]
      simp
  have hkept : ∀ string, ftStaticHandler text string (-1) = .ok none := by
    intro string
    cases string <;> rfl
  rw [nextLine, h]
  simp only [hcopy]
  change (ftStaticHandler _ _ (-1)).bind _ = _
  rw [hkept]
  rfl

end NextLine

/-- The process, whose static string begins as `NULL`. -/
structure Process (bufferSize : Int) where
  myStatic : Option Bytes := none
  descriptors : Int → Descriptor bufferSize

/-- What is left to be read of `fd`. -/
def leave (descriptors : Int → Descriptor bufferSize) (fd : Int)
    (outcomes : List (Outcome bufferSize)) : Int → Descriptor bufferSize :=
  Function.update descriptors fd { descriptors fd with outcomes := outcomes }

def getNextLine (fd : Int) (s : Process bufferSize) :
    Except Fault (Option Bytes × Process bufferSize) :=
  if refuses fd (s.descriptors fd) then .ok (none, { s with myStatic := none })
  else do
    let (line, myStatic, outcomes) ← nextLine s.myStatic (s.descriptors fd).outcomes
    return (line, ⟨myStatic, leave s.descriptors fd outcomes⟩)

/-- What `n` calls return. -/
def calls (fd : Int) : Nat → Process bufferSize → Except Fault (List (Option Bytes))
  | 0, _ => .ok []
  | n + 1, s => do
      let (line, s) ← getNextLine fd s
      return line :: (← calls fd n s)

/-- The pieces in which the rest of a file is read. -/
abbrev Pieces (bufferSize : Int) := List {piece : Bytes // (piece.length : Int) ≤ bufferSize}

/-- The text that is still to be returned. -/
def unreturned (myStatic : Option Bytes) (pieces : Pieces bufferSize) : Bytes :=
  myStatic.getD [] ++ (pieces.map Subtype.val).flatten

private theorem cString_eq {piece : Bytes} (h : 0 ∉ piece) : cString piece = piece := by
  have hall : ∀ c ∈ piece, (c != 0) = true := by
    intro c hc
    simpa using fun h0 : c = 0 => h (h0 ▸ hc)
  have htake : (piece ++ []).takeWhile (· != 0) = piece ++ List.takeWhile (· != 0) [] :=
    List.takeWhile_append_of_pos hall
  simpa [cString] using htake

/-- Reading moves the front of a file to the static string; it stops early only
at a newline. -/
theorem ftRead_pieces {pieces : Pieces bufferSize} (hne : ∀ piece ∈ pieces, piece.val ≠ [])
    (hnul : ∀ piece ∈ pieces, 0 ∉ piece.val) (myStatic : Option Bytes) (myline : Int) :
    ∃ text nlinePos length, ∃ rest : Pieces bufferSize,
      ftRead myStatic (-1) myline (pieces.map some) =
        ⟨some text, nlinePos, length, rest.map some⟩ ∧
      text ++ (rest.map Subtype.val).flatten = unreturned myStatic pieces ∧
      rest <:+ pieces ∧ (10 ∉ text → rest = []) := by
  induction pieces generalizing myStatic myline with
  | nil =>
      by_cases h : 10 ∈ myStatic.getD []
      · cases myStatic with
        | none => simp at h
        | some text =>
            obtain ⟨line, rest, rfl, hline⟩ := exists_newline h
            refine ⟨_, _, _, [], unlessFound_newline hline, by simp [unreturned], by simp, ?_⟩
            exact fun _ => rfl
      · refine ⟨_, _, _, [], (unlessFound_none h).trans (readNothing_eq h), ?_, by simp, ?_⟩
        · simp [unreturned]
        · exact fun _ => rfl
  | cons piece pieces ih =>
      by_cases h : 10 ∈ myStatic.getD []
      · cases myStatic with
        | none => simp at h
        | some text =>
            obtain ⟨line, rest, rfl, hline⟩ := exists_newline h
            refine ⟨_, _, _, piece :: pieces, unlessFound_newline hline, by simp [unreturned],
              List.suffix_rfl, fun hnot => absurd ?_ hnot⟩
            simp
      · obtain ⟨text, nlinePos, length, rest, hread, htext, hrest, hend⟩ :=
          ih (fun p hp => hne p (by simp [hp])) (fun p hp => hnul p (by simp [hp]))
            (some (myStatic.getD [] ++ piece.val)) (myStatic.getD [] ++ piece.val).length
        refine ⟨text, nlinePos, length, rest, ?_, ?_, ?_, hend⟩
        · rw [List.map_cons, ftRead, unlessFound_none h, if_neg (hne piece (by simp)),
            cString_eq (hnul piece (by simp))]
          exact hread
        · rw [htext]
          simp [unreturned]
        · exact hrest.trans (List.suffix_cons _ _)

/-- One call returns the first line of the text that is to be returned, and
leaves the others. -/
theorem nextLine_pieces {pieces : Pieces bufferSize} (hne : ∀ piece ∈ pieces, piece.val ≠ [])
    (hnul : ∀ piece ∈ pieces, 0 ∉ piece.val) {myStatic : Option Bytes}
    (hstatic : 0 ∉ myStatic.getD []) :
    ∃ kept, ∃ rest : Pieces bufferSize,
      nextLine myStatic (pieces.map some) =
        .ok ((linesOf 10 (unreturned myStatic pieces))[0]?, kept, rest.map some) ∧
      linesOf 10 (unreturned kept rest) = (linesOf 10 (unreturned myStatic pieces)).tail ∧
      rest <:+ pieces ∧ 0 ∉ kept.getD [] := by
  obtain ⟨text, nlinePos, length, rest, hread, htext, hrest, hlast⟩ :=
    ftRead_pieces hne hnul myStatic 0
  have hended := ftRead_ended myStatic 0 (pieces.map some)
  have hclean : 0 ∉ text := by
    intro h0
    have hmem : (0 : UInt8) ∈ unreturned myStatic pieces := by
      rw [← htext]
      exact List.mem_append_left _ h0
    rcases List.mem_append.mp hmem with h | h
    · exact hstatic h
    · obtain ⟨piece, hpiece, h⟩ := List.mem_flatten.mp h
      obtain ⟨p, hp, rfl⟩ := List.mem_map.mp hpiece
      exact hnul p hp h
  rw [hread] at hended
  cases hended with
  | @newline line kept _ _ hline =>
      refine ⟨some kept, rest, ?_, ?_, hrest, fun h0 => hclean (by simpa using Or.inr h0)⟩
      · rw [nextLine_newline hread, ← htext, List.append_assoc, List.cons_append,
          linesOf_line hline]
        rfl
      · rw [← htext, List.append_assoc, List.cons_append, linesOf_line hline]
        rfl
  | last hline =>
      obtain rfl := hlast hline
      refine ⟨none, [], ?_, ?_, hrest, by simp⟩
      · rw [nextLine_last hread, ← htext]
        rcases eq_or_ne text [] with rfl | hne
        · rfl
        · rw [if_neg (head_ne_zero hclean hne)]
          simp [linesOf_last hline hne]
      · rw [← htext]
        rcases eq_or_ne text [] with rfl | hne
        · rfl
        · simp [linesOf_last hline hne, unreturned, linesOf]

/-- Calls return the lines that are left one by one, and then `NULL`. -/
theorem calls_pieces {fd : Int} (hfd : 0 ≤ fd) (hbuffer : 1 ≤ bufferSize) (n : Nat)
    {pieces : Pieces bufferSize} (hne : ∀ piece ∈ pieces, piece.val ≠ [])
    (hnul : ∀ piece ∈ pieces, 0 ∉ piece.val) {s : Process bufferSize}
    (hstatic : 0 ∉ s.myStatic.getD []) (hs : s.descriptors fd = ⟨true, pieces.map some⟩) :
    calls fd n s =
      .ok ((List.range n).map fun k => (linesOf 10 (unreturned s.myStatic pieces))[k]?) := by
  induction n generalizing s pieces with
  | zero => rfl
  | succ n ih =>
      obtain ⟨kept, rest, hline, hlines, hrest, hkept⟩ := nextLine_pieces hne hnul hstatic
      have hcall : getNextLine fd s = .ok ((linesOf 10 (unreturned s.myStatic pieces))[0]?,
          ⟨kept, leave s.descriptors fd (rest.map some)⟩) := by
        have hcheck : refuses fd (s.descriptors fd) = false := by
          simp [refuses, hs, hfd]
          omega
        rw [getNextLine, hcheck, if_neg (by decide), hs, hline]
        rfl
      have hmore := ih (fun p hp => hne p (hrest.subset hp)) (fun p hp => hnul p (hrest.subset hp))
        (s := ⟨kept, leave s.descriptors fd (rest.map some)⟩) hkept
        (by simp [leave, hs])
      rw [calls, hcall]
      change (calls fd n _).bind _ = _
      rw [hmore, hlines, List.range_succ_eq_map, List.map_cons, List.map_map]
      simp only [Except.bind, Function.comp_def, List.getElem?_tail]
      rfl

end FortyTwo.GetNextLine
