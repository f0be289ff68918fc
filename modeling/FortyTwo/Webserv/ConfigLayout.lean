import FortyTwo.Webserv.ConfigComposition
import Mathlib.Data.List.TakeWhile

/-!
The layout of a configuration file: what stands between two tokens does not
matter, except that a code of an `error_page` directive is told from a path by
the single character behind it, and that the file must not end in a newline.
-/

namespace FortyTwo.Webserv

open Foundation TokenParser ConfigParser

def isBlank (c : UInt8) : Bool := c == byteOf ' ' || c == 9 || c == 10 || c == 13

/-- Blanks, and comments that a newline ends. -/
inductive Spacing : Bytes → Prop where
  | nil : Spacing []
  | blank {c : UInt8} {rest : Bytes} (hc : isBlank c = true) (hrest : Spacing rest) :
      Spacing (c :: rest)
  | comment {text rest : Bytes} (htext : 10 ∉ text) (hrest : Spacing rest) :
      Spacing (byteOf '#' :: (text ++ 10 :: rest))

/-- A run that separates two tokens. -/
structure Separator (run : Bytes) : Prop where
  head : ∃ c ∈ run.head?, isBlank c = true
  spacing : Spacing run

/-- The text ends where its last token does. -/
def EndsInToken (text : Bytes) : Prop :=
  ∃ t ∈ (scanText text).getLast?, tokenEnd t = text.length

/-- The first character of the text begins a token. -/
def BeginsToken (text : Bytes) : Prop :=
  ∃ c ∈ text.head?, (charToken c).isSome = true ∨ isIdentifierStart c = true

/-- Whether the tokens behind an `error_page` are all codes, as far as they go. -/
def areErrorCodes : List Token → Bool
  | [] => false
  | [t] => isNumber t
  | t :: u :: rest => isNumber t && isSpaceBetween t u && areErrorCodes (u :: rest)

/-- The text ends behind a code of an `error_page` directive. -/
def EndsInErrorCode (text : Bytes) : Prop :=
  ∃ before t codes, scanText text = before ++ t :: codes ∧ t.type = .errorPage ∧
    areErrorCodes codes = true

section Spacing

private theorem blank_not_identifier {c : UInt8} (hc : isBlank c = true) :
    isIdentifierChar c = false := by
  simp only [isBlank, Bool.or_eq_true, beq_iff_eq] at hc
  rcases hc with ((rfl | rfl) | rfl) | rfl <;> decide

private theorem scan_blank {c : UInt8} (hc : isBlank c = true) (line current : Int)
    (more : Bytes) :
    ∃ line', scan ⟨line, current, c :: more⟩ = scan ⟨line', current + 1, more⟩ := by
  rw [@scan_cons ⟨line, current, c :: more⟩ c more rfl]
  have hjump : (ScanState.jump ⟨line, current, c :: more⟩ more) = ⟨line, current + 1, more⟩ := by
    simp [ScanState.jump]
  simp only [isBlank, Bool.or_eq_true, beq_iff_eq] at hc
  rcases hc with ((rfl | rfl) | rfl) | rfl
  all_goals
    rw [scanToken]
  · exact ⟨line, by rw [if_pos (by decide), hjump]; rfl⟩
  · exact ⟨line, by rw [if_pos (by decide), hjump]; rfl⟩
  · refine ⟨line + 1, ?_⟩
    rw [if_neg (by decide), show charToken 10 = none from by decide, hjump]
    rfl
  · exact ⟨line, by rw [if_pos (by decide), hjump]; rfl⟩

private theorem dropWhile_line {text : Bytes} (htext : 10 ∉ text) (more : Bytes) :
    (text ++ 10 :: more).dropWhile (fun d => d != 10) = 10 :: more := by
  induction text with
  | nil => rfl
  | cons c text ih =>
      obtain ⟨hc, htail⟩ := List.ne_and_not_mem_of_not_mem_cons htext
      have hpass : (c != 10) = true := by simpa using hc.symm
      rw [List.cons_append, List.dropWhile_cons, if_pos hpass, ih htail]

private theorem scan_comment (tail : Bytes) (line current : Int) :
    scan ⟨line, current, byteOf '#' :: tail⟩ =
      scan (ScanState.jump ⟨line, current, byteOf '#' :: tail⟩
        (tail.dropWhile (fun d => d != 10))) := by
  rw [@scan_cons ⟨line, current, byteOf '#' :: tail⟩ (byteOf '#') tail rfl]
  rfl

/-- A run of blanks and comments has no token. -/
theorem scan_spacing {run : Bytes} (hrun : Spacing run) (line current : Int) (more : Bytes) :
    ∃ line', scan ⟨line, current, run ++ more⟩ =
      scan ⟨line', current + run.length, more⟩ := by
  induction hrun generalizing line current with
  | nil => exact ⟨line, by simp⟩
  | @blank c rest hc hrest ih =>
      obtain ⟨line₁, hblank⟩ := scan_blank hc line current (rest ++ more)
      obtain ⟨line₂, htail⟩ := ih line₁ (current + 1)
      refine ⟨line₂, ?_⟩
      rw [List.cons_append, hblank, htail, List.length_cons]
      congr 2
      omega
  | @comment text rest htext hrest ih =>
      obtain ⟨line₁, hline⟩ := scan_blank (c := 10) (by decide) line
        (current + (text.length + 1)) (rest ++ more)
      obtain ⟨line₂, htail⟩ := ih line₁ (current + (text.length + 1) + 1)
      refine ⟨line₂, ?_⟩
      have hdrop := dropWhile_line htext (rest ++ more)
      have hjump : ScanState.jump ⟨line, current, byteOf '#' :: (text ++ 10 :: (rest ++ more))⟩
          (10 :: (rest ++ more)) = ⟨line, current + (text.length + 1), 10 :: (rest ++ more)⟩ := by
        simp only [ScanState.jump, List.length_cons, List.length_append, ScanState.mk.injEq,
          true_and, and_true]
        omega
      rw [List.cons_append, List.append_assoc, List.cons_append, scan_comment, hdrop, hjump, hline,
        htail]
      congr 2
      simp only [List.length_cons, List.length_append]
      omega

theorem scan_spacing_end {run : Bytes} (hrun : Spacing run) (line current : Int) :
    scan ⟨line, current, run⟩ = [] := by
  obtain ⟨line', hscan⟩ := scan_spacing hrun line current []
  rw [List.append_nil] at hscan
  rw [hscan]
  exact scan_nil rfl

theorem Spacing.append {run more : Bytes} (hrun : Spacing run) (hmore : Spacing more) :
    Spacing (run ++ more) := by
  induction hrun with
  | nil => exact hmore
  | blank hc _ ih => exact .blank hc ih
  | comment htext _ ih =>
      rw [List.cons_append, List.append_assoc, List.cons_append]
      exact .comment htext ih

/-- What is left of a run behind the end of a line. -/
private theorem Spacing.dropWhile {run : Bytes} (hrun : Spacing run) :
    Spacing (run.dropWhile (fun d => d != 10)) := by
  induction hrun with
  | nil => exact .nil
  | @blank c rest hc hrest ih =>
      rw [List.dropWhile_cons]
      split
      · exact ih
      · exact .blank hc hrest
  | @comment text rest htext hrest ih =>
      have hhash : (byteOf '#' != 10) = true := by decide
      rw [List.dropWhile_cons, if_pos hhash, dropWhile_line htext]
      exact .blank (by decide) hrest

end Spacing

section Replacing

private theorem errorCodes_join {k : Int} {codes l l' : List Token}
    (hmoved : List.Forall₂ (Moved k) l l')
    (hspace : areErrorCodes codes = true → ∀ q ∈ codes.getLast?, ∀ x ∈ l.head?, ∀ x' ∈ l'.head?,
      isSpaceBetween q x = isSpaceBetween q x') :
    errorCodes (codes ++ l) = errorCodes (codes ++ l') := by
  induction codes with
  | nil => exact errorCodes_moved hmoved
  | cons t codes ih =>
      cases codes with
      | nil =>
          cases hmoved with
          | nil => rfl
          | @cons x x' l l' hx hl =>
              rw [List.singleton_append, List.singleton_append, errorCodes, errorCodes,
                errorCodes_moved (List.Forall₂.cons hx hl)]
              cases hnumber : isNumber t with
              | false => simp
              | true => rw [hspace hnumber t rfl x rfl x' rfl]
      | cons u codes =>
          rw [List.cons_append, List.cons_append, List.cons_append, List.cons_append, errorCodes,
            errorCodes]
          cases hcode : isNumber t && isSpaceBetween t u with
          | false => simp
          | true =>
              have htail := ih fun hcodes q hq => hspace (by rw [areErrorCodes, hcode, hcodes]; rfl)
                q (by rw [Option.mem_def, List.getLast?_cons_cons]; exact hq)
              rw [if_pos rfl, if_pos rfl]
              exact congrArg (· + 1) htail

/-- Tokens that are moved, behind tokens that are not. -/
theorem alike_behind {k : Int} {before l l' : List Token}
    (hmoved : List.Forall₂ (Moved k) l l') (hseparated : Separated (before ++ l'))
    (hspace : ∀ first t codes, before = first ++ t :: codes → t.type = .errorPage →
      areErrorCodes codes = true → ∀ q ∈ codes.getLast?, ∀ x ∈ l.head?, ∀ x' ∈ l'.head?,
      isSpaceBetween q x = isSpaceBetween q x') :
    AlikeTokens (before ++ l) (before ++ l') where
  same := List.rel_append (List.forall₂_same.mpr fun _ _ => SameToken.rfl)
    (hmoved.imp fun _ _ ht => ht.1)
  separated := hseparated
  codes := by
    intro n t ht hpage
    by_cases hn : n < before.length
    · rw [List.getElem?_append_left hn] at ht
      rw [List.drop_append_of_le_length (by omega), List.drop_append_of_le_length (by omega)]
      refine errorCodes_join hmoved (hspace (before.take n) t _ ?_ hpage)
      obtain ⟨hlt, rfl⟩ := List.getElem?_eq_some_iff.mp ht
      rw [List.getElem_cons_drop, List.take_append_drop]
    · rw [List.drop_append, List.drop_append, List.drop_of_length_le (by omega)]
      exact errorCodes_moved (List.forall₂_drop _ hmoved)

/-- The scanner is at the end of the text, or its last token will end there. -/
private def TokenEnds (s : ScanState) : Prop :=
  s.rest = [] ∨ ∃ t ∈ (scan s).getLast?, tokenEnd t = s.current + s.rest.length

private theorem tokenEnds_next {s : ScanState} {c : UInt8} {tail : Bytes} (hrest : s.rest = c :: tail)
    (hs : TokenEnds s) : TokenEnds (scanToken s c tail).2 ∧ (c = byteOf '#' → 10 ∈ tail) := by
  rcases hs with hnil | ⟨t, ht, hstop⟩
  · rw [hrest] at hnil
    cases hnil
  have hcurrent := scanToken_current s c tail
  rw [scan_cons hrest] at ht
  constructor
  · cases hscan : scan (scanToken s c tail).2 with
    | nil =>
        rw [hscan, List.append_nil] at ht
        have htoken : (scanToken s c tail).1 = some t := by
          cases htoken : (scanToken s c tail).1 with
          | none =>
              rw [htoken] at ht
              cases ht
          | some u =>
              rw [htoken] at ht
              exact ht
        have hend := (scanToken_read hrest htoken).stop
        exact Or.inl (List.length_eq_zero_iff.mp (by omega))
    | cons u rest =>
        refine Or.inr ⟨t, ?_, by omega⟩
        rw [hscan, List.getLast?_append_cons] at ht
        rw [hscan]
        exact ht
  · rintro rfl
    by_contra hline
    have hdrop : tail.dropWhile (fun d => d != 10) = [] := by
      rw [List.dropWhile_eq_nil_iff]
      intro d hd
      simpa using fun h : d = 10 => hline (h ▸ hd)
    have hnone : scanToken s (byteOf '#') tail =
        (none, s.jump (tail.dropWhile (fun d => d != 10))) := rfl
    rw [hnone, hdrop, scan_nil rfl] at ht
    cases ht

/-- A text whose last token ends it is scanned up to there. -/
private theorem scan_token_end {text more : Bytes} (htext : EndsInToken text)
    (hmore : ∀ d ∈ more.head?, isIdentifierChar d = false) :
    ∃ line, scan ⟨1, 0, text ++ more⟩ = scanText text ++ scan ⟨line, text.length, more⟩ := by
  obtain ⟨t, ht, hstop⟩ := htext
  have hstart : TokenEnds ⟨1, 0, text⟩ := Or.inr ⟨t, ht, by simpa using hstop⟩
  obtain ⟨line, hscan⟩ := @scan_extend more TokenEnds
    (fun s c tail hrest hs => ⟨(tokenEnds_next hrest hs).1, (tokenEnds_next hrest hs).2,
      fun _ => Or.inr hmore⟩) ⟨1, 0, text⟩ hstart
  refine ⟨line, ?_⟩
  rw [scanText_eq]
  simpa [ScanState.extend] using hscan

/-- The first token of a text that begins with one. -/
private theorem scan_head {text : Bytes} (htext : BeginsToken text) (line current : Int) :
    ∃ t ∈ (scan ⟨line, current, text⟩).head?, t.column = current := by
  obtain ⟨c, hc, htoken⟩ := htext
  cases text with
  | nil => cases hc
  | cons d tail =>
      cases hc
      rw [@scan_cons ⟨line, current, c :: tail⟩ c tail rfl]
      have hblank : ¬(c = byteOf ' ' ∨ c = 13 ∨ c = 9) := by
        rintro (rfl | rfl | rfl) <;> revert htoken <;> decide
      have hcomment : c ≠ byteOf '#' := by
        rintro rfl
        revert htoken
        decide
      have hline : c ≠ 10 := by
        rintro rfl
        revert htoken
        decide
      obtain ⟨t, ht⟩ : ∃ t, (scanToken ⟨line, current, c :: tail⟩ c tail).1 = some t := by
        rw [scanToken, if_neg hblank]
        cases htype : charToken c with
        | some type => exact ⟨_, rfl⟩
        | none =>
            have hstart : isIdentifierStart c = true := by simpa [htype] using htoken
            simp only [if_neg hcomment, if_neg hline, if_pos hstart]
            exact ⟨_, rfl⟩
      rw [ht]
      exact ⟨t, rfl, (scanToken_read (s := ⟨line, current, c :: tail⟩) rfl ht).column⟩

/-- The tokens of a text in which a run separates two of them. -/
private theorem scan_separated_parts {before run : Bytes} (hbefore : EndsInToken before)
    (hrun : Separator run) (after : Bytes) :
    ∃ line, scanText (before ++ run ++ after) =
      scanText before ++ scan ⟨line, before.length + run.length, after⟩ := by
  obtain ⟨c, hc, hblank⟩ := hrun.head
  have hhead : ∀ d ∈ (run ++ after).head?, isIdentifierChar d = false := by
    intro d hd
    cases run with
    | nil => cases hc
    | cons e run =>
        cases hc
        cases hd
        exact blank_not_identifier hblank
  obtain ⟨line₁, hfirst⟩ := scan_token_end hbefore hhead
  obtain ⟨line₂, hspace⟩ := scan_spacing hrun.spacing line₁ before.length after
  refine ⟨line₂, ?_⟩
  rw [scanText_eq, List.append_assoc, hfirst, hspace]

theorem parse_replace {before run run' after : Bytes} {configs : List Config}
    (hbefore : EndsInToken before) (hrun : Separator run) (hrun' : Separator run')
    (hafter : BeginsToken after) (hparse : parse (before ++ run ++ after) = .ok configs)
    (hcode : EndsInErrorCode before → (run.length = 1 ↔ run'.length = 1)) :
    parse (before ++ run' ++ after) = .ok configs := by
  obtain ⟨_, hlast, temp, hblocks⟩ := parse_eq_ok_iff.mp hparse
  have hne : after ≠ [] := by
    rintro rfl
    obtain ⟨c, hc, _⟩ := hafter
    cases hc
  have hafter' : BeginsToken (after ++ [10]) := by
    obtain ⟨c, hc, htoken⟩ := hafter
    cases after with
    | nil => cases hc
    | cons d after => exact ⟨c, hc, htoken⟩
  obtain ⟨line, hscan⟩ := scan_separated_parts hbefore hrun (after ++ [10])
  obtain ⟨line', hscan'⟩ := scan_separated_parts hbefore hrun' (after ++ [10])
  rw [← List.append_assoc] at hscan hscan'
  have hmoved : List.Forall₂ (Moved (run'.length - run.length))
      (scan ⟨line, before.length + run.length, after ++ [10]⟩)
      (scan ⟨line', before.length + run'.length, after ++ [10]⟩) := by
    refine scan_moved rfl ?_
    change (before.length + run'.length : Int) = before.length + run.length + (run'.length - run.length)
    omega
  have hsound : Separated (scanTokens (before ++ run ++ after ++ [10])) := scan_separated ⟨1, 0, _⟩
  have hsound' : Separated (scanText (before ++ run' ++ after ++ [10])) :=
    (scan_separated ⟨1, 0, _⟩).left
  -- one character between the last token before the run and the first one behind it
  have hspace : ∀ first t codes, scanText before = first ++ t :: codes → t.type = .errorPage →
      areErrorCodes codes = true → ∀ q ∈ codes.getLast?,
      ∀ x ∈ (scan ⟨line, before.length + run.length, after ++ [10]⟩).head?,
      ∀ x' ∈ (scan ⟨line', before.length + run'.length, after ++ [10]⟩).head?,
      isSpaceBetween q x = isSpaceBetween q x' := by
    intro first t codes hsplit hpage hcodes q hq x hx x' hx'
    have hlength := hcode ⟨first, t, codes, hsplit, hpage, hcodes⟩
    obtain ⟨u, hu, hstop⟩ := hbefore
    have hqu : q = u := by
      rw [hsplit, List.getLast?_append_cons] at hu
      cases codes with
      | nil => cases hq
      | cons v codes =>
          rw [List.getLast?_cons_cons] at hu
          exact Option.some.inj (hq.symm.trans hu)
    obtain ⟨y, hy, hcolumn⟩ := scan_head hafter' line (before.length + run.length)
    obtain ⟨y', hy', hcolumn'⟩ := scan_head hafter' line' (before.length + run'.length)
    obtain rfl : x = y := Option.some.inj (hx.symm.trans hy)
    obtain rfl : x' = y' := Option.some.inj (hx'.symm.trans hy')
    rw [hqu, isSpaceBetween, isSpaceBetween, hcolumn, hcolumn']
    unfold tokenEnd at hstop
    congr 1
    apply propext
    omega
  rw [hscan'] at hsound'
  have halike := alike_behind hmoved hsound' hspace
  obtain ⟨c, hc, hagain⟩ := hblocks.again hsound
  obtain rfl := (endOfFile_last (s := ⟨1, 0, before ++ run ++ after ++ [10]⟩) hc rfl).1
  rw [← scanText_eq, hscan] at hagain
  obtain ⟨configs', temp', hblocks', hsame⟩ := hagain {} _ [endOfFile]
    halike.same.length_eq.symm halike
  obtain rfl := hsame.mpr (Or.inr (Or.inl rfl))
  refine parse_eq_ok_iff.mpr ⟨by simp [hne], ?_, temp', ?_⟩
  · rw [List.getLast?_append_of_ne_nil _ hne] at hlast ⊢
    exact hlast
  · rw [scanTokens, hscan']
    exact hblocks'

end Replacing

section Ending

private theorem jump_behind (line current : Int) (c : UInt8) (tail rest more : Bytes) :
    ScanState.jump ⟨line, current, c :: (tail ++ more)⟩ (rest ++ more) =
      ⟨line, current + (tail.length + 1 - rest.length), rest ++ more⟩ := by
  simp only [ScanState.jump, List.length_cons, List.length_append, ScanState.mk.injEq, true_and,
    and_true]
  omega

/-- Two runs behind a text, which a comment of the text may run into. -/
private theorem scan_behind {more more' : Bytes} (hspacing : Spacing more)
    (hspacing' : Spacing more') (hhead : ∀ d ∈ more.head?, isIdentifierChar d = false)
    (hhead' : ∀ d ∈ more'.head?, isIdentifierChar d = false) (text : Bytes) (line current : Int) :
    scan ⟨line, current, text ++ more⟩ = scan ⟨line, current, text ++ more'⟩ := by
  have key : ∀ n (text : Bytes), text.length ≤ n → ∀ line current : Int,
      scan ⟨line, current, text ++ more⟩ = scan ⟨line, current, text ++ more'⟩ := by
    intro n
    induction n with
    | zero =>
        intro text hn line current
        rw [List.length_eq_zero_iff.mp (Nat.le_zero.mp hn)]
        exact (scan_spacing_end hspacing line current).trans
          (scan_spacing_end hspacing' line current).symm
    | succ n ih =>
        intro text hn line current
        cases text with
        | nil =>
            exact (scan_spacing_end hspacing line current).trans
              (scan_spacing_end hspacing' line current).symm
        | cons c tail =>
            rw [List.length_cons] at hn
            have hfirst := scan_cons (s := ⟨line, current, c :: (tail ++ more)⟩) rfl
            have hsecond := scan_cons (s := ⟨line, current, c :: (tail ++ more')⟩) rfl
            rw [List.cons_append, List.cons_append, hfirst, hsecond]
            have hjump := jump_behind line current c tail
            cases charClass c with
            | skipped h => rw [h, h, hjump, hjump, ih tail (by omega)]
            | char type _ h => rw [h, h, hjump, hjump, ih tail (by omega)]
            | line _ h =>
                rw [h, h, hjump, hjump]
                exact congrArg _ (ih tail (by omega) _ _)
            | identifier _ h =>
                obtain ⟨hdrop, htake⟩ := @dropWhile_extend isIdentifierChar tail more (Or.inr hhead)
                obtain ⟨hdrop', htake'⟩ :=
                  @dropWhile_extend isIdentifierChar tail more' (Or.inr hhead')
                have hle := (List.dropWhile_suffix (l := tail) isIdentifierChar).length_le
                rw [h, h, hdrop, hdrop', htake, htake', hjump, hjump, ih _ (by omega)]
            | comment _ h =>
                rw [h, h]
                by_cases hline : 10 ∈ tail
                · have hnewline : ∃ e ∈ tail, (e != 10) = false := ⟨10, hline, by decide⟩
                  have hle := (List.dropWhile_suffix (l := tail) (fun d => d != 10)).length_le
                  rw [(dropWhile_extend (Or.inl hnewline)).1, (dropWhile_extend (Or.inl hnewline)).1,
                    hjump, hjump, ih _ (by omega)]
                · have hpass : ∀ d ∈ tail, (d != 10) = true := by
                    intro d hd
                    simpa using fun h : d = 10 => hline (h ▸ hd)
                  rw [List.dropWhile_append_of_pos hpass, List.dropWhile_append_of_pos hpass]
                  have hempty := scan_spacing_end hspacing.dropWhile
                  have hempty' := scan_spacing_end hspacing'.dropWhile
                  exact congrArg _ ((hempty _ _).trans (hempty' _ _).symm)
  exact key _ text le_rfl line current

theorem parse_append_run {text run : Bytes} {configs : List Config} (hrun : Separator run)
    (hparse : parse text = .ok configs) :
    parse (text ++ run) = .ok configs ↔ run.getLast? ≠ some 10 := by
  obtain ⟨hne, _, temp, hblocks⟩ := parse_eq_ok_iff.mp hparse
  obtain ⟨c, hc, hblank⟩ := hrun.head
  have hnil : run ≠ [] := by
    rintro rfl
    cases hc
  have hline : Spacing [10] := .blank (by decide) .nil
  have hhead : ∀ d ∈ (run ++ [10]).head?, isIdentifierChar d = false := by
    intro d hd
    cases run with
    | nil => cases hc
    | cons e run =>
        cases hc
        cases hd
        exact blank_not_identifier hblank
  have hnewline : ∀ d ∈ [(10 : UInt8)].head?, isIdentifierChar d = false := by
    intro d hd
    cases hd
    decide
  have htokens : scanTokens (text ++ run ++ [10]) = scanTokens (text ++ [10]) := by
    rw [scanTokens, scanTokens, scanText_eq, scanText_eq, List.append_assoc,
      scan_behind (hrun.spacing.append hline) hline hhead hnewline]
  rw [parse_eq_ok_iff, htokens, List.getLast?_append_of_ne_nil _ hnil]
  constructor
  · exact fun h => h.2.1
  · exact fun h => ⟨by simp [hne], h, temp, hblocks⟩

end Ending

private theorem separator_blank {c : UInt8} (hc : isBlank c = true) : Separator [c] :=
  ⟨⟨c, rfl, hc⟩, .blank hc .nil⟩

private theorem endsInToken {text : Bytes} {t : Token} (ht : (scanText text).getLast? = some t)
    (hstop : tokenEnd t = text.length) : EndsInToken text := ⟨t, ht, hstop⟩

section Server

private def serverStart : Bytes := bytes "server\x7blisten 80;server_name a;"

private def serverStop : Bytes := bytes "return /x;\x7d"

private def redirectingConfig : Config where
  serverName := [bytes "a"]
  listen := [⟨bytes "0.0.0.0", 80⟩]
  common := { returnPath := bytes "/x" }

private theorem serverStart_ends : EndsInToken serverStart :=
  @endsInToken serverStart ⟨.semicolon, bytes ";", 1, 30⟩ (by decide +kernel) (by decide)

private theorem serverStop_begins : BeginsToken serverStop :=
  ⟨byteOf 'r', rfl, Or.inr (by decide)⟩

private theorem parse_blank :
    parse (serverStart ++ [byteOf ' '] ++ serverStop) = .ok [redirectingConfig] := by
  decide +kernel

private def pageStart : Bytes := bytes "server\x7blisten 80;server_name a;error_page 404"

private def pageStop : Bytes := bytes "/x;\x7d"

private def pageConfig : Config where
  serverName := [bytes "a"]
  listen := [⟨bytes "0.0.0.0", 80⟩]
  common := { errorPage := [(404, bytes "/x")] }

private theorem parse_page :
    parse (pageStart ++ [byteOf ' '] ++ pageStop) = .ok [pageConfig] := by
  decide +kernel

end Server

end FortyTwo.Webserv
