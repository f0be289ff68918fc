import FortyTwo.Minishell.LineRoundTrip
import Mathlib.Tactic

/-!
The array of the command words: `count_word`, which sizes it, against the tokenizer that
fills it. Both are counts of places in the text, and so is what lies between them.
-/

namespace FortyTwo.Minishell

/-- The quote that is open behind `c`. -/
def openBehind (insideQuote : Option Char) (c : Char) : Option Char :=
  if isQuote c then
    match insideQuote with
    | some quoteChar => if c = quoteChar then none else some quoteChar
    | none => some c
  else insideQuote

/-- A property of a place: the quote that is open there, the character before it and its own. -/
abbrev PlaceTest := Option Char → Option Char → Char → Bool

/-- The places of a text with a property, behind an open quote and a character. -/
def countPlaces (test : PlaceTest) : Option Char → Option Char → Str → Nat
  | _, _, [] => 0
  | insideQuote, before, c :: rest =>
      (test insideQuote before c).toNat +
        countPlaces test (openBehind insideQuote c) (some c) rest

/-- A token starts here. -/
def startsToken (delim : Str) : PlaceTest := fun insideQuote before c =>
  insideQuote.isNone && !decide (c ∈ delim) && before.all (· ∈ delim)

/-- A word of `count_word` starts here: quotes and other delimiters than blanks mean nothing
to it. -/
def startsWord : PlaceTest := fun _ before c => c != ' ' && before.all (· == ' ')

/-- A token that stands behind a tab or the like, and not behind a blank. -/
def startsGlued : PlaceTest := fun insideQuote before c =>
  startsToken whitespace insideQuote before c && before.any (· != ' ')

/-- Behind a blank, or at the start, and no token: inside quotes, or a tab or the like. -/
def startsSpare : PlaceTest := fun insideQuote before c =>
  startsWord insideQuote before c && (insideQuote.isSome || decide (c ∈ whitespace))

section Counts

theorem countPlaces_add {p q r s : PlaceTest}
    (h : ∀ insideQuote before c, (p insideQuote before c).toNat + (q insideQuote before c).toNat =
      (r insideQuote before c).toNat + (s insideQuote before c).toNat)
    (insideQuote before : Option Char) (text : Str) :
    countPlaces p insideQuote before text + countPlaces q insideQuote before text =
      countPlaces r insideQuote before text + countPlaces s insideQuote before text := by
  induction text generalizing insideQuote before with
  | nil => rfl
  | cons c rest ih =>
      have hhere := h insideQuote before c
      have hlater := ih (openBehind insideQuote c) (some c)
      simp only [countPlaces]
      omega

theorem countWord_eq (insideQuote before : Option Char) (text : Str) :
    countWord (before.any (· != ' ')) text = countPlaces startsWord insideQuote before text := by
  induction text generalizing insideQuote before with
  | nil => rfl
  | cons c rest ih =>
      have hlater := ih (openBehind insideQuote c) (some c)
      rw [countWord, countPlaces, ← hlater, startsWord]
      by_cases hblank : c = ' '
      · subst hblank
        simp
      · have hword : (c != ' ') = true := by simpa using hblank
        rw [if_neg hblank]
        cases before with
        | none => simp [hword, Nat.add_comm]
        | some b =>
            by_cases hb : b = ' '
            · simp [hb, hword, Nat.add_comm]
            · simp [hb, hword]

variable {delim : Str}

private theorem left_cons (delim : Str) (insideQuote : Option Char) (c : Char) (rest : Str) :
    (stringWithQuotes delim insideQuote (c :: rest)).2 =
      if isQuote c then (stringWithQuotes delim (openBehind insideQuote c) rest).2
      else if insideQuote = none ∧ c ∈ delim then c :: rest
      else (stringWithQuotes delim insideQuote rest).2 := by
  rw [stringWithQuotes.eq_def, openBehind.eq_def]
  dsimp only
  split_ifs <;> rfl

/-- In a token no other one starts. -/
theorem countPlaces_token (hquote : ∀ d ∈ delim, isQuote d = false)
    (insideQuote : Option Char) {b : Char} (hb : insideQuote = none → b ∉ delim) (text : Str) :
    countPlaces (startsToken delim) insideQuote (some b) text =
      countPlaces (startsToken delim) none none (stringWithQuotes delim insideQuote text).2 := by
  have hhere : ∀ {insideQuote : Option Char} {b : Char}, (insideQuote = none → b ∉ delim) →
      ∀ c, startsToken delim insideQuote (some b) c = false := by
    intro insideQuote b hb c
    cases insideQuote with
    | none => simp [startsToken, hb rfl]
    | some quoteChar => rfl
  induction text generalizing insideQuote b with
  | nil => rfl
  | cons c rest ih =>
      rw [countPlaces, hhere hb, Bool.toNat_false, Nat.zero_add, left_cons]
      by_cases hc : isQuote c = true
      · rw [if_pos hc]
        have hplain : c ∉ delim := fun hmem => by simp [hquote c hmem] at hc
        exact ih (openBehind insideQuote c) fun _ => hplain
      · rw [if_neg hc]
        have hopen : openBehind insideQuote c = insideQuote := if_neg hc
        rw [hopen]
        by_cases hstop : insideQuote = none ∧ c ∈ delim
        · obtain ⟨rfl, hdelim⟩ := hstop
          rw [if_pos ⟨rfl, hdelim⟩, countPlaces, hopen]
          have hnot : startsToken delim none none c = false := by simp [startsToken, hdelim]
          rw [hnot, Bool.toNat_false, Nat.zero_add]
        · rw [if_neg hstop]
          exact ih insideQuote fun hnone hmem => hstop ⟨hnone, hmem⟩

private theorem countPlaces_skip {before : Option Char} (hbefore : ∀ b ∈ before, b ∈ delim)
    (hquote : ∀ d ∈ delim, isQuote d = false) (text : Str) :
    countPlaces (startsToken delim) none before text =
      countPlaces (startsToken delim) none none (text.dropWhile (· ∈ delim)) := by
  induction text generalizing before with
  | nil => rfl
  | cons c rest ih =>
      by_cases hc : c ∈ delim
      · have hopen : openBehind none c = none := if_neg (by simp [hquote c hc])
        have hnot : startsToken delim none before c = false := by simp [startsToken, hc]
        rw [List.dropWhile_cons_of_pos (by simpa using hc), countPlaces, hnot, hopen,
          Bool.toNat_false, Nat.zero_add]
        apply ih
        rintro b ⟨⟩
        exact hc
      · have hall : before.all (· ∈ delim) = true := by
          cases before with
          | none => rfl
          | some b => simpa using hbefore b rfl
        have hsame : startsToken delim none before c = startsToken delim none none c := by
          simp [startsToken, hall]
        rw [List.dropWhile_cons_of_neg (by simpa using hc), countPlaces, countPlaces, hsame]

/-- What is left behind a token begins with a delimiter. -/
private theorem head_left (delim : Str) (insideQuote : Option Char) (text : Str) :
    ∀ d ∈ (stringWithQuotes delim insideQuote text).2.head?, d ∈ delim := by
  induction text generalizing insideQuote with
  | nil => nofun
  | cons c rest ih =>
      rw [left_cons]
      split_ifs with hc hstop
      · exact ih _
      · rintro d ⟨⟩
        exact hstop.2
      · exact ih _

private theorem countPlaces_start (hquote : ∀ d ∈ delim, isQuote d = false) {c : Char}
    (hc : c ∉ delim) (rest : Str) :
    countPlaces (startsToken delim) none none (c :: rest) =
      countPlaces (startsToken delim) none none (stringWithQuotes delim none (c :: rest)).2 + 1 := by
  have hleft : (stringWithQuotes delim none (c :: rest)).2 =
      (stringWithQuotes delim (openBehind none c) rest).2 := by
    rw [left_cons]
    split_ifs with hquoted hstop
    · rfl
    · exact absurd hstop.2 hc
    · rw [openBehind, if_neg hquoted]
  rw [hleft, countPlaces, countPlaces_token hquote _ (fun _ => hc)]
  simp [startsToken, hc, Nat.add_comm]

/-- The tokens are counted by the places where one starts. -/
theorem length_strtokAll (hquote : ∀ d ∈ delim, isQuote d = false) (str : Str) :
    (strtokAll delim (some str)).length = countPlaces (startsToken delim) none none str := by
  generalize hn : str.length = n
  induction n using Nat.strong_induction_on generalizing str with
  | _ n ih =>
      have hskip : ∀ text : Str, countPlaces (startsToken delim) none none text =
          countPlaces (startsToken delim) none none (text.dropWhile (· ∈ delim)) :=
        countPlaces_skip nofun hquote
      rw [hskip, strtokAll]
      cases hrest : str.dropWhile (· ∈ delim) with
      | nil =>
          have htoken : ftStrtok str delim = none := by rw [ftStrtok, hrest, if_pos rfl]
          rw [htoken]
          rfl
      | cons c later =>
          have hc : c ∉ delim := by
            have hhead := List.head?_dropWhile_not (· ∈ delim) str
            rw [hrest] at hhead
            simpa using hhead
          rw [countPlaces_start hquote hc]
          have hlefthead := head_left delim none (c :: later)
          cases hcut : stringWithQuotes delim none (c :: later) with
          | mk text left =>
              rw [hcut] at hlefthead
              cases left with
              | nil =>
                  have htoken : ftStrtok str delim = some (text, none) := by
                    rw [ftStrtok, hrest, if_neg (List.cons_ne_nil _ _), hcut]
                  rw [htoken]
                  rfl
              | cons d last =>
                  have htoken : ftStrtok str delim = some (text, some last) := by
                    rw [ftStrtok, hrest, if_neg (List.cons_ne_nil _ _), hcut]
                  have hshorter := ftStrtok_shorter htoken
                  have hd : d ∈ delim := hlefthead d rfl
                  rw [htoken]
                  dsimp only
                  rw [List.length_cons, ih last.length (hn ▸ hshorter) last rfl, hskip (d :: last),
                    List.dropWhile_cons_of_pos (by simpa using hd), ← hskip]

end Counts

section Array

variable (text : Str)

/-- The command words and the `NULL` behind them fit into the array. -/
def FitsArray : Prop :=
  (commandWords false (strtokCopyAll text whitespace)).length + 1 ≤ countWord false text + 1

/-- The words that stand directly behind a tab, a carriage return or a vertical tab. -/
def gluedWords : Nat := countPlaces startsGlued none none text

/-- The places behind a blank, or at the start, where `count_word` finds a word and the
tokenizer does not. -/
def spareWords : Nat := countPlaces startsSpare none none text

/-- The redirection operators and the file names behind them. -/
def redirectionWords : Nat :=
  (strtokCopyAll text whitespace).countP isRedirectionOperator +
    (redirectionList none (strtokCopyAll text whitespace)).length

/-- A token starts where a word does, apart from the glued ones and the spare ones. -/
private theorem places_balance (insideQuote before : Option Char) (c : Char) :
    (startsToken whitespace insideQuote before c).toNat +
        (startsSpare insideQuote before c).toNat =
      (startsWord insideQuote before c).toNat + (startsGlued insideQuote before c).toNat := by
  have hblank : c = ' ' → c ∈ whitespace := by
    rintro rfl
    decide
  have hany : before.any (· != ' ') = !before.all (· == ' ') := by
    cases before <;> rfl
  have hall : before.all (· == ' ') = true → before.all (· ∈ whitespace) = true := by
    cases before with
    | none => exact id
    | some b =>
        intro hb
        obtain rfl : b = ' ' := by simpa using hb
        decide
  have hopen : insideQuote.isSome = !insideQuote.isNone := by
    cases insideQuote <;> rfl
  simp only [startsSpare, startsGlued, startsToken, startsWord, hany, hopen]
  generalize before.all (· == ' ') = blankBefore at hall ⊢
  generalize before.all (· ∈ whitespace) = delimBefore at hall ⊢
  generalize insideQuote.isNone = outside
  by_cases hc : c ∈ whitespace
  · simp only [hc, decide_true, Bool.not_true, Bool.and_false, Bool.false_and, Bool.or_true,
      Bool.and_true]
    omega
  · have hne : (c != ' ') = true := by simpa using mt hblank hc
    simp only [hc, hne, decide_false, Bool.not_false, Bool.and_true, Bool.true_and,
      Bool.or_false]
    revert hall
    revert blankBefore delimBefore outside
    decide

theorem length_strtokCopyAll_add :
    (strtokCopyAll text whitespace).length + spareWords text =
      countWord false text + gluedWords text := by
  have hquote : ∀ d ∈ whitespace, isQuote d = false := by simp [whitespace, isQuote]
  have hwords := countWord_eq none none text
  rw [strtokCopyAll, List.length_map, length_strtokAll hquote]
  rw [Option.any_none] at hwords
  rw [hwords]
  exact countPlaces_add places_balance none none text

/-- The words fit exactly if those that `count_word` does not see are made up for by the
redirections and by what it counts although it is no word. -/
theorem fitsArray_iff :
    FitsArray text ↔ gluedWords text ≤ spareWords text + redirectionWords text := by
  have hplaces := length_strtokCopyAll_add text
  have hwords := length_commandWords_add none (strtokCopyAll text whitespace)
  have hcount : (strtokCopyAll text whitespace).length =
      (strtokCopyAll text whitespace).countP isRedirectionOperator +
        (strtokCopyAll text whitespace).countP fun word => !isRedirectionOperator word := by
    rw [List.length_eq_countP_add_countP isRedirectionOperator]
    simp only [Bool.not_eq_true, Bool.decide_eq_false]
  rw [Option.isSome_none] at hwords
  rw [FitsArray, redirectionWords]
  omega

end Array

/-- A tab between two words. -/
theorem not_fitsArray : ¬∀ text, FitsArray text := by
  intro h
  have hword : ∀ c : Char, isQuote c = false → c ∉ whitespace →
      strtokAll whitespace (some [c]) = [[c]] ∧ ∀ d ∈ whitespace, isQuote d = false → ∀ rest,
        strtokAll whitespace (some (c :: d :: rest)) =
          [c] :: strtokAll whitespace (some rest) := by
    intro c hquote hplain
    exact strtokAll_token (passes_char hquote hplain) ⟨c, rfl, hplain⟩
  have hwords : strtokCopyAll ['a', '\t', 'b'] whitespace = [['a'], ['b']] := by
    rw [strtokCopyAll, (hword 'a' rfl (by decide)).2 '\t' (by decide) rfl,
      (hword 'b' rfl (by decide)).1]
    rfl
  have htab := h ['a', '\t', 'b']
  rw [FitsArray, hwords] at htab
  exact absurd htab (by decide)

end FortyTwo.Minishell
