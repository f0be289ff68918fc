import FortyTwo.Minishell.CommandArray
import Mathlib.Data.List.TakeWhile

/-!
What `redirection_with_no_space` does to a whole line: its length, its characters other than
spaces, the runs of `<` and `>`, and a second pass. The loop takes every quote character for
the end or the start of a quotation, and so loses sight of a quote of the one kind inside
quotes of the other.
-/

namespace FortyTwo.Minishell

/-- A maximal run of redirection symbols outside quotes. -/
structure UnquotedRun (text before run after : Str) : Prop where
  text_eq : text = before ++ (run ++ after)
  nonempty : run ≠ []
  symbols : ∀ c ∈ run, isRedirectionSymbol c = true
  first : ∀ c ∈ before.getLast?, isRedirectionSymbol c = false
  last : ∀ c ∈ after.head?, isRedirectionSymbol c = false
  unquoted : before.foldl openBehind none = none

/-- A space, or nothing at all, stands on either side. -/
def Separated (before after : Str) : Prop :=
  (∀ c ∈ before.getLast?, c = ' ') ∧ ∀ c ∈ after.head?, c = ' '

/-- The size that is given to `malloc`, as long as an `int` holds it. -/
def allocated (message : Str) : Option Nat :=
  if message.length * 2 + 1 < 2 ^ 31 then some (message.length * 2 + 1) else none

structure SpacesRight (message : Str) : Prop where
  /-- The characters and the NUL fit what is allocated. -/
  bounded : ∃ size, allocated message = some size ∧
    (redirectionWithNoSpace message).length + 1 ≤ size
  same : (redirectionWithNoSpace message).filter (· != ' ') = message.filter (· != ' ')
  separated : ∀ before run after,
    UnquotedRun (redirectionWithNoSpace message) before run after → Separated before after
  idempotent :
    redirectionWithNoSpace (redirectionWithNoSpace message) = redirectionWithNoSpace message

section Places

/-- Which symbols count, by the open quote and by what the loop takes for one. -/
abbrev SymbolTest := Option Char → Bool → Bool

/-- No symbol that counts has a neighbour that a space is set against. -/
def EachApart (counts : SymbolTest) :
    Option Char → Bool → Option Char → Str → Prop
  | _, _, _, [] => True
  | insideQuote, inQuotes, before, c :: rest =>
      (isRedirectionSymbol c = true → counts insideQuote inQuotes = true →
        needsSpace before = false ∧ needsSpace rest.head? = false) ∧
      EachApart counts (openBehind insideQuote c) (quotesBehind inQuotes c) (some c) rest

variable {counts : SymbolTest} {insideQuote : Option Char} {inQuotes : Bool}
  {before before' : Option Char}

private theorem behind_plain {c : Char} (h : isQuote c = false) (insideQuote : Option Char)
    (inQuotes : Bool) : openBehind insideQuote c = insideQuote ∧ quotesBehind inQuotes c = inQuotes :=
  ⟨if_neg (by simp [h]), if_neg (by simp [h])⟩

private theorem isQuote_of_symbol {c : Char} (h : isRedirectionSymbol c = true) :
    isQuote c = false := by
  rw [isRedirectionSymbol, Bool.or_eq_true, beq_iff_eq, beq_iff_eq] at h
  rcases h with rfl | rfl
  · rfl
  · rfl

private theorem needsSpace_symbol {c : Char} (h : isRedirectionSymbol c = true) :
    needsSpace (some c) = false := by
  simp [needsSpace, h]

private theorem eachApart_before (h : needsSpace before' = needsSpace before) (text : Str) :
    EachApart counts insideQuote inQuotes before' text ↔
      EachApart counts insideQuote inQuotes before text := by
  cases text with
  | nil => exact Iff.rfl
  | cons c rest => rw [EachApart, EachApart, h]

private theorem eachApart_space (text : Str) :
    EachApart counts insideQuote inQuotes before (' ' :: text) ↔
      EachApart counts insideQuote inQuotes (some ' ') text := by
  obtain ⟨hopen, hquotes⟩ := behind_plain (c := ' ') rfl insideQuote inQuotes
  rw [EachApart, hopen, hquotes]
  apply and_iff_right
  nofun

private theorem needsSpace_head_spacedFrom (inQuotes : Bool) (before : Option Char) (text : Str) :
    needsSpace (spacedFrom inQuotes before text).head? = needsSpace text.head? := by
  cases text with
  | nil => rfl
  | cons c rest =>
      rw [spacedFrom]
      split
      · next hsymbol =>
          rw [Bool.and_eq_true] at hsymbol
          have hnone := needsSpace_symbol hsymbol.2
          rw [insertSpace]
          split
          · rw [List.head?_cons, hnone]
            rfl
          · rfl
      · rfl

/-- A symbol with nothing beside it that needs a space. -/
private theorem eachApart_symbol {c : Char} (hsymbol : isRedirectionSymbol c = true) {text : Str}
    (hbefore : needsSpace before = false) (hafter : needsSpace text.head? = false) :
    EachApart counts insideQuote inQuotes before (c :: text) ↔
      EachApart counts insideQuote inQuotes (some c) text := by
  obtain ⟨hopen, hquotes⟩ := behind_plain (isQuote_of_symbol hsymbol) insideQuote inQuotes
  rw [EachApart, hopen, hquotes]
  exact and_iff_right fun _ _ => ⟨hbefore, hafter⟩

private theorem eachApart_insertSpace {c : Char} (hsymbol : isRedirectionSymbol c = true)
    {text : Str} {after : Option Char} (hbefore : needsSpace before' = needsSpace before)
    (hafter : needsSpace text.head? = needsSpace after) :
    EachApart counts insideQuote inQuotes before' (insertSpace before c after ++ text) ↔
      EachApart counts insideQuote inQuotes (some c) text := by
  have hbehind : EachApart counts insideQuote inQuotes (some c)
      ((if needsSpace after then [' '] else []) ++ text) ↔
        EachApart counts insideQuote inQuotes (some c) text := by
    split
    · have hsame : needsSpace (some ' ') = needsSpace (some c) := (needsSpace_symbol hsymbol).symm
      rw [List.singleton_append, eachApart_space]
      exact eachApart_before hsame text
    · rfl
  have hnext : needsSpace ((if needsSpace after then [' '] else []) ++ text).head? = false := by
    split
    · rfl
    · next hno => simpa [hafter] using hno
  rw [insertSpace, List.append_assoc, List.cons_append, ← hbehind]
  split
  · rw [List.singleton_append, eachApart_space]
    exact eachApart_symbol hsymbol rfl hnext
  · next hno =>
      apply eachApart_symbol hsymbol ?_ hnext
      rw [hbefore]
      simpa using hno

/-- After the loop the symbols that it takes for unquoted are apart; for the others
nothing has changed. -/
theorem eachApart_spacedFrom (h : needsSpace before' = needsSpace before) (text : Str) :
    EachApart counts insideQuote inQuotes before' (spacedFrom inQuotes before text) ↔
      EachApart (fun insideQuote inQuotes => counts insideQuote inQuotes && inQuotes)
        insideQuote inQuotes before text := by
  induction text generalizing insideQuote inQuotes before before' with
  | nil => exact Iff.rfl
  | cons c rest ih =>
      have hhead := needsSpace_head_spacedFrom (quotesBehind inQuotes c) (some c) rest
      rw [spacedFrom]
      split
      · next hboth =>
          obtain ⟨hquotes, hsymbol⟩ := (Bool.and_eq_true _ _).mp hboth
          obtain ⟨hopen, hsame⟩ := behind_plain (isQuote_of_symbol hsymbol) insideQuote inQuotes
          rw [hsame] at hquotes hhead
          rw [EachApart, hopen, hsame, ← ih rfl, and_iff_right]
          · exact eachApart_insertSpace hsymbol h hhead
          · intro _ hcounts
            simp only [Bool.and_eq_true] at hcounts
            rw [hcounts.2] at hquotes
            cases hquotes
      · next hnot =>
          rw [List.singleton_append, EachApart, EachApart, hhead, h, ih rfl]
          apply and_congr_left
          intro _
          apply forall_congr'
          intro hsymbol
          have hsame := (behind_plain (isQuote_of_symbol hsymbol) insideQuote inQuotes).2
          have hquotes : inQuotes = true := by simpa [hsame, hsymbol] using hnot
          rw [hquotes, Bool.and_true]

private theorem getLast?_cons_or (d : Char) (passed : Str) (before : Option Char) :
    (d :: passed).getLast?.or before = passed.getLast?.or (some d) := by
  rw [List.getLast?_cons]
  cases passed.getLast? with
  | none => rfl
  | some last => rfl

theorem eachApart_iff (counts : SymbolTest) (insideQuote : Option Char) (inQuotes : Bool)
    (before : Option Char) (text : Str) :
    EachApart counts insideQuote inQuotes before text ↔
      ∀ passed c after, text = passed ++ c :: after → isRedirectionSymbol c = true →
        counts (passed.foldl openBehind insideQuote) (passed.foldl quotesBehind inQuotes) = true →
        needsSpace (passed.getLast?.or before) = false ∧ needsSpace after.head? = false := by
  induction text generalizing insideQuote inQuotes before with
  | nil =>
      apply iff_of_true trivial
      intro passed c after htext
      cases passed <;> cases htext
  | cons d rest ih =>
      rw [EachApart, ih]
      constructor
      · rintro ⟨hhere, hlater⟩ passed c after htext hsymbol hcounts
        cases passed with
        | nil =>
            obtain ⟨rfl, rfl⟩ := List.cons.inj htext
            exact hhere hsymbol hcounts
        | cons d' passed =>
            obtain ⟨rfl, rfl⟩ := List.cons.inj htext
            have hplace := hlater passed c after rfl hsymbol hcounts
            rwa [getLast?_cons_or]
      · intro hall
        constructor
        · exact hall [] d rest rfl
        · rintro passed c after rfl hsymbol hcounts
          have hplace := hall (d :: passed) c after rfl hsymbol hcounts
          rwa [getLast?_cons_or] at hplace

end Places

section Runs

private theorem foldl_symbols {run : Str} (h : ∀ c ∈ run, isRedirectionSymbol c = true)
    (insideQuote : Option Char) (inQuotes : Bool) :
    run.foldl openBehind insideQuote = insideQuote ∧
      run.foldl quotesBehind inQuotes = inQuotes := by
  induction run with
  | nil => exact ⟨rfl, rfl⟩
  | cons c run ih =>
      obtain ⟨hc, hrun⟩ := List.forall_mem_cons.mp h
      obtain ⟨hopen, hquotes⟩ := behind_plain (isQuote_of_symbol hc) insideQuote inQuotes
      rw [List.foldl_cons, List.foldl_cons, hopen, hquotes]
      exact ih hrun

private theorem needsSpace_eq_false {neighbour : Option Char}
    (hplain : ∀ c ∈ neighbour, isRedirectionSymbol c = false) :
    needsSpace neighbour = false ↔ ∀ c ∈ neighbour, c = ' ' := by
  cases neighbour with
  | none => simp [needsSpace]
  | some c =>
      have hc := hplain c rfl
      simp [needsSpace, hc]

private theorem needsSpace_append (run : Str) (hrun : ∀ c ∈ run, isRedirectionSymbol c = true)
    {after : Str} (hafter : ∀ c ∈ after.head?, c = ' ') :
    needsSpace (run ++ after).head? = false := by
  cases run with
  | nil =>
      cases hhead : after.head? with
      | none => simp [hhead, needsSpace]
      | some c => simp [hhead, needsSpace, hafter c hhead]
  | cons d run => exact needsSpace_symbol (hrun d List.mem_cons_self)

private theorem exists_run_before (text : Str) : ∃ run rest, text = run ++ rest ∧
    (∀ c ∈ run, isRedirectionSymbol c = true) ∧
      ∀ c ∈ rest.head?, isRedirectionSymbol c = false := by
  refine ⟨text.takeWhile isRedirectionSymbol, text.dropWhile isRedirectionSymbol,
    (List.takeWhile_append_dropWhile).symm, fun c hc => List.mem_takeWhile_imp hc, ?_⟩
  intro c hc
  have hhead := List.head?_dropWhile_not isRedirectionSymbol text
  rw [Option.mem_def] at hc
  rw [hc] at hhead
  simpa using hhead

private theorem exists_run_behind (text : Str) : ∃ rest run, text = rest ++ run ∧
    (∀ c ∈ run, isRedirectionSymbol c = true) ∧
      ∀ c ∈ rest.getLast?, isRedirectionSymbol c = false := by
  obtain ⟨run, rest, hsplit, hrun, hrest⟩ := exists_run_before text.reverse
  refine ⟨rest.reverse, run.reverse, ?_, by simpa using hrun, by simpa using hrest⟩
  rw [← List.reverse_append, ← hsplit, List.reverse_reverse]

/-- Symbols that are apart one by one make runs that are separated. -/
theorem eachApart_iff_runs (missed : Bool → Bool) (text : Str) :
    EachApart (fun insideQuote inQuotes => insideQuote.isNone && missed inQuotes) none false none
        text ↔
      ∀ before run after, UnquotedRun text before run after →
        missed (before.foldl quotesBehind false) = true → Separated before after := by
  rw [eachApart_iff]
  constructor
  · rintro hplaces before run after ⟨rfl, hne, hsymbols, hfirst, hlast, hunquoted⟩ hmissed
    have hcounts : ∀ symbols : Str, (∀ c ∈ symbols, isRedirectionSymbol c = true) →
        (((before ++ symbols).foldl openBehind none).isNone &&
          missed ((before ++ symbols).foldl quotesBehind false)) = true := by
      intro symbols hrun
      obtain ⟨hopen, hquotes⟩ := foldl_symbols hrun none (before.foldl quotesBehind false)
      rw [List.foldl_append, List.foldl_append, hunquoted, hopen, hquotes, hmissed]
      rfl
    constructor
    · obtain ⟨c, later, rfl⟩ := List.exists_cons_of_ne_nil hne
      have hbefore := hcounts [] nofun
      rw [List.append_nil] at hbefore
      have hplace := hplaces before c (later ++ after) rfl (hsymbols c List.mem_cons_self) hbefore
      rw [Option.or_none] at hplace
      exact (needsSpace_eq_false hfirst).mp hplace.1
    · obtain ⟨symbols, c, rfl⟩ := (List.eq_nil_or_concat' run).resolve_left hne
      obtain ⟨hrun, hc⟩ := List.forall_mem_append.mp hsymbols
      have hplace := hplaces (before ++ symbols) c after (by simp) (hc c List.mem_cons_self)
        (hcounts symbols hrun)
      exact (needsSpace_eq_false hlast).mp hplace.2
  · rintro hruns passed c after rfl hsymbol hcounts
    obtain ⟨hopen, hmissed⟩ := (Bool.and_eq_true _ _).mp hcounts
    obtain ⟨before, first, rfl, hfirst, hbefore⟩ := exists_run_behind passed
    obtain ⟨last, later, rfl, hlast, hlater⟩ := exists_run_before after
    obtain ⟨hsame, hsame'⟩ := foldl_symbols hfirst (before.foldl openBehind none)
      (before.foldl quotesBehind false)
    rw [List.foldl_append, hsame] at hopen
    rw [List.foldl_append, hsame'] at hmissed
    have hrun : UnquotedRun (before ++ first ++ c :: (last ++ later)) before
        (first ++ c :: last) later := by
      refine ⟨by simp, by simp, ?_, hbefore, hlater, by simpa using hopen⟩
      intro d hd
      rcases List.mem_append.mp hd with hd | hd
      · exact hfirst d hd
      · rcases List.mem_cons.mp hd with rfl | hd
        · exact hsymbol
        · exact hlast d hd
    obtain ⟨hleft, hright⟩ := hruns before (first ++ c :: last) later hrun hmissed
    rw [Option.or_none]
    constructor
    · have hreversed := @needsSpace_append first.reverse (by simpa using hfirst) before.reverse
        (by rwa [List.head?_reverse])
      rwa [← List.reverse_append, List.head?_reverse] at hreversed
    · exact needsSpace_append last hlast hright

end Runs

section Output

/-- A space in front of a symbol is counted with the symbol, one behind it with the character
that follows. -/
private theorem length_spacedFrom_le (inQuotes : Bool) (before : Option Char) (text : Str) :
    (spacedFrom inQuotes before text).length + (needsSpace text.head?).toNat ≤ text.length * 2 := by
  induction text generalizing inQuotes before with
  | nil => exact Nat.le_refl 0
  | cons c rest ih =>
      have hrest := ih (quotesBehind inQuotes c) (some c)
      have hhere := Bool.toNat_le (needsSpace (some c))
      rw [spacedFrom, List.length_append, List.length_cons, List.head?_cons]
      split
      · next hboth =>
          rw [Bool.and_eq_true] at hboth
          have hspaces : (insertSpace before c rest.head?).length ≤
              2 + (needsSpace rest.head?).toNat := by
            rw [insertSpace, List.length_append, List.length_cons]
            cases needsSpace before <;> cases needsSpace rest.head? <;> simp
          rw [needsSpace_symbol hboth.2, Bool.toNat_false]
          omega
      · rw [List.length_singleton]
        omega

private theorem filter_spacedFrom (inQuotes : Bool) (before : Option Char) (text : Str) :
    (spacedFrom inQuotes before text).filter (· != ' ') = text.filter (· != ' ') := by
  induction text generalizing inQuotes before with
  | nil => rfl
  | cons c rest ih =>
      have hspace : ∀ neighbour : Option Char,
          (if needsSpace neighbour then [' '] else []).filter (· != ' ') = [] := by
        intro neighbour
        split
        · rfl
        · rfl
      have hadded : (if !quotesBehind inQuotes c && isRedirectionSymbol c then
          insertSpace before c rest.head? else [c]).filter (· != ' ') = [c].filter (· != ' ') := by
        split
        · rw [insertSpace, List.filter_append, hspace, List.nil_append, List.filter_cons,
            hspace, List.filter_cons, List.filter_nil]
        · rfl
      rw [spacedFrom, List.filter_append, hadded, ih, ← List.filter_append, List.singleton_append]

private theorem spaced_iff_eachApart (insideQuote : Option Char) (inQuotes : Bool)
    (before : Option Char) (text : Str) :
    Spaced inQuotes before text ↔
      EachApart (fun _ inQuotes => !inQuotes) insideQuote inQuotes before text := by
  induction text generalizing insideQuote inQuotes before with
  | nil => exact Iff.rfl
  | cons c rest ih =>
      rw [Spaced, EachApart, ← ih]
      apply and_congr_left
      intro _
      cases hsymbol : isRedirectionSymbol c with
      | false => simp
      | true =>
          have hsame := (behind_plain (isQuote_of_symbol hsymbol) insideQuote inQuotes).2
          rw [hsame, Bool.and_true]
          exact ⟨fun h _ => h, fun h => h rfl⟩

/-- A second pass finds every symbol apart. -/
theorem redirectionWithNoSpace_idempotent (message : Str) :
    redirectionWithNoSpace (redirectionWithNoSpace message) = redirectionWithNoSpace message := by
  rw [redirectionWithNoSpace, spacedFrom_eq_self_iff, spaced_iff_eachApart none,
    redirectionWithNoSpace, eachApart_spacedFrom rfl, eachApart_iff]
  rintro passed c after - - hboth
  simp at hboth

theorem foldl_quotesBehind (text : Str) (inQuotes : Bool) :
    text.foldl quotesBehind inQuotes = true ↔
      (text.countP isQuote + inQuotes.toNat) % 2 = 1 := by
  induction text generalizing inQuotes with
  | nil => cases inQuotes <;> simp
  | cons c rest ih =>
      rw [List.foldl_cons, ih, List.countP_cons, quotesBehind]
      cases isQuote c with
      | false => simp
      | true =>
          cases inQuotes with
          | false => simp
          | true =>
              simp
              omega

end Output

private theorem bounded_iff (message : Str) :
    (∃ size, allocated message = some size ∧ (redirectionWithNoSpace message).length + 1 ≤ size) ↔
      message.length < 2 ^ 30 := by
  have hlength := length_spacedFrom_le false none message
  constructor
  · rintro ⟨size, hsize, -⟩
    rw [allocated] at hsize
    split at hsize
    · omega
    · cases hsize
  · intro hshort
    refine ⟨message.length * 2 + 1, if_pos (by omega), ?_⟩
    rw [redirectionWithNoSpace]
    omega

/-- The line is spaced right if and only if an `int` holds the size, and the unquoted runs
with an odd number of quotes in front of them are separated already. -/
theorem spacesRight_iff (message : Str) :
    SpacesRight message ↔ message.length < 2 ^ 30 ∧
      ∀ before run after, UnquotedRun message before run after →
        before.countP isQuote % 2 = 1 → Separated before after := by
  have hruns : (∀ before run after, UnquotedRun (redirectionWithNoSpace message) before run after →
      Separated before after) ↔ ∀ before run after, UnquotedRun message before run after →
        before.countP isQuote % 2 = 1 → Separated before after := by
    have hout := eachApart_iff_runs (fun _ => true) (redirectionWithNoSpace message)
    have hin := eachApart_iff_runs id message
    rw [redirectionWithNoSpace, eachApart_spacedFrom rfl] at hout
    simp only [Bool.and_true, forall_const] at hout
    simp only [id_eq, foldl_quotesBehind, Bool.toNat_false, Nat.add_zero] at hin
    rw [← hin]
    exact hout.symm
  rw [← hruns, ← bounded_iff]
  constructor
  · exact fun h => ⟨h.bounded, h.separated⟩
  · rintro ⟨hbounded, hseparated⟩
    exact ⟨hbounded, filter_spacedFrom false none message, hseparated,
      redirectionWithNoSpace_idempotent message⟩

/-- Behind a single quote in double quotes the loop takes `>` for quoted. -/
theorem not_spacesRight : ¬∀ message, SpacesRight message := by
  intro h
  have hrun : UnquotedRun (redirectionWithNoSpace ['"', '\'', '"', '>', 'a']) ['"', '\'', '"']
      ['>'] ['a'] := by
    refine ⟨by decide, by decide, by simp [isRedirectionSymbol], ?_, ?_, by decide⟩
    · rintro c ⟨⟩
      rfl
    · rintro c ⟨⟩
      rfl
  have hspace := (h ['"', '\'', '"', '>', 'a']).separated _ _ _ hrun
  have ha := hspace.2 'a' rfl
  revert ha
  decide

end FortyTwo.Minishell
