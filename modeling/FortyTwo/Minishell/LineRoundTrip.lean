import Mathlib.Data.List.Forall2
import FortyTwo.Minishell.LineTokens

/-!
Rendering a command line in single quotes and parsing it. The spacing pass toggles
its quote state at every quote, also at a double quote inside single quotes, and
the parser looks for operators in words that have lost their quotes: the line
comes back exactly when neither happens to matter.
-/

namespace FortyTwo.Minishell

/-- Outside its quotes the spacing pass sees no redirection symbol next to anything
but spaces and symbols. -/
def Spaced (inQuotes : Bool) (before : Option Char) : Str → Prop
  | [] => True
  | c :: rest =>
      ((!quotesBehind inQuotes c && isRedirectionSymbol c) = true →
          needsSpace before = false ∧ needsSpace rest.head? = false) ∧
        Spaced (quotesBehind inQuotes c) (some c) rest

/-- No word and no file name is the text of an operator. -/
def NoOperatorText (stage : Stage) : Prop :=
  ∀ item ∈ stage, isRedirectionOperator item.text = false

/-- The same kind of item, with a text that can be quoted too. -/
inductive SameShape : Item → Item → Prop
  | word {text text' : Str} (h : IsQuotable text') : SameShape (.word text) (.word text')
  | redirect (operator : Operator) {fileName fileName' : Str} (h : IsQuotable fileName') :
      SameShape (.redirect operator fileName) (.redirect operator fileName')

section Spacing

theorem length_le_spacedFrom (inQuotes : Bool) (before : Option Char) (text : Str) :
    text.length ≤ (spacedFrom inQuotes before text).length := by
  induction text generalizing inQuotes before with
  | nil => exact Nat.zero_le _
  | cons c rest ih =>
      rw [spacedFrom, List.length_append, List.length_cons]
      have hrest := ih (quotesBehind inQuotes c) (some c)
      split
      · simp only [insertSpace, List.length_append, List.length_cons]
        omega
      · rw [List.length_singleton]
        omega

theorem spacedFrom_eq_self_iff (inQuotes : Bool) (before : Option Char) (text : Str) :
    spacedFrom inQuotes before text = text ↔ Spaced inQuotes before text := by
  induction text generalizing inQuotes before with
  | nil => exact iff_of_true rfl trivial
  | cons c rest ih =>
      have hrest := length_le_spacedFrom (quotesBehind inQuotes c) (some c) rest
      rw [Spaced, spacedFrom, ← ih]
      split
      · next hsymbol =>
          rw [forall_prop_of_true hsymbol]
          constructor
          · intro heq
            have hlength := congrArg List.length heq
            simp only [insertSpace, List.length_append, List.length_cons] at hlength
            cases hbefore : needsSpace before with
            | true =>
                rw [hbefore, if_pos rfl, List.length_singleton] at hlength
                omega
            | false =>
                cases hafter : needsSpace rest.head? with
                | true =>
                    rw [hafter, if_pos rfl, List.length_singleton] at hlength
                    omega
                | false =>
                    rw [insertSpace, hbefore, hafter] at heq
                    exact ⟨⟨rfl, rfl⟩, List.cons_inj_right c |>.mp heq⟩
          · rintro ⟨⟨hbefore, hafter⟩, heq⟩
            rw [insertSpace, hbefore, hafter, heq]
            rfl
      · next hplain =>
          rw [List.singleton_append, List.cons_inj_right]
          exact (and_iff_right fun hsymbol => absurd hsymbol hplain).symm

private theorem quote_is_no_symbol (inQuotes : Bool) :
    (!inQuotes && isRedirectionSymbol '\'') = false := by
  cases inQuotes <;> rfl

/-- The rest of a word in single quotes, up to its closing quote. -/
private theorem spacedFrom_inside (text rest : Str) (hquote : '\'' ∉ text) :
    ∀ inQuotes before, ∃ text' inQuotes', '\'' ∉ text' ∧ text.length ≤ text'.length ∧
      spacedFrom inQuotes before (text ++ '\'' :: rest) =
        text' ++ '\'' :: spacedFrom inQuotes' (some '\'') rest := by
  induction text with
  | nil =>
      intro inQuotes before
      refine ⟨[], quotesBehind inQuotes '\'', List.not_mem_nil, Nat.le_refl 0, ?_⟩
      rw [List.nil_append, spacedFrom, quote_is_no_symbol]
      rfl
  | cons c text ih =>
      intro inQuotes before
      obtain ⟨hc, hquote⟩ := not_or.mp (fun h => hquote (List.mem_cons.mpr h))
      obtain ⟨text', inQuotes', hquote', hlength, heq⟩ :=
        ih hquote (quotesBehind inQuotes c) (some c)
      rw [List.cons_append, spacedFrom, heq]
      split
      · refine ⟨insertSpace before c (text ++ '\'' :: rest).head? ++ text', inQuotes', ?_, ?_,
          (List.append_assoc _ _ _).symm⟩
        · simp only [insertSpace, List.mem_append, List.mem_cons, not_or]
          refine ⟨⟨?_, hc, ?_⟩, hquote'⟩
          · split <;> simp
          · split <;> simp
        · simp only [insertSpace, List.length_append, List.length_cons]
          omega
      · refine ⟨c :: text', inQuotes', ?_, ?_, rfl⟩
        · exact fun h => (List.mem_cons.mp h).elim hc hquote'
        · exact Nat.succ_le_succ hlength

theorem spacedFrom_singleQuoted {text : Str} (h : IsQuotable text) (inQuotes : Bool)
    (before : Option Char) (rest : Str) :
    ∃ text' inQuotes', IsQuotable text' ∧
      spacedFrom inQuotes before (singleQuoted text ++ rest) =
        singleQuoted text' ++ spacedFrom inQuotes' (some '\'') rest := by
  obtain ⟨text', inQuotes', hquote, hlength, heq⟩ :=
    spacedFrom_inside text rest h.2 (quotesBehind inQuotes '\'') (some '\'')
  have hne : text' ≠ [] := by
    have hpos := List.length_pos_iff.mpr h.1
    exact List.length_pos_iff.mp (by omega)
  refine ⟨text', inQuotes', ⟨hne, hquote⟩, ?_⟩
  rw [singleQuoted, List.append_assoc, List.cons_append, spacedFrom, quote_is_no_symbol,
    List.singleton_append, heq]
  simp [singleQuoted]

/-- An operator stands between spaces, and a space is not a symbol. -/
private theorem spacedFrom_operator (operator : Operator) (inQuotes : Bool) {before : Option Char}
    (hbefore : needsSpace before = false) (rest : Str) :
    spacedFrom inQuotes before (operator.text ++ ' ' :: rest) =
      operator.text ++ ' ' :: spacedFrom inQuotes (some ' ') rest := by
  have hspace : needsSpace (some ' ') = false := rfl
  have hsymbol : needsSpace (some '>') = false := rfl
  cases operator <;> cases inQuotes <;>
    simp [Operator.text, spacedFrom, quotesBehind, isQuote, isRedirectionSymbol, insertSpace, hbefore,
      hspace, hsymbol]

def Item.render (item : Item) : Str := [' '].intercalate item.chunks

theorem Item.render_word (text : Str) : (Item.word text).render = singleQuoted text :=
  List.intercalate_singleton

theorem Item.render_redirect (operator : Operator) (fileName : Str) :
    (Item.redirect operator fileName).render = operator.text ++ ' ' :: singleQuoted fileName := by
  rw [Item.render, Item.chunks, List.intercalate_cons_cons, List.intercalate_singleton]
  simp

theorem Stage.render_cons (item : Item) {stage : Stage} (hne : stage ≠ []) :
    Stage.render (item :: stage) = item.render ++ ' ' :: stage.render := by
  have hchunks : stage.chunks ≠ [] := by
    obtain ⟨item, stage, rfl⟩ := List.exists_cons_of_ne_nil hne
    cases item <;> exact List.cons_ne_nil _ _
  have hspace : ∀ chunk : Str, [' '].intercalate (chunk :: stage.chunks) =
      chunk ++ ' ' :: stage.render := by
    intro chunk
    rw [List.intercalate_cons_of_ne_nil hchunks, Stage.render]
    simp
  cases item with
  | word text =>
      rw [Item.render_word]
      exact hspace (singleQuoted text)
  | redirect operator fileName =>
      rw [Item.render_redirect]
      apply (List.intercalate_cons_of_ne_nil (List.cons_ne_nil _ _)).trans
      apply (congrArg _ (hspace (singleQuoted fileName))).trans
      simp

theorem Stage.render_singleton (item : Item) : Stage.render [item] = item.render := by
  rw [Stage.render, Stage.chunks, List.flatMap_singleton, Item.render]

theorem spacedFrom_item {item : Item} (h : IsQuotable item.text) (inQuotes : Bool)
    {before : Option Char} (hbefore : needsSpace before = false) (rest : Str) :
    ∃ item' inQuotes', SameShape item item' ∧
      spacedFrom inQuotes before (item.render ++ rest) =
        item'.render ++ spacedFrom inQuotes' (some '\'') rest := by
  cases item with
  | word text =>
      obtain ⟨text', inQuotes', hquotable, heq⟩ := spacedFrom_singleQuoted h inQuotes before rest
      refine ⟨.word text', inQuotes', .word hquotable, ?_⟩
      rw [Item.render_word, Item.render_word]
      exact heq
  | redirect operator fileName =>
      obtain ⟨fileName', inQuotes', hquotable, heq⟩ :=
        spacedFrom_singleQuoted h inQuotes (some ' ') rest
      refine ⟨.redirect operator fileName', inQuotes', .redirect operator hquotable, ?_⟩
      rw [Item.render_redirect, Item.render_redirect, List.append_assoc, List.cons_append,
        spacedFrom_operator operator inQuotes hbefore, List.append_assoc, List.cons_append]
      exact congrArg (fun later => operator.text ++ ' ' :: later) heq

/-- The spacing of a stage: the same items, with longer words perhaps. -/
theorem spacedFrom_stage {stage : Stage} (hne : stage ≠ [])
    (hitems : ∀ item ∈ stage, IsQuotable item.text) (inQuotes : Bool) {before : Option Char}
    (hbefore : needsSpace before = false) (rest : Str) :
    ∃ stage' inQuotes', List.Forall₂ SameShape stage stage' ∧
      spacedFrom inQuotes before (stage.render ++ rest) =
        Stage.render stage' ++ spacedFrom inQuotes' (some '\'') rest := by
  induction stage generalizing inQuotes before with
  | nil => exact absurd rfl hne
  | cons item stage ih =>
      obtain ⟨hitem, hitems⟩ := List.forall_mem_cons.mp hitems
      by_cases hlast : stage = []
      · subst hlast
        obtain ⟨item', inQuotes', hshape, heq⟩ := spacedFrom_item hitem inQuotes hbefore rest
        refine ⟨[item'], inQuotes', .cons hshape .nil, ?_⟩
        rw [Stage.render_singleton, Stage.render_singleton, heq]
      · obtain ⟨item', quotes, hshape, heq⟩ :=
          spacedFrom_item hitem inQuotes hbefore (' ' :: (Stage.render stage ++ rest))
        obtain ⟨stage', inQuotes', hshapes, hstage⟩ := @ih hlast hitems quotes (some ' ') rfl
        have hne' : stage' ≠ [] := by
          rintro rfl
          cases hshapes
          exact hlast rfl
        have hspace : spacedFrom quotes (some '\'') (' ' :: (Stage.render stage ++ rest)) =
            ' ' :: spacedFrom quotes (some ' ') (Stage.render stage ++ rest) := by
          cases quotes <;> rfl
        refine ⟨item' :: stage', inQuotes', .cons hshape hshapes, ?_⟩
        rw [Stage.render_cons item hlast, Stage.render_cons item' hne', List.append_assoc,
          List.cons_append, heq, hspace, hstage]
        simp

/-- The spacing of a line. -/
theorem redirectionWithNoSpace_renderLine {stages : List Stage}
    (hstages : ∀ stage ∈ stages, stage ≠ [] ∧ ∀ item ∈ stage, IsQuotable item.text) :
    ∃ stages', List.Forall₂ (List.Forall₂ SameShape) stages stages' ∧
      redirectionWithNoSpace (renderLine stages) = renderLine stages' := by
  have hall : ∀ (stages : List Stage),
      (∀ stage ∈ stages, stage ≠ [] ∧ ∀ item ∈ stage, IsQuotable item.text) →
      ∀ inQuotes before, needsSpace before = false →
        ∃ stages', List.Forall₂ (List.Forall₂ SameShape) stages stages' ∧
          spacedFrom inQuotes before (renderLine stages) = renderLine stages' := by
    intro stages
    induction stages with
    | nil => exact fun _ _ _ _ => ⟨[], .nil, rfl⟩
    | cons stage stages ih =>
        intro hstages inQuotes before hbefore
        obtain ⟨⟨hne, hitems⟩, hstages⟩ := List.forall_mem_cons.mp hstages
        cases stages with
        | nil =>
            obtain ⟨stage', quotes, hshape, heq⟩ := spacedFrom_stage hne hitems inQuotes hbefore []
            refine ⟨[stage'], .cons hshape .nil, ?_⟩
            rw [List.append_nil] at heq
            simpa [renderLine, spacedFrom] using heq
        | cons next stages =>
            obtain ⟨stage', quotes, hshape, heq⟩ := spacedFrom_stage hne hitems inQuotes hbefore
              ([' ', '|', ' '] ++ renderLine (next :: stages))
            obtain ⟨stages', hshapes, hlater⟩ := ih hstages quotes (some ' ') rfl
            have hbar : spacedFrom quotes (some '\'') ([' ', '|', ' '] ++ renderLine (next :: stages)) =
                [' ', '|', ' '] ++ spacedFrom quotes (some ' ') (renderLine (next :: stages)) := by
              cases quotes <;> rfl
            have hmap : stages' ≠ [] := by
              rintro rfl
              cases hshapes
            refine ⟨stage' :: stages', .cons hshape hshapes, ?_⟩
            have hcons : ∀ (stage : Stage) {stages : List Stage}, stages ≠ [] →
                renderLine (stage :: stages) =
                  stage.render ++ ([' ', '|', ' '] ++ renderLine stages) := by
              intro stage stages hne
              have hne' : stages.map Stage.render ≠ [] := by simpa using hne
              rw [renderLine, List.map_cons, List.intercalate_cons_of_ne_nil hne', renderLine]
              simp
            rw [hcons stage (List.cons_ne_nil _ _), hcons stage' hmap, heq, hbar, hlater]
  exact hall stages hstages false none rfl

end Spacing

section Words

/-- Every word that is no operator becomes a command word or a file name, unless
it comes first behind nothing. -/
theorem length_commandWords_add (pending : Option RedirectionType) (words : List Str) :
    (commandWords pending.isSome words).length + (redirectionList pending words).length =
      words.countP (fun word => !isRedirectionOperator word) := by
  induction words generalizing pending with
  | nil => rfl
  | cons word words ih =>
      rw [List.countP_cons]
      cases hoperator : isRedirectionOperator word with
      | true =>
          have hwords : commandWords pending.isSome (word :: words) = commandWords true words := by
            rw [commandWords, if_pos hoperator]
          have hredirections : redirectionList pending (word :: words) =
              redirectionList (some (searchType word)) words := by
            simp only [redirectionList, hoperator, if_true]
          rw [hwords, hredirections]
          exact ih (some (searchType word))
      | false =>
          have hlater := ih none
          rw [Option.isSome_none] at hlater
          cases pending with
          | none =>
              have hwords : commandWords false (word :: words) = word :: commandWords false words := by
                simp only [commandWords, hoperator, Bool.false_eq_true, if_false]
              have hredirections : redirectionList none (word :: words) =
                  redirectionList none words := by
                simp only [redirectionList, hoperator, Bool.false_eq_true, if_false]
              rw [Option.isSome_none, hwords, hredirections, List.length_cons, Nat.add_right_comm,
                hlater]
              rfl
          | some type =>
              have hwords : commandWords true (word :: words) = commandWords false words := by
                simp only [commandWords, hoperator, Bool.false_eq_true, if_false, if_true]
              have hredirections : redirectionList (some type) (word :: words) =
                  ⟨word, type⟩ :: redirectionList none words := by
                simp only [redirectionList, hoperator, Bool.false_eq_true, if_false]
              rw [Option.isSome_some, hwords, hredirections, List.length_cons, ← Nat.add_assoc, hlater]
              rfl

variable {stage stage' : Stage}

theorem isRedirectionOperator_text (operator : Operator) :
    isRedirectionOperator operator.text = true := by
  cases operator <;> rfl

/-- Without operator texts the loops find the words and redirections of the stage. -/
theorem parsed_of_noOperatorText (h : NoOperatorText stage) :
    stage.parsed = (stage.words, stage.redirections) := by
  have hall : ∀ stage : Stage, NoOperatorText stage →
      commandWords false stage.tokens = stage.words ∧
        redirectionList none stage.tokens = stage.redirections := by
    intro stage
    induction stage with
    | nil => exact fun _ => ⟨rfl, rfl⟩
    | cons item stage ih =>
        intro h
        obtain ⟨hitem, hitems⟩ := List.forall_mem_cons.mp h
        obtain ⟨hwords, hredirections⟩ := ih hitems
        cases item with
        | word text =>
            have htext : isRedirectionOperator text = false := hitem
            have htokens : Stage.tokens (.word text :: stage) = text :: Stage.tokens stage := rfl
            rw [htokens, commandWords, redirectionList, htext, if_neg Bool.false_ne_true,
              if_neg Bool.false_ne_true, if_neg Bool.false_ne_true, hwords]
            exact ⟨rfl, hredirections⟩
        | redirect operator fileName =>
            have hfile : isRedirectionOperator fileName = false := hitem
            have htokens : Stage.tokens (.redirect operator fileName :: stage) =
                operator.text :: fileName :: Stage.tokens stage := rfl
            have htype : searchType operator.text = operator.type := by cases operator <;> rfl
            rw [htokens, commandWords, redirectionList, isRedirectionOperator_text, if_pos rfl,
              if_pos rfl, commandWords, redirectionList, hfile, if_neg Bool.false_ne_true,
              if_pos rfl, if_neg Bool.false_ne_true, htype]
            exact ⟨hwords, congrArg (_ :: ·) hredirections⟩
  rw [Stage.parsed, (hall stage h).1, (hall stage h).2]

/-- As many words and redirections as items leave room for no operator text. -/
theorem noOperatorText_of_length (h : stage.tokens.countP (fun word => !isRedirectionOperator word) =
    stage.length) : NoOperatorText stage := by
  have hall : ∀ stage : Stage,
      (Stage.tokens stage).countP (fun word => !isRedirectionOperator word) =
        stage.countP (fun item => !isRedirectionOperator item.text) := by
    intro stage
    induction stage with
    | nil => rfl
    | cons item stage ih =>
        cases item with
        | word text =>
            have htokens : Stage.tokens (.word text :: stage) = text :: Stage.tokens stage := rfl
            rw [htokens, List.countP_cons, List.countP_cons, ih]
            rfl
        | redirect operator fileName =>
            have htokens : Stage.tokens (.redirect operator fileName :: stage) =
                operator.text :: fileName :: Stage.tokens stage := rfl
            rw [htokens, List.countP_cons, List.countP_cons, List.countP_cons, ih,
              isRedirectionOperator_text]
            rfl
  rw [hall, List.countP_eq_length] at h
  intro item hitem
  simpa using h item hitem

theorem length_words_add (stage : Stage) :
    stage.words.length + stage.redirections.length = stage.length := by
  induction stage with
  | nil => rfl
  | cons item stage ih =>
      cases item with
      | word text =>
          have hwords : Stage.words (.word text :: stage) = text :: Stage.words stage := rfl
          have hredirections : Stage.redirections (.word text :: stage) = Stage.redirections stage :=
            rfl
          rw [hwords, hredirections, List.length_cons, List.length_cons]
          omega
      | redirect operator fileName =>
          have hwords : Stage.words (.redirect operator fileName :: stage) = Stage.words stage := rfl
          have hredirections : Stage.redirections (.redirect operator fileName :: stage) =
            ⟨fileName, operator.type⟩ :: Stage.redirections stage := rfl
          rw [hwords, hredirections, List.length_cons, List.length_cons]
          omega

/-- Items of the same shape with the same words and redirections. -/
theorem eq_of_sameShape (hshape : List.Forall₂ SameShape stage stage')
    (hwords : stage'.words = stage.words) (hredirections : stage'.redirections = stage.redirections) :
    stage' = stage := by
  induction hshape with
  | nil => rfl
  | @cons item item' stage stage' hitem _ ih =>
      cases hitem with
      | @word text text' _ =>
          have hcons : text' :: Stage.words stage' = text :: Stage.words stage := hwords
          obtain ⟨htext, hwords⟩ := List.cons.inj hcons
          rw [htext, ih hwords hredirections]
      | @redirect operator fileName fileName' _ =>
          have hcons : (⟨fileName', operator.type⟩ : Redirection) :: Stage.redirections stage' =
            ⟨fileName, operator.type⟩ :: Stage.redirections stage := hredirections
          obtain ⟨hfirst, hredirections⟩ := List.cons.inj hcons
          rw [(Redirection.mk.inj hfirst).1, ih hwords hredirections]

/-- A stage of the same shape that is parsed as the stage should be is the stage,
and has no operator texts. -/
theorem sameShape_parsed (hshape : List.Forall₂ SameShape stage stage')
    (hparsed : stage'.parsed = (stage.words, stage.redirections)) :
    stage' = stage ∧ NoOperatorText stage := by
  obtain ⟨hwords, hredirections⟩ := Prod.mk.inj hparsed
  have hcount := length_commandWords_add none stage'.tokens
  have htotal := length_words_add stage
  rw [Option.isSome_none, hwords, hredirections, htotal, hshape.length_eq] at hcount
  have hnone := noOperatorText_of_length hcount.symm
  rw [parsed_of_noOperatorText hnone] at hparsed
  obtain ⟨hwords, hredirections⟩ := Prod.mk.inj hparsed
  have heq := eq_of_sameShape hshape hwords hredirections
  exact ⟨heq, heq ▸ hnone⟩

theorem quotable_of_sameShape (hshape : List.Forall₂ SameShape stage stage') :
    ∀ item ∈ stage', IsQuotable item.text := by
  induction hshape with
  | nil => exact fun item hitem => absurd hitem List.not_mem_nil
  | cons hitem _ ih =>
      refine List.forall_mem_cons.mpr ⟨?_, ih⟩
      cases hitem with
      | word h => exact h
      | redirect _ h => exact h

end Words

section Lines

variable {stages stages' : List Stage}

private theorem lines_of_sameShape (hshapes : List.Forall₂ (List.Forall₂ SameShape) stages stages')
    (hne : ∀ stage ∈ stages, stage ≠ []) :
    ∀ stage ∈ stages', stage ≠ [] ∧ ∀ item ∈ stage, IsQuotable item.text := by
  induction hshapes with
  | nil => exact fun stage hstage => absurd hstage List.not_mem_nil
  | @cons stage stage' stages stages' hshape _ ih =>
      obtain ⟨hstage, hstages⟩ := List.forall_mem_cons.mp hne
      refine List.forall_mem_cons.mpr ⟨⟨?_, quotable_of_sameShape hshape⟩, ih hstages⟩
      rintro rfl
      exact hstage (List.forall₂_nil_right_iff.mp hshape)

private theorem sameShapes_parsed (hshapes : List.Forall₂ (List.Forall₂ SameShape) stages stages')
    (hparsed : stages'.map Stage.parsed =
      stages.map fun stage => (stage.words, stage.redirections)) :
    stages' = stages ∧ ∀ stage ∈ stages, NoOperatorText stage := by
  induction hshapes with
  | nil => exact ⟨rfl, fun stage hstage => absurd hstage List.not_mem_nil⟩
  | @cons stage stage' stages stages' hshape _ ih =>
      rw [List.map_cons, List.map_cons] at hparsed
      obtain ⟨hfirst, hlater⟩ := List.cons.inj hparsed
      obtain ⟨hstage, hnone⟩ := sameShape_parsed hshape hfirst
      obtain ⟨hstages, hnones⟩ := ih hlater
      exact ⟨by rw [hstage, hstages], List.forall_mem_cons.mpr ⟨hnone, hnones⟩⟩

end Lines

/-- `cat < 'in' | 'wc'`, every word in single quotes. -/
private def someLine : List Stage :=
  [[.word ['c', 'a', 't'], .redirect .input ['i', 'n']], [.word ['w', 'c']]]

end FortyTwo.Minishell
