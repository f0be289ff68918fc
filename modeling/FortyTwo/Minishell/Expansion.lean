import FortyTwo.Minishell.DollarSign
import FortyTwo.Minishell.Environment

/-!
What the expansion of a command line should be, and when the shell computes it.
The loop leaves the `$` of a variable in front of the value for `remove_dollar` to
take out, and goes on behind the length of the name, not of the value.
-/

namespace FortyTwo.Minishell

open Foundation Relation

/-- The longest variable name that the text begins with. -/
def nameAt (text : Str) : Str :=
  match text with
  | [] => []
  | c :: _ => if isNameStart c then text.takeWhile isNameChar else []

def valueOf (name : Str) (envp : List Str) : Option Str :=
  (entry nameOf name envp).map (fun text => text.drop (name.length + 1))

/-- The strings of an environment are `NAME=VALUE`. -/
def IsEnvironment (envp : List Str) : Prop :=
  ∀ text ∈ envp, isName (nameOf text) = true ∧ '=' ∈ text

/-- One scan from left to right: a variable outside single quotes is replaced by
its value, or by nothing, and `$?` by the status; all else is copied. -/
def reference (data : Data) (quoted : Bool) : Str → Str
  | [] => []
  | c :: rest =>
      if c = '\'' then c :: reference data (!quoted) rest
      else if c ≠ '$' ∨ quoted then c :: reference data quoted rest
      else if rest.head? = some '?' then
        ftItoa data.exitStatus ++ reference data quoted rest.tail
      else if nameAt rest = [] then c :: reference data quoted rest
      else
        (valueOf (nameAt rest) data.envp).getD [] ++
          reference data quoted (rest.drop (nameAt rest).length)
  termination_by text => text.length
  decreasing_by all_goals simp; try omega

/-- No `$` outside single quotes begins a variable or `$?`. -/
def Inert : Bool → Str → Prop
  | _, [] => True
  | quoted, c :: rest =>
      if c = '\'' then Inert (!quoted) rest
      else (c = '$' → quoted = false → rest.head? ≠ some '?' ∧ nameAt rest = []) ∧
        Inert quoted rest

/-- `remove_dollar` keeps every `$` of `text` when `after` follows. -/
def KeepsDollars (text after : Str) : Prop :=
  ∀ before later, text = before ++ '$' :: later → keepsDollar (later ++ after) = true

/-- The loop and `remove_dollar` do right by every `$`, when the index of the loop
has already passed `skipped` characters: a variable is set, it is not skipped, its
own `$` is taken out and those of its value are not; any other `$` is kept. -/
def Expandable (data : Data) (skipped : Nat) : Str → Prop
  | [] => skipped = 0
  | c :: rest =>
      if c ≠ '$' then Expandable data (skipped - 1) rest
      else if rest.head? = some '?' then skipped = 0 ∧ Expandable data 0 rest.tail
      else if nameAt rest = [] then
        keepsDollar rest = true ∧ Expandable data (skipped - 1) rest
      else
        skipped = 0 ∧ (nameAt rest).length ≤ 254 ∧
          ∃ value, valueOf (nameAt rest) data.envp = some value ∧
            keepsDollar (value ++ rest.drop (nameAt rest).length) = false ∧
            KeepsDollars value (rest.drop (nameAt rest).length) ∧
            Expandable data ((nameAt rest).length - value.length)
              (rest.drop (nameAt rest).length)
  termination_by text => text.length
  decreasing_by all_goals simp; try omega

/-- The string that the loop leaves: the `$` of a variable stands before its value. -/
def marked (data : Data) : Str → Str
  | [] => []
  | c :: rest =>
      if c ≠ '$' then c :: marked data rest
      else if rest.head? = some '?' then ftItoa data.exitStatus ++ marked data rest.tail
      else if nameAt rest = [] then c :: marked data rest
      else
        c :: (valueOf (nameAt rest) data.envp).getD (nameAt rest) ++
          marked data (rest.drop (nameAt rest).length)
  termination_by text => text.length
  decreasing_by all_goals simp; try omega

section Texts

variable {text after : Str}

private theorem isNameChar_of_isNameStart {c : Char} (h : isNameStart c = true) :
    isNameChar c = true := by
  rw [isNameStart, Bool.or_eq_true] at h
  rw [isNameChar, Char.isAlphanum, Bool.or_eq_true, Bool.or_eq_true]
  exact h.imp_left Or.inl

private theorem nameAt_eq (h : nameAt text ≠ []) : nameAt text = text.takeWhile isNameChar := by
  cases text with
  | nil => exact absurd rfl h
  | cons c rest =>
      rw [nameAt] at h ⊢
      split at h
      · next hstart => rw [if_pos hstart]
      · exact absurd rfl h

private theorem nameAt_append_drop (h : nameAt text ≠ []) :
    nameAt text ++ text.drop (nameAt text).length = text := by
  apply List.prefix_iff_eq_append.mp
  rw [nameAt_eq h]
  exact List.takeWhile_prefix isNameChar

private theorem isName_nameAt (h : nameAt text ≠ []) : isName (nameAt text) = true := by
  cases text with
  | nil => exact absurd rfl h
  | cons c rest =>
      rw [nameAt] at h ⊢
      split at h
      · next hstart =>
          rw [if_pos hstart, List.takeWhile_cons_of_pos (isNameChar_of_isNameStart hstart), isName,
            hstart, Bool.true_and]
          exact List.all_eq_true.mpr fun d hd => List.mem_takeWhile_imp hd
      · exact absurd rfl h

private theorem takeWhile_of_keepsDollar (h : keepsDollar text = true) :
    text.takeWhile isNameChar = [] := by
  cases text with
  | nil => rfl
  | cons c rest =>
      rw [keepsDollar, Bool.or_eq_true, beq_iff_eq, beq_iff_eq] at h
      rcases h with rfl | rfl
      · rfl
      · rfl

private theorem head?_of_keepsDollar (h : keepsDollar text = true) : text.head? ≠ some '?' := by
  cases text with
  | nil => simp
  | cons c rest =>
      rintro heq
      cases heq
      cases h

private theorem keepsDollar_append (h : text ≠ []) (after : Str) :
    keepsDollar (text ++ after) = keepsDollar text := by
  cases text with
  | nil => exact absurd rfl h
  | cons c rest => rfl

/-- The digits of a number, and its sign. -/
private theorem mem_ftItoa {n : Int} {c : Char} (h : c ∈ ftItoa n) : c = '-' ∨ c.isDigit = true := by
  rw [ftItoa, Int.toString_eq_repr, Int.repr_eq_if] at h
  split at h
  · rw [Nat.toList_repr] at h
    exact Or.inr (Nat.isDigit_of_mem_toDigits (by decide) (by decide) h)
  · rw [String.toList_append, Nat.toList_repr] at h
    rcases List.mem_append.mp h with hsign | hdigit
    · exact Or.inl (List.mem_singleton.mp hsign)
    · exact Or.inr (Nat.isDigit_of_mem_toDigits (by decide) (by decide) hdigit)

theorem ftItoa_ne_nil (n : Int) : ftItoa n ≠ [] := by
  rw [ftItoa, Int.toString_eq_repr, Int.repr_eq_if]
  split
  · rw [Nat.toList_repr]
    exact Nat.toDigits_ne_nil
  · rw [String.toList_append]
    exact List.append_ne_nil_of_left_ne_nil (List.cons_ne_nil _ _) _

private theorem keepsDollar_ftItoa (n : Int) : keepsDollar (ftItoa n) = false := by
  cases hdigits : ftItoa n with
  | nil => exact absurd hdigits (ftItoa_ne_nil n)
  | cons c rest =>
      have hc := mem_ftItoa (n := n) (c := c) (by simp [hdigits])
      rw [keepsDollar, Bool.or_eq_false_iff, beq_eq_false_iff_ne, beq_eq_false_iff_ne]
      constructor
      · rintro rfl
        revert hc
        decide
      · rintro rfl
        revert hc
        decide

theorem dollar_not_mem_ftItoa {n : Int} : '$' ∉ ftItoa n := by
  intro h
  have hdollar := mem_ftItoa h
  revert hdollar
  decide

/-- A name has no quotes. -/
private theorem singleQuote_drop_nameAt (quoted : Bool) (h : nameAt text ≠ []) :
    singleQuote quoted (text.drop (nameAt text).length) = singleQuote quoted text := by
  have hskip : ∀ name : Str, (∀ c ∈ name, isNameChar c = true) → ∀ rest,
      singleQuote quoted (name ++ rest) = singleQuote quoted rest := by
    intro name
    induction name with
    | nil => exact fun _ rest => rfl
    | cons c name ih =>
        intro hname rest
        obtain ⟨hc, hname⟩ := List.forall_mem_cons.mp hname
        have hquote : c ≠ '\'' := by
          rintro rfl
          exact absurd hc (by decide)
        have hdollar : c ≠ '$' := by
          rintro rfl
          exact absurd hc (by decide)
        rw [List.cons_append, singleQuote, if_neg hquote, if_neg fun hboth => hdollar hboth.1]
        exact ih hname rest
  have hchars : ∀ c ∈ nameAt text, isNameChar c = true := by
    rw [nameAt_eq h]
    exact fun c hc => List.mem_takeWhile_imp hc
  rw [← hskip _ hchars, nameAt_append_drop h]

private theorem keepsDollars_of_not_mem (h : '$' ∉ text) (after : Str) : KeepsDollars text after := by
  rintro before later rfl
  exact absurd (by simp) h

private theorem KeepsDollars.tail {c : Char} (h : KeepsDollars (c :: text) after) :
    KeepsDollars text after := by
  rintro before later rfl
  exact h (c :: before) later rfl

theorem removeDollar_append (h : KeepsDollars text after) :
    removeDollar (text ++ after) = text ++ removeDollar after := by
  induction text with
  | nil => rfl
  | cons c text ih =>
      rw [List.cons_append, removeDollar, ih h.tail]
      by_cases hc : c = '$'
      · have hkeeps : keepsDollar (text ++ after) = true := h [] text (by rw [hc]; rfl)
        rw [if_pos ⟨hc, hkeeps⟩, List.cons_append]
      · rw [if_neg fun hboth => hc hboth.1, if_pos hc, List.cons_append]

end Texts

section Lookups

variable {data : Data} {name : Str}

private theorem valueFinder_eq_hit (key : Str) (envp : List Str) :
    valueFinder key envp = (Operation.hit key envp).map (fun text => text.drop key.length) := by
  rw [valueFinder]
  cases hsearch : keyAlreadyPresent key envp with
  | none =>
      rw [hit_none hsearch]
      rfl
  | some pos =>
      obtain ⟨text, htext, -, hhit⟩ := keyAlreadyPresent_some hsearch
      rw [hhit, Option.bind_some, htext]

/-- Where all strings have a `=`, a lookup reads the first entry of the name. -/
private theorem valueFinder_eq_valueOf (henv : IsEnvironment data.envp) (hname : '=' ∉ name) :
    valueFinder (name ++ ['=']) data.envp = valueOf name data.envp := by
  have hsearch : Operation.hit (name ++ ['=']) data.envp = entry nameOf name data.envp := by
    refine List.find?_congr fun text htext => ?_
    rw [Bool.eq_iff_iff, List.isPrefixOf_iff_prefix, decide_eq_true_iff]
    refine ⟨nameOf_of_start hname, ?_⟩
    rintro rfl
    exact nameOf_equals_start (henv text htext).2
  rw [valueFinder_eq_hit, hsearch, valueOf, List.length_append, List.length_singleton]

/-- No entry has the empty name. -/
private theorem valueFinder_equals (henv : IsEnvironment data.envp) :
    valueFinder ['='] data.envp = none := by
  have hnone : entry nameOf [] data.envp = none := by
    apply entry_eq_none_iff.mpr
    intro text htext heq
    have hname := (henv text htext).1
    rw [heq] at hname
    cases hname
  have hvalue := @valueFinder_eq_valueOf data [] henv List.not_mem_nil
  rw [List.nil_append, valueOf, hnone] at hvalue
  exact hvalue

end Lookups

section Marked

variable {data : Data}

private theorem keepsDollar_marked (text : Str) :
    keepsDollar (marked data text) = keepsDollar text := by
  cases text with
  | nil => rw [marked]
  | cons c rest =>
      rw [marked]
      split
      · rfl
      · next hc =>
          obtain rfl : c = '$' := not_not.mp hc
          split
          · rw [keepsDollar_append (ftItoa_ne_nil _), keepsDollar_ftItoa]
            rfl
          · split
            · rfl
            · rfl

private theorem keepsDollar_append_marked (text rest : Str) :
    keepsDollar (text ++ marked data rest) = keepsDollar (text ++ rest) := by
  cases text with
  | nil => exact keepsDollar_marked rest
  | cons c text => rfl

private theorem KeepsDollars.marked {text rest : Str} (h : KeepsDollars text rest) :
    KeepsDollars text (marked data rest) := by
  intro before later htext
  rw [keepsDollar_append_marked]
  exact h before later htext

/-- A `$` in a text without a `$` inside single quotes. -/
private theorem free_of_dollar {quoted : Bool} {rest : Str}
    (h : singleQuote quoted ('$' :: rest) = false) :
    quoted = false ∧ singleQuote quoted rest = false := by
  rw [singleQuote, if_neg (by decide)] at h
  split at h
  · cases h
  · next hquoted => exact ⟨by simpa using hquoted, h⟩

/-- What `remove_dollar` makes of the string that the loop leaves. -/
theorem removeDollar_marked (quoted : Bool) {text : Str} {skipped : Nat}
    (hquotes : singleQuote quoted text = false) (h : Expandable data skipped text) :
    removeDollar (marked data text) = reference data quoted text := by
  induction text using marked.induct generalizing quoted skipped with
  | case1 => rw [marked, reference, removeDollar]
  | case2 c rest hc ih =>
      rw [Expandable, if_pos hc] at h
      rw [marked, if_pos hc, reference, removeDollar, if_neg fun hboth => hc hboth.1, if_pos hc]
      rw [singleQuote] at hquotes
      split at hquotes
      · next hquote => rw [if_pos hquote, ih _ hquotes h]
      · next hquote =>
          rw [if_neg fun hboth => hc hboth.1] at hquotes
          rw [if_neg hquote, if_pos (Or.inl hc), ih _ hquotes h]
  | case3 c rest hc hstatus ih =>
      obtain rfl : c = '$' := not_not.mp hc
      obtain ⟨later, rfl⟩ : ∃ later, rest = '?' :: later := List.head?_eq_some_iff.mp hstatus
      obtain ⟨hfree, hquotes⟩ := free_of_dollar hquotes
      rw [Expandable, if_neg hc, if_pos hstatus] at h
      rw [marked, if_neg hc, if_pos hstatus, reference, if_neg (by decide),
        if_neg (by simp [hfree]), if_pos hstatus,
        removeDollar_append (keepsDollars_of_not_mem dollar_not_mem_ftItoa _)]
      rw [singleQuote, if_neg (by decide), if_neg (by simp)] at hquotes
      exact congrArg _ (ih quoted hquotes h.2)
  | case4 c rest hc hstatus hname ih =>
      obtain rfl : c = '$' := not_not.mp hc
      obtain ⟨hfree, hquotes⟩ := free_of_dollar hquotes
      rw [Expandable, if_neg hc, if_neg hstatus, if_pos hname] at h
      rw [marked, if_neg hc, if_neg hstatus, if_pos hname, reference, if_neg (by decide),
        if_neg (by simp [hfree]), if_neg hstatus, if_pos hname, removeDollar,
        keepsDollar_marked, if_pos ⟨rfl, h.1⟩, ih quoted hquotes h.2]
  | case5 c rest hc hstatus hname ih =>
      obtain rfl : c = '$' := not_not.mp hc
      obtain ⟨hfree, hquotes⟩ := free_of_dollar hquotes
      rw [Expandable, if_neg hc, if_neg hstatus, if_neg hname] at h
      obtain ⟨-, -, value, hvalue, hout, hkept, hafter⟩ := h
      have hquotes' : singleQuote quoted (rest.drop (nameAt rest).length) = false := by
        rw [← hquotes]
        exact singleQuote_drop_nameAt quoted hname
      have hremoved : ¬('$' = '$' ∧ keepsDollar (value ++
          marked data (rest.drop (nameAt rest).length)) = true) := by
        rw [keepsDollar_append_marked, hout]
        decide
      rw [marked, if_neg hc, if_neg hstatus, if_neg hname, hvalue, reference,
        if_neg (by decide), if_neg (by simp [hfree]), if_neg hstatus, if_neg hname, hvalue,
        Option.getD_some, Option.getD_some, List.cons_append, removeDollar, if_neg hremoved,
        if_neg (by decide), removeDollar_append hkept.marked, ih quoted hquotes' hafter]

end Marked

section Rounds

variable {data : Data}

theorem dollarRound_at (out rest : Str) (c : Char) :
    dollarRound data (out ++ c :: rest, out.length) =
      if c = '$' then
        if rest.head? = some '?' then
          .ok (replaceWithExitStatus (out ++ c :: rest) (out.length + 1) data, out.length + 1)
        else replaceVariable (out ++ c :: rest) (out.length + 1) data
      else .ok (out ++ c :: rest, out.length + 1) := by
  have hat : (out ++ c :: rest)[out.length]? = some c := by simp
  have hnext : (out ++ c :: rest)[out.length + 1]? = rest.head? := by
    rw [List.getElem?_append_right (by omega), List.head?_eq_getElem?]
    simp
  simp only [dollarRound, hat, hnext]

theorem drop_behind (out rest : Str) (c : Char) (n : Nat) :
    (out ++ c :: rest).drop (out.length + 1 + n) = rest.drop n := by
  rw [List.drop_append, List.drop_of_length_le (by omega), List.nil_append, Nat.add_assoc,
    Nat.add_sub_cancel_left, Nat.add_comm 1 n, List.drop_succ_cons]

theorem extractVarName_at (out rest : Str) (c : Char)
    (hlength : (rest.takeWhile isNameChar).length ≤ 254) :
    extractVarName (out ++ c :: rest) (out.length + 1) =
      .ok (rest.takeWhile isNameChar ++ ['='],
        out.length + 1 + (rest.takeWhile isNameChar).length) := by
  have hdrop := drop_behind out rest c 0
  rw [Nat.add_zero, List.drop_zero] at hdrop
  rw [extractVarName, hdrop]
  exact if_pos (by omega)

/-- A character that is no `$`, or a `$` that is kept. -/
private theorem dollarRound_pass (henv : IsEnvironment data.envp) (out rest : Str) (c : Char)
    (hpass : c = '$' → keepsDollar rest = true) :
    dollarRound data (out ++ c :: rest, out.length) = .ok (out ++ c :: rest, out.length + 1) := by
  rw [dollarRound_at]
  split
  · next hc =>
      have hkeeps := hpass hc
      have hname := takeWhile_of_keepsDollar hkeeps
      rw [if_neg (head?_of_keepsDollar hkeeps), replaceVariable,
        extractVarName_at out rest c (by simp [hname]), hname]
      simp only [Except.map, List.nil_append, valueFinder_equals henv]
      rfl
  · rfl

theorem dollarRound_status (out rest : Str) :
    dollarRound data (out ++ '$' :: '?' :: rest, out.length) =
      .ok (out ++ (ftItoa data.exitStatus ++ rest), out.length + 1) := by
  have hat : (out ++ '$' :: '?' :: rest)[out.length + 1]? = some '?' := by
    rw [List.getElem?_append_right (by omega)]
    simp
  have hbefore : (out ++ '$' :: '?' :: rest)[out.length + 1 - 1]? = some '$' := by simp
  have htake : (out ++ '$' :: '?' :: rest).take (out.length + 1 + 1 - 2) = out := by simp
  have hdrop := drop_behind out ('?' :: rest) '$' 1
  rw [dollarRound_at, if_pos rfl, if_pos List.head?_cons, replaceWithExitStatus, if_pos ⟨hat, hbefore⟩,
    replaceVarWithValue, htake, hdrop, List.append_assoc]
  rfl

theorem dollarRound_lookup (out rest : Str) (hstatus : rest.head? ≠ some '?')
    (hlength : (rest.takeWhile isNameChar).length ≤ 254) :
    dollarRound data (out ++ '$' :: rest, out.length) =
      .ok (match valueFinder (rest.takeWhile isNameChar ++ ['=']) data.envp with
        | none => (out ++ '$' :: rest, out.length + 1 + (rest.takeWhile isNameChar).length)
        | some value =>
            (out ++ '$' :: (value ++ rest.drop (rest.takeWhile isNameChar).length),
              out.length + 1 + (rest.takeWhile isNameChar).length)) := by
  have hdrop := drop_behind out rest '$' (rest.takeWhile isNameChar).length
  have htake : (out ++ '$' :: rest).take (out.length + 1) = out ++ ['$'] := by
    simp [List.take_append]
  rw [dollarRound_at, if_pos rfl, if_neg hstatus, replaceVariable, extractVarName_at out rest '$' hlength]
  cases hvalue : valueFinder (rest.takeWhile isNameChar ++ ['=']) data.envp with
  | none => simp only [Except.map, hvalue]
  | some value =>
      simp only [Except.map, hvalue, replaceVarWithValue, hdrop, Nat.add_sub_cancel_left,
        Nat.add_sub_cancel, htake, List.append_assoc, List.cons_append, List.nil_append]

private theorem dollarRound_variable (henv : IsEnvironment data.envp) (out rest value : Str)
    (hstatus : rest.head? ≠ some '?') (hname : nameAt rest ≠ [])
    (hlength : (nameAt rest).length ≤ 254)
    (hvalue : valueOf (nameAt rest) data.envp = some value) :
    dollarRound data (out ++ '$' :: rest, out.length) =
      .ok (out ++ '$' :: (value ++ rest.drop (nameAt rest).length),
        out.length + 1 + (nameAt rest).length) := by
  have hfind := valueFinder_eq_valueOf henv (equals_not_mem_of_isName (isName_nameAt hname))
  rw [hvalue, nameAt_eq hname] at hfind
  rw [nameAt_eq hname] at hlength ⊢
  rw [dollarRound_lookup out rest hstatus hlength, hfind]

/-- A round of the loop of `check_dollar_sign`. -/
abbrev Step (data : Data) : Str × Nat → Str × Nat → Prop :=
  Round (fun s : Str × Nat => s.2 != s.1.length) (dollarRound data)

theorem step_at {out rest : Str} {c : Char} {next : Str × Nat}
    (hround : dollarRound data (out ++ c :: rest, out.length) = .ok next) :
    Step data (out ++ c :: rest, out.length) next := by
  refine ⟨bne_iff_ne.mpr ?_, hround⟩
  simp

/-- The loop passes a text whose every `$` is kept. -/
private theorem pass_text (henv : IsEnvironment data.envp) (text : Str) :
    ∀ out rest, KeepsDollars text rest →
      ReflTransGen (Step data) (out ++ (text ++ rest), out.length)
        (out ++ (text ++ rest), (out ++ text).length) := by
  induction text with
  | nil =>
      intro out rest _
      rw [List.append_nil]
  | cons c text ih =>
      intro out rest hkeeps
      have hpass : c = '$' → keepsDollar (text ++ rest) = true := fun hc =>
        hkeeps [] text (by rw [hc]; rfl)
      have hstep := step_at (dollarRound_pass henv out (text ++ rest) c hpass)
      have hlater := ih (out ++ [c]) rest hkeeps.tail
      rw [List.append_assoc, List.append_assoc] at hlater
      rw [List.length_append, List.length_singleton] at hlater
      exact ReflTransGen.head hstep hlater

/-- The loop goes on `passed` characters behind the start of a text that it has put
in, and comes to its end. -/
private theorem pass_inserted (henv : IsEnvironment data.envp) (out text rest : Str) (passed : Nat)
    (hkeeps : KeepsDollars text rest) :
    ReflTransGen (Step data) (out ++ (text ++ rest), out.length + passed)
      (out ++ (text ++ rest), (out ++ text).length + (passed - text.length)) := by
  by_cases hle : passed ≤ text.length
  · have hsplit := List.take_append_drop passed text
    have hkeeps' : KeepsDollars (text.drop passed) rest := by
      intro before later hlater
      apply hkeeps (text.take passed ++ before) later
      rw [List.append_assoc, ← hlater, hsplit]
    have hpass := pass_text henv (text.drop passed) (out ++ text.take passed) rest hkeeps'
    rw [List.append_assoc out, ← List.append_assoc (text.take passed), hsplit,
      List.append_assoc out, hsplit, List.length_append, List.length_take,
      Nat.min_eq_left hle] at hpass
    rw [Nat.sub_eq_zero_of_le hle]
    exact hpass
  · rw [List.length_append]
    have hsame : out.length + text.length + (passed - text.length) = out.length + passed := by omega
    rw [hsame]

/-- From any place with characters to skip, the loop goes to the end. -/
theorem rounds_marked (henv : IsEnvironment data.envp) (text : Str) :
    ∀ skipped out, Expandable data skipped text →
      ReflTransGen (Step data) (out ++ text, out.length + skipped)
        (out ++ marked data text, (out ++ marked data text).length) := by
  induction text using marked.induct with
  | case1 =>
      intro skipped out h
      rw [Expandable] at h
      rw [h, marked, List.append_nil, Nat.add_zero]
  | case2 c rest hc ih =>
      intro skipped out h
      rw [Expandable, if_pos hc] at h
      rw [marked, if_pos hc]
      have hlater := ih (skipped - 1) (out ++ [c]) h
      rw [List.append_assoc, List.append_assoc, List.length_append, List.length_singleton] at hlater
      cases skipped with
      | zero =>
          have hpass : c = '$' → keepsDollar rest = true := fun heq => absurd heq hc
          exact ReflTransGen.head (step_at (dollarRound_pass henv out rest c hpass)) hlater
      | succ skipped =>
          rw [Nat.add_sub_cancel, Nat.add_assoc, Nat.add_comm 1] at hlater
          exact hlater
  | case3 c rest hc hstatus ih =>
      intro skipped out h
      obtain rfl : c = '$' := not_not.mp hc
      rw [Expandable, if_neg hc, if_pos hstatus] at h
      obtain ⟨later, rfl⟩ : ∃ later, rest = '?' :: later := List.head?_eq_some_iff.mp hstatus
      obtain ⟨rfl, hafter⟩ := h
      rw [marked, if_neg hc, if_pos hstatus]
      have hround := step_at (@dollarRound_status data out later)
      have hpass := pass_inserted henv out (ftItoa data.exitStatus) later 1
        (keepsDollars_of_not_mem dollar_not_mem_ftItoa later)
      have hlater := ih 0 (out ++ ftItoa data.exitStatus) hafter
      have hpos := List.length_pos_iff.mpr (ftItoa_ne_nil data.exitStatus)
      rw [Nat.sub_eq_zero_of_le hpos] at hpass
      rw [List.append_assoc, List.append_assoc] at hlater
      exact (ReflTransGen.head hround hpass).trans hlater
  | case4 c rest hc hstatus hname ih =>
      intro skipped out h
      obtain rfl : c = '$' := not_not.mp hc
      rw [Expandable, if_neg hc, if_neg hstatus, if_pos hname] at h
      rw [marked, if_neg hc, if_neg hstatus, if_pos hname]
      have hlater := ih (skipped - 1) (out ++ ['$']) h.2
      rw [List.append_assoc, List.append_assoc, List.length_append, List.length_singleton] at hlater
      cases skipped with
      | zero => exact ReflTransGen.head (step_at (dollarRound_pass henv out rest '$' fun _ => h.1)) hlater
      | succ skipped =>
          rw [Nat.add_sub_cancel, Nat.add_assoc, Nat.add_comm 1] at hlater
          exact hlater
  | case5 c rest hc hstatus hname ih =>
      intro skipped out h
      obtain rfl : c = '$' := not_not.mp hc
      rw [Expandable, if_neg hc, if_neg hstatus, if_neg hname] at h
      obtain ⟨rfl, hlength, value, hvalue, -, hkept, hafter⟩ := h
      rw [marked, if_neg hc, if_neg hstatus, if_neg hname, hvalue, Option.getD_some]
      have hround := step_at (dollarRound_variable henv out rest value hstatus hname hlength hvalue)
      have hpass := pass_inserted henv (out ++ ['$']) value _ (nameAt rest).length hkept
      have hlater := ih _ (out ++ ['$'] ++ value) hafter
      have hlength' : (out ++ ['$']).length = out.length + 1 := by simp
      rw [List.append_cons out '$' (value ++ rest.drop (nameAt rest).length)] at hround
      rw [hlength'] at hpass
      rw [List.append_assoc (out ++ ['$']), List.append_assoc (out ++ ['$'])] at hlater
      rw [List.cons_append, List.append_cons out '$' (value ++ _)]
      exact (ReflTransGen.head hround hpass).trans hlater

end Rounds

/-- The input condition: where a `$` stands inside single quotes nothing is to be
replaced, and elsewhere the loop and `remove_dollar` do right by every `$`. -/
def ExpandsRight (data : Data) (message : Str) : Prop :=
  if singleQuote false message then Inert false message else Expandable data 0 message

theorem reference_of_inert (data : Data) (quoted : Bool) {text : Str} (h : Inert quoted text) :
    reference data quoted text = text := by
  induction text generalizing quoted with
  | nil => rw [reference]
  | cons c rest ih =>
      rw [Inert] at h
      rw [reference]
      split at h
      · next hquote => rw [if_pos hquote, ih _ h]
      · next hquote =>
          rw [if_neg hquote]
          split
          · rw [ih _ h.2]
          · next hactive =>
              obtain ⟨hc, hfree⟩ := not_or.mp hactive
              obtain ⟨hstatus, hname⟩ := h.1 (not_not.mp hc) (Bool.not_eq_true _ ▸ hfree)
              rw [if_neg hstatus, if_pos hname, ih _ h.2]

/-- `A` is `xy`, and the last status was 7. -/
private def someData : Data := { envp := [['A', '=', 'x', 'y']], exitStatus := 7 }

end FortyTwo.Minishell
