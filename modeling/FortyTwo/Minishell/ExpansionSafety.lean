import FortyTwo.Foundation.Recurrence
import FortyTwo.Foundation.Words
import FortyTwo.Minishell.Expansion

/-!
When the loop of `check_dollar_sign` comes to an end and stays inside its buffers. Seen from
its index the loop takes what is left of the string from the front, and puts the value of a
variable back in front of it, less as many characters as the name has.
-/

namespace FortyTwo.Minishell

open Foundation Relation

section Scan

/-- The name that stands, maybe empty, behind a `$` that no `?` follows. -/
def variableAt : Str → Option Str
  | [] => none
  | c :: rest =>
      if c = '$' ∧ rest.head? ≠ some '?' then some (rest.takeWhile isNameChar) else none

/-- What follows that variable. -/
def behindVariable (text : Str) : Str := text.tail.dropWhile isNameChar

/-- What is left when the loop has found the name, with `behind` following it. -/
def leftOfVariable (data : Data) (name behind : Str) : Str :=
  match valueFinder (name ++ ['=']) data.envp with
  | none => behind
  | some value => (value ++ behind).drop name.length

/-- What is left of a text when its first character, `$?` or variable is done. -/
def leftAfter (data : Data) : Str → Str
  | [] => []
  | c :: rest =>
      if c ≠ '$' then rest
      else if rest.head? = some '?' then rest.tail
      else leftOfVariable data (rest.takeWhile isNameChar) (rest.dropWhile isNameChar)

/-- The name has room in its buffer, and the text that takes its place reaches as far. -/
def Fits (data : Data) (text : Str) : Prop :=
  ∀ name ∈ variableAt text, name.length ≤ 254 ∧
    ∀ value ∈ valueFinder (name ++ ['=']) data.envp,
      name.length ≤ (value ++ behindVariable text).length

/-- The variable in front, and whether a `?` follows it. -/
def front (text : Str) : Option Str × Bool :=
  (variableAt text, (behindVariable text).head? == some '?')

/-- The variable in front of the text is in front again before less is left than now. -/
def ComesUpAgain (data : Data) (text : Str) : Prop :=
  variableAt text ≠ none ∧ ∃ n, 0 < n ∧ front ((leftAfter data)^[n] text) = front text ∧
    ∀ k ≤ n, text.length ≤ ((leftAfter data)^[k] text).length

end Scan

/-- The input condition: no variable that comes up in the message, or in a value behind as
many of its characters as its name has, is too long, gets a value too short, or comes up
again while its value is not yet behind. -/
structure Settles (data : Data) (message : Str) : Prop where
  fits : ∀ n, Fits data ((leftAfter data)^[n] message)
  once : ∀ n, ¬ComesUpAgain data ((leftAfter data)^[n] message)

/-- The loop ends, its index stays in the string, and each name in its buffer. -/
structure ExpandsSafely (data : Data) (message : Str) : Prop where
  ends : ∃ enough, ∀ fuel, enough ≤ fuel → checkDollarSign data fuel message ≠ .error .outOfFuel
  inside : ∀ s, ReflTransGen (Step data) (message, 0) s → s.2 ≤ s.1.length
  room : ∀ s, ReflTransGen (Step data) (message, 0) s → s.1[s.2]? = some '$' →
    s.1[s.2 + 1]? ≠ some '?' → ∃ found, extractVarName s.1 (s.2 + 1) = .ok found

section Fronts

variable {data : Data} {name text rest after later : Str}

/-- No name goes on here. -/
def Closed (rest : Str) : Prop := ∀ c ∈ rest.head?, isNameChar c = false

private theorem closed_dropWhile (text : Str) : Closed (text.dropWhile isNameChar) := by
  intro c hc
  have hhead := List.head?_dropWhile_not isNameChar text
  rw [Option.mem_def] at hc
  rw [hc] at hhead
  simpa using hhead

private theorem takeWhile_append (h : Closed rest) (text : Str) :
    (text ++ rest).takeWhile isNameChar = text.takeWhile isNameChar ∧
      (text ++ rest).dropWhile isNameChar = text.dropWhile isNameChar ++ rest := by
  induction text with
  | nil =>
      cases rest with
      | nil => exact ⟨rfl, rfl⟩
      | cons c rest =>
          have hc : isNameChar c = false := h c rfl
          simp [hc]
  | cons c text ih =>
      by_cases hc : isNameChar c = true
      · simp [hc, ih.1, ih.2]
      · simp [hc]

theorem variableAt_eq_some :
    variableAt text = some name ↔
      ∃ rest, text = '$' :: rest ∧ rest.head? ≠ some '?' ∧ rest.takeWhile isNameChar = name := by
  cases text with
  | nil => simp [variableAt]
  | cons c rest =>
      rw [variableAt]
      constructor
      · intro h
        split at h
        · next hboth =>
            obtain ⟨rfl, hstatus⟩ := hboth
            exact ⟨rest, rfl, hstatus, Option.some.inj h⟩
        · cases h
      · rintro ⟨_, ⟨⟩, hstatus, rfl⟩
        rw [if_pos ⟨rfl, hstatus⟩]

private theorem text_of_variableAt (h : variableAt text = some name) :
    text = '$' :: name ++ behindVariable text := by
  obtain ⟨rest, rfl, -, rfl⟩ := variableAt_eq_some.mp h
  rw [behindVariable, List.tail_cons, List.cons_append, List.takeWhile_append_dropWhile]

theorem leftAfter_of_variableAt (h : variableAt text = some name) :
    leftAfter data text = leftOfVariable data name (behindVariable text) := by
  obtain ⟨rest, rfl, hstatus, rfl⟩ := variableAt_eq_some.mp h
  rw [leftAfter, if_neg (by simp), if_neg hstatus]
  rfl

/-- Only a variable that has a value leaves as much as there was. -/
private theorem length_leftAfter (htext : text ≠ [])
    (hlength : text.length ≤ (leftAfter data text).length) :
    ∃ name value, variableAt text = some name ∧
      valueFinder (name ++ ['=']) data.envp = some value := by
  cases hvariable : variableAt text with
  | some name =>
      cases hvalue : valueFinder (name ++ ['=']) data.envp with
      | some value => exact ⟨name, value, rfl, hvalue⟩
      | none =>
          have hsplit := congrArg List.length (text_of_variableAt hvariable)
          rw [leftAfter_of_variableAt hvariable, leftOfVariable, hvalue] at hlength
          simp only [List.length_append, List.length_cons] at hsplit hlength
          omega
  | none =>
      cases text with
      | nil => exact absurd rfl htext
      | cons c rest =>
          rw [variableAt] at hvariable
          rw [leftAfter, List.length_cons] at hlength
          split at hlength
          · omega
          · next hc =>
              split at hlength
              · rw [List.length_tail] at hlength
                omega
              · next hstatus =>
                  rw [if_pos ⟨not_not.mp hc, hstatus⟩] at hvariable
                  cases hvariable

private theorem leftOfVariable_append
    (hlength : rest.length < (leftOfVariable data name (text ++ rest)).length) :
    ∃ left, ∀ later, leftOfVariable data name (text ++ later) = left ++ later := by
  rw [leftOfVariable] at hlength
  cases hvalue : valueFinder (name ++ ['=']) data.envp with
  | none =>
      refine ⟨text, ?_⟩
      intro later
      rw [leftOfVariable, hvalue]
  | some value =>
      rw [hvalue] at hlength
      simp only [List.length_drop, List.length_append] at hlength
      have hle : name.length ≤ (value ++ text).length := by
        rw [List.length_append]
        omega
      refine ⟨(value ++ text).drop name.length, ?_⟩
      intro later
      rw [leftOfVariable, hvalue]
      simp only [← List.append_assoc]
      exact List.drop_append_of_le_length hle

/-- As long as more is left than `rest`, the loop looks at no more of it than its first
character. -/
private theorem leftAfter_append (hrest : Closed rest) (htext : text ≠ [])
    (hlength : rest.length < (leftAfter data (text ++ rest)).length) :
    ∃ left, ∀ later, Closed later → (rest.head? = some '?' ↔ later.head? = some '?') →
      leftAfter data (text ++ later) = left ++ later := by
  cases text with
  | nil => exact absurd rfl htext
  | cons c text =>
      rw [List.cons_append, leftAfter] at hlength
      by_cases hc : c = '$'
      · rw [if_neg (not_not.mpr hc)] at hlength
        have hheads : ∀ later : Str, (rest.head? = some '?' ↔ later.head? = some '?') →
            ((text ++ rest).head? = some '?' ↔ (text ++ later).head? = some '?') := by
          intro later hsame
          cases text with
          | nil => exact hsame
          | cons d text => rfl
        by_cases hstatus : (text ++ rest).head? = some '?'
        · rw [if_pos hstatus] at hlength
          cases text with
          | nil =>
              rw [List.nil_append, List.length_tail] at hlength
              omega
          | cons d text =>
              refine ⟨text, ?_⟩
              intro later hlater hsame
              rw [List.cons_append, leftAfter, if_neg (not_not.mpr hc),
                if_pos ((hheads later hsame).mp hstatus), List.cons_append, List.tail_cons]
        · obtain ⟨htake, hdrop⟩ := takeWhile_append hrest text
          rw [if_neg hstatus, htake, hdrop] at hlength
          obtain ⟨left, hleft⟩ := leftOfVariable_append hlength
          refine ⟨left, ?_⟩
          intro later hlater hsame
          obtain ⟨htake', hdrop'⟩ := takeWhile_append hlater text
          rw [List.cons_append, leftAfter, if_neg (not_not.mpr hc),
            if_neg fun h => hstatus ((hheads later hsame).mpr h), htake', hdrop']
          exact hleft later
      · refine ⟨text, ?_⟩
        intro later _ _
        rw [List.cons_append, leftAfter, if_pos hc]

private theorem iterate_leftAfter_append (hrest : Closed rest) (n : ℕ) (htext : text ≠ [])
    (hlength : ∀ k ≤ n, rest.length < ((leftAfter data)^[k] (text ++ rest)).length) :
    ∃ left, ∀ later, Closed later → (rest.head? = some '?' ↔ later.head? = some '?') →
      (leftAfter data)^[n] (text ++ later) = left ++ later := by
  induction n generalizing text with
  | zero => exact ⟨text, fun later _ _ => rfl⟩
  | succ n ih =>
      have hnext := hlength 1 (by omega)
      obtain ⟨left, hleft⟩ := leftAfter_append hrest htext hnext
      have heq := hleft rest hrest Iff.rfl
      have hne : left ≠ [] := by
        rintro rfl
        rw [Function.iterate_one, heq] at hnext
        exact absurd hnext (lt_irrefl _)
      have hfar : ∀ k ≤ n, rest.length < ((leftAfter data)^[k] (left ++ rest)).length := by
        intro k hk
        have hlater := hlength (k + 1) (by omega)
        rwa [Function.iterate_succ_apply, heq] at hlater
      obtain ⟨last, hlast⟩ := ih hne hfar
      refine ⟨last, ?_⟩
      intro later hlater hsame
      rw [Function.iterate_succ_apply, hleft later hlater hsame]
      exact hlast later hlater hsame

end Fronts

section Recurrences

variable {data : Data} {message text : Str}

private theorem iterate_nil (n : ℕ) : (leftAfter data)^[n] [] = [] :=
  Function.iterate_fixed rfl n

/-- A variable that comes up again does so whatever stands behind it, and adds to that. -/
private theorem ComesUpAgain.exists_more (h : ComesUpAgain data text) : ∃ name more n, 0 < n ∧
    text = '$' :: name ++ behindVariable text ∧ Closed (behindVariable text) ∧
      ∀ later, Closed later →
        ((behindVariable text).head? = some '?' ↔ later.head? = some '?') →
        (leftAfter data)^[n] ('$' :: name ++ later) = '$' :: name ++ (more ++ later) ∧
          Closed (more ++ later) ∧
          ((behindVariable text).head? = some '?' ↔ (more ++ later).head? = some '?') := by
  obtain ⟨hvariable, n, hpos, hfront, hlength⟩ := h
  obtain ⟨name, hname⟩ := Option.ne_none_iff_exists'.mp hvariable
  obtain ⟨hnext, hstatus⟩ := Prod.mk.inj hfront
  rw [hname] at hnext
  have hclosed : Closed (behindVariable text) := closed_dropWhile text.tail
  have hclosed' : Closed (behindVariable ((leftAfter data)^[n] text)) := closed_dropWhile _
  have hsplit := text_of_variableAt hname
  have hsplit' := text_of_variableAt hnext
  have hlong : ∀ k ≤ n, (behindVariable text).length <
      ((leftAfter data)^[k] ('$' :: name ++ behindVariable text)).length := by
    intro k hk
    have hsize := congrArg List.length hsplit
    have hle := hlength k hk
    rw [List.length_append, List.length_cons] at hsize
    rw [← hsplit]
    omega
  obtain ⟨left, hleft⟩ := iterate_leftAfter_append hclosed n (List.cons_ne_nil '$' name) hlong
  have heq := hleft _ hclosed Iff.rfl
  rw [← hsplit] at heq
  obtain ⟨more, rfl⟩ : ∃ more, left = '$' :: name ++ more := by
    have hprefix : '$' :: name <+: left ++ behindVariable text := by
      rw [← heq]
      exact ⟨_, hsplit'.symm⟩
    have hshort : ('$' :: name).length ≤ left.length := by
      have hsize := congrArg List.length hsplit
      have hle := hlength n (le_refl n)
      rw [heq, List.length_append] at hle
      rw [List.length_append] at hsize
      omega
    obtain ⟨more, hmore⟩ := List.prefix_of_prefix_length_le hprefix (List.prefix_append left _) hshort
    exact ⟨more, hmore.symm⟩
  have hbehind : behindVariable ((leftAfter data)^[n] text) = more ++ behindVariable text := by
    rw [hsplit', List.append_assoc] at heq
    exact List.append_cancel_left heq
  refine ⟨name, more, n, hpos, hsplit, hclosed, ?_⟩
  intro later hlater hsame
  rw [hleft later hlater hsame, List.append_assoc]
  refine ⟨rfl, ?_⟩
  cases more with
  | nil => exact ⟨hlater, hsame⟩
  | cons c more =>
      rw [hbehind] at hclosed' hstatus
      refine ⟨hclosed', ?_⟩
      have hiff := Bool.eq_iff_iff.mp hstatus
      rw [beq_iff_eq, beq_iff_eq] at hiff
      exact hiff.symm

/-- A variable that comes up again does so for ever. -/
private theorem ComesUpAgain.iterate_ne_nil (h : ComesUpAgain data text) (k : ℕ) :
    (leftAfter data)^[k] text ≠ [] := by
  obtain ⟨name, more, n, hpos, hsplit, hclosed, hround⟩ := h.exists_more
  have hrounds : ∀ m, ∃ later, Closed later ∧
      ((behindVariable text).head? = some '?' ↔ later.head? = some '?') ∧
      (leftAfter data)^[n * m] text = '$' :: name ++ later := by
    intro m
    induction m with
    | zero => exact ⟨behindVariable text, hclosed, Iff.rfl, hsplit⟩
    | succ m ih =>
        obtain ⟨later, hlater, hsame, hm⟩ := ih
        obtain ⟨hnext, hclosed, hstatus⟩ := hround later hlater hsame
        refine ⟨more ++ later, hclosed, hstatus, ?_⟩
        rw [Nat.mul_succ, Nat.add_comm, Function.iterate_add_apply, hm, hnext]
  intro hk
  obtain ⟨later, -, -, hm⟩ := hrounds k
  have hle : k ≤ n * k := Nat.le_mul_of_pos_left k hpos
  obtain ⟨rounds, hrounds⟩ := Nat.exists_eq_add_of_le' hle
  rw [hrounds, Function.iterate_add_apply, hk, iterate_nil] at hm
  cases hm

/-- What a lookup finds begins with the key. -/
private theorem key_of_valueFinder {key value : Str} {envp : List Str}
    (h : valueFinder key envp = some value) : ∃ entry ∈ envp, key <+: entry := by
  rw [valueFinder] at h
  cases hsearch : keyAlreadyPresent key envp with
  | none =>
      rw [hsearch] at h
      cases h
  | some pos =>
      obtain ⟨entry, hentry, hstart, -⟩ := keyAlreadyPresent_some hsearch
      exact ⟨entry, List.mem_of_getElem? hentry, hstart⟩

/-- The fronts with a variable that has a value, and those of its prefixes. -/
private def fronts (envp : List Str) : Set (Option Str × Bool) :=
  {name | name ∈ (envp.flatMap List.inits).map some} ×ˢ Set.univ

private theorem fronts_finite (envp : List Str) : (fronts envp).Finite :=
  (List.finite_toSet _).prod Set.finite_univ

/-- Where no variable comes up again the text comes to its end: only finitely many variables
have a value. -/
private theorem exists_iterate_nil
    (honce : ∀ n, ¬ComesUpAgain data ((leftAfter data)^[n] message)) :
    ∃ n, (leftAfter data)^[n] message = [] := by
  by_contra hnever
  have hne : ∀ n, (leftAfter data)^[n] message ≠ [] := fun n hn => hnever ⟨n, hn⟩
  have hvalued : ∀ n, StaysAbove (fun i => ((leftAfter data)^[i] message).length) n →
      ∃ name, variableAt ((leftAfter data)^[n] message) = some name ∧
        ∃ entry ∈ data.envp, name ++ ['='] <+: entry := by
    intro n hstays
    have hlength : ((leftAfter data)^[n] message).length ≤
        ((leftAfter data)^[n + 1] message).length := hstays (n + 1) (Nat.le_succ n)
    rw [Function.iterate_succ_apply'] at hlength
    obtain ⟨name, value, hname, hvalue⟩ := length_leftAfter (hne n) hlength
    exact ⟨name, hname, key_of_valueFinder hvalue⟩
  have hfronts : ∀ n, StaysAbove (fun i => ((leftAfter data)^[i] message).length) n →
      front ((leftAfter data)^[n] message) ∈ fronts data.envp := by
    intro n hstays
    obtain ⟨name, hname, entry, hentry, hstart⟩ := hvalued n hstays
    have hinit : name ∈ entry.inits :=
      (List.mem_inits name entry).mpr ((List.prefix_append name ['=']).trans hstart)
    refine ⟨?_, Set.mem_univ _⟩
    change variableAt ((leftAfter data)^[n] message) ∈ (data.envp.flatMap List.inits).map some
    rw [hname]
    exact List.mem_map_of_mem (List.mem_flatMap.mpr ⟨entry, hentry, hinit⟩)
  obtain ⟨i, j, hlt, hfront, hstays⟩ := exists_return (fronts_finite data.envp) hfronts
  obtain ⟨name, hname, -⟩ := hvalued i hstays
  obtain ⟨more, rfl⟩ := Nat.exists_eq_add_of_lt hlt
  apply honce i
  refine ⟨?_, more + 1, Nat.succ_pos more, ?_, ?_⟩
  · rw [hname]
    exact Option.some_ne_none name
  · rw [← Function.iterate_add_apply, Nat.add_comm, ← Nat.add_assoc]
    exact hfront.symm
  · intro k _
    rw [← Function.iterate_add_apply]
    exact hstays (k + i) (Nat.le_add_left i k)

/-- A text whose end the loop comes to, over fronts that fit only. -/
private def Ends (data : Data) (message : Str) : Prop :=
  ∃ n, (leftAfter data)^[n] message = [] ∧ ∀ k < n, Fits data ((leftAfter data)^[k] message)

private theorem Ends.fits (h : Ends data message) (hne : message ≠ []) : Fits data message := by
  obtain ⟨n, hend, hfits⟩ := h
  cases n with
  | zero => exact absurd hend hne
  | succ n => exact hfits 0 (Nat.succ_pos n)

private theorem ends_iff_settles : Ends data message ↔ Settles data message := by
  constructor
  · rintro ⟨n, hend, hfits⟩
    have hnil : ∀ k, n ≤ k → (leftAfter data)^[k] message = [] := by
      intro k hk
      obtain ⟨more, rfl⟩ := Nat.exists_eq_add_of_le' hk
      rw [Function.iterate_add_apply, hend, iterate_nil]
    constructor
    · intro k
      by_cases hk : k < n
      · exact hfits k hk
      · rw [hnil k (Nat.le_of_not_lt hk)]
        rintro name ⟨⟩
    · intro k hagain
      apply hagain.iterate_ne_nil n
      rw [← Function.iterate_add_apply]
      exact hnil (n + k) (Nat.le_add_right n k)
  · intro hsettles
    obtain ⟨n, hn⟩ := exists_iterate_nil hsettles.once
    exact ⟨n, hn, fun k _ => hsettles.fits k⟩

end Recurrences

section Rounds

variable {data : Data}

private theorem pass_plain (text : Str) : ∀ out rest, '$' ∉ text →
    ReflTransGen (Step data) (out ++ (text ++ rest), out.length)
      (out ++ text ++ rest, (out ++ text).length) := by
  induction text with
  | nil =>
      intro out rest _
      rw [List.append_nil, List.nil_append]
  | cons c text ih =>
      intro out rest hplain
      obtain ⟨hc, hplain⟩ := not_or.mp (mt List.mem_cons.mpr hplain)
      have hround : dollarRound data (out ++ c :: (text ++ rest), out.length) =
          .ok (out ++ c :: (text ++ rest), out.length + 1) := by
        rw [dollarRound_at, if_neg (Ne.symm hc)]
      have hlater := ih (out ++ [c]) rest hplain
      rw [List.append_assoc, List.append_assoc out [c] text, List.length_append,
        List.length_singleton] at hlater
      exact ReflTransGen.head (step_at hround) hlater

/-- One round on a variable that fits. -/
private theorem round_variable (out : Str) {rest : Str} (hstatus : rest.head? ≠ some '?')
    (hfits : Fits data ('$' :: rest)) :
    ∃ out', Step data (out ++ '$' :: rest, out.length)
      (out' ++ leftOfVariable data (rest.takeWhile isNameChar) (rest.dropWhile isNameChar),
        out'.length) := by
  obtain ⟨hlength, hvalues⟩ := hfits (rest.takeWhile isNameChar)
    (variableAt_eq_some.mpr ⟨rest, rfl, hstatus, rfl⟩)
  have hround := step_at (@dollarRound_lookup data out rest hstatus hlength)
  rw [drop_length_takeWhile] at hround
  rw [leftOfVariable]
  cases hvalue : valueFinder (rest.takeWhile isNameChar ++ ['=']) data.envp with
  | none =>
      rw [hvalue] at hround
      refine ⟨out ++ '$' :: rest.takeWhile isNameChar, ?_⟩
      rw [List.append_assoc, List.cons_append, List.takeWhile_append_dropWhile,
        List.length_append, List.length_cons, Nat.add_comm _ 1, ← Nat.add_assoc]
      exact hround
  | some value =>
      rw [hvalue] at hround
      have hle := hvalues value hvalue
      rw [behindVariable, List.tail_cons] at hle
      refine ⟨out ++ '$' :: (value ++ rest.dropWhile isNameChar).take
        (rest.takeWhile isNameChar).length, ?_⟩
      rw [List.append_assoc, List.cons_append, List.take_append_drop, List.length_append,
        List.length_cons, List.length_take_of_le hle, Nat.add_comm _ 1, ← Nat.add_assoc]
      exact hround

/-- From the place that the index is at, the loop comes to where it is done with what
stands there. -/
private theorem rounds_leftAfter (out : Str) {text : Str} (htext : text ≠ [])
    (hfits : Fits data text) :
    ∃ out', TransGen (Step data) (out ++ text, out.length)
      (out' ++ leftAfter data text, out'.length) := by
  cases text with
  | nil => exact absurd rfl htext
  | cons c rest =>
      rw [leftAfter]
      by_cases hc : c = '$'
      · subst hc
        rw [if_neg (by simp)]
        by_cases hstatus : rest.head? = some '?'
        · obtain ⟨later, rfl⟩ := List.head?_eq_some_iff.mp hstatus
          obtain ⟨d, digits, hdigits⟩ := List.exists_cons_of_ne_nil (ftItoa_ne_nil data.exitStatus)
          have hplain := @dollar_not_mem_ftItoa data.exitStatus
          rw [hdigits, List.mem_cons, not_or] at hplain
          have hround := step_at (@dollarRound_status data out later)
          have hpass := @pass_plain data digits (out ++ [d]) later hplain.2
          rw [hdigits, List.cons_append] at hround
          rw [List.append_assoc, List.length_append, List.length_singleton] at hpass
          rw [if_pos hstatus]
          exact ⟨out ++ [d] ++ digits, TransGen.head' hround hpass⟩
        · obtain ⟨out', hround⟩ := round_variable out hstatus hfits
          rw [if_neg hstatus]
          exact ⟨out', TransGen.single hround⟩
      · rw [if_pos hc]
        refine ⟨out ++ [c], TransGen.single ?_⟩
        rw [List.append_assoc, List.length_append, List.length_singleton]
        apply step_at
        rw [dollarRound_at, if_neg hc]
        rfl

/-- Where the front does not fit the loop fails, here or in the next round. -/
private theorem fails_of_not_fits (out : Str) {text : Str} (hfits : ¬Fits data text) :
    dollarRound data (out ++ text, out.length) = .error .nameTooLong ∨
      ∃ next, Step data (out ++ text, out.length) next ∧
        dollarRound data next = .error .pastEnd ∧ next.2 ≠ next.1.length := by
  rw [Fits] at hfits
  push Not at hfits
  obtain ⟨name, hname, hshort⟩ := hfits
  obtain ⟨rest, rfl, hstatus, rfl⟩ := variableAt_eq_some.mp hname
  by_cases hlength : (rest.takeWhile isNameChar).length ≤ 254
  · obtain ⟨value, hvalue, hshort⟩ := hshort hlength
    have hround := step_at (@dollarRound_lookup data out rest hstatus hlength)
    rw [Option.mem_def] at hvalue
    rw [drop_length_takeWhile, hvalue] at hround
    rw [behindVariable, List.tail_cons] at hshort
    have hpast : (out ++ '$' :: (value ++ rest.dropWhile isNameChar)).length <
        out.length + 1 + (rest.takeWhile isNameChar).length := by
      rw [List.length_append, List.length_cons]
      omega
    refine Or.inr ⟨_, hround, ?_, (ne_of_lt hpast).symm⟩
    rw [dollarRound, List.getElem?_eq_none (le_of_lt hpast)]
  · apply Or.inl
    have hdrop := drop_behind out rest '$' 0
    rw [Nat.add_zero, List.drop_zero] at hdrop
    rw [dollarRound_at, if_pos rfl, if_neg hstatus, replaceVariable, extractVarName, hdrop,
      if_neg (by omega)]
    rfl

/-- A loop that returns has come through the text to its end. -/
private theorem ends_of_run (fuel : ℕ) (out text : Str) {final : Str × ℕ}
    (hrun : boundedWhile .outOfFuel (fun s : Str × Nat => s.2 != s.1.length) (dollarRound data)
      fuel (out ++ text, out.length) = .ok final) : Ends data text := by
  induction fuel using Nat.strong_induction_on generalizing out text with
  | _ fuel ih =>
      by_cases htext : text = []
      · subst htext
        exact ⟨0, rfl, fun k hk => absurd hk (Nat.not_lt_zero k)⟩
      · by_cases hfits : Fits data text
        · obtain ⟨out', hrounds⟩ := rounds_leftAfter out htext hfits
          obtain ⟨less, hless, hlater⟩ := boundedWhile_later hrounds hrun
          obtain ⟨n, hend, hall⟩ := ih less hless out' _ hlater
          refine ⟨n + 1, hend, ?_⟩
          intro k hk
          cases k with
          | zero => exact hfits
          | succ k => exact hall k (by omega)
        · rcases @fails_of_not_fits data out text hfits with hfault | ⟨next, hround, hfault, hpast⟩
          · have hinside : out.length ≠ (out ++ text).length := by
              have hpos := List.length_pos_iff.mpr htext
              rw [List.length_append]
              omega
            obtain ⟨next, hnext⟩ := boundedWhile_body hrun (bne_iff_ne.mpr hinside)
            rw [hfault] at hnext
            cases hnext
          · obtain ⟨less, -, hlater⟩ := boundedWhile_later (TransGen.single hround) hrun
            obtain ⟨last, hlast⟩ := boundedWhile_body hlater (bne_iff_ne.mpr hpast)
            rw [hfault] at hlast
            cases hlast

private theorem rounds_of_ends {text : Str} (h : Ends data text) : ∀ out, ∃ final : Str,
    ReflTransGen (Step data) (out ++ text, out.length) (final, final.length) := by
  obtain ⟨n, hend, hfits⟩ := h
  induction n generalizing text with
  | zero =>
      obtain rfl : text = [] := hend
      intro out
      rw [List.append_nil]
      exact ⟨out, .refl⟩
  | succ n ih =>
      intro out
      by_cases htext : text = []
      · subst htext
        rw [List.append_nil]
        exact ⟨out, .refl⟩
      · obtain ⟨out', hrounds⟩ := rounds_leftAfter out htext (hfits 0 (Nat.succ_pos n))
        obtain ⟨final, hlater⟩ := ih hend (fun k hk => hfits (k + 1) (by omega)) out'
        exact ⟨final, hrounds.to_reflTransGen.trans hlater⟩

private theorem dollarRound_isOk {s : Str × ℕ} {c : Char} (hc : s.1[s.2]? = some c) :
    (∃ next, dollarRound data s = .ok next) ↔
      (c = '$' → s.1[s.2 + 1]? ≠ some '?' → ∃ found, extractVarName s.1 (s.2 + 1) = .ok found) := by
  rw [dollarRound, hc]
  by_cases hdollar : c = '$'
  · by_cases hstatus : s.1[s.2 + 1]? = some '?'
    · simp [hdollar, hstatus]
    · cases hextract : extractVarName s.1 (s.2 + 1) with
      | error e => simp [hdollar, hstatus, replaceVariable, hextract, Except.map]
      | ok found => simp [hdollar, hstatus, replaceVariable, hextract, Except.map]
  · simp [hdollar]

theorem ends_of_expandsSafely {message : Str} (h : ExpandsSafely data message) :
    Ends data message := by
  obtain ⟨⟨enough, hends⟩, hinside, hroom⟩ := h
  have hfuel := hends enough (le_refl enough)
  rw [checkDollarSign] at hfuel
  cases hrun : boundedWhile .outOfFuel (fun s : Str × Nat => s.2 != s.1.length)
      (dollarRound data) enough (message, 0) with
  | ok final => exact ends_of_run enough [] message hrun
  | error e =>
      rcases boundedWhile_error hrun with rfl | ⟨last, hrounds, hcond, hfault⟩
      · rw [hrun] at hfuel
        exact absurd rfl hfuel
      · have hlt : last.2 < last.1.length :=
          lt_of_le_of_ne (hinside last hrounds) (bne_iff_ne.mp hcond)
        have hc := List.getElem?_eq_getElem hlt
        have hextract : last.1[last.2] = '$' → last.1[last.2 + 1]? ≠ some '?' →
            ∃ found, extractVarName last.1 (last.2 + 1) = .ok found := by
          intro hdollar hstatus
          rw [hdollar] at hc
          exact hroom last hrounds hc hstatus
        obtain ⟨next, hnext⟩ := (@dollarRound_isOk data last _ hc).mpr hextract
        rw [hfault] at hnext
        cases hnext

/-- Rounds are deterministic, so that every state is on the way to the last one. -/
private theorem on_the_way {start s : Str × ℕ} {final : Str}
    (hrounds : ReflTransGen (Step data) start (final, final.length))
    (hs : ReflTransGen (Step data) start s) :
    s = (final, final.length) ∨ ∃ next, Step data s next := by
  have hunique : Relator.RightUnique (Step data) := by
    rintro s next next' ⟨-, hnext⟩ ⟨-, hnext'⟩
    rw [hnext] at hnext'
    exact Except.ok.inj hnext'
  have hlast : ReflTransGen (Step data) s (final, final.length) := by
    rcases ReflTransGen.total_of_right_unique hunique hs hrounds with hlast | hback
    · exact hlast
    · rcases ReflTransGen.cases_head hback with heq | ⟨next, ⟨hcond, -⟩, -⟩
      · rw [heq]
      · exact absurd rfl (bne_iff_ne.mp hcond)
  rcases ReflTransGen.cases_head hlast with heq | ⟨next, hnext, -⟩
  · exact Or.inl heq
  · exact Or.inr ⟨next, hnext⟩

private theorem lt_of_step {s next : Str × ℕ} (h : Step data s next) : s.2 < s.1.length := by
  obtain ⟨-, hround⟩ := h
  by_contra hle
  rw [dollarRound, List.getElem?_eq_none (Nat.le_of_not_lt hle)] at hround
  cases hround

theorem expandsSafely_of_ends {message : Str} (h : Ends data message) :
    ExpandsSafely data message := by
  obtain ⟨final, hrounds⟩ := rounds_of_ends h []
  rw [List.nil_append, List.length_nil] at hrounds
  constructor
  · obtain ⟨enough, hrun⟩ := boundedWhile_of_rounds Fault.outOfFuel hrounds (by simp)
    refine ⟨enough, ?_⟩
    intro fuel hfuel
    rw [checkDollarSign, hrun fuel hfuel]
    intro heq
    cases heq
  · intro s hs
    rcases on_the_way hrounds hs with rfl | ⟨next, hnext⟩
    · exact le_refl _
    · exact le_of_lt (lt_of_step hnext)
  · intro s hs hdollar hstatus
    rcases on_the_way hrounds hs with rfl | ⟨next, hnext⟩
    · simp at hdollar
    · exact (@dollarRound_isOk data s '$' hdollar).mp ⟨next, hnext.2⟩ rfl hstatus

end Rounds

end FortyTwo.Minishell
