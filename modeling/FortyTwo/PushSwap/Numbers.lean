import Mathlib.Data.List.TakeWhile
import FortyTwo.PushSwap.Parser

/-!
What the arguments should stand for, and that the parser reads exactly that: the
words are compared as texts, which agrees with comparing their values.
-/

namespace FortyTwo.PushSwap

open Foundation

inductive Sign where
  | none
  | plus
  | minus
  deriving DecidableEq, Repr

namespace Sign

def text : Sign → Str
  | none => []
  | plus => ['+']
  | minus => ['-']

def apply (sign : Sign) (n : Nat) : Int :=
  match sign with
  | none | plus => n
  | minus => -n

end Sign

/-- An optional sign and at least one digit. -/
structure Numeral where
  sign : Sign
  digits : Str
  digits_ne : digits ≠ []
  digits_digit : ∀ c ∈ digits, c.isDigit = true

namespace Numeral

def text (n : Numeral) : Str := n.sign.text ++ n.digits

def value (n : Numeral) : Int := n.sign.apply (decimal n.digits)

/-- A zero with a minus sign. -/
def NegativeZero (n : Numeral) : Prop := n.sign = .minus ∧ n.value = 0

end Numeral

/-- One argument is a list of words, more are the words themselves. -/
def wordsOf (argv : List Str) : List Str :=
  match argv with
  | [argument] => words ' ' argument
  | argv => argv

def InRange (value : Int) : Prop := intMin ≤ value ∧ value ≤ intMax

instance : DecidablePred InRange := fun _ => inferInstanceAs (Decidable (_ ∧ _))

/-- The words are the numerals, of different `int`s. -/
structure Spells (words : List Str) (numerals : List Numeral) : Prop where
  words_eq : words = numerals.map Numeral.text
  inRange : ∀ n ∈ numerals, InRange n.value
  distinct : (numerals.map Numeral.value).Nodup

/-- A single argument begins with a word. -/
def BeginsWithWord (argv : List Str) : Prop :=
  ∀ argument, argv = [argument] → argument ≠ [] ∧ argument.head? ≠ some ' '

section Digits

private theorem le_ofDigitChars (digits : Str) (n : Nat) : n ≤ Nat.ofDigitChars 10 digits n := by
  induction digits generalizing n with
  | nil => simp
  | cons c rest ih =>
      rw [Nat.ofDigitChars_cons]
      have hle := ih (10 * n + (c.toNat - '0'.toNat))
      omega

/-- The loop stops at the first number that is too large; none behind it is smaller. -/
theorem digitsFrom_eq (minus : Int) (n : Nat) (hn : (n : Int) ≤ intMax) (str : Str) :
    digitsFrom minus n str =
      if (Nat.ofDigitChars 10 (str.takeWhile Char.isDigit) n : Int) ≤ intMax then
        some ((Nat.ofDigitChars 10 (str.takeWhile Char.isDigit) n : Int),
          str.dropWhile Char.isDigit)
      else none := by
  induction str generalizing n with
  | nil => simp [digitsFrom, hn]
  | cons c rest ih =>
      rw [digitsFrom]
      by_cases hc : c.isDigit = true
      · rw [if_pos hc, List.takeWhile_cons_of_pos hc, List.dropWhile_cons_of_pos hc,
          Nat.ofDigitChars_cons]
        have hnext : (n : Int) * 10 + digitValue c =
            ((10 * n + (c.toNat - '0'.toNat) : Nat) : Int) := by
          rw [digitValue]
          push_cast
          ring
        simp only [hnext]
        generalize 10 * n + (c.toNat - '0'.toNat) = next
        have hle := le_ofDigitChars (rest.takeWhile Char.isDigit) next
        by_cases hmax : (next : Int) ≤ intMax
        · have hfits : ¬((minus = -1 ∧ (next : Int) * -1 < intMin) ∨ (next : Int) > intMax) := by
            have hlow : intMin = -intMax - 1 := rfl
            omega
          rw [if_neg hfits, ih next hmax]
        · rw [if_pos (Or.inr (by omega)), if_neg (by omega)]
      · rw [if_neg hc, List.takeWhile_cons_of_neg hc, List.dropWhile_cons_of_neg hc,
          Nat.ofDigitChars_nil, if_pos hn]

end Digits

section Words

variable {word : Str} {n m : Numeral}

private theorem head?_digits (n : Numeral) {c : Char} (hc : c.isDigit = false) :
    n.digits.head? ≠ some c := by
  intro hhead
  have hdigit := n.digits_digit c (List.mem_of_head? hhead)
  rw [hc] at hdigit
  cases hdigit

private theorem head?_text (n : Numeral) : n.text.head? = some '-' ↔ n.sign = .minus := by
  rw [Numeral.text]
  cases n.sign with
  | none => simpa [Sign.text] using head?_digits n rfl
  | plus => simp [Sign.text]
  | minus => simp [Sign.text]

private theorem behind_sign (n : Numeral) :
    (if n.text.head? = some '-' ∨ n.text.head? = some '+' then n.text.tail else n.text) =
      n.digits := by
  rw [Numeral.text]
  cases n.sign with
  | none =>
      have hminus := head?_digits n (c := '-') rfl
      have hplus := head?_digits n (c := '+') rfl
      simp [Sign.text, hminus, hplus]
  | plus => simp [Sign.text]
  | minus => simp [Sign.text]

private theorem trimZero_text (n : Numeral) : trimZero n.text = n.digits.dropWhile (· == '0') := by
  have hbehind := behind_sign n
  simp only [or_comm (a := n.text.head? = some '-')] at hbehind
  rw [trimZero, hbehind]

/-- Two texts are the same if they agree in the minus sign and in the number. -/
theorem ftSame_text : ftSame n.text m.text = true ↔
    (n.sign = .minus ↔ m.sign = .minus) ∧ decimal n.digits = decimal m.digits := by
  rw [ftSame, Bool.and_eq_true, decide_eq_true_eq, beq_iff_eq, head?_text, head?_text,
    trimZero_text, trimZero_text]
  apply and_congr_right'
  constructor
  · intro h
    rw [← decimal_dropWhile, h, decimal_dropWhile]
  · intro h
    apply decimal_injective (stripped_dropWhile n.digits_digit) (stripped_dropWhile m.digits_digit)
    rw [decimal_dropWhile, decimal_dropWhile, h]

/-- For numerals without a minus in front of a zero, that is the value. -/
theorem ftSame_iff_value (hn : ¬n.NegativeZero) (hm : ¬m.NegativeZero) :
    ftSame n.text m.text = true ↔ n.value = m.value := by
  rw [ftSame_text]
  rw [Numeral.NegativeZero, Numeral.value] at hn hm
  rw [Numeral.value, Numeral.value]
  cases hsign : n.sign <;> cases hsign' : m.sign <;> rw [hsign] at hn <;> rw [hsign'] at hm <;>
    simp [Sign.apply] at hn hm ⊢ <;> omega

def intMinNumeral : Numeral where
  sign := .minus
  digits := "2147483648".toList
  digits_ne := by decide
  digits_digit := List.all_eq_true.mp (by decide)

theorem decimal_intMinNumeral : decimal intMinNumeral.digits = 2147483648 := by decide

/-- `-2147483648`, with zeros behind the sign. -/
theorem exists_of_ftSame_intMin (h : ftSame "-2147483648".toList word = true) :
    ∃ n : Numeral, n.text = word ∧ n.value = intMin := by
  rw [ftSame, Bool.and_eq_true, decide_eq_true_eq, beq_iff_eq] at h
  obtain ⟨hsign, htrim⟩ := h
  obtain ⟨rest, rfl⟩ := List.head?_eq_some_iff.mp (hsign.mp rfl)
  have hdigits : rest.dropWhile (· == '0') = intMinNumeral.digits := by
    exact htrim.symm
  have hzeros := List.takeWhile_append_dropWhile (p := (· == '0')) (l := rest)
  rw [hdigits] at hzeros
  refine ⟨⟨.minus, rest, ?_, ?_⟩, rfl, ?_⟩
  · rintro rfl
    cases hdigits
  · intro c hc
    rw [← hzeros] at hc
    rcases List.mem_append.mp hc with hzero | hdigit
    · have hc := List.mem_takeWhile_imp (p := (· == '0')) hzero
      rw [beq_iff_eq.mp hc]
      rfl
    · exact intMinNumeral.digits_digit c hdigit
  · have hvalue : decimal rest = 2147483648 := by
      rw [← decimal_dropWhile, hdigits, decimal_intMinNumeral]
    change -(decimal rest : Int) = intMin
    rw [hvalue]
    rfl

theorem ftAtoiCheck_text (hrange : InRange n.value) (hzero : ¬n.NegativeZero) :
    ftAtoiCheck n.text false = (n.value, false) := by
  have hnonempty : ¬(n.text = [] ∨ n.text = ['+']) := by
    have hne := n.digits_ne
    rw [Numeral.text]
    cases hsign : n.sign with
    | none =>
        have hplus := head?_digits n (c := '+') rfl
        simp only [Sign.text, List.nil_append, not_or]
        exact ⟨hne, fun heq => hplus (by rw [heq]; rfl)⟩
    | plus => simp [Sign.text, hne]
    | minus => simp [Sign.text]
  rw [ftAtoiCheck, if_neg hnonempty]
  split
  · next hmin =>
      have hsame := (ftSame_text (n := intMinNumeral)).mp hmin
      rw [decimal_intMinNumeral] at hsame
      have hsign : n.sign = .minus := hsame.1.mp rfl
      rw [Numeral.value, hsign, ← hsame.2]
      rfl
  · next hmin =>
      have hnot : ¬(n.sign = .minus ∧ decimal n.digits = 2147483648) := by
        rintro ⟨hsign, hvalue⟩
        apply hmin
        apply (ftSame_text (n := intMinNumeral)).mpr
        rw [decimal_intMinNumeral, hvalue]
        simp [hsign, intMinNumeral]
      have hmax : (decimal n.digits : Int) ≤ intMax := by
        rw [InRange, Numeral.value] at hrange
        have hlow : intMin = -intMax - 1 := rfl
        have hhigh : intMax = 2147483647 := rfl
        cases hsign : n.sign <;> simp only [hsign, Sign.apply, true_and, reduceCtorEq] at hrange hnot <;>
          omega
      have hall : n.digits.takeWhile Char.isDigit = n.digits :=
        List.takeWhile_eq_self_iff.mpr n.digits_digit
      have hnone : n.digits.dropWhile Char.isDigit = [] := by
        apply List.dropWhile_eq_nil_iff.mpr
        exact n.digits_digit
      have hloop := digitsFrom_eq (if n.text.head? = some '-' then -1 else 1) 0 (by decide) n.digits
      rw [hall, hnone, ← decimal, if_pos hmax] at hloop
      simp only [behind_sign, Bool.false_eq_true, if_false]
      rw [Nat.cast_zero] at hloop
      rw [hloop]
      rw [Numeral.NegativeZero, Numeral.value] at hzero
      simp only [head?_text, Numeral.value]
      cases hsign : n.sign <;> simp_all [Sign.apply]

/-- Every text is a sign and what stands behind it. -/
private theorem exists_sign (word : Str) : ∃ (sign : Sign) (digits : Str),
    word = sign.text ++ digits ∧ (word.head? = some '-' ↔ sign = .minus) ∧
      (if word.head? = some '-' ∨ word.head? = some '+' then word.tail else word) = digits := by
  cases word with
  | nil => exact ⟨.none, [], rfl, by simp, rfl⟩
  | cons c rest =>
      by_cases hminus : c = '-'
      · exact ⟨.minus, rest, by rw [hminus]; rfl, by simp [hminus], by simp [hminus]⟩
      by_cases hplus : c = '+'
      · exact ⟨.plus, rest, by rw [hplus]; rfl, by simp [hminus], by simp [hplus]⟩
      · exact ⟨.none, c :: rest, rfl, by simp [hminus], by simp [hminus, hplus]⟩

/-- The loop comes to the end of the text only over digits. -/
private theorem decimal_of_digitsFrom {minus res : Int} {digits : Str}
    (h : digitsFrom minus 0 digits = some (res, [])) :
    (∀ c ∈ digits, c.isDigit = true) ∧ res = decimal digits ∧ (decimal digits : Int) ≤ intMax := by
  have hloop := digitsFrom_eq minus 0 (by decide) digits
  rw [Nat.cast_zero, h] at hloop
  split at hloop
  · next hmax =>
      simp only [Option.some.injEq, Prod.mk.injEq] at hloop
      have hdigits := List.dropWhile_eq_nil_iff.mp hloop.2.symm
      rw [List.takeWhile_eq_self_iff.mpr hdigits] at hloop hmax
      exact ⟨hdigits, hloop.1, hmax⟩
  · cases hloop

/-- Only numerals pass. -/
theorem exists_of_ftAtoiCheck {value : Int} (h : ftAtoiCheck word false = (value, false)) :
    ∃ n : Numeral, n.text = word ∧ n.value = value ∧ InRange value ∧ ¬n.NegativeZero := by
  rw [ftAtoiCheck] at h
  split at h
  · cases h
  next hnonempty =>
  split at h
  · next hmin =>
      cases h
      obtain ⟨n, htext, hvalue⟩ := exists_of_ftSame_intMin hmin
      refine ⟨n, htext, hvalue, ⟨le_rfl, by decide⟩, ?_⟩
      rintro ⟨_, hzero⟩
      rw [hvalue] at hzero
      cases hzero
  obtain ⟨sign, digits, hword, hminus, hbehind⟩ := exists_sign word
  simp only [hbehind, Bool.false_eq_true, if_false] at h
  split at h
  · cases h
  next res rest hloop =>
  rw [Prod.mk.injEq, ite_eq_right_iff] at h
  obtain ⟨hvalue, hflag⟩ := h
  obtain rfl : rest = [] := by
    by_contra hne
    cases hflag (Or.inl hne)
  have hclean : ¬(res = 0 ∧ (if word.head? = some '-' then (-1 : Int) else 1) = -1) := by
    intro hzero
    cases hflag (Or.inr hzero)
  obtain ⟨hdigits, rfl, hmax⟩ := decimal_of_digitsFrom hloop
  have hne : digits ≠ [] := by
    rintro rfl
    rw [List.append_nil] at hword
    cases sign with
    | none => exact hnonempty (Or.inl hword)
    | plus => exact hnonempty (Or.inr hword)
    | minus => exact hclean ⟨rfl, if_pos (hminus.mpr rfl)⟩
  have hsame : sign.apply (decimal digits) = value := by
    rw [← hvalue]
    simp only [hminus]
    cases sign <;> simp [Sign.apply]
  refine ⟨⟨sign, digits, hne, hdigits⟩, hword.symm, hsame, ?_, ?_⟩
  · have hlow : intMin = -intMax - 1 := rfl
    rw [← hsame, InRange]
    cases sign <;> simp only [Sign.apply] <;> omega
  · rintro ⟨hsign, hzero⟩
    change sign = .minus at hsign
    subst hsign
    change -(decimal digits : Int) = 0 at hzero
    apply hclean
    exact ⟨by omega, if_pos (hminus.mpr rfl)⟩

end Words

section Lists

/-- The words stand for `int`s, none of them a zero with a minus. -/
def Plain (numerals : List Numeral) : Prop := ∀ n ∈ numerals, InRange n.value ∧ ¬n.NegativeZero

private theorem errorFree_text {earlier numerals : List Numeral} (hearlier : Plain earlier)
    (hnumerals : Plain numerals) (hnodup : (earlier.map Numeral.value).Nodup) :
    errorFree (earlier.map Numeral.text) (numerals.map Numeral.text) = true ↔
      ((earlier ++ numerals).map Numeral.value).Nodup := by
  induction numerals generalizing earlier with
  | nil => simpa [errorFree] using hnodup
  | cons n rest ih =>
      obtain ⟨⟨hrange, hzero⟩, hrest⟩ := List.forall_mem_cons.mp hnumerals
      have hany : (earlier.map Numeral.text).any (ftSame n.text) = true ↔
          n.value ∈ earlier.map Numeral.value := by
        rw [List.any_map, List.any_eq_true, List.mem_map]
        apply exists_congr
        intro m
        apply and_congr_right
        intro hm
        exact (ftSame_iff_value hzero (hearlier m hm).2).trans eq_comm
      rw [List.map_cons, errorFree, ftAtoiCheck_text hrange hzero, if_neg (by simp)]
      by_cases hdouble : n.value ∈ earlier.map Numeral.value
      · rw [if_pos (hany.mpr hdouble)]
        simp only [Bool.false_eq_true, false_iff, List.map_append, List.map_cons]
        intro hall
        exact (List.nodup_append.mp hall).2.2 n.value hdouble n.value List.mem_cons_self rfl
      · rw [if_neg (fun h => hdouble (hany.mp h))]
        have hearlier' : Plain (earlier ++ [n]) :=
          List.forall_mem_append.mpr ⟨hearlier, by simpa using ⟨hrange, hzero⟩⟩
        have hnodup' : ((earlier ++ [n]).map Numeral.value).Nodup := by
          rw [List.map_append, List.map_singleton]
          apply List.nodup_append.mpr
          refine ⟨hnodup, List.nodup_singleton _, ?_⟩
          rintro x hx y hy rfl
          exact hdouble (List.mem_singleton.mp hy ▸ hx)
        have hnext := ih hearlier' hrest hnodup'
        rw [List.map_append, List.map_singleton, List.append_assoc] at hnext
        exact hnext

/-- Every word that passes is a numeral. -/
private theorem exists_of_errorFree {earlier words : List Str} (h : errorFree earlier words = true) :
    ∃ numerals, numerals.map Numeral.text = words ∧ Plain numerals := by
  induction words generalizing earlier with
  | nil => exact ⟨[], rfl, nofun⟩
  | cons word rest ih =>
      rw [errorFree] at h
      split at h
      · cases h
      next hword =>
      split at h
      · cases h
      obtain ⟨numerals, htext, hplain⟩ := ih h
      have hcheck : ftAtoiCheck word false = ((ftAtoiCheck word false).1, false) :=
        Prod.ext rfl (by simpa using hword)
      obtain ⟨n, hn, hvalue, hrange, hzero⟩ := exists_of_ftAtoiCheck hcheck
      rw [← hvalue] at hrange
      exact ⟨n :: numerals, by rw [List.map_cons, hn, htext],
        List.forall_mem_cons.mpr ⟨⟨hrange, hzero⟩, hplain⟩⟩

theorem errorFree_iff (words : List Str) :
    errorFree [] words = true ↔ ∃ numerals, Spells words numerals ∧
      ∀ n ∈ numerals, ¬n.NegativeZero := by
  constructor
  · intro h
    obtain ⟨numerals, rfl, hplain⟩ := exists_of_errorFree h
    have hnodup := (@errorFree_text [] numerals nofun hplain List.nodup_nil).mp h
    exact ⟨numerals, ⟨rfl, fun n hn => (hplain n hn).1, hnodup⟩, fun n hn => (hplain n hn).2⟩
  · rintro ⟨numerals, ⟨rfl, hrange, hnodup⟩, hzero⟩
    have hplain : Plain numerals := fun n hn => ⟨hrange n hn, hzero n hn⟩
    exact (@errorFree_text [] numerals nofun hplain List.nodup_nil).mpr hnodup

/-- The nodes of the numbers, as `create_stack` leaves them. -/
def nodesOf (memory : Node) (values : List Int) : List Node :=
  values.map fun number => { memory with index := 0, number }

theorem createStack_text (memory : Node) {numerals : List Numeral} (h : Plain numerals) :
    createStack memory false (numerals.map Numeral.text) =
      some (nodesOf memory (numerals.map Numeral.value)) := by
  induction numerals with
  | nil => rfl
  | cons n rest ih =>
      obtain ⟨⟨hrange, hzero⟩, hrest⟩ := List.forall_mem_cons.mp h
      simp only [List.map_cons, createStack, ftAtoiCheck_text hrange hzero, ih hrest]
      rfl

end Lists

section Arguments

theorem parseWords_iff (memory : Node) (words : List Str) (stackA : List Node) :
    parseWords memory words = .ok stackA ↔
      ∃ numerals, Spells words numerals ∧ (∀ n ∈ numerals, ¬n.NegativeZero) ∧
        stackA = nodesOf memory (numerals.map Numeral.value) := by
  have hstack : ∀ numerals, Spells words numerals → (∀ n ∈ numerals, ¬n.NegativeZero) →
      createStack memory false words = some (nodesOf memory (numerals.map Numeral.value)) := by
    rintro numerals ⟨rfl, hrange, _⟩ hzero
    exact createStack_text memory fun n hn => ⟨hrange n hn, hzero n hn⟩
  rw [parseWords]
  constructor
  · intro h
    split at h
    · cases h
    next hfree =>
    obtain ⟨numerals, hspells, hzero⟩ := (errorFree_iff words).mp (by simpa using hfree)
    rw [hstack numerals hspells hzero] at h
    exact ⟨numerals, hspells, hzero, (Except.ok.inj h).symm⟩
  · rintro ⟨numerals, hspells, hzero, rfl⟩
    have hfree := (errorFree_iff words).mpr ⟨numerals, hspells, hzero⟩
    rw [if_neg (by simp [hfree]), hstack numerals hspells hzero]

/-- The program takes the arguments, and its stack `a` is this. -/
def Reads (memory : Node) (argv : List Str) (stackA : List Node) : Prop :=
  ftParse memory argv = .ok (stackA, stackA.length)

theorem reads_words (memory : Node) (argv : List Str) (stackA : List Node) :
    Reads memory argv stackA ↔
      BeginsWithWord argv ∧ parseWords memory (wordsOf argv) = .ok stackA := by
  have hlength : ∀ words, parseWords memory words = .ok stackA → words.length = stackA.length := by
    intro words h
    obtain ⟨numerals, ⟨rfl, _, _⟩, _, rfl⟩ := (parseWords_iff memory words stackA).mp h
    simp [nodesOf]
  have hmap : ∀ words : List Str,
      ((parseWords memory words).map fun stackA => (stackA, words.length)) =
        .ok (stackA, stackA.length) ↔ parseWords memory words = .ok stackA := by
    intro words
    constructor
    · intro h
      cases hparse : parseWords memory words with
      | error e =>
          rw [hparse] at h
          cases h
      | ok nodes =>
          rw [hparse] at h
          rw [(Prod.mk.inj (Except.ok.inj h)).1]
    · intro h
      rw [h, hlength words h]
      rfl
  unfold Reads BeginsWithWord
  rcases argv with _ | ⟨argument, _ | ⟨second, rest⟩⟩
  · simpa [ftParse, wordsOf] using hmap []
  · rw [ftParse]
    by_cases hblank : argument.head? = none ∨ argument.head? = some ' '
    · rw [if_pos hblank]
      simp only [reduceCtorEq, false_iff, not_and]
      intro hbegins
      obtain ⟨hne, hspace⟩ := hbegins argument rfl
      rcases hblank with hnone | hspace'
      · exact absurd (List.head?_eq_none_iff.mp hnone) hne
      · exact absurd hspace' hspace
    · rw [if_neg hblank, hmap]
      obtain ⟨hne, hspace⟩ := not_or.mp hblank
      rw [wordsOf, iff_and_self]
      rintro _ _ ⟨⟩
      exact ⟨fun hnil => hne (List.head?_eq_none_iff.mpr hnil), hspace⟩
  · rw [and_iff_right fun single hsingle => absurd hsingle (by simp)]
    exact hmap (argument :: second :: rest)

/-- What the program should do. -/
def ReadsNumerals : Prop :=
  ∀ memory argv stackA, argv ≠ [] → (Reads memory argv stackA ↔
    ∃ numerals, Spells (wordsOf argv) numerals ∧
      stackA = nodesOf memory (numerals.map Numeral.value))

/-- The arguments are taken exactly if they spell distinct `int`s, none of them a zero with
a minus, and a single argument begins with a word; the stack then holds them in order. -/
theorem reads_iff (memory : Node) (argv : List Str) (stackA : List Node) :
    Reads memory argv stackA ↔ BeginsWithWord argv ∧
      ∃ numerals, Spells (wordsOf argv) numerals ∧ (∀ n ∈ numerals, ¬n.NegativeZero) ∧
        stackA = nodesOf memory (numerals.map Numeral.value) := by
  rw [reads_words, parseWords_iff]

private def negativeZero : Numeral where
  sign := .minus
  digits := ['0']
  digits_ne := by decide
  digits_digit := List.all_eq_true.mp (by decide)

private def one : Numeral where
  sign := .none
  digits := ['1']
  digits_ne := by decide
  digits_digit := List.all_eq_true.mp (by decide)

/-- `-0 1` is refused. -/
theorem not_readsNumerals : ¬ReadsNumerals := by
  intro h
  have hspells : Spells (wordsOf ["-0".toList, "1".toList]) [negativeZero, one] :=
    ⟨rfl, by decide, by decide⟩
  have hreads := (h ⟨0, 0, 0, 0, 0, 0⟩ _ _ (by simp)).mpr ⟨_, hspells, rfl⟩
  rw [Reads] at hreads
  have hrefused : ftParse ⟨0, 0, 0, 0, 0, 0⟩ ["-0".toList, "1".toList] =
      .error (.exit "Error\n") := by decide
  rw [hrefused] at hreads
  cases hreads

end Arguments

end FortyTwo.PushSwap
