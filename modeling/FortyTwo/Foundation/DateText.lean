import FortyTwo.Foundation.Numerals
import Mathlib.Data.Char
import Mathlib.Data.List.Lex
import Mathlib.Data.Prod.Lex

/-!
Dates written with four digits for the year and two for the month and the day: the order of the
texts is that of the dates.
-/

namespace FortyTwo.Foundation

section Digits

theorem decimal_cons (c : Char) (digits : List Char) :
    decimal (c :: digits) = digitValue c * 10 ^ digits.length + decimal digits := by
  rw [decimal, Nat.ofDigitChars_cons, Nat.ofDigitChars_eq_ofDigitChars_zero]
  have hvalue : 10 * 0 + (c.toNat - '0'.toNat) = digitValue c := by
    rw [Nat.mul_zero, Nat.zero_add]
    rfl
  rw [hvalue, Nat.mul_comm]
  rfl

theorem decimal_lt {digits : List Char} (h : ∀ c ∈ digits, c.isDigit = true) :
    decimal digits < 10 ^ digits.length := by
  induction digits with
  | nil => decide
  | cons c digits ih =>
      obtain ⟨hc, hdigits⟩ := List.forall_mem_cons.mp h
      have hlt := digitValue_lt hc
      have hrest := ih hdigits
      have hmul : digitValue c * 10 ^ digits.length ≤ 9 * 10 ^ digits.length :=
        Nat.mul_le_mul_right _ (by omega)
      rw [decimal_cons, List.length_cons, Nat.pow_succ]
      omega

theorem digit_lt_iff {c d : Char} (hc : c.isDigit = true) (hd : d.isDigit = true) :
    c < d ↔ digitValue c < digitValue d := by
  have hlec := (Char.isDigit_iff_toNat.mp hc).1
  have hled := (Char.isDigit_iff_toNat.mp hd).1
  change c.toNat < d.toNat ↔ _
  rw [digitValue, digitValue]
  omega

/-- Behind as many digits the order of two texts is that of their numbers, and then that of what
follows. -/
theorem append_lt_append_iff {first second : List Char} (hfirst : ∀ c ∈ first, c.isDigit = true)
    (hsecond : ∀ c ∈ second, c.isDigit = true) (hlength : first.length = second.length)
    (more more' : List Char) : first ++ more < second ++ more' ↔
      decimal first < decimal second ∨ decimal first = decimal second ∧ more < more' := by
  induction first generalizing second with
  | nil =>
      obtain rfl := List.length_eq_zero_iff.mp hlength.symm
      simp
  | cons c first ih =>
      have hpos : 0 < second.length := hlength ▸ Nat.succ_pos first.length
      obtain ⟨d, second, rfl⟩ := List.exists_cons_of_length_pos hpos
      obtain ⟨hc, hfirst⟩ := List.forall_mem_cons.mp hfirst
      obtain ⟨hd, hsecond⟩ := List.forall_mem_cons.mp hsecond
      have hlength' : first.length = second.length := Nat.succ_injective hlength
      have hlt := decimal_lt hfirst
      have hlt' := decimal_lt hsecond
      rw [hlength'] at hlt
      rw [List.cons_append, List.cons_append, List.cons_lt_cons_iff, ih hfirst hsecond hlength',
        digit_lt_iff hc hd, decimal_cons, decimal_cons, hlength']
      rcases lt_trichotomy (digitValue c) (digitValue d) with hless | heq | hmore
      · have hmul : (digitValue c + 1) * 10 ^ second.length ≤ digitValue d * 10 ^ second.length :=
          Nat.mul_le_mul_right _ hless
        rw [Nat.succ_mul] at hmul
        exact iff_of_true (Or.inl hless) (Or.inl (by omega))
      · obtain rfl := digitValue_injective hc hd heq
        simp
      · have hmul : (digitValue d + 1) * 10 ^ second.length ≤ digitValue c * 10 ^ second.length :=
          Nat.mul_le_mul_right _ hmore
        rw [Nat.succ_mul] at hmul
        apply iff_of_false
        · rintro (hless | ⟨rfl, -⟩)
          · omega
          · exact lt_irrefl _ hmore
        · rintro (hless | ⟨heq, -⟩)
          · omega
          · omega

end Digits

structure Date where
  year : List Char
  month : List Char
  day : List Char
  length_year : year.length = 4
  length_month : month.length = 2
  length_day : day.length = 2
  digits_year : ∀ c ∈ year, c.isDigit = true
  digits_month : ∀ c ∈ month, c.isDigit = true
  digits_day : ∀ c ∈ day, c.isDigit = true

namespace Date

def text (date : Date) : List Char := date.year ++ '-' :: (date.month ++ '-' :: date.day)

/-- The year first, then the month, then the day. -/
def order (date : Date) : ℕ ×ₗ ℕ ×ₗ ℕ :=
  toLex (decimal date.year, toLex (decimal date.month, decimal date.day))

theorem text_lt_iff (first second : Date) : first.text < second.text ↔ first.order < second.order := by
  have hdays := append_lt_append_iff first.digits_day second.digits_day
    (first.length_day.trans second.length_day.symm) [] []
  rw [List.append_nil, List.append_nil] at hdays
  rw [text, text, append_lt_append_iff first.digits_year second.digits_year
      (first.length_year.trans second.length_year.symm), List.cons_lt_cons_iff,
    append_lt_append_iff first.digits_month second.digits_month
      (first.length_month.trans second.length_month.symm), List.cons_lt_cons_iff, hdays, order,
    order, Prod.Lex.toLex_lt_toLex, Prod.Lex.toLex_lt_toLex]
  simp

theorem text_le_iff (first second : Date) :
    first.text ≤ second.text ↔ first.order ≤ second.order := by
  rw [← not_lt, ← not_lt, text_lt_iff]

end Date

end FortyTwo.Foundation
