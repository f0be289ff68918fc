import Mathlib.Tactic

/-!
Decimal digits with zeros in front of them: they stand for what is left without the
zeros, and only for that.
-/

namespace FortyTwo.Foundation

/-- The number that decimal digits stand for. -/
def decimal (digits : List Char) : Nat := Nat.ofDigitChars 10 digits 0

def digitValue (c : Char) : Nat := c.toNat - '0'.toNat

theorem digitValue_lt {c : Char} (h : c.isDigit = true) : digitValue c < 10 := by
  have hle := (Char.isDigit_iff_toNat.mp h).2
  have hnine : '9'.toNat = 57 := rfl
  have hzero : '0'.toNat = 48 := rfl
  rw [digitValue]
  omega

theorem digitValue_injective {c d : Char} (hc : c.isDigit = true) (hd : d.isDigit = true)
    (h : digitValue c = digitValue d) : c = d := by
  have hlec := (Char.isDigit_iff_toNat.mp hc).1
  have hled := (Char.isDigit_iff_toNat.mp hd).1
  rw [digitValue, digitValue] at h
  apply Char.toNat_inj.mp
  omega

theorem decimal_concat (digits : List Char) (c : Char) :
    decimal (digits ++ [c]) = 10 * decimal digits + digitValue c := by
  rw [decimal, Nat.ofDigitChars_append, Nat.ofDigitChars_cons, Nat.ofDigitChars_nil]
  rfl

theorem decimal_dropWhile (digits : List Char) :
    decimal (digits.dropWhile (· == '0')) = decimal digits := by
  induction digits with
  | nil => rfl
  | cons c rest ih =>
      by_cases hc : c = '0'
      · subst hc
        exact ih
      · rw [List.dropWhile_cons_of_neg (by simpa using hc)]

/-- Digits without a zero in front. -/
def Stripped (digits : List Char) : Prop :=
  (∀ c ∈ digits, c.isDigit = true) ∧ digits.head? ≠ some '0'

theorem stripped_dropWhile {digits : List Char} (h : ∀ c ∈ digits, c.isDigit = true) :
    Stripped (digits.dropWhile (· == '0')) := by
  constructor
  · intro c hc
    exact h c (List.dropWhile_subset _ hc)
  · intro hhead
    have hnot := List.head?_dropWhile_not (· == '0') digits
    rw [hhead] at hnot
    cases hnot

theorem decimal_pos {digits : List Char} (h : Stripped digits) (hne : digits ≠ []) :
    0 < decimal digits := by
  obtain ⟨c, rest, rfl⟩ := List.exists_cons_of_ne_nil hne
  have hc : c ≠ '0' := fun heq => h.2 (by rw [heq]; rfl)
  have hpos : digitValue c ≠ 0 := by
    intro hzero
    exact hc (digitValue_injective (h.1 c List.mem_cons_self) rfl hzero)
  rw [decimal, Nat.ofDigitChars_cons, Nat.ofDigitChars_eq_ofDigitChars_zero]
  have hvalue : 10 * 0 + (c.toNat - '0'.toNat) = digitValue c := by
    rw [Nat.mul_zero, Nat.zero_add]
    rfl
  rw [hvalue]
  positivity

/-- Without zeros in front, equal numbers have equal digits. -/
theorem decimal_injective {digits digits' : List Char} (h : Stripped digits)
    (h' : Stripped digits') (heq : decimal digits = decimal digits') : digits = digits' := by
  induction digits using List.reverseRecOn generalizing digits' with
  | nil =>
      by_contra hne
      have hpos := decimal_pos h' (Ne.symm hne)
      rw [← heq] at hpos
      exact absurd hpos (by decide)
  | append_singleton digits c ih =>
      rcases List.eq_nil_or_concat digits' with rfl | ⟨digits', d, rfl⟩
      · have hpos := decimal_pos h (by simp)
        rw [heq] at hpos
        exact absurd hpos (by decide)
      rw [List.concat_eq_append] at h' heq ⊢
      have hc := h.1 c (by simp)
      have hd := h'.1 d (by simp)
      have hltc := digitValue_lt hc
      have hltd := digitValue_lt hd
      rw [decimal_concat, decimal_concat] at heq
      have hlast : c = d := digitValue_injective hc hd (by omega)
      have hfront : ∀ {l : List Char} {x : Char}, Stripped (l ++ [x]) → Stripped l := by
        intro l x hl
        constructor
        · intro y hy
          exact hl.1 y (List.mem_append_left _ hy)
        · intro hhead
          apply hl.2
          rw [List.head?_append, hhead]
          rfl
      rw [hlast, ih (hfront h) (hfront h') (by omega)]

end FortyTwo.Foundation
