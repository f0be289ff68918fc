import FortyTwo.Cpp.BitcoinExchange

/-!
What the code takes from a line: a date that passes the tests, and an amount. A well-formed line
has both.
-/

namespace FortyTwo.Cpp.BitcoinExchange

open Foundation

section Dates

theorem atoi_digits {digits : Str} (h : ∀ c ∈ digits, c.isDigit = true)
    (hlength : digits.length ≤ 9) : atoi digits = decimal digits := by
  have hspace : digits.dropWhile isSpace = digits := by
    cases digits with
    | nil => rfl
    | cons c rest =>
        apply List.dropWhile_cons_of_neg
        intro hspace
        rw [isSpace, List.contains_iff_mem] at hspace
        have hdigit := h c List.mem_cons_self
        simp only [List.mem_cons, List.not_mem_nil, or_false] at hspace
        rcases hspace with rfl | rfl | rfl | rfl | rfl | rfl
        all_goals cases hdigit
  have hsign : ∀ c, c.isDigit = false → digits.head? ≠ some c := by
    intro c hc hhead
    rw [h c (List.mem_of_head? hhead)] at hc
    cases hc
  have hlt := decimal_lt h
  have hpow : 10 ^ digits.length ≤ 10 ^ 9 := Nat.pow_le_pow_right (by decide) hlength
  have hstrtol : strtol digits = decimal digits := by
    rw [strtol, hspace, if_neg (by simp [hsign]), if_neg (by simp [hsign]),
      List.takeWhile_eq_self_iff.mpr h]
    omega
  rw [atoi, hstrtol]
  exact Int.bmod_eq_of_le (by omega) (by omega)

/-- What the tests let pass. -/
structure Valid (date : Date) : Prop where
  year : 2000 ≤ decimal date.year ∧ decimal date.year ≤ 3000
  month : 1 ≤ decimal date.month ∧ decimal date.month ≤ 12
  day : 1 ≤ decimal date.day ∧ decimal date.day ≤ 31

private theorem not_mem_digits {digits : Str} (h : ∀ c ∈ digits, c.isDigit = true) {c : Char}
    (hc : c.isDigit = false) : c ∉ digits := by
  intro hmem
  rw [h c hmem] at hc
  cases hc

theorem not_mem_text (date : Date) {c : Char} (hdash : c ≠ '-') (hc : c.isDigit = false) :
    c ∉ date.text := by
  rw [Date.text, List.mem_append, List.mem_cons, List.mem_append, List.mem_cons]
  rintro (h | h | h | h | h)
  · exact not_mem_digits date.digits_year hc h
  · exact hdash h
  · exact not_mem_digits date.digits_month hc h
  · exact hdash h
  · exact not_mem_digits date.digits_day hc h

theorem checkDate_text {date : Date} (h : Valid date) : checkDate date.text = .ok true := by
  obtain ⟨hyear, hmonth, hday⟩ := h
  have hfirst : find ['-'] date.text = some 4 := by
    rw [Date.text, find_single (not_mem_digits date.digits_year rfl), date.length_year]
  have hrest : date.text.drop 5 = date.month ++ '-' :: date.day := by
    have hlength : (date.year ++ ['-']).length = 5 := by
      rw [List.length_append, date.length_year]
      rfl
    rw [Date.text, ← List.singleton_append, ← List.append_assoc]
    exact List.drop_left' hlength
  have hday' : date.text.drop 8 = date.day := by
    have hlength : (date.month ++ ['-']).length = 3 := by
      rw [List.length_append, date.length_month]
      rfl
    have hsplit : date.text.drop 8 = (date.text.drop 5).drop 3 := by rw [List.drop_drop]
    rw [hsplit, hrest, ← List.singleton_append, ← List.append_assoc]
    exact List.drop_left' hlength
  have hlength : date.text.length = 10 := by
    rw [Date.text, List.length_append, List.length_cons, List.length_append, List.length_cons,
      date.length_year, date.length_month, date.length_day]
  have hsecond : findFrom ['-'] date.text 5 = some 7 := by
    rw [findFrom, if_neg (by omega), hrest,
      find_single (not_mem_digits date.digits_month rfl), date.length_month]
    rfl
  have hyears : atoi (date.text.take 4) = decimal date.year := by
    rw [Date.text, List.take_left' date.length_year]
    exact atoi_digits date.digits_year (date.length_year.trans_le (by decide))
  have hmonths : atoi ((date.text.drop 5).take 2) = decimal date.month := by
    rw [hrest, List.take_left' date.length_month]
    exact atoi_digits date.digits_month (date.length_month.trans_le (by decide))
  have hdays : atoi (date.text.drop 8) = decimal date.day := by
    rw [hday']
    exact atoi_digits date.digits_day (date.length_day.trans_le (by decide))
  have hposition : position (some 7) = 7 := rfl
  have hcount : sizeT (7 - (4 : Nat) - 1) = 2 := rfl
  have hbehind : sizeT (7 + 1) = 8 := rfl
  rw [checkDate, hfirst]
  dsimp only
  rw [hyears, if_neg (by omega), hsecond, hposition, hcount, hmonths, if_neg (by omega),
    if_neg (by decide), hbehind, substr, if_pos (by omega)]
  change Except.ok (!decide (atoi (date.text.drop 8) < 1 ∨ atoi (date.text.drop 8) > 31)) = _
  rw [hdays, decide_eq_false (by omega)]
  rfl

private theorem position_findFrom {date : Str} (h : date.length < 2 ^ 31) (start : Nat) :
    position (findFrom ['-'] date start) ≠ 2 ^ 31 - 1 ∧
      sizeT (position (findFrom ['-'] date start) + 1) ≤ date.length := by
  cases hnext : findFrom ['-'] date start with
  | none => exact ⟨by decide, Nat.zero_le _⟩
  | some next =>
      have hle := (prefix_of_findFrom hnext).length_le
      rw [List.length_singleton, List.length_drop] at hle
      have hbmod : (next : Int).bmod (2 ^ 32) = next := Int.bmod_eq_of_le (by omega) (by omega)
      have hposition : position (some next) = next := hbmod
      have hsize : sizeT ((next : Int) + 1) = next + 1 := by
        rw [sizeT, Int.emod_eq_of_lt (by omega) (by omega)]
        rfl
      rw [hposition, hsize]
      exact ⟨by omega, by omega⟩

/-- A date whose places an `int` counts can be tested. -/
theorem exists_checkDate {date : Str} (h : date.length < 2 ^ 31) :
    ∃ passed, checkDate date = .ok passed := by
  rw [checkDate]
  cases find ['-'] date with
  | none => exact ⟨false, rfl⟩
  | some dateDelimPos =>
      obtain ⟨hfits, hle⟩ := position_findFrom h (dateDelimPos + 1)
      dsimp only
      rw [if_neg hfits, substr, if_pos hle]
      split
      · exact ⟨false, rfl⟩
      · split
        · exact ⟨false, rfl⟩
        · exact ⟨_, rfl⟩

end Dates

section Inputs

def IsDigits (text : Str) : Prop := text ≠ [] ∧ ∀ c ∈ text, c.isDigit = true

/-- A whole number, or one with a fraction. -/
def IsAmount (amount : Str) : Prop :=
  IsDigits amount ∨ ∃ whole fraction, IsDigits whole ∧ IsDigits fraction ∧
    amount = whole ++ '.' :: fraction

/-- A well-formed line: a valid date, and an amount that is not refused. -/
structure Input {δ : Type} (ops : DoubleOps δ) where
  date : Date
  valid : Valid date
  amount : Str
  isAmount : IsAmount amount
  notNegative : ops.negative (ops.strtod amount) = false
  notAbove : ops.aboveThousand (ops.strtod amount) = false

def Input.line {δ : Type} {ops : DoubleOps δ} (input : Input ops) : Str :=
  input.date.text ++ " | ".toList ++ input.amount

/-- What is to be reported for a rate. -/
def Input.result {δ : Type} {ops : DoubleOps δ} (input : Input ops) (rate : δ) : Report :=
  .cout (input.date.text ++ " => ".toList ++ ops.shown (ops.strtod input.amount) ++
    " = ".toList ++ ops.shown (ops.times (ops.strtod input.amount) rate) ++ ['\n'])

section Blanks

variable {text : Str} (h : ' ' ∉ text)

include h

private theorem rdropWhile_blank : text.rdropWhile (· == ' ') = text := by
  rw [List.rdropWhile_eq_self_iff]
  intro hne hblank
  exact h (eq_of_beq hblank ▸ List.getLast_mem hne)

private theorem dropWhile_blank : text.dropWhile (· == ' ') = text := by
  rw [List.dropWhile_eq_self_iff]
  intro hne hblank
  exact h (eq_of_beq hblank ▸ List.getElem_mem hne)

theorem trim_blank_behind : trim (text ++ [' ']) = text := by
  rw [trim, List.rdropWhile_concat_pos _ _ _ rfl, rdropWhile_blank h, dropWhile_blank h]

theorem trim_blank_before (hne : text ≠ []) : trim (' ' :: text) = text := by
  have hback : (' ' :: text).rdropWhile (· == ' ') = ' ' :: text := by
    rw [List.rdropWhile_eq_self_iff]
    intro hcons hblank
    rw [List.getLast_cons hne] at hblank
    exact h (eq_of_beq hblank ▸ List.getLast_mem hne)
  rw [trim, hback, List.dropWhile_cons_of_pos rfl, dropWhile_blank h]

end Blanks

theorem IsAmount.not_mem {amount : Str} (h : IsAmount amount) {c : Char} (hpoint : c ≠ '.')
    (hc : c.isDigit = false) : c ∉ amount := by
  rcases h with h | ⟨whole, fraction, hwhole, hfraction, rfl⟩
  · exact not_mem_digits h.2 hc
  · rw [List.mem_append, List.mem_cons]
    rintro (hmem | hmem | hmem)
    · exact not_mem_digits hwhole.2 hc hmem
    · exact hpoint hmem
    · exact not_mem_digits hfraction.2 hc hmem

theorem IsAmount.ne_nil {amount : Str} (h : IsAmount amount) : amount ≠ [] := by
  rcases h with h | ⟨whole, fraction, -, -, rfl⟩
  · exact h.1
  · exact List.append_ne_nil_of_right_ne_nil _ (List.cons_ne_nil _ _)

variable {δ : Type} {ops : DoubleOps δ} (input : Input ops)

theorem Input.line_eq :
    input.line = (input.date.text ++ [' ']) ++ '|' :: ' ' :: input.amount := by
  rw [Input.line, List.append_assoc, List.append_assoc]
  rfl

theorem Input.blank_not_mem_text : ' ' ∉ input.date.text :=
  not_mem_text input.date (by decide) rfl

theorem find_bar : find ['|'] input.line = some (input.date.text ++ [' ']).length := by
  have hbar : '|' ∉ input.date.text ++ [' '] := by
    rw [List.mem_append, List.mem_singleton, not_or]
    exact ⟨not_mem_text input.date (by decide) rfl, by decide⟩
  rw [input.line_eq, find_single hbar]

theorem trim_take :
    trim (input.line.take (input.date.text ++ [' ']).length) = input.date.text := by
  rw [input.line_eq, List.take_left, trim_blank_behind input.blank_not_mem_text]

theorem trim_drop :
    trim (input.line.drop ((input.date.text ++ [' ']).length + 1)) = input.amount := by
  rw [input.line_eq, ← List.drop_drop, List.drop_left]
  exact trim_blank_before (input.isAmount.not_mem (by decide) rfl) input.isAmount.ne_nil

theorem reportAmount_input (rate : δ) : reportAmount ops input.date.text
    (input.line.drop ((input.date.text ++ [' ']).length + 1)) rate = input.result rate := by
  rw [reportAmount, trim_drop, input.notNegative, input.notAbove]
  rfl

end Inputs

end FortyTwo.Cpp.BitcoinExchange
