import Mathlib.Data.List.TakeWhile
import FortyTwo.Webserv.ConfigReading

/-!
The numbers of a configuration file: what `atol` and `atoi` make of digits, and
which sizes `parseMaxClientBody` takes.
-/

namespace FortyTwo.Webserv

open Foundation ConfigParser TokenParser

section Numbers

variable {digits rest : Bytes}

/-- Digits, and something that does not begin with one. -/
structure LeadingDigits (text digits rest : Bytes) : Prop where
  split : text = digits ++ rest
  digits : ∀ c ∈ digits, isDigit c = true
  rest : ∀ c, rest.head? = some c → isDigit c = false

theorem leadingDigits (text : Bytes) :
    LeadingDigits text (text.takeWhile isDigit) (text.dropWhile isDigit) where
  split := (List.takeWhile_append_dropWhile).symm
  digits := fun _ hc => List.mem_takeWhile_imp hc
  rest := by
    intro c hc
    have hnot := List.head?_dropWhile_not isDigit text
    rw [hc] at hnot
    simpa using hnot

variable {text : Bytes}

private theorem rest_takeWhile (h : ∀ c, rest.head? = some c → isDigit c = false) :
    rest.takeWhile isDigit = [] ∧ rest.dropWhile isDigit = rest := by
  cases rest with
  | nil => exact ⟨rfl, rfl⟩
  | cons c rest => simp [h c rfl]

theorem LeadingDigits.takeWhile (h : LeadingDigits text digits rest) :
    text.takeWhile isDigit = digits := by
  rw [h.split, List.takeWhile_append_of_pos h.digits, (rest_takeWhile h.rest).1, List.append_nil]

theorem LeadingDigits.dropWhile (h : LeadingDigits text digits rest) :
    text.dropWhile isDigit = rest := by
  rw [h.split, List.dropWhile_append_of_pos h.digits, (rest_takeWhile h.rest).2]

theorem LeadingDigits.leadingNumber (h : LeadingDigits text digits rest) :
    leadingNumber text = decimalValue digits := by
  rw [ConfigParser.leadingNumber, h.takeWhile, foldl_digits]
  simp

/-- A character that begins a text for `atol` as it is. -/
private theorem atol_of_head {c : UInt8} {more : Bytes} (hspace : isSpace c = false)
    (hplus : c ≠ 43) (hminus : c ≠ 45) :
    atol (c :: more) = min (2 ^ 63 - 1) (ConfigParser.leadingNumber (c :: more) : Int) := by
  have hskip : (c :: more).dropWhile isSpace = c :: more := by
    rw [List.dropWhile_cons, hspace]
    rfl
  rw [atol, hskip]
  split
  · rename_i heq
    exact absurd (List.cons.inj heq).1 hminus
  · rename_i heq
    exact absurd (List.cons.inj heq).1 hplus
  · rfl

theorem isSpace_of_isDigit {c : UInt8} (h : isDigit c = true) : isSpace c = false := by
  simp only [isDigit, isSpace, Bool.and_eq_true, decide_eq_true_eq, Bool.or_eq_false_iff,
    beq_eq_false_iff_ne, Bool.and_eq_false_iff, decide_eq_false_iff_not, ne_eq,
    UInt8.le_iff_toNat_le, ← UInt8.toNat_inj, UInt8.reduceToNat] at h ⊢
  omega

theorem atol_of_digits (h : LeadingDigits text digits rest) (hne : digits ≠ []) :
    atol text = min (2 ^ 63 - 1) (decimalValue digits : Int) := by
  obtain ⟨c, more, rfl⟩ := List.exists_cons_of_ne_nil hne
  have hc := h.digits c (by simp)
  have hother : ∀ d, isDigit d = false → c ≠ d := by
    rintro d hd rfl
    rw [hc] at hd
    cases hd
  rw [← h.leadingNumber, h.split, List.cons_append,
    atol_of_head (isSpace_of_isDigit hc) (hother 43 rfl) (hother 45 rfl)]

end Numbers

section BodySize

/-- The units of a size, and how many bytes each one is. -/
def sizeUnits : List (Bytes × Nat) :=
  [([], 1), (bytes "k", 2 ^ 10), (bytes "m", 2 ^ 20), (bytes "g", 2 ^ 30)]

/-- A number with or without a unit. -/
structure SizeText where
  digits : Bytes
  unit : Bytes × Nat
  digits_ne : digits ≠ []
  digits_digit : ∀ c ∈ digits, isDigit c = true
  unit_mem : unit ∈ sizeUnits

namespace SizeText

def text (f : SizeText) : Bytes := f.digits ++ f.unit.1

def value (f : SizeText) : Nat := decimalValue f.digits * f.unit.2

end SizeText

/-- The token is taken exactly when it is a size that a signed 64-bit integer
holds, and for that size. -/
def ReadsSize (token : Token) (rest : List Token) : Prop :=
  ((∃ size, parseMaxClientBody (token :: rest) = .ok (size, rest)) ↔
    ∃ f : SizeText, f.text = token.lexeme ∧ f.value < 2 ^ 63) ∧
  ∀ f : SizeText, f.text = token.lexeme → ∀ size,
    parseMaxClientBody (token :: rest) = .ok (size, rest) → size = f.value

/-- Digits and a unit that are no size: no digit, something behind the unit
letter, or a product from 2^63 on. -/
def LooksLikeSize (number : Bytes) : Prop :=
  ∃ digits unit rest, number = digits ++ (unit.1 ++ rest) ∧ (∀ c ∈ digits, isDigit c = true) ∧
    unit ∈ sizeUnits ∧ (unit.1 = [] → rest = []) ∧
    (digits = [] ∨ rest ≠ [] ∨ 2 ^ 63 ≤ decimalValue digits * unit.2)

private theorem sizeUnits_cases {unit : Bytes × Nat} (h : unit ∈ sizeUnits) :
    unit = ([], 1) ∨ unit = ([byteOf 'k'], 2 ^ 10) ∨ unit = ([byteOf 'm'], 2 ^ 20) ∨
      unit = ([byteOf 'g'], 2 ^ 30) := by
  simp only [sizeUnits, List.mem_cons, List.not_mem_nil, or_false] at h
  exact h

variable {number : Bytes}

/-- Which tokens are taken: a unit is looked for behind the digits, and nothing
else is. -/
theorem bodySize_of_unit {unit : Bytes × Nat} {rest : Bytes} (hunit : unit ∈ sizeUnits)
    (hrest : number.dropWhile isDigit = unit.1 ++ rest) (hend : unit.1 = [] → rest = []) :
    bodySize number = .ok (toSize (atol number * unit.2)) := by
  rw [bodySize]
  rcases sizeUnits_cases hunit with rfl | rfl | rfl | rfl
  · rw [hend rfl] at hrest
    simp only [hrest, List.append_nil]
    simp
  · simp only [hrest, List.singleton_append]
    rfl
  · simp only [hrest, List.singleton_append]
    rw [if_neg (by decide), if_pos trivial, mul_assoc]
    rfl
  · simp only [hrest, List.singleton_append]
    rw [if_neg (by decide), if_neg (by decide), if_pos trivial, mul_assoc, mul_assoc]
    rfl

theorem unit_of_bodySize {size : Nat} (h : bodySize number = .ok size) :
    ∃ unit ∈ sizeUnits, ∃ rest, number.dropWhile isDigit = unit.1 ++ rest ∧
      (unit.1 = [] → rest = []) := by
  rw [bodySize] at h
  split at h
  · rename_i hnil
    exact ⟨([], 1), by simp [sizeUnits], [], hnil, fun _ => rfl⟩
  · rename_i unit rest hcons
    have hmem : ∃ factor, ([unit], factor) ∈ sizeUnits := by
      split at h
      · rename_i hk
        exact ⟨2 ^ 10, by rw [hk]; decide⟩
      · split at h
        · rename_i hm
          exact ⟨2 ^ 20, by rw [hm]; decide⟩
        · split at h
          · rename_i hg
            exact ⟨2 ^ 30, by rw [hg]; decide⟩
          · cases h
    obtain ⟨factor, hfactor⟩ := hmem
    exact ⟨([unit], factor), hfactor, rest, hcons, fun hnil => by cases hnil⟩

/-- A unit does not begin with a digit. -/
private theorem leadingDigits_of_unit {digits rest : Bytes} {unit : Bytes × Nat}
    (hsplit : number = digits ++ (unit.1 ++ rest)) (hdigits : ∀ c ∈ digits, isDigit c = true)
    (hunit : unit ∈ sizeUnits) (hend : unit.1 = [] → rest = []) :
    LeadingDigits number digits (unit.1 ++ rest) where
  split := hsplit
  digits := hdigits
  rest := by
    rcases sizeUnits_cases hunit with rfl | rfl | rfl | rfl
    · simp [hend rfl]
    all_goals
      intro c hc
      obtain rfl := Option.some.inj hc
      rfl

/-- The text of a unit says which one it is. -/
private theorem sizeUnits_eq {unit unit' : Bytes × Nat} (h : unit ∈ sizeUnits)
    (h' : unit' ∈ sizeUnits) {rest : Bytes} (hend : unit.1 = [] → rest = [])
    (htext : unit.1 ++ rest = unit'.1) : unit' = unit ∧ rest = [] := by
  rcases sizeUnits_cases h with rfl | rfl | rfl | rfl <;>
    rcases sizeUnits_cases h' with rfl | rfl | rfl | rfl <;>
      simp_all [byteOf]

theorem parseMaxClientBody_eq_ok_iff {token : Token} (htoken : token.type = .identifier)
    (rest : List Token) (size : Nat) :
    parseMaxClientBody (token :: rest) = .ok (size, rest) ↔ bodySize token.lexeme = .ok size := by
  rw [parseMaxClientBody, bind_of_ok _ (consume_cons (by decide) _ rest htoken), lift_ok_iff]
  simp

namespace SizeText

variable (f : SizeText)

private theorem leadingDigits : LeadingDigits f.text f.digits f.unit.1 := by
  have hsplit : f.text = f.digits ++ (f.unit.1 ++ []) := by
    rw [List.append_nil]
    rfl
  have h := leadingDigits_of_unit hsplit f.digits_digit f.unit_mem (fun _ => rfl)
  rwa [List.append_nil] at h

/-- A size that fits is read for what it is. -/
private theorem bodySize_text (hfits : f.value < 2 ^ 63) : bodySize f.text = .ok f.value := by
  have hrest : f.text.dropWhile isDigit = f.unit.1 ++ [] := by
    rw [f.leadingDigits.dropWhile, List.append_nil]
  have hfactor : 1 ≤ f.unit.2 := by
    rcases sizeUnits_cases f.unit_mem with h | h | h | h <;> simp [h]
  have hdigits : decimalValue f.digits < 2 ^ 63 :=
    lt_of_le_of_lt (Nat.le_mul_of_pos_right _ hfactor) hfits
  have hatol : atol f.text = (decimalValue f.digits : Int) := by
    rw [atol_of_digits f.leadingDigits f.digits_ne]
    omega
  have hproduct : (decimalValue f.digits : Int) * (f.unit.2 : Int) = (f.value : Int) := by
    rw [value, Nat.cast_mul]
  rw [bodySize_of_unit f.unit_mem hrest (fun _ => rfl), hatol, hproduct, toSize]
  congr 1
  omega

end SizeText

/-- The token is read as a size should be, unless it is one of those that only
look like a size: these are taken all the same. -/
theorem readsSize_iff {token : Token} (htoken : token.type = .identifier) (rest : List Token) :
    ReadsSize token rest ↔ ¬ LooksLikeSize token.lexeme := by
  rw [ReadsSize]
  simp only [parseMaxClientBody_eq_ok_iff htoken]
  constructor
  · rintro ⟨haccepted, _⟩ ⟨digits, unit, more, hsplit, hdigits, hunit, hend, hbad⟩
    have hleading := leadingDigits_of_unit hsplit hdigits hunit hend
    obtain ⟨f, hf, hfits⟩ :=
      haccepted.mp ⟨_, bodySize_of_unit hunit hleading.dropWhile hend⟩
    rw [← hf] at hleading
    have hsame : digits = f.digits := by
      rw [← hleading.takeWhile, f.leadingDigits.takeWhile]
    have htext : unit.1 ++ more = f.unit.1 := by
      rw [← hleading.dropWhile, f.leadingDigits.dropWhile]
    obtain ⟨hunit', hmore⟩ := sizeUnits_eq hunit f.unit_mem hend htext
    rcases hbad with hnil | hne | hlarge
    · exact f.digits_ne (hsame ▸ hnil)
    · exact hne hmore
    · rw [SizeText.value, ← hsame, hunit'] at hfits
      omega
  · intro hnot
    have hfits : ∀ f : SizeText, f.text = token.lexeme → f.value < 2 ^ 63 := by
      intro f hf
      by_contra hlarge
      refine hnot ⟨f.digits, f.unit, [], ?_, f.digits_digit, f.unit_mem, fun _ => rfl,
        Or.inr (Or.inr (Nat.not_lt.mp hlarge))⟩
      rw [List.append_nil, ← hf]
      rfl
    refine ⟨⟨?_, ?_⟩, ?_⟩
    · rintro ⟨size, hsize⟩
      obtain ⟨unit, hunit, more, hmore, hend⟩ := unit_of_bodySize hsize
      have hleading := leadingDigits token.lexeme
      have hgood : ¬ (token.lexeme.takeWhile isDigit = [] ∨ more ≠ [] ∨
          2 ^ 63 ≤ decimalValue (token.lexeme.takeWhile isDigit) * unit.2) := by
        intro hbad
        exact hnot ⟨_, unit, more, by rw [← hmore]; exact hleading.split, hleading.digits, hunit,
          hend, hbad⟩
      simp only [not_or, not_not, not_le] at hgood
      refine ⟨⟨_, unit, hgood.1, hleading.digits, hunit⟩, ?_, hgood.2.2⟩
      rw [SizeText.text]
      conv_rhs => rw [hleading.split, hmore, hgood.2.1, List.append_nil]
    · rintro ⟨f, hf, hvalue⟩
      exact ⟨_, hf ▸ f.bodySize_text hvalue⟩
    · intro f hf size hsize
      rw [← hf, f.bodySize_text (hfits f hf)] at hsize
      exact (Except.ok.inj hsize).symm

/-- A unit without a number. -/
theorem not_readsSize_unit : ¬ ReadsSize ⟨.identifier, bytes "k", 1, 0⟩ [] := by
  rintro ⟨haccepted, _⟩
  obtain ⟨f, hf, _⟩ := haccepted.mp ⟨0, rfl⟩
  obtain ⟨c, more, hcons⟩ := List.exists_cons_of_ne_nil f.digits_ne
  have hc := f.digits_digit c (by rw [hcons]; simp)
  rw [SizeText.text, hcons] at hf
  rw [(List.cons.inj hf).1] at hc
  cases hc

theorem readsSize_megabytes : ReadsSize ⟨.identifier, bytes "10m", 1, 0⟩ [] := by
  apply (readsSize_iff rfl []).mpr
  rintro ⟨digits, unit, rest, hsplit, hdigits, hunit, hend, hbad⟩
  have hleading := leadingDigits_of_unit hsplit hdigits hunit hend
  obtain rfl : bytes "10" = digits := hleading.takeWhile
  have htext : unit.1 ++ rest = bytes "m" := hleading.dropWhile.symm
  have hm : (bytes "m", 2 ^ 20) ∈ sizeUnits := by decide
  obtain ⟨hunit', hrest⟩ := sizeUnits_eq hunit hm hend htext
  rw [← hunit', hrest] at hbad
  revert hbad
  decide

end BodySize

end FortyTwo.Webserv
