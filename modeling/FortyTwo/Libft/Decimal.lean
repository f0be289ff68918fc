import FortyTwo.Foundation.Numerals
import FortyTwo.Libft.Arrays

/-!
`ft_itoa.c` and `ft_atoi.c`: an `int` is written in decimal, and read back.
-/

namespace FortyTwo.Libft

open Foundation

section Itoa

/-- The loop of `ft_num_multi_digits`. -/
def countDigits (n multidigit : Int) : Except Fault Int :=
  if _h : 0 < n then do
    let multidigit ← int (multidigit + 1)
    countDigits (n / 10) multidigit
  else .ok multidigit
  termination_by n.toNat
  decreasing_by omega

/-- The rest of `ft_num_multi_digits`, when `n` is not negative any more. -/
def countFrom (n multidigit : Int) : Except Fault Int :=
  countDigits n (if n = 0 then multidigit + 1 else multidigit)

def ftNumMultiDigits (n : Int) : Except Fault Int :=
  if n = -2147483648 then .ok 11
  else if n < 0 then do
    let n ← int (n * -1)
    countFrom n 1
  else countFrom n 0

/-- The loop of `ft_itoa`, which puts the last digit in front of `string[i]`. -/
def writeDigits : Nat → Int → Int → List (Option Char) → Except Fault (List (Option Char))
  | 0, _, _, string => .ok string
  | todo + 1, i, n, string => do
      let string ← store string (i - 1) (Char.ofNat (n.tmod 10 + 48).toNat)
      writeDigits todo (i - 1) (n.tdiv 10) string

/-- `ft_memcpy` of a string and its zero to the beginning of an array. -/
def ftMemcpy (array : List (Option Char)) (text : Str) : Except Fault (List (Option Char)) :=
  if text.length + 1 ≤ array.length then
    .ok (text.map some ++ some '\x00' :: array.drop (text.length + 1))
  else .error .outOfBounds

/-- The rest of `ft_itoa`, when `n` is not negative any more. -/
def writeFrom (n todo multidigit : Int) (string : List (Option Char)) : Except Fault Str := do
  let string ← writeDigits todo.toNat multidigit n string
  let string ← store string multidigit '\x00'
  cString string

def ftItoa (n : CInt) : Except Fault Str := do
  let multidigit ← ftNumMultiDigits n.val
  let string := malloc (multidigit + 1).toNat
  if n.val = -2147483648 then do
    let string ← ftMemcpy string "-2147483648".toList
    cString string
  else if n.val < 0 then do
    let string ← store string 0 '-'
    let n ← int (n.val * -1)
    writeFrom n (multidigit - 1) multidigit string
  else writeFrom n.val multidigit multidigit string

end Itoa

section Atoi

def isSpace (c : Char) : Bool := [' ', '\t', '\r', '\n', '\x0b', '\x0c'].contains c

/-- The loop of `ft_atoi` over the digits. -/
def readDigits (integer : Int) : Str → Except Fault Int
  | [] => .ok integer
  | c :: rest =>
      if c.isDigit then do
        let tens ← int (integer * 10)
        let integer ← int (tens + digitValue c)
        readDigits integer rest
      else .ok integer

def ftAtoi (str : Str) : Except Fault Int := do
  let str := str.dropWhile isSpace
  let minus : Int := if str.head? = some '-' then -1 else 1
  let str := if str.head? = some '-' ∨ str.head? = some '+' then str.tail else str
  let integer ← readDigits 0 str
  int (integer * minus)

end Atoi

/-- `ft_itoa` gives the decimal notation of the number, and `ft_atoi` the number again. -/
structure DecimalRoundTrips (n : CInt) : Prop where
  written : ftItoa n = .ok (toString n.val).toList
  read : ftAtoi (toString n.val).toList = .ok n.val

section Digits

theorem toDigits_of_le {n : Nat} (h : 10 ≤ n) :
    Nat.toDigits 10 n = Nat.toDigits 10 (n / 10) ++ [Nat.digitChar (n % 10)] :=
  Nat.toDigits_of_base_le (by decide) h

theorem length_toDigits_le {n : Nat} (h : n < 2 ^ 31) : (Nat.toDigits 10 n).length ≤ 10 :=
  (Nat.length_toDigits_le_iff (by decide) (by decide)).mpr (lt_trans h (by decide))

theorem zero_not_mem_toDigits (n : Nat) : '\x00' ∉ Nat.toDigits 10 n := by
  intro hmem
  have hdigit := Nat.isDigit_of_mem_toDigits (by decide) (by decide) hmem
  revert hdigit
  decide

theorem countDigits_eq {n : Nat} (hpos : 0 < n) (multidigit : Nat)
    (hfits : multidigit + (Nat.toDigits 10 n).length < 2 ^ 31) :
    countDigits n multidigit = .ok (multidigit + (Nat.toDigits 10 n).length : Nat) := by
  induction n using Nat.strong_induction_on generalizing multidigit with
  | _ n ih =>
      have hlength := @Nat.length_toDigits_pos 10 n
      have hint : int ((multidigit : Int) + 1) = .ok (multidigit + 1 : Nat) :=
        int_of_fits (by omega)
      have hround : countDigits n multidigit = countDigits (n / 10 : Nat) (multidigit + 1 : Nat) := by
        have hpos' : (0 : Int) < n := by omega
        rw [countDigits, dif_pos hpos', hint]
        rfl
      rw [hround]
      by_cases hle : 10 ≤ n
      · rw [toDigits_of_le hle, List.length_append, List.length_singleton] at hfits ⊢
        have hlater := ih (n / 10) (by omega) (by omega) (multidigit + 1) (by omega)
        rw [hlater, Nat.add_right_comm, Nat.add_assoc]
      · rw [Nat.toDigits_of_lt_base (by omega), Nat.div_eq_of_lt (by omega), countDigits,
          dif_neg (by decide)]
        rfl

/-- Each round puts one digit in front of those that are written. -/
theorem writeDigits_eq (n : Nat) (front rest : List (Option Char))
    (hfits : (Nat.toDigits 10 n).length ≤ front.length) :
    writeDigits (Nat.toDigits 10 n).length front.length n (front ++ rest) =
      .ok (front.take (front.length - (Nat.toDigits 10 n).length) ++
        (Nat.toDigits 10 n).map some ++ rest) := by
  induction n using Nat.strong_induction_on generalizing front rest with
  | _ n ih =>
      have hpos := @Nat.length_toDigits_pos 10 n
      rcases List.eq_nil_or_concat front with rfl | ⟨front, old, rfl⟩
      · rw [List.length_nil] at hfits
        omega
      rw [List.concat_eq_append] at hfits ⊢
      rw [List.length_append, List.length_singleton] at hfits ⊢
      have hdigit : Char.ofNat (((n : Int).tmod 10 + 48).toNat) = Nat.digitChar (n % 10) := by
        have hlt := Nat.mod_lt n (by decide : 10 > 0)
        have hmod : (n : Int).tmod 10 = (n % 10 : Nat) := (Int.ofNat_tmod n 10).symm
        rw [hmod]
        generalize n % 10 = d at hlt
        interval_cases d
        all_goals rfl
      have hstore : store (front ++ [old] ++ rest) ((front.length + 1 : Nat) - 1 : Int)
          (Nat.digitChar (n % 10)) = .ok (front ++ some (Nat.digitChar (n % 10)) :: rest) := by
        rw [List.append_assoc, Nat.cast_succ, Int.add_sub_cancel]
        exact store_at front rest old _
      have hround : ∀ todo, writeDigits (todo + 1) (front.length + 1 : Nat) n
          (front ++ [old] ++ rest) = writeDigits todo front.length (n / 10 : Nat)
            (front ++ some (Nat.digitChar (n % 10)) :: rest) := by
        intro todo
        rw [writeDigits, hdigit, hstore, Nat.cast_succ, Int.add_sub_cancel]
        rfl
      by_cases hle : 10 ≤ n
      · have hlength := congrArg List.length (toDigits_of_le hle)
        rw [List.length_append, List.length_singleton] at hlength
        have hlater := ih (n / 10) (by omega) front (some (Nat.digitChar (n % 10)) :: rest) (by omega)
        have htake : (front ++ [old]).take (front.length + 1 - (Nat.toDigits 10 n).length) =
            front.take (front.length - (Nat.toDigits 10 (n / 10)).length) := by
          rw [hlength, Nat.add_sub_add_right, List.take_append_of_le_length (Nat.sub_le _ _)]
        rw [htake, hlength, hround, hlater, toDigits_of_le hle, List.map_append, List.append_assoc,
          List.append_assoc, List.append_assoc]
        rfl
      · have hsingle := Nat.toDigits_of_lt_base (not_le.mp hle)
        rw [hsingle, List.length_singleton, hround, writeDigits, Nat.add_sub_cancel,
          List.take_left, Nat.mod_eq_of_lt (not_le.mp hle), List.append_assoc]
        rfl

/-- The loop reads digits whose number fits, and goes on behind them. -/
theorem readDigits_append {digits : Str} (hdigits : ∀ c ∈ digits, c.isDigit = true) (rest : Str)
    (integer : Nat) (hfits : Nat.ofDigitChars 10 digits integer < 2 ^ 31) :
    readDigits integer (digits ++ rest) =
      readDigits (Nat.ofDigitChars 10 digits integer : Nat) rest := by
  induction digits generalizing integer with
  | nil => rfl
  | cons c digits ih =>
      obtain ⟨hc, hdigits⟩ := List.forall_mem_cons.mp hdigits
      rw [Nat.ofDigitChars_cons] at hfits ⊢
      have hle : 10 * integer + digitValue c < 2 ^ 31 := by
        rw [Nat.ofDigitChars_eq_ofDigitChars_zero] at hfits
        have hpos : 0 < 10 ^ digits.length := by positivity
        have hmore := Nat.le_mul_of_pos_left (10 * integer + digitValue c) hpos
        exact lt_of_le_of_lt (le_trans hmore (Nat.le_add_right _ _)) hfits
      have htens : int ((integer : Int) * 10) = .ok (integer * 10) := int_of_fits (by omega)
      have hsum : int ((integer : Int) * 10 + digitValue c) =
          .ok (10 * integer + digitValue c : Nat) := by
        have hvalue : (integer : Int) * 10 + digitValue c = (10 * integer + digitValue c : Nat) := by
          push_cast
          ring
        rw [hvalue]
        exact int_of_fits ⟨by omega, by omega⟩
      have hlater := ih hdigits (10 * integer + digitValue c) hfits
      rw [List.cons_append, readDigits, if_pos hc, htens, ok_bind, hsum, ok_bind]
      exact hlater

end Digits

section Values

variable {m : Nat}

theorem toList_toString_nat (m : Nat) : (toString (m : Int)).toList = Nat.toDigits 10 m := by
  rw [Int.toString_eq_repr, Int.repr_eq_if, if_pos (by omega), Int.toNat_natCast, Nat.toList_repr]

theorem toList_toString_neg (hpos : 0 < m) :
    (toString (-(m : Int))).toList = '-' :: Nat.toDigits 10 m := by
  rw [Int.toString_eq_repr, Int.repr_eq_if, if_neg (by omega), Int.neg_neg, Int.toNat_natCast,
    String.toList_append, Nat.toList_repr]
  rfl

theorem ftNumMultiDigits_nat (hfits : m < 2 ^ 31) :
    ftNumMultiDigits m = .ok ((Nat.toDigits 10 m).length : Nat) := by
  have hlength := length_toDigits_le hfits
  rw [ftNumMultiDigits, if_neg (by omega), if_neg (by omega)]
  by_cases hzero : m = 0
  · subst hzero
    rw [countFrom, if_pos Nat.cast_zero, countDigits, dif_neg (by decide)]
    rfl
  · have hcount := countDigits_eq (Nat.pos_of_ne_zero hzero) 0 (by omega)
    rw [Nat.zero_add] at hcount
    rw [countFrom, if_neg (by omega)]
    exact hcount

theorem ftNumMultiDigits_neg (hpos : 0 < m) (hfits : m < 2 ^ 31) :
    ftNumMultiDigits (-(m : Int)) = .ok ((Nat.toDigits 10 m).length + 1 : Nat) := by
  have hlength := length_toDigits_le hfits
  have hint : int (-(m : Int) * -1) = .ok (m : Int) := by
    rw [mul_neg_one, Int.neg_neg]
    exact int_of_fits ⟨by omega, by omega⟩
  have hcount := countDigits_eq hpos 1 (by omega)
  rw [Nat.add_comm] at hcount
  rw [ftNumMultiDigits, if_neg (by omega), if_pos (by omega), hint, ok_bind, countFrom,
    if_neg (by omega)]
  exact hcount

/-- What stands in front of the digits stays there. -/
private theorem writeFrom_eq (front : Str) (hfront : '\x00' ∉ front) (m : Nat) :
    writeFrom m (Nat.toDigits 10 m).length (front.length + (Nat.toDigits 10 m).length : Nat)
      (front.map some ++ malloc ((Nat.toDigits 10 m).length + 1)) =
        .ok (front ++ Nat.toDigits 10 m) := by
  have hlength : (front.map some ++ malloc (Nat.toDigits 10 m).length).length =
      front.length + (Nat.toDigits 10 m).length := by
    rw [List.length_append, List.length_map, malloc, List.length_replicate]
  have hroom : front.map some ++ malloc ((Nat.toDigits 10 m).length + 1) =
      front.map some ++ malloc (Nat.toDigits 10 m).length ++ [none] := by
    rw [malloc, List.replicate_succ', malloc, List.append_assoc]
  have htake : (front.map some ++ malloc (Nat.toDigits 10 m).length).take front.length =
      front.map some := List.take_left' (List.length_map some)
  have hdigits := writeDigits_eq m (front.map some ++ malloc (Nat.toDigits 10 m).length) [none]
    (hlength ▸ Nat.le_add_left _ _)
  rw [hlength, Nat.add_sub_cancel, htake, ← List.map_append] at hdigits
  have hstore := store_at ((front ++ Nat.toDigits 10 m).map some) [] none '\x00'
  rw [List.length_map, List.length_append] at hstore
  have hzero : '\x00' ∉ front ++ Nat.toDigits 10 m := by
    rw [List.mem_append, not_or]
    exact ⟨hfront, zero_not_mem_toDigits m⟩
  rw [writeFrom, Int.toNat_natCast, hroom, hdigits, ok_bind, hstore, ok_bind]
  exact cString_of_written hzero []

theorem ftItoa_nat {n : CInt} (hfits : m < 2 ^ 31) (hn : n.val = m) :
    ftItoa n = .ok (Nat.toDigits 10 m) := by
  have hwritten := writeFrom_eq [] List.not_mem_nil m
  rw [List.length_nil, Nat.zero_add] at hwritten
  rw [ftItoa, hn, ftNumMultiDigits_nat hfits, ok_bind, if_neg (by omega), if_neg (by omega)]
  exact hwritten

theorem ftItoa_neg {n : CInt} (hpos : 0 < m) (hfits : m < 2 ^ 31) (hn : n.val = -(m : Int)) :
    ftItoa n = .ok ('-' :: Nat.toDigits 10 m) := by
  have hwritten := writeFrom_eq ['-'] (by decide) m
  rw [List.length_singleton, Nat.add_comm 1] at hwritten
  have hint : int (-(m : Int) * -1) = .ok (m : Int) := by
    rw [mul_neg_one, Int.neg_neg]
    exact int_of_fits ⟨by omega, by omega⟩
  have hstore := store_at [] (malloc ((Nat.toDigits 10 m).length + 1)) none '-'
  have hroom : malloc (((Nat.toDigits 10 m).length + 1 : Nat) + 1 : Int).toNat =
      none :: (malloc ((Nat.toDigits 10 m).length + 1) : List (Option Char)) := rfl
  have hsign : (((Nat.toDigits 10 m).length + 1 : Nat) : Int) - 1 = (Nat.toDigits 10 m).length := by
    omega
  rw [ftItoa, hn, ftNumMultiDigits_neg hpos hfits, ok_bind, if_neg (by omega), if_pos (by omega),
    hint, hroom, hsign]
  exact (congrArg (· >>= _) hstore).trans hwritten

theorem ftItoa_least {n : CInt} (hn : n.val = -2 ^ 31) : ftItoa n = .ok "-2147483648".toList := by
  rw [ftItoa, hn]
  rfl

private theorem readDigits_toDigits (hfits : m < 2 ^ 31) :
    readDigits 0 (Nat.toDigits 10 m) = .ok (m : Int) := by
  have hdigits : ∀ c ∈ Nat.toDigits 10 m, c.isDigit = true := fun c hc =>
    Nat.isDigit_of_mem_toDigits (by decide) (by decide) hc
  have hread := readDigits_append hdigits [] 0 (by rwa [Nat.ofDigitChars_ten_toDigits])
  rwa [Nat.ofDigitChars_ten_toDigits, List.append_nil] at hread

private theorem not_space_of_digit {c : Char} (h : c.isDigit = true) :
    isSpace c = false ∧ c ≠ '-' ∧ c ≠ '+' := by
  refine ⟨?_, ?_, ?_⟩
  · rw [← Bool.not_eq_true, isSpace, List.contains_iff_mem]
    intro hspace
    simp only [List.mem_cons, List.not_mem_nil, or_false] at hspace
    rcases hspace with rfl | rfl | rfl | rfl | rfl | rfl
    all_goals revert h; decide
  · rintro rfl
    revert h
    decide
  · rintro rfl
    revert h
    decide

theorem ftAtoi_nat (hfits : m < 2 ^ 31) : ftAtoi (Nat.toDigits 10 m) = .ok (m : Int) := by
  have hread := readDigits_toDigits hfits
  obtain ⟨c, rest, hdigits⟩ := List.exists_cons_of_ne_nil (@Nat.toDigits_ne_nil m 10)
  have hmem : c ∈ Nat.toDigits 10 m := by
    rw [hdigits]
    exact List.mem_cons_self
  obtain ⟨hspace, hminus, hplus⟩ :=
    not_space_of_digit (Nat.isDigit_of_mem_toDigits (by decide) (by decide) hmem)
  have hskip : (c :: rest).dropWhile isSpace = c :: rest :=
    List.dropWhile_cons_of_neg (by simp [hspace])
  have hnominus : (c :: rest).head? ≠ some '-' := fun h => hminus (Option.some.inj h)
  have hnoplus : (c :: rest).head? ≠ some '+' := fun h => hplus (Option.some.inj h)
  rw [hdigits] at hread ⊢
  rw [ftAtoi, hskip, if_neg hnominus, if_neg (not_or.mpr ⟨hnominus, hnoplus⟩), hread, ok_bind,
    mul_one]
  exact int_of_fits ⟨by omega, by omega⟩

/-- The sign is read before the digits. -/
private theorem ftAtoi_minus (digits : Str) :
    ftAtoi ('-' :: digits) = (readDigits 0 digits >>= fun integer => int (integer * -1)) := rfl

theorem ftAtoi_neg (hfits : m < 2 ^ 31) : ftAtoi ('-' :: Nat.toDigits 10 m) = .ok (-(m : Int)) := by
  rw [ftAtoi_minus, readDigits_toDigits hfits, ok_bind, mul_neg_one]
  exact int_of_fits ⟨by omega, by omega⟩

/-- The last digit of the least `int` is one too much. -/
theorem ftAtoi_least : ftAtoi "-2147483648".toList = .error .overflow := by
  have hread : readDigits 0 (['2', '1', '4', '7', '4', '8', '3', '6', '4'] ++ ['8']) =
      readDigits 214748364 ['8'] := by
    exact readDigits_append (List.all_eq_true.mp (by decide)) ['8'] 0 (by decide)
  have htens : int (214748364 * 10) = .ok 2147483640 := int_of_fits ⟨by omega, by omega⟩
  have hsum : int (2147483640 + (digitValue '8' : Nat)) = .error .overflow :=
    int_overflow (by decide)
  change ftAtoi ('-' :: (['2', '1', '4', '7', '4', '8', '3', '6', '4'] ++ ['8'])) = _
  rw [ftAtoi_minus, hread, readDigits, if_pos (by decide), htens, ok_bind, hsum]
  rfl

end Values

section Numbers

variable {n : CInt}

private theorem exists_digits (hn : n.val ≠ -2 ^ 31) :
    ∃ m : Nat, m < 2 ^ 31 ∧ (n.val = m ∨ 0 < m ∧ n.val = -(m : Int)) := by
  have hleast := n.2.1
  have hgreatest := n.2.2
  refine ⟨n.val.natAbs, ?_, ?_⟩
  · omega
  · omega

/-- What `ft_itoa` writes is the number, also for the least. -/
theorem ftItoa_eq (n : CInt) : ftItoa n = .ok (toString n.val).toList := by
  by_cases hn : n.val = -2 ^ 31
  · rw [ftItoa_least hn, hn]
    rfl
  · obtain ⟨m, hfits, hm | ⟨hpos, hm⟩⟩ := exists_digits hn
    · rw [ftItoa_nat hfits hm, hm, toList_toString_nat]
    · rw [ftItoa_neg hpos hfits hm, hm, toList_toString_neg hpos]

theorem ftAtoi_eq (hn : n.val ≠ -2 ^ 31) : ftAtoi (toString n.val).toList = .ok n.val := by
  obtain ⟨m, hfits, hm | ⟨hpos, hm⟩⟩ := exists_digits hn
  · rw [hm, toList_toString_nat, ftAtoi_nat hfits]
  · rw [hm, toList_toString_neg hpos, ftAtoi_neg hfits]

theorem not_decimalRoundTrips_of_least (hn : n.val = -2 ^ 31) : ¬DecimalRoundTrips n := by
  rintro ⟨-, hread⟩
  rw [hn] at hread
  have hoverflow := ftAtoi_least.symm.trans hread
  cases hoverflow

end Numbers

/-- The two functions go together for every `int` but the least. -/
theorem decimalRoundTrips_iff (n : CInt) : DecimalRoundTrips n ↔ n.val ≠ -2 ^ 31 := by
  constructor
  · intro hround hn
    exact not_decimalRoundTrips_of_least hn hround
  · intro hn
    exact ⟨ftItoa_eq n, ftAtoi_eq hn⟩

/-- `ft_atoi` adds beyond the greatest `int` for the digits of the least. -/
theorem not_decimalRoundTrips : ¬∀ n : CInt, DecimalRoundTrips n := by
  intro hall
  exact not_decimalRoundTrips_of_least rfl (hall ⟨-2 ^ 31, by decide⟩)

end FortyTwo.Libft
