import FortyTwo.Printf.Conversions

/-!
What `ft_printf` writes and returns is what C's `printf` does, but for a format
that ends in a `%` of its own, and for a buffer whose bytes happen to hold no
zero when a string is printed before any number.
-/

namespace FortyTwo.Printf

/-- The number in a base, the most significant digit first. -/
def numeral (base : Nat) (digit : Nat → UInt8) (n : Nat) : Bytes :=
  if n = 0 then [digit 0] else (Nat.digits base n).reverse.map digit

def literal (s : String) : Bytes := s.toList.map fun c => UInt8.ofNat c.toNat

def hexDigit (upper : Bool) (d : Nat) : UInt8 :=
  (literal (if upper then "0123456789ABCDEF" else "0123456789abcdef")).getD d 0

def decimal (n : Nat) : Bytes := numeral 10 (hexDigit false) n

def signedDecimal (n : Int) : Bytes :=
  if n < 0 then literal "-" ++ decimal n.natAbs else decimal n.natAbs

/-- The letters that `ft_operation` knows. -/
def conversions : Bytes := literal "%csdixXup"

/-- A byte of a format that stands for itself, or a `%` with its letter and the
argument for it. -/
inductive Piece where
  | byte (c : UInt8) (h : c ≠ 0 ∧ c ≠ 37)
  | percent
  | char (n : Int32)
  | string (s : Option CString)
  | decimal (i : Bool) (n : Int32)
  | unsigned (n : UInt32)
  | hex (upper : Bool) (n : UInt32)
  | pointer (p : UInt64)
  | unknown (c : UInt8) (h : c ≠ 0 ∧ c ∉ conversions)

namespace Piece

def text : Piece → Bytes
  | byte c _ => [c]
  | percent => literal "%%"
  | char _ => literal "%c"
  | string _ => literal "%s"
  | decimal i _ => literal (if i then "%i" else "%d")
  | unsigned _ => literal "%u"
  | hex upper _ => literal (if upper then "%X" else "%x")
  | pointer _ => literal "%p"
  | unknown c _ => [37, c]

theorem text_ne_zero (piece : Piece) : 0 ∉ piece.text := by
  cases piece with
  | byte c h => simpa [text] using h.1.symm
  | unknown c h => simpa [text] using h.1.symm
  | decimal i n => cases i <;> simp [text, literal]
  | hex upper n => cases upper <;> simp [text, literal]
  | _ => simp [text, literal]

def args : Piece → List Arg
  | char n => [.int n]
  | string s => [.string s]
  | decimal _ n => [.int n]
  | unsigned n => [.unsigned n]
  | hex _ n => [.unsigned n]
  | pointer p => [.pointer p]
  | _ => []

/-- What `printf` writes; it defines nothing for an unknown letter, for which
`ft_printf` writes nothing. -/
def printed : Piece → Bytes
  | byte c _ => [c]
  | percent => literal "%"
  | char n => [n.toUInt32.toUInt8]
  | string none => literal "(null)"
  | string (some s) => s.val
  | decimal _ n => signedDecimal n.toInt
  | unsigned n => Printf.decimal n.toNat
  | hex upper n => numeral 16 (hexDigit upper) n.toNat
  | pointer p => literal "0x" ++ numeral 16 (hexDigit false) p.toNat
  | unknown _ _ => []

def Known : Piece → Prop
  | unknown _ _ => False
  | _ => True

/-- Printing the piece has to do with the buffer. -/
def usesBuffer : Piece → Bool
  | byte _ _ => false
  | percent => false
  | char _ => false
  | unknown _ _ => false
  | _ => true

end Piece

/-- Of the pieces that have to do with the buffer, the first prints a string. -/
def printsString : List Piece → Bool
  | [] => false
  | .string _ :: _ => true
  | .decimal _ _ :: _ => true
  | .pointer _ :: _ => true
  | .unsigned _ :: _ => false
  | .hex _ _ :: _ => false
  | _ :: pieces => printsString pieces

/-- A format with its arguments; `trailing` is that a `%` stands at its end with
no letter. -/
structure Format where
  pieces : List Piece
  trailing : Bool := false

namespace Format

def text (format : Format) : Bytes :=
  format.pieces.flatMap Piece.text ++ if format.trailing then [37] else []

theorem text_ne_zero (format : Format) : 0 ∉ format.text := by
  intro h
  rcases List.mem_append.mp h with h | h
  · obtain ⟨piece, -, h⟩ := List.mem_flatMap.mp h
    exact piece.text_ne_zero h
  · split at h <;> simp at h

def str (format : Format) : CString := ⟨format.text, format.text_ne_zero⟩

def args (format : Format) : List Arg := format.pieces.flatMap Piece.args

def printed (format : Format) : Bytes := format.pieces.flatMap Piece.printed

/-- `printf` defines what it writes. -/
def Known (format : Format) : Prop :=
  format.trailing = false ∧ ∀ piece ∈ format.pieces, piece.Known

end Format

/-- `ft_printf` reads nothing behind the format, and does what `printf` does
where that is defined. -/
def Meets (stack : Vector UInt8 32) (fresh : Nat → UInt8) (format : Format) : Prop :=
  ∃ len output, ftPrintf stack fresh format.str format.args = .ok (len, output) ∧
    (format.Known → output = format.printed ∧ len = output.length)

section Digits

variable {base : Nat} {digit : Nat → UInt8}

theorem countDigits_eq (hbase : 1 < base) (n multidigit : Nat) :
    countDigits base n multidigit = multidigit + (Nat.digits base n).length := by
  induction n using Nat.strong_induction_on generalizing multidigit with
  | _ n ih =>
      rw [countDigits]
      rcases Nat.eq_zero_or_pos n with rfl | hn
      · simp
      · rw [dif_pos ⟨hn, hbase⟩, ih _ (Nat.div_lt_self hn hbase), Nat.digits_def' hbase hn,
          List.length_cons]
        omega

/-- The last digits of a number, as many as are asked for. -/
def lastDigits (base : Nat) (digit : Nat → UInt8) : Nat → Nat → Bytes
  | 0, _ => []
  | todo + 1, n => lastDigits base digit todo (n / base) ++ [digit (n % base)]

theorem lastDigits_length (hbase : 1 < base) (n : Nat) :
    lastDigits base digit (Nat.digits base n).length n = (Nat.digits base n).reverse.map digit := by
  induction n using Nat.strong_induction_on with
  | _ n ih =>
      rcases Nat.eq_zero_or_pos n with rfl | hn
      · simp [lastDigits]
      · rw [Nat.digits_def' hbase hn, List.length_cons, lastDigits,
          ih _ (Nat.div_lt_self hn hbase)]
        simp

theorem length_numeral (n : Nat) : (numeral base digit n).length =
    (Nat.digits base n).length + if n = 0 then 1 else 0 := by
  unfold numeral
  split
  · next h => simp [h]
  · simp

theorem lastDigits_numeral (hbase : 1 < base) (n : Nat) :
    lastDigits base digit (numeral base digit n).length n = numeral base digit n := by
  unfold numeral
  split
  · next h => simp [lastDigits, h]
  · rw [List.length_map, List.length_reverse, lastDigits_length hbase]

theorem numeral_congr {digit' : Nat → UInt8} (hbase : 1 < base)
    (h : ∀ d < base, digit d = digit' d) (n : Nat) :
    numeral base digit n = numeral base digit' n := by
  unfold numeral
  split
  · rw [h 0 (by omega)]
  · apply List.map_congr_left
    intro d hd
    apply h d
    exact Nat.digits_lt_base hbase (List.mem_reverse.mp hd)

theorem length_numeral_le (digit : Nat → UInt8) (hbase : 1 < base) {n k : Nat} (hk : 0 < k) (hn : n < base ^ k) :
    (numeral base digit n).length ≤ k := by
  have hdigits := (Nat.digits_length_le_iff hbase n).mpr hn
  rw [length_numeral]
  split
  · next h =>
      subst h
      simp only [Nat.digits_zero, List.length_nil]
      omega
  · simpa using hdigits

theorem numeral_ne_zero (hbase : 1 < base) (h : ∀ d < base, digit d ≠ 0) (n : Nat) :
    0 ∉ numeral base digit n := by
  unfold numeral
  intro h0
  split at h0
  · exact h 0 (by omega) (List.mem_singleton.mp h0).symm
  · obtain ⟨d, hd, hzero⟩ := List.mem_map.mp h0
    exact h d (Nat.digits_lt_base hbase (List.mem_reverse.mp hd)) hzero

/-- The bytes between a place and `s[i]` become the last digits. -/
theorem writeDigits_eq (base : Nat) (digit : Nat → UInt8) (n : Nat) {todo i : Nat} {s : Bytes} (htodo : todo ≤ i)
    (hi : i ≤ s.length) :
    writeDigits base digit todo i n s =
      .ok (s.take (i - todo) ++ lastDigits base digit todo n ++ s.drop i) := by
  induction todo generalizing i n s with
  | zero => simp [writeDigits, lastDigits]
  | succ todo ih =>
      have hstore : store s (i - 1) (digit (n % base)) = .ok (s.set (i - 1) (digit (n % base))) :=
        if_pos (by omega)
      rw [writeDigits, hstore]
      change writeDigits base digit todo (i - 1) (n / base) _ = _
      rw [ih _ (by omega) (by rw [List.length_set]; omega), lastDigits]
      have htake : (s.set (i - 1) (digit (n % base))).take (i - 1 - todo) =
          s.take (i - (todo + 1)) := by
        rw [List.take_set_of_le (by omega)]
        congr 1
        omega
      have hdrop : (s.set (i - 1) (digit (n % base))).drop (i - 1) =
          digit (n % base) :: s.drop i := by
        rw [List.drop_set, if_neg (by omega), Nat.sub_self,
          List.drop_eq_getElem_cons (by omega), List.set_cons_zero]
        congr 2
        omega
      rw [htake, hdrop]
      simp

end Digits

theorem cString_eq {text : Bytes} (h : 0 ∉ text) (rest : Bytes) :
    cString (text ++ 0 :: rest) = .ok text := by
  induction text with
  | nil => rfl
  | cons c text ih =>
      have hc : c ≠ 0 := fun h0 => h (by simp [h0])
      rw [List.cons_append, cString, if_neg hc, ih fun h0 => h (by simp [h0])]
      rfl

/-- A parser whose buffer holds a string. -/
structure Parser.Clean (p : Parser) : Prop where
  length : p.buffer.length = 32
  zero : 0 ∈ p.buffer

/-- What is written between two states. -/
structure Prints (p : Parser) (text : Bytes) (q : Parser) : Prop where
  output : q.output = p.output ++ text
  len : q.len = p.len + text.length

theorem Prints.trans {p q r : Parser} {text text' : Bytes} (h : Prints p text q)
    (h' : Prints q text' r) : Prints p (text ++ text') r where
  output := by rw [h'.output, h.output, List.append_assoc]
  len := by
    rw [h'.len, h.len, List.length_append]
    omega

namespace Parser

theorem bufferZero_eq {text : Bytes} (h : 0 ∉ text) (rest : Bytes) :
    bufferZero (text ++ 0 :: rest) = .ok (List.replicate text.length 0 ++ 0 :: rest) := by
  induction text with
  | nil => rfl
  | cons c text ih =>
      have hc : c ≠ 0 := fun h0 => h (by simp [h0])
      rw [List.cons_append, bufferZero, if_neg hc, ih fun h0 => h (by simp [h0])]
      rfl

theorem bufferZero_fault {text : Bytes} (h : 0 ∉ text) :
    bufferZero text = .error .outOfBuffer := by
  induction text with
  | nil => rfl
  | cons c text ih =>
      have hc : c ≠ 0 := fun h0 => h (by simp [h0])
      rw [bufferZero, if_neg hc, ih fun h0 => h (by simp [h0])]
      rfl

theorem clear_ok {p : Parser} (h : p.Clean) :
    ∃ q, p.clear = .ok q ∧ q.Clean ∧ Prints p [] q := by
  obtain ⟨text, rest, hbuffer, htext⟩ := List.eq_append_cons_of_mem h.zero
  have hsize : (List.replicate text.length (0 : UInt8) ++ 0 :: rest).length = 32 := by
    have hlength := h.length
    rw [hbuffer] at hlength
    simpa using hlength
  have hzero := bufferZero_eq htext rest
  unfold clear
  rw [← hbuffer] at hzero
  cases hp : p.buffer with
  | nil =>
      rw [hp] at hbuffer
      simp at hbuffer
  | cons c buffer =>
      rw [hp] at hzero
      dsimp only
      by_cases hc : c ≠ 0
      · rw [if_pos hc, hzero]
        exact ⟨_, rfl, ⟨hsize, by simp⟩, ⟨by simp, by simp⟩⟩
      · rw [if_neg hc]
        exact ⟨p, rfl, h, ⟨by simp, by simp⟩⟩

theorem clear_fault {p : Parser} (h : 0 ∉ p.buffer) : p.clear = .error .outOfBuffer := by
  unfold clear
  cases hp : p.buffer with
  | nil => rfl
  | cons c buffer =>
      have hc : c ≠ 0 := fun h0 => h (by simp [hp, h0])
      have hzero := bufferZero_fault h
      rw [hp] at hzero
      dsimp only
      rw [if_pos hc, hzero]
      rfl

theorem foldl_ftPrintchr (p : Parser) (str : Bytes) :
    str.foldl ftPrintchr p =
      { p with len := p.len + str.length, output := p.output ++ str } := by
  induction str generalizing p with
  | nil => simp
  | cons c str ih =>
      rw [List.foldl_cons, ih]
      simp only [ftPrintchr, List.append_assoc, List.singleton_append, List.length_cons]
      congr 1
      omega

/-- The text of a string, and of `NULL`. -/
def shown (str : Option Bytes) : Bytes := str.getD (literal "(null)")

theorem ftPrintstr_eq (p : Parser) (str : Option Bytes) :
    p.ftPrintstr str =
      clear { p with len := p.len + (shown str).length, output := p.output ++ shown str } := by
  cases str with
  | none => rfl
  | some str =>
      rw [ftPrintstr, foldl_ftPrintchr]
      rfl

theorem ftPrintstr_ok {p : Parser} (h : p.Clean) (str : Option Bytes) :
    ∃ q, p.ftPrintstr str = .ok q ∧ q.Clean ∧ Prints p (shown str) q := by
  have hclean : Clean { p with len := p.len + (shown str).length, output := p.output ++ shown str } :=
    ⟨h.length, h.zero⟩
  obtain ⟨q, hq, hclean', hprints⟩ := clear_ok hclean
  refine ⟨q, (ftPrintstr_eq p str).trans hq, hclean', ?_⟩
  have hfirst : Prints p (shown str)
      { p with len := p.len + (shown str).length, output := p.output ++ shown str } := ⟨rfl, rfl⟩
  simpa using hfirst.trans hprints

theorem ftPrintstr_fault {p : Parser} (h : 0 ∉ p.buffer) (str : Option Bytes) :
    p.ftPrintstr str = .error .outOfBuffer := by
  rw [ftPrintstr_eq]
  exact clear_fault h

theorem ftMultidigit_eq {base : Nat} (hbase : 1 < base) (digit : Nat → UInt8) (n : Nat) :
    ftMultidigit base n = (numeral base digit n).length := by
  rw [ftMultidigit, countDigits_eq hbase, length_numeral]
  omega

/-- The digit that `ft_itoa_base` writes. -/
def itoaDigit (upperLower : UInt8) (d : Nat) : UInt8 :=
  UInt8.ofNat (if d > 9 then d + upperLower.toNat else d + 48)

/-- A number that fits into the buffer is put there as a string. -/
theorem ftItoaBase_eq {p : Parser} (hlength : p.buffer.length = 32) {base n k : Nat}
    (hbase : 1 < base) (hk : 0 < k) (hfits : k < 32) (hn : n < base ^ k) :
    ∃ rest, p.ftItoaBase base n =
        .ok { p with buffer := numeral base (itoaDigit p.upperLower) n ++ 0 :: rest } ∧
      (numeral base (itoaDigit p.upperLower) n ++ 0 :: rest).length = 32 := by
  have hle := length_numeral_le (itoaDigit p.upperLower) hbase hk hn
  set text := numeral base (itoaDigit p.upperLower) n with htext
  have hcount : ftMultidigit base n = text.length := ftMultidigit_eq hbase _ n
  have hstore : store p.buffer text.length 0 = .ok (p.buffer.set text.length 0) :=
    if_pos (by omega)
  have hdrop : (p.buffer.set text.length 0).drop text.length =
      0 :: p.buffer.drop (text.length + 1) := by
    rw [List.drop_set, if_neg (by omega), Nat.sub_self, List.drop_eq_getElem_cons (by omega),
      List.set_cons_zero]
  have hwrite := writeDigits_eq base (itoaDigit p.upperLower) n
    (le_refl text.length) (s := p.buffer.set text.length 0) (by rw [List.length_set]; omega)
  refine ⟨p.buffer.drop (text.length + 1), ?_, ?_⟩
  · rw [Nat.sub_self, List.take_zero, List.nil_append, hdrop, htext,
      lastDigits_numeral hbase, ← htext] at hwrite
    rw [ftItoaBase, hcount, hstore]
    change (writeDigits base (itoaDigit p.upperLower) text.length text.length n _).bind _ = _
    rw [hwrite]
    rfl
  · simp only [List.length_append, List.length_cons, List.length_drop]
    omega

end Parser

section Itoa

theorem decimal_eq (n : Nat) : numeral 10 (fun d => UInt8.ofNat (d + 48)) n = decimal n :=
  numeral_congr (by decide) (by decide) n

theorem decimal_ne_zero (n : Nat) : 0 ∉ decimal n :=
  numeral_ne_zero (by decide) (by decide) n

/-- The rest of `ft_itoa`, once the sign is written. -/
private theorem itoa_digits (sign : Bytes) {string : Bytes} {n todo multidigit : Nat} (hsign : 0 ∉ sign)
    (htodo : todo = (decimal n).length) (hmulti : multidigit = sign.length + todo)
    (hlength : string.length = multidigit + 1) (hstring : string.take sign.length = sign) :
    (writeDigits 10 (fun d => UInt8.ofNat (d + 48)) todo multidigit n string >>=
        fun string => store string multidigit 0 >>= cString) = .ok (sign ++ decimal n) := by
  subst hmulti
  have hwrite := writeDigits_eq 10 (fun d => UInt8.ofNat (d + 48)) n
    (Nat.le_add_left todo sign.length) (s := string) (by omega)
  rw [Nat.add_sub_cancel, hstring, htodo, ← decimal_eq, lastDigits_numeral (by decide),
    decimal_eq, ← htodo] at hwrite
  rw [hwrite]
  obtain ⟨c, hc⟩ : ∃ c, string.drop (sign.length + todo) = [c] := by
    rw [← List.length_eq_one_iff, List.length_drop]
    omega
  rw [hc]
  have hfront : (sign ++ decimal n).length = sign.length + todo := by
    rw [List.length_append, htodo]
  have hstore : store (sign ++ decimal n ++ [c]) (sign.length + todo) 0 =
      .ok (sign ++ decimal n ++ [0]) := by
    rw [store, if_pos (by rw [List.length_append, hfront]; simp), ← hfront,
      List.set_append_right _ _ le_rfl, Nat.sub_self]
    rfl
  change (store (sign ++ decimal n ++ [c]) (sign.length + todo) 0).bind _ = _
  rw [hstore]
  refine cString_eq (fun h0 => ?_) []
  rcases List.mem_append.mp h0 with h0 | h0
  · exact hsign h0
  · exact decimal_ne_zero n h0

theorem ftNumMultiDigits_eq {n : Int} (hn : n ≠ -2147483648) :
    ftNumMultiDigits n = (if n < 0 then 1 else 0) + (decimal n.natAbs).length := by
  rw [ftNumMultiDigits, if_neg hn, countDigits_eq (by decide), decimal, length_numeral]
  split_ifs <;> omega

theorem ftItoa_eq (fresh : Nat → UInt8) (n : Int) :
    ftItoa fresh n = .ok (signedDecimal n) := by
  rcases eq_or_ne n (-2147483648) with rfl | hmin
  · have hdecimal : decimal 2147483648 = literal "2147483648" := by
      norm_num [decimal, numeral, hexDigit, literal]
      rfl
    have hsigned : signedDecimal (-2147483648) = literal "-2147483648" := by
      change (if (-2147483648 : Int) < 0 then literal "-" ++ decimal 2147483648 else _) = _
      rw [if_pos (by decide), hdecimal]
      rfl
    rw [hsigned]
    rfl
  · have hcount := ftNumMultiDigits_eq hmin
    have hlength : ((List.range (ftNumMultiDigits n + 1)).map fresh).length =
        ftNumMultiDigits n + 1 := by simp
    rw [ftItoa, if_neg hmin, signedDecimal]
    by_cases hneg : n < 0
    · rw [if_pos hneg] at hcount
      simp only [hneg, if_true]
      have hstore : store ((List.range (ftNumMultiDigits n + 1)).map fresh) 0 45 =
          .ok (((List.range (ftNumMultiDigits n + 1)).map fresh).set 0 45) := if_pos (by omega)
      rw [hstore]
      exact itoa_digits [45] (by decide) (by omega)
        (by simp only [List.length_singleton]; omega) (by rw [List.length_set]; exact hlength)
        (by rw [List.range_succ_eq_map]; rfl)
    · rw [if_neg hneg] at hcount
      simp only [hneg, if_false]
      exact itoa_digits [] (by decide) (by omega) (by simp) hlength rfl

end Itoa

section Conversions

variable {p : Parser} {n : Nat}

/-- The digits of a number in the buffer are printed and wiped out. -/
private theorem print_number (base k : Nat) (upperLower : UInt8) (upper : Bool)
    (hlength : p.buffer.length = 32) (hbase : 1 < base ∧ base ≤ 16) (hk : 0 < k ∧ k < 32)
    (hn : n < base ^ k) (hupper : ∀ d < base, Parser.itoaDigit upperLower d = hexDigit upper d) :
    ∃ q, (({ p with upperLower := upperLower } : Parser).ftItoaBase base n >>= fun p =>
        cString p.buffer >>= fun text => p.ftPrintstr (some text)) = .ok q ∧
      q.Clean ∧ Prints p (numeral base (hexDigit upper) n) q := by
  obtain ⟨rest, hbuffer, hlength'⟩ := Parser.ftItoaBase_eq
    (p := { p with upperLower := upperLower }) hlength hbase.1 hk.1 hk.2 hn
  rw [numeral_congr hbase.1 hupper n] at hbuffer hlength'
  have hzero : 0 ∉ numeral base (hexDigit upper) n := by
    refine numeral_ne_zero hbase.1 (fun d hd => ?_) n
    have hall : ∀ d < 16, hexDigit upper d ≠ 0 := by cases upper <;> decide
    exact hall d (by omega)
  rw [hbuffer]
  set text := numeral base (hexDigit upper) n
  have hclean : Parser.Clean
      { p with upperLower := upperLower, buffer := text ++ 0 :: rest } := ⟨hlength', by simp⟩
  obtain ⟨q, hq, hclean', hprints⟩ := Parser.ftPrintstr_ok hclean (some text)
  refine ⟨q, ?_, hclean', ⟨hprints.output, hprints.len⟩⟩
  change (cString (text ++ 0 :: rest)).bind _ = _
  rw [cString_eq hzero]
  exact hq

theorem handle_unsigned (hlength : p.buffer.length = 32) (hflag : p.flag = 117)
    (hn : n < 10 ^ 10) :
    ∃ q, p.ftConversionHandler n = .ok q ∧ q.Clean ∧ Prints p (decimal n) q := by
  obtain ⟨q, hq, hclean, hprints⟩ :=
    print_number 10 10 48 false hlength (by decide) (by decide) hn (by decide)
  refine ⟨q, ?_, hclean, hprints⟩
  rw [Parser.ftConversionHandler, if_neg (by rw [hflag]; decide), if_neg (by rw [hflag]; decide),
    if_pos hflag]
  exact hq

theorem handle_hex (hlength : p.buffer.length = 32) (upper : Bool)
    (hflag : p.flag = if upper then 88 else 120) (hn : n < 16 ^ 8) :
    ∃ q, p.ftConversionHandler n = .ok q ∧ q.Clean ∧
      Prints p (numeral 16 (hexDigit upper) n) q := by
  rw [Parser.ftConversionHandler]
  cases upper with
  | false =>
      rw [if_pos (show p.flag = 120 from hflag)]
      exact print_number 16 8 87 false hlength (by decide) (by decide) hn (by decide)
  | true =>
      have hletter : p.flag = 88 := hflag
      rw [if_neg (by rw [hletter]; decide), if_pos hletter]
      exact print_number 16 8 55 true hlength (by decide) (by decide) hn (by decide)

theorem handle_pointer (h : p.Clean) (hflag : p.flag = 112) (hn : n < 16 ^ 16) :
    ∃ q, p.ftConversionHandler n = .ok q ∧ q.Clean ∧
      Prints p (literal "0x" ++ numeral 16 (hexDigit false) n) q := by
  obtain ⟨r, hr, hclean, hprints⟩ := Parser.ftPrintstr_ok h (some [48, 120])
  obtain ⟨q, hq, hclean', hprints'⟩ :=
    print_number 16 16 87 false hclean.length (by decide) (by decide) hn (by decide)
  refine ⟨q, ?_, hclean', hprints.trans hprints'⟩
  rw [Parser.ftConversionHandler, if_neg (by rw [hflag]; decide), if_neg (by rw [hflag]; decide),
    if_neg (by rw [hflag]; decide), if_pos hflag, hr]
  exact hq

/-- The pointer's prefix is a string like any other. -/
theorem handle_pointer_fault (h : 0 ∉ p.buffer) (hflag : p.flag = 112) :
    p.ftConversionHandler n = .error .outOfBuffer := by
  rw [Parser.ftConversionHandler, if_neg (by rw [hflag]; decide), if_neg (by rw [hflag]; decide),
    if_neg (by rw [hflag]; decide), if_pos hflag, Parser.ftPrintstr_fault h]
  rfl

end Conversions

/-- The pieces that are left do not run over the end of the buffer. -/
structure Safe (p : Parser) (pieces : List Piece) : Prop where
  length : p.buffer.length = 32
  zero : 0 ∈ p.buffer ∨ printsString pieces = false

section Scan

variable {fresh : Nat → UInt8} {p : Parser} {pieces : List Piece}

theorem Safe.of_clean (h : p.Clean) (pieces : List Piece) : Safe p pieces := ⟨h.length, Or.inl h.zero⟩

theorem Safe.clean (h : Safe p pieces) (hstring : printsString pieces = true) : p.Clean :=
  ⟨h.length, h.zero.resolve_right (by simp [hstring])⟩

theorem scan_letter (c : UInt8) (rest : Bytes) (args : List Arg) :
    scan fresh (37 :: c :: rest) p args =
      (ftOperation fresh { p with flag := c } args).bind fun r => scan fresh rest r.1 r.2 := by
  rw [scan, if_pos rfl]
  rfl

theorem operation_string_eq (hflag : p.flag = 115) (str : Option CString) (args : List Arg) :
    ftOperation fresh p (.string str :: args) =
      (p.ftPrintstr (str.map Subtype.val)).map fun q => (q, args) := by
  rw [ftOperation, if_neg (by rw [hflag]; decide), if_neg (by rw [hflag]; decide), if_pos hflag]
  cases p.ftPrintstr (str.map Subtype.val) <;> rfl

theorem operation_decimal_eq (hflag : p.flag = 100 ∨ p.flag = 105) (n : Int32)
    (args : List Arg) :
    ftOperation fresh p (.int n :: args) =
      (p.ftPrintstr (some (signedDecimal n.toInt))).map fun q => (q, args) := by
  have hne : ∀ c ∈ [37, 99, 115], p.flag ≠ c := by
    rcases hflag with hflag | hflag <;> rw [hflag] <;> decide +kernel
  rw [ftOperation, if_neg (hne 37 (by decide)), if_neg (hne 99 (by decide)),
    if_neg (hne 115 (by decide)), if_pos hflag, ftItoa_eq]
  change (p.ftPrintstr (some (signedDecimal n.toInt))).bind _ = _
  cases p.ftPrintstr (some (signedDecimal n.toInt)) <;> rfl

/-- `%u`, `%x`, `%X`. -/
theorem operation_number {c : UInt8} (hc : c ∈ [120, 88, 117]) (hflag : p.flag = c) (n : UInt32)
    (args : List Arg) :
    ftOperation fresh p (.unsigned n :: args) =
      (p.ftConversionHandler n.toNat).map fun q => (q, args) := by
  have hne : ∀ c ∈ [37, 99, 115, 100, 105], p.flag ≠ c := by
    have hall : ∀ letter ∈ [120, 88, 117], ∀ c ∈ [37, 99, 115, 100, 105],
        (letter : UInt8) ≠ c := by decide +kernel
    rw [hflag]
    exact hall c hc
  have hnot : ¬ (p.flag = 100 ∨ p.flag = 105) :=
    not_or.mpr ⟨hne 100 (by decide), hne 105 (by decide)⟩
  rw [ftOperation, if_neg (hne 37 (by decide)), if_neg (hne 99 (by decide)),
    if_neg (hne 115 (by decide)), if_neg hnot, if_pos (by simpa [hflag] using hc)]
  cases p.ftConversionHandler n.toNat <;> rfl

theorem operation_pointer (hflag : p.flag = 112) (n : UInt64) (args : List Arg) :
    ftOperation fresh p (.pointer n :: args) =
      (p.ftConversionHandler n.toNat).map fun q => (q, args) := by
  simp only [ftOperation, hflag]
  cases p.ftConversionHandler n.toNat <;> rfl

theorem operation_unknown (hflag : p.flag ∉ conversions) (args : List Arg) :
    ftOperation fresh p args = .ok (p, args) := by
  have hne : ∀ letter ∈ conversions, p.flag ≠ letter := fun letter hl heq => hflag (heq ▸ hl)
  have hdecimal : ¬ (p.flag = 100 ∨ p.flag = 105) :=
    not_or.mpr ⟨hne 100 (by decide), hne 105 (by decide)⟩
  have hnumber : ¬ (p.flag = 120 ∨ p.flag = 88 ∨ p.flag = 117) :=
    not_or.mpr ⟨hne 120 (by decide), not_or.mpr ⟨hne 88 (by decide), hne 117 (by decide)⟩⟩
  unfold ftOperation
  rw [if_neg (hne 37 (by decide)), if_neg (hne 99 (by decide)), if_neg (hne 115 (by decide)),
    if_neg hdecimal, if_neg hnumber, if_neg (hne 112 (by decide))]

/-- Behind `%` and a letter the scan goes on from what `ft_operation` leaves. -/
private theorem scan_operation {c : UInt8} {args args' : List Arg} {q : Parser}
    (h : ftOperation fresh { p with flag := c } args' = .ok (q, args)) (rest : Bytes) :
    scan fresh (37 :: c :: rest) p args' = scan fresh rest q args := by
  rw [scan_letter, h]
  rfl

/-- A piece that has nothing to do with the buffer. -/
theorem scan_plain (fresh : Nat → UInt8) (p : Parser) (piece : Piece) (h : piece.usesBuffer = false) (rest : Bytes)
    (args : List Arg) :
    ∃ q, scan fresh (piece.text ++ rest) p (piece.args ++ args) = scan fresh rest q args ∧
      Prints p piece.printed q ∧ q.buffer = p.buffer := by
  cases piece with
  | byte c hc =>
      refine ⟨p.ftPrintchr c, ?_, ⟨rfl, rfl⟩, rfl⟩
      change scan fresh (c :: rest) p args = _
      cases rest <;> simp [scan, hc.2]
  | percent =>
      have hprint : ftOperation fresh { p with flag := 37 } args =
          .ok (Parser.ftPrintchr { p with flag := 37 } 37, args) := rfl
      exact ⟨_, scan_operation hprint rest, ⟨rfl, rfl⟩, rfl⟩
  | char n =>
      have hprint : ftOperation fresh { p with flag := 99 } (.int n :: args) =
          .ok (Parser.ftPrintchr { p with flag := 99 } n.toUInt32.toUInt8, args) := rfl
      exact ⟨_, scan_operation hprint rest, ⟨rfl, rfl⟩, rfl⟩
  | unknown c hc =>
      exact ⟨_, scan_operation (operation_unknown (p := { p with flag := c }) hc.2 args) rest,
        ⟨by simp [Piece.printed], by simp [Piece.printed]⟩, rfl⟩
  | _ => cases h

theorem printsString_plain (piece : Piece) (h : piece.usesBuffer = false) :
    printsString (piece :: pieces) = printsString pieces := by
  cases piece <;> first | rfl | cases h

/-- A piece is printed, and the scan goes on behind it. -/
theorem scan_piece (fresh : Nat → UInt8) (piece : Piece) (h : Safe p (piece :: pieces)) (rest : Bytes)
    (args : List Arg) :
    ∃ q, scan fresh (piece.text ++ rest) p (piece.args ++ args) = scan fresh rest q args ∧
      Prints p piece.printed q ∧ Safe q pieces := by
  have hplain : piece.usesBuffer = false →
      ∃ q, scan fresh (piece.text ++ rest) p (piece.args ++ args) = scan fresh rest q args ∧
        Prints p piece.printed q ∧ Safe q pieces := by
    intro huses
    obtain ⟨q, hq, hprints, hbuffer⟩ := scan_plain fresh p piece huses rest args
    refine ⟨q, hq, hprints, ?_, ?_⟩
    · rw [hbuffer]
      exact h.length
    · rw [hbuffer, ← printsString_plain piece huses]
      exact h.zero
  cases piece with
  | string str =>
      have hclean := h.clean rfl
      obtain ⟨q, hq, hclean', hprints⟩ := Parser.ftPrintstr_ok (p := { p with flag := 115 })
        ⟨hclean.length, hclean.zero⟩ (str.map Subtype.val)
      have hoperation : ftOperation fresh { p with flag := 115 } (.string str :: args) =
          .ok (q, args) := by
        rw [operation_string_eq rfl, hq]
        rfl
      refine ⟨q, scan_operation hoperation rest, ?_, .of_clean hclean' pieces⟩
      cases str <;> exact ⟨hprints.output, hprints.len⟩
  | decimal i n =>
      have hclean := h.clean rfl
      obtain ⟨q, hq, hclean', hprints⟩ :=
        Parser.ftPrintstr_ok (p := { p with flag := if i then 105 else 100 })
          ⟨hclean.length, hclean.zero⟩ (some (signedDecimal n.toInt))
      have hoperation : ftOperation fresh { p with flag := if i then 105 else 100 }
          (.int n :: args) = .ok (q, args) := by
        rw [operation_decimal_eq (by cases i <;> simp), hq]
        rfl
      refine ⟨q, ?_, ⟨hprints.output, hprints.len⟩, .of_clean hclean' pieces⟩
      cases i <;> exact scan_operation hoperation rest
  | unsigned n =>
      obtain ⟨q, hq, hclean, hprints⟩ := handle_unsigned (p := { p with flag := 117 }) h.length rfl
        (lt_trans n.toNat_lt (by norm_num))
      have hoperation : ftOperation fresh { p with flag := 117 } (.unsigned n :: args) =
          .ok (q, args) := by
        rw [operation_number (c := 117) (by decide) rfl, hq]
        rfl
      exact ⟨q, scan_operation hoperation rest, ⟨hprints.output, hprints.len⟩,
        .of_clean hclean pieces⟩
  | hex upper n =>
      obtain ⟨q, hq, hclean, hprints⟩ := handle_hex
        (p := { p with flag := if upper then 88 else 120 }) h.length upper rfl
        (lt_of_lt_of_eq n.toNat_lt (by norm_num))
      refine ⟨q, ?_, ⟨hprints.output, hprints.len⟩, .of_clean hclean pieces⟩
      have hoperation : ftOperation fresh { p with flag := if upper then 88 else 120 }
          (.unsigned n :: args) = .ok (q, args) := by
        rw [operation_number (c := if upper then 88 else 120) (by cases upper <;> decide) rfl, hq]
        rfl
      cases upper <;> exact scan_operation hoperation rest
  | pointer n =>
      have hclean := h.clean rfl
      obtain ⟨q, hq, hclean', hprints⟩ := handle_pointer (p := { p with flag := 112 })
        ⟨hclean.length, hclean.zero⟩ rfl (lt_of_lt_of_eq n.toNat_lt (by norm_num))
      have hoperation : ftOperation fresh { p with flag := 112 } (.pointer n :: args) =
          .ok (q, args) := by
        rw [operation_pointer rfl, hq]
        rfl
      exact ⟨q, scan_operation hoperation rest, ⟨hprints.output, hprints.len⟩,
        .of_clean hclean' pieces⟩
  | byte c hc => exact hplain rfl
  | percent => exact hplain rfl
  | char n => exact hplain rfl
  | unknown c hc => exact hplain rfl

/-- All the pieces are printed. -/
theorem scan_pieces (fresh : Nat → UInt8) (h : Safe p pieces) (rest : Bytes) (args : List Arg) :
    ∃ q, scan fresh (pieces.flatMap Piece.text ++ rest) p (pieces.flatMap Piece.args ++ args) =
        scan fresh rest q args ∧ Prints p (pieces.flatMap Piece.printed) q := by
  induction pieces generalizing p with
  | nil => exact ⟨p, rfl, ⟨by simp, by simp⟩⟩
  | cons piece pieces ih =>
      obtain ⟨q, hq, hprints, hsafe⟩ := scan_piece fresh piece h
        (pieces.flatMap Piece.text ++ rest) (pieces.flatMap Piece.args ++ args)
      obtain ⟨r, hr, hprints'⟩ := ih hsafe
      refine ⟨r, ?_, hprints.trans hprints'⟩
      rw [List.flatMap_cons, List.flatMap_cons, List.append_assoc, List.append_assoc, hq, hr]

private theorem scan_stops {c : UInt8} {args : List Arg}
    (h : ftOperation fresh { p with flag := c } args = .error .outOfBuffer) (rest : Bytes) :
    scan fresh (37 :: c :: rest) p args = .error .outOfBuffer := by
  rw [scan_letter, h]
  rfl

/-- A string that is printed while the buffer holds no zero. -/
theorem scan_fault (hzero : 0 ∉ p.buffer) (hstring : printsString pieces = true) (rest : Bytes)
    (args : List Arg) :
    scan fresh (pieces.flatMap Piece.text ++ rest) p (pieces.flatMap Piece.args ++ args) =
      .error .outOfBuffer := by
  induction pieces generalizing p with
  | nil => cases hstring
  | cons piece pieces ih =>
      rw [List.flatMap_cons, List.flatMap_cons, List.append_assoc, List.append_assoc]
      cases huses : piece.usesBuffer with
      | false =>
          obtain ⟨q, hq, -, hbuffer⟩ := scan_plain fresh p piece huses
            (pieces.flatMap Piece.text ++ rest) (pieces.flatMap Piece.args ++ args)
          rw [printsString_plain piece huses] at hstring
          rw [hq]
          exact ih (hbuffer ▸ hzero) hstring
      | true =>
          have hprint : ∀ c str, Parser.ftPrintstr { p with flag := c } str =
              .error .outOfBuffer := by
            intro c str
            exact Parser.ftPrintstr_fault (p := { p with flag := c }) hzero str
          set args' := pieces.flatMap Piece.args ++ args
          cases piece with
          | string str =>
              have hoperation : ftOperation fresh { p with flag := 115 } (.string str :: args') =
                  .error .outOfBuffer := by
                rw [operation_string_eq rfl, hprint]
                rfl
              exact scan_stops hoperation _
          | decimal i n =>
              have hoperation : ftOperation fresh { p with flag := if i then 105 else 100 }
                  (.int n :: args') = .error .outOfBuffer := by
                rw [operation_decimal_eq (by cases i <;> simp), hprint]
                rfl
              cases i <;> exact scan_stops hoperation _
          | pointer n =>
              have hoperation : ftOperation fresh { p with flag := 112 } (.pointer n :: args') =
                  .error .outOfBuffer := by
                rw [operation_pointer rfl,
                  handle_pointer_fault (p := { p with flag := 112 }) hzero rfl]
                rfl
              exact scan_stops hoperation _
          | unsigned n => cases hstring
          | hex upper n => cases hstring
          | _ => cases huses

end Scan

/-- Every format is made of such pieces, whatever the arguments of its letters. -/
theorem exists_format (str : CString) : ∃ format : Format, format.str = str := by
  obtain ⟨str, hstr⟩ := str
  suffices h : ∃ format : Format, format.text = str by
    obtain ⟨format, htext⟩ := h
    exact ⟨format, Subtype.ext htext⟩
  induction hsize : str.length using Nat.strong_induction_on generalizing str with
  | _ size ih =>
      -- a piece in front of the pieces that the rest is made of
      have hcons : ∀ (piece : Piece) rest, str = piece.text ++ rest → 0 < piece.text.length →
          ∃ format : Format, format.text = str := by
        rintro piece rest rfl hpos
        obtain ⟨format, htext⟩ := ih rest.length
          (by rw [← hsize, List.length_append]; omega) rest
          (fun h => hstr (List.mem_append_right _ h)) rfl
        refine ⟨⟨piece :: format.pieces, format.trailing⟩, ?_⟩
        rw [← htext, Format.text, List.flatMap_cons, List.append_assoc]
        rfl
      match str with
      | [] => exact ⟨⟨[], false⟩, rfl⟩
      | [c] =>
          by_cases hc : c = 37
          · exact ⟨⟨[], true⟩, by simp [Format.text, hc]⟩
          · exact hcons (.byte c ⟨fun h => hstr (by simp [h]), hc⟩) [] rfl Nat.zero_lt_one
      | c :: letter :: rest =>
          by_cases hc : c = 37
          · subst hc
            by_cases hknown : letter ∈ conversions
            · have hletter : ∃ piece : Piece, piece.text = [37, letter] := by
                have hcases : letter = 37 ∨ letter = 99 ∨ letter = 115 ∨ letter = 100 ∨
                    letter = 105 ∨ letter = 120 ∨ letter = 88 ∨ letter = 117 ∨ letter = 112 := by
                  simpa [conversions, literal] using hknown
                rcases hcases with rfl | rfl | rfl | rfl | rfl | rfl | rfl | rfl | rfl
                · exact ⟨.percent, rfl⟩
                · exact ⟨.char 0, rfl⟩
                · exact ⟨.string none, rfl⟩
                · exact ⟨.decimal false 0, rfl⟩
                · exact ⟨.decimal true 0, rfl⟩
                · exact ⟨.hex false 0, rfl⟩
                · exact ⟨.hex true 0, rfl⟩
                · exact ⟨.unsigned 0, rfl⟩
                · exact ⟨.pointer 0, rfl⟩
              obtain ⟨piece, hpiece⟩ := hletter
              exact hcons piece rest (by rw [hpiece]; rfl) (by rw [hpiece]; exact Nat.zero_lt_two)
            · exact hcons (.unknown letter ⟨fun h => hstr (by simp [h]), hknown⟩) rest rfl
                Nat.zero_lt_two
          · exact hcons (.byte c ⟨fun h => hstr (by simp [h]), hc⟩) (letter :: rest) rfl
              Nat.zero_lt_one

end FortyTwo.Printf
