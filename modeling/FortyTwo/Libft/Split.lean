import FortyTwo.Foundation.Words
import FortyTwo.Libft.Arrays

/-!
`ft_split.c` and the `ft_substr` it uses. A `size_t` counts every string, and `malloc` succeeds.
-/

namespace FortyTwo.Libft

open Foundation

abbrev CString := { text : Str // '\x00' ∉ text }

/-- An array of strings: places that hold a pointer or nothing yet. `none` is `NULL`. -/
abbrev StringArray := List (Option (Option Str))

/-- The copy loop of `ft_substr`, and the zero behind it. -/
def copyLoop (s : Str) (lengthOfS : Nat) :
    Nat → Nat → Nat → List (Option Char) → Except Fault (List (Option Char))
  | 0, i, _, substring => store substring i '\x00'
  | todo + 1, i, start, substring =>
      if start < lengthOfS then do
        let substring ← store substring i (s.getD start '\x00')
        copyLoop s lengthOfS todo (i + 1) (start + 1) substring
      else store substring i '\x00'

/-- `start` and the length of the string are `unsigned int`s. -/
def ftSubstr (s : Str) (start len : Nat) : Except Fault Str := do
  let lengthOfS := s.length % 2 ^ 32
  let substring :=
    if len = 0 ∨ start ≥ lengthOfS then malloc 1
    else if len > lengthOfS - start then malloc ((lengthOfS - start + 1) % 2 ^ 32)
    else malloc (len + 1)
  let substring ← copyLoop s lengthOfS len 0 start substring
  cString substring

def wordCounter (delimiter : Char) : Str → Int → Bool → Except Fault Int
  | [], amountOfWords, _ => .ok amountOfWords
  | c :: rest, amountOfWords, inWord => do
      let amountOfWords ←
        if c ≠ delimiter ∧ inWord = false then int (amountOfWords + 1) else .ok amountOfWords
      wordCounter delimiter rest amountOfWords (c ≠ delimiter)

/-- The index `i` counts as `length` does. -/
def wordLength (delimiter : Char) : Str → Int → Except Fault Int
  | [], length => .ok length
  | c :: rest, length =>
      if c ≠ delimiter then do
        let length ← int (length + 1)
        wordLength delimiter rest length
      else .ok length

/-- The loop of `ft_split`, and the `NULL` behind it. -/
def splitLoop (delimiter : Char) : Str → Int → StringArray → Except Fault StringArray
  | [], memI, memory => store memory memI none
  | c :: rest, memI, memory =>
      if c ≠ delimiter then do
        let length ← wordLength delimiter (c :: rest) 0
        let word ← ftSubstr (c :: rest) 0 length.toNat
        let memory ← store memory memI (some word)
        let memI ← int (memI + 1)
        -- `string += length`, and the word has a first character
        splitLoop delimiter (rest.drop (length.toNat - 1)) memI memory
      else splitLoop delimiter rest memI memory
  termination_by string => string.length
  decreasing_by
    · rw [List.length_drop, List.length_cons]
      omega
    · exact Nat.lt_succ_self _

def ftSplit (string : Str) (delimiter : Char) : Except Fault StringArray := do
  let words ← wordCounter delimiter string 0 false
  let size ← int (words + 1)
  splitLoop delimiter string 0 (malloc size.toNat)

/-- The strings of the list, and `NULL` behind them. -/
def nullTerminated (strings : List Str) : StringArray := (strings.map some ++ [none]).map some

section Substring

/-- What the copy loop stores. -/
theorem copyLoop_eq (s : Str) {lengthOfS : Nat} (hle : lengthOfS ≤ s.length)
    (todo i start : Nat) (substring : List (Option Char)) :
    copyLoop s lengthOfS todo i start substring =
      storeString substring i (((s.take lengthOfS).drop start).take todo) := by
  induction todo generalizing i start substring with
  | zero => rfl
  | succ todo ih =>
      by_cases hstart : start < lengthOfS
      · have hin : start < (s.take lengthOfS).length := by
          rw [List.length_take]
          omega
        have hget : s.getD start '\x00' = (s.take lengthOfS)[start] := by
          rw [List.getElem_take, List.getD_eq_getElem?_getD,
            List.getElem?_eq_getElem (lt_of_lt_of_le hstart hle), Option.getD_some]
        rw [copyLoop, if_pos hstart, hget, List.drop_eq_getElem_cons hin, List.take_succ_cons,
          storeString]
        simp only [ih]
      · have hnil : (s.take lengthOfS).drop start = [] := by
          apply List.drop_of_length_le
          rw [List.length_take]
          omega
        rw [copyLoop, if_neg hstart, hnil]
        rfl

/-- From the first character on, as many as the length modulo `2 ^ 32` lets pass. -/
theorem ftSubstr_front (s : CString) {len : Nat} (hlen : len < 2 ^ 31) :
    ftSubstr s.val 0 len = .ok (s.val.take (min len (s.val.length % 2 ^ 32))) := by
  have hle := Nat.mod_le s.val.length (2 ^ 32)
  have hlt := Nat.mod_lt s.val.length (by decide : 2 ^ 32 > 0)
  have htake : ((s.val.take (s.val.length % 2 ^ 32)).drop 0).take len =
      s.val.take (min len (s.val.length % 2 ^ 32)) := by
    rw [List.drop_zero, List.take_take]
  have hlength : (s.val.take (min len (s.val.length % 2 ^ 32))).length =
      min len (s.val.length % 2 ^ 32) := by
    rw [List.length_take]
    omega
  have hzero : '\x00' ∉ s.val.take (min len (s.val.length % 2 ^ 32)) :=
    fun hmem => s.2 (List.mem_of_mem_take hmem)
  rw [ftSubstr, copyLoop_eq _ hle, htake]
  split_ifs with hsmall hlong
  · exact cString_storeString hzero (by omega)
  · exact cString_storeString hzero (by omega)
  · exact cString_storeString hzero (by omega)

end Substring

section Counting

variable (delimiter : Char)

/-- Where the words are that are not counted yet. -/
def uncounted (delimiter : Char) (inWord : Bool) (string : Str) : Str :=
  if inWord then string.dropWhile (· != delimiter) else string

theorem wordCounter_eq (string : Str) (inWord : Bool) {amount : Nat} (h : amount < 2 ^ 31) :
    wordCounter delimiter string amount inWord =
      int (amount + (words delimiter (uncounted delimiter inWord string)).length : Nat) := by
  induction string generalizing inWord amount with
  | nil =>
      have hnil : uncounted delimiter inWord [] = [] := ite_self []
      rw [wordCounter, hnil, words_nil, List.length_nil, Nat.add_zero, int_of_fits (by omega)]
  | cons c rest ih =>
      by_cases hc : c = delimiter
      · have hwords : words delimiter (uncounted delimiter inWord (c :: rest)) =
            words delimiter rest := by
          subst hc
          cases inWord with
          | false => exact words_cons_sep rest
          | true =>
              rw [uncounted, if_pos rfl, List.dropWhile_cons_of_neg (by simp)]
              exact words_cons_sep rest
        rw [wordCounter, if_neg (fun hword => hword.1 hc), ok_bind, decide_eq_false (not_not.mpr hc),
          hwords]
        exact ih false h
      · cases inWord with
        | true =>
            have hsame : uncounted delimiter true (c :: rest) = uncounted delimiter true rest := by
              rw [uncounted, if_pos rfl, List.dropWhile_cons_of_pos (by simpa using hc)]
              rfl
            rw [wordCounter, if_neg (by simp), ok_bind, decide_eq_true hc, hsame]
            exact ih true h
        | false =>
            have hwords : (words delimiter (uncounted delimiter false (c :: rest))).length =
                (words delimiter (uncounted delimiter true rest)).length + 1 := by
              rw [uncounted, if_neg (by decide), words_cons_of_ne hc, List.length_cons, uncounted,
                if_pos rfl]
            rw [wordCounter, if_pos ⟨hc, rfl⟩, decide_eq_true hc, hwords]
            by_cases hfits : amount + 1 < 2 ^ 31
            · have hnext : int ((amount : Int) + 1) = .ok (amount + 1 : Nat) :=
                int_of_fits (by omega)
              have hlater := ih true hfits
              rw [Nat.add_assoc, Nat.add_comm 1] at hlater
              rw [hnext, ok_bind]
              exact hlater
            · rw [int_overflow (by omega), int_overflow (by omega)]
              rfl

theorem wordCounter_start (string : Str) :
    wordCounter delimiter string 0 false = int ((words delimiter string).length : Nat) := by
  have hcount := wordCounter_eq delimiter string false (Nat.two_pow_pos 31)
  rw [Nat.zero_add] at hcount
  exact hcount

theorem wordLength_eq (string : Str) {length : Nat} (h : length < 2 ^ 31) :
    wordLength delimiter string length =
      int (length + (string.takeWhile (· != delimiter)).length : Nat) := by
  induction string generalizing length with
  | nil => rw [wordLength, List.takeWhile_nil, List.length_nil, int_of_fits (by omega)]; rfl
  | cons c rest ih =>
      by_cases hc : c ≠ delimiter
      · rw [wordLength, if_pos hc, List.takeWhile_cons_of_pos (by simpa using hc), List.length_cons]
        by_cases hfits : length + 1 < 2 ^ 31
        · have hnext : int ((length : Int) + 1) = .ok (length + 1 : Nat) := int_of_fits (by omega)
          have hlater := ih hfits
          rw [Nat.add_assoc, Nat.add_comm 1] at hlater
          rw [hnext, ok_bind]
          exact hlater
        · rw [int_overflow (by omega), int_overflow (by omega)]
          rfl
      · rw [wordLength, if_neg hc, List.takeWhile_cons_of_neg (by simpa using hc), List.length_nil,
          int_of_fits (by omega)]
        rfl

end Counting

section Cutting

variable {delimiter : Char}

/-- The word that `ft_split` stores where a word begins. -/
def cut (delimiter : Char) (string : Str) : Except Fault Str := do
  let length ← wordLength delimiter string 0
  ftSubstr string 0 length.toNat

section Fits

variable {string : Str} (h : (string.takeWhile (· != delimiter)).length < 2 ^ 31)

include h

theorem wordLength_of_fits : wordLength delimiter string 0 =
    .ok ((string.takeWhile (· != delimiter)).length : Nat) := by
  have hlength := wordLength_eq delimiter string (Nat.two_pow_pos 31)
  rwa [Nat.zero_add, int_of_fits (by omega)] at hlength

theorem cut_of_fits : cut delimiter string =
    ftSubstr string 0 (string.takeWhile (· != delimiter)).length := by
  rw [cut, wordLength_of_fits h]
  rfl

/-- Of a word the first characters are stored, as many as the length of the rest of the string
is modulo `2 ^ 32`. -/
theorem cut_eq (hzero : '\x00' ∉ string) : cut delimiter string =
    .ok ((string.takeWhile (· != delimiter)).take (string.length % 2 ^ 32)) := by
  have hsubstr := ftSubstr_front ⟨string, hzero⟩ h
  rw [min_comm, ← List.take_take, take_length_takeWhile] at hsubstr
  rw [cut_of_fits h, hsubstr]

end Fits

theorem wordLength_overflow {string : Str}
    (h : 2 ^ 31 ≤ (string.takeWhile (· != delimiter)).length) :
    wordLength delimiter string 0 = .error .overflow := by
  have hlength := wordLength_eq delimiter string (Nat.two_pow_pos 31)
  rwa [Nat.zero_add, int_overflow (by omega)] at hlength

/-- The loop stores what it cuts at each word, and fails where a cut fails. -/
theorem splitLoop_eq (delimiter : Char) (string : Str) (front : StringArray)
    (hfits : front.length + (words delimiter string).length + 1 < 2 ^ 31) :
    splitLoop delimiter string front.length
      (front ++ malloc ((words delimiter string).length + 1)) =
        ((wordSuffixes delimiter string).mapM (cut delimiter) >>= fun strings =>
          .ok (front ++ nullTerminated strings)) := by
  induction string using wordSuffixes.induct delimiter generalizing front with
  | case1 =>
      rw [splitLoop, words_nil, wordSuffixes, List.mapM_nil]
      exact store_at front [] none none
  | case2 rest ih =>
      rw [words_cons_sep] at hfits ⊢
      rw [splitLoop, if_neg (not_not.mpr rfl), wordSuffixes, if_pos rfl]
      exact ih front hfits
  | case3 c rest hc ih =>
      rw [words_cons_of_ne hc, List.length_cons] at hfits ⊢
      rw [splitLoop, if_pos hc, wordSuffixes, if_neg hc, List.mapM_cons]
      by_cases hshort : ((c :: rest).takeWhile (· != delimiter)).length < 2 ^ 31
      · have hrest : rest.drop (((c :: rest).takeWhile (· != delimiter)).length - 1) =
            rest.dropWhile (· != delimiter) := by
          rw [List.takeWhile_cons_of_pos (by simpa using hc), List.length_cons, Nat.add_sub_cancel,
            drop_length_takeWhile]
        rw [wordLength_of_fits hshort, ok_bind, Int.toNat_natCast, cut_of_fits hshort]
        cases ftSubstr (c :: rest) 0 ((c :: rest).takeWhile (· != delimiter)).length with
        | error fault => rfl
        | ok word =>
            have hnext : int ((front.length : Int) + 1) = .ok (front.length + 1 : Nat) :=
              int_of_fits (by omega)
            have hlater := ih (front ++ [some (some word)]) (by
              rw [List.length_append, List.length_singleton]
              omega)
            rw [List.length_append, List.length_singleton] at hlater
            rw [ok_bind, store_malloc, ok_bind, hnext, ok_bind, hrest, hlater, ok_bind]
            cases (wordSuffixes delimiter (rest.dropWhile (· != delimiter))).mapM (cut delimiter) with
            | error fault => rfl
            | ok strings => exact congrArg Except.ok (List.append_assoc _ _ _)
      · rw [wordLength_overflow (not_lt.mp hshort), cut, wordLength_overflow (not_lt.mp hshort)]
        rfl

/-- An `int` counts the word that begins the string, and an `unsigned int` as many characters
of the string as the word has. -/
structure Fits (delimiter : Char) (string : Str) : Prop where
  word : (string.takeWhile (· != delimiter)).length < 2 ^ 31
  rest : (string.takeWhile (· != delimiter)).length ≤ string.length % 2 ^ 32

theorem cut_eq_word_iff {string : Str} (hzero : '\x00' ∉ string) :
    cut delimiter string = .ok (string.takeWhile (· != delimiter)) ↔ Fits delimiter string := by
  by_cases hshort : (string.takeWhile (· != delimiter)).length < 2 ^ 31
  · rw [cut_eq hshort hzero]
    constructor
    · intro h
      have hlength := congrArg List.length (Except.ok.inj h)
      rw [List.length_take] at hlength
      exact ⟨hshort, by omega⟩
    · intro h
      rw [List.take_of_length_le h.rest]
  · constructor
    · intro h
      rw [cut, wordLength_overflow (not_lt.mp hshort)] at h
      cases h
    · intro h
      exact absurd h.word hshort

end Cutting

theorem nullTerminated_injective : Function.Injective nullTerminated := by
  intro first second h
  have hmap := List.map_injective_iff.mpr (Option.some_injective _) h
  exact List.map_injective_iff.mpr (Option.some_injective _) (List.append_cancel_right hmap)

section Split

variable (string : CString) (delimiter : Char)

theorem zero_not_mem_wordSuffix {rest : Str} (h : rest ∈ wordSuffixes delimiter string.val) :
    '\x00' ∉ rest := fun hzero => string.2 ((suffix_of_mem_wordSuffixes h).subset hzero)

theorem ftSplit_of_few (h : (words delimiter string.val).length + 1 < 2 ^ 31) :
    ftSplit string.val delimiter =
      ((wordSuffixes delimiter string.val).mapM (cut delimiter) >>= fun strings =>
        .ok (nullTerminated strings)) := by
  have hcount : int ((words delimiter string.val).length : Nat) =
      .ok ((words delimiter string.val).length : Nat) := int_of_fits (by omega)
  have hsize : int (((words delimiter string.val).length : Int) + 1) =
      .ok ((words delimiter string.val).length + 1 : Nat) := int_of_fits (by omega)
  have hloop := splitLoop_eq delimiter string.val [] (by simpa using h)
  rw [List.nil_append] at hloop
  rw [ftSplit, wordCounter_start, hcount, ok_bind, hsize, ok_bind, Int.toNat_natCast]
  exact hloop

theorem ftSplit_of_many (h : 2 ^ 31 ≤ (words delimiter string.val).length + 1) :
    ftSplit string.val delimiter = .error .overflow := by
  rw [ftSplit, wordCounter_start]
  by_cases hlast : (words delimiter string.val).length < 2 ^ 31
  · rw [int_of_fits (by omega), ok_bind, int_overflow (by omega)]
    rfl
  · rw [int_overflow (by omega)]
    rfl

/-- When `ft_split` gives the words of a string. -/
theorem ftSplit_eq_words_iff :
    ftSplit string.val delimiter = .ok (nullTerminated (words delimiter string.val)) ↔
      (words delimiter string.val).length + 1 < 2 ^ 31 ∧
        ∀ rest ∈ wordSuffixes delimiter string.val, Fits delimiter rest := by
  by_cases hfew : (words delimiter string.val).length + 1 < 2 ^ 31
  · rw [ftSplit_of_few string delimiter hfew, ok_eq_bind_iff]
    constructor
    · rintro ⟨strings, hstrings, h⟩
      obtain rfl := nullTerminated_injective (Except.ok.inj h)
      rw [words_eq_map, mapM_eq_ok_iff] at hstrings
      refine ⟨hfew, ?_⟩
      intro rest hrest
      exact (cut_eq_word_iff (zero_not_mem_wordSuffix string delimiter hrest)).mp
        (hstrings rest hrest)
    · rintro ⟨-, hfits⟩
      refine ⟨words delimiter string.val, ?_, rfl⟩
      rw [words_eq_map, mapM_eq_ok_iff]
      intro rest hrest
      exact (cut_eq_word_iff (zero_not_mem_wordSuffix string delimiter hrest)).mpr
        (hfits rest hrest)
  · constructor
    · intro h
      rw [ftSplit_of_many string delimiter (not_lt.mp hfew)] at h
      cases h
    · rintro ⟨hfew', -⟩
      exact absurd hfew' hfew

end Split

end FortyTwo.Libft
