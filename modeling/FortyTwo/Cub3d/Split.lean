import FortyTwo.Cub3d.FileLines
import FortyTwo.Libft.Split

/-!
The other `ft_split.c`, which counts with `size_t` and hands the place of a word to its
`ft_substr`, beside the one that hands over a pointer and counts with `int`.
-/

namespace FortyTwo.Cub3d

open Foundation
open Libft (Fault malloc store cString storeString StringArray nullTerminated CString)

/-- The loop of `substrLoop`, which stores what it reads, and the zero behind it. -/
def copyLoop (s : Text) : Nat → Nat → Nat → List (Option Char) → Except Fault (List (Option Char))
  | 0, i, _, sub => store sub i '\x00'
  | len + 1, i, start, sub =>
      if s.getD start '\x00' = '\x00' then store sub i '\x00'
      else do
        let sub ← store sub i (s.getD start '\x00')
        copyLoop s len (i + 1) ((start + 1) % 2 ^ 32) sub

/-- `ft_substr` with the places that it allocates. -/
def ftSubstrStored (s : Text) (start len : Nat) : Except Fault Text := do
  let start := start % 2 ^ 32
  let len :=
    if start > s.length then 0
    else if len > s.length - start then s.length - start
    else len
  let sub ← copyLoop s len 0 start (malloc (len + 1))
  cString sub

def ftCount (c : Char) : Text → Nat
  | [] => 0
  | d :: rest => if d ≠ c then ftCount c (rest.dropWhile (· != c)) + 1 else ftCount c rest
  termination_by s => s.length
  decreasing_by
    · exact Nat.lt_succ_of_le (List.dropWhile_sublist _).length_le
    · exact Nat.lt_succ_self _

def wordLen (s : Text) (c : Char) : Nat := (s.takeWhile (· != c)).length

/-- The loop, which has so many words still to store, and the `NULL` behind them. -/
def ftSplit2 (s : Text) (c : Char) : Nat → Nat → Nat → StringArray → Except Fault StringArray
  | 0, i, _, matrix => store matrix i none
  | words + 1, i, j, matrix => do
      let j := j + ((s.drop j).takeWhile (· == c)).length
      let word ← ftSubstrStored s j (wordLen (s.drop j) c)
      let matrix ← store matrix i (some word)
      let j := j + ((s.drop j).takeWhile (· != c)).length
      ftSplit2 s c words (i + 1) j matrix

/-- `none` is `NULL`. -/
def ftSplit (s : Option Text) (c : Char) : Except Fault (Option StringArray) :=
  match s with
  | none => .ok none
  | some s => do
      let words := ftCount c s
      let matrix ← ftSplit2 s c words 0 0 (malloc (words + 1))
      .ok (some matrix)

section Substring

variable (s : Text)

theorem copyLoop_eq (len i start : Nat) (sub : List (Option Char)) :
    copyLoop s len i start sub = storeString sub i (substrLoop s len start) := by
  induction len generalizing i start sub with
  | zero => rfl
  | succ len ih =>
      rw [copyLoop, substrLoop]
      split
      · rfl
      · rw [storeString]
        simp only [ih]

theorem length_substrLoop_le (len start : Nat) : (substrLoop s len start).length ≤ len := by
  induction len generalizing start with
  | zero => exact Nat.le_refl 0
  | succ len ih =>
      rw [substrLoop]
      split
      · exact Nat.zero_le _
      · exact Nat.succ_le_succ (ih _)

theorem zero_not_mem_substrLoop (len start : Nat) : '\x00' ∉ substrLoop s len start := by
  induction len generalizing start with
  | zero => exact List.not_mem_nil
  | succ len ih =>
      rw [substrLoop]
      split
      · exact List.not_mem_nil
      · next hne =>
          rw [List.mem_cons, not_or]
          exact ⟨Ne.symm hne, ih _⟩

/-- `ft_substr` writes no more than it allocates. -/
theorem ftSubstrStored_eq (start len : Nat) :
    ftSubstrStored s start len = .ok (ftSubstr s start len) := by
  rw [ftSubstrStored, copyLoop_eq]
  exact Libft.cString_storeString (zero_not_mem_substrLoop s _ _)
    (Nat.lt_succ_of_le (length_substrLoop_le s _ _))

end Substring

section Loop

variable {s : Text} {c : Char}

theorem ftCount_eq (c : Char) (s : Text) : ftCount c s = (wordSuffixes c s).length := by
  induction s using wordSuffixes.induct c with
  | case1 => rw [ftCount, wordSuffixes, List.length_nil]
  | case2 rest ih => rw [ftCount, if_neg (not_not.mpr rfl), wordSuffixes, if_pos rfl, ih]
  | case3 d rest hd ih => rw [ftCount, if_pos hd, wordSuffixes, if_neg hd, List.length_cons, ih]

/-- What is stored for the word that begins what is left of the string. -/
def stored (s : Text) (c : Char) (rest : Text) : Text :=
  ftSubstr s (s.length - rest.length) (wordLen rest c)

theorem ftSplit2_eq (front : StringArray) (j : Nat) {suffixes : List Text}
    (h : wordSuffixes c (s.drop j) = suffixes) :
    ftSplit2 s c suffixes.length front.length j (front ++ malloc (suffixes.length + 1)) =
      .ok (front ++ nullTerminated (suffixes.map (stored s c))) := by
  induction suffixes generalizing front j with
  | nil => exact Libft.store_at front [] none none
  | cons rest more ih =>
      obtain ⟨hrest, hne, hmore⟩ := eq_of_wordSuffixes_cons h
      have hfront : s.drop (j + ((s.drop j).takeWhile (· == c)).length) = rest := by
        rw [← List.drop_drop, drop_length_takeWhile, hrest]
      have hplace : j + ((s.drop j).takeWhile (· == c)).length = s.length - rest.length := by
        have hlength := congrArg List.length hfront
        have hpos := List.length_pos_of_ne_nil hne
        rw [List.length_drop] at hlength
        omega
      rw [hplace] at hfront
      have hbehind : wordSuffixes c (s.drop (s.length - rest.length +
          (rest.takeWhile (· != c)).length)) = more := by
        rw [← List.drop_drop, hfront, drop_length_takeWhile, hmore]
      have hlater := ih (front ++ [some (some (stored s c rest))]) _ hbehind
      rw [List.length_append, List.length_singleton] at hlater
      rw [List.length_cons, ftSplit2, hplace, hfront, ftSubstrStored_eq, Libft.ok_bind,
        Libft.store_malloc, Libft.ok_bind]
      refine hlater.trans ?_
      exact congrArg Except.ok (List.append_assoc _ _ _)

theorem ftSplit_eq (s : Text) (c : Char) :
    ftSplit (some s) c =
      .ok (some (nullTerminated ((wordSuffixes c s).map (stored s c)))) := by
  have hloop := ftSplit2_eq (s := s) (c := c) [] 0 rfl
  rw [ftSplit, ftCount_eq]
  exact congrArg (· >>= _) hloop

end Loop

/-- Both functions give the words of the string in order, and `NULL` behind them. -/
structure SplitsAlike (string : CString) (delimiter : Char) : Prop where
  libft : Libft.ftSplit string.val delimiter =
    .ok (nullTerminated (words delimiter string.val))
  cub3d : ftSplit (some string.val) delimiter =
    .ok (some (nullTerminated (words delimiter string.val)))

/-- The `int`s of the one count the words and the characters of each, and the `unsigned int` of
the other counts the places of these characters, or those behind the first `2 ^ 32` repeat what
stands there. -/
structure CountersHold (string : CString) (delimiter : Char) : Prop where
  words : (words delimiter string.val).length + 1 < 2 ^ 31
  word : ∀ rest ∈ wordSuffixes delimiter string.val, Libft.Fits delimiter rest
  place : ∀ rest ∈ wordSuffixes delimiter string.val, ∀ k < wordLen rest delimiter,
    string.val[(string.val.length - rest.length + k) % 2 ^ 32]? = rest[k]?

section Both

variable {string : CString} {delimiter : Char}

theorem stored_eq_iff {rest : Text} (hsuffix : rest <:+ string.val) :
    stored string.val delimiter rest = rest.takeWhile (· != delimiter) ↔
      ∀ k < wordLen rest delimiter,
        string.val[(string.val.length - rest.length + k) % 2 ^ 32]? = rest[k]? := by
  have hle := hsuffix.length_le
  have hword : wordLen rest delimiter ≤ rest.length := (List.takeWhile_sublist _).length_le
  have hmod := Nat.mod_le (string.val.length - rest.length) (2 ^ 32)
  have hloop : stored string.val delimiter rest = substrLoop string.val (wordLen rest delimiter)
      ((string.val.length - rest.length) % 2 ^ 32) := by
    rw [stored, ftSubstr, if_neg (by omega), if_neg (by omega)]
  obtain ⟨hlength, hget⟩ := @substrLoop_spec string.val string.2 (wordLen rest delimiter) _
    (Nat.mod_lt (string.val.length - rest.length) (by decide)) (by omega)
  have hrest : ∀ k < wordLen rest delimiter,
      (rest.takeWhile (· != delimiter))[k]? = rest[k]? := by
    intro k hk
    rw [← take_length_takeWhile]
    exact List.getElem?_take_of_lt hk
  rw [hloop]
  constructor
  · intro h k hk
    rw [← hrest k hk, ← h, hget k hk, Nat.mod_add_mod]
  · intro h
    apply List.ext_getElem?
    intro k
    by_cases hk : k < wordLen rest delimiter
    · rw [hget k hk, Nat.mod_add_mod, h k hk, hrest k hk]
    · rw [List.getElem?_eq_none (by omega), List.getElem?_eq_none (not_lt.mp hk)]

/-- A string that an `int` counts is split alike by both. -/
theorem countersHold_of_length_lt (h : string.val.length + 1 < 2 ^ 31) :
    CountersHold string delimiter := by
  refine ⟨?_, ?_, ?_⟩
  · have hwords := @length_wordSuffixes_le Char _ delimiter string.val
    rw [length_wordSuffixes] at hwords
    omega
  · intro rest hrest
    have hle := (suffix_of_mem_wordSuffixes hrest).length_le
    have hword : (rest.takeWhile (· != delimiter)).length ≤ rest.length :=
      (List.takeWhile_sublist _).length_le
    refine ⟨by omega, ?_⟩
    rwa [Nat.mod_eq_of_lt (by omega)]
  · intro rest hrest k hk
    obtain ⟨front, hfront⟩ := suffix_of_mem_wordSuffixes hrest
    have hword : wordLen rest delimiter ≤ rest.length := (List.takeWhile_sublist _).length_le
    have hlength := congrArg List.length hfront
    rw [List.length_append] at hlength
    have hstart : string.val.length - rest.length = front.length := by omega
    rw [hstart, Nat.mod_eq_of_lt (by omega), ← hfront,
      List.getElem?_append_right (Nat.le_add_right _ _), Nat.add_sub_cancel_left]

theorem ftSplit_eq_words_iff : ftSplit (some string.val) delimiter =
      .ok (some (nullTerminated (words delimiter string.val))) ↔
    ∀ rest ∈ wordSuffixes delimiter string.val, ∀ k < wordLen rest delimiter,
      string.val[(string.val.length - rest.length + k) % 2 ^ 32]? = rest[k]? := by
  rw [ftSplit_eq]
  constructor
  · intro h rest hrest
    have hmap := Libft.nullTerminated_injective (Option.some.inj (Except.ok.inj h))
    rw [words_eq_map, List.map_inj_left] at hmap
    exact (stored_eq_iff (suffix_of_mem_wordSuffixes hrest)).mp (hmap rest hrest)
  · intro h
    have hmap : (wordSuffixes delimiter string.val).map (stored string.val delimiter) =
        words delimiter string.val := by
      rw [words_eq_map, List.map_inj_left]
      intro rest hrest
      exact (stored_eq_iff (suffix_of_mem_wordSuffixes hrest)).mpr (h rest hrest)
    rw [hmap]

theorem SplitsAlike.countersHold (h : SplitsAlike string delimiter) : CountersHold string delimiter := by
  obtain ⟨hwords, hword⟩ := (Libft.ftSplit_eq_words_iff string delimiter).mp h.libft
  exact ⟨hwords, hword, ftSplit_eq_words_iff.mp h.cub3d⟩

end Both

/-- The letters of a long word are more than an `int` counts. -/
theorem not_countersHold_letters {n : Nat} (hn : 2 ^ 31 ≤ n) (hzero : '\x00' ∉ List.replicate n 'a') :
    ¬CountersHold ⟨List.replicate n 'a', hzero⟩ ' ' := by
  intro h
  have hne : List.replicate n 'a' ≠ [] := by
    rw [Ne, List.replicate_eq_nil_iff]
    omega
  have hblank : ' ' ∉ List.replicate n 'a' := by
    intro hmem
    cases List.eq_of_mem_replicate hmem
  have hword := (h.word _ (self_mem_wordSuffixes hne hblank)).word
  rw [List.takeWhile_replicate, if_pos (by decide), List.length_replicate] at hword
  omega

/-- The two functions agree on a string exactly if their counters hold what they count. -/
theorem splitsAlike_iff (string : CString) (delimiter : Char) :
    SplitsAlike string delimiter ↔ CountersHold string delimiter := by
  constructor
  · exact SplitsAlike.countersHold
  · rintro ⟨hwords, hword, hplace⟩
    exact ⟨(Libft.ftSplit_eq_words_iff string delimiter).mpr ⟨hwords, hword⟩,
      ftSplit_eq_words_iff.mpr hplace⟩

/-- A word of `2 ^ 31` letters. -/
theorem not_splitsAlike : ¬∀ (string : CString) (delimiter : Char),
    SplitsAlike string delimiter := by
  intro hall
  have hzero : '\x00' ∉ List.replicate (2 ^ 31) 'a' := by
    intro hmem
    cases List.eq_of_mem_replicate hmem
  exact not_countersHold_letters (Nat.le_refl _) hzero (hall ⟨_, hzero⟩ ' ').countersHold

end FortyTwo.Cub3d
