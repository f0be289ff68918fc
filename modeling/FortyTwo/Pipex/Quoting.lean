import FortyTwo.Foundation.Words

/-!
The command line of a process of the pipe: `multi_quetes` of `parse.c`, and the `ft_split` it
is handed to. The text is an argument of the program, and its length far from what an `int`
holds.
-/

namespace FortyTwo.Pipex

open Foundation

abbrev Str := List Char

/-- The byte 26, which takes the place of the blanks and of the quotes. -/
def separator : Char := '\x1a'

def multiQuetes : Str → Str
  | [] => []
  | c :: rest =>
      if c = '\'' ∨ c = '"' then
        if c ∈ rest then
          separator :: (rest.takeWhile (· ≠ c) ++
            separator :: multiQuetes (rest.dropWhile (· ≠ c)).tail)
        else c :: multiQuetes rest
      else if c = ' ' then separator :: multiQuetes rest
      else c :: multiQuetes rest
  termination_by cmd => cmd.length
  decreasing_by
    · have hle := (List.dropWhile_sublist (l := rest) (· ≠ c)).length_le
      simp only [List.length_tail, List.length_cons]
      omega
    all_goals exact Nat.lt_succ_self _

def wordLength (string : Str) (delimiter : Char) : Nat :=
  (string.takeWhile (· != delimiter)).length

/-- The words that `ft_split` stores. -/
def ftSplit (delimiter : Char) : Str → List Str
  | [] => []
  | c :: rest =>
      if c ≠ delimiter then
        let length := wordLength (c :: rest) delimiter
        (c :: rest).take length :: ftSplit delimiter ((c :: rest).drop length)
      else ftSplit delimiter rest
  termination_by string => string.length
  decreasing_by
    · next hc =>
        have hpos : 0 < wordLength (c :: rest) delimiter := by
          rw [wordLength, List.takeWhile_cons_of_pos (by simpa using hc)]
          exact Nat.succ_pos _
        rw [List.length_drop, List.length_cons]
        omega
    · exact Nat.lt_succ_self _

/-- A word, and the quotes that it is written between, if any. -/
structure Word where
  text : Str
  quote : Option Char
  ne_nil : text ≠ []
  free : separator ∉ text
  plain : quote = none → ∀ c ∈ text, c ≠ ' ' ∧ c ≠ '\'' ∧ c ≠ '"'
  quoted : ∀ q ∈ quote, (q = '\'' ∨ q = '"') ∧ q ∉ text

def Word.written (word : Word) : Str :=
  match word.quote with
  | none => word.text
  | some q => q :: (word.text ++ [q])

/-- The words with a blank between each two. -/
def written (list : List Word) : Str := [' '].intercalate (list.map Word.written)

section Delimiting

variable {text : Str} {q : Char}

theorem multiQuetes_plain (h : ∀ c ∈ text, c ≠ ' ' ∧ c ≠ '\'' ∧ c ≠ '"') (rest : Str) :
    multiQuetes (text ++ rest) = text ++ multiQuetes rest := by
  induction text with
  | nil => rfl
  | cons c text ih =>
      obtain ⟨⟨hblank, hsingle, hdouble⟩, htext⟩ := List.forall_mem_cons.mp h
      rw [List.cons_append, multiQuetes, if_neg (not_or.mpr ⟨hsingle, hdouble⟩), if_neg hblank,
        ih htext]
      rfl

theorem multiQuetes_quoted (hq : q = '\'' ∨ q = '"') (h : q ∉ text) (rest : Str) :
    multiQuetes (q :: (text ++ q :: rest)) =
      separator :: (text ++ separator :: multiQuetes rest) := by
  have htext : ∀ c ∈ text, decide (c ≠ q) = true := by
    intro c hc
    rw [decide_eq_true_iff]
    rintro rfl
    exact h hc
  have htake : (text ++ q :: rest).takeWhile (· ≠ q) = text := by
    rw [List.takeWhile_append_of_pos htext, List.takeWhile_cons_of_neg (by simp), List.append_nil]
  have hdrop : (text ++ q :: rest).dropWhile (· ≠ q) = q :: rest := by
    rw [List.dropWhile_append_of_pos htext, List.dropWhile_cons_of_neg (by simp)]
  rw [multiQuetes, if_pos hq, if_pos (by simp), htake, hdrop, List.tail_cons]

theorem multiQuetes_blank (rest : Str) :
    multiQuetes (' ' :: rest) = separator :: multiQuetes rest := by
  rw [multiQuetes, if_neg (by decide), if_pos rfl]

/-- A word comes out as a text with that word alone, whatever stands behind it. -/
theorem exists_delimited (word : Word) : ∃ front, words separator front = [word.text] ∧
    ∀ rest, multiQuetes (word.written ++ rest) = front ++ multiQuetes rest := by
  have halone : words separator word.text = [word.text] := by
    rw [words_of_not_mem word.free, if_neg word.ne_nil]
  cases hquote : word.quote with
  | none =>
      refine ⟨word.text, halone, ?_⟩
      intro rest
      rw [Word.written, hquote]
      exact multiQuetes_plain (word.plain hquote) rest
  | some q =>
      obtain ⟨hq, hmem⟩ := word.quoted q hquote
      refine ⟨separator :: (word.text ++ [separator]), ?_, ?_⟩
      · rw [words_cons_sep, words_append_cons, halone]
        rfl
      · intro rest
        have hword := multiQuetes_quoted hq hmem rest
        rw [Word.written, hquote]
        simpa using hword

end Delimiting

theorem ftSplit_eq (delimiter : Char) (string : Str) :
    ftSplit delimiter string = words delimiter string := by
  induction string using ftSplit.induct delimiter with
  | case1 => rw [ftSplit, words_nil]
  | case2 c rest hc length ih =>
      have hword : (c :: rest).takeWhile (· != delimiter) =
          c :: rest.takeWhile (· != delimiter) :=
        List.takeWhile_cons_of_pos (by simpa using hc)
      have htake : (c :: rest).take (wordLength (c :: rest) delimiter) =
          c :: rest.takeWhile (· != delimiter) := by
        rw [wordLength, take_length_takeWhile, hword]
      have hdrop : (c :: rest).drop (wordLength (c :: rest) delimiter) =
          rest.dropWhile (· != delimiter) := by
        rw [wordLength, drop_length_takeWhile]
        exact List.dropWhile_cons_of_pos (by simpa using hc)
      rw [ftSplit, if_pos hc, words_cons_of_ne hc, ← htake, ← hdrop]
      exact congrArg _ ih
  | case3 c rest hc ih =>
      rw [ftSplit, if_neg hc, ih, not_not.mp hc, words_cons_sep]

/-- Quoting and splitting gives back the words. -/
theorem ftSplit_multiQuetes (list : List Word) :
    ftSplit separator (multiQuetes (written list)) = list.map Word.text := by
  rw [ftSplit_eq]
  induction list with
  | nil =>
      rw [written, List.map_nil, List.intercalate_nil, multiQuetes]
      rfl
  | cons word rest ih =>
      obtain ⟨front, hfront, hword⟩ := exists_delimited word
      cases rest with
      | nil =>
          have hlast := hword []
          rw [multiQuetes, List.append_nil, List.append_nil] at hlast
          rw [written, List.map_singleton, List.intercalate_singleton, hlast, hfront]
          rfl
      | cons next rest =>
          have hjoined : written (word :: next :: rest) =
              word.written ++ ' ' :: written (next :: rest) := by
            rw [written, List.map_cons, List.map_cons, List.intercalate_cons_cons, List.append_assoc]
            rfl
          rw [hjoined, hword, multiQuetes_blank, words_append_cons, hfront, ih]
          rfl

end FortyTwo.Pipex
