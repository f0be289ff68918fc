import Mathlib.Data.List.Basic
import FortyTwo.Minishell.LineParsing

/-!
Rendered command lines and their tokens. A line is chunks (quoted words, operators
and the `|` between stages) with a space between two of them; the tokenizers cut
it at the spaces, and at the `|`, whatever the quoted words hold.
-/

namespace FortyTwo.Minishell

inductive Operator where
  | input
  | output
  | append
  deriving DecidableEq, Repr

namespace Operator

def text : Operator → Str
  | input => ['<']
  | output => ['>']
  | append => ['>', '>']

def type : Operator → RedirectionType
  | input => .redirectionIn
  | output => .redirectionOut
  | append => .append

end Operator

/-- A part of a pipeline stage. -/
inductive Item where
  | word (text : Str)
  | redirect (operator : Operator) (fileName : Str)
  deriving DecidableEq, Repr

abbrev Stage := List Item

def singleQuoted (text : Str) : Str := '\'' :: text ++ ['\'']

namespace Item

/-- The word or the file name. -/
def text : Item → Str
  | word text => text
  | redirect _ fileName => fileName

def chunks : Item → List Str
  | word text => [singleQuoted text]
  | redirect operator fileName => [operator.text, singleQuoted fileName]

def commandWord : Item → Option Str
  | word text => some text
  | redirect _ _ => none

def redirection : Item → Option Redirection
  | word _ => none
  | redirect operator fileName => some ⟨fileName, operator.type⟩

end Item

namespace Stage

def chunks (stage : Stage) : List Str := stage.flatMap Item.chunks

def render (stage : Stage) : Str := [' '].intercalate stage.chunks

def words (stage : Stage) : List Str := stage.filterMap Item.commandWord

def redirections (stage : Stage) : List Redirection := stage.filterMap Item.redirection

end Stage

def renderLine (stages : List Stage) : Str := [' ', '|', ' '].intercalate (stages.map Stage.render)

/-- Every stage has a command word, and every word and file name is a non-empty
string without single quote, `$` and NUL. -/
def IsLine (stages : List Stage) : Prop :=
  stages ≠ [] ∧ ∀ stage ∈ stages, stage.words ≠ [] ∧
    ∀ item ∈ stage, item.text ≠ [] ∧ '\'' ∉ item.text ∧ '$' ∉ item.text ∧ '\x00' ∉ item.text

section Cutting

variable {delim : Str}

/-- The tokenizer does not stop in the text, and is outside quotes behind it. -/
def Passes (delim text : Str) : Prop :=
  ∀ rest, stringWithQuotes delim none (text ++ rest) =
    (text ++ (stringWithQuotes delim none rest).1, (stringWithQuotes delim none rest).2)

theorem Passes.append {text text' : Str} (h : Passes delim text) (h' : Passes delim text') :
    Passes delim (text ++ text') := by
  intro rest
  rw [List.append_assoc, h, h', List.append_assoc]

theorem passes_nil : Passes delim [] := fun _ => rfl

/-- A character that is neither quote nor delimiter. -/
theorem passes_char {c : Char} (hquote : isQuote c = false) (hdelim : c ∉ delim) :
    Passes delim [c] := by
  intro rest
  have hneither : ¬((none : Option Char) = none ∧ c ∈ delim) := fun h => hdelim h.2
  rw [List.singleton_append, stringWithQuotes, if_neg (by simp [hquote]), if_neg hneither]
  rfl

theorem passes_singleQuoted {text : Str} (h : '\'' ∉ text) : Passes delim (singleQuoted text) := by
  intro rest
  have hinside : ∀ text : Str, '\'' ∉ text →
      stringWithQuotes delim (some '\'') (text ++ '\'' :: rest) =
        (text ++ '\'' :: (stringWithQuotes delim none rest).1,
          (stringWithQuotes delim none rest).2) := by
    intro text
    induction text with
    | nil =>
        intro _
        rw [List.nil_append, stringWithQuotes, if_pos rfl]
        rfl
    | cons c text ih =>
        intro hmem
        obtain ⟨hc, hmem⟩ := not_or.mp (fun h => hmem (List.mem_cons.mpr h))
        rw [List.cons_append, stringWithQuotes]
        split
        · simp only [if_neg (Ne.symm hc), ih hmem]
          rfl
        · rw [if_neg (by simp), ih hmem]
          rfl
  have hquote : isQuote '\'' = true := rfl
  rw [singleQuoted, List.append_assoc, List.cons_append, stringWithQuotes, if_pos hquote]
  simp only [List.singleton_append, hinside text h]
  simp

/-- A delimiter in front of the text. -/
theorem strtokAll_skip {d : Char} (hd : d ∈ delim) (rest : Str) :
    strtokAll delim (some (d :: rest)) = strtokAll delim (some rest) := by
  have hskip : ftStrtok (d :: rest) delim = ftStrtok rest delim := by
    rw [ftStrtok, List.dropWhile_cons_of_pos (by simpa using hd), ftStrtok]
  rw [strtokAll, strtokAll, hskip]

/-- A text without delimiters that a delimiter ends, or the string. -/
theorem strtokAll_token {text : Str} (hpasses : Passes delim text)
    (hhead : ∃ c ∈ text.head?, c ∉ delim) :
    strtokAll delim (some text) = [text] ∧
      ∀ d ∈ delim, isQuote d = false → ∀ rest,
        strtokAll delim (some (text ++ d :: rest)) = text :: strtokAll delim (some rest) := by
  obtain ⟨c, hc, hfirst⟩ := hhead
  obtain ⟨later, rfl⟩ : ∃ later, text = c :: later := List.head?_eq_some_iff.mp hc
  have hdrop : ∀ rest, (c :: later ++ rest).dropWhile (· ∈ delim) = c :: later ++ rest := by
    intro rest
    rw [List.cons_append, List.dropWhile_cons_of_neg (by simpa using hfirst)]
  constructor
  · have hcut := hpasses []
    have hskip := hdrop []
    rw [List.append_nil] at hcut hskip
    have htoken : ftStrtok (c :: later) delim = some (c :: later, none) := by
      rw [ftStrtok, hskip, if_neg (List.cons_ne_nil _ _), hcut]
      simp [stringWithQuotes]
    rw [strtokAll, htoken]
  · intro d hd hquote rest
    have hcut := hpasses (d :: rest)
    have hstop : stringWithQuotes delim none (d :: rest) = ([], d :: rest) := by
      rw [stringWithQuotes, if_neg (by simp [hquote]), if_pos ⟨rfl, hd⟩]
    rw [hstop] at hcut
    have htoken : ftStrtok (c :: later ++ d :: rest) delim = some (c :: later, some rest) := by
      rw [ftStrtok, hdrop, if_neg (by simp), hcut]
      simp
    rw [strtokAll, htoken]

theorem strtokAll_nil : strtokAll delim (some []) = [] := by
  rw [strtokAll]
  rfl

/-- A text that the tokenizer takes whole. -/
def IsChunk (delim text : Str) : Prop := Passes delim text ∧ ∃ c ∈ text.head?, c ∉ delim

/-- Chunks with a space between two of them, and perhaps one at the end. -/
theorem strtokAll_intercalate (hspace : ' ' ∈ delim) {chunks : List Str}
    (hchunks : ∀ chunk ∈ chunks, IsChunk delim chunk) {trail : Str}
    (htrail : trail = [] ∨ trail = [' ']) :
    strtokAll delim (some ([' '].intercalate chunks ++ trail)) = chunks := by
  have hend : strtokAll delim (some trail) = [] := by
    rcases htrail with rfl | rfl
    · exact strtokAll_nil
    · rw [strtokAll_skip hspace, strtokAll_nil]
  induction chunks with
  | nil => exact hend
  | cons chunk chunks ih =>
      obtain ⟨hchunk, hchunks⟩ := List.forall_mem_cons.mp hchunks
      obtain ⟨hlast, hmore⟩ := strtokAll_token hchunk.1 hchunk.2
      cases chunks with
      | nil =>
          rw [List.intercalate_singleton]
          rcases htrail with rfl | rfl
          · rw [List.append_nil, hlast]
          · rw [hmore ' ' hspace rfl, strtokAll_nil]
      | cons next chunks =>
          rw [List.intercalate_cons_cons, List.append_assoc, List.append_assoc,
            List.singleton_append, hmore ' ' hspace rfl, ih hchunks]

end Cutting

section Counting

theorem countWord_append_space (inToken : Bool) (text rest : Str) :
    countWord inToken (text ++ ' ' :: rest) = countWord inToken text + countWord false rest := by
  induction text generalizing inToken with
  | nil => simp [countWord]
  | cons c text ih =>
      rw [List.cons_append, countWord, countWord]
      split
      · exact ih false
      · split
        · exact ih true
        · rw [ih true]
          omega

/-- `count_word` counts at least the chunks: a space may stand inside one. -/
theorem length_le_countWord {chunks : List Str} (hchunks : ∀ chunk ∈ chunks, IsChunk [' '] chunk)
    (trail : Str) :
    chunks.length ≤ countWord false ([' '].intercalate chunks ++ trail) := by
  have hone : ∀ chunk : Str, IsChunk [' '] chunk → ∀ trail, 1 ≤ countWord false (chunk ++ trail) := by
    rintro chunk ⟨-, c, hc, hspace⟩ trail
    obtain ⟨later, rfl⟩ : ∃ later, chunk = c :: later := List.head?_eq_some_iff.mp hc
    rw [List.cons_append, countWord, if_neg (by simpa using hspace), if_neg Bool.false_ne_true]
    omega
  induction chunks with
  | nil => exact Nat.zero_le _
  | cons chunk chunks ih =>
      obtain ⟨hchunk, hchunks⟩ := List.forall_mem_cons.mp hchunks
      cases chunks with
      | nil =>
          rw [List.intercalate_singleton]
          exact hone chunk hchunk trail
      | cons next chunks =>
          have hfirst := hone chunk hchunk []
          have hlater := ih hchunks
          rw [List.append_nil] at hfirst
          rw [List.intercalate_cons_cons, List.append_assoc, List.append_assoc,
            List.singleton_append, countWord_append_space]
          rw [List.length_cons]
          omega

end Counting

section Lines

/-- The words that the parser reads in an item. -/
def Item.tokens : Item → List Str
  | word text => [text]
  | redirect operator fileName => [operator.text, fileName]

def Stage.tokens (stage : Stage) : List Str := stage.flatMap Item.tokens

/-- A text that can be written in single quotes. -/
def IsQuotable (text : Str) : Prop := text ≠ [] ∧ '\'' ∉ text

variable {delim : Str} {stage : Stage}

theorem isChunk_singleQuoted (hdelim : '\'' ∉ delim) {text : Str} (h : '\'' ∉ text) :
    IsChunk delim (singleQuoted text) :=
  ⟨passes_singleQuoted h, '\'', rfl, hdelim⟩

theorem isChunk_operator (hin : '<' ∉ delim) (hout : '>' ∉ delim) (operator : Operator) :
    IsChunk delim operator.text := by
  cases operator with
  | input => exact ⟨passes_char rfl hin, '<', rfl, hin⟩
  | output => exact ⟨passes_char rfl hout, '>', rfl, hout⟩
  | append => exact ⟨(passes_char rfl hout).append (passes_char rfl hout), '>', rfl, hout⟩

theorem isChunk_of_mem_chunks (hquote : '\'' ∉ delim) (hin : '<' ∉ delim) (hout : '>' ∉ delim)
    (hitems : ∀ item ∈ stage, IsQuotable item.text) :
    ∀ chunk ∈ stage.chunks, IsChunk delim chunk := by
  intro chunk hchunk
  obtain ⟨item, hitem, hmem⟩ := List.mem_flatMap.mp hchunk
  have hquoted := isChunk_singleQuoted hquote (hitems item hitem).2
  cases item with
  | word text =>
      rw [List.mem_singleton.mp hmem]
      exact hquoted
  | redirect operator fileName =>
      rcases List.mem_cons.mp hmem with rfl | hmem
      · exact isChunk_operator hin hout operator
      · rw [List.mem_singleton.mp hmem]
        exact hquoted

theorem stripQuotes_singleQuoted (text : Str) : stripQuotes (singleQuoted text) = text := by
  have hquote : isQuote '\'' = true := rfl
  rw [singleQuoted, List.cons_append, stripQuotes, if_pos hquote, if_pos (by simp),
    List.dropLast_concat]

theorem map_stripQuotes_chunks (stage : Stage) : stage.chunks.map stripQuotes = stage.tokens := by
  rw [Stage.chunks, Stage.tokens, List.map_flatMap]
  congr 1
  funext item
  cases item with
  | word text => simp [Item.chunks, Item.tokens, stripQuotes_singleQuoted]
  | redirect operator fileName =>
      have hoperator : stripQuotes operator.text = operator.text := by cases operator <;> rfl
      simp [Item.chunks, Item.tokens, stripQuotes_singleQuoted, hoperator]

theorem commandWords_length_le (redirection : Bool) (words : List Str) :
    (commandWords redirection words).length ≤ words.length := by
  induction words generalizing redirection with
  | nil => exact Nat.le_refl 0
  | cons word words ih =>
      rw [commandWords]
      split
      · exact Nat.le_trans (ih true) (Nat.le_succ _)
      · split
        · exact Nat.le_trans (ih false) (Nat.le_succ _)
        · exact Nat.succ_le_succ (ih false)

/-- What the two loops make of the words of a stage. -/
def Stage.parsed (stage : Stage) : List Str × List Redirection :=
  (commandWords false stage.tokens, redirectionList none stage.tokens)

/-- The command words and the redirections of a token. -/
def Token.contents (token : Token) : List Str × List Redirection :=
  (token.multiCommand, token.redirection)

/-- A stage, with the spaces that the `|` of its neighbours leave. -/
theorem createToken_render (hitems : ∀ item ∈ stage, IsQuotable item.text) {lead trail : Str}
    (hlead : lead = [] ∨ lead = [' ']) (htrail : trail = [] ∨ trail = [' ']) :
    ∃ token, createToken (lead ++ (stage.render ++ trail)) = .ok token ∧
      token.contents = stage.parsed := by
  have hchunks := @isChunk_of_mem_chunks whitespace stage (by decide) (by decide) (by decide) hitems
  have hspaced := @isChunk_of_mem_chunks [' '] stage (by decide) (by decide) (by decide) hitems
  have hspace : ' ' ∈ whitespace := by decide
  have htokens : strtokAll whitespace (some (lead ++ (stage.render ++ trail))) = stage.chunks := by
    rcases hlead with rfl | rfl
    · exact strtokAll_intercalate hspace hchunks htrail
    · rw [List.singleton_append, strtokAll_skip hspace]
      exact strtokAll_intercalate hspace hchunks htrail
  have hwords : strtokCopyAll (lead ++ (stage.render ++ trail)) whitespace = stage.tokens := by
    rw [strtokCopyAll, htokens, map_stripQuotes_chunks]
  have hcount : stage.chunks.length ≤ countWord false (lead ++ (stage.render ++ trail)) := by
    rcases hlead with rfl | rfl
    · exact length_le_countWord hspaced trail
    · exact length_le_countWord hspaced trail
  have hroom : (commandWords false stage.tokens).length ≤
      countWord false (lead ++ (stage.render ++ trail)) := by
    have hlength : stage.tokens.length = stage.chunks.length := by
      rw [← map_stripQuotes_chunks, List.length_map]
    exact Nat.le_trans (commandWords_length_le false _) (Nat.le_trans (Nat.le_of_eq hlength) hcount)
  refine ⟨⟨lead ++ (stage.render ++ trail), commandWords false stage.tokens,
    countWord false (lead ++ (stage.render ++ trail)), redirectionList none stage.tokens⟩, ?_, rfl⟩
  simp only [createToken, hwords]
  exact if_pos hroom

theorem passes_intercalate (hspace : ' ' ∉ delim) {chunks : List Str}
    (hchunks : ∀ chunk ∈ chunks, Passes delim chunk) : Passes delim ([' '].intercalate chunks) := by
  induction chunks with
  | nil => exact passes_nil
  | cons chunk chunks ih =>
      obtain ⟨hchunk, hchunks⟩ := List.forall_mem_cons.mp hchunks
      cases chunks with
      | nil =>
          rw [List.intercalate_singleton]
          exact hchunk
      | cons next chunks =>
          rw [List.intercalate_cons_cons]
          exact (hchunk.append (passes_char rfl hspace)).append (ih hchunks)

/-- A text of chunks begins as the first of them does. -/
theorem head_of_intercalate {chunk : Str} {chunks : List Str}
    (hhead : ∃ c ∈ chunk.head?, c ∉ delim) (trail : Str) :
    ∃ c ∈ ([' '].intercalate (chunk :: chunks) ++ trail).head?, c ∉ delim := by
  obtain ⟨c, hc, hfirst⟩ := hhead
  obtain ⟨later, rfl⟩ : ∃ later, chunk = c :: later := List.head?_eq_some_iff.mp hc
  refine ⟨c, ?_, hfirst⟩
  cases chunks with
  | nil =>
      rw [List.intercalate_singleton]
      rfl
  | cons next chunks =>
      rw [List.intercalate_cons_cons]
      rfl

/-- A stage between the spaces that the `|` leaves is one token of the line. -/
private theorem isChunk_padded (hitems : ∀ item ∈ stage, IsQuotable item.text) (hne : stage ≠ [])
    {lead trail : Str} (hlead : lead = [] ∨ lead = [' ']) (htrail : trail = [] ∨ trail = [' ']) :
    IsChunk ['|'] (lead ++ (stage.render ++ trail)) := by
  have hchunks := @isChunk_of_mem_chunks ['|'] stage (by decide) (by decide) (by decide) hitems
  have hspace : Passes ['|'] [' '] := passes_char rfl (by decide)
  have hpad : ∀ pad : Str, pad = [] ∨ pad = [' '] → Passes ['|'] pad := by
    rintro pad (rfl | rfl)
    · exact passes_nil
    · exact hspace
  have hrender : Passes ['|'] stage.render :=
    passes_intercalate (by decide) fun chunk hchunk => (hchunks chunk hchunk).1
  refine ⟨(hpad lead hlead).append (hrender.append (hpad trail htrail)), ?_⟩
  rcases hlead with rfl | rfl
  · cases hall : stage.chunks with
    | nil =>
        obtain ⟨item, hitem⟩ := List.exists_mem_of_ne_nil stage hne
        have hnone := List.flatMap_eq_nil_iff.mp hall item hitem
        cases item with
        | word text => cases hnone
        | redirect operator fileName => cases hnone
    | cons chunk chunks =>
        have hchunk := hchunks chunk (by rw [hall]; exact List.mem_cons_self)
        rw [List.nil_append, Stage.render, hall]
        exact head_of_intercalate hchunk.2 trail
  · exact ⟨' ', rfl, by decide⟩

theorem parse_renderLine {stages : List Stage} (hne : stages ≠ [])
    (hstages : ∀ stage ∈ stages, stage ≠ [] ∧ ∀ item ∈ stage, IsQuotable item.text) {lead : Str}
    (hlead : lead = [] ∨ lead = [' ']) :
    (createLinkedList (lead ++ renderLine stages)).map (List.map Token.contents) =
      .ok (stages.map Stage.parsed) := by
  induction stages generalizing lead with
  | nil => exact absurd rfl hne
  | cons stage stages ih =>
      obtain ⟨⟨hstage, hitems⟩, hstages⟩ := List.forall_mem_cons.mp hstages
      cases stages with
      | nil =>
          obtain ⟨token, htoken, hcontents⟩ := createToken_render hitems hlead (Or.inl rfl)
          have hchunk := isChunk_padded hitems hstage hlead (Or.inl rfl)
          rw [List.append_nil] at htoken hchunk
          rw [renderLine, List.map_singleton, List.intercalate_singleton, createLinkedList,
            (strtokAll_token hchunk.1 hchunk.2).1]
          simp [htoken, hcontents, Except.map, pure, Except.pure, bind, Except.bind]
      | cons next stages =>
          obtain ⟨token, htoken, hcontents⟩ := createToken_render hitems hlead (Or.inr rfl)
          have hchunk := isChunk_padded hitems hstage hlead (Or.inr rfl)
          have hlater := ih (List.cons_ne_nil _ _) hstages (Or.inr rfl)
          have hline : lead ++ renderLine (stage :: next :: stages) =
              lead ++ (stage.render ++ [' ']) ++ '|' :: ([' '] ++ renderLine (next :: stages)) := by
            rw [renderLine, List.map_cons, List.map_cons, List.intercalate_cons_cons, renderLine,
              List.map_cons]
            simp
          rw [createLinkedList] at hlater
          rw [hline, createLinkedList, (strtokAll_token hchunk.1 hchunk.2).2 '|' (by decide) rfl,
            List.mapM_cons, htoken]
          cases htokens : (strtokAll ['|'] (some ([' '] ++ renderLine (next :: stages)))).mapM
              createToken with
          | error e =>
              rw [htokens] at hlater
              cases hlater
          | ok tokens =>
              rw [htokens] at hlater
              have hcontents' : tokens.map Token.contents = (next :: stages).map Stage.parsed := by
                injection hlater
              simp [Except.map, pure, Except.pure, bind, Except.bind, hcontents, hcontents']

end Lines

end FortyTwo.Minishell
