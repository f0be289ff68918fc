import FortyTwo.Minishell.CommandArray

/-!
`strip_quotes` on the words it is meant for: plain, single-quoted and double-quoted segments
in any order. The function looks at the first character and at the last one, and at none of
the segments between.
-/

namespace FortyTwo.Minishell

/-- A piece of a word. A quote of one kind may enclose quotes of the other. -/
inductive Segment where
  | plain (text : Str) (hplain : ∀ c ∈ text, isQuote c = false)
  | quoted (quote : Char) (text : Str) (hquote : isQuote quote = true) (hclosed : quote ∉ text)

namespace Segment

def text : Segment → Str
  | plain text _ => text
  | quoted _ text _ _ => text

def written : Segment → Str
  | plain text _ => text
  | quoted quote text _ _ => quote :: (text ++ [quote])

def isQuoted : Segment → Bool
  | plain _ _ => false
  | quoted _ _ _ _ => true

end Segment

def written (segments : List Segment) : Str := segments.flatMap Segment.written

/-- The word without the quotes that enclose its segments. -/
def contents (segments : List Segment) : Str := segments.flatMap Segment.text

/-- The input condition: the word begins with no quote, and no segment encloses one of the
other kind; or it is one quoted segment. -/
def Strippable (segments : List Segment) : Prop :=
  ((∀ c ∈ (written segments).head?, isQuote c = false) ∧
    ∀ segment ∈ segments, ∀ c ∈ segment.text, isQuote c = false) ∨
  ∃ quote text, isQuote quote = true ∧ quote ∉ text ∧
    written segments = quote :: (text ++ [quote])

section Closing

private theorem openBehind_plain (insideQuote : Option Char) {c : Char} (h : isQuote c = false) :
    openBehind insideQuote c = insideQuote := if_neg (by simp [h])

private theorem openBehind_none {quote : Char} (h : isQuote quote = true) :
    openBehind none quote = some quote := if_pos h

private theorem openBehind_self {quote : Char} (h : isQuote quote = true) :
    openBehind (some quote) quote = none := by
  rw [openBehind, if_pos h]
  exact if_pos rfl

private theorem openBehind_other {quote c : Char} (h : c ≠ quote) :
    openBehind (some quote) c = some quote := by
  simp [openBehind, h]

theorem openBehind_foldl_plain {text : Str} (h : ∀ c ∈ text, isQuote c = false)
    (insideQuote : Option Char) : text.foldl openBehind insideQuote = insideQuote := by
  induction text with
  | nil => rfl
  | cons c text ih =>
      obtain ⟨hc, htext⟩ := List.forall_mem_cons.mp h
      rw [List.foldl_cons, openBehind_plain insideQuote hc]
      exact ih htext

theorem openBehind_foldl_inside {quote : Char} {text : Str} (h : quote ∉ text) :
    text.foldl openBehind (some quote) = some quote := by
  induction text with
  | nil => rfl
  | cons c text ih =>
      obtain ⟨hc, htext⟩ := not_or.mp (mt List.mem_cons.mpr h)
      rw [List.foldl_cons, openBehind_other (Ne.symm hc)]
      exact ih htext

private theorem segment_closes (segment : Segment) :
    segment.written.foldl openBehind none = none := by
  cases segment with
  | plain text hplain => exact openBehind_foldl_plain hplain none
  | quoted quote text hquote hclosed =>
      rw [Segment.written, List.foldl_cons, openBehind_none hquote, List.foldl_append,
        openBehind_foldl_inside hclosed]
      exact openBehind_self hquote

/-- The text up to the quote that closes it. -/
private theorem closing_quote {quote : Char} {text : Str}
    (h : text.foldl openBehind (some quote) = none) :
    ∃ inside rest, text = inside ++ quote :: rest ∧ quote ∉ inside ∧
      rest.foldl openBehind (openBehind (some quote) quote) = none := by
  induction text with
  | nil => cases h
  | cons c text ih =>
      by_cases hc : c = quote
      · subst hc
        exact ⟨[], text, rfl, List.not_mem_nil, h⟩
      · rw [List.foldl_cons, openBehind_other hc] at h
        obtain ⟨inside, rest, rfl, hinside, hrest⟩ := ih h
        refine ⟨c :: inside, rest, rfl, ?_, hrest⟩
        rw [List.mem_cons, not_or]
        exact ⟨Ne.symm hc, hinside⟩

/-- The words in which every quote is closed are those made of segments. -/
theorem exists_segments_iff (word : Str) :
    (∃ segments, written segments = word) ↔ word.foldl openBehind none = none := by
  constructor
  · rintro ⟨segments, rfl⟩
    induction segments with
    | nil => rfl
    | cons segment segments ih =>
        rw [written, List.flatMap_cons, List.foldl_append, segment_closes]
        exact ih
  · intro h
    induction hlength : word.length using Nat.strong_induction_on generalizing word with
    | _ length ih =>
        cases word with
        | nil => exact ⟨[], rfl⟩
        | cons c rest =>
            by_cases hc : isQuote c = true
            · rw [List.foldl_cons, openBehind_none hc] at h
              obtain ⟨inside, later, rfl, hinside, hlater⟩ := closing_quote h
              rw [openBehind_self hc] at hlater
              obtain ⟨segments, hsegments⟩ := ih later.length (by simp at hlength; omega) later
                hlater rfl
              refine ⟨.quoted c inside hc hinside :: segments, ?_⟩
              rw [written, List.flatMap_cons]
              rw [written] at hsegments
              rw [hsegments, Segment.written]
              simp
            · have hplain : isQuote c = false := by simpa using hc
              rw [List.foldl_cons, openBehind_plain none hplain] at h
              obtain ⟨segments, hsegments⟩ := ih rest.length (by simp at hlength; omega) rest h rfl
              refine ⟨.plain [c] (by simpa using hplain) :: segments, ?_⟩
              rw [written, List.flatMap_cons]
              rw [written] at hsegments
              rw [hsegments, Segment.written]
              rfl

end Closing

section Counting

variable {segments : List Segment}

private theorem filter_written (segments : List Segment) :
    (written segments).filter (fun c => !isQuote c) =
      (contents segments).filter (fun c => !isQuote c) := by
  induction segments with
  | nil => rfl
  | cons segment segments ih =>
      rw [written, contents] at ih
      rw [written, contents, List.flatMap_cons, List.flatMap_cons, List.filter_append,
        List.filter_append, ih]
      cases segment with
      | plain text hplain => rfl
      | quoted quote text hquote hclosed => simp [Segment.written, Segment.text, hquote]

private theorem length_written (segments : List Segment) :
    (written segments).length = (contents segments).length + 2 * segments.countP Segment.isQuoted := by
  induction segments with
  | nil => rfl
  | cons segment segments ih =>
      rw [written, contents] at ih
      rw [written, contents, List.flatMap_cons, List.flatMap_cons, List.length_append,
        List.length_append, ih, List.countP_cons]
      cases segment with
      | plain text hplain => simp [Segment.written, Segment.text, Segment.isQuoted]; omega
      | quoted quote text hquote hclosed =>
          simp [Segment.written, Segment.text, Segment.isQuoted]
          omega

/-- A quote in the word is one that encloses a segment, or is inside one. -/
private theorem countP_of_quote {c : Char} (hmem : c ∈ written segments) (hc : isQuote c = true) :
    0 < segments.countP Segment.isQuoted := by
  obtain ⟨segment, hsegment, hmem⟩ := List.mem_flatMap.mp hmem
  apply List.countP_pos_iff.mpr
  refine ⟨segment, hsegment, ?_⟩
  cases segment with
  | plain text hplain =>
      rw [hplain c hmem] at hc
      cases hc
  | quoted quote text hquote hclosed => rfl

private theorem first_segment {quote : Char} {rest : Str} (hquote : isQuote quote = true)
    (h : written segments = quote :: rest) :
    ∃ text more, quote ∉ text ∧ rest = text ++ quote :: written more ∧
      contents segments = text ++ contents more := by
  induction segments with
  | nil => cases h
  | cons segment segments ih =>
      rw [written, List.flatMap_cons] at h
      cases segment with
      | plain text hplain =>
          cases text with
          | nil => exact ih h
          | cons c text =>
              obtain ⟨rfl, -⟩ := List.cons.inj h
              rw [hplain c List.mem_cons_self] at hquote
              cases hquote
      | quoted quote' text hquote' hclosed =>
          obtain ⟨rfl, hrest⟩ := List.cons.inj h
          refine ⟨text, segments, hclosed, ?_, rfl⟩
          rw [← hrest, written]
          simp

end Counting

section Removal

variable {segments : List Segment}

private theorem strippable_of_plain (h : ∀ c ∈ (written segments).head?, isQuote c = false) :
    stripQuotes (written segments) = contents segments ↔
      ∀ segment ∈ segments, ∀ c ∈ segment.text, isQuote c = false := by
  have hfilter : stripQuotes (written segments) =
      (contents segments).filter (fun c => !isQuote c) := by
    rw [← filter_written]
    cases hword : written segments with
    | nil => rfl
    | cons c rest =>
        have hc := h c (by rw [hword]; rfl)
        rw [stripQuotes, if_neg (by simp [hc])]
  rw [hfilter, List.filter_eq_self]
  constructor
  · intro hall segment hsegment c hc
    have hkept := hall c (List.mem_flatMap.mpr ⟨segment, hsegment, hc⟩)
    simpa using hkept
  · intro hall c hc
    obtain ⟨segment, hsegment, hmem⟩ := List.mem_flatMap.mp hc
    simp [hall segment hsegment c hmem]

/-- More than one segment, the first of them quoted: too much is left. -/
private theorem stripQuotes_too_long {quote : Char} {text more : Str} (hquote : isQuote quote = true)
    {later : List Segment} (hmore : written later = more) (hne : more ≠ []) :
    (text ++ contents later).length < (stripQuotes (quote :: (text ++ quote :: more))).length := by
  have hlength := length_written later
  rw [hmore] at hlength
  have hpos := List.length_pos_iff.mpr hne
  rw [stripQuotes, if_pos hquote]
  split
  · next hlast =>
      have hmem : quote ∈ written later := by
        rw [hmore]
        apply List.mem_of_getLast?
        rw [← hlast, List.getLast?_append_cons, List.getLast?_cons_of_ne_nil hne]
      have hcount := countP_of_quote hmem hquote
      rw [List.length_dropLast, List.length_append, List.length_append, List.length_cons]
      omega
  · rw [List.length_append, List.length_append, List.length_cons]
    omega

end Removal

/-- The quotes of a word are taken out right for exactly these words. -/
theorem stripQuotes_iff (segments : List Segment) :
    stripQuotes (written segments) = contents segments ↔ Strippable segments := by
  rw [Strippable]
  by_cases hhead : ∀ c ∈ (written segments).head?, isQuote c = false
  · rw [strippable_of_plain hhead]
    constructor
    · exact fun h => Or.inl ⟨hhead, h⟩
    · rintro (⟨-, h⟩ | ⟨quote, text, hquote, -, hword⟩)
      · exact h
      · rw [hhead quote (by rw [hword]; rfl)] at hquote
        cases hquote
  · push Not at hhead
    obtain ⟨quote, hquote, hquoted⟩ := hhead
    obtain ⟨rest, hword⟩ := List.head?_eq_some_iff.mp hquote
    have hquoted : isQuote quote = true := by simpa using hquoted
    obtain ⟨text, later, hinside, rfl, hcontents⟩ := first_segment hquoted hword
    rw [hword, hcontents]
    by_cases hlater : written later = []
    · have hnone : contents later = [] := by
        have hlength := length_written later
        rw [hlater, List.length_nil] at hlength
        exact List.length_eq_zero_iff.mp (by omega)
      have hstrip : stripQuotes (quote :: (text ++ [quote])) = text := by
        rw [stripQuotes, if_pos hquoted, if_pos (by simp), List.dropLast_concat]
      rw [hlater, hnone, hstrip, List.append_nil]
      exact iff_of_true rfl (Or.inr ⟨quote, text, hquoted, hinside, rfl⟩)
    · apply iff_of_false
      · intro heq
        have hlong := @stripQuotes_too_long quote text _ hquoted later rfl hlater
        rw [heq] at hlong
        exact absurd hlong (lt_irrefl _)
      · rintro (⟨hplain, -⟩ | ⟨quote', text', -, hinside', heq⟩)
        · rw [hplain quote rfl] at hquoted
          cases hquoted
        · obtain ⟨rfl, heq⟩ := List.cons.inj heq
          apply hinside'
          have hlast : text ++ quote :: (written later).dropLast = text' := by
            have hdrop := congrArg List.dropLast heq
            rw [List.dropLast_concat, List.dropLast_append_of_ne_nil (List.cons_ne_nil _ _),
              List.dropLast_cons_of_ne_nil hlater] at hdrop
            exact hdrop
          rw [← hlast]
          exact List.mem_append_right text List.mem_cons_self

/-- `'a''b'` becomes `a''b`. -/
theorem not_stripQuotes :
    ¬∀ segments, stripQuotes (written segments) = contents segments := by
  intro h
  have hword := h [.quoted '\'' ['a'] rfl (by decide), .quoted '\'' ['b'] rfl (by decide)]
  revert hword
  decide

end FortyTwo.Minishell
