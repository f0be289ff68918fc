import FortyTwo.Cub3d.HeaderLines

/-!
The headers that are taken against the grammar of a header: which lines the code takes
although the grammar has no place for them.
-/

namespace FortyTwo.Cub3d

open Foundation

/-- What the code takes for a header: the textures and colours that it says. -/
structure Lenient (map : List Str) (textures : List (Texture × Str))
    (colors : List (Surface × Rgb)) : Prop where
  many : 6 ≤ (filledLines map).length
  textureLines : List.Forall₂ LenientTexture ((filledLines map).take 4) textures
  once : (textures.map Prod.fst).Nodup
  colorLines : List.Forall₂ LenientColor (((filledLines map).drop 4).take 2) colors

/-- What is stored of a header. -/
def headerOf (textures : List (Texture × Str)) (colors : List (Surface × Rgb)) : Header :=
  colors.foldl (fun parse color => parse.paint color.1 color.2.value)
    (textures.foldl Header.take {})

section Runs

theorem actAll_colors_iff {lines : List Str} {parse next : Header} :
    actAll formatColor lines parse = .ok next ↔
      ∃ colors, List.Forall₂ LenientColor lines colors ∧
        next = colors.foldl (fun parse color => parse.paint color.1 color.2.value) parse := by
  induction lines generalizing parse with
  | nil =>
      constructor
      · intro h
        exact ⟨[], .nil, (Except.ok.inj h).symm⟩
      · rintro ⟨colors, hcolors, rfl⟩
        cases hcolors
        rfl
  | cons line lines ih =>
      rw [actAll, List.foldlM_cons, except_bind_eq_ok]
      constructor
      · rintro ⟨mid, hline, hrest⟩
        obtain ⟨color, hcolor, rfl⟩ := formatColor_ok_iff.mp hline
        obtain ⟨colors, hcolors, rfl⟩ := ih.mp hrest
        exact ⟨color :: colors, .cons hcolor hcolors, rfl⟩
      · rintro ⟨colors, hcolors, rfl⟩
        cases hcolors with
        | cons hcolor hrest =>
            exact ⟨_, formatColor_ok_iff.mpr ⟨_, hcolor, rfl⟩, ih.mpr ⟨_, hrest, rfl⟩⟩

variable {map : List Str}

/-- The textures are read from the first four lines. -/
theorem parseTextures_run (hfour : 4 ≤ (filledLines map).length) :
    ∃ j, Before map j ((filledLines map).drop 4) ∧
      ∀ next, parseTextures map 0 {} = .ok next ↔ ∃ textures,
        List.Forall₂ LenientTexture ((filledLines map).take 4) textures ∧
          (textures.map Prod.fst).Nodup ∧ next = (j, textures.foldl Header.take {}) := by
  obtain ⟨j, hbefore, hrun⟩ := (Before.start map).linesLoop_run textureLine hfour
  refine ⟨j, hbefore, ?_⟩
  intro next
  have htaken := @textures_taken_iff ((filledLines map).take 4) (by simpa using hfour)
  have heq : parseTextures map 0 {} = actAll textureLine ((filledLines map).take 4) {} >>=
      fun parse => validTextures parse >>= fun _ => .ok (j, parse) := by
    rw [parseTextures, hrun]
    cases actAll textureLine ((filledLines map).take 4) {} with
    | error stop => rfl
    | ok parse => rfl
  simp only [heq, except_bind_eq_ok]
  constructor
  · rintro ⟨parse, hall, _, hvalid, hnext⟩
    obtain ⟨textures, htextures, hnodup, rfl⟩ := htaken.mp ⟨hall, hvalid⟩
    exact ⟨textures, htextures, hnodup, (Except.ok.inj hnext).symm⟩
  · rintro ⟨textures, htextures, hnodup, rfl⟩
    obtain ⟨hall, hvalid⟩ := htaken.mpr ⟨textures, htextures, hnodup, rfl⟩
    exact ⟨_, hall, _, hvalid, rfl⟩

theorem parseTextures_short (hshort : (filledLines map).length < 4) (next : Nat × Header) :
    parseTextures map 0 {} ≠ .ok next := by
  intro h
  rw [parseTextures, (Before.start map).linesLoop_short (fun _ => rfl) hshort] at h
  obtain ⟨_, hloop, -⟩ := except_bind_eq_ok.mp h
  obtain ⟨_, -, hstop⟩ := except_bind_eq_ok.mp hloop
  cases hstop

/-- The colours are read from the next two lines. -/
theorem parseColors_run {i : Nat} {rest : List Str} (h : Before map i rest)
    (htwo : 2 ≤ rest.length) : ∃ j, Before map j (rest.drop 2) ∧
      ∀ parse next, parseColors map i parse = .ok next ↔ ∃ colors,
        List.Forall₂ LenientColor (rest.take 2) colors ∧
          next = (j, colors.foldl (fun parse color => parse.paint color.1 color.2.value) parse) := by
  obtain ⟨j, hbefore, hrun⟩ := h.linesLoop_run formatColor htwo
  refine ⟨j, hbefore, ?_⟩
  intro parse next
  have heq : parseColors map i parse =
      actAll formatColor (rest.take 2) parse >>= fun final => .ok (j, final) := by
    rw [parseColors, hrun]
    cases actAll formatColor (rest.take 2) parse with
    | error stop => rfl
    | ok final => rfl
  simp only [heq, except_bind_eq_ok, actAll_colors_iff]
  constructor
  · rintro ⟨_, ⟨colors, hcolors, rfl⟩, hnext⟩
    exact ⟨colors, hcolors, (Except.ok.inj hnext).symm⟩
  · rintro ⟨colors, hcolors, rfl⟩
    exact ⟨_, ⟨colors, hcolors, rfl⟩, rfl⟩

theorem parseColors_short {i : Nat} {rest : List Str} (h : Before map i rest)
    (hshort : rest.length < 2) (parse : Header) (next : Nat × Header) :
    parseColors map i parse ≠ .ok next := by
  rw [parseColors, h.linesLoop_short (fun _ => rfl) hshort]
  intro hrun
  obtain ⟨_, -, hstop⟩ := except_bind_eq_ok.mp hrun
  cases hstop

theorem parseHeader_run {i : Nat} {parse : Header} (h : parseHeader map = .ok (i, parse)) :
    Before map i (((filledLines map).drop 4).drop 2) ∧
      ∃ textures colors, Lenient map textures colors ∧ parse = headerOf textures colors := by
  have hlength : ((filledLines map).drop 4).length = (filledLines map).length - 4 :=
    List.length_drop
  obtain ⟨mid, hfirst, hrest⟩ := except_bind_eq_ok.mp h
  have hfour : 4 ≤ (filledLines map).length := by
    by_contra hshort
    exact parseTextures_short (Nat.lt_of_not_le hshort) mid hfirst
  obtain ⟨j, hbefore, htextures⟩ := parseTextures_run hfour
  obtain ⟨textures, hall, honce, rfl⟩ := (htextures mid).mp hfirst
  have htwo : 2 ≤ ((filledLines map).drop 4).length := by
    by_contra hshort
    exact parseColors_short hbefore (Nat.lt_of_not_le hshort) _ _ hrest
  obtain ⟨k, hafter, hcolors⟩ := parseColors_run hbefore htwo
  obtain ⟨colors, hcolor, hnext⟩ := (hcolors _ _).mp hrest
  obtain ⟨rfl, rfl⟩ := Prod.mk.inj hnext
  exact ⟨hafter, textures, colors, ⟨by omega, hall, honce, hcolor⟩, rfl⟩

theorem parseHeader_ok_iff {parse : Header} : (∃ i, parseHeader map = .ok (i, parse)) ↔
    ∃ textures colors, Lenient map textures colors ∧ parse = headerOf textures colors := by
  have hlength : ((filledLines map).drop 4).length = (filledLines map).length - 4 :=
    List.length_drop
  constructor
  · rintro ⟨i, h⟩
    exact (parseHeader_run h).2
  · rintro ⟨textures, colors, hlenient, rfl⟩
    have hmany := hlenient.many
    have hfour : 4 ≤ (filledLines map).length := by omega
    obtain ⟨j, hbefore, htextures⟩ := parseTextures_run hfour
    obtain ⟨k, -, hcolors⟩ := parseColors_run hbefore (by omega)
    exact ⟨k, except_bind_eq_ok.mpr
      ⟨_, (htextures _).mpr ⟨textures, hlenient.textureLines, hlenient.once, rfl⟩,
        (hcolors _ _).mpr ⟨colors, hlenient.colorLines, rfl⟩⟩⟩

end Runs

section Grammar

/-- An identifier and a path. -/
structure TextureLine (line : Str) (texture : Texture × Str) : Prop where
  words_eq : words ' ' line = [texture.1.name, texture.2]
  extension : ".xpm".toList <:+ texture.2

/-- A decimal number up to 255, with blanks around it. -/
structure Component (piece : Str) (value : Nat) : Prop where
  digits : ∃ before digits after, digits ≠ [] ∧ Spaced piece before digits after ∧
    decimal digits = value
  small : value ≤ 255

/-- A letter, a blank and three numbers between commas. -/
structure ColorLine (line : Str) (color : Surface × Rgb) : Prop where
  pieces : ∃ body r g b, line = color.1.letter :: ' ' :: body ∧ body.splitOn ',' = [r, g, b] ∧
    Component r color.2.r ∧ Component g color.2.g ∧ Component b color.2.b

/-- The header of the file is of this form. -/
structure Describes (map : List Str) (textures : List (Texture × Str))
    (colors : List (Surface × Rgb)) : Prop where
  many : 6 ≤ (filledLines map).length
  textureLines : List.Forall₂ TextureLine ((filledLines map).take 4) textures
  textures_once : (textures.map Prod.fst).Nodup
  colorLines : List.Forall₂ ColorLine (((filledLines map).drop 4).take 2) colors
  colors_once : (colors.map Prod.fst).Nodup

/-- An identifier of two letters, and a path that is long enough for its extension. -/
def TidyTexture (line : Str) : Prop :=
  ∀ name path, words ' ' line = [name, path] → name.length = 2 ∧ 4 ≤ path.length

/-- No blank in front, two commas, a digit between them, and no number over 32 bits. -/
structure TidyColor (line : Str) : Prop where
  front : line.head? ≠ some ' '
  commas : ((line.drop 2).splitOn ',').length = 3
  filled : ∀ piece ∈ (line.drop 2).splitOn ',', ∃ c ∈ piece, c.isDigit = true
  narrow : ∀ piece ∈ (line.drop 2).splitOn ',', decimal (piece.filter Char.isDigit) < 2 ^ 32

/-- The header has nothing in it that the code lets pass by accident. -/
structure Tidy (map : List Str) : Prop where
  textures : ∀ line ∈ (filledLines map).take 4, TidyTexture line
  colors : ∀ line ∈ ((filledLines map).drop 4).take 2, TidyColor line
  letters : ((((filledLines map).drop 4).take 2).map List.head?).Nodup

theorem textureLine_iff {line : Str} {texture : Texture × Str} :
    TextureLine line texture ↔ LenientTexture line texture ∧ TidyTexture line := by
  have hname : ∀ i : Texture, i.name.length = 2 := by
    intro i
    cases i <;> rfl
  constructor
  · rintro ⟨hwords, hextension⟩
    refine ⟨⟨⟨_, hwords, List.prefix_refl _⟩, Or.inr hextension⟩, ?_⟩
    intro name path h
    rw [hwords] at h
    cases h
    exact ⟨hname _, hextension.length_le⟩
  · rintro ⟨⟨⟨name, hwords, hprefix⟩, hextension⟩, htidy⟩
    obtain ⟨htwo, hlong⟩ := htidy name texture.2 hwords
    have heq : name = texture.1.name :=
      hprefix.eq_of_length (htwo.trans (hname texture.1).symm)
    exact ⟨heq ▸ hwords, hextension.resolve_left (Nat.not_lt_of_le hlong)⟩

private theorem filter_spaced {piece digits : Str} {before after : Nat}
    (h : Spaced piece before digits after) : piece.filter Char.isDigit = digits := by
  obtain ⟨hdigits, rfl⟩ := h
  have hblank : ∀ n : Nat, (List.replicate n ' ').filter Char.isDigit = [] := by
    intro n
    apply List.filter_eq_nil_iff.mpr
    intro c hc
    rw [List.eq_of_mem_replicate hc]
    decide
  rw [List.filter_append, List.filter_append, hblank, hblank, List.filter_eq_self.mpr hdigits]
  simp

private theorem component_iff {piece : Str} {value : Nat} :
    Component piece value ↔ LenientComponent piece value ∧ (∃ c ∈ piece, c.isDigit = true) ∧
      decimal (piece.filter Char.isDigit) < 2 ^ 32 := by
  constructor
  · rintro ⟨⟨before, digits, after, hne, hspaced, rfl⟩, hsmall⟩
    have hnarrow : decimal digits < 2 ^ 32 := by omega
    rw [filter_spaced hspaced]
    refine ⟨⟨⟨before, digits, after, hspaced.1, hspaced.2, ?_⟩, hsmall⟩, ?_, hnarrow⟩
    · rw [Nat.mod_eq_of_lt hnarrow]
    · obtain ⟨c, rest, rfl⟩ := List.exists_cons_of_ne_nil hne
      exact ⟨c, by rw [hspaced.2]; simp, hspaced.1 c List.mem_cons_self⟩
  · rintro ⟨⟨⟨before, digits, after, hdigits, hpiece, rfl⟩, hsmall⟩, ⟨c, hmem, hc⟩, hnarrow⟩
    have hspaced : Spaced piece before digits after := ⟨hdigits, hpiece⟩
    rw [filter_spaced hspaced] at hnarrow
    refine ⟨⟨before, digits, after, ?_, hspaced, (Nat.mod_eq_of_lt hnarrow).symm⟩, hsmall⟩
    rintro rfl
    have hcontains := List.mem_filter.mpr ⟨hmem, hc⟩
    rw [filter_spaced hspaced] at hcontains
    cases hcontains

private theorem lenientComponent_cons_blank {piece : Str} {value : Nat} :
    LenientComponent (' ' :: piece) value ↔ LenientComponent piece value := by
  constructor
  · rintro ⟨⟨before, digits, after, hdigits, hpiece, hvalue⟩, hsmall⟩
    refine ⟨?_, hsmall⟩
    cases before with
    | succ before =>
        exact ⟨before, digits, after, hdigits, (List.cons.inj hpiece).2, hvalue⟩
    | zero =>
        cases digits with
        | cons c digits =>
            obtain rfl : ' ' = c := (List.cons.inj hpiece).1
            exact absurd (hdigits ' ' List.mem_cons_self) (by decide)
        | nil =>
            cases after with
            | zero => cases hpiece
            | succ after =>
                exact ⟨0, [], after, hdigits, (List.cons.inj hpiece).2, hvalue⟩
  · rintro ⟨⟨before, digits, after, hdigits, rfl, hvalue⟩, hsmall⟩
    exact ⟨⟨before + 1, digits, after, hdigits, rfl, hvalue⟩, hsmall⟩

private theorem words_of_pieces {body r g b : Str} (hbody : body.splitOn ',' = [r, g, b])
    (hg : g ≠ []) (hb : b ≠ []) : words ',' (' ' :: body) = [' ' :: r, g, b] := by
  have hsplit : (' ' :: body).splitOn ',' = [' ' :: r, g, b] := by
    rw [List.splitOn] at hbody ⊢
    rw [List.splitOnP_cons_eq_if_modifyHead, if_neg (by decide), hbody]
    rfl
  rw [words, hsplit]
  simp [hg, hb]

theorem colorLine_iff {line : Str} {color : Surface × Rgb} :
    ColorLine line color ↔ LenientColor line color ∧ TidyColor line := by
  have hletter : color.1.letter ≠ ' ' := by
    cases color.1 <;> decide
  have hne : ∀ {piece : Str}, (∃ c ∈ piece, c.isDigit = true) → piece ≠ [] := by
    rintro piece ⟨c, hc, -⟩
    exact List.ne_nil_of_mem hc
  constructor
  · rintro ⟨body, r, g, b, rfl, hbody, hr, hg, hb⟩
    obtain ⟨hr, hrdigit, hrnarrow⟩ := component_iff.mp hr
    obtain ⟨hg, hgdigit, hgnarrow⟩ := component_iff.mp hg
    obtain ⟨hb, hbdigit, hbnarrow⟩ := component_iff.mp hb
    refine ⟨⟨body, ' ' :: r, g, b, ?_, words_of_pieces hbody (hne hgdigit) (hne hbdigit),
      lenientComponent_cons_blank.mpr hr, hg, hb⟩, ?_⟩
    · rw [List.dropWhile_cons_of_neg (by simpa using hletter)]
    · have hpieces : ((color.1.letter :: ' ' :: body).drop 2).splitOn ',' = [r, g, b] := hbody
      constructor
      · simpa using hletter
      · rw [hpieces]
        rfl
      · rw [hpieces]
        simp only [List.forall_mem_cons]
        exact ⟨hrdigit, hgdigit, hbdigit, by simp⟩
      · rw [hpieces]
        simp only [List.forall_mem_cons]
        exact ⟨hrnarrow, hgnarrow, hbnarrow, by simp⟩
  · rintro ⟨⟨body, r', g', b', hline, hwords, hr, hg, hb⟩, htidy⟩
    have hfront : line = color.1.letter :: ' ' :: body := by
      rcases line with _ | ⟨c, rest⟩
      · cases hline
      · rw [List.dropWhile_cons_of_neg (by simpa using htidy.front)] at hline
        exact hline
    have hdrop : line.drop 2 = body := by rw [hfront]; rfl
    obtain ⟨r, g, b, hpieces⟩ := List.length_eq_three.mp (hdrop ▸ htidy.commas)
    have hfilled := hdrop ▸ htidy.filled
    have hnarrow := hdrop ▸ htidy.narrow
    rw [hpieces] at hfilled hnarrow
    simp only [List.forall_mem_cons] at hfilled hnarrow
    rw [words_of_pieces hpieces (hne hfilled.2.1) (hne hfilled.2.2.1)] at hwords
    cases hwords
    exact ⟨body, r, g', b', hfront, hpieces,
      component_iff.mpr ⟨lenientComponent_cons_blank.mp hr, hfilled.1, hnarrow.1⟩,
      component_iff.mpr ⟨hg, hfilled.2.1, hnarrow.2.1⟩,
      component_iff.mpr ⟨hb, hfilled.2.2.1, hnarrow.2.2.1⟩⟩

private theorem forall₂_and_iff {α β : Type} {R S : α → β → Prop} {P : α → Prop}
    (h : ∀ a b, R a b ↔ S a b ∧ P a) {l : List α} {m : List β} :
    List.Forall₂ R l m ↔ List.Forall₂ S l m ∧ ∀ a ∈ l, P a := by
  have hswap : R = fun a b => P a ∧ S a b :=
    funext fun a => funext fun b => propext ((h a b).trans and_comm)
  rw [hswap, List.forall₂_and_left, and_comm]

/-- The first letters of the colour lines tell the surfaces. -/
private theorem letters_nodup_iff {lines : List Str} {colors : List (Surface × Rgb)}
    (h : List.Forall₂ ColorLine lines colors) :
    (lines.map List.head?).Nodup ↔ (colors.map Prod.fst).Nodup := by
  have hletters : lines.map List.head? = (colors.map Prod.fst).map fun s => some s.letter := by
    induction h with
    | nil => rfl
    | cons hline _ ih =>
        obtain ⟨body, r, g, b, rfl, -⟩ := hline
        rw [List.map_cons, List.map_cons, List.map_cons, ← ih]
        rfl
  rw [hletters]
  apply List.nodup_map_iff
  intro s t hst
  cases s <;> cases t <;> first | rfl | exact absurd hst (by decide)

theorem describes_iff {map : List Str} {textures : List (Texture × Str)}
    {colors : List (Surface × Rgb)} :
    Describes map textures colors ↔ Lenient map textures colors ∧ Tidy map := by
  constructor
  · rintro ⟨hmany, htextures, honce, hcolors, honce'⟩
    have hletters := (letters_nodup_iff hcolors).mpr honce'
    obtain ⟨htextures, htidy⟩ := (forall₂_and_iff @textureLine_iff).mp htextures
    obtain ⟨hcolors, htidy'⟩ := (forall₂_and_iff @colorLine_iff).mp hcolors
    exact ⟨⟨hmany, htextures, honce, hcolors⟩, htidy, htidy', hletters⟩
  · rintro ⟨⟨hmany, htextures, honce, hcolors⟩, htidy, htidy', hletters⟩
    have hcolors' := (forall₂_and_iff @colorLine_iff).mpr ⟨hcolors, htidy'⟩
    exact ⟨hmany, (forall₂_and_iff @textureLine_iff).mpr ⟨htextures, htidy⟩, honce, hcolors',
      (letters_nodup_iff hcolors').mp hletters⟩

def Header.color (parse : Header) : Surface → Nat
  | .ceiling => parse.cColor
  | .floor => parse.fColor

theorem textures_headerOf {textures : List (Texture × Str)} {colors : List (Surface × Rgb)}
    (hnodup : (textures.map Prod.fst).Nodup) {texture : Texture × Str} (h : texture ∈ textures) :
    (headerOf textures colors).textures texture.1 = some texture.2 := by
  have hpaint : ∀ parse : Header,
      (colors.foldl (fun parse color => parse.paint color.1 color.2.value) parse).textures =
        parse.textures := by
    induction colors with
    | nil => exact fun _ => rfl
    | cons color rest ih =>
        intro parse
        rw [List.foldl_cons, ih]
        rcases color with ⟨_ | _, rgb⟩ <;> rfl
  rw [headerOf, hpaint]
  exact textures_foldl_take hnodup {} h

private theorem color_foldl_of_not_mem {colors : List (Surface × Rgb)} (parse : Header)
    {surface : Surface} (h : surface ∉ colors.map Prod.fst) :
    (colors.foldl (fun parse color => parse.paint color.1 color.2.value) parse).color surface =
      parse.color surface := by
  induction colors generalizing parse with
  | nil => rfl
  | cons color rest ih =>
      rw [List.map_cons, List.mem_cons, not_or] at h
      rw [List.foldl_cons, ih _ h.2]
      rcases color with ⟨_ | _, rgb⟩ <;> cases surface <;>
        first | rfl | exact absurd rfl h.1

theorem color_foldl {colors : List (Surface × Rgb)} (hnodup : (colors.map Prod.fst).Nodup)
    (parse : Header) {color : Surface × Rgb} (h : color ∈ colors) :
    (colors.foldl (fun parse color => parse.paint color.1 color.2.value) parse).color color.1 =
      color.2.value := by
  induction colors generalizing parse with
  | nil => cases h
  | cons first rest ih =>
      rw [List.map_cons, List.nodup_cons] at hnodup
      rcases List.mem_cons.mp h with rfl | hrest
      · rw [List.foldl_cons, color_foldl_of_not_mem _ hnodup.1]
        rcases color with ⟨_ | _, rgb⟩ <;> rfl
      · exact ih hnodup.2 _ hrest

/-- What the header of the file should mean to the program. -/
def MeetsGrammar (map : List Str) : Prop :=
  ((∃ state, parseHeader map = .ok state) ↔ ∃ textures colors, Describes map textures colors) ∧
    ∀ i parse textures colors, parseHeader map = .ok (i, parse) →
      Describes map textures colors →
      (∀ texture ∈ textures, parse.textures texture.1 = some texture.2) ∧
        ∀ color ∈ colors, parse.color color.1 = color.2.value

/-- The program agrees with the grammar about a file exactly if it does not take its header,
or the header has nothing in it that passes by accident. -/
theorem meetsGrammar_iff (map : List Str) :
    MeetsGrammar map ↔ ((∃ textures colors, Lenient map textures colors) → Tidy map) := by
  have htaken : (∃ state, parseHeader map = .ok state) ↔
      ∃ textures colors, Lenient map textures colors := by
    constructor
    · rintro ⟨⟨i, parse⟩, h⟩
      obtain ⟨textures, colors, hlenient, -⟩ := parseHeader_ok_iff.mp ⟨i, h⟩
      exact ⟨textures, colors, hlenient⟩
    · rintro ⟨textures, colors, hlenient⟩
      obtain ⟨i, h⟩ := parseHeader_ok_iff.mpr ⟨textures, colors, hlenient, rfl⟩
      exact ⟨_, h⟩
  constructor
  · rintro ⟨hiff, -⟩ hlenient
    obtain ⟨textures, colors, hdescribes⟩ := hiff.mp (htaken.mpr hlenient)
    exact (describes_iff.mp hdescribes).2
  · intro htidy
    constructor
    · rw [htaken]
      constructor
      · rintro ⟨textures, colors, hlenient⟩
        exact ⟨textures, colors, describes_iff.mpr ⟨hlenient, htidy ⟨_, _, hlenient⟩⟩⟩
      · rintro ⟨textures, colors, hdescribes⟩
        exact ⟨textures, colors, (describes_iff.mp hdescribes).1⟩
    · intro i parse textures colors h hdescribes
      obtain ⟨j, hrun⟩ := parseHeader_ok_iff.mpr
        ⟨textures, colors, (describes_iff.mp hdescribes).1, rfl⟩
      rw [h] at hrun
      obtain rfl := (Prod.mk.inj (Except.ok.inj hrun)).2
      exact ⟨fun texture => textures_headerOf hdescribes.textures_once,
        fun color => color_foldl hdescribes.colors_once _⟩

/-- A header with an identifier of one letter. -/
private def shortened : List Str :=
  ["N a.xpm", "SO b.xpm", "WE c.xpm", "EA d.xpm", "C 1,2,3", "F 4,5,6"].map String.toList

theorem not_meetsGrammar : ¬∀ map, MeetsGrammar map := by
  intro h
  obtain ⟨hiff, -⟩ := h shortened
  obtain ⟨textures, colors, hdescribes⟩ := hiff.mp ⟨_, rfl⟩
  obtain ⟨texture, -, hline, -, -⟩ := List.forall₂_cons_left_iff.mp hdescribes.textureLines
  have hname : "N".toList = texture.1.name := (List.cons.inj hline.words_eq).1
  have hlength := congrArg List.length hname
  rcases texture with ⟨_ | _ | _ | _, path⟩ <;> cases hlength

end Grammar

end FortyTwo.Cub3d
