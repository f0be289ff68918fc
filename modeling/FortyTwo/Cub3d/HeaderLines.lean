import FortyTwo.Cub3d.Header
import FortyTwo.Foundation.BoundedLoop

/-!
What the code takes from a file: the lines that are not empty, one after the other. For
each kind of line it is said which lines are taken, and what they say.
-/

namespace FortyTwo.Cub3d

open Foundation

/-- The lines that `find_str` stops at. -/
def filledLines (map : List Str) : List Str := map.filter fun line => !isEmptyLine line

section Lines

private theorem filter_dropWhile (map : List Str) :
    filledLines (map.dropWhile isEmptyLine) = filledLines map := by
  induction map with
  | nil => rfl
  | cons line rest ih =>
      by_cases hline : isEmptyLine line = true
      · rw [List.dropWhile_cons_of_pos hline, ih]
        simp [filledLines, hline]
      · rw [List.dropWhile_cons_of_neg hline]

/-- Where `find_str` is in the file, and the lines that are left for it. -/
structure Before (map : List Str) (i : Nat) (rest : List Str) : Prop where
  inside : i ≤ map.length
  rest_eq : filledLines (map.drop i) = rest

theorem Before.start (map : List Str) : Before map 0 (filledLines map) := ⟨Nat.zero_le _, rfl⟩

variable {map : List Str} {i : Nat}

private theorem findStr_drop (h : i ≤ map.length) : ∃ j, findStr map i = .ok j ∧
    map.drop j = (map.drop i).dropWhile isEmptyLine := by
  refine ⟨_, if_pos h, ?_⟩
  rw [← List.drop_drop, drop_length_takeWhile]

theorem Before.findStr_cons {line : Str} {rest : List Str} (h : Before map i (line :: rest)) :
    ∃ j, findStr map i = .ok j ∧ map[j]? = some line ∧ Before map (j + 1) rest := by
  obtain ⟨j, hfind, hdrop⟩ := findStr_drop h.inside
  have hlines := h.rest_eq
  rw [← filter_dropWhile] at hlines
  cases hfirst : (map.drop i).dropWhile isEmptyLine with
  | nil =>
      rw [hfirst] at hlines
      cases hlines
  | cons found more =>
      have hfound : ¬isEmptyLine found = true := by
        have hhead := List.head?_dropWhile_not isEmptyLine (map.drop i)
        rw [hfirst] at hhead
        simpa using hhead
      rw [hfirst, filledLines, List.filter_cons_of_pos (by simpa using hfound)] at hlines
      obtain ⟨rfl, hmore⟩ := List.cons.inj hlines
      rw [hfirst] at hdrop
      have hj : j < map.length := by
        by_contra hge
        rw [List.drop_eq_nil_of_le (Nat.le_of_not_lt hge)] at hdrop
        cases hdrop
      rw [List.drop_eq_getElem_cons hj] at hdrop
      obtain ⟨hline, hdrop⟩ := List.cons.inj hdrop
      exact ⟨j, hfind, by rw [List.getElem?_eq_getElem hj, hline], hj, by rw [hdrop, ← hmore]; rfl⟩

theorem Before.findStr_nil (h : Before map i []) : findStr map i = .ok map.length := by
  have hall : ∀ line ∈ map.drop i, isEmptyLine line = true := by
    intro line hline
    simpa using List.filter_eq_nil_iff.mp h.rest_eq line hline
  rw [findStr, if_pos h.inside, List.takeWhile_eq_self_iff.mpr hall, List.length_drop,
    Nat.add_sub_cancel' h.inside]

/-- What a loop over lines does with the lines themselves. -/
def actAll (act : Option Str → Header → Except Stop Header) (lines : List Str)
    (parse : Header) : Except Stop Header :=
  lines.foldlM (fun parse line => act (some line) parse) parse

variable {act : Option Str → Header → Except Stop Header}

theorem Before.linesLoop_run {count : Nat} {rest : List Str} (h : Before map i rest)
    (act : Option Str → Header → Except Stop Header) (hcount : count ≤ rest.length) : ∃ j, Before map j (rest.drop count) ∧ ∀ parse,
      linesLoop act map count (i, parse) = (actAll act (rest.take count) parse).map (j, ·) := by
  induction count generalizing i rest with
  | zero => exact ⟨i, h, fun _ => rfl⟩
  | succ count ih =>
      cases rest with
      | nil => simp at hcount
      | cons line rest =>
          obtain ⟨j, hfind, hline, hbefore⟩ := h.findStr_cons
          obtain ⟨k, hafter, hrun⟩ := ih hbefore (by simpa using hcount)
          refine ⟨k, hafter, ?_⟩
          intro parse
          rw [linesLoop, hfind]
          change (act map[j]? parse >>= _) = _
          rw [hline, List.take_succ_cons, actAll, List.foldlM_cons]
          cases act (some line) parse with
          | error stop => rfl
          | ok next => exact hrun next

/-- The file comes to its end before the loop does. -/
theorem Before.linesLoop_short {stop : Stop} (hnone : ∀ parse, act none parse = .error stop)
    {count : Nat} {rest : List Str} (h : Before map i rest) (hcount : rest.length < count)
    (parse : Header) :
    linesLoop act map count (i, parse) = actAll act rest parse >>= fun _ => .error stop := by
  induction count generalizing i rest parse with
  | zero => exact absurd hcount (Nat.not_lt_zero _)
  | succ count ih =>
      cases rest with
      | nil =>
          rw [linesLoop, h.findStr_nil]
          change (act map[map.length]? parse >>= _) = .error stop
          rw [List.getElem?_eq_none (Nat.le_refl _), hnone]
          rfl
      | cons line rest =>
          obtain ⟨j, hfind, hline, hbefore⟩ := h.findStr_cons
          rw [linesLoop, hfind]
          change (act map[j]? parse >>= _) = _
          rw [hline, actAll, List.foldlM_cons]
          cases act (some line) parse with
          | error stop => rfl
          | ok next => exact ih hbefore (by simpa using hcount) next

end Lines

section Textures

def Texture.name : Texture → Str
  | .no => "NO".toList
  | .so => "SO".toList
  | .we => "WE".toList
  | .ea => "EA".toList

/-- The first letters of an identifier are enough, and a path of fewer than four characters
need not end in anything. -/
structure LenientTexture (line : Str) (texture : Texture × Str) : Prop where
  words_eq : ∃ name, words ' ' line = [name, texture.2] ∧ name <+: texture.1.name
  extension : texture.2.length < 4 ∨ ".xpm".toList <:+ texture.2

/-- A texture is stored and counted. -/
def Header.take (parse : Header) (texture : Texture × Str) : Header :=
  { parse with
    textures := Function.update parse.textures texture.1 (some texture.2)
    count := Function.update parse.count texture.1 (parse.count texture.1 + 1) }

@[simp] theorem Header.take_textures (parse : Header) (texture : Texture × Str) :
    (parse.take texture).textures =
      Function.update parse.textures texture.1 (some texture.2) := rfl

@[simp] theorem Header.take_count (parse : Header) (texture : Texture × Str) :
    (parse.take texture).count =
      Function.update parse.count texture.1 (parse.count texture.1 + 1) := rfl

private theorem eq_of_name_head {i j : Texture} (h : i.name.head? = j.name.head?) : i = j := by
  cases i <;> cases j <;> first | rfl | exact absurd h (by decide)

theorem textureOf_eq_some_iff {name : Str} (hne : name ≠ []) {i : Texture} :
    textureOf name = some i ↔ name <+: i.name := by
  have hhead : ∀ j : Texture, name <+: j.name → j.name.head? = name.head? := by
    intro j hj
    obtain ⟨c, rest, rfl⟩ := List.exists_cons_of_ne_nil hne
    obtain ⟨more, hmore⟩ := hj
    rw [← hmore]
    rfl
  simp only [textureOf, ftStrncmp, List.isPrefixOf_iff_prefix]
  constructor
  · intro h
    split_ifs at h with hno hso hwe hea
    · exact Option.some.inj h ▸ hno
    · exact Option.some.inj h ▸ hso
    · exact Option.some.inj h ▸ hwe
    · exact Option.some.inj h ▸ hea
  · intro h
    have honly : ∀ j : Texture, name <+: j.name → some j = some i :=
      fun j hj => congrArg some (eq_of_name_head ((hhead j hj).trans (hhead i h).symm))
    split_ifs with hno hso hwe hea
    · exact honly .no hno
    · exact honly .so hso
    · exact honly .we hwe
    · exact honly .ea hea
    · cases i with
      | no => exact absurd h hno
      | so => exact absurd h hso
      | we => exact absurd h hwe
      | ea => exact absurd h hea

theorem takeTexture_of_texture {name path : Str} {i : Texture} (h : textureOf name = some i)
    (parse : Header) : takeTexture name path parse =
      if path.length < 4 ∨ ".xpm".toList <:+ path then .ok (parse.take (i, path))
      else .error (.exit "Incorrect extension of the texture file") := by
  have hsuffix : ".xpm".toList <:+ path ↔ path.drop (path.length - 4) = ".xpm".toList := by
    rw [List.suffix_iff_eq_drop, eq_comm]
    rfl
  rw [takeTexture, h]
  change (if _ then _ else _) >>= _ = _
  by_cases hshort : path.length < 4 ∨ ".xpm".toList <:+ path
  · rw [if_neg fun hbad => hshort.elim (Nat.not_lt_of_le hbad.1) fun h => hbad.2 (hsuffix.mp h),
      if_pos hshort]
    rfl
  · obtain ⟨hlong, hother⟩ := not_or.mp hshort
    rw [if_pos ⟨Nat.le_of_not_lt hlong, fun h => hother (hsuffix.mpr h)⟩, if_neg hshort]
    rfl

/-- A line is refused, it says what a texture is, or its first word is unknown. -/
theorem textureLine_ok_iff {line : Str} {parse next : Header} :
    textureLine (some line) parse = .ok next ↔
      (∃ texture, LenientTexture line texture ∧ next = parse.take texture) ∨
      (next = parse ∧ ∃ name path, words ' ' line = [name, path] ∧ textureOf name = none) := by
  have hwords : ∀ {name path : Str}, words ' ' line = [name, path] →
      (textureLine (some line) parse = takeTexture name path parse ∧ name ≠ []) := by
    intro name path h
    refine ⟨by rw [textureLine, Option.map_some, h], ?_⟩
    exact ne_nil_of_mem_words (h ▸ List.mem_cons_self)
  constructor
  · intro h
    obtain ⟨name, path, hline⟩ : ∃ name path, words ' ' line = [name, path] := by
      rw [textureLine, Option.map_some] at h
      split at h
      · next name path hline => exact ⟨name, path, Option.some.inj hline⟩
      · cases h
    obtain ⟨hrun, hne⟩ := hwords hline
    rw [hrun] at h
    cases htexture : textureOf name with
    | none =>
        rw [takeTexture, htexture] at h
        exact Or.inr ⟨(Except.ok.inj h).symm, name, path, hline, htexture⟩
    | some i =>
        rw [takeTexture_of_texture htexture] at h
        split_ifs at h with hextension
        exact Or.inl ⟨(i, path), ⟨⟨name, hline, (textureOf_eq_some_iff hne).mp htexture⟩, hextension⟩,
          (Except.ok.inj h).symm⟩
  · rintro (⟨⟨i, path⟩, ⟨⟨name, hline, hprefix⟩, hextension⟩, rfl⟩ | ⟨rfl, name, path, hline, hnone⟩)
    · obtain ⟨hrun, hne⟩ := hwords hline
      rw [hrun, takeTexture_of_texture ((textureOf_eq_some_iff hne).mpr hprefix),
        if_pos hextension]
    · rw [(hwords hline).1, takeTexture, hnone]

/-- The textures of the lines, in order; a line whose first word is unknown gives none. -/
inductive Taken : List Str → List (Texture × Str) → Prop where
  | nil : Taken [] []
  | take {line texture lines textures} : LenientTexture line texture → Taken lines textures →
      Taken (line :: lines) (texture :: textures)
  | skip {line name path lines textures} : words ' ' line = [name, path] →
      textureOf name = none → Taken lines textures → Taken (line :: lines) textures

theorem actAll_textures_iff {lines : List Str} {parse next : Header} :
    actAll textureLine lines parse = .ok next ↔
      ∃ textures, Taken lines textures ∧ next = textures.foldl Header.take parse := by
  induction lines generalizing parse with
  | nil =>
      constructor
      · intro h
        exact ⟨[], .nil, (Except.ok.inj h).symm⟩
      · rintro ⟨textures, htaken, rfl⟩
        cases htaken
        rfl
  | cons line lines ih =>
      rw [actAll, List.foldlM_cons, except_bind_eq_ok]
      constructor
      · rintro ⟨mid, hline, hrest⟩
        obtain ⟨textures, htaken, rfl⟩ := ih.mp hrest
        rcases textureLine_ok_iff.mp hline with
          ⟨texture, htexture, rfl⟩ | ⟨rfl, name, path, hwords, hnone⟩
        · exact ⟨texture :: textures, .take htexture htaken, rfl⟩
        · exact ⟨textures, .skip hwords hnone htaken, rfl⟩
      · rintro ⟨textures, htaken, rfl⟩
        cases htaken with
        | take htexture hrest =>
            exact ⟨_, textureLine_ok_iff.mpr (Or.inl ⟨_, htexture, rfl⟩), ih.mpr ⟨_, hrest, rfl⟩⟩
        | skip hwords hnone hrest =>
            exact ⟨_, textureLine_ok_iff.mpr (Or.inr ⟨rfl, _, _, hwords, hnone⟩),
              ih.mpr ⟨_, hrest, rfl⟩⟩

theorem count_foldl_take (textures : List (Texture × Str)) (parse : Header) (i : Texture) :
    (textures.foldl Header.take parse).count i =
      parse.count i + (textures.map Prod.fst).count i := by
  induction textures generalizing parse with
  | nil => rfl
  | cons texture rest ih =>
      rw [List.foldl_cons, ih, List.map_cons, List.count_cons, Header.take_count,
        Function.update_apply]
      by_cases hi : i = texture.1
      · simp only [hi, if_true, beq_self_eq_true]
        omega
      · rw [if_neg hi, if_neg (by simpa using Ne.symm hi), Nat.add_zero]

private theorem textures_foldl_of_not_mem {textures : List (Texture × Str)} (parse : Header)
    {i : Texture} (h : i ∉ textures.map Prod.fst) :
    (textures.foldl Header.take parse).textures i = parse.textures i := by
  induction textures generalizing parse with
  | nil => rfl
  | cons texture rest ih =>
      rw [List.map_cons, List.mem_cons, not_or] at h
      rw [List.foldl_cons, ih _ h.2, Header.take_textures, Function.update_of_ne h.1]

theorem textures_foldl_take {textures : List (Texture × Str)}
    (hnodup : (textures.map Prod.fst).Nodup) (parse : Header) {texture : Texture × Str}
    (h : texture ∈ textures) :
    (textures.foldl Header.take parse).textures texture.1 = some texture.2 := by
  induction textures generalizing parse with
  | nil => cases h
  | cons first rest ih =>
      rw [List.map_cons, List.nodup_cons] at hnodup
      rcases List.mem_cons.mp h with rfl | hrest
      · rw [List.foldl_cons, textures_foldl_of_not_mem _ hnodup.1, Header.take_textures,
          Function.update_self]
      · exact ih hnodup.2 _ hrest

theorem validTextures_iff {parse : Header} :
    validTextures parse = .ok () ↔ ∀ i, parse.count i = 1 := by
  unfold validTextures
  constructor
  · intro h i
    split_ifs at h with hbad
    simp only [not_or, not_not] at hbad
    cases i with
    | no => exact hbad.1
    | so => exact hbad.2.1
    | we => exact hbad.2.2.1
    | ea => exact hbad.2.2.2
  · intro h
    rw [if_neg]
    simp [h]

theorem Taken.length_le {lines : List Str} {textures : List (Texture × Str)}
    (h : Taken lines textures) : textures.length ≤ lines.length ∧
      (textures.length = lines.length → List.Forall₂ LenientTexture lines textures) := by
  induction h with
  | nil => exact ⟨Nat.le_refl 0, fun _ => .nil⟩
  | take htexture _ ih =>
      exact ⟨Nat.succ_le_succ ih.1, fun h => .cons htexture (ih.2 (Nat.succ.inj h))⟩
  | skip _ _ _ ih =>
      exact ⟨Nat.le_succ_of_le ih.1, fun h => absurd ih.1 (by simp at h; omega)⟩

theorem Taken.of_forall₂ {lines : List Str} {textures : List (Texture × Str)}
    (h : List.Forall₂ LenientTexture lines textures) : Taken lines textures := by
  induction h with
  | nil => exact .nil
  | cons htexture _ ih => exact .take htexture ih

/-- Four lines are taken exactly if each of them is a texture, and no texture comes twice. -/
theorem textures_taken_iff {lines : List Str} (hfour : lines.length = 4) {next : Header} :
    (actAll textureLine lines {} = .ok next ∧ validTextures next = .ok ()) ↔
      ∃ textures, List.Forall₂ LenientTexture lines textures ∧
        (textures.map Prod.fst).Nodup ∧ next = textures.foldl Header.take {} := by
  have hcounts : ∀ textures : List (Texture × Str),
      (∀ i, (textures.foldl Header.take {}).count i = 1) ↔
        ∀ i, (textures.map Prod.fst).count i = 1 := by
    intro textures
    simp only [count_foldl_take, Nat.zero_add]
  rw [actAll_textures_iff, validTextures_iff]
  constructor
  · rintro ⟨⟨textures, htaken, rfl⟩, hvalid⟩
    rw [hcounts] at hvalid
    have hperm : (textures.map Prod.fst).Perm [.no, .so, .we, .ea] := by
      apply List.perm_iff_count.mpr
      intro i
      rw [hvalid i]
      cases i <;> rfl
    have hlength : textures.length = lines.length := by
      simpa [hfour] using hperm.length_eq
    exact ⟨textures, htaken.length_le.2 hlength, hperm.nodup_iff.mpr (by decide), rfl⟩
  · rintro ⟨textures, hall, hnodup, rfl⟩
    refine ⟨⟨textures, .of_forall₂ hall, rfl⟩, (hcounts textures).mpr fun i => ?_⟩
    have hsub : textures.map Prod.fst ⊆ [.no, .so, .we, .ea] := by
      intro j _
      cases j <;> decide
    have hlength : (textures.map Prod.fst).length = 4 := by
      rw [List.length_map, ← hall.length_eq, hfour]
    have hperm := (List.subperm_of_subset hnodup hsub).perm_of_length_le (by simp [hlength])
    rw [hperm.count_eq]
    cases i <;> rfl

end Textures

section Colors

/-- A ceiling or a floor. -/
inductive Surface where
  | ceiling
  | floor
  deriving DecidableEq, Repr

def Surface.letter : Surface → Char
  | .ceiling => 'C'
  | .floor => 'F'

structure Rgb where
  r : Nat
  g : Nat
  b : Nat
  deriving DecidableEq, Repr

def Rgb.value (rgb : Rgb) : Nat := rgb.r * 2 ^ 16 + rgb.g * 2 ^ 8 + rgb.b

/-- Digits with blanks around them, or nothing but blanks; only the last 32 bits of the
number count. -/
structure LenientComponent (piece : Str) (value : Nat) : Prop where
  digits : ∃ before digits after, (∀ c ∈ digits, c.isDigit = true) ∧
    piece = List.replicate before ' ' ++ digits ++ List.replicate after ' ' ∧
    value = decimal digits % 2 ^ 32
  small : value ≤ 255

/-- Blanks, the letter and another blank; what is behind that is cut at the commas, and
nothing counts where two of them have nothing between them. -/
structure LenientColor (line : Str) (color : Surface × Rgb) : Prop where
  pieces : ∃ body r g b, line.dropWhile (· == ' ') = color.1.letter :: ' ' :: body ∧
    words ',' (' ' :: body) = [r, g, b] ∧ LenientComponent r color.2.r ∧
    LenientComponent g color.2.g ∧ LenientComponent b color.2.b

/-- A colour is stored and counted. -/
def Header.paint (parse : Header) (surface : Surface) (value : Nat) : Header :=
  match surface with
  | .ceiling => { parse with cColor := value, c := parse.c + 1 }
  | .floor => { parse with fColor := value, f := parse.f + 1 }

private theorem decimal_cons (c : Char) (digits : Str) :
    decimal (c :: digits) = 10 ^ digits.length * digitValue c + decimal digits := by
  rw [decimal, Nat.ofDigitChars_cons, Nat.ofDigitChars_eq_ofDigitChars_zero, Nat.mul_zero,
    Nat.zero_add]
  rfl

private theorem atoiDigits_modEq (res : Int) {digits rest : Str}
    (hdigits : ∀ c ∈ digits, c.isDigit = true) (hrest : ∀ c ∈ rest.head?, c.isDigit = false) :
    atoiDigits res (digits ++ rest) ≡
      res * 10 ^ digits.length + decimal digits [ZMOD 2 ^ 32] := by
  induction digits generalizing res with
  | nil =>
      have hstop : atoiDigits res rest = res := by
        cases rest with
        | nil => rfl
        | cons c rest => rw [atoiDigits, if_neg (by simp [hrest c rfl])]
      rw [List.nil_append, hstop]
      simp [decimal]
  | cons c digits ih =>
      obtain ⟨hc, hlater⟩ := List.forall_mem_cons.mp hdigits
      have hwrap : (digitValue c + res * 10 : Int).bmod (2 ^ 64) ≡
          digitValue c + res * 10 [ZMOD 2 ^ 32] :=
        Int.ModEq.of_dvd (by norm_num) (Int.bmod_emod)
      rw [List.cons_append, atoiDigits, if_pos hc]
      calc atoiDigits ((digitValue c + res * 10 : Int).bmod (2 ^ 64)) (digits ++ rest)
          ≡ (digitValue c + res * 10 : Int).bmod (2 ^ 64) * 10 ^ digits.length + decimal digits
              [ZMOD 2 ^ 32] := ih _ hlater
        _ ≡ (digitValue c + res * 10) * 10 ^ digits.length + decimal digits [ZMOD 2 ^ 32] :=
            (hwrap.mul_right _).add_right _
        _ = res * 10 ^ (c :: digits).length + decimal (c :: digits) := by
            rw [decimal_cons, List.length_cons]
            push_cast
            ring

/-- On digits between blanks only the size of an `int` is lost. -/
theorem ftAtoi_digits {digits : Str} (before after : Nat)
    (hdigits : ∀ c ∈ digits, c.isDigit = true) :
    ftAtoi (List.replicate before ' ' ++ digits ++ List.replicate after ' ') =
      (decimal digits : Int).bmod (2 ^ 32) := by
  have hblanks : ∀ n : Nat, ∀ c ∈ List.replicate n ' ', isSpace c = true := by
    intro n c hc
    rw [List.eq_of_mem_replicate hc]
    rfl
  have hbehind : ∀ c ∈ (List.replicate after ' ').head?, c.isDigit = false := by
    intro c hc
    rw [List.eq_of_mem_replicate (List.mem_of_head? hc)]
    rfl
  have hmod := atoiDigits_modEq 0 hdigits hbehind
  rw [zero_mul, zero_add] at hmod
  rw [ftAtoi, List.append_assoc, List.dropWhile_append_of_pos (hblanks before)]
  cases digits with
  | nil =>
      rw [List.nil_append, List.dropWhile_eq_nil_iff.mpr (hblanks after)]
      rfl
  | cons c digits =>
      have hc := hdigits c List.mem_cons_self
      have hdigit := Char.isDigit_iff_toNat.mp hc
      have hspace : isSpace c = false := by
        have hblank : c ≠ ' ' := fun h => absurd (h ▸ hc) (by decide)
        have hzero : '0'.toNat = 48 := rfl
        rw [isSpace, Bool.or_eq_false_iff]
        exact ⟨by simpa using hblank, by simp; omega⟩
      have hminus : c ≠ '-' := fun h => absurd (h ▸ hc) (by decide)
      have hplus : c ≠ '+' := fun h => absurd (h ▸ hc) (by decide)
      rw [List.cons_append, List.dropWhile_cons_of_neg (by simp [hspace])]
      simp only [List.head?_cons, Option.some.injEq, hminus, hplus, or_self, if_false, mul_one]
      rw [← Int.emod_bmod, ← Int.emod_bmod (decimal (c :: digits))]
      exact congrArg (Int.bmod · (2 ^ 32)) (by exact_mod_cast hmod)

private theorem bmod_in_range_iff {n : Nat} :
    ((n : Int).bmod (2 ^ 32) ≥ 0 ∧ (n : Int).bmod (2 ^ 32) ≤ 255) ↔ n % 2 ^ 32 ≤ 255 := by
  rw [Int.bmod]
  norm_num
  split <;> omega

private theorem toNat_bmod {n : Nat} (h : n % 2 ^ 32 ≤ 255) :
    ((n : Int).bmod (2 ^ 32)).toNat = n % 2 ^ 32 := by
  rw [Int.bmod]
  norm_num
  split <;> omega

/-- Digits between blanks. -/
def Spaced (piece : Str) (before : Nat) (digits : Str) (after : Nat) : Prop :=
  (∀ c ∈ digits, c.isDigit = true) ∧
    piece = List.replicate before ' ' ++ digits ++ List.replicate after ' '

private theorem blank_not_mem {digits : Str} (h : ∀ c ∈ digits, c.isDigit = true) :
    ' ' ∉ digits := fun hmem => absurd (h ' ' hmem) (by decide)

theorem validateColor_iff {res : List Str} :
    validateColor res = .ok () ↔ ∀ piece ∈ res, ∃ before digits after,
      Spaced piece before digits after := by
  have hpiece : ∀ piece : Str, ((words ' ' piece).length ≤ 1 ∧
      ∀ c ∈ piece, c.isDigit = true ∨ c = ' ') ↔
      ∃ before digits after, Spaced piece before digits after := by
    intro piece
    constructor
    · rintro ⟨hone, hchars⟩
      obtain ⟨before, digits, after, hblank, rfl⟩ := words_length_le_one_iff.mp hone
      refine ⟨before, digits, after, fun c hc => ?_, rfl⟩
      rcases hchars c (by simp [hc]) with hdigit | rfl
      · exact hdigit
      · exact absurd hc hblank
    · rintro ⟨before, digits, after, hdigits, rfl⟩
      refine ⟨words_length_le_one_iff.mpr ⟨before, digits, after, blank_not_mem hdigits, rfl⟩, ?_⟩
      intro c hc
      simp only [List.mem_append, List.mem_replicate] at hc
      rcases hc with (⟨-, rfl⟩ | hc) | ⟨-, rfl⟩
      · exact Or.inr rfl
      · exact Or.inl (hdigits c hc)
      · exact Or.inr rfl
  have hchars : ∀ piece : Str, (piece.all fun c => c.isDigit || c == ' ') = true ↔
      ∀ c ∈ piece, c.isDigit = true ∨ c = ' ' := by simp
  unfold validateColor checkNumeric
  constructor
  · intro h piece hmem
    split_ifs at h with hmany hnumeric
    simp only [List.any_eq_true, decide_eq_true_eq, not_exists, not_and, not_lt] at hmany
    exact (hpiece piece).mp ⟨hmany piece hmem,
      (hchars piece).mp (List.all_eq_true.mp hnumeric piece hmem)⟩
  · intro h
    have hall : ∀ piece ∈ res, _ := fun piece hmem => (hpiece piece).mpr (h piece hmem)
    rw [if_neg, if_pos]
    · exact List.all_eq_true.mpr fun piece hmem => (hchars piece).mpr (hall piece hmem).2
    · simp only [List.any_eq_true, decide_eq_true_eq, not_exists, not_and, not_lt]
      exact fun piece hmem => (hall piece hmem).1

theorem lenientComponent_iff {piece : Str} {before after : Nat} {digits : Str} {value : Nat}
    (h : Spaced piece before digits after) :
    LenientComponent piece value ↔
      (ftAtoi piece ≥ 0 ∧ ftAtoi piece ≤ 255) ∧ value = (ftAtoi piece).toNat := by
  have hread : ∀ {before digits after}, Spaced piece before digits after →
      ftAtoi piece = (decimal digits : Int).bmod (2 ^ 32) := by
    rintro before digits after ⟨hdigits, rfl⟩
    exact ftAtoi_digits before after hdigits
  constructor
  · rintro ⟨⟨before, digits, after, hdigits, hpiece, rfl⟩, hsmall⟩
    rw [hread ⟨hdigits, hpiece⟩, toNat_bmod hsmall]
    exact ⟨bmod_in_range_iff.mpr hsmall, rfl⟩
  · rintro ⟨hrange, rfl⟩
    rw [hread h] at hrange ⊢
    have hsmall := bmod_in_range_iff.mp hrange
    rw [toNat_bmod hsmall]
    exact ⟨⟨before, digits, after, h.1, h.2, rfl⟩, hsmall⟩

theorem takeColorChar_iff {str : Str} {color : Char} :
    takeColorChar str = .ok color ↔
      ∃ (surface : Surface) (body : Str), str = surface.letter :: ' ' :: body ∧
        color = surface.letter := by
  unfold takeColorChar
  constructor
  · intro h
    split_ifs at h with hbad
    simp only [not_or, not_and_or, not_not] at hbad
    obtain ⟨-, hletter, hblank⟩ := hbad
    rcases str with _ | ⟨c, _ | ⟨next, body⟩⟩
    · simp at hblank
    · simp at hblank
    · obtain rfl : next = ' ' := by simpa using hblank
      obtain rfl : c = color := by simpa using h
      rcases hletter with hc | hc
      · obtain rfl : c = 'C' := by simpa using hc
        exact ⟨.ceiling, body, rfl, rfl⟩
      · obtain rfl : c = 'F' := by simpa using hc
        exact ⟨.floor, body, rfl, rfl⟩
  · rintro ⟨surface, body, rfl, rfl⟩
    rw [if_neg]
    · rfl
    · cases surface <;> simp [Surface.letter]

private theorem shifted_eq {r g b : Nat} (hg : g ≤ 255) (hb : b ≤ 255) :
    r <<< 16 ||| g <<< 8 ||| b = (⟨r, g, b⟩ : Rgb).value := by
  have hlow : g <<< 8 ||| b = g <<< 8 + b :=
    (Nat.shiftLeft_add_eq_or_of_lt (by omega) g).symm
  have hhigh : r <<< 16 ||| (g <<< 8 + b) = r <<< 16 + (g <<< 8 + b) := by
    apply Eq.symm
    apply Nat.shiftLeft_add_eq_or_of_lt
    rw [Nat.shiftLeft_eq]
    omega
  rw [Nat.or_assoc, hlow, hhigh, Rgb.value, Nat.shiftLeft_eq, Nat.shiftLeft_eq, Nat.add_assoc]

theorem createRgb_iff {r g b : Int} {value : Nat} : createRgb r g b = .ok value ↔
    ((r ≥ 0 ∧ r ≤ 255) ∧ (g ≥ 0 ∧ g ≤ 255) ∧ (b ≥ 0 ∧ b ≤ 255)) ∧
      value = (⟨r.toNat, g.toNat, b.toNat⟩ : Rgb).value := by
  unfold createRgb
  constructor
  · intro h
    split_ifs at h with hrange
    refine ⟨hrange, ?_⟩
    rw [← shifted_eq (by omega) (by omega)]
    exact (Except.ok.inj h).symm
  · rintro ⟨hrange, rfl⟩
    rw [if_pos hrange, shifted_eq (by omega) (by omega)]

theorem formatColorHelper_iff {r g b : Str} {surface : Surface} {parse next : Header} :
    formatColorHelper r g b surface.letter parse = .ok next ↔
      validateColor [r, g, b] = .ok () ∧
        ∃ value, createRgb (ftAtoi r) (ftAtoi g) (ftAtoi b) = .ok value ∧
          next = parse.paint surface value := by
  have hrun : formatColorHelper r g b surface.letter parse =
      validateColor [r, g, b] >>= fun _ =>
        (createRgb (ftAtoi r) (ftAtoi g) (ftAtoi b)).map (parse.paint surface) := by
    unfold formatColorHelper
    cases surface <;> rfl
  have hmap : ∀ {x : Except Stop Nat}, x.map (parse.paint surface) = .ok next ↔
      ∃ value, x = .ok value ∧ next = parse.paint surface value := by
    intro x
    cases x with
    | error stop => simp [Except.map]
    | ok value => simp [Except.map, eq_comm]
  simp only [hrun, except_bind_eq_ok, hmap]
  constructor
  · rintro ⟨_, hvalid, hvalue⟩
    exact ⟨hvalid, hvalue⟩
  · exact fun h => ⟨(), h⟩

theorem formatColor_iff {line : Str} {parse next : Header} :
    formatColor (some line) parse = .ok next ↔
      ∃ (surface : Surface) (body r g b : Str),
        line.dropWhile (· == ' ') = surface.letter :: ' ' :: body ∧
        words ',' (' ' :: body) = [r, g, b] ∧
        formatColorHelper r g b surface.letter parse = .ok next := by
  unfold formatColor
  dsimp only
  rw [except_bind_eq_ok]
  constructor
  · rintro ⟨color, hletter, h⟩
    obtain ⟨surface, body, hline, rfl⟩ := takeColorChar_iff.mp hletter
    rw [hline, List.tail_cons] at h
    unfold formatPieces at h
    split at h
    · next r g b hpieces => exact ⟨surface, body, r, g, b, hline, hpieces, h⟩
    · cases h
  · rintro ⟨surface, body, r, g, b, hline, hpieces, hrun⟩
    refine ⟨surface.letter, takeColorChar_iff.mpr ⟨surface, body, hline, rfl⟩, ?_⟩
    rw [hline, List.tail_cons, hpieces]
    exact hrun

/-- A line is refused, or it says what the colour of a surface is. -/
theorem formatColor_ok_iff {line : Str} {parse next : Header} :
    formatColor (some line) parse = .ok next ↔
      ∃ color, LenientColor line color ∧ next = parse.paint color.1 color.2.value := by
  rw [formatColor_iff]
  constructor
  · rintro ⟨surface, body, r, g, b, hline, hpieces, hrun⟩
    obtain ⟨hvalid, value, hrgb, rfl⟩ := formatColorHelper_iff.mp hrun
    obtain ⟨⟨hr, hg, hb⟩, rfl⟩ := createRgb_iff.mp hrgb
    have hspaced := validateColor_iff.mp hvalid
    obtain ⟨_, _, _, hspacedr⟩ := hspaced r (by simp)
    obtain ⟨_, _, _, hspacedg⟩ := hspaced g (by simp)
    obtain ⟨_, _, _, hspacedb⟩ := hspaced b (by simp)
    exact ⟨(surface, ⟨(ftAtoi r).toNat, (ftAtoi g).toNat, (ftAtoi b).toNat⟩),
      ⟨body, r, g, b, hline, hpieces, (lenientComponent_iff hspacedr).mpr ⟨hr, rfl⟩,
        (lenientComponent_iff hspacedg).mpr ⟨hg, rfl⟩,
        (lenientComponent_iff hspacedb).mpr ⟨hb, rfl⟩⟩, rfl⟩
  · rintro ⟨⟨surface, red, green, blue⟩, ⟨body, r, g, b, hline, hpieces, hr, hg, hb⟩, rfl⟩
    refine ⟨surface, body, r, g, b, hline, hpieces, ?_⟩
    have hspaced : ∀ {piece : Str} {value : Nat}, LenientComponent piece value →
        ∃ before digits after, Spaced piece before digits after := by
      rintro piece value ⟨⟨before, digits, after, hdigits, hpiece, -⟩, -⟩
      exact ⟨before, digits, after, hdigits, hpiece⟩
    obtain ⟨_, _, _, hspacedr⟩ := hspaced hr
    obtain ⟨_, _, _, hspacedg⟩ := hspaced hg
    obtain ⟨_, _, _, hspacedb⟩ := hspaced hb
    obtain ⟨hranger, hvaluer⟩ := (lenientComponent_iff hspacedr).mp hr
    obtain ⟨hrangeg, hvalueg⟩ := (lenientComponent_iff hspacedg).mp hg
    obtain ⟨hrangeb, hvalueb⟩ := (lenientComponent_iff hspacedb).mp hb
    apply formatColorHelper_iff.mpr
    refine ⟨validateColor_iff.mpr ?_, _, createRgb_iff.mpr ⟨⟨hranger, hrangeg, hrangeb⟩, rfl⟩, ?_⟩
    · simp only [List.forall_mem_cons]
      exact ⟨⟨_, _, _, hspacedr⟩, ⟨_, _, _, hspacedg⟩, ⟨_, _, _, hspacedb⟩, by simp⟩
    · rw [← hvaluer, ← hvalueg, ← hvalueb]

end Colors

end FortyTwo.Cub3d
