import FortyTwo.Cub3d.Closure
import FortyTwo.Cub3d.HeaderGrammar

/-!
`init_parse` on the lines of a file: `tab_trim`, the header, `trim_map` and the checks of
the map. A run completes or exits, unless the file ends where a colour should be.
-/

namespace FortyTwo.Cub3d

open Foundation

/-- Three blanks take the place of a tab. -/
def assignTab : Str → Str
  | [] => []
  | c :: rest =>
      if c = '\t' ∨ c = '\x0b' then ' ' :: ' ' :: ' ' :: assignTab rest
      else c :: assignTab rest

def tabTrim (map : List Str) : List Str := map.map assignTab

/-- The rows up to the next empty line. -/
def trimMap (map : List Str) (i : Nat) : Except Stop (List Str) := do
  let len ← findStr map i
  return (map.drop len).takeWhile fun line => !isEmptyLine line

/-- `init_parse` behind `parse_file`. -/
def initParse (fuel : Nat) (lines : List Str) : Except Stop (Header × Parse) := do
  let map := tabTrim lines
  let (i, header) ← parseHeader map
  if header.c ≠ 1 ∨ header.f ≠ 1 then .error (.exit "Incorrect amount of colors")
  else
    let rows ← trimMap map i
    let parse ← checkMap fuel rows
    return (header, parse)

/-- A run comes to its end, or leaves through an error path. -/
def Completes {α : Type} (run : Except Stop α) : Prop :=
  (∃ a, run = .ok a) ∨ ∃ text, run = .error (.exit text)

section Completion

variable {α β : Type}

theorem Completes.ok (a : α) : Completes (.ok a : Except Stop α) := Or.inl ⟨a, rfl⟩

theorem Completes.exit (text : String) : Completes (.error (.exit text) : Except Stop α) :=
  Or.inr ⟨text, rfl⟩

theorem Completes.bind {run : Except Stop α} {next : α → Except Stop β} (h : Completes run)
    (hnext : ∀ a, run = .ok a → Completes (next a)) : Completes (run >>= next) := by
  rcases h with ⟨a, rfl⟩ | ⟨text, rfl⟩
  · exact hnext a rfl
  · exact .exit text

theorem Completes.of_bind {run : Except Stop α} {next : α → Except Stop β}
    (h : Completes (run >>= next)) : Completes run := by
  cases run with
  | ok a => exact .ok a
  | error stop =>
      rcases h with ⟨b, hb⟩ | ⟨text, htext⟩
      · cases hb
      · cases htext
        exact .exit text

theorem not_completes_outOfBounds : ¬Completes (.error .outOfBounds : Except Stop α) := by
  rintro (⟨a, h⟩ | ⟨text, h⟩) <;> cases h

theorem textureLine_completes (line : Option Str) (parse : Header) :
    Completes (textureLine line parse) := by
  unfold textureLine
  split
  · next name path _ =>
      unfold takeTexture
      split
      · exact .ok _
      · apply Completes.bind _ fun _ _ => .ok _
        unfold checkExtension
        split
        · exact .exit _
        · exact .ok _
  · exact .exit _

theorem validTextures_completes (parse : Header) : Completes (validTextures parse) := by
  unfold validTextures
  split
  · exact .exit _
  · exact .ok _

theorem createRgb_completes (r g b : Int) : Completes (createRgb r g b) := by
  unfold createRgb
  split
  · exact .ok _
  · exact .exit _

theorem formatColor_completes (line : Str) (parse : Header) :
    Completes (formatColor (some line) parse) := by
  unfold formatColor
  apply Completes.bind
  · unfold takeColorChar
    split
    · exact .exit _
    · exact .ok _
  · intro color _
    unfold formatPieces
    split
    · next r g b _ =>
        unfold formatColorHelper
        apply Completes.bind
        · unfold validateColor checkNumeric
          split
          · exact .exit _
          · split
            · exact .ok _
            · exact .exit _
        · intro _ _
          split
          · exact (createRgb_completes _ _ _).bind fun _ _ => .ok _
          · split
            · exact (createRgb_completes _ _ _).bind fun _ _ => .ok _
            · exact .ok _
    · exact .exit _

theorem actAll_completes {act : Option Str → Header → Except Stop Header}
    (h : ∀ line parse, Completes (act (some line) parse)) (lines : List Str) (parse : Header) :
    Completes (actAll act lines parse) := by
  induction lines generalizing parse with
  | nil => exact .ok parse
  | cons line rest ih =>
      rw [actAll, List.foldlM_cons]
      exact (h line parse).bind fun next _ => ih next

end Completion

section Map

theorem checkMapChars_completes (map : Map) : Completes (checkMapChars map) := by
  unfold checkMapChars checkCount
  split
  · exact .exit _
  · split
    · exact .exit _
    · exact .ok _

theorem initFlood_completes {map : Map} (hchars : checkMapChars map = .ok ()) {fuel : Nat}
    (hfuel : (walkable (findPlayer { map }).map).card < fuel) :
    Completes (initFlood fuel (findPlayer { map })) := by
  unfold initFlood
  cases hsize : getWH (findPlayer { map }).map with
  | error stop =>
      rw [getWH] at hsize
      split_ifs at hsize
      cases hsize
      exact .exit _
  | ok size =>
      rcases fillLoop_cases (sized_findPlayer hchars hsize) hfuel with
        ⟨⟨marked, hmarked⟩, -⟩ | ⟨hstop, -⟩
      · simp only [bind, Except.bind, hmarked]
        exact .ok _
      · simp only [bind, Except.bind, hstop]
        exact .exit _

theorem checkMap_completes {map : Map} {fuel : Nat}
    (hfuel : (walkable (findPlayer { map }).map).card < fuel) : Completes (checkMap fuel map) := by
  unfold checkMap
  split
  · exact .exit _
  · apply (checkMapChars_completes map).bind
    intro _ hchars
    exact (initFlood_completes hchars hfuel).bind fun _ _ => .ok _

theorem exists_trimMap {map : List Str} {i : Nat} {rest : List Str} (h : Before map i rest) :
    ∃ rows, trimMap map i = .ok rows := by
  unfold trimMap findStr
  rw [if_pos h.inside]
  exact ⟨_, rfl⟩

end Map

/-- The textures are taken and the file ends before there are two colours: in front of the
first one, or behind one that is taken. -/
structure Truncated (map : List Str) : Prop where
  four : 4 ≤ (filledLines map).length
  textures : ∃ textures, List.Forall₂ LenientTexture ((filledLines map).take 4) textures ∧
    (textures.map Prod.fst).Nodup
  colors : (filledLines map).drop 4 = [] ∨
    ∃ line color, (filledLines map).drop 4 = [line] ∧ LenientColor line color

section Files

variable {map : List Str}

theorem linesLoop_completes {act : Option Str → Header → Except Stop Header} {i count : Nat}
    {rest : List Str} (h : Before map i rest)
    (hact : ∀ line parse, Completes (act (some line) parse)) (hcount : count ≤ rest.length)
    (parse : Header) : Completes (linesLoop act map count (i, parse)) := by
  obtain ⟨j, -, hrun⟩ := h.linesLoop_run act hcount
  rw [hrun]
  rcases actAll_completes hact (rest.take count) parse with ⟨next, hnext⟩ | ⟨text, htext⟩
  · rw [hnext]
    exact .ok _
  · rw [htext]
    exact .exit _

theorem parseTextures_completes (map : List Str) : Completes (parseTextures map 0 {}) := by
  unfold parseTextures
  apply Completes.bind
  · by_cases hfour : 4 ≤ (filledLines map).length
    · exact linesLoop_completes (Before.start map) (fun _ _ => textureLine_completes _ _) hfour {}
    · rw [(Before.start map).linesLoop_short (fun _ => rfl) (Nat.lt_of_not_le hfour)]
      exact (actAll_completes (fun _ _ => textureLine_completes _ _) _ _).bind fun _ _ => .exit _
  · exact fun next _ => (validTextures_completes next.2).bind fun _ _ => .ok _

/-- Behind the textures only a missing line is not survived. -/
theorem parseColors_completes_iff {i : Nat} {rest : List Str} (h : Before map i rest)
    (parse : Header) : Completes (parseColors map i parse) ↔
      ¬(rest = [] ∨ ∃ line color, rest = [line] ∧ LenientColor line color) := by
  have hshort : rest.length < 2 → parseColors map i parse =
      actAll formatColor rest parse >>= fun _ => .error .outOfBounds :=
    fun hlt => h.linesLoop_short (fun _ => rfl) hlt parse
  rcases rest with _ | ⟨line, _ | ⟨second, rest⟩⟩
  · rw [hshort (by simp)]
    exact iff_of_false not_completes_outOfBounds (by simp)
  · rw [hshort (by simp)]
    have hone : actAll formatColor [line] parse = formatColor (some line) parse := by
      simp [actAll]
    rw [hone]
    rcases formatColor_completes line parse with ⟨next, hnext⟩ | ⟨text, htext⟩
    · obtain ⟨color, hcolor, -⟩ := formatColor_ok_iff.mp hnext
      rw [hnext]
      exact iff_of_false not_completes_outOfBounds
        (not_not_intro (Or.inr ⟨line, color, rfl, hcolor⟩))
    · rw [htext]
      apply iff_of_true (Completes.exit text)
      rintro (hnil | ⟨_, color, ⟨⟩, hcolor⟩)
      · cases hnil
      · rw [formatColor_ok_iff.mpr ⟨color, hcolor, rfl⟩] at htext
        cases htext
  · apply iff_of_true
    · exact linesLoop_completes h formatColor_completes (by simp) parse
    · rintro (hnil | ⟨_, _, hone, -⟩)
      · cases hnil
      · simp at hone

theorem parseHeader_completes_iff (map : List Str) :
    Completes (parseHeader map) ↔ ¬Truncated map := by
  rcases parseTextures_completes map with ⟨⟨j, parse⟩, hfirst⟩ | ⟨text, hfirst⟩
  · have hfour : 4 ≤ (filledLines map).length := by
      by_contra hshort
      exact parseTextures_short (Nat.lt_of_not_le hshort) _ hfirst
    obtain ⟨i, hbefore, htextures⟩ := parseTextures_run hfour
    obtain ⟨textures, hall, honce, heq⟩ := (htextures _).mp hfirst
    obtain ⟨rfl, -⟩ := Prod.mk.inj heq
    have hrun : parseHeader map = parseColors map j parse := by
      rw [parseHeader, hfirst]
      rfl
    rw [hrun, parseColors_completes_iff hbefore parse]
    exact not_congr ⟨fun h => ⟨hfour, ⟨textures, hall, honce⟩, h⟩, Truncated.colors⟩
  · have hrun : parseHeader map = .error (.exit text) := by
      rw [parseHeader, hfirst]
      rfl
    rw [hrun]
    apply iff_of_true (Completes.exit text)
    rintro ⟨hfour, ⟨textures, hall, honce⟩, -⟩
    obtain ⟨j, -, htextures⟩ := parseTextures_run hfour
    rw [(htextures _).mpr ⟨textures, hall, honce, rfl⟩] at hfirst
    cases hfirst

/-- The run comes to its end, with enough fuel for the flood of the map. -/
def ParsesTotally (lines : List Str) : Prop :=
  ∃ enough, ∀ fuel, enough ≤ fuel → Completes (initParse fuel lines)

/-- Four textures, and then nothing. -/
private def cutOff : List Str := ["NO a.xpm", "SO b.xpm", "WE c.xpm", "EA d.xpm"].map String.toList

end Files

end FortyTwo.Cub3d
