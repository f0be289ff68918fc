import FortyTwo.Webserv.ConfigPlaces

/-!
The paths of `root` and `location`: how the scanner takes a path to pieces, how
`parsePath` puts it together again, and which paths a configuration can have.
-/

namespace FortyTwo.Webserv

open Foundation TokenParser ConfigParser

section Scanning

variable {line line' current : Int} {c d : UInt8} {word path : Bytes} {type : TokenType}
  {tokens : List Token}

/-- A text that begins a word of the scanner. -/
def isWordStart (c : UInt8) : Bool := isAlnum c || c == byteOf '_'

theorem scans_char (htype : charToken c = some type) :
    Scans line current [c] [⟨type, [c], line, current⟩] line := by
  intro more
  have hblank : ¬(c = byteOf ' ' ∨ c = 13 ∨ c = 9) := by
    rintro (rfl | rfl | rfl) <;> cases htype
  have hrest : (ScanState.mk line current ([c] ++ more)).rest = c :: more := rfl
  rw [scan_cons hrest, scanToken, if_neg hblank, htype]
  simp [ScanState.jump]

theorem scans_space : Scans line current [byteOf ' '] [] line := by
  intro more
  have hrest : (ScanState.mk line current ([byteOf ' '] ++ more)).rest = byteOf ' ' :: more := rfl
  rw [scan_cons hrest, scanToken, if_pos (Or.inl rfl)]
  simp [ScanState.jump]

private theorem takeWhile_stop {p : UInt8 → Bool} (hword : ∀ e ∈ word, p e = true)
    (hstop : p d = false) (more : Bytes) :
    (word ++ d :: more).takeWhile p = word ∧ (word ++ d :: more).dropWhile p = d :: more := by
  rw [List.takeWhile_append_of_pos hword, List.dropWhile_append_of_pos hword]
  simp [hstop]

/-- A word in front of a character that does not go on with it. -/
theorem scans_word (hc : isWordStart c = true) (hword : ∀ e ∈ word, isIdentifierChar e = true)
    (hstop : isIdentifierChar d = false)
    (hd : Scans line (current + (word.length + 1)) [d] tokens line') :
    Scans line current (c :: word ++ [d])
      (⟨identifierType (c :: word), c :: word, line, current⟩ :: tokens) line' := by
  intro more
  have hne : ∀ e, isWordStart e = false → c ≠ e := by
    rintro e he rfl
    rw [hc] at he
    cases he
  have hblank : ¬(c = byteOf ' ' ∨ c = 13 ∨ c = 9) :=
    not_or.mpr ⟨hne _ rfl, not_or.mpr ⟨hne 13 rfl, hne 9 rfl⟩⟩
  have hchar : charToken c = none := by
    rw [charToken, if_neg (hne 123 rfl), if_neg (hne 125 rfl), if_neg (hne _ rfl),
      if_neg (hne _ rfl), if_neg (hne _ rfl), if_neg (hne _ rfl), if_neg (hne _ rfl)]
  have hstart : isIdentifierStart c = true := by
    rw [isWordStart, Bool.or_eq_true] at hc
    rcases hc with h | h <;> simp [isIdentifierStart, h]
  have hrest : (ScanState.mk line current ((c :: word ++ [d]) ++ more)).rest =
      c :: (word ++ d :: more) := by simp
  obtain ⟨htake, hdrop⟩ := takeWhile_stop hword hstop more
  have hcall : scanToken ⟨line, current, (c :: word ++ [d]) ++ more⟩ c (word ++ d :: more) =
      (some ⟨identifierType (c :: word), c :: word, line, current⟩,
        ⟨line, current + (word.length + 1), [d] ++ more⟩) := by
    rw [scanToken, if_neg hblank, hchar]
    simp only
    rw [if_neg (hne _ rfl), if_neg (hne 10 rfl), if_pos hstart, htake, hdrop]
    simp only [ScanState.jump, List.cons_append, List.length_cons, List.length_append,
      List.length_nil, List.nil_append, Prod.mk.injEq, true_and, ScanState.mk.injEq, and_true]
    push_cast
    omega
  rw [scan_cons hrest, hcall, Option.toList_some, List.singleton_append]
  simp only
  rw [hd more, List.cons_append]
  simp only [List.length_append, List.length_cons, List.length_nil]
  push_cast
  congr 4
  omega

end Scanning

section Reading

variable {p l r : List Token} {t u : Token} {temp : Bytes} {parts : List (TokenType × String)}

/-- The types of the tokens of a path. -/
def IsPart (parts : List (TokenType × String)) (type : TokenType) : Prop :=
  ∃ part ∈ parts, part.1 = type

instance (parts : List (TokenType × String)) (type : TokenType) :
    Decidable (IsPart parts type) := inferInstanceAs (Decidable (∃ part ∈ parts, _))

theorem pathRound_part (hparts : ∀ part ∈ parts, part.1 ≠ .endOfFile) (ht : IsPart parts t.type)
    (temp : Bytes) (l : List Token) :
    pathRound temp parts (t :: l) = .ok (.yield (temp ++ t.lexeme), l) := by
  induction parts with
  | nil =>
      obtain ⟨_, hpart, _⟩ := ht
      cases hpart
  | cons part parts ih =>
      have hend := hparts part List.mem_cons_self
      rw [pathRound, bind_of_ok _ (check_cons part.1 t l)]
      by_cases heq : t.type = part.1
      · rw [if_pos (by simp [heq, hend]), bind_of_ok _ (consume_cons hend part.2 l heq)]
        rfl
      · rw [if_neg (by simp [heq])]
        apply ih (fun other hother => hparts other (List.mem_cons_of_mem _ hother))
        obtain ⟨other, hother, hsame⟩ := ht
        rcases List.mem_cons.mp hother with rfl | hother
        · exact absurd hsame.symm heq
        · exact ⟨other, hother, hsame⟩

theorem pathRound_other (ht : ¬IsPart parts t.type) (temp : Bytes) (l : List Token) :
    pathRound temp parts (t :: l) = .ok (.done temp, t :: l) := by
  induction parts with
  | nil => rfl
  | cons part parts ih =>
      have heq : t.type ≠ part.1 := fun h => ht ⟨part, List.mem_cons_self, h.symm⟩
      rw [pathRound, bind_of_ok _ (check_cons part.1 t l), if_neg (by simp [heq])]
      apply ih
      rintro ⟨other, hother, hsame⟩
      exact ht ⟨other, List.mem_cons_of_mem _ hother, hsame⟩

private theorem pathLoop_eq (hp : ∀ t ∈ p, IsPart pathParts t.type)
    (hu : ¬IsPart pathParts u.type) {fuel : Nat} (hfuel : p.length < fuel) (temp : Bytes)
    (r : List Token) :
    loopFrom .outOfFuel (fun temp => pathRound temp pathParts) fuel temp (p ++ u :: r) =
      .ok (temp ++ p.flatMap (·.lexeme), u :: r) := by
  induction p generalizing temp fuel with
  | nil =>
      obtain ⟨fuel, rfl⟩ : ∃ less, fuel = less + 1 := ⟨fuel - 1, by omega⟩
      rw [loopFrom, List.nil_append, bind_of_ok _ (pathRound_other hu temp r), List.flatMap_nil,
        List.append_nil]
      rfl
  | cons t p ih =>
      obtain ⟨fuel, rfl⟩ : ∃ less, fuel = less + 1 := ⟨fuel - 1, by omega⟩
      have hround : pathRound temp pathParts (t :: (p ++ u :: r)) = .ok (_, p ++ u :: r) :=
        pathRound_part (by decide) (hp t List.mem_cons_self) temp _
      rw [List.length_cons] at hfuel
      rw [loopFrom, List.cons_append, bind_of_ok _ hround]
      have hrest := ih (fun t ht => hp t (List.mem_cons_of_mem _ ht)) (by omega : p.length < fuel)
        (temp ++ t.lexeme)
      rw [List.append_assoc] at hrest
      exact hrest

/-- `parsePath` reads the tokens of a path up to one that is none of them. -/
theorem parsePath_eq (hp : ∀ t ∈ p, IsPart pathParts t.type) (hu : ¬IsPart pathParts u.type)
    (r : List Token) : parsePath (p ++ u :: r) = .ok (p.flatMap (·.lexeme), u :: r) := by
  rw [parsePath, ConfigParser.loop, TokenParser.loop]
  exact pathLoop_eq hp hu (by rw [List.length_append]; omega) [] r

end Reading

section Paths

variable {line line' current : Int} {d : UInt8} {path : Bytes} {tokens : List Token}

/-- The characters of a segment. -/
def isSegmentChar (c : UInt8) : Bool :=
  isAlnum c || c == byteOf '_' || c == byteOf '-' || c == byteOf '.'

/-- The characters of a path that are tokens by themselves, in front of its first word. -/
def isMark (c : UInt8) : Bool := c == byteOf '/' || c == byteOf '.' || c == byteOf '-'

/-- The text of a path from its first letter, digit or underscore on. -/
def pathWord (path : Bytes) : Bytes := path.dropWhile isMark

def IsKeyword (text : Bytes) : Prop := text ∈ keywords.map Prod.fst

instance (text : Bytes) : Decidable (IsKeyword text) := inferInstanceAs (Decidable (_ ∈ _))

/-- The tokens of a path: those of its marks, and the rest of it as one identifier. -/
structure PathTokens (path : Bytes) (p : List Token) : Prop where
  text : p.flatMap (·.lexeme) = path
  parts : ∃ marks word, p = marks ++ word ∧ (∀ t ∈ marks, IsPart pathParts t.type) ∧
    if pathWord path = [] then word = []
    else ∃ t, word = [t] ∧ t.type = identifierType (pathWord path)

/-- A character of a path is a token by itself, or begins a word. -/
private theorem pathChar_cases {c : UInt8} (hc : isSegmentChar c = true ∨ c = byteOf '/') :
    isIdentifierChar c = true ∧
      ((isMark c = true ∧ ∃ type, charToken c = some type ∧ IsPart pathParts type) ∨
        isMark c = false ∧ isWordStart c = true) := by
  simp only [isSegmentChar, Bool.or_eq_true, beq_iff_eq] at hc
  rcases hc with (((halnum | rfl) | rfl) | rfl) | rfl
  · have hne : ∀ e, isAlnum e = false → (c == e) = false := by
      intro e he
      apply beq_eq_false_iff_ne.mpr
      rintro rfl
      rw [halnum] at he
      cases he
    refine ⟨by simp [isIdentifierChar, halnum], Or.inr ⟨?_, by simp [isWordStart, halnum]⟩⟩
    rw [isMark, hne _ rfl, hne _ rfl, hne _ rfl]
    rfl
  · exact ⟨by decide, Or.inr (by decide)⟩
  · exact ⟨by decide, Or.inl ⟨by decide, .minus, by decide, by decide⟩⟩
  · exact ⟨by decide, Or.inl ⟨by decide, .dot, by decide, by decide⟩⟩
  · exact ⟨by decide, Or.inl ⟨by decide, .slash, by decide, by decide⟩⟩

/-- How the scanner takes a path to pieces, in front of a character that ends it. -/
theorem scans_path (hpath : ∀ c ∈ path, isSegmentChar c = true ∨ c = byteOf '/')
    (hstop : isIdentifierChar d = false)
    (hd : Scans line (current + path.length) [d] tokens line') :
    ∃ p, Scans line current (path ++ [d]) (p ++ tokens) line' ∧ PathTokens path p := by
  induction path generalizing current with
  | nil => exact ⟨[], by simpa using hd, rfl, [], [], rfl, nofun, rfl⟩
  | cons c path ih =>
      obtain ⟨hc, hrest⟩ := List.forall_mem_cons.mp hpath
      obtain ⟨_, ⟨hmark, type, htype, hpart⟩ | ⟨hmark, hstart⟩⟩ := pathChar_cases hc
      · have hbehind : Scans line (current + 1 + path.length) [d] tokens line' := by
          rw [List.length_cons] at hd
          push_cast at hd
          rwa [Int.add_assoc, Int.add_comm 1]
        obtain ⟨p, hp, htext, marks, word, rfl, hmarks, hword⟩ := ih hrest hbehind
        have hpathWord : pathWord (c :: path) = pathWord path := by
          rw [pathWord, List.dropWhile_cons, if_pos hmark]
          rfl
        refine ⟨⟨type, [c], line, current⟩ :: (marks ++ word), ?_, ?_, ?_⟩
        · exact (scans_char htype).append (by simpa using hp)
        · rw [List.flatMap_cons, htext]
          rfl
        · refine ⟨⟨type, [c], line, current⟩ :: marks, word, rfl,
            List.forall_mem_cons.mpr ⟨hpart, hmarks⟩, ?_⟩
          rwa [hpathWord]
      · have hword : ∀ e ∈ path, isIdentifierChar e = true :=
          fun e he => (pathChar_cases (hrest e he)).1
        have hpathWord : pathWord (c :: path) = c :: path := by
          rw [pathWord, List.dropWhile_cons, if_neg (by simp [hmark])]
        refine ⟨[⟨identifierType (c :: path), c :: path, line, current⟩],
          scans_word hstart hword hstop hd, by simp, [], _, rfl, nofun, ?_⟩
        rw [hpathWord, if_neg (List.cons_ne_nil _ _)]
        exact ⟨_, rfl, rfl⟩

end Paths

section Directives

variable {path : Bytes} {p l r : List Token} {t u : Token} {location location' : Location}

/-- The rest of the path is no keyword, so its tokens are those of paths. -/
theorem PathTokens.isPart (h : PathTokens path p) (hword : ¬IsKeyword (pathWord path)) :
    ∀ t ∈ p, IsPart pathParts t.type := by
  obtain ⟨marks, word, rfl, hmarks, hrest⟩ := h.parts
  refine List.forall_mem_append.mpr ⟨hmarks, ?_⟩
  split at hrest
  · rw [hrest]
    nofun
  · obtain ⟨t, rfl, ht⟩ := hrest
    have hnone : keywords.lookup (pathWord path) = none := by
      rw [List.lookup_eq_none_iff]
      intro entry hentry
      by_contra hmatch
      have heq : pathWord path = entry.1 := by simpa using hmatch
      exact hword (heq.symm ▸ List.mem_map_of_mem hentry)
    rw [identifierType, hnone] at ht
    refine List.forall_mem_singleton.mpr ?_
    rw [ht]
    decide

theorem statement_path (h : PathTokens path p) (hword : ¬IsKeyword (pathWord path))
    (ht : t.type = .semicolon) (r : List Token) :
    statement endOfStatement parsePath (p ++ t :: r) = .ok (path, r) := by
  have hother : ¬IsPart pathParts t.type := by
    rw [ht]
    decide
  rw [statement, bind_of_ok _ (parsePath_eq (h.isPart hword) hother r),
    bind_of_ok _ (consume_cons (by decide) _ r ht), h.text]
  rfl

/-- A keyword in the place of the rest of a path ends the path. -/
theorem not_statement_path (h : PathTokens path p) (hword : IsKeyword (pathWord path))
    (x : Bytes) (l r : List Token) : statement endOfStatement parsePath (p ++ l) ≠ .ok (x, r) := by
  obtain ⟨marks, word, rfl, hmarks, hrest⟩ := h.parts
  obtain ⟨entry, hentry, hsame⟩ := List.mem_map.mp hword
  have hne : pathWord path ≠ [] := by
    intro hnil
    have hall : ∀ entry ∈ keywords, entry.1 ≠ [] := by decide +kernel
    exact hall entry hentry (hsame.trans hnil)
  rw [if_neg hne] at hrest
  obtain ⟨t, rfl, ht⟩ := hrest
  have htype : ¬IsPart pathParts t.type ∧ t.type ≠ .semicolon := by
    have hall : ∀ entry ∈ keywords, ¬IsPart pathParts (identifierType entry.1) ∧
        identifierType entry.1 ≠ .semicolon := by decide +kernel
    rw [ht, ← hsame]
    exact hall entry hentry
  intro hrun
  rw [statement, List.append_assoc, List.singleton_append,
    bind_of_ok _ (parsePath_eq hmarks htype.1 l)] at hrun
  obtain ⟨u, m, hconsume, _⟩ := bind_ok_iff.mp hrun
  obtain ⟨hcons, hu⟩ := consume_ok hconsume
  obtain ⟨rfl, _⟩ := List.cons.inj hcons
  exact htype.2 hu

theorem commonDirective_root (ht : t.type = .root) (common : CommonConfig) (l : List Token) :
    commonDirective common (t :: l) =
      (statement endOfStatement parsePath >>= fun root =>
        pure (some { common with root := root })) l := by
  rw [commonDirective, bind_of_ok _ (tokenMatch_cons (by decide) t l), ht]
  rfl

theorem serverRound_root (ht : t.type = .root) (temp : Config) (l : List Token) :
    serverRound temp (t :: l) =
      (statement endOfStatement parsePath >>= fun root =>
        pure (.yield { temp with common := { temp.common with root := root } })) l := by
  rw [serverRound, bind_of_ok _ (check_cons .rightBrace t l), if_neg (by rw [ht]; decide),
    bind_of_ok _ (tokenIsAtEnd_cons t l), if_neg (by rw [ht]; decide), serverDirective, bind_assoc,
    bind_congr_at _ (commonDirective_root ht temp.common l)]
  simp only [bind_assoc, pure_bind]

theorem locationRound_root (ht : t.type = .root) (location : Location) (l : List Token) :
    locationRound location (t :: l) =
      (statement endOfStatement parsePath >>= fun root =>
        pure (.yield { location with common := { location.common with root := root } })) l := by
  rw [locationRound, bind_of_ok _ (check_cons .rightBrace t l), if_neg (by rw [ht]; decide),
    bind_congr_at _ (commonDirective_root ht location.common l)]
  simp only [bind_assoc, pure_bind]

end Directives

section Storing

variable {path : Bytes} {p b c d l r : List Token} {t u v : Token} {place : DirectivePlace}
  {location location' : Location} {configs : List Config} {temp : Config}

theorem Stands.root (h : Stands c place) (hp : PathTokens path p)
    (hword : ¬IsKeyword (pathWord path)) (ht : t.type = .root) (hu : u.type = .semicolon) :
    Stands (c ++ (t :: p ++ [u])) (place.setRoot path) := by
  have hstatement := statement_path hp hword hu
  cases place with
  | server configs temp =>
      apply h.directive (Or.inl hu)
      intro r
      rw [List.cons_append, serverRound_root ht, bind_of_ok _ (hstatement r)]
      rfl
  | location configs temp current =>
      cases h with
      | @location c q b v w other _ _ _ hbefore hv hpath hne hw hoptions =>
          have hround : ∀ r, locationRound current ((t :: p) ++ u :: r) =
              .ok (.yield { current with common := { current.common with root := path } }, r) := by
            intro r
            rw [List.cons_append, locationRound_root ht, bind_of_ok _ (hstatement r)]
            rfl
          simpa [DirectivePlace.setRoot] using
            hbefore.location hv hpath hne hw (hoptions.snoc (Or.inl hu) hround)

/-- The directives of a location do not look at its path. -/
theorem locationRound_path (path : Bytes) (x : Location) :
    Tracks (StepTracks (fun x y => y = { x with path := path })
      (fun x y => y = { x with path := path })) (locationRound x)
      (locationRound { x with path := path }) := by
  refine Tracks.bind_bool _ (Tracks.pure rfl) ?_
  apply Tracks.bind_same _
  intro common
  cases common with
  | some common => exact Tracks.pure rfl
  | none =>
      refine Tracks.bind_bool _ ?_ (Tracks.bind_bool _ ?_ (Tracks.bind_bool _ ?_
        (Tracks.bind_same _ fun token => Tracks.throw _)))
      · exact Tracks.bind_same _ fun option => Tracks.pure rfl
      · exact Tracks.bind_same _ fun threshold => Tracks.pure rfl
      · exact Tracks.bind_same _ fun size => Tracks.pure rfl

theorem Options.withPath (h : Options location b location') (path : Bytes) :
    Options { location with path := path } b { location' with path := path } := by
  induction h with
  | nil location => exact .nil _
  | @cons location location' location'' d c t ht hround hrest ih =>
      refine .cons ht (fun r => ?_) ih
      obtain ⟨step, hstep, hsame⟩ := locationRound_path path location _ _ _ (hround r)
      cases step with
      | done s => exact hsame.elim
      | yield s => rw [hstep, hsame]

private theorem Options.loop (h : Options location b location') (hu : u.type = .rightBrace)
    {fuel : Nat} (hfuel : b.length < fuel) (r : List Token) :
    loopFrom .outOfFuel locationRound fuel location (b ++ u :: r) = .ok (location', u :: r) := by
  induction h generalizing fuel with
  | nil location =>
      obtain ⟨fuel, rfl⟩ : ∃ less, fuel = less + 1 := ⟨fuel - 1, by omega⟩
      have hround : locationRound location (u :: r) = .ok (.done location, u :: r) := by
        rw [locationRound, bind_of_ok _ (check_cons .rightBrace u r), if_pos (by rw [hu]; rfl)]
        rfl
      rw [loopFrom, List.nil_append, bind_of_ok _ hround]
      rfl
  | @cons location location' location'' d c t ht hround hrest ih =>
      obtain ⟨fuel, rfl⟩ : ∃ less, fuel = less + 1 := ⟨fuel - 1, by omega⟩
      rw [List.length_append, List.length_cons] at hfuel
      rw [loopFrom, List.append_assoc, List.cons_append, bind_of_ok _ (hround (c ++ u :: r))]
      exact ih (by omega)

theorem locationRest_eq (h : Options location b location') (hu : u.type = .rightBrace)
    (r : List Token) : locationRest location (b ++ u :: r) = .ok (location', r) := by
  have hloop : ConfigParser.loop locationRound location (b ++ u :: r) = .ok (location', u :: r) :=
    h.loop hu (by rw [List.length_append]; omega) r
  rw [locationRest, bind_of_ok _ hloop, bind_of_ok _ (consume_cons (by decide) _ r hu)]
  rfl

theorem Stands.location_block (h : Stands c (.server configs temp)) (hp : PathTokens path p)
    (hword : ¬IsKeyword (pathWord path)) (hne : path ≠ [])
    (hb : Options (newLocation temp.common []) b location) (ht : t.type = .location)
    (hu : u.type = .leftBrace) (hv : v.type = .rightBrace) :
    Stands (c ++ (t :: p ++ u :: b ++ [v]))
      (.server configs { temp with location := temp.location ++ [{ location with path := path }] }) := by
  apply h.directive (Or.inr hv)
  intro r
  have hother : ¬IsPart pathParts u.type := by
    rw [hu]
    decide
  have hpath : parsePath (p ++ u :: (b ++ v :: r)) = .ok (path, u :: (b ++ v :: r)) := by
    rw [parsePath_eq (hp.isPart hword) hother, hp.text]
  have hrest := parseLocation_rest hpath hne hu temp.common
  have hbody : locationRest (newLocation temp.common path) (b ++ v :: r) = .ok (_, r) :=
    locationRest_eq (hb.withPath path) hv r
  rw [hbody] at hrest
  rw [List.append_assoc, List.cons_append, serverRound_location ht, List.cons_append,
    bind_of_ok _ hrest]
  rfl

end Storing

section Claims

variable {path : Bytes} {line current : Int} {common : CommonConfig} {body : Bytes}
  {location : Location}

/-- `root <path>;` -/
def rootDirective (path : Bytes) : Bytes := bytes "root " ++ path ++ bytes ";"

/-- `location <path> {...}` -/
def locationDirective (path body : Bytes) : Bytes :=
  bytes "location " ++ path ++ bytes " \x7b" ++ body ++ bytes "\x7d"

/-- The text is made of directives of a location, which make `location` of a new one,
wherever the text stands. -/
def IsBody (common : CommonConfig) (body : Bytes) (location : Location) : Prop :=
  ∀ line current, ∃ tokens line', Scans line current body tokens line' ∧
    Options (newLocation common []) tokens location

private theorem scans_root (line current : Int) :
    Scans line current (bytes "root ") [⟨.root, bytes "root", line, current⟩] line := by
  have hword : Scans line current (byteOf 'r' :: bytes "oot" ++ [byteOf ' ']) [_] line :=
    scans_word (by decide) (by decide +kernel) (by decide) scans_space
  exact hword

private theorem scans_location (line current : Int) :
    Scans line current (bytes "location ") [⟨.location, bytes "location", line, current⟩] line := by
  have hword : Scans line current (byteOf 'l' :: bytes "ocation" ++ [byteOf ' ']) [_] line :=
    scans_word (by decide) (by decide +kernel) (by decide) scans_space
  exact hword

theorem scans_rootDirective (hpath : ∀ c ∈ path, isSegmentChar c = true ∨ c = byteOf '/')
    (line current : Int) :
    ∃ t p u, Scans line current (rootDirective path) (t :: p ++ [u]) line ∧ t.type = .root ∧
      u.type = .semicolon ∧ PathTokens path p := by
  have hend : ∀ column : Int, Scans line column [byteOf ';']
      [⟨.semicolon, [byteOf ';'], line, column⟩] line := fun column => scans_char rfl
  obtain ⟨p, hscans, hp⟩ := scans_path hpath (by decide) (hend _)
  have hall := (scans_root line current).append hscans
  have htext : rootDirective path = bytes "root " ++ (path ++ [byteOf ';']) :=
    List.append_assoc _ _ _
  rw [← htext] at hall
  exact ⟨_, p, _, hall, rfl, rfl, hp⟩

theorem scans_locationDirective (hpath : ∀ c ∈ path, isSegmentChar c = true ∨ c = byteOf '/')
    (hbody : IsBody common body location) (line current : Int) :
    ∃ t p u b v line', Scans line current (locationDirective path body)
        (t :: p ++ u :: b ++ [v]) line' ∧ t.type = .location ∧ u.type = .leftBrace ∧
      v.type = .rightBrace ∧ PathTokens path p ∧ Options (newLocation common []) b location := by
  have hopen : ∀ column : Int, Scans line column [123] [⟨.leftBrace, [123], line, column⟩] line :=
    fun column => scans_char rfl
  have hclose : ∀ line column : Int,
      Scans line column [125] [⟨.rightBrace, [125], line, column⟩] line :=
    fun line column => scans_char rfl
  obtain ⟨p, hscans, hp⟩ := scans_path (d := byteOf ' ') hpath (by decide) scans_space
  have hfront := ((scans_location line current).append hscans).append (hopen _)
  obtain ⟨b, line', hinner, hb⟩ := hbody line
    (current + (bytes "location " ++ (path ++ [byteOf ' ']) ++ [123]).length)
  have hall := (hfront.append hinner).append (hclose line' _)
  have htext : locationDirective path body =
      bytes "location " ++ (path ++ [byteOf ' ']) ++ [123] ++ body ++ [125] := by
    rw [locationDirective, show bytes " \x7b" = [byteOf ' '] ++ [123] from rfl]
    simp only [List.append_assoc]
    rfl
  have htokens : ∀ t u v : Token,
      [t] ++ (p ++ []) ++ [u] ++ b ++ [v] = t :: p ++ u :: b ++ [v] := by simp
  rw [← htext, htokens] at hall
  exact ⟨_, p, _, b, _, line', hall, rfl, rfl, rfl, hp, hb⟩

/-- Where the directive can stand in a file that is accepted, it is accepted too, and the
root of its block is the path; it is the one of the file unless another directive of the
block sets it. -/
def StoresRoot (path : Bytes) : Prop :=
  ∀ before after place all, StandsAt before place → parse (before ++ after) = .ok all →
    StandsAt (before ++ rootDirective path) (place.setRoot path) ∧
      ∃ all', parse (before ++ rootDirective path ++ after) = .ok all' ∧
        place.Rerooted path all all'

/-- Where the location can stand in a file that is accepted, it is accepted too, and the
file has it in its place, under the path. -/
def StoresLocation (path : Bytes) : Prop :=
  ∀ before after configs temp body location all, StandsAt before (.server configs temp) →
    IsBody temp.common body location → parse (before ++ after) = .ok all →
    ∃ server rest more, all = configs ++ server :: rest ∧
      server.location = temp.location ++ more ∧
      parse (before ++ locationDirective path body ++ after) = .ok (configs ++
        { server with
          location := temp.location ++ { location with path := path } :: more } :: rest)

theorem storesRoot (hpath : ∀ c ∈ path, isSegmentChar c = true ∨ c = byteOf '/')
    (hword : ¬IsKeyword (pathWord path)) : StoresRoot path := by
  rintro before after place all ⟨tokens, line, hbefore, hplace⟩ hparse
  obtain ⟨t, p, u, hscans, ht, hu, hp⟩ := scans_rootDirective hpath line before.length
  have hplace' := hplace.root hp hword ht hu
  refine ⟨⟨_, line, hbefore.append (by simpa using hscans), hplace'⟩, ?_⟩
  refine parse_insert hbefore hplace hscans hplace' ?_ ?_ hparse fun l h => h.setRoot path
  · rw [rootDirective, List.getLast?_append_of_ne_nil _ (by decide)]
    decide
  · simp [rootDirective, bytes]

theorem storesLocation (hpath : ∀ c ∈ path, isSegmentChar c = true ∨ c = byteOf '/')
    (hne : path ≠ []) (hword : ¬IsKeyword (pathWord path)) : StoresLocation path := by
  rintro before after configs temp body location all ⟨tokens, line, hbefore, hplace⟩ hbody hparse
  obtain ⟨t, p, u, b, v, line', hscans, ht, hu, hv, hp, hb⟩ :=
    scans_locationDirective hpath hbody line before.length
  have hplace' := hplace.location_block hp hword hne hb ht hu hv
  have hinserted : ∀ l, (DirectivePlace.server configs temp).Accepts l all →
      ∃ all', (DirectivePlace.server configs { temp with
          location := temp.location ++ [{ location with path := path }] }).Accepts l all' ∧
        ∃ server rest more, all = configs ++ server :: rest ∧
          server.location = temp.location ++ more ∧ all' = configs ++ { server with
            location := temp.location ++ { location with path := path } :: more } :: rest := by
    rintro l ⟨server, rest, haccepts, rfl⟩
    have halike : ConfigAlike [] [] temp.location
        (temp.location ++ [{ location with path := path }]) temp
        { temp with location := temp.location ++ [{ location with path := path }] } :=
      ⟨temp.common, [], (List.append_nil _).symm, by rw [List.append_nil], Or.inl rfl⟩
    obtain ⟨server', hserver', common, more, hmore, rfl, hcommon⟩ := haccepts.of_alike halike
    rw [hcommon.eq, List.append_assoc] at hserver'
    exact ⟨_, ⟨_, rest, hserver', rfl⟩, server, rest, more, rfl, hmore, rfl⟩
  have hend : (locationDirective path body).getLast? ≠ some 10 := by
    rw [locationDirective, List.getLast?_append_of_ne_nil _ (by decide)]
    decide
  have hdirective : locationDirective path body ≠ [] := by simp [locationDirective, bytes]
  obtain ⟨_, hstored, server, rest, more, hall, hmore, rfl⟩ :=
    parse_insert hbefore hplace hscans hplace' hend hdirective hparse hinserted
  exact ⟨server, rest, more, hall, hmore, hstored⟩

/-- The place behind the brace of the first server. -/
private theorem stands_server :
    StandsAt (bytes "server\x7b") (.server [] (fillDefaultValues {})) := by
  have hopen : Scans 1 6 [123] [⟨.leftBrace, [123], 1, 6⟩] 1 := scans_char rfl
  have hword : Scans 1 0 (byteOf 's' :: bytes "erver" ++ [123]) [_, _] 1 :=
    scans_word (by decide) (by decide +kernel) (by decide) hopen
  refine ⟨_, 1, hword, ?_⟩
  exact Stands.server (c := []) (fun r => .nil _ r) rfl rfl

/-- Behind a keyword in the place of the rest of a path, no semicolon is found. -/
theorem not_storesRoot (hpath : ∀ c ∈ path, isSegmentChar c = true ∨ c = byteOf '/')
    (hword : IsKeyword (pathWord path)) : ¬StoresRoot path := by
  intro hstores
  have hplain : parse (bytes "server\x7b" ++ bytes "listen 80;server_name a;\x7d") =
      .ok [{ serverName := [bytes "a"], listen := [⟨bytes "0.0.0.0", 80⟩] }] := by
    decide +kernel
  obtain ⟨_, configs, hparse, _⟩ := hstores _ _ _ _ stands_server hplain
  obtain ⟨tokens, line, hbefore, hplace⟩ := stands_server
  obtain ⟨t, p, u, hscans, ht, _, hp⟩ :=
    scans_rootDirective hpath line (0 + (bytes "server\x7b").length)
  obtain ⟨_, _, temp, hblocks⟩ := parse_eq_ok_iff.mp hparse
  have hscan := (hbefore.append hscans) (bytes "listen 80;server_name a;\x7d" ++ [10])
  generalize scan ⟨line, _, _⟩ = l at hscan
  have htokens : scanTokens (bytes "server\x7b" ++ rootDirective path ++
      bytes "listen 80;server_name a;\x7d" ++ [10]) =
      tokens ++ (t :: (p ++ ([u] ++ (l ++ [endOfFile])))) := by
    rw [scanTokens, scanText_eq, List.append_assoc _ _ [10], hscan]
    simp
  have hscanned := ConfigTokens.scanned_scanTokens (bytes "server\x7b" ++ rootDirective path ++
      bytes "listen 80;server_name a;\x7d" ++ [10])
  rw [htokens] at hblocks hscanned
  obtain ⟨x, _, ⟨m, hrest, _⟩, _⟩ :=
    (hplace.accepts_iff hscanned (List.cons_ne_nil _ _)).mp ⟨_, hblocks⟩
  obtain ⟨after, m', hloop, _⟩ := bind_ok_iff.mp hrest
  obtain ⟨step, n, hround, _⟩ := bind_ok_iff.mp hloop
  rw [serverRound_root ht] at hround
  obtain ⟨root, n', hstatement, _⟩ := bind_ok_iff.mp hround
  exact not_statement_path hp hword root _ n' hstatement

/-- Segments, each with a slash in front of it; only the last may be empty. -/
structure ConfigPath where
  segments : List Bytes
  segments_ne : segments ≠ []
  segment_ne : ∀ s ∈ segments.dropLast, s ≠ []
  chars : ∀ s ∈ segments, ∀ c ∈ s, isSegmentChar c = true

namespace ConfigPath

def text (path : ConfigPath) : Bytes := path.segments.flatMap fun s => byteOf '/' :: s

variable (path : ConfigPath)

theorem text_ne : path.text ≠ [] := by
  obtain ⟨s, rest, hcons⟩ := List.exists_cons_of_ne_nil path.segments_ne
  rw [text, hcons, List.flatMap_cons, List.cons_append]
  exact List.cons_ne_nil _ _

theorem text_chars : ∀ c ∈ path.text, isSegmentChar c = true ∨ c = byteOf '/' := by
  intro c hc
  obtain ⟨s, hs, hmem⟩ := List.mem_flatMap.mp hc
  rcases List.mem_cons.mp hmem with hslash | hmem
  · exact Or.inr hslash
  · exact Or.inl (path.chars s hs c hmem)

end ConfigPath

/-- Both directives take the path, wherever a directive can stand. -/
def Stores (path : Bytes) : Prop := StoresRoot path ∧ StoresLocation path

private def indexPath : ConfigPath where
  segments := [bytes "index"]
  segments_ne := by decide
  segment_ne := by decide
  chars := by decide +kernel

end Claims

end FortyTwo.Webserv
