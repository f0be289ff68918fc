import FortyTwo.Webserv.ConfigLikeness

/-!
What the scanner makes of a text that is put together from parts: the tokens of
each part, with the columns moved.
-/

namespace FortyTwo.Webserv

open Foundation ConfigParser

/-- The tokens from a state on. -/
def scan (s : ScanState) : List Token := scanFrom s.rest.length s

theorem ScanState.jump_rest (s : ScanState) (rest : Bytes) : (s.jump rest).rest = rest := rfl

/-- What `scanToken` does at the character `c`. -/
inductive CharClass (c : UInt8) : Prop where
  | skipped (h : ∀ s tail, scanToken s c tail = (none, s.jump tail))
  | char (type : TokenType) (htype : charToken c = some type)
      (h : ∀ s tail, scanToken s c tail = (some ⟨type, [c], s.line, s.current⟩, s.jump tail))
  | comment (hc : c = byteOf '#')
      (h : ∀ s tail, scanToken s c tail = (none, s.jump (tail.dropWhile (fun d => d != 10))))
  | line (hc : c = 10)
      (h : ∀ s tail, scanToken s c tail = (none, { s.jump tail with line := s.line + 1 }))
  | identifier (hc : c ≠ 10)
      (h : ∀ s tail, scanToken s c tail =
        (some ⟨identifierType (c :: tail.takeWhile isIdentifierChar),
          c :: tail.takeWhile isIdentifierChar, s.line, s.current⟩,
          s.jump (tail.dropWhile isIdentifierChar)))

theorem charClass (c : UInt8) : CharClass c := by
  by_cases hblank : c = byteOf ' ' ∨ c = 13 ∨ c = 9
  · exact .skipped fun s tail => by rw [scanToken, if_pos hblank]
  · cases htype : charToken c with
    | some type => exact .char type htype fun s tail => by rw [scanToken, if_neg hblank, htype]
    | none =>
        by_cases hcomment : c = byteOf '#'
        · refine .comment hcomment fun s tail => ?_
          rw [scanToken, if_neg hblank, htype]
          exact if_pos hcomment
        · by_cases hline : c = 10
          · refine .line hline fun s tail => ?_
            rw [scanToken, if_neg hblank, htype]
            exact (if_neg hcomment).trans (if_pos hline)
          · by_cases hstart : isIdentifierStart c = true
            · refine .identifier hline fun s tail => ?_
              rw [scanToken, if_neg hblank, htype]
              exact (if_neg hcomment).trans ((if_neg hline).trans (if_pos hstart))
            · refine .skipped fun s tail => ?_
              rw [scanToken, if_neg hblank, htype]
              exact (if_neg hcomment).trans ((if_neg hline).trans (if_neg hstart))

/-- A call of `scanToken` leaves a part of what stands behind its character. -/
theorem scanToken_rest (s : ScanState) (c : UInt8) (tail : Bytes) :
    (scanToken s c tail).2.rest <:+ tail := by
  cases charClass c with
  | skipped h => simp [h, ScanState.jump]
  | char type _ h => simp [h, ScanState.jump]
  | comment _ h => simpa [h, ScanState.jump] using List.dropWhile_suffix _
  | line _ h => simp [h, ScanState.jump]
  | identifier _ h => simpa [h, ScanState.jump] using List.dropWhile_suffix _

private theorem scanFrom_fuel (fuel : Nat) (s : ScanState) (h : s.rest.length ≤ fuel) :
    scanFrom fuel s = scan s := by
  have key : ∀ n fuel (s : ScanState), s.rest.length ≤ n → s.rest.length ≤ fuel →
      scanFrom fuel s = scan s := by
    intro n
    induction n with
    | zero =>
        intro fuel s hn _
        have hnil : s.rest = [] := List.length_eq_zero_iff.mp (by omega)
        cases fuel <;> simp [scan, scanFrom, hnil]
    | succ n ih =>
        intro fuel s hn hfuel
        cases hrest : s.rest with
        | nil => cases fuel <;> simp [scan, scanFrom, hrest]
        | cons c tail =>
            rw [hrest, List.length_cons] at hn hfuel
            obtain ⟨fuel, rfl⟩ : ∃ less, fuel = less + 1 := ⟨fuel - 1, by omega⟩
            have hle := (scanToken_rest s c tail).length_le
            rw [scan, hrest, List.length_cons]
            simp only [scanFrom, hrest]
            rw [ih fuel _ (by omega) (by omega), ih tail.length _ (by omega) hle]
  exact key fuel fuel s h h

theorem scan_nil {s : ScanState} (h : s.rest = []) : scan s = [] := by
  rw [scan, h]
  rfl

theorem scan_cons {s : ScanState} {c : UInt8} {tail : Bytes} (h : s.rest = c :: tail) :
    scan s = (scanToken s c tail).1.toList ++ scan (scanToken s c tail).2 := by
  have hle := (scanToken_rest s c tail).length_le
  rw [scan, h, List.length_cons]
  simp only [scanFrom, h]
  rw [scanFrom_fuel _ _ hle]

/-- Induction along the calls of `scanToken`. -/
theorem scan_induction {P : ScanState → Prop} (hnil : ∀ s, s.rest = [] → P s)
    (hcons : ∀ s c tail, s.rest = c :: tail → P (scanToken s c tail).2 → P s) (s : ScanState) :
    P s := by
  have key : ∀ n (s : ScanState), s.rest.length ≤ n → P s := by
    intro n
    induction n with
    | zero =>
        intro s hn
        exact hnil s (List.length_eq_zero_iff.mp (by omega))
    | succ n ih =>
        intro s hn
        cases hrest : s.rest with
        | nil => exact hnil s hrest
        | cons c tail =>
            rw [hrest, List.length_cons] at hn
            have hle := (scanToken_rest s c tail).length_le
            exact hcons s c tail hrest (ih _ (by omega))
  exact key _ s le_rfl

section Tokens

theorem scanToken_current (s : ScanState) (c : UInt8) (tail : Bytes) :
    (scanToken s c tail).2.current =
      s.current + (s.rest.length - (scanToken s c tail).2.rest.length : Int) := by
  cases charClass c with
  | skipped h => rw [h]; rfl
  | char type _ h => rw [h]; rfl
  | comment _ h => rw [h]; rfl
  | line _ h => rw [h]; rfl
  | identifier _ h => rw [h]; rfl

private theorem charToken_ne {c : UInt8} {type : TokenType} (h : charToken c = some type) :
    type ≠ .endOfFile ∧ type ≠ .identifier ∧ (type = .dot → c = byteOf '.') := by
  unfold charToken at h
  split_ifs at h <;> cases h <;> simp_all

private theorem identifierType_ne (text : Bytes) :
    identifierType text ≠ .endOfFile ∧ identifierType text ≠ .dot := by
  unfold identifierType
  cases h : keywords.lookup text with
  | none => decide
  | some type =>
      have hmem : (text, type) ∈ keywords := by
        obtain ⟨before, after, heq, _⟩ := List.lookup_eq_some_iff.mp h
        rw [heq]
        simp
      have hall : ∀ entry ∈ keywords, entry.2 ≠ .endOfFile ∧ entry.2 ≠ .dot := by decide
      exact hall _ hmem

/-- The token that a call reads. -/
structure TokenRead (s : ScanState) (c : UInt8) (t : Token) (next : ScanState) : Prop where
  column : t.column = s.current
  stop : tokenEnd t = next.current
  type : t.type ≠ .endOfFile
  dot : t.type = .dot → c = byteOf '.'
  longest : t.type = .identifier → ∀ d ∈ next.rest.head?, isIdentifierChar d = false

theorem scanToken_read {s : ScanState} {c : UInt8} {tail : Bytes} {t : Token}
    (hrest : s.rest = c :: tail) (h : (scanToken s c tail).1 = some t) :
    TokenRead s c t (scanToken s c tail).2 := by
  cases charClass c with
  | skipped hcall => simp [hcall] at h
  | comment _ hcall => simp [hcall] at h
  | line _ hcall => simp [hcall] at h
  | char type htype hcall =>
      rw [hcall] at h ⊢
      cases h
      obtain ⟨hend, hidentifier, hdot⟩ := charToken_ne htype
      refine ⟨rfl, ?_, hend, hdot, fun h => absurd h hidentifier⟩
      simp [tokenEnd, ScanState.jump, hrest]
  | identifier _ hcall =>
      rw [hcall] at h ⊢
      cases h
      obtain ⟨hend, hdot⟩ := identifierType_ne (c :: tail.takeWhile isIdentifierChar)
      refine ⟨rfl, ?_, hend, fun h => absurd h hdot, ?_⟩
      · have hlen := congrArg List.length
          (List.takeWhile_append_dropWhile (p := isIdentifierChar) (l := tail))
        rw [List.length_append] at hlen
        simp only [tokenEnd, ScanState.jump, hrest, List.length_cons]
        omega
      · intro _ d hd
        have hnot := List.head?_dropWhile_not isIdentifierChar tail
        rw [ScanState.jump_rest] at hd
        rw [Option.mem_def.mp hd] at hnot
        simpa using hnot

private theorem scanToken_progress {s : ScanState} {c : UInt8} {tail : Bytes}
    (h : s.rest = c :: tail) : s.current < (scanToken s c tail).2.current := by
  have hle := (scanToken_rest s c tail).length_le
  rw [scanToken_current, h, List.length_cons]
  omega

theorem scan_mem {s : ScanState} {t : Token} (ht : t ∈ scan s) :
    s.current ≤ t.column ∧ t.type ≠ .endOfFile := by
  induction s using scan_induction with
  | hnil s h =>
      rw [scan_nil h] at ht
      cases ht
  | hcons s c tail h ih =>
      rw [scan_cons h] at ht
      have hprogress := scanToken_progress h
      rcases List.mem_append.mp ht with hhead | htail
      · have hread := scanToken_read h (Option.mem_toList.mp hhead)
        exact ⟨hread.column.ge, hread.type⟩
      · obtain ⟨hcolumn, htype⟩ := ih htail
        exact ⟨by omega, htype⟩

/-- A dot at the very place where the scanner is. -/
private theorem scan_dot {s : ScanState} {t : Token} (hhead : (scan s).head? = some t)
    (hcolumn : t.column = s.current) (htype : t.type = .dot) :
    s.rest.head? = some (byteOf '.') := by
  cases hrest : s.rest with
  | nil =>
      rw [scan_nil hrest] at hhead
      cases hhead
  | cons c tail =>
      rw [scan_cons hrest] at hhead
      have hprogress := scanToken_progress hrest
      cases htoken : (scanToken s c tail).1 with
      | some u =>
          rw [htoken] at hhead
          cases hhead
          rw [(scanToken_read hrest htoken).dot htype]
          rfl
      | none =>
          rw [htoken] at hhead
          have hmem : t ∈ scan (scanToken s c tail).2 := List.mem_of_head? hhead
          have hle := (scan_mem hmem).1
          omega

theorem scan_separated (s : ScanState) : Separated (scan s ++ [endOfFile]) := by
  induction s using scan_induction with
  | hnil s h =>
      rw [scan_nil h]
      exact List.isChain_singleton _
  | hcons s c tail h ih =>
      rw [scan_cons h]
      cases htoken : (scanToken s c tail).1 with
      | none => exact ih
      | some t =>
          have hread := scanToken_read h htoken
          refine List.isChain_cons.mpr ⟨?_, ih⟩
          intro u hu htype hdot hcolumn
          rw [hread.stop] at hcolumn
          have hhead : (scan (scanToken s c tail).2).head? = some u := by
            cases hscan : scan (scanToken s c tail).2 with
            | nil =>
                rw [hscan] at hu
                cases hu
                cases hdot
            | cons v rest =>
                rw [hscan] at hu
                exact hu
          have hchar := hread.longest htype _ (Option.mem_def.mpr (scan_dot hhead hcolumn hdot))
          revert hchar
          decide

end Tokens

section Moving

/-- The same token, `k` characters further on. -/
def Moved (k : Int) (t t' : Token) : Prop := SameToken t t' ∧ t'.column = t.column + k

theorem scan_moved {k : Int} {s s' : ScanState} (hrest : s'.rest = s.rest)
    (hcurrent : s'.current = s.current + k) : List.Forall₂ (Moved k) (scan s) (scan s') := by
  induction s using scan_induction generalizing s' with
  | hnil s h =>
      rw [scan_nil h, scan_nil (hrest.trans h)]
      exact .nil
  | hcons s c tail h ih =>
      rw [scan_cons h, scan_cons (hrest.trans h)]
      have hnext : (scanToken s' c tail).2.rest = (scanToken s c tail).2.rest := by
        cases charClass c with
        | skipped hcall => rw [hcall, hcall]; rfl
        | char type _ hcall => rw [hcall, hcall]; rfl
        | comment _ hcall => rw [hcall, hcall]; rfl
        | line _ hcall => rw [hcall, hcall]; rfl
        | identifier _ hcall => rw [hcall, hcall]; rfl
      have htokens : List.Forall₂ (Moved k) (scanToken s c tail).1.toList
          (scanToken s' c tail).1.toList := by
        cases charClass c with
        | skipped hcall => rw [hcall, hcall]; exact .nil
        | char type _ hcall => rw [hcall, hcall]; exact .cons ⟨⟨rfl, rfl⟩, hcurrent⟩ .nil
        | comment _ hcall => rw [hcall, hcall]; exact .nil
        | line _ hcall => rw [hcall, hcall]; exact .nil
        | identifier _ hcall => rw [hcall, hcall]; exact .cons ⟨⟨rfl, rfl⟩, hcurrent⟩ .nil
      refine List.rel_append htokens (ih hnext ?_)
      rw [scanToken_current, scanToken_current, hnext, hrest, hcurrent]
      omega

theorem errorCodes_moved {k : Int} {l l' : List Token} (h : List.Forall₂ (Moved k) l l') :
    errorCodes l = errorCodes l' := by
  induction h with
  | nil => rfl
  | @cons t t' l l' ht hl ih =>
      cases hl with
      | nil => rfl
      | @cons u u' l l' hu hl =>
          have hspace : isSpaceBetween t u = isSpaceBetween t' u' := by
            simp only [isSpaceBetween, ht.1.2, ht.2, hu.2]
            congr 1
            apply propext
            omega
          rw [errorCodes, errorCodes, ih, isNumber, isNumber, ht.1.1, ht.1.2, hspace]

theorem moved_alike {k : Int} {l l' : List Token} (h : List.Forall₂ (Moved k) l l')
    (hseparated : Separated l') : AlikeTokens l l' where
  same := h.imp fun _ _ ht => ht.1
  separated := hseparated
  codes := fun n _ _ _ => errorCodes_moved (List.forall₂_drop (n + 1) h)

end Moving

section Parts

/-- The state with more text behind it. -/
def ScanState.extend (s : ScanState) (more : Bytes) : ScanState := { s with rest := s.rest ++ more }

private theorem jump_extend (s : ScanState) (rest more : Bytes) :
    (s.extend more).jump (rest ++ more) = (s.jump rest).extend more := by
  simp only [ScanState.jump, ScanState.extend, List.length_append, ScanState.mk.injEq, true_and,
    and_true]
  omega

theorem dropWhile_extend {p : UInt8 → Bool} {tail more : Bytes}
    (h : (∃ e ∈ tail, p e = false) ∨ ∀ d ∈ more.head?, p d = false) :
    (tail ++ more).dropWhile p = tail.dropWhile p ++ more ∧
      (tail ++ more).takeWhile p = tail.takeWhile p := by
  induction tail with
  | nil =>
      rcases h with ⟨e, he, _⟩ | hmore
      · cases he
      · cases more with
        | nil => exact ⟨rfl, rfl⟩
        | cons d more => simp [hmore d rfl]
  | cons c tail ih =>
      cases hc : p c with
      | false => simp [hc]
      | true =>
          have htail : (∃ e ∈ tail, p e = false) ∨ ∀ d ∈ more.head?, p d = false := by
            rcases h with ⟨e, he, hfalse⟩ | hmore
            · rcases List.mem_cons.mp he with rfl | he
              · rw [hc] at hfalse
                cases hfalse
              · exact Or.inl ⟨e, he, hfalse⟩
            · exact Or.inr hmore
          simpa [hc] using ih htail

/-- A call that does not read into the text behind. -/
private theorem scanToken_extend {s : ScanState} {c : UInt8} {tail more : Bytes}
    (hcomment : c = byteOf '#' → 10 ∈ tail)
    (hidentifier : c ≠ 10 → (∃ e ∈ tail, isIdentifierChar e = false) ∨
      ∀ d ∈ more.head?, isIdentifierChar d = false) :
    scanToken (s.extend more) c (tail ++ more) =
      ((scanToken s c tail).1, (scanToken s c tail).2.extend more) := by
  cases charClass c with
  | skipped h => rw [h, h, jump_extend]
  | char type _ h => rw [h, h, jump_extend]; rfl
  | comment hc h =>
      have hline : ∃ e ∈ tail, (e != 10) = false := ⟨10, hcomment hc, by decide⟩
      rw [h, h, (dropWhile_extend (Or.inl hline)).1, jump_extend]
  | line _ h => rw [h, h, jump_extend]; rfl
  | identifier hc h =>
      obtain ⟨hdrop, htake⟩ := dropWhile_extend (hidentifier hc)
      rw [h, h, hdrop, htake, jump_extend]
      rfl

/-- A text whose scanning does not read into what stands behind it. `P` is what
is kept on the way. -/
theorem scan_extend {more : Bytes} {P : ScanState → Prop}
    (hP : ∀ s c tail, s.rest = c :: tail → P s → P (scanToken s c tail).2 ∧
      (c = byteOf '#' → 10 ∈ tail) ∧
      (c ≠ 10 → (∃ e ∈ tail, isIdentifierChar e = false) ∨
        ∀ d ∈ more.head?, isIdentifierChar d = false))
    (s : ScanState) (hs : P s) :
    ∃ line, scan (s.extend more) = scan s ++ scan ⟨line, s.current + s.rest.length, more⟩ := by
  induction s using scan_induction with
  | hnil s h =>
      refine ⟨s.line, ?_⟩
      rw [scan_nil h, h, List.nil_append]
      congr 1
      simp [ScanState.extend, h]
  | hcons s c tail h ih =>
      obtain ⟨hnext, hcomment, hidentifier⟩ := hP s c tail h hs
      obtain ⟨line, hscan⟩ := ih hnext
      have hrest : (s.extend more).rest = c :: (tail ++ more) := by
        rw [ScanState.extend, h]
        rfl
      refine ⟨line, ?_⟩
      have hcurrent := scanToken_current s c tail
      rw [scan_cons hrest, scan_cons h, scanToken_extend hcomment hidentifier, hscan,
        List.append_assoc]
      congr 4
      omega

theorem getLast?_of_suffix {l tail : Bytes} {c : UInt8} (h : l <:+ tail)
    (hlast : tail.getLast? = some c) : l = [] ∨ l.getLast? = some c := by
  obtain ⟨before, rfl⟩ := h
  rcases List.eq_nil_or_concat l with hnil | ⟨init, d, rfl⟩
  · exact Or.inl hnil
  · rw [List.concat_eq_append, ← List.append_assoc, List.getLast?_concat] at hlast
    rw [List.concat_eq_append, List.getLast?_concat]
    exact Or.inr hlast

/-- Lines are scanned one by one. -/
theorem scan_lines {text : Bytes} (htext : text.getLast? = some 10) (line : Int) (current : Int)
    (more : Bytes) :
    ∃ line', scan ⟨line, current, text ++ more⟩ =
      scan ⟨line, current, text⟩ ++ scan ⟨line', current + text.length, more⟩ := by
  refine scan_extend (P := fun s => s.rest = [] ∨ s.rest.getLast? = some 10) ?_
    ⟨line, current, text⟩ (Or.inr htext)
  intro s c tail hrest hlast
  rw [hrest] at hlast
  rcases hlast with hnil | hlast
  · cases hnil
  cases tail with
  | nil =>
      obtain rfl : c = 10 := by simpa using hlast
      refine ⟨Or.inl (List.suffix_nil.mp (scanToken_rest s 10 [])), ?_, fun h => absurd rfl h⟩
      intro h
      cases h
  | cons d tail =>
      rw [List.getLast?_cons_cons] at hlast
      have hmem : 10 ∈ d :: tail := List.mem_of_getLast? hlast
      exact ⟨getLast?_of_suffix (scanToken_rest s c _) hlast, fun _ => hmem,
        fun _ => Or.inl ⟨10, hmem, by decide⟩⟩

end Parts

end FortyTwo.Webserv
