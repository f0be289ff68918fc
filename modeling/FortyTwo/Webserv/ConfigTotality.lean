import FortyTwo.Webserv.ConfigSource
import FortyTwo.Webserv.ConfigWritten

/-!
The parser of the configuration file comes to an end, for every text whose offsets an
`int` holds: its loops pass a token in every round or throw, and no index leaves the
source or the tokens.
-/

namespace FortyTwo.Webserv

open Foundation IndexParser ConfigParser

namespace ConfigTokens

section Tokens

/-- A token is not empty, and stands in what is left of the source. -/
theorem scan_bounds {s : ScanState} {token : Token} (h : token ∈ scan s) :
    token.lexeme ≠ [] ∧ token.column < s.current + s.rest.length := by
  induction s using scan_induction with
  | hnil s hs =>
      rw [scan_nil hs] at h
      cases h
  | hcons s c tail hs ih =>
      have hle := (scanToken_rest s c tail).length_le
      have hcurrent := scanToken_current s c tail
      rw [hs, List.length_cons] at hcurrent
      rw [scan_cons hs] at h
      rw [hs, List.length_cons]
      rcases List.mem_append.mp h with hhead | htail
      · have hread := scanToken_read hs (Option.mem_toList.mp hhead)
        have hcolumn := hread.column
        have hstop := hread.stop
        rw [tokenEnd] at hstop
        refine ⟨?_, by omega⟩
        intro hnil
        rw [hnil, List.length_nil] at hstop
        push_cast at hcurrent
        omega
      · obtain ⟨hlexeme, hlt⟩ := ih htail
        exact ⟨hlexeme, by omega⟩

/-- Tokens of a source with `END_OF_FILE` behind them. -/
theorem scanned_concat {c : List Token} (h : ∀ t ∈ c, t.type ≠ .endOfFile ∧ t.lexeme ≠ []) :
    Scanned (c ++ [endOfFile]) := by
  refine ⟨⟨_, _, rfl, rfl⟩, ?_, ?_⟩
  · intro i token htoken htype
    have hlt : i < (c ++ [endOfFile]).length := (List.getElem?_eq_some_iff.mp htoken).1
    have hlength : (c ++ [endOfFile]).length = c.length + 1 := List.length_append
    by_contra hlast
    have hi : i = c.length := by omega
    rw [hi, List.getElem?_concat_length] at htoken
    cases htoken
    exact htype rfl
  · intro token htoken htype
    rcases List.mem_append.mp htoken with htext | hend
    · exact (h token htext).2
    · rw [List.mem_singleton.mp hend] at htype
      exact absurd rfl htype

theorem scan_token {s : ScanState} {token : Token} (h : token ∈ scan s) :
    token.type ≠ .endOfFile ∧ token.lexeme ≠ [] :=
  ⟨(scan_mem h).2, (scan_bounds h).1⟩

theorem scanned_scanTokens (source : Bytes) : Scanned (scanTokens source) :=
  scanned_concat fun _ => scan_token (s := ⟨1, 0, source⟩)

end Tokens

section Total

/-- A parser that is written like `parseConfig` over the token functions. -/
abbrev IsParseConfig (run : Parser (Config × List Config)) : Prop :=
  Written TokenFunction Reported .outOfFuel run parseConfig fun _ _ => True

/-- There is one, so what is said of all of them is not said of none. -/
theorem exists_isParseConfig : ∃ run, IsParseConfig run :=
  writes_parseConfig.mono fun _ _ _ => trivial

/-- The constructor from `_source` on. -/
def readConfigs (narrow : Nat → Int) (run : Parser (Config × List Config)) (source : Bytes) :
    Except ParserError (List Config) := do
  let tokens ← ConfigSource.scanTokens narrow source
  let (s, _) ← run tokens 0
  return s.2

/-- A list of configurations, or an error of the class: no index outside of the source
or the tokens, and no loop without an end. -/
def Ends (result : Except ParserError (List Config)) : Prop :=
  (∃ configs, result = .ok configs) ∨ ∃ e, Reported e ∧ result = .error e

/-- Whatever the compiler makes of an offset that no `int` holds. The texts of
identifiers are not empty, since their first character is read with `at`. -/
structure Total (source : Bytes) : Prop where
  ends : ∀ narrow, ConfigSource.Narrows narrow → ∀ run, IsParseConfig run →
    Ends (readConfigs narrow run source)
  texts : ∀ narrow tokens, ConfigSource.Narrows narrow →
    ConfigSource.scanTokens narrow source = .ok tokens →
    ∀ token ∈ tokens, token.type = .identifier → token.lexeme ≠ []

variable {source : Bytes} {narrow : Nat → Int} {run : Parser (Config × List Config)}

theorem readConfigs_eq (hnarrow : ConfigSource.Narrows narrow) (hrun : IsParseConfig run)
    (h : ∀ token ∈ scanText source, token.column < 2 ^ 31) :
    readConfigs narrow run source = (parseConfig (scanTokens source)).map (fun r => r.1.2) ∧
      Ends (readConfigs narrow run source) := by
  have hscan := ConfigSource.scanTokens_eq hnarrow h
  have hpos : 0 < (scanTokens source).length := by simp [scanTokens]
  have hcall : readConfigs narrow run source = (run (scanTokens source) 0).map (fun r => r.1.2) := by
    rw [readConfigs, hscan]
    change (run (scanTokens source) 0 >>= fun r => Except.ok r.1.2) = _
    cases run (scanTokens source) 0 with
    | error e => rfl
    | ok r => rfl
  rcases written_inStep hrun (scanTokens source) 0 (scanned_scanTokens source) hpos with
    ⟨e, he, hindex, hlist⟩ | ⟨r, c, _, _, _, hindex, hlist⟩
  · rw [List.drop_zero] at hlist
    rw [hcall, hindex, hlist]
    exact ⟨rfl, Or.inr ⟨e, he, rfl⟩⟩
  · rw [List.drop_zero] at hlist
    rw [hcall, hindex, hlist]
    exact ⟨rfl, Or.inl ⟨r.2, rfl⟩⟩

theorem total_of_columns (h : ∀ token ∈ scanText source, token.column < 2 ^ 31) :
    Total source := by
  refine ⟨fun narrow hnarrow run hrun => (readConfigs_eq hnarrow hrun h).2, ?_⟩
  intro narrow tokens hnarrow htokens token htoken htype
  rw [ConfigSource.scanTokens_eq hnarrow h] at htokens
  cases htokens
  exact (scanned_scanTokens source).lexeme token htoken (by rw [htype]; decide)

/-- Where an offset becomes a negative `int`, `substr` throws `std::out_of_range`. -/
theorem not_total_of_column (h : ∃ token ∈ scanText source, 2 ^ 31 ≤ token.column) :
    ¬Total source := by
  intro htotal
  obtain ⟨run, hrun⟩ := exists_isParseConfig
  have hnarrow : ConfigSource.Narrows fun n => if n < 2 ^ 31 then n else -1 :=
    fun n hn => if_pos hn
  have herror := ConfigSource.scanTokens_error hnarrow
    (fun n hn => by rw [if_neg (by omega)]; omega) h
  have hends := htotal.ends _ hnarrow run hrun
  rw [readConfigs, herror] at hends
  rcases hends with ⟨configs, ⟨⟩⟩ | ⟨e, ⟨what, rfl⟩, ⟨⟩⟩

/-- Exactly when no token begins behind what an `int` holds. -/
theorem total_iff (source : Bytes) :
    Total source ↔ ∀ token ∈ scanText source, token.column < 2 ^ 31 := by
  constructor
  · intro h token htoken
    by_contra hbehind
    exact not_total_of_column ⟨token, htoken, by omega⟩ h
  · exact total_of_columns

/-- Every source of up to 2^31 characters. -/
theorem total_of_length (h : source.length ≤ 2 ^ 31) : Total source := by
  apply total_of_columns
  intro token htoken
  have hlt := (scan_bounds (s := ⟨1, 0, source⟩) htoken).2
  simp only at hlt
  omega

/-- Blanks move the token behind them. -/
theorem scan_blanks (n : Nat) (line current : Int) :
    scan ⟨line, current, List.replicate n 32 ++ bytes "x"⟩ =
      [⟨.identifier, bytes "x", line, current + n⟩] := by
  induction n generalizing current with
  | zero =>
      rw [Nat.cast_zero, Int.add_zero]
      rfl
  | succ n ih =>
      have hrest : (ScanState.mk line current (List.replicate (n + 1) 32 ++ bytes "x")).rest =
          32 :: (List.replicate n 32 ++ bytes "x") := rfl
      rw [scan_cons hrest]
      have hcall : Webserv.scanToken
          ⟨line, current, List.replicate (n + 1) 32 ++ bytes "x"⟩ 32
          (List.replicate n 32 ++ bytes "x") =
          (none, ⟨line, current + 1, List.replicate n 32 ++ bytes "x"⟩) := by
        rw [Webserv.scanToken, if_pos (by decide), ScanState.jump]
        simp
      rw [hcall, Option.toList_none, List.nil_append, ih]
      push_cast
      rw [Int.add_assoc, Int.add_comm 1]

theorem not_total_blanks : ¬Total (List.replicate (2 ^ 31) 32 ++ bytes "x") := by
  refine not_total_of_column ⟨⟨.identifier, bytes "x", 1, 0 + (2 ^ 31 : Nat)⟩, ?_, ?_⟩
  · change _ ∈ scan ⟨1, 0, _⟩
    rw [scan_blanks]
    exact List.mem_singleton.mpr rfl
  · norm_num

end Total

end ConfigTokens

end FortyTwo.Webserv
