import FortyTwo.Webserv.ConfigBlocks
import FortyTwo.Webserv.ConfigScan

/-!
One configuration file after another: the servers of the first come out as they
were, and those of the second too, unless the `return` path of the last server
block before them is still there.
-/

namespace FortyTwo.Webserv

open Foundation TokenParser ConfigParser

namespace ConfigParser

/-- The server blocks that the parser reads from `tempConfig` on, with what they
leave in it and the tokens behind them. -/
inductive Blocks : Config → List Token → List Config → Config → List Token → Prop where
  | nil (temp : Config) (l : List Token) : Blocks temp l [] temp l
  | block {temp x temp' : Config} {t : Token} {l m r : List Token} {configs : List Config}
      (ht : t.type = .server) (hblock : serverBlock temp l = .ok (x, m))
      (hrest : Blocks x m configs temp' r) : Blocks temp (t :: l) (x :: configs) temp' r

private theorem configRound_end {t : Token} (ht : t.type = .endOfFile) (rest : List Token)
    (s : Config × List Config) : configRound s (t :: rest) = .ok (.done s, t :: rest) := by
  rw [configRound, bind_of_ok _ (tokenIsAtEnd_cons t rest), ht]
  rfl

private theorem configRound_ok {s : Config × List Config} {t : Token} {rest m : List Token}
    {step : ForInStep (Config × List Config)}
    (h : configRound s (t :: rest) = .ok (step, m)) :
    (t.type = .endOfFile ∧ step = .done s ∧ m = t :: rest) ∨
      t.type = .server ∧ ∃ x, serverBlock s.1 rest = .ok (x, m) ∧
        step = .yield (x, s.2 ++ [x]) := by
  by_cases hend : t.type = .endOfFile
  · rw [configRound_end hend] at h
    cases h
    exact Or.inl ⟨hend, rfl, rfl⟩
  · rw [configRound, bind_of_ok _ (tokenIsAtEnd_cons t rest), beq_false_of_ne hend,
      if_neg Bool.false_ne_true, bind_of_ok _ (tokenMatch_cons (by decide) t rest)] at h
    by_cases hserver : t.type = .server
    · rw [decide_eq_true hserver, if_pos rfl, if_pos hserver] at h
      obtain ⟨x, m, hblock, hpure⟩ := bind_ok_iff.mp h
      obtain ⟨rfl, rfl⟩ := pure_ok_iff.mp hpure
      exact Or.inr ⟨hserver, x, hblock, rfl⟩
    · rw [decide_eq_false hserver, if_neg Bool.false_ne_true, if_neg hserver,
        bind_of_ok _ (tokenPeek_cons t rest)] at h
      cases h

private theorem configRound_server {s : Config × List Config} {t : Token} {rest m : List Token}
    {x : Config} (ht : t.type = .server) (hblock : serverBlock s.1 rest = .ok (x, m)) :
    configRound s (t :: rest) = .ok (.yield (x, s.2 ++ [x]), m) := by
  have hend : t.type ≠ .endOfFile := by rw [ht]; decide
  rw [configRound, bind_of_ok _ (tokenIsAtEnd_cons t rest), beq_false_of_ne hend,
    if_neg Bool.false_ne_true, bind_of_ok _ (tokenMatch_cons (by decide) t rest),
    decide_eq_true ht, if_pos rfl, if_pos ht, bind_of_ok _ hblock]
  rfl

private theorem blocks_of_loop (fuel : Nat) (s s' : Config × List Config) (l r : List Token)
    (h : loopFrom .outOfFuel configRound fuel s l = .ok (s', r)) :
    ∃ configs, s'.2 = s.2 ++ configs ∧ Blocks s.1 l configs s'.1 r ∧
      ∃ t rest, r = t :: rest ∧ t.type = .endOfFile := by
  induction fuel generalizing s l with
  | zero => cases h
  | succ fuel ih =>
      obtain ⟨step, m, hround, hrest⟩ := bind_ok_iff.mp h
      cases l with
      | nil => cases hround
      | cons t rest =>
          rcases configRound_ok hround with ⟨ht, rfl, rfl⟩ | ⟨ht, x, hblock, rfl⟩
          · obtain ⟨rfl, rfl⟩ := pure_ok_iff.mp hrest
            exact ⟨[], (List.append_nil _).symm, Blocks.nil _ _, t, rest, rfl, ht⟩
          · obtain ⟨configs, heq, hblocks, hend⟩ := ih _ _ hrest
            refine ⟨x :: configs, ?_, Blocks.block ht hblock hblocks, hend⟩
            rw [heq, List.append_assoc]
            rfl

private theorem loop_of_blocks {temp temp' : Config} {l r : List Token} {configs : List Config}
    (h : Blocks temp l configs temp' r) {t : Token} {rest : List Token} (hr : r = t :: rest)
    (ht : t.type = .endOfFile) (hsound : Separated l) (before : List Config) (fuel : Nat)
    (hfuel : l.length < fuel) :
    loopFrom .outOfFuel configRound fuel (temp, before) l =
      .ok ((temp', before ++ configs), r) := by
  induction h generalizing before fuel with
  | nil temp l =>
      obtain ⟨fuel, rfl⟩ : ∃ less, fuel = less + 1 := ⟨fuel - 1, by omega⟩
      subst hr
      rw [loopFrom, bind_of_ok _ (configRound_end ht rest _), List.append_nil]
      rfl
  | @block temp x temp' u l m r configs hserver hblock hrest ih =>
      obtain ⟨fuel, rfl⟩ : ∃ less, fuel = less + 1 := ⟨fuel - 1, by omega⟩
      have hround := configRound_server (s := (temp, before)) hserver hblock
      have hl : Separated l := Separated.right (c := [u]) hsound
      obtain ⟨c, rfl, _⟩ := serverBlock_related temp temp l x m hl hblock
      rw [List.length_cons, List.length_append] at hfuel
      have htail := ih hr hl.right (before ++ [x]) fuel (by omega)
      rw [loopFrom, bind_of_ok _ hround]
      simpa using htail

private theorem blockRelated_eq {temp temp' x y : Config} {c : List Token}
    (h : BlockRelated temp temp' c x y) :
    y = x ↔ temp'.common.returnPath = temp.common.returnPath ∨ ∀ rest,
      assignsReturnPath 0 (c ++ rest) = true := by
  obtain ⟨hy, _, assigned, hassigns, hpath⟩ := h
  have hsame : y = x ↔ y.common.returnPath = x.common.returnPath := by
    constructor
    · intro heq
      rw [heq]
    · intro heq
      rw [hy, heq]
      rfl
  rw [hsame]
  cases assigned with
  | true => exact ⟨fun _ => Or.inr hassigns, fun _ => (show _ = _ from hpath).symm⟩
  | false =>
      obtain ⟨hx, hy⟩ := hpath
      rw [hx, hy]
      constructor
      · exact Or.inl
      · rintro (heq | hnever)
        · exact heq
        · have hempty := hnever []
          rw [hassigns []] at hempty
          cases hempty

/-- The same tokens read again, from another `tempConfig`: the configurations
are the same if the `return` path left in it is, or if the first block sets it. -/
private theorem assignsReturnPath_server {t : Token} (ht : t.type = .server) (rest : List Token) :
    assignsReturnPath 0 (t :: rest) = assignsReturnPath 0 rest := by
  simp [assignsReturnPath, ht]

theorem Blocks.again {temp temp' : Config} {l r : List Token} {configs : List Config}
    (h : Blocks temp l configs temp' r) (hsound : Separated l) :
    ∃ c, l = c ++ r ∧ ∀ other c' r', c'.length = c.length → AlikeTokens c c' →
      ∃ configs' other', Blocks other (c' ++ r') configs' other' r' ∧
        (configs' = configs ↔ configs = [] ∨
          other.common.returnPath = temp.common.returnPath ∨ assignsReturnPath 0 l = true) := by
  induction h with
  | nil temp l =>
      refine ⟨[], rfl, fun other c' r' hlen _ => ⟨[], other, ?_, by simp⟩⟩
      obtain rfl := List.length_eq_zero_iff.mp hlen
      exact Blocks.nil _ _
  | @block temp x temp' u l m r configs hserver hblock hrest ih =>
      have hl : Separated l := Separated.right (c := [u]) hsound
      obtain ⟨c, rfl, hne, _⟩ := serverBlock_related temp temp l x m hl hblock
      obtain ⟨d, rfl, htail⟩ := ih hl.right
      refine ⟨u :: (c ++ d), by simp, ?_⟩
      intro other e' r' hlen halike
      obtain ⟨u', c', d', rfl, hc, hd⟩ : ∃ u' c' d', e' = u' :: (c' ++ d') ∧
          c'.length = c.length ∧ d'.length = d.length := by
        cases e' with
        | nil => cases hlen
        | cons u' e' =>
            rw [List.length_cons, List.length_cons, List.length_append] at hlen
            obtain ⟨c', d', rfl, hc, hd⟩ :=
              TokenParser.exists_append_of_length (Nat.succ.inj hlen)
            exact ⟨u', c', d', rfl, hc, hd⟩
      have hu : u'.type = .server := by
        rw [← (List.forall₂_cons.mp halike.same).1.1]
        exact hserver
      have hrest' : AlikeTokens (c ++ d) (c' ++ d') :=
        @AlikeTokens.right [u] [u'] _ _ rfl halike
      obtain ⟨c₂, hc₂, _, hq⟩ := serverBlock_related temp other _ x (d ++ r) hl hblock
      obtain rfl := List.append_cancel_right hc₂
      obtain ⟨y, hy, hrelated⟩ := hq c' (d' ++ r') hc (hrest'.left hc)
      obtain ⟨configs', other', hblocks, hconfigs⟩ := htail y d' r' hd (hrest'.right hc)
      refine ⟨y :: configs', other', ?_, ?_⟩
      · rw [List.cons_append, List.append_assoc]
        exact Blocks.block hu hy hblocks
      · rw [assignsReturnPath_server hserver]
        have hpath := blockRelated_eq hrelated
        have hsome : ∀ rest, assignsReturnPath 0 (c ++ rest) = assignsReturnPath 0 (c ++ (d ++ r)) := by
          obtain ⟨_, _, assigned, hassigns, _⟩ := hrelated
          intro rest
          rw [hassigns, hassigns]
        constructor
        · intro heq
          rcases hpath.mp (List.cons.inj heq).1 with h | h
          · exact Or.inr (Or.inl h)
          · exact Or.inr (Or.inr (h _))
        · rintro (h | h | h)
          · cases h
          · have hyx := hpath.mpr (Or.inl h)
            rw [hyx, hconfigs.mpr (Or.inr (Or.inl (congrArg (·.common.returnPath) hyx)))]
          · have hyx := hpath.mpr (Or.inr fun rest => (hsome rest).trans h)
            rw [hyx, hconfigs.mpr (Or.inr (Or.inl (congrArg (·.common.returnPath) hyx)))]

theorem Blocks.pathAfter {temp temp' : Config} {l r : List Token} {configs : List Config}
    (h : Blocks temp l configs temp' r) (hsound : Separated l) :
    returnPathAfter 0 temp.common.returnPath l = returnPathAfter 0 temp'.common.returnPath r := by
  induction h with
  | nil temp l => rfl
  | @block temp x temp' u l m r configs hserver hblock hrest ih =>
      have hl : Separated l := Separated.right (c := [u]) hsound
      obtain ⟨c, rfl, _⟩ := serverBlock_related temp temp l x m hl hblock
      obtain ⟨_, _, hafter, _⟩ := Closes.self tokenLikeness_local.toInitial
        (serverBlock_related temp temp) hl hblock
      have hhead : returnPathAfter 0 temp.common.returnPath (u :: (c ++ m)) =
          returnPathAfter 0 temp.common.returnPath (c ++ m) := by
        simp [returnPathAfter, hserver]
      rw [hhead, hafter m, ih hl.right]

theorem Blocks.append {temp temp' temp'' : Config} {l m r : List Token}
    {configs configs' : List Config} (h : Blocks temp l configs temp' m)
    (h' : Blocks temp' m configs' temp'' r) : Blocks temp l (configs ++ configs') temp'' r := by
  induction h with
  | nil temp l => exact h'
  | block ht hblock _ ih => exact Blocks.block ht hblock (ih h')

/-- The blocks are determined by the tokens. -/
theorem Blocks.unique {temp temp₁ temp₂ : Config} {l r₁ r₂ : List Token}
    {configs₁ configs₂ : List Config} (h₁ : Blocks temp l configs₁ temp₁ r₁)
    (h₂ : Blocks temp l configs₂ temp₂ r₂) {t₁ t₂ : Token} {rest₁ rest₂ : List Token}
    (hr₁ : r₁ = t₁ :: rest₁) (ht₁ : t₁.type = .endOfFile) (hr₂ : r₂ = t₂ :: rest₂)
    (ht₂ : t₂.type = .endOfFile) : configs₁ = configs₂ := by
  induction h₁ generalizing configs₂ with
  | nil temp l =>
      cases h₂ with
      | nil => rfl
      | block ht =>
          rw [(List.cons.inj hr₁).1, ht₁] at ht
          cases ht
  | @block temp x temp' u l m r configs hserver hblock hrest ih =>
      cases h₂ with
      | nil =>
          rw [(List.cons.inj hr₂).1, ht₂] at hserver
          cases hserver
      | block _ hblock' hrest' =>
          rw [hblock] at hblock'
          cases hblock'
          rw [ih hrest' hr₁]

end ConfigParser

section Files

theorem readLines_eq (tempString text : Bytes) :
    if tempString ++ text = [] ∨ text.getLast? = some 10 then (readLines tempString text).2 = []
    else (readLines tempString text).2 ≠ [] ∧
      (readLines tempString text).1 = tempString ++ text ++ [10] := by
  induction text generalizing tempString with
  | nil =>
      rw [List.append_nil, readLines]
      by_cases h : tempString = [] <;> simp [h]
  | cons c rest ih =>
      rw [readLines]
      by_cases hc : c = 10
      · subst hc
        have htail := ih []
        cases rest with
        | nil => simp [readLines]
        | cons d rest => simpa using htail
      · have htail := ih (tempString ++ [c])
        rw [if_neg hc]
        cases rest with
        | nil => simpa [hc] using htail
        | cons d rest => simpa using htail

/-- A file is read if it has a last line that no newline ends. -/
theorem readSource_eq_ok_iff {text source : Bytes} :
    readSource text = .ok source ↔
      text ≠ [] ∧ text.getLast? ≠ some 10 ∧ source = text ++ [10] := by
  have hlines := readLines_eq [] text
  have hread : readSource text = if (readLines [] text).2 = [] then
      .error (failure "File is empty, nothing to parse!") else .ok (readLines [] text).1 := rfl
  rw [hread]
  split at hlines
  · next h =>
      rw [if_pos hlines]
      refine ⟨fun h => (by cases h), fun ⟨hne, hlast, _⟩ => ?_⟩
      rcases h with h | h
      · exact absurd h hne
      · exact absurd h hlast
  · next h =>
      rw [not_or] at h
      rw [if_neg hlines.1, hlines.2]
      constructor
      · intro heq
        cases heq
        exact ⟨h.1, h.2, rfl⟩
      · rintro ⟨_, _, rfl⟩
        rfl

theorem endOfFile_last {c rest : List Token} {t : Token} {s : ScanState}
    (h : scan s ++ [endOfFile] = c ++ t :: rest) (ht : t.type = .endOfFile) :
    c = scan s ∧ t :: rest = [endOfFile] := by
  rcases List.eq_nil_or_concat rest with rfl | ⟨init, u, rfl⟩
  · obtain ⟨hc, hlast⟩ := List.append_inj' h rfl
    exact ⟨hc.symm, hlast.symm⟩
  · have hsplit : scan s ++ [endOfFile] = (c ++ t :: init) ++ [u] := by
      rw [h, List.concat_eq_append]
      simp
    have hmem : t ∈ scan s := by
      rw [(List.append_inj' hsplit rfl).1]
      simp
    exact absurd ht (scan_mem hmem).2

theorem scanText_eq (source : Bytes) : scanText source = scan ⟨1, 0, source⟩ := rfl

theorem parse_eq_ok_iff {text : Bytes} {configs : List Config} :
    parse text = .ok configs ↔ text ≠ [] ∧ text.getLast? ≠ some 10 ∧
      ∃ temp, Blocks {} (scanTokens (text ++ [10])) configs temp [endOfFile] := by
  have hsound : Separated (scanTokens (text ++ [10])) := scan_separated ⟨1, 0, text ++ [10]⟩
  constructor
  · intro h
    cases hsource : readSource text with
    | error e =>
        rw [parse, hsource] at h
        cases h
    | ok source =>
        obtain ⟨hne, hlast, rfl⟩ := readSource_eq_ok_iff.mp hsource
        cases hrun : parseConfig (scanTokens (text ++ [10])) with
        | error e =>
            rw [parse, hsource] at h
            change (parseConfig (scanTokens (text ++ [10])) >>= _) = _ at h
            rw [hrun] at h
            cases h
        | ok result =>
            obtain ⟨s, r⟩ := result
            rw [parse, hsource] at h
            change (parseConfig (scanTokens (text ++ [10])) >>= _) = _ at h
            rw [hrun] at h
            cases h
            obtain ⟨configs, hconfigs, hblocks, t, rest, rfl, ht⟩ := blocks_of_loop _ _ _ _ _ hrun
            obtain ⟨c, hc, _⟩ := hblocks.again hsound
            obtain ⟨_, hend⟩ := endOfFile_last (s := ⟨1, 0, text ++ [10]⟩) hc ht
            rw [hend] at hblocks
            refine ⟨hne, hlast, s.1, ?_⟩
            rw [hconfigs]
            exact hblocks
  · rintro ⟨hne, hlast, temp, hblocks⟩
    have hsource := readSource_eq_ok_iff.mpr ⟨hne, hlast, rfl⟩
    have hrun : parseConfig (scanTokens (text ++ [10])) = .ok ((temp, configs), [endOfFile]) :=
      loop_of_blocks hblocks rfl rfl hsound [] _ (Nat.lt_succ_self _)
    rw [parse, hsource]
    change (parseConfig (scanTokens (text ++ [10])) >>= _) = _
    rw [hrun]
    rfl

end Files

theorem ConfigParser.Blocks.last {temp temp' : Config} {l r : List Token} {configs : List Config}
    (h : Blocks temp l configs temp' r) : temp' = configs.getLast?.getD temp := by
  induction h with
  | nil => rfl
  | @block temp x temp' u l m r configs _ _ _ ih =>
      rw [ih]
      cases configs with
      | nil => rfl
      | cons y configs => simp [List.getLast?_eq_some_getLast]

theorem ConfigParser.Blocks.empty_iff {temp temp' : Config} {l c : List Token} {configs : List Config}
    (h : Blocks temp l configs temp' [endOfFile]) (hl : l = c ++ [endOfFile]) :
    configs = [] ↔ c = [] := by
  generalize hr : [endOfFile] = r at h
  cases h with
  | nil =>
      have hc : c = [] := by
        rw [← hr] at hl
        simpa using hl
      exact ⟨fun _ => hc, fun _ => rfl⟩
  | block ht =>
      refine ⟨fun h => (by cases h), ?_⟩
      intro hc
      rw [hc] at hl
      rw [(List.cons.inj hl).1] at ht
      cases ht

/-- A server with a `return`, and one without. -/
private def redirecting : Bytes := bytes "server\x7blisten 80;server_name a;return /x;\x7d"

private def plain : Bytes := bytes "server\x7blisten 80;server_name a;\x7d"

private def plainConfig (returnPath : Bytes) : Config where
  serverName := [bytes "a"]
  listen := [⟨bytes "0.0.0.0", 80⟩]
  common := { returnPath := returnPath }

private theorem parse_redirecting : parse redirecting = .ok [plainConfig (bytes "/x")] := by
  decide +kernel

private theorem parse_plain : parse plain = .ok [plainConfig []] := by
  decide +kernel

end FortyTwo.Webserv
