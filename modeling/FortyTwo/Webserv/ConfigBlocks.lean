import FortyTwo.Webserv.ConfigReading

/-!
The directives and blocks of a configuration file, read from two states that
differ in the `return` path of the server only.
-/

namespace FortyTwo.Webserv

open Foundation TokenParser ConfigParser

namespace ConfigParser

/-- Whether a `return` of the first server block, outside of its locations, sets
the path. `depth` counts the open braces. -/
def assignsReturnPath : Nat → List Token → Bool
  | _, [] => false
  | depth, t :: rest =>
      match t.type with
      | .leftBrace => assignsReturnPath (depth + 1) rest
      | .rightBrace => depth != 1 && assignsReturnPath (depth - 1) rest
      | .returnPath => (depth == 1 && !isCodeOnly rest) || assignsReturnPath depth rest
      | _ => assignsReturnPath depth rest

/-- The path that the `return` statements outside of locations leave, after
`path`. -/
def returnPathAfter : Nat → Bytes → List Token → Bytes
  | _, path, [] => path
  | depth, path, t :: rest =>
      match t.type with
      | .leftBrace => returnPathAfter (depth + 1) path rest
      | .rightBrace => returnPathAfter (depth - 1) path rest
      | .returnPath =>
          returnPathAfter depth (if depth = 1 ∧ isCodeOnly rest = false then returnText rest else path)
            rest
      | _ => returnPathAfter depth path rest

def NoBraces (c : List Token) : Prop :=
  ∀ t ∈ c, t.type ≠ .leftBrace ∧ t.type ≠ .rightBrace

theorem NoBraces.append {c d : List Token} (hc : NoBraces c) (hd : NoBraces d) :
    NoBraces (c ++ d) := by
  intro t ht
  rcases List.mem_append.mp ht with h | h
  · exact hc t h
  · exact hd t h

theorem NoBraces.of_inert {c : List Token} (h : ∀ t ∈ c, Inert t) : NoBraces c :=
  fun t ht => ⟨(h t ht).1, (h t ht).2.1⟩

private theorem assignsReturnPath_inert (depth : Nat) {c : List Token} (hc : ∀ t ∈ c, Inert t)
    (rest : List Token) : assignsReturnPath depth (c ++ rest) = assignsReturnPath depth rest := by
  induction c with
  | nil => rfl
  | cons t c ih =>
      obtain ⟨hleft, hright, hreturn⟩ := hc t List.mem_cons_self
      rw [List.cons_append, assignsReturnPath]
      split
      · contradiction
      · contradiction
      · contradiction
      · exact ih fun u hu => hc u (List.mem_cons_of_mem _ hu)

private theorem returnPathAfter_inert (depth : Nat) (path : Bytes) {c : List Token}
    (hc : ∀ t ∈ c, Inert t) (rest : List Token) :
    returnPathAfter depth path (c ++ rest) = returnPathAfter depth path rest := by
  induction c with
  | nil => rfl
  | cons t c ih =>
      obtain ⟨hleft, hright, hreturn⟩ := hc t List.mem_cons_self
      rw [List.cons_append, returnPathAfter]
      split
      · contradiction
      · contradiction
      · contradiction
      · exact ih fun u hu => hc u (List.mem_cons_of_mem _ hu)

private theorem returnPathAfter_location (path : Bytes) {c : List Token} (hc : NoBraces c)
    (rest : List Token) : returnPathAfter 2 path (c ++ rest) = returnPathAfter 2 path rest := by
  induction c with
  | nil => rfl
  | cons t c ih =>
      obtain ⟨hleft, hright⟩ := hc t List.mem_cons_self
      have htail := ih fun u hu => hc u (List.mem_cons_of_mem _ hu)
      rw [List.cons_append, returnPathAfter]
      split
      · contradiction
      · contradiction
      · simpa using htail
      · exact htail

/-- What is inside of a location does not count. -/
private theorem assignsReturnPath_location {c : List Token} (hc : NoBraces c)
    (rest : List Token) : assignsReturnPath 2 (c ++ rest) = assignsReturnPath 2 rest := by
  induction c with
  | nil => rfl
  | cons t c ih =>
      obtain ⟨hleft, hright⟩ := hc t List.mem_cons_self
      have htail := ih fun u hu => hc u (List.mem_cons_of_mem _ hu)
      rw [List.cons_append, assignsReturnPath]
      split
      · contradiction
      · contradiction
      · simpa using htail
      · exact htail

/-- What the tokens `c` of a server block do to the `return` paths of two runs:
they set both to one path, or they leave both. -/
def PathRelated (c : List Token) (before after : Bytes × Bytes) : Prop :=
  (∀ rest, returnPathAfter 1 before.1 (c ++ rest) = returnPathAfter 1 after.1 rest) ∧
    ∃ assigned : Bool,
      (∀ rest, assignsReturnPath 1 (c ++ rest) = (assigned || assignsReturnPath 1 rest)) ∧
        if assigned = true then after.1 = after.2 else after = before

theorem PathRelated.nil (paths : Bytes × Bytes) : PathRelated [] paths paths :=
  ⟨fun _ => rfl, false, fun _ => rfl, rfl⟩

theorem PathRelated.inert {c : List Token} (hc : ∀ t ∈ c, Inert t) (paths : Bytes × Bytes) :
    PathRelated c paths paths :=
  ⟨returnPathAfter_inert 1 _ hc, false, assignsReturnPath_inert 1 hc, rfl⟩

theorem PathRelated.append {c d : List Token} {p q r : Bytes × Bytes}
    (hc : PathRelated c p q) (hd : PathRelated d q r) : PathRelated (c ++ d) p r := by
  obtain ⟨hpathc, first, hfirst, hp⟩ := hc
  obtain ⟨hpathd, second, hsecond, hq⟩ := hd
  refine ⟨fun rest => ?_, first || second, fun rest => ?_, ?_⟩
  · rw [List.append_assoc, hpathc, hpathd]
  · rw [List.append_assoc, hfirst, hsecond, Bool.or_assoc]
  · cases second with
    | true => simpa using hq
    | false =>
        rw [if_neg Bool.false_ne_true] at hq
        rw [hq, Bool.or_false]
        exact hp

/-- Equal paths stay equal. -/
theorem PathRelated.eq {c : List Token} {p : Bytes} {after : Bytes × Bytes}
    (h : PathRelated c (p, p) after) : after.1 = after.2 := by
  obtain ⟨_, assigned, _, hafter⟩ := h
  cases assigned with
  | true => exact hafter
  | false =>
      rw [if_neg Bool.false_ne_true] at hafter
      rw [hafter]

section Directives

/-- The outcomes of a directive in two runs, the second with the path `p`. -/
def DirectiveRelated (common : CommonConfig) (p : Bytes) (c : List Token) :
    Option CommonConfig → Option CommonConfig → Prop
  | none, none => c = []
  | some x, some y => c ≠ [] ∧ NoBraces c ∧ ∃ q, y = { x with returnPath := q } ∧
      PathRelated c (common.returnPath, p) (x.returnPath, q)
  | _, _ => False

variable {α : Type} {common : CommonConfig} {p : Bytes}

private theorem inert_head {t : Token} {type : TokenType} {c : List Token}
    (htype : InertType type) (ht : t.type = type) (hc : ∀ u ∈ c, Inert u) :
    ∀ u ∈ t :: c, Inert u :=
  List.forall_mem_cons.mpr ⟨inert_of_type htype ht, hc⟩

/-- A directive that does not touch the path. -/
private theorem directive_read {type : TokenType} (htype : InertType type) {L : Likeness Token}
    (hL : L.Initial) {value : ConfigParser α} (hvalue : Closes L Agrees value value)
    (set : CommonConfig → α → CommonConfig)
    (hset : ∀ q a, set { common with returnPath := q } a = { set common a with returnPath := q })
    (hkeep : ∀ a, (set common a).returnPath = common.returnPath) (t : Token)
    (ht : t.type = type) :
    Follows L (fun d x y => DirectiveRelated common p (t :: d) x y)
      (value >>= fun a => pure (some (set common a)))
      (value >>= fun a => pure (some (set { common with returnPath := p } a))) := by
  apply (hvalue.follows hL).bind_pure
  rintro c a _ ⟨_, rfl, hc⟩
  have hinert := inert_head htype ht hc
  refine ⟨List.cons_ne_nil _ _, NoBraces.of_inert hinert, p, hset p a, ?_⟩
  rw [hkeep a]
  exact PathRelated.inert hinert _

private theorem return_read (t : Token) (ht : t.type = .returnPath) :
    Follows tokenLikeness (fun d x y => DirectiveRelated common p (t :: d) x y)
      (parseReturn common.returnPath common.returnCode >>= fun x =>
        pure (some { common with returnPath := x.1, returnCode := x.2 }))
      (parseReturn p common.returnCode >>= fun x =>
        pure (some { common with returnPath := x.1, returnCode := x.2 })) := by
  refine ((parseReturn_related common.returnPath p common.returnCode).follows
    tokenLikeness_local.toInitial).bind_pure ?_
  rintro c x x' ⟨_, hcode, hinert, hends, hpath⟩
  refine ⟨List.cons_ne_nil _ _, ?_, x'.1, by rw [hcode], fun rest => ?_, !isCodeOnly c,
    fun rest => ?_, ?_⟩
  · refine NoBraces.append (c := [t]) ?_ (NoBraces.of_inert hinert)
    intro u hu
    rw [List.mem_singleton.mp hu, ht]
    decide
  · simp only [List.cons_append, returnPathAfter, ht, true_and, isCodeOnly_statement hends,
      returnPathAfter_inert 1 _ hinert]
    cases hc : isCodeOnly c with
    | true =>
        rw [if_pos hc] at hpath
        rw [if_neg Bool.noConfusion, hpath.1]
    | false =>
        rw [if_neg (hc ▸ Bool.false_ne_true)] at hpath
        rw [if_pos rfl, hpath.2 rest]
  · simp only [List.cons_append, assignsReturnPath, ht, beq_self_eq_true, Bool.true_and,
      isCodeOnly_statement hends, assignsReturnPath_inert 1 hinert]
  · cases hc : isCodeOnly c with
    | true =>
        rw [if_pos hc] at hpath
        simp [hpath]
    | false =>
        rw [if_neg (hc ▸ Bool.false_ne_true)] at hpath
        simpa using hpath.1

theorem commonDirective_related (common : CommonConfig) (p : Bytes) :
    Follows tokenLikeness (DirectiveRelated common p) (commonDirective common)
      (commonDirective { common with returnPath := p }) := by
  have hL := tokenLikeness_local.toInitial
  refine match_bind (by decide) (directive_read (by decide : InertType .root) hL
    (agrees_statement _ parsePath_agrees) (fun c a => { c with root := a })
    (fun _ _ => rfl) (fun _ => rfl)) ?_
  refine match_bind (by decide) (directive_read (by decide : InertType .index) hL
    parseIndex_agrees (fun c a => { c with index := c.index ++ a })
    (fun _ _ => rfl) (fun _ => rfl)) ?_
  refine match_bind (by decide) (directive_read (by decide : InertType .methods) hL
    parseMethods_agrees (fun c a => { c with methods := a }) (fun _ _ => rfl) (fun _ => rfl)) ?_
  refine match_bind (by decide) (directive_read (by decide : InertType .autoIndex) hL
    parseAutoIndex_agrees (fun c a => { c with autoIndex := a })
    (fun _ _ => rfl) (fun _ => rfl)) ?_
  refine match_bind_leads (by decide) (fun _ => leads_pageLikeness)
    (directive_read (by decide : InertType .errorPage) pageLikeness_initial
    parseErrorPage_agrees (fun c a => { c with errorPage := mapInsertAll c.errorPage a })
    (fun _ _ => rfl) (fun _ => rfl)) ?_
  apply match_bind (by decide) return_read
  refine match_bind (by decide) (directive_read (by decide : InertType .cgi) hL
    (agrees_statement _ cgiEntry_agrees) (fun c a => { c with cgi := mapInsert a.1 a.2 c.cgi })
    (fun _ _ => rfl) (fun _ => rfl)) ?_
  refine match_bind (by decide) (directive_read (by decide : InertType .maxClientBodySize) hL
    (agrees_statement _ parseMaxClientBody_agrees) (fun c a => { c with maxClientBody := a })
    (fun _ _ => rfl) (fun _ => rfl)) ?_
  exact Follows.pure rfl

end Directives

section Location

/-- The same result, from tokens without braces. -/
private def Keeps {α : Type} (c : List Token) (a b : α) : Prop := a = b ∧ NoBraces c

private theorem commonDirective_keeps (common : CommonConfig) :
    Follows tokenLikeness
      (fun c x y => x = y ∧ match x with | none => c = [] | some _ => c ≠ [] ∧ NoBraces c)
      (commonDirective common) (commonDirective common) := by
  apply (commonDirective_related common common.returnPath).mono
  intro c x y h
  rcases x with _ | x <;> rcases y with _ | y
  · exact ⟨rfl, h⟩
  · exact h.elim
  · exact h.elim
  · obtain ⟨hne, hbraces, q, rfl, hpath⟩ := h
    obtain rfl : x.returnPath = q := hpath.eq
    exact ⟨rfl, hne, hbraces⟩

/-- The same outcome of a round of the location block. -/
private def RoundKeeps (c : List Token) (x y : ForInStep Location) : Prop :=
  Keeps c x y ∧ ((∃ s, x = .yield s) → c ≠ [])

private theorem location_read {α : Type} {type : TokenType} (htype : InertType type)
    {value : ConfigParser α} (hvalue : Follows tokenLikeness Agrees value value)
    (set : α → Location) (t : Token) (ht : t.type = type) :
    Follows tokenLikeness (fun d x y => RoundKeeps (t :: d) x y)
      (statement endOfStatement value >>= fun a => pure (.yield (set a)))
      (statement endOfStatement value >>= fun a => pure (.yield (set a))) := by
  apply ((agrees_statement _ hvalue).follows tokenLikeness_local.toInitial).bind_pure
  rintro c a _ ⟨_, rfl, hc⟩
  refine ⟨⟨rfl, ?_⟩, fun _ => List.cons_ne_nil _ _⟩
  exact NoBraces.of_inert (List.forall_mem_cons.mpr ⟨inert_of_type htype ht, hc⟩)

private theorem locationRound_keeps (location : Location) :
    Follows tokenLikeness RoundKeeps (locationRound location) (locationRound location) := by
  apply Looks.bind (follows_check .rightBrace)
  intro found
  split
  · exact Follows.pure ⟨⟨rfl, fun _ h => by cases h⟩, fun ⟨_, h⟩ => by cases h⟩
  · apply Follows.bind tokenLikeness_local (commonDirective_keeps location.common)
    rintro c x _ ⟨rfl, hc⟩
    cases x with
    | some common =>
        exact Follows.pure ⟨⟨rfl, by simpa using hc.2⟩, fun _ => by simpa using hc.1⟩
    | none =>
        obtain rfl : c = [] := hc
        refine match_bind (by decide) (location_read (by decide : InertType .chunkedTransferEncoding)
          chunkedOption_agrees _) ?_
        refine match_bind (by decide) (location_read (by decide : InertType .chunkedThreshold)
          parseNumber_agrees _) ?_
        refine match_bind (by decide) (location_read (by decide : InertType .chunkedSize)
          parseNumber_agrees _) ?_
        exact peek_bind fun _ _ _ => Follows.throw _ _

private theorem locationLoop_keeps (location : Location) :
    Follows tokenLikeness Keeps (loop locationRound location) (loop locationRound location) := by
  refine Follows.loop (J := Keeps) tokenLikeness_local ?_ ⟨rfl, fun _ h => by cases h⟩
  rintro c s _ ⟨rfl, hc⟩
  apply (locationRound_keeps s).mono
  rintro d x _ ⟨⟨rfl, hd⟩, hne⟩
  cases x with
  | done s => exact ⟨rfl, hc.append hd⟩
  | yield s => exact ⟨hne ⟨s, rfl⟩, rfl, hc.append hd⟩

/-- A location leaves the path of the server, and does not depend on it. -/
theorem parseLocation_related (server : CommonConfig) (paths : Bytes × Bytes) :
    Follows tokenLikeness (fun c a b => a = b ∧ c ≠ [] ∧ PathRelated c paths paths)
      (parseLocation server) (parseLocation server) := by
  apply Follows.bind tokenLikeness_local parsePath_agrees
  rintro c path _ ⟨rfl, hc⟩
  split
  · exact Follows.throw _ _
  · apply Follows.bind tokenLikeness_local (follows_consume (by decide) _)
    rintro _ left _ ⟨_, rfl, hleft⟩
    apply Follows.bind tokenLikeness_local (locationLoop_keeps _)
    rintro d location _ ⟨rfl, hd⟩
    apply (follows_consume (by decide) _).bind_pure
    rintro _ right _ ⟨_, rfl, hright⟩
    refine ⟨rfl, by simp, fun rest => ?_, false, fun rest => ?_, rfl⟩
    · rw [List.append_assoc, returnPathAfter_inert 1 _ hc]
      simp only [List.nil_append, List.cons_append, List.append_assoc, returnPathAfter, hleft]
      rw [returnPathAfter_location _ hd]
      simp [returnPathAfter, hright]
    · rw [List.append_assoc, assignsReturnPath_inert 1 hc]
      simp only [List.nil_append, List.cons_append, List.append_assoc, assignsReturnPath, hleft]
      rw [assignsReturnPath_location hd]
      simp [assignsReturnPath, hright]

end Location

section Server

/-- The configuration with another `return` path. -/
def withPath (config : Config) (p : Bytes) : Config :=
  { config with common := { config.common with returnPath := p } }

/-- The configurations after the tokens `c`, from `temp` and from `temp` with the
path `p`. -/
def ServerRelated (temp : Config) (p : Bytes) (c : List Token) (x y : Config) : Prop :=
  ∃ q, y = withPath x q ∧
    PathRelated c (temp.common.returnPath, p) (x.common.returnPath, q)

variable {temp : Config} {p : Bytes}

private theorem server_read {α : Type} {type : TokenType} (htype : InertType type)
    {value : ConfigParser α}
    (hvalue : Follows tokenLikeness (fun c a b => a = b ∧ c ≠ [] ∧
      PathRelated c (temp.common.returnPath, p) (temp.common.returnPath, p)) value value)
    (set : Config → α → Config)
    (hset : ∀ a, set (withPath temp p) a = withPath (set temp a) p)
    (hkeep : ∀ a, (set temp a).common.returnPath = temp.common.returnPath) (t : Token)
    (ht : t.type = type) :
    Follows tokenLikeness (fun d x y => t :: d ≠ [] ∧ ServerRelated temp p (t :: d) x y)
      (value >>= fun a => pure (set temp a)) (value >>= fun a => pure (set (withPath temp p) a)) := by
  apply hvalue.bind_pure
  rintro c a _ ⟨rfl, _, hc⟩
  refine ⟨List.cons_ne_nil _ _, p, hset a, ?_⟩
  rw [hkeep a]
  have hhead : ∀ u ∈ [t], Inert u := by
    intro u hu
    rw [List.mem_singleton.mp hu]
    exact inert_of_type htype ht
  exact (PathRelated.inert hhead _).append hc

private theorem inert_read {α : Type} {value : ConfigParser α}
    (hvalue : Closes tokenLikeness Agrees value value) (paths : Bytes × Bytes) :
    Follows tokenLikeness (fun c a b => a = b ∧ c ≠ [] ∧ PathRelated c paths paths)
      value value :=
  (hvalue.follows tokenLikeness_local.toInitial).mono
    (fun _ _ _ h => ⟨h.2.1, h.1, PathRelated.inert h.2.2 paths⟩)

theorem serverDirective_related (temp : Config) (p : Bytes) :
    Follows tokenLikeness (fun c x y => c ≠ [] ∧ ServerRelated temp p c x y)
      (serverDirective temp) (serverDirective (withPath temp p)) := by
  apply Follows.bind tokenLikeness_local (commonDirective_related temp.common p)
  intro c x y h
  rcases x with _ | x <;> rcases y with _ | y
  · obtain rfl : c = [] := h
    refine match_bind (by decide) (server_read (by decide : InertType .listen)
      (inert_read (parseListen_agrees temp.listen) _) (fun s a => { s with listen := a })
      (fun _ => rfl) (fun _ => rfl)) ?_
    refine match_bind (by decide) (server_read (by decide : InertType .serverName)
      (inert_read (parseServerName_agrees temp.serverName) _) (fun s a => { s with serverName := a })
      (fun _ => rfl) (fun _ => rfl)) ?_
    refine match_bind (by decide) (server_read (by decide : InertType .location)
      (parseLocation_related temp.common _)
      (fun s a => { s with location := s.location ++ [a] }) (fun _ => rfl) (fun _ => rfl)) ?_
    refine match_bind (by decide) (server_read (by decide : InertType .keepaliveTimeout)
      (inert_read (agrees_statement _ parseTimeout_agrees) _)
      (fun s a => { s with keepaliveTimeout := a }) (fun _ => rfl) (fun _ => rfl)) ?_
    exact peek_bind fun _ _ _ => Follows.throw _ _
  · exact h.elim
  · exact h.elim
  · obtain ⟨hne, _, q, rfl, hpath⟩ := h
    exact Follows.pure ⟨by simpa using hne, q, rfl, by simpa using hpath⟩

theorem serverLoop_related (temp : Config) (p : Bytes) :
    Follows tokenLikeness (ServerRelated temp p) (loop serverRound temp)
      (loop serverRound (withPath temp p)) := by
  refine Follows.loop (J := ServerRelated temp p) tokenLikeness_local ?_
    ⟨p, rfl, PathRelated.nil _⟩
  rintro c s _ ⟨q, rfl, hpath⟩
  apply Looks.bind (follows_check .rightBrace)
  intro found
  split
  · exact Follows.pure ⟨q, rfl, by simpa using hpath⟩
  · apply Looks.bind follows_tokenIsAtEnd
    intro found
    split
    · exact Follows.pure ⟨q, rfl, by simpa using hpath⟩
    · apply (serverDirective_related s q).bind_pure
      rintro d x _ ⟨hne, q', rfl, hpath'⟩
      exact ⟨hne, q', rfl, hpath.append hpath'⟩

/-- What two runs of a server block leave: one of its directives sets the path
of both, or each keeps the one of the block before. -/
def BlockRelated (temp temp' : Config) (c : List Token) (x y : Config) : Prop :=
  y = withPath x y.common.returnPath ∧
    (∀ rest, returnPathAfter 0 temp.common.returnPath (c ++ rest) =
      returnPathAfter 0 x.common.returnPath rest) ∧ ∃ assigned : Bool,
    (∀ rest, assignsReturnPath 0 (c ++ rest) = assigned) ∧
      if assigned = true then x.common.returnPath = y.common.returnPath
      else x.common.returnPath = temp.common.returnPath ∧
        y.common.returnPath = temp'.common.returnPath

theorem serverBlock_related (temp temp' : Config) :
    Closes tokenLikeness (BlockRelated temp temp') (serverBlock temp) (serverBlock temp') := by
  have hdefaults : fillDefaultValues temp' =
      withPath (fillDefaultValues temp) temp'.common.returnPath := rfl
  apply Closes.bind tokenLikeness_local (follows_consume (by decide) _)
  rintro _ left _ ⟨_, rfl, hleft⟩
  rw [hdefaults]
  apply Closes.bind tokenLikeness_local (serverLoop_related _ _)
  rintro c x _ ⟨q, rfl, hafter, assigned, hassigns, hpath⟩
  apply (closes_consume (by decide) _).bind_lift
  rintro _ right _ ⟨_, rfl, hright⟩ z hz
  unfold checkForEmpty at hz
  split at hz
  · cases hz
  · next hempty =>
      cases hz
      refine ⟨withPath x q, if_neg hempty, rfl, fun rest => ?_, assigned, fun rest => ?_, ?_⟩
      · have hblock := hafter ([right] ++ rest)
        simp only [List.nil_append, List.cons_append, List.append_assoc, returnPathAfter, hleft,
          hright] at hblock ⊢
        exact hblock
      · simp only [List.nil_append, List.cons_append, List.append_assoc, assignsReturnPath, hleft]
        rw [Nat.zero_add, hassigns]
        simp [assignsReturnPath, hright]
      · cases assigned with
        | true => exact hpath
        | false =>
            rw [if_neg Bool.false_ne_true] at hpath ⊢
            exact Prod.mk.inj hpath

end Server

end ConfigParser

end FortyTwo.Webserv
