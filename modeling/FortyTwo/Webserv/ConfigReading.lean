import FortyTwo.Webserv.ConfigLikeness

/-!
What each parser of the configuration file consumes, and that it does the same
on tokens that are alike.
-/

namespace FortyTwo.Webserv

open Foundation TokenParser ConfigParser

namespace ConfigParser

/-- A token that is no brace and no `return`: what stands inside a statement. -/
def Inert (t : Token) : Prop :=
  t.type ≠ .leftBrace ∧ t.type ≠ .rightBrace ∧ t.type ≠ .returnPath

/-- The same result, from the tokens of a statement. -/
def Agrees {α : Type} (c : List Token) (a b : α) : Prop := a = b ∧ ∀ t ∈ c, Inert t

/-- The same result, from no token. -/
def Looks {α : Type} (c : List Token) (a b : α) : Prop := c = [] ∧ a = b

variable {α β γ δ : Type}

private theorem inert_append {c d : List Token} (hc : ∀ t ∈ c, Inert t) (hd : ∀ t ∈ d, Inert t) :
    ∀ t ∈ c ++ d, Inert t := by
  intro t ht
  rcases List.mem_append.mp ht with h | h
  · exact hc t h
  · exact hd t h

section Primitives

theorem tokenPeek_cons (t : Token) (rest : List Token) :
    tokenPeek (t :: rest) = .ok (t, t :: rest) := rfl

theorem check_cons (type : TokenType) (t : Token) (rest : List Token) :
    check type (t :: rest) = .ok (t.type != .endOfFile && t.type == type, t :: rest) := rfl

theorem tokenIsAtEnd_cons (t : Token) (rest : List Token) :
    tokenIsAtEnd (t :: rest) = .ok (t.type == .endOfFile, t :: rest) := rfl

theorem tokenMatch_cons {type : TokenType} (htype : type ≠ .endOfFile) (t : Token)
    (rest : List Token) :
    tokenMatch type (t :: rest) =
      .ok (decide (t.type = type), if t.type = type then rest else t :: rest) := by
  rw [tokenMatch, bind_of_ok _ (tokenPeek_cons t rest)]
  by_cases h : t.type = type
  · have hend : t.type ≠ .endOfFile := h ▸ htype
    have hadvance : tokenAdvance (t :: rest) = .ok (t, rest) := by simp [tokenAdvance, hend]
    rw [if_pos h, if_pos h, bind_of_ok _ hadvance, decide_eq_true h]
    rfl
  · rw [if_neg h, if_neg h, decide_eq_false h]
    rfl

theorem consume_cons {type : TokenType} (htype : type ≠ .endOfFile) (message : String)
    {t : Token} (rest : List Token) (h : t.type = type) :
    consume type message (t :: rest) = .ok (t, rest) := by
  have hend : t.type ≠ .endOfFile := h ▸ htype
  rw [consume, bind_of_ok _ (check_cons type t rest)]
  simp [h, htype, tokenAdvance]

theorem consume_ok {type : TokenType} {message : String} {l r : List Token} {a : Token}
    (h : consume type message l = .ok (a, r)) : l = a :: r ∧ a.type = type := by
  cases l with
  | nil => cases h
  | cons t rest =>
      rw [consume, bind_of_ok _ (check_cons type t rest)] at h
      split at h
      · next hcheck =>
          simp only [Bool.and_eq_true, bne_iff_ne, beq_iff_eq] at hcheck
          simp only [tokenAdvance, hcheck.1, if_false, Except.ok.injEq, Prod.mk.injEq] at h
          obtain ⟨rfl, rfl⟩ := h
          exact ⟨rfl, hcheck.2⟩
      · cases h

private theorem alikeTokens_head {t t' : Token} {rest rest' : List Token}
    (h : AlikeTokens (t :: rest) (t' :: rest')) : SameToken t t' :=
  (List.forall₂_cons.mp h.same).1

/-- Where a next token is looked at there is one like it. -/
private theorem alikeTokens_next {t : Token} {rest l : List Token}
    (h : AlikeTokens (t :: rest) (l.take 1)) : ∃ t' rest', l = t' :: rest' ∧ SameToken t t' := by
  cases l with
  | nil => cases h.same
  | cons t' rest' => exact ⟨t', rest', rfl, alikeTokens_head h⟩

/-- What a parser that looks at the type of the next token finds. -/
private theorem follows_look {p : ConfigParser α} (f : TokenType → α)
    (hp : ∀ t rest, p (t :: rest) = .ok (f t.type, t :: rest))
    (hnil : ∀ a r, p [] ≠ .ok (a, r)) :
    Follows tokenLikeness Looks p p := by
  intro l a r _ h
  cases l with
  | nil => exact absurd h (hnil a r)
  | cons t rest =>
      rw [hp] at h
      cases h
      refine ⟨[], rfl, fun c' r' hlen halike => ?_⟩
      obtain rfl := List.length_eq_zero_iff.mp hlen
      obtain ⟨t', rest', rfl, hsame⟩ := alikeTokens_next halike
      exact ⟨f t.type, by rw [List.nil_append, hp, hsame.1], rfl, rfl⟩

theorem follows_check (type : TokenType) :
    Follows tokenLikeness Looks (check type) (check type) :=
  follows_look (fun u => u != .endOfFile && u == type) (fun t rest => check_cons type t rest)
    (fun _ _ h => by cases h)

theorem follows_tokenPeek :
    Follows tokenLikeness (fun c a b => c = [] ∧ SameToken a b) tokenPeek tokenPeek := by
  intro l a r _ h
  cases l with
  | nil => cases h
  | cons t rest =>
      cases h
      refine ⟨[], rfl, fun c' r' hlen halike => ?_⟩
      obtain rfl := List.length_eq_zero_iff.mp hlen
      obtain ⟨t', rest', rfl, hsame⟩ := alikeTokens_next halike
      exact ⟨t', rfl, rfl, hsame⟩

theorem follows_tokenIsAtEnd : Follows tokenLikeness Looks tokenIsAtEnd tokenIsAtEnd :=
  follows_look (fun u => u == .endOfFile) tokenIsAtEnd_cons (fun _ _ h => by cases h)

/-- A token of the type is read, or none. -/
theorem follows_tokenMatch {type : TokenType} (htype : type ≠ .endOfFile) :
    Follows tokenLikeness
      (fun c a b => a = b ∧ if a = true then ∃ t, c = [t] ∧ t.type = type else c = [])
      (tokenMatch type) (tokenMatch type) := by
  intro l a r _ h
  cases l with
  | nil => cases h
  | cons t rest =>
      rw [tokenMatch_cons htype] at h
      by_cases ht : t.type = type
      · rw [decide_eq_true ht, if_pos ht] at h
        cases h
        refine ⟨[t], rfl, fun c' r' hlen halike => ?_⟩
        obtain ⟨t', rfl⟩ := List.length_eq_one_iff.mp hlen
        have hsame := alikeTokens_head halike
        have ht' : t'.type = type := hsame.1 ▸ ht
        refine ⟨true, ?_, rfl, t, rfl, ht⟩
        rw [List.singleton_append, tokenMatch_cons htype, decide_eq_true ht', if_pos ht']
      · rw [decide_eq_false ht, if_neg ht] at h
        cases h
        refine ⟨[], rfl, fun c' r' hlen halike => ?_⟩
        obtain rfl := List.length_eq_zero_iff.mp hlen
        obtain ⟨t', rest', rfl, hsame⟩ := alikeTokens_next halike
        have ht' : ¬t'.type = type := fun h => ht (hsame.1.trans h)
        refine ⟨false, ?_, rfl, rfl⟩
        rw [List.nil_append, tokenMatch_cons htype, decide_eq_false ht', if_neg ht']

theorem closes_consume {type : TokenType} (htype : type ≠ .endOfFile) (message : String) :
    Closes tokenLikeness (fun c a b => SameToken a b ∧ c = [a] ∧ a.type = type)
      (consume type message) (consume type message) := by
  intro l a r _ h
  obtain ⟨rfl, ha⟩ := consume_ok h
  refine ⟨[a], rfl, List.cons_ne_nil _ _, fun c' r' hlen halike => ?_⟩
  obtain ⟨b, rfl⟩ := List.length_eq_one_iff.mp hlen
  have hsame := alikeTokens_head halike
  exact ⟨b, consume_cons htype message r' (hsame.1 ▸ ha), hsame, rfl, ha⟩

theorem follows_consume {type : TokenType} (htype : type ≠ .endOfFile) (message : String) :
    Follows tokenLikeness (fun c a b => SameToken a b ∧ c = [a] ∧ a.type = type)
      (consume type message) (consume type message) :=
  ((closes_consume htype message).follows tokenLikeness_local.toInitial).mono
    (fun _ _ _ h => h.2)

theorem follows_lift (x : Except ParserError α) :
    Follows tokenLikeness Looks (lift x : ConfigParser α) (lift x) := by
  intro l a r _ h
  cases x with
  | error e => cases h
  | ok y =>
      cases h
      refine ⟨[], rfl, fun c' r' hlen _ => ⟨a, ?_, rfl, rfl⟩⟩
      obtain rfl := List.length_eq_zero_iff.mp hlen
      rfl

end Primitives

section Rules

variable {p q : ConfigParser α} {f g : α → ConfigParser β} {W : List Token → γ → δ → Prop}

theorem Looks.bind {f : α → ConfigParser γ} {g : α → ConfigParser δ}
    (hp : Follows tokenLikeness Looks p p) (hf : ∀ a, Follows tokenLikeness W (f a) (g a)) :
    Follows tokenLikeness W (p >>= f) (p >>= g) := by
  apply Follows.bind tokenLikeness_local hp
  rintro c a b ⟨rfl, rfl⟩
  exact hf a

theorem Looks.agrees (hp : Follows tokenLikeness Looks p q) : Follows tokenLikeness Agrees p q := by
  apply hp.mono
  rintro c a b ⟨rfl, rfl⟩
  exact ⟨rfl, fun _ h => by cases h⟩

theorem agrees_pure (a : α) :
    Follows tokenLikeness Agrees (pure a : ConfigParser α) (pure a) :=
  Follows.pure ⟨rfl, fun _ h => by cases h⟩

theorem Agrees.bind (hp : Follows tokenLikeness Agrees p q)
    (hf : ∀ a, Follows tokenLikeness Agrees (f a) (g a)) :
    Follows tokenLikeness Agrees (p >>= f) (q >>= g) := by
  apply Follows.bind tokenLikeness_local hp
  rintro c a b ⟨rfl, hc⟩
  exact (hf a).mono (fun d x y h => ⟨h.1, inert_append hc h.2⟩)

/-- The types of the tokens inside of a statement. -/
def InertType (type : TokenType) : Prop :=
  type ≠ .endOfFile ∧ type ≠ .leftBrace ∧ type ≠ .rightBrace ∧ type ≠ .returnPath

instance (type : TokenType) : Decidable (InertType type) :=
  inferInstanceAs (Decidable (_ ∧ _ ∧ _ ∧ _))

theorem consume_bind {type : TokenType} (htype : InertType type) (message : String)
    {f g : Token → ConfigParser β}
    (hf : ∀ t t', SameToken t t' → Follows tokenLikeness Agrees (f t) (g t')) :
    Follows tokenLikeness Agrees (consume type message >>= f) (consume type message >>= g) := by
  apply Follows.bind tokenLikeness_local (follows_consume htype.1 message)
  rintro c a b ⟨hsame, rfl, rfl⟩
  refine (hf a b hsame).mono (fun d x y h => ⟨h.1, inert_append ?_ h.2⟩)
  intro t ht
  rw [List.mem_singleton.mp ht]
  exact htype.2

/-- The same outcome of a round, which reads something if there is another. -/
def RoundAgrees {σ : Type} (c : List Token) (x y : ForInStep σ) : Prop :=
  Agrees c x y ∧ ((∃ s, x = .yield s) → c ≠ [])

variable {σ : Type}

theorem agrees_done (s : σ) :
    Follows tokenLikeness RoundAgrees (pure (.done s) : ConfigParser (ForInStep σ))
      (pure (.done s)) :=
  Follows.pure ⟨⟨rfl, fun _ h => by cases h⟩, fun ⟨_, h⟩ => by cases h⟩

/-- A round that begins with a token. -/
theorem consume_round {type : TokenType} (htype : InertType type) (message : String)
    {f g : Token → ConfigParser (ForInStep σ)}
    (hf : ∀ t t', SameToken t t' → Follows tokenLikeness Agrees (f t) (g t')) :
    Follows tokenLikeness RoundAgrees (consume type message >>= f)
      (consume type message >>= g) := by
  apply Follows.bind tokenLikeness_local (follows_consume htype.1 message)
  rintro c a b ⟨hsame, rfl, rfl⟩
  refine (hf a b hsame).mono (fun d x y h => ⟨⟨h.1, inert_append ?_ h.2⟩, fun _ => by simp⟩)
  intro t ht
  rw [List.mem_singleton.mp ht]
  exact htype.2

theorem agrees_loop {body : σ → ConfigParser (ForInStep σ)}
    (hbody : ∀ s, Follows tokenLikeness RoundAgrees (body s) (body s)) (s : σ) :
    Follows tokenLikeness Agrees (loop body s) (loop body s) := by
  refine Follows.loop (J := Agrees) tokenLikeness_local ?_ ⟨rfl, fun _ h => by cases h⟩
  rintro c s _ ⟨rfl, hc⟩
  apply (hbody s).mono
  rintro d x _ ⟨⟨rfl, hd⟩, hne⟩
  cases x with
  | done s => exact ⟨rfl, inert_append hc hd⟩
  | yield s => exact ⟨hne ⟨s, rfl⟩, rfl, inert_append hc hd⟩

theorem peek_bind {f : Token → ConfigParser γ} {g : Token → ConfigParser δ}
    (hf : ∀ t t', SameToken t t' → Follows tokenLikeness W (f t) (g t')) :
    Follows tokenLikeness W (tokenPeek >>= f) (tokenPeek >>= g) := by
  apply Follows.bind tokenLikeness_local follows_tokenPeek
  rintro c t t' ⟨rfl, hsame⟩
  exact hf t t' hsame

/-- A test for a token that is read if it is there. `M` is what is known of the
tokens behind it. -/
theorem match_bind_leads {type : TokenType} (htype : type ≠ .endOfFile) {M : Likeness Token}
    (hlead : ∀ t : Token, t.type = type → tokenLikeness.Leads [t] M)
    {f₁ f₂ : ConfigParser γ} {g₁ g₂ : ConfigParser δ}
    (hread : ∀ t, t.type = type → Follows M (fun d x y => W (t :: d) x y) f₁ g₁)
    (hother : Follows tokenLikeness W f₂ g₂) :
    Follows tokenLikeness W (tokenMatch type >>= fun found => if found = true then f₁ else f₂)
      (tokenMatch type >>= fun found => if found = true then g₁ else g₂) := by
  refine Follows.bind_leads (M := fun c => if c = [] then tokenLikeness else M)
    tokenLikeness_local.toInitial (follows_tokenMatch htype) ?_ ?_
  · rintro c found _ ⟨rfl, hc⟩
    cases found with
    | false =>
        obtain rfl : c = [] := hc
        exact tokenLikeness_local.leads []
    | true =>
        obtain ⟨t, rfl, ht⟩ : ∃ t, c = [t] ∧ t.type = type := hc
        exact hlead t ht
  · rintro c found _ ⟨rfl, hc⟩
    cases found with
    | false =>
        obtain rfl : c = [] := hc
        exact hother
    | true =>
        obtain ⟨t, rfl, ht⟩ : ∃ t, c = [t] ∧ t.type = type := hc
        exact hread t ht

theorem match_bind {type : TokenType} (htype : type ≠ .endOfFile)
    {f₁ f₂ : ConfigParser γ} {g₁ g₂ : ConfigParser δ}
    (hread : ∀ t, t.type = type → Follows tokenLikeness (fun d x y => W (t :: d) x y) f₁ g₁)
    (hother : Follows tokenLikeness W f₂ g₂) :
    Follows tokenLikeness W (tokenMatch type >>= fun found => if found = true then f₁ else f₂)
      (tokenMatch type >>= fun found => if found = true then g₁ else g₂) :=
  match_bind_leads htype (fun t _ => tokenLikeness_local.leads [t]) hread hother

theorem inert_of_type {t : Token} {type : TokenType} (htype : InertType type)
    (ht : t.type = type) : Inert t := by
  subst ht
  exact htype.2

private theorem inert_cons {t : Token} {type : TokenType} {c : List Token}
    (htype : InertType type) (ht : t.type = type) (hc : ∀ u ∈ c, Inert u) :
    ∀ u ∈ t :: c, Inert u := by
  intro u hu
  rcases List.mem_cons.mp hu with rfl | h
  · exact inert_of_type htype ht
  · exact hc u h

/-- The last token of a statement is a semicolon. -/
def EndsStatement (c : List Token) : Prop := ∃ d t, c = d ++ [t] ∧ t.type = .semicolon

theorem closes_statement {L : Likeness Token} {V : List Token → α → α → Prop}
    (message : String) {p q : ConfigParser α} (hL : L.Initial)
    (hlead : ∀ c, L.Leads c tokenLikeness) (hp : Follows L V p q)
    (hsemicolon : ∀ c t a b, V c a b → t.type = .semicolon → V (c ++ [t]) a b) :
    Closes L (fun c a b => V c a b ∧ EndsStatement c)
      (statement message p) (statement message q) := by
  apply Closes.bind_leads (M := fun _ => tokenLikeness) hL hp (fun c _ _ _ => hlead c)
  intro c a b hV
  apply (@closes_consume .semicolon (by decide) message).bind_pure
  rintro _ t t' ⟨_, rfl, ht⟩
  exact ⟨hsemicolon c t a b hV ht, c, t, rfl, ht⟩

private theorem inert_semicolon {c : List Token} {t : Token} (hc : ∀ u ∈ c, Inert u)
    (ht : t.type = .semicolon) : ∀ u ∈ c ++ [t], Inert u := by
  apply inert_append hc
  intro u hu
  rw [List.mem_singleton.mp hu]
  exact inert_of_type (by decide : InertType .semicolon) ht

theorem agrees_statement (message : String) (hp : Follows tokenLikeness Agrees p q) :
    Closes tokenLikeness Agrees (statement message p) (statement message q) :=
  (closes_statement message tokenLikeness_local.toInitial tokenLikeness_local.leads hp
    (fun _ _ _ _ h ht => ⟨h.1, inert_semicolon h.2 ht⟩)).mono (fun _ _ _ h => h.1)

end Rules

section Values

/-- The text of the tokens of a path. -/
def PathText (c : List Token) (a : Bytes) : Prop :=
  (∀ t ∈ c, Inert t ∧ t.type ≠ .semicolon) ∧ a = c.flatMap (·.lexeme)

/-- A round of `parsePath` appends one token or ends it. -/
private def PathStep (temp : Bytes) (c : List Token) (x y : ForInStep Bytes) : Prop :=
  x = y ∧ match x with
    | .yield a => ∃ t, c = [t] ∧ Inert t ∧ t.type ≠ .semicolon ∧ a = temp ++ t.lexeme
    | .done a => c = [] ∧ a = temp

private theorem pathRound_step (temp : Bytes) (parts : List (TokenType × String))
    (hparts : ∀ part ∈ parts, InertType part.1 ∧ part.1 ≠ .semicolon) :
    Follows tokenLikeness (PathStep temp) (pathRound temp parts) (pathRound temp parts) := by
  induction parts with
  | nil => exact Follows.pure ⟨rfl, rfl, rfl⟩
  | cons part parts ih =>
      obtain ⟨htype, hsemicolon⟩ := hparts part List.mem_cons_self
      rw [pathRound]
      apply Looks.bind (follows_check part.1)
      intro found
      cases found with
      | false => exact ih fun other hother => hparts other (List.mem_cons_of_mem _ hother)
      | true =>
          apply (follows_consume htype.1 part.2).bind_pure
          rintro c t t' ⟨hsame, rfl, ht⟩
          rw [hsame.2]
          exact ⟨rfl, t, rfl, inert_of_type htype ht, ht ▸ hsemicolon, by rw [hsame.2]⟩

theorem parsePath_text : Follows tokenLikeness (fun c a b => a = b ∧ PathText c a)
    parsePath parsePath := by
  have hnil : PathText [] [] := ⟨(fun _ h => by cases h), rfl⟩
  unfold parsePath ConfigParser.loop
  refine Follows.loop (J := fun c a b => a = b ∧ PathText c a) tokenLikeness_local ?_ ⟨rfl, hnil⟩
  rintro c temp _ ⟨rfl, htokens, htext⟩
  apply (pathRound_step temp pathParts (by decide)).mono
  rintro d x _ ⟨rfl, hstep⟩
  cases x with
  | done a =>
      obtain ⟨rfl, rfl⟩ := hstep
      exact ⟨rfl, by simpa using htokens, by simpa using htext⟩
  | yield a =>
      obtain ⟨t, rfl, hinert, hsemicolon, rfl⟩ := hstep
      refine ⟨List.cons_ne_nil _ _, rfl, ?_, by simp [htext]⟩
      exact List.forall_mem_append.mpr ⟨htokens, by simpa using ⟨hinert, hsemicolon⟩⟩

theorem parsePath_agrees : Follows tokenLikeness Agrees parsePath parsePath :=
  parsePath_text.mono (fun _ _ _ h => ⟨h.1, fun t ht => (h.2.1 t ht).1⟩)

private theorem portOf_agrees (temp : Bytes) :
    Follows tokenLikeness Agrees (portOf temp) (portOf temp) := by
  apply Looks.bind (follows_check .colon)
  intro found
  split
  · exact Looks.bind (follows_lift _) fun _ => agrees_pure _
  · exact agrees_pure _

private theorem portBehindColon_agrees (port : Bytes) :
    Follows tokenLikeness Agrees (portBehindColon port) (portBehindColon port) := by
  apply Looks.bind (follows_check .colon)
  intro found
  split
  · apply consume_bind (by decide) _
    intro _ _ _
    apply consume_bind (by decide) _
    intro t t' hsame
    rw [hsame.2]
    exact agrees_pure _
  · exact agrees_pure _

private theorem listenRound_agrees (entries : List Listen) :
    Follows tokenLikeness RoundAgrees (listenRound entries) (listenRound entries) := by
  apply Looks.bind (follows_check .identifier)
  intro found
  split
  · apply consume_round (by decide) _
    intro t t' hsame
    rw [hsame.2]
    apply Agrees.bind (portOf_agrees _)
    intro port
    apply Agrees.bind (portBehindColon_agrees port)
    intro port
    apply Looks.bind (follows_lift _)
    intro converted
    exact Looks.bind (follows_lift _) fun _ => agrees_pure _
  · exact agrees_done entries

theorem parseListen_agrees (entries : List Listen) :
    Closes tokenLikeness Agrees (parseListen entries) (parseListen entries) :=
  agrees_statement _ (agrees_loop listenRound_agrees entries)

private theorem serverNamePart_agrees (temp : Bytes) :
    Follows tokenLikeness RoundAgrees (serverNamePart temp) (serverNamePart temp) := by
  apply Looks.bind (follows_check .dot)
  intro found
  split
  · apply consume_round (by decide) _
    intro dot dot' hdot
    apply consume_bind (by decide) _
    intro t t' hsame
    rw [hdot.2, hsame.2]
    exact agrees_pure _
  · exact agrees_done temp

private theorem serverNameRound_agrees (s : List Bytes × Bool) :
    Follows tokenLikeness RoundAgrees (serverNameRound s) (serverNameRound s) := by
  apply Looks.bind (follows_check .identifier)
  intro found
  split
  · apply consume_round (by decide) _
    intro t t' hsame
    rw [hsame.2]
    exact Agrees.bind (agrees_loop serverNamePart_agrees _) fun _ => agrees_pure _
  · exact agrees_done s

theorem parseServerName_agrees (names : List Bytes) :
    Closes tokenLikeness Agrees (parseServerName names) (parseServerName names) := by
  refine agrees_statement _ (Agrees.bind (agrees_loop serverNameRound_agrees _) fun s => ?_)
  obtain ⟨names, found⟩ := s
  cases found with
  | false => exact Follows.throw _ _
  | true => exact agrees_pure names

theorem parseNumber_agrees : Follows tokenLikeness Agrees parseNumber parseNumber := by
  apply consume_bind (by decide) _
  intro t t' hsame
  rw [hsame.2]
  exact Looks.agrees (follows_lift _)

theorem parseMaxClientBody_agrees :
    Follows tokenLikeness Agrees parseMaxClientBody parseMaxClientBody := by
  apply consume_bind (by decide) _
  intro t t' hsame
  rw [hsame.2]
  exact Looks.agrees (follows_lift _)

theorem parseTimeout_agrees : Follows tokenLikeness Agrees parseTimeout parseTimeout := by
  apply consume_bind (by decide) _
  intro t t' hsame
  rw [hsame.2]
  exact Looks.agrees (follows_lift _)

theorem cgiEntry_agrees : Follows tokenLikeness Agrees cgiEntry cgiEntry := by
  apply consume_bind (by decide) _
  intro _ _ _
  apply consume_bind (by decide) _
  intro t t' hsame
  rw [hsame.2]
  exact Agrees.bind parsePath_agrees fun _ => agrees_pure _

end Values

section Options

/-- A token that is the whole round. -/
private theorem match_round {type : TokenType} (htype : InertType type) {σ : Type} (s : σ)
    {f : ConfigParser (ForInStep σ)} (hf : Follows tokenLikeness RoundAgrees f f) :
    Follows tokenLikeness RoundAgrees
      (tokenMatch type >>= fun found => if found = true then pure (.yield s) else f)
      (tokenMatch type >>= fun found => if found = true then pure (.yield s) else f) := by
  refine match_bind htype.1 (fun t ht => ?_) hf
  exact Follows.pure ⟨⟨rfl, inert_cons htype ht (fun _ h => by cases h)⟩, fun _ => by simp⟩

private theorem methodsRound_agrees (methods : Methods) :
    Follows tokenLikeness RoundAgrees (methodsRound methods) (methodsRound methods) := by
  apply Looks.bind (follows_check .semicolon)
  intro found
  split
  · exact agrees_done methods
  · refine match_round (by decide) _ (match_round (by decide) _ (match_round (by decide) _ ?_))
    exact Follows.throw _ _

theorem parseMethods_agrees : Closes tokenLikeness Agrees parseMethods parseMethods :=
  agrees_statement _ (agrees_loop methodsRound_agrees _)

private theorem autoIndexOption_agrees :
    Follows tokenLikeness Agrees autoIndexOption autoIndexOption := by
  refine match_bind (by decide) (fun t ht => ?_) ?_
  · exact Follows.pure ⟨rfl, inert_cons (by decide : InertType .on) ht (fun _ h => by cases h)⟩
  · apply Looks.bind (follows_check .off)
    intro found
    split
    · exact consume_bind (by decide) _ fun _ _ _ => agrees_pure _
    · exact Follows.throw _ _

theorem parseAutoIndex_agrees : Closes tokenLikeness Agrees parseAutoIndex parseAutoIndex :=
  agrees_statement _ autoIndexOption_agrees

theorem chunkedOption_agrees : Follows tokenLikeness Agrees chunkedOption chunkedOption := by
  apply peek_bind
  intro t t' hsame
  rw [hsame.1]
  split
  · exact consume_bind (by decide) _ fun _ _ _ => agrees_pure _
  · split
    · exact consume_bind (by decide) _ fun _ _ _ => agrees_pure _
    · exact Follows.throw _ _

end Options

section Index

private theorem indexStart_identifier {t : Token} (ht : t.type = .identifier) (rest : List Token) :
    indexStart (t :: rest) = .ok ((t.lexeme, tokenEnd t), rest) := by
  have hcheck : check .dot (t :: rest) = .ok (false, t :: rest) := by
    rw [check_cons, ht]
    rfl
  rw [indexStart, bind_of_ok _ hcheck, if_neg Bool.false_ne_true,
    bind_of_ok _ (consume_cons (by decide) _ rest ht)]
  rfl

private theorem indexStart_dot {d t : Token} (hd : d.type = .dot) (ht : t.type = .identifier)
    (rest : List Token) :
    indexStart (d :: t :: rest) = .ok ((d.lexeme ++ t.lexeme, tokenEnd t), rest) := by
  have hcheck : check .dot (d :: t :: rest) = .ok (true, d :: t :: rest) := by
    rw [check_cons, hd]
    rfl
  rw [indexStart, bind_of_ok _ hcheck, if_pos rfl,
    bind_of_ok _ (consume_cons (by decide) _ _ hd), bind_of_ok _ (consume_cons (by decide) _ _ ht)]
  rfl

private theorem indexStart_ok {l r : List Token} {s : Bytes × Int}
    (h : indexStart l = .ok (s, r)) :
    (∃ t, l = t :: r ∧ t.type = .identifier ∧ s = (t.lexeme, tokenEnd t)) ∨
      ∃ d t, l = d :: t :: r ∧ d.type = .dot ∧ t.type = .identifier ∧
        s = (d.lexeme ++ t.lexeme, tokenEnd t) := by
  obtain ⟨found, m, hfound, h⟩ := bind_ok_iff.mp h
  cases l with
  | nil => cases hfound
  | cons u rest =>
      rw [check_cons] at hfound
      cases hfound
      split at h
      · obtain ⟨d, m, hd, h⟩ := bind_ok_iff.mp h
        obtain ⟨t, m', ht, h⟩ := bind_ok_iff.mp h
        obtain ⟨rfl, rfl⟩ := pure_ok_iff.mp h
        obtain ⟨heq, hdot⟩ := consume_ok hd
        obtain ⟨rfl, hname⟩ := consume_ok ht
        exact Or.inr ⟨d, t, heq, hdot, hname, rfl⟩
      · obtain ⟨t, m', ht, h⟩ := bind_ok_iff.mp h
        obtain ⟨rfl, rfl⟩ := pure_ok_iff.mp h
        obtain ⟨heq, ht⟩ := consume_ok ht
        exact Or.inl ⟨t, heq, ht, rfl⟩

/-- A file name ends where no dot touches it. -/
private theorem indexPart_stop {s : Bytes × Int} {u : Token} (rest : List Token)
    (h : u.type = .dot → u.column ≠ s.2) : indexPart s (u :: rest) = .ok (.done s, u :: rest) := by
  rw [indexPart, bind_of_ok _ (check_cons .dot u rest)]
  split
  · next hcheck =>
      simp only [Bool.and_eq_true, beq_iff_eq] at hcheck
      rw [bind_of_ok _ (tokenPeek_cons u rest), if_pos (h hcheck.2)]
      rfl
  · rfl

private theorem indexName_of_start {l rest : List Token} {u : Token} {s : Bytes × Int}
    (hstart : indexStart l = .ok (s, u :: rest)) (hstop : u.type = .dot → u.column ≠ s.2) :
    indexName l = .ok (s.1, u :: rest) := by
  have hloop : loop indexPart s (u :: rest) = .ok (s, u :: rest) :=
    loop_done (indexPart_stop rest hstop)
  rw [indexName, bind_of_ok _ hstart, bind_of_ok _ hloop]
  rfl

private theorem separated_pair {c r : List Token} {t u : Token}
    (h : Separated (c ++ [t] ++ u :: r)) (ht : t.type = .identifier) :
    u.type = .dot → u.column ≠ tokenEnd t := by
  rw [List.append_assoc] at h
  exact (List.isChain_cons_cons.mp h.right).1 ht

private theorem indexName_ok {l r : List Token} {a : Bytes} (hsound : Separated l)
    (h : indexName l = .ok (a, r)) : ∃ e, indexStart l = .ok ((a, e), r) ∧ r ≠ [] := by
  obtain ⟨s, m, hstart, hrest⟩ := bind_ok_iff.mp h
  cases m with
  | nil => cases hrest
  | cons u m =>
      have hstop : u.type = .dot → u.column ≠ s.2 := by
        rcases indexStart_ok hstart with ⟨t, rfl, ht, rfl⟩ | ⟨d, t, rfl, _, ht, rfl⟩
        · exact separated_pair (c := []) hsound ht
        · exact separated_pair (c := [d]) hsound ht
      rw [indexName_of_start hstart hstop] at h
      cases h
      exact ⟨s.2, hstart, List.cons_ne_nil _ _⟩

theorem indexName_agrees : Follows tokenLikeness
    (fun c a b => Agrees c a b ∧ c ≠ []) indexName indexName := by
  intro l a r hsound h
  obtain ⟨e, hstart, hne⟩ := indexName_ok hsound h
  obtain ⟨u, rest, rfl⟩ := List.exists_cons_of_ne_nil hne
  rcases indexStart_ok hstart with ⟨t, rfl, ht, hs⟩ | ⟨d, t, rfl, hd, ht, hs⟩
  · refine ⟨[t], rfl, fun c' r' hlen halike => ?_⟩
    obtain ⟨t', rfl⟩ := List.length_eq_one_iff.mp hlen
    cases r' with
    | nil => simpa using halike.same.length_eq
    | cons u' rest' =>
        obtain ⟨hsame, _⟩ := List.forall₂_cons.mp halike.same
        have ht' : t'.type = .identifier := hsame.1 ▸ ht
        have hstop := separated_pair (c := []) halike.separated ht'
        refine ⟨a, ?_, ⟨rfl, inert_cons (by decide) ht fun _ h => by cases h⟩, by simp⟩
        rw [(Prod.mk.inj hs).1, hsame.2]
        exact indexName_of_start (indexStart_identifier ht' _) hstop
  · refine ⟨[d, t], rfl, fun c' r' hlen halike => ?_⟩
    obtain ⟨d', t', rfl⟩ := List.length_eq_two.mp hlen
    cases r' with
    | nil => simpa using halike.same.length_eq
    | cons u' rest' =>
        obtain ⟨hdot, hrest⟩ := List.forall₂_cons.mp halike.same
        obtain ⟨hsame, _⟩ := List.forall₂_cons.mp hrest
        have hd' : d'.type = .dot := hdot.1 ▸ hd
        have ht' : t'.type = .identifier := hsame.1 ▸ ht
        have hstop := separated_pair (c := [d']) halike.separated ht'
        have hinert : ∀ v ∈ [d, t], Inert v :=
          inert_cons (by decide : InertType .dot) hd
            (inert_cons (by decide) ht fun _ h => by cases h)
        refine ⟨a, ?_, ⟨rfl, hinert⟩, by simp⟩
        rw [(Prod.mk.inj hs).1, hdot.2, hsame.2]
        exact indexName_of_start (indexStart_dot hd' ht' _) hstop

private theorem indexRound_agrees (names : List Bytes) :
    Follows tokenLikeness RoundAgrees (indexRound names) (indexRound names) := by
  apply Looks.bind (follows_check .semicolon)
  intro found
  split
  · exact agrees_done names
  · apply Follows.bind tokenLikeness_local indexName_agrees
    rintro c a _ ⟨⟨rfl, hc⟩, hne⟩
    exact Follows.pure ⟨⟨rfl, by simpa using hc⟩, fun _ => by simpa using hne⟩

theorem parseIndex_agrees : Closes tokenLikeness Agrees parseIndex parseIndex :=
  agrees_statement _ (agrees_loop indexRound_agrees _)

end Index

section ErrorPage

private theorem errorCodeRound_other (s : List Bytes × Bytes) {t : Token} (rest : List Token)
    (ht : t.type ≠ .identifier) : errorCodeRound s (t :: rest) = .ok (.done s, t :: rest) := by
  have hcheck : check .identifier (t :: rest) = .ok (false, t :: rest) := by
    rw [check_cons, beq_false_of_ne ht, Bool.and_false]
  rw [errorCodeRound, bind_of_ok _ hcheck]
  rfl

private theorem errorCodeRound_identifier (s : List Bytes × Bytes) {t : Token} (u : Token)
    (rest : List Token) (ht : t.type = .identifier) :
    errorCodeRound s (t :: u :: rest) =
      .ok (if isNumber t && isSpaceBetween t u then .yield (s.1 ++ [t.lexeme], [])
        else .done (s.1, t.lexeme), u :: rest) := by
  have hcheck : check .identifier (t :: u :: rest) = .ok (true, t :: u :: rest) := by
    rw [check_cons, ht]
    rfl
  rw [errorCodeRound, bind_of_ok _ hcheck, if_pos rfl,
    bind_of_ok _ (consume_cons (by decide) _ _ ht), bind_of_ok _ (tokenPeek_cons u rest)]
  cases hspace : isSpaceBetween t u with
  | false =>
      rw [Bool.and_false]
      rfl
  | true =>
      cases hdigits : hasNonDigit t.lexeme <;> simp [isNumber, ht, hdigits] <;> rfl

private theorem errorCodeRound_last {s : List Bytes × Bytes} {t : Token}
    (ht : t.type = .identifier) (x : ForInStep (List Bytes × Bytes)) (r : List Token) :
    errorCodeRound s [t] ≠ .ok (x, r) := by
  have hcheck : check .identifier [t] = .ok (true, [t]) := by
    rw [check_cons, ht]
    rfl
  rw [errorCodeRound, bind_of_ok _ hcheck, if_pos rfl,
    bind_of_ok _ (consume_cons (by decide) _ _ ht)]
  intro h
  cases h

/-- What a run of the loop over the codes does on tokens that are alike. -/
private def RunsAlike (s a : List Bytes × Bytes) (l r : List Token) : Prop :=
  ∃ c, l = c ++ r ∧ (∀ t ∈ c, Inert t) ∧
    ∀ c' r' fuel, c'.length = c.length → c.length < fuel →
      List.Forall₂ SameToken (c ++ r.take 1) (c' ++ r'.take 1) →
      errorCodes (c ++ r.take 1) = errorCodes (c' ++ r'.take 1) →
      loopFrom .outOfFuel errorCodeRound fuel s (c' ++ r') = .ok (a, r')

private theorem head_of_append {d r y : List Token} {u : Token} (h : d ++ r = u :: y) :
    ∃ x, d ++ r.take 1 = u :: x := by
  cases d with
  | nil =>
      rw [List.nil_append] at h
      exact ⟨[], by rw [h]; rfl⟩
  | cons v d => exact ⟨d ++ r.take 1, by rw [← (List.cons.inj h).1]; rfl⟩

/-- An identifier that is no code ends the loop. -/
private theorem errorCodes_stop (s : List Bytes × Bytes) {t u : Token} (rest : List Token)
    (ht : t.type = .identifier) (hcode : (isNumber t && isSpaceBetween t u) = false) :
    RunsAlike s (s.1, t.lexeme) (t :: u :: rest) (u :: rest) := by
  refine ⟨[t], rfl, inert_cons (by decide) ht (fun _ h => by cases h), ?_⟩
  intro c' r' fuel hlen hfuel hsame hcodes
  obtain ⟨t', rfl⟩ := List.length_eq_one_iff.mp hlen
  obtain ⟨fuel, rfl⟩ : ∃ less, fuel = less + 1 := ⟨fuel - 1, by omega⟩
  cases r' with
  | nil => simpa using hsame.length_eq
  | cons u' rest' =>
      obtain ⟨htoken, _⟩ := List.forall₂_cons.mp hsame
      have hcode' : (isNumber t' && isSpaceBetween t' u') = false := by
        simpa [errorCodes, hcode] using hcodes
      have hround := errorCodeRound_identifier s u' rest' (htoken.1 ▸ ht : t'.type = .identifier)
      rw [hcode', ← htoken.2] at hround
      rw [List.singleton_append, loopFrom, bind_of_ok _ hround]
      rfl

private theorem errorCodes_code (s : List Bytes × Bytes) {a : List Bytes × Bytes} {t u : Token}
    {rest r : List Token} (ht : t.type = .identifier)
    (hcode : (isNumber t && isSpaceBetween t u) = true)
    (hrun : RunsAlike (s.1 ++ [t.lexeme], []) a (u :: rest) r) :
    RunsAlike s a (t :: u :: rest) r := by
  obtain ⟨d, hd, hinert, hloop⟩ := hrun
  refine ⟨t :: d, by rw [hd]; rfl, inert_cons (by decide) ht hinert, ?_⟩
  intro c' r' fuel hlen hfuel hsame hcodes
  obtain ⟨fuel, rfl⟩ : ∃ less, fuel = less + 1 := ⟨fuel - 1, by omega⟩
  cases c' with
  | nil => cases hlen
  | cons t' d' =>
      obtain ⟨htoken, hrest⟩ := List.forall₂_cons.mp hsame
      obtain ⟨x, hx⟩ := head_of_append hd.symm
      obtain ⟨u', y', hd'⟩ : ∃ u' y', d' ++ r' = u' :: y' := by
        have hpos : 0 < (d' ++ r'.take 1).length := by
          have hlength : (d ++ r.take 1).length = (d' ++ r'.take 1).length := hrest.length_eq
          rw [hx, List.length_cons] at hlength
          omega
        refine List.exists_cons_of_ne_nil (List.length_pos_iff.mp ?_)
        rw [List.length_append, List.length_take] at hpos
        rw [List.length_append]
        omega
      obtain ⟨x', hx'⟩ := head_of_append hd'
      simp only [List.cons_append, hx, hx', errorCodes, hcode, if_true] at hcodes
      have ht' : t'.type = .identifier := htoken.1 ▸ ht
      have hround := errorCodeRound_identifier s u' y' ht'
      cases hcode' : isNumber t' && isSpaceBetween t' u' with
      | false => simp [hcode'] at hcodes
      | true =>
          rw [hcode', if_pos rfl] at hcodes
          rw [hcode', if_pos rfl, ← htoken.2] at hround
          rw [List.cons_append, hd', loopFrom, bind_of_ok _ hround]
          change loopFrom .outOfFuel errorCodeRound fuel _ _ = _
          rw [← hd']
          apply hloop d' r' fuel (by simpa using hlen) (by simpa using hfuel) hrest
          rw [hx, hx']
          exact Nat.succ.inj hcodes

private theorem errorCodes_run (fuel : Nat) (l : List Token) (s a : List Bytes × Bytes)
    (r : List Token) (h : loopFrom .outOfFuel errorCodeRound fuel s l = .ok (a, r)) :
    RunsAlike s a l r := by
  induction fuel generalizing l s with
  | zero => cases h
  | succ fuel ih =>
      obtain ⟨step, m, hstep, hrest⟩ := bind_ok_iff.mp h
      cases l with
      | nil => cases hstep
      | cons t rest =>
          by_cases ht : t.type = .identifier
          · cases rest with
            | nil => exact absurd hstep (errorCodeRound_last ht step m)
            | cons u rest =>
                rw [errorCodeRound_identifier s u rest ht] at hstep
                cases hstep
                cases hcode : isNumber t && isSpaceBetween t u with
                | false =>
                    rw [hcode] at hrest
                    obtain ⟨rfl, rfl⟩ := pure_ok_iff.mp hrest
                    exact errorCodes_stop s rest ht hcode
                | true =>
                    rw [hcode] at hrest
                    exact errorCodes_code s ht hcode (ih (u :: rest) _ hrest)
          · rw [errorCodeRound_other s rest ht] at hstep
            cases hstep
            obtain ⟨rfl, rfl⟩ := pure_ok_iff.mp hrest
            refine ⟨[], rfl, fun _ h => (by cases h), fun c' r' fuel' hlen hfuel hsame _ => ?_⟩
            obtain rfl := List.length_eq_zero_iff.mp hlen
            obtain ⟨fuel', rfl⟩ : ∃ less, fuel' = less + 1 := ⟨fuel' - 1, by omega⟩
            cases r' with
            | nil => cases hsame
            | cons t' rest' =>
                have ht' : t'.type ≠ .identifier := by
                  rw [← (List.forall₂_cons.mp hsame).1.1]
                  exact ht
                rw [List.nil_append, loopFrom, bind_of_ok _ (errorCodeRound_other s rest' ht')]
                rfl

/-- The codes of an `error_page` directive, behind its first token. -/
theorem errorCodes_agrees (s : List Bytes × Bytes) :
    Follows pageLikeness Agrees (loop errorCodeRound s) (loop errorCodeRound s) := by
  intro l a r _ h
  obtain ⟨c, rfl, hinert, hrun⟩ := errorCodes_run _ l s a r h
  refine ⟨c, rfl, fun c' r' hlen halike => ⟨a, ?_, rfl, hinert⟩⟩
  refine hrun c' r' _ hlen ?_ halike.1.same halike.2
  rw [List.length_append]
  omega

theorem parseErrorPage_agrees : Closes pageLikeness Agrees parseErrorPage parseErrorPage := by
  have hvalue : Follows pageLikeness Agrees
      (loop errorCodeRound ([], []) >>= errorPath) (loop errorCodeRound ([], []) >>= errorPath) := by
    refine Follows.bind_leads (M := fun _ => tokenLikeness) pageLikeness_initial
      (errorCodes_agrees ([], [])) (fun c _ _ _ => pageLikeness_leads c) ?_
    rintro c s _ ⟨rfl, hc⟩
    have hpath : Follows tokenLikeness Agrees (errorPath s) (errorPath s) :=
      Agrees.bind parsePath_agrees fun path => Looks.agrees (follows_lift _)
    exact hpath.mono (fun d x y h => ⟨h.1, inert_append hc h.2⟩)
  exact (closes_statement _ pageLikeness_initial pageLikeness_leads hvalue
    (fun _ _ _ _ h ht => ⟨h.1, inert_semicolon h.2 ht⟩)).mono (fun _ _ _ h => h.1)

end ErrorPage

section Return

/-- What follows a `return` that has a status code and no path. -/
def isCodeOnly : List Token → Bool
  | t :: u :: _ => isNumber t && u.type == .semicolon
  | _ => false

/-- What follows a `return` that has a status code and a path. -/
def isCodeAndPath (l : List Token) : Bool := l.head?.any isNumber && !isCodeOnly l

/-- What follows a `return` that has no status code. -/
def isPathOnly (l : List Token) : Bool := l.head?.any (fun t => hasNonDigit t.lexeme)

/-- The text up to the semicolon. -/
def statementText (l : List Token) : Bytes :=
  (l.takeWhile (fun t => t.type != .semicolon)).flatMap (·.lexeme)

/-- The path behind a `return`. -/
def returnText (l : List Token) : Bytes :=
  if isCodeAndPath l = true then statementText l.tail else statementText l

/-- The value of a `return` without a path. -/
private def codeValue (path : Bytes) : ConfigParser (Bytes × Int) := do
  let token ← consume .identifier "expected a status code"
  pure (path, toInt (atol token.lexeme))

private def codeAndPathValue : ConfigParser (Bytes × Int) := do
  let token ← consume .identifier "expected a status code"
  let path ← parsePath
  pure (path, toInt (atol token.lexeme))

private def pathValue (code : Int) : ConfigParser (Bytes × Int) := do
  let path ← parsePath
  pure (path, code)

theorem isCodeOnly_same {l l' : List Token} (h : List.Forall₂ SameToken l l') :
    isCodeOnly l = isCodeOnly l' := by
  rcases h with _ | ⟨ht, _ | ⟨hu, _⟩⟩
  · rfl
  · rfl
  · rw [isCodeOnly, isCodeOnly, isNumber, isNumber, ht.1, ht.2, hu.1]

/-- Only the statement counts. -/
theorem isCodeOnly_statement {c : List Token} (hc : EndsStatement c) (rest : List Token) :
    isCodeOnly (c ++ rest) = isCodeOnly c := by
  obtain ⟨d, t, rfl, ht⟩ := hc
  rcases d with _ | ⟨u, _ | ⟨v, d⟩⟩
  · rcases rest with _ | ⟨v, rest⟩
    · rfl
    · simp [isCodeOnly, isNumber, ht]
  · rfl
  · rfl

theorem EndsStatement.same {c c' : List Token} (hc : EndsStatement c)
    (h : List.Forall₂ SameToken c c') : EndsStatement c' := by
  obtain ⟨d, t, rfl, ht⟩ := hc
  rw [← List.take_append_drop d.length c'] at h ⊢
  have hlen : (c'.take d.length).length = d.length := by
    have hlength := h.length_eq
    rw [List.take_append_drop, List.length_append] at hlength
    rw [List.length_take]
    omega
  obtain ⟨t', u, hsame, hnil, heq⟩ := List.forall₂_cons_left_iff.mp (forall₂_split hlen h).2
  rw [heq, List.forall₂_nil_left_iff.mp hnil]
  exact ⟨_, t', rfl, hsame.1 ▸ ht⟩

private theorem returnValue_code {path : Bytes} {code : Int} {l : List Token}
    (h : isCodeOnly l = true) : returnValue path code l = codeValue path l := by
  rcases l with _ | ⟨t, _ | ⟨u, rest⟩⟩
  · cases h
  · cases h
  · simp only [isCodeOnly, isNumber, Bool.and_eq_true, beq_iff_eq, Bool.not_eq_true'] at h
    obtain ⟨⟨ht, hdigits⟩, hu⟩ := h
    have hconsume := consume_cons (by decide) "expected a status code" (u :: rest) ht
    have hcode : returnCodeOf (hasNonDigit t.lexeme) code (t :: u :: rest) =
        .ok (toInt (atol t.lexeme), u :: rest) := by
      rw [hdigits, returnCodeOf, if_neg Bool.false_ne_true, bind_of_ok _ hconsume]
      rfl
    have hcheck : check .semicolon (u :: rest) = .ok (true, u :: rest) := by
      rw [check_cons, hu]
      rfl
    have hpath : returnPathOf (hasNonDigit t.lexeme) path (u :: rest) = .ok (path, u :: rest) := by
      rw [hdigits, returnPathOf, if_neg Bool.false_ne_true, bind_of_ok _ hcheck]
      rfl
    rw [returnValue, bind_of_ok _ (tokenPeek_cons t _), bind_of_ok _ hcode, bind_of_ok _ hpath,
      codeValue, bind_of_ok _ hconsume]

private theorem returnValue_codeAndPath {path : Bytes} {code : Int} {l : List Token}
    (h : isCodeAndPath l = true) : returnValue path code l = codeAndPathValue l := by
  cases l with
  | nil => cases h
  | cons t rest =>
      simp only [isCodeAndPath, List.head?_cons, Option.any_some, Bool.and_eq_true,
        Bool.not_eq_true'] at h
      obtain ⟨hnumber, hcode⟩ := h
      have ⟨ht, hdigits⟩ : t.type = .identifier ∧ hasNonDigit t.lexeme = false := by
        simpa [isNumber] using hnumber
      have hconsume := consume_cons (by decide) "expected a status code" rest ht
      have hfirst : returnCodeOf (hasNonDigit t.lexeme) code (t :: rest) =
          .ok (toInt (atol t.lexeme), rest) := by
        rw [hdigits, returnCodeOf, if_neg Bool.false_ne_true, bind_of_ok _ hconsume]
        rfl
      rw [returnValue, bind_of_ok _ (tokenPeek_cons t _), bind_of_ok _ hfirst, codeAndPathValue,
        bind_of_ok _ hconsume]
      apply bind_congr_at _
      rw [hdigits]
      cases rest with
      | nil => rfl
      | cons u rest =>
          have hu : (u.type == .semicolon) = false := by
            simpa [isCodeOnly, hnumber] using hcode
          have hcheck : check .semicolon (u :: rest) = .ok (false, u :: rest) := by
            rw [check_cons, hu, Bool.and_false]
          rw [returnPathOf, if_neg Bool.false_ne_true, bind_of_ok _ hcheck]
          rfl

private theorem returnValue_path {path : Bytes} {code : Int} {l : List Token}
    (h : isPathOnly l = true) : returnValue path code l = pathValue code l := by
  cases l with
  | nil => cases h
  | cons t rest =>
      have hdigits : hasNonDigit t.lexeme = true := h
      rw [returnValue, bind_of_ok _ (tokenPeek_cons t _), hdigits]
      rfl

/-- The three forms of the statement. -/
private theorem returnValue_ok {path : Bytes} {code : Int} {l r : List Token} {x : Bytes × Int}
    (h : returnValue path code l = .ok (x, r)) :
    isCodeOnly l = true ∨ isCodeAndPath l = true ∨ isPathOnly l = true := by
  cases l with
  | nil => cases h
  | cons t rest =>
      cases hdigits : hasNonDigit t.lexeme with
      | true => exact Or.inr (Or.inr hdigits)
      | false =>
          rw [returnValue, bind_of_ok _ (tokenPeek_cons t _), hdigits] at h
          obtain ⟨number, m, hnumber, _⟩ := bind_ok_iff.mp h
          obtain ⟨token, m', hconsume, _⟩ := bind_ok_iff.mp hnumber
          obtain ⟨heq, ht⟩ := consume_ok hconsume
          rw [← (List.cons.inj heq).1] at ht
          cases hcode : isCodeOnly (t :: rest) with
          | true => exact Or.inl rfl
          | false => exact Or.inr (Or.inl (by simp [isCodeAndPath, isNumber, ht, hdigits, hcode]))

/-- What two runs of `parseReturn` leave: the same status code, and the path of
the statement or each its own from before. -/
def ReturnRelated (path path' : Bytes) (c : List Token) (x x' : Bytes × Int) : Prop :=
  x.2 = x'.2 ∧ (∀ t ∈ c, Inert t) ∧ EndsStatement c ∧
    if isCodeOnly c = true then x.1 = path ∧ x'.1 = path'
    else x.1 = x'.1 ∧ ∀ rest, x.1 = returnText (c ++ rest)

private theorem codeValue_related (path path' : Bytes) :
    Follows tokenLikeness
      (fun c x x' => (∀ t ∈ c, Inert t) ∧ x.2 = x'.2 ∧ x.1 = path ∧ x'.1 = path')
      (codeValue path) (codeValue path') := by
  apply (follows_consume (by decide) _).bind_pure
  rintro c t t' ⟨hsame, rfl, ht⟩
  exact ⟨inert_cons (by decide) ht (fun _ h => by cases h), by rw [hsame.2], rfl, rfl⟩

/-- The tokens `c` in front of a semicolon. -/
private theorem statementText_append {c : List Token} {t : Token} {a : Bytes}
    (hc : PathText c a) (ht : t.type = .semicolon) (rest : List Token) :
    statementText (c ++ t :: rest) = a := by
  have hpass : ∀ u ∈ c, (u.type != .semicolon) = true := fun u hu => by simpa using (hc.1 u hu).2
  rw [statementText, List.takeWhile_append_of_pos hpass, List.takeWhile_cons_of_neg (by simp [ht]),
    List.append_nil, hc.2]

private theorem codeAndPathValue_related :
    Follows tokenLikeness
      (fun c x x' => x = x' ∧ ∃ t d, c = t :: d ∧ t.type = .identifier ∧ PathText d x.1)
      codeAndPathValue codeAndPathValue := by
  apply Follows.bind tokenLikeness_local (follows_consume (by decide) _)
  rintro _ t t' ⟨hsame, rfl, ht⟩
  apply parsePath_text.bind_pure
  rintro d a _ ⟨rfl, hd⟩
  exact ⟨by rw [hsame.2], t, d, rfl, ht, hd⟩

private theorem pathValue_related (code : Int) :
    Follows tokenLikeness (fun c x x' => x = x' ∧ PathText c x.1)
      (pathValue code) (pathValue code) := by
  apply parsePath_text.bind_pure
  rintro c a _ ⟨rfl, hc⟩
  exact ⟨rfl, hc⟩

/-- A form of the statement, told from its first two tokens, and what stands for
`returnValue` there. -/
private theorem parseReturn_form {path path' : Bytes} {code : Int} (form : List Token → Bool)
    (hform : ∀ {c}, EndsStatement c → ∀ rest, form (c ++ rest) = form c)
    (hsame : ∀ {l l'}, List.Forall₂ SameToken l l' → form l = form l')
    {value value' : ConfigParser (Bytes × Int)}
    (hvalue : ∀ l, form l = true → returnValue path code l = value l)
    (hvalue' : ∀ l, form l = true → returnValue path' code l = value' l)
    {V : List Token → Bytes × Int → Bytes × Int → Prop}
    (hfollows : Follows tokenLikeness V value value')
    (hend : ∀ c t x x', V c x x' → t.type = .semicolon → form (c ++ [t]) = true →
      ReturnRelated path path' (c ++ [t]) x x')
    {l r : List Token} {x : Bytes × Int} (hl : form l = true) (hsound : Separated l)
    (h : parseReturn path code l = .ok (x, r)) :
    ∃ c, l = c ++ r ∧ c ≠ [] ∧ ∀ c' r', c'.length = c.length → AlikeTokens c c' →
      ∃ x', parseReturn path' code (c' ++ r') = .ok (x', r') ∧ ReturnRelated path path' c x x' := by
  have hcloses : Closes tokenLikeness (fun c x x' => ∃ d t, c = d ++ [t] ∧ t.type = .semicolon ∧
      V d x x') (statement endOfStatement value) (statement endOfStatement value') := by
    apply Closes.bind tokenLikeness_local hfollows
    intro d a b hV
    apply (@closes_consume .semicolon (by decide) _).bind_pure
    rintro _ t t' ⟨_, rfl, ht⟩
    exact ⟨d, t, rfl, ht, hV⟩
  have hstatement : parseReturn path code l = statement endOfStatement value l :=
    bind_congr_at _ (hvalue l hl)
  rw [hstatement] at h
  obtain ⟨c, rfl, hne, hq⟩ := hcloses l x r hsound h
  obtain ⟨_, d, t, rfl, ht, _⟩ := Closes.self tokenLikeness_local.toInitial hcloses hsound h
  have hends : EndsStatement (d ++ [t]) := ⟨d, t, rfl, ht⟩
  rw [hform hends] at hl
  refine ⟨d ++ [t], rfl, hne, fun c' r' hlen halike => ?_⟩
  obtain ⟨x', hx', e, u, heq, hu, hV⟩ := hq c' r' hlen halike
  obtain ⟨rfl, hlast⟩ := List.append_inj' heq rfl
  obtain rfl := (List.cons.inj hlast).1
  have hl' : form (c' ++ r') = true := by
    rw [hform (hends.same halike.same), ← hsame halike.same, hl]
  refine ⟨x', ?_, hend d t x x' hV ht hl⟩
  rw [show parseReturn path' code (c' ++ r') = statement endOfStatement value' (c' ++ r') from
    bind_congr_at _ (hvalue' _ hl')]
  exact hx'

private theorem head_same {l l' : List Token} (h : List.Forall₂ SameToken l l')
    {p : Token → Bool} (hp : ∀ {t t'}, SameToken t t' → p t = p t') :
    l.head?.any p = l'.head?.any p := by
  rcases h with _ | ⟨ht, _⟩
  · rfl
  · exact hp ht

private theorem head_statement {c : List Token} (hc : EndsStatement c) (p : Token → Bool)
    (rest : List Token) : (c ++ rest).head?.any p = c.head?.any p := by
  obtain ⟨d, t, rfl, _⟩ := hc
  cases d <;> rfl

private theorem isNumber_same {t t' : Token} (h : SameToken t t') : isNumber t = isNumber t' := by
  rw [isNumber, isNumber, h.1, h.2]

theorem parseReturn_related (path path' : Bytes) (code : Int) :
    Closes tokenLikeness (ReturnRelated path path') (parseReturn path code)
      (parseReturn path' code) := by
  intro l x r hsound h
  obtain ⟨_, _, hvalue, _⟩ := bind_ok_iff.mp h
  rcases returnValue_ok hvalue with hl | hl | hl
  · refine parseReturn_form isCodeOnly isCodeOnly_statement isCodeOnly_same
      (fun _ => returnValue_code) (fun _ => returnValue_code) (codeValue_related path path') ?_
      hl hsound h
    rintro c t x x' ⟨hinert, hcode, hpath, hpath'⟩ ht hform
    refine ⟨hcode, inert_semicolon hinert ht, ⟨c, t, rfl, ht⟩, ?_⟩
    rw [if_pos hform]
    exact ⟨hpath, hpath'⟩
  · refine parseReturn_form isCodeAndPath ?_ ?_ (fun _ => returnValue_codeAndPath)
      (fun _ => returnValue_codeAndPath) codeAndPathValue_related ?_ hl hsound h
    · intro c hc rest
      rw [isCodeAndPath, isCodeAndPath, head_statement hc, isCodeOnly_statement hc]
    · intro l l' hsame
      rw [isCodeAndPath, isCodeAndPath, head_same hsame isNumber_same, isCodeOnly_same hsame]
    · rintro _ t x _ ⟨rfl, u, d, rfl, hu, hd⟩ ht hform
      have hinert : ∀ v ∈ u :: d, Inert v := inert_cons (by decide) hu fun v hv => (hd.1 v hv).1
      have hends : EndsStatement (u :: d ++ [t]) := ⟨u :: d, t, rfl, ht⟩
      refine ⟨rfl, inert_semicolon hinert ht, hends, ?_⟩
      rw [if_neg (by rw [isCodeAndPath, Bool.and_eq_true] at hform; simpa using hform.2)]
      refine ⟨rfl, fun rest => ?_⟩
      have hwhole : isCodeAndPath (u :: d ++ [t] ++ rest) = true := by
        rw [isCodeAndPath, head_statement hends, isCodeOnly_statement hends, ← isCodeAndPath, hform]
      rw [returnText, if_pos hwhole, List.append_assoc]
      exact (statementText_append hd ht rest).symm
  · refine parseReturn_form isPathOnly ?_ ?_ (fun _ => returnValue_path)
      (fun _ => returnValue_path) (pathValue_related code) ?_ hl hsound h
    · intro c hc rest
      exact head_statement hc _ rest
    · intro l l' hsame
      exact head_same hsame fun ht => by rw [ht.2]
    · rintro c t x _ ⟨rfl, hc⟩ ht hform
      have hends : EndsStatement (c ++ [t]) := ⟨c, t, rfl, ht⟩
      have hnumber : ∀ rest, (c ++ [t] ++ rest).head?.any isNumber = false := by
        intro rest
        rw [head_statement hends]
        cases hhead : (c ++ [t]).head? with
        | none => rfl
        | some v =>
            rw [isPathOnly, hhead] at hform
            rw [Option.any_some] at hform ⊢
            simp [isNumber, hform]
      refine ⟨rfl, inert_semicolon (fun v hv => (hc.1 v hv).1) ht, hends, ?_⟩
      rw [if_neg ?_]
      · refine ⟨rfl, fun rest => ?_⟩
        have hwhole : isCodeAndPath (c ++ [t] ++ rest) = false := by
          rw [isCodeAndPath, hnumber rest, Bool.false_and]
        rw [returnText, if_neg (hwhole ▸ Bool.false_ne_true), List.append_assoc]
        exact (statementText_append hc ht rest).symm
      · have hfirst := hnumber []
        rw [List.append_nil] at hfirst
        intro hcode
        rcases hct : c ++ [t] with _ | ⟨v, _ | ⟨w, rest⟩⟩
        · rw [hct] at hcode
          cases hcode
        · rw [hct] at hcode
          cases hcode
        · rw [hct] at hcode hfirst
          rw [List.head?_cons, Option.any_some] at hfirst
          simp [isCodeOnly, hfirst] at hcode

end Return

end ConfigParser

end FortyTwo.Webserv
