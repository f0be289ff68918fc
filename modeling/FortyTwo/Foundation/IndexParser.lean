import FortyTwo.Foundation.TokenParser

/-!
Parsers that read a list of tokens through an index into it, and what it means that
one is written like a parser that is given the tokens that are left. Where the two
take the same steps, so do the parsers that are put together from them, and the
index stays inside the list.
-/

namespace FortyTwo.Foundation

variable {τ ε α β σ : Type}

/-- A parser: the state is an index into the tokens. -/
abbrev IndexParser (τ ε α : Type) := ReaderT (List τ) (StateT Nat (Except ε)) α

namespace IndexParser

/-- `TokenParser.loopFrom` over an index. -/
def loopFrom (outOfFuel : ε) (body : σ → IndexParser τ ε (ForInStep σ)) :
    Nat → σ → IndexParser τ ε σ
  | 0, _ => throw outOfFuel
  | fuel + 1, s => do
      match ← body s with
      | .done s => pure s
      | .yield s => loopFrom outOfFuel body fuel s

/-- A loop: one round for each token that is left, and one more to leave it. -/
def loop (outOfFuel : ε) (body : σ → IndexParser τ ε (ForInStep σ)) (s : σ) :
    IndexParser τ ε σ :=
  fun tokens i => loopFrom outOfFuel body (tokens.length - i + 1) s tokens i

/-- A computation that reads no token. -/
def lift (x : Except ε α) : IndexParser τ ε α := fun _ i => x.map (fun a => (a, i))

/-- What is known of a round of a loop, behind the tokens `c`: it has read something if
it goes on. -/
def StepTo (J W : σ → List τ → Prop) (c : List τ) : ForInStep σ → List τ → Prop
  | .yield s, d => d ≠ [] ∧ J s (c ++ d)
  | .done s, d => W s (c ++ d)

/-- At every index inside the tokens, `q` does what `p` does with the tokens from there
on: both stop with the same error, or both return the same and have read the same
tokens `c`, and the index is inside again. -/
def InStep (Valid : List τ → Prop) (Stops : ε → Prop) (q : IndexParser τ ε α)
    (p : TokenParser τ ε α) (V : α → List τ → Prop) : Prop :=
  ∀ tokens i, Valid tokens → i < tokens.length →
    (∃ e, Stops e ∧ q tokens i = .error e ∧ p (tokens.drop i) = .error e) ∨
    ∃ a c, V a c ∧ i + c.length < tokens.length ∧
      tokens.drop i = c ++ tokens.drop (i + c.length) ∧ q tokens i = .ok (a, i + c.length) ∧
      p (tokens.drop i) = .ok (a, tokens.drop (i + c.length))

/-- `q` is put together from its primitive parts as `p` is from the parts of which
they are the counterparts; `V` is what is known of the result and of the tokens that
have been read. -/
inductive Written (Prim : ∀ α : Type, IndexParser τ ε α → TokenParser τ ε α →
    (α → List τ → Prop) → Prop) (Stops : ε → Prop) (outOfFuel : ε) :
    ∀ {α : Type}, IndexParser τ ε α → TokenParser τ ε α → (α → List τ → Prop) → Prop
  | prim {α : Type} {q : IndexParser τ ε α} {p : TokenParser τ ε α} {V : α → List τ → Prop} :
      Prim α q p V → Written Prim Stops outOfFuel q p V
  | lift {α : Type} {x : Except ε α} : (∀ e, x = .error e → Stops e) →
      Written Prim Stops outOfFuel (lift x) (TokenParser.lift x) fun a c => x = .ok a ∧ c = []
  | bind {α β : Type} {q : IndexParser τ ε α} {p : TokenParser τ ε α} {V : α → List τ → Prop}
      {g : α → IndexParser τ ε β} {f : α → TokenParser τ ε β} {W : β → List τ → Prop} :
      Written Prim Stops outOfFuel q p V →
      (∀ a c, V a c → Written Prim Stops outOfFuel (g a) (f a) fun b d => W b (c ++ d)) →
      Written Prim Stops outOfFuel (q >>= g) (p >>= f) W
  | loop {σ : Type} {q : σ → IndexParser τ ε (ForInStep σ)}
      {p : σ → TokenParser τ ε (ForInStep σ)} {s : σ} {J W : σ → List τ → Prop} :
      (∀ s c, J s c → Written Prim Stops outOfFuel (q s) (p s) (StepTo J W c)) → J s [] →
      Written Prim Stops outOfFuel (loop outOfFuel q s) (TokenParser.loop outOfFuel p s) W
  | mono {α : Type} {q : IndexParser τ ε α} {p : TokenParser τ ε α} {V W : α → List τ → Prop} :
      Written Prim Stops outOfFuel q p V → (∀ a c, V a c → W a c) →
      Written Prim Stops outOfFuel q p W

section InStep

variable {Valid : List τ → Prop} {Stops : ε → Prop} {outOfFuel : ε}

theorem inStep_lift {x : Except ε α} (h : ∀ e, x = .error e → Stops e) :
    InStep Valid Stops (lift x) (TokenParser.lift x) fun a c => x = .ok a ∧ c = [] := by
  intro tokens i _ hi
  cases x with
  | error e => exact Or.inl ⟨e, h e rfl, rfl, rfl⟩
  | ok a => exact Or.inr ⟨a, [], ⟨rfl, rfl⟩, hi, rfl, rfl, rfl⟩

theorem InStep.mono {q : IndexParser τ ε α} {p : TokenParser τ ε α} {V W : α → List τ → Prop}
    (h : InStep Valid Stops q p V) (hVW : ∀ a c, V a c → W a c) : InStep Valid Stops q p W := by
  intro tokens i htokens hi
  rcases h tokens i htokens hi with hstop | ⟨a, c, hV, hrest⟩
  · exact Or.inl hstop
  · exact Or.inr ⟨a, c, hVW a c hV, hrest⟩

theorem InStep.bind {q : IndexParser τ ε α} {p : TokenParser τ ε α} {V : α → List τ → Prop}
    {g : α → IndexParser τ ε β} {f : α → TokenParser τ ε β} {W : β → List τ → Prop}
    (hq : InStep Valid Stops q p V)
    (hg : ∀ a c, V a c → InStep Valid Stops (g a) (f a) fun b d => W b (c ++ d)) :
    InStep Valid Stops (q >>= g) (p >>= f) W := by
  intro tokens i htokens hi
  rcases hq tokens i htokens hi with ⟨e, he, hqe, hpe⟩ | ⟨a, c, hV, hc, hread, hqa, hpa⟩
  · refine Or.inl ⟨e, he, ?_, ?_⟩
    · change (q tokens i >>= fun x => g x.1 tokens x.2) = _
      rw [hqe]
      rfl
    · change (p (tokens.drop i) >>= fun x => f x.1 x.2) = _
      rw [hpe]
      rfl
  · have hfirst : (q >>= g) tokens i = g a tokens (i + c.length) := by
      change (q tokens i >>= fun x => g x.1 tokens x.2) = _
      rw [hqa]
      rfl
    have hsecond : (p >>= f) (tokens.drop i) = f a (tokens.drop (i + c.length)) :=
      TokenParser.bind_of_ok f hpa
    rw [hfirst, hsecond]
    rcases hg a c hV tokens (i + c.length) htokens hc with hstop | ⟨b, d, hW, hd, hmore, hgb, hfb⟩
    · exact Or.inl hstop
    · rw [Nat.add_assoc, ← List.length_append] at hd hmore hgb hfb
      refine Or.inr ⟨b, c ++ d, hW, hd, ?_, hgb, hfb⟩
      rw [hread, hmore, List.append_assoc]

/-- Every round that goes on moves the index, so the rounds suffice. -/
theorem InStep.loop {q : σ → IndexParser τ ε (ForInStep σ)}
    {p : σ → TokenParser τ ε (ForInStep σ)} {s : σ} {J W : σ → List τ → Prop}
    (h : ∀ s c, J s c → InStep Valid Stops (q s) (p s) (StepTo J W c)) (hs : J s []) :
    InStep Valid Stops (loop outOfFuel q s) (TokenParser.loop outOfFuel p s) W := by
  have key : ∀ fuel s c tokens i, J s c → Valid tokens → i < tokens.length →
      tokens.length - i < fuel →
      (∃ e, Stops e ∧ loopFrom outOfFuel q fuel s tokens i = .error e ∧
        TokenParser.loopFrom outOfFuel p fuel s (tokens.drop i) = .error e) ∨
      ∃ a d, W a (c ++ d) ∧ i + d.length < tokens.length ∧
        tokens.drop i = d ++ tokens.drop (i + d.length) ∧
        loopFrom outOfFuel q fuel s tokens i = .ok (a, i + d.length) ∧
        TokenParser.loopFrom outOfFuel p fuel s (tokens.drop i) =
          .ok (a, tokens.drop (i + d.length)) := by
    intro fuel
    induction fuel with
    | zero =>
        intro s c tokens i _ _ _ hfuel
        omega
    | succ fuel ih =>
        intro s c tokens i hJ htokens hi hfuel
        rcases h s c hJ tokens i htokens hi with
          ⟨e, he, hqe, hpe⟩ | ⟨step, d, hstep, hd, hread, hqs, hps⟩
        · refine Or.inl ⟨e, he, ?_, ?_⟩
          · change (q s tokens i >>= _) = _
            rw [hqe]
            rfl
          · change (p s (tokens.drop i) >>= _) = _
            rw [hpe]
            rfl
        · have hindex : ∀ k, (q s >>= k : IndexParser τ ε σ) tokens i =
              k step tokens (i + d.length) := by
            intro k
            change (q s tokens i >>= fun x => k x.1 tokens x.2) = _
            rw [hqs]
            rfl
          rw [loopFrom, TokenParser.loopFrom, hindex, TokenParser.bind_of_ok _ hps]
          cases step with
          | done s' => exact Or.inr ⟨s', d, hstep, hd, hread, rfl, rfl⟩
          | yield s' =>
              have hpos := List.length_pos_iff.mpr hstep.1
              rcases ih s' (c ++ d) tokens (i + d.length) hstep.2 htokens hd (by omega) with
                hstop | ⟨a, e, hW, he, hmore, hrun⟩
              · exact Or.inl hstop
              · rw [Nat.add_assoc, ← List.length_append] at he hmore hrun
                refine Or.inr ⟨a, d ++ e, ?_, he, ?_, hrun⟩
                · rwa [← List.append_assoc]
                · rw [hread, hmore, List.append_assoc]
  intro tokens i htokens hi
  have hlength : (tokens.drop i).length = tokens.length - i := List.length_drop
  rw [TokenParser.loop, hlength]
  exact key _ s [] tokens i hs htokens hi (Nat.lt_succ_self _)

variable {Prim : ∀ α : Type, IndexParser τ ε α → TokenParser τ ε α → (α → List τ → Prop) → Prop}

/-- What is put together from parts that take the same steps takes the same steps. -/
theorem Written.inStep {q : IndexParser τ ε α} {p : TokenParser τ ε α} {V : α → List τ → Prop}
    (h : Written Prim Stops outOfFuel q p V)
    (hprim : ∀ α q p V, Prim α q p V → InStep Valid Stops q p V) : InStep Valid Stops q p V := by
  induction h with
  | prim hq => exact hprim _ _ _ _ hq
  | lift hx => exact inStep_lift hx
  | bind _ _ ihq ihg => exact ihq.bind ihg
  | loop _ hs ih => exact InStep.loop ih hs
  | mono _ hVW ih => exact ih.mono hVW

end InStep

section Writable

variable (Prim : ∀ α : Type, IndexParser τ ε α → TokenParser τ ε α → (α → List τ → Prop) → Prop)
  (Stops : ε → Prop) (outOfFuel : ε)

/-- There is a parser over an index that is written like `p`. -/
def Writable (p : TokenParser τ ε α) (V : α → List τ → Prop) : Prop :=
  ∃ q, Written Prim Stops outOfFuel q p V

variable {Prim Stops outOfFuel} {p : TokenParser τ ε α} {V W : α → List τ → Prop}

theorem Writable.mono (h : Writable Prim Stops outOfFuel p V) (hVW : ∀ a c, V a c → W a c) :
    Writable Prim Stops outOfFuel p W := by
  obtain ⟨q, hq⟩ := h
  exact ⟨q, hq.mono hVW⟩

theorem Writable.prim {q : IndexParser τ ε α} (h : Prim α q p V) :
    Writable Prim Stops outOfFuel p V := ⟨q, .prim h⟩

theorem Writable.lift {x : Except ε α} (h : ∀ e, x = .error e → Stops e)
    (hV : ∀ a, x = .ok a → V a []) : Writable Prim Stops outOfFuel (TokenParser.lift x) V := by
  refine ⟨_, (Written.lift h).mono ?_⟩
  rintro a c ⟨ha, rfl⟩
  exact hV a ha

theorem Writable.pure (a : α) (h : V a []) :
    Writable Prim Stops outOfFuel (pure a : TokenParser τ ε α) V := by
  apply Writable.lift (x := .ok a) nofun
  rintro b ⟨⟩
  exact h

theorem Writable.throw {e : ε} (h : Stops e) :
    Writable Prim Stops outOfFuel (throw e : TokenParser τ ε α) V := by
  refine Writable.lift (x := (.error e : Except ε α)) ?_ nofun
  rintro _ ⟨⟩
  exact h

/-- What follows may use what is known of the result. -/
theorem Writable.bind {f : α → TokenParser τ ε β} {W : β → List τ → Prop} [Nonempty ε]
    (hp : Writable Prim Stops outOfFuel p V)
    (hf : ∀ a, (∃ c, V a c) →
      Writable Prim Stops outOfFuel (f a) fun b d => ∀ c, V a c → W b (c ++ d)) :
    Writable Prim Stops outOfFuel (p >>= f) W := by
  classical
  obtain ⟨q, hq⟩ := hp
  have hchoose : ∀ a, ∃ g, (∃ c, V a c) →
      Written Prim Stops outOfFuel g (f a) fun b d => ∀ c, V a c → W b (c ++ d) := by
    intro a
    by_cases ha : ∃ c, V a c
    · obtain ⟨g, hg⟩ := hf a ha
      exact ⟨g, fun _ => hg⟩
    · exact ⟨MonadExcept.throw (Classical.arbitrary ε), fun h => absurd h ha⟩
  choose g hg using hchoose
  refine ⟨q >>= g, .bind hq ?_⟩
  intro a c ha
  exact (hg a ⟨c, ha⟩).mono fun b d hb => hb c ha

theorem Writable.loop {body : σ → TokenParser τ ε (ForInStep σ)} {s : σ}
    {J W : σ → List τ → Prop}
    (h : ∀ s, Writable Prim Stops outOfFuel (body s) fun step d => ∀ c, J s c → StepTo J W c step d)
    (hs : J s []) : Writable Prim Stops outOfFuel (TokenParser.loop outOfFuel body s) W := by
  choose q hq using h
  exact ⟨_, .loop (fun s c hJ => (hq s).mono fun step d hstep => hstep c hJ) hs⟩

end Writable

end IndexParser

end FortyTwo.Foundation
