import FortyTwo.Foundation.TokenParser

/-!
Two parsers on the same tokens: where the one succeeds, so does the other, with the
same tokens left and a related result.
-/

namespace FortyTwo.Foundation

namespace TokenParser

variable {τ ε α β γ δ σ σ' : Type}

/-- Where `p` succeeds, `q` does, and leaves the same tokens. -/
def Tracks (V : α → β → Prop) (p : TokenParser τ ε α) (q : TokenParser τ ε β) : Prop :=
  ∀ l a r, p l = .ok (a, r) → ∃ b, q l = .ok (b, r) ∧ V a b

variable {V : α → β → Prop} {W : γ → δ → Prop} {p : TokenParser τ ε α} {q : TokenParser τ ε β}
  {f : α → TokenParser τ ε γ} {g : β → TokenParser τ ε δ}

theorem Tracks.pure {a : α} {b : β} (h : V a b) :
    Tracks V (pure a : TokenParser τ ε α) (pure b) := by
  intro l x r hp
  obtain ⟨rfl, rfl⟩ := pure_ok_iff.mp hp
  exact ⟨b, rfl, h⟩

/-- What only fails tracks anything. -/
theorem Tracks.throw (e : ε) : Tracks V (throw e : TokenParser τ ε α) q := by
  intro l a r hp
  cases hp

theorem Tracks.refl (p : TokenParser τ ε α) : Tracks Eq p p := fun _ a _ hp => ⟨a, hp, rfl⟩

theorem Tracks.mono {V' : α → β → Prop} (hp : Tracks V p q) (himp : ∀ a b, V a b → V' a b) :
    Tracks V' p q := by
  intro l a r hrun
  obtain ⟨b, hb, hV⟩ := hp l a r hrun
  exact ⟨b, hb, himp a b hV⟩

theorem Tracks.bind (hp : Tracks V p q) (hf : ∀ a b, V a b → Tracks W (f a) (g b)) :
    Tracks W (p >>= f) (q >>= g) := by
  intro l x r hrun
  obtain ⟨a, m, ha, hx⟩ := bind_ok_iff.mp hrun
  obtain ⟨b, hb, hV⟩ := hp l a m ha
  obtain ⟨y, hy, hW⟩ := hf a b hV m x r hx
  exact ⟨y, (bind_of_ok g hb).trans hy, hW⟩

/-- The same parser first. -/
theorem Tracks.bind_same (p : TokenParser τ ε α) {g : α → TokenParser τ ε δ}
    (hf : ∀ a, Tracks W (f a) (g a)) : Tracks W (p >>= f) (p >>= g) := by
  intro l x r hrun
  obtain ⟨a, m, ha, hx⟩ := bind_ok_iff.mp hrun
  obtain ⟨y, hy, hW⟩ := hf a m x r hx
  exact ⟨y, (bind_of_ok g ha).trans hy, hW⟩

/-- The same parser first, which finds something or not. -/
theorem Tracks.bind_bool (p : TokenParser τ ε Bool) {f : Bool → TokenParser τ ε γ}
    {g : Bool → TokenParser τ ε δ} (htrue : Tracks W (f true) (g true))
    (hfalse : Tracks W (f false) (g false)) : Tracks W (p >>= f) (p >>= g) := by
  apply Tracks.bind_same p
  intro found
  cases found with
  | true => exact htrue
  | false => exact hfalse

/-- How the outcomes of two rounds are related. -/
def StepTracks (J V : σ → σ' → Prop) : ForInStep σ → ForInStep σ' → Prop
  | .yield s, .yield s' => J s s'
  | .done s, .done s' => V s s'
  | _, _ => False

theorem Tracks.loop {J V : σ → σ' → Prop} {e : ε} {body : σ → TokenParser τ ε (ForInStep σ)}
    {body' : σ' → TokenParser τ ε (ForInStep σ')}
    (hbody : ∀ s s', J s s' → Tracks (StepTracks J V) (body s) (body' s')) {s : σ} {s' : σ'}
    (hJ : J s s') : Tracks V (loop e body s) (TokenParser.loop e body' s') := by
  have key : ∀ fuel s s', J s s' →
      Tracks V (loopFrom e body fuel s) (loopFrom e body' fuel s') := by
    intro fuel
    induction fuel with
    | zero => exact fun _ _ _ => Tracks.throw e
    | succ fuel ih =>
        intro s s' hJ
        apply Tracks.bind (hbody s s' hJ)
        rintro (x | x) (y | y) hstep
        · exact Tracks.pure hstep
        · exact hstep.elim
        · exact hstep.elim
        · exact ih x y hstep
  intro l
  exact key (l.length + 1) s s' hJ l

end TokenParser

end FortyTwo.Foundation
