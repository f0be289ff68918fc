import Mathlib.Data.List.Basic

/-!
Parsers that read a list of tokens from the left, and the comparison of two of
their runs. A run is determined by the tokens it consumes and the one it looks
at behind them, so it can be repeated in front of other tokens, and repeated by
another parser on tokens that are like them.
-/

namespace FortyTwo.Foundation

variable {τ ε α β γ δ σ σ' : Type}

/-- A parser: the state is the list of the tokens that are left. -/
abbrev TokenParser (τ ε α : Type) := StateT (List τ) (Except ε) α

namespace TokenParser

theorem pure_ok_iff {a b : α} {l r : List τ} :
    (pure a : TokenParser τ ε α) l = .ok (b, r) ↔ a = b ∧ l = r := by
  constructor
  · intro h
    cases h
    exact ⟨rfl, rfl⟩
  · rintro ⟨rfl, rfl⟩
    rfl

theorem bind_ok_iff {p : TokenParser τ ε α} {f : α → TokenParser τ ε β} {b : β}
    {l r : List τ} :
    (p >>= f) l = .ok (b, r) ↔ ∃ a m, p l = .ok (a, m) ∧ f a m = .ok (b, r) := by
  change (p l).bind (fun x => f x.1 x.2) = _ ↔ _
  cases h : p l with
  | error e => simp [Except.bind]
  | ok x =>
      obtain ⟨a, m⟩ := x
      constructor
      · intro hf
        exact ⟨a, m, rfl, hf⟩
      · rintro ⟨_, _, heq, hf⟩
        cases heq
        exact hf

theorem bind_of_ok {p : TokenParser τ ε α} (f : α → TokenParser τ ε β) {a : α}
    {l m : List τ} (h : p l = .ok (a, m)) : (p >>= f) l = f a m := by
  change (p l).bind (fun x => f x.1 x.2) = _
  rw [h]
  rfl

theorem bind_of_error {p : TokenParser τ ε α} (f : α → TokenParser τ ε β) {l : List τ} {e : ε}
    (h : p l = .error e) : (p >>= f) l = .error e := by
  change (p l).bind (fun x => f x.1 x.2) = _
  rw [h]
  rfl

/-- A computation that reads no token. -/
def lift (x : Except ε α) : TokenParser τ ε α := fun tokens => x.map (fun a => (a, tokens))

theorem bind_congr_at {p₁ p₂ : TokenParser τ ε α} (f : α → TokenParser τ ε β) {l m : List τ}
    (h : p₁ l = p₂ m) : (p₁ >>= f) l = (p₂ >>= f) m := by
  change (p₁ l).bind (fun x => f x.1 x.2) = (p₂ m).bind (fun x => f x.1 x.2)
  rw [h]

/-- A loop whose body says whether it goes on, for at most `fuel` rounds. -/
def loopFrom (outOfFuel : ε) (body : σ → TokenParser τ ε (ForInStep σ)) :
    Nat → σ → TokenParser τ ε σ
  | 0, _ => fun _ => .error outOfFuel
  | fuel + 1, s => do
      match ← body s with
      | .done s => pure s
      | .yield s => loopFrom outOfFuel body fuel s

/-- The loop. As many rounds as there are tokens are enough for one that reads
something in every round, and one more to leave it. -/
def loop (outOfFuel : ε) (body : σ → TokenParser τ ε (ForInStep σ)) (s : σ) :
    TokenParser τ ε σ :=
  fun tokens => loopFrom outOfFuel body (tokens.length + 1) s tokens

theorem loop_done {outOfFuel : ε} {body : σ → TokenParser τ ε (ForInStep σ)} {s s' : σ}
    {l r : List τ} (h : body s l = .ok (.done s', r)) : loop outOfFuel body s l = .ok (s', r) := by
  rw [loop, loopFrom, bind_of_ok _ h]
  rfl

/-- A list of this length splits there. -/
theorem exists_append_of_length {e : List τ} {m n : Nat} (h : e.length = m + n) :
    ∃ c d, e = c ++ d ∧ c.length = m ∧ d.length = n := by
  refine ⟨e.take m, e.drop m, (List.take_append_drop m e).symm, ?_, ?_⟩
  · rw [List.length_take]
    omega
  · rw [List.length_drop]
    omega

/-- What is known of the tokens a parser reads, and of those that two parsers
look at. -/
structure Likeness (τ : Type) where
  Sound : List τ → Prop
  Alike : List τ → List τ → Prop

/-- What `M` says of the tokens behind `c`, the likeness `L` says. -/
structure Likeness.Leads (L : Likeness τ) (c : List τ) (M : Likeness τ) : Prop where
  sound : ∀ {rest}, L.Sound (c ++ rest) → M.Sound rest
  alike : ∀ {c' d d'}, c'.length = c.length → L.Alike (c ++ d) (c' ++ d') → M.Alike d d'

structure Likeness.Initial (L : Likeness τ) : Prop where
  refl : ∀ {l}, L.Sound l → L.Alike l l
  left : ∀ {c c' d d'}, c'.length = c.length → L.Alike (c ++ d) (c' ++ d') → L.Alike c c'

/-- A likeness that every part of two lists inherits. -/
structure Likeness.Local (L : Likeness τ) : Prop extends Likeness.Initial L where
  leads : ∀ c, L.Leads c L

/-- Where `p` succeeds, `q` does on tokens that are like the ones `p` consumes
and the one behind them, and the results are related. -/
def Follows (L : Likeness τ) (V : List τ → α → β → Prop) (p : TokenParser τ ε α)
    (q : TokenParser τ ε β) : Prop :=
  ∀ l a r, L.Sound l → p l = .ok (a, r) → ∃ c, l = c ++ r ∧
    ∀ c' r', c'.length = c.length → L.Alike (c ++ r.take 1) (c' ++ r'.take 1) →
      ∃ b, q (c' ++ r') = .ok (b, r') ∧ V c a b

/-- The same for a parser that does not look behind what it consumes. -/
def Closes (L : Likeness τ) (V : List τ → α → β → Prop) (p : TokenParser τ ε α)
    (q : TokenParser τ ε β) : Prop :=
  ∀ l a r, L.Sound l → p l = .ok (a, r) → ∃ c, l = c ++ r ∧ c ≠ [] ∧
    ∀ c' r', c'.length = c.length → L.Alike c c' → ∃ b, q (c' ++ r') = .ok (b, r') ∧ V c a b

variable {L : Likeness τ} {M : List τ → Likeness τ} {V : List τ → α → β → Prop}
  {W : List τ → γ → δ → Prop} {p : TokenParser τ ε α} {q : TokenParser τ ε β}
  {f : α → TokenParser τ ε γ} {g : β → TokenParser τ ε δ}

theorem Closes.follows (hL : L.Initial) (h : Closes L V p q) :
    Follows L (fun c a b => c ≠ [] ∧ V c a b) p q := by
  intro l a r hsound hp
  obtain ⟨c, hl, hne, hq⟩ := h l a r hsound hp
  refine ⟨c, hl, ?_⟩
  intro c' r' hlen halike
  obtain ⟨b, hb, hV⟩ := hq c' r' hlen (hL.left hlen halike)
  exact ⟨b, hb, hne, hV⟩

theorem Follows.mono {V' : List τ → α → β → Prop} (h : Follows L V p q)
    (himp : ∀ c a b, V c a b → V' c a b) : Follows L V' p q := by
  intro l a r hsound hp
  obtain ⟨c, hl, hq⟩ := h l a r hsound hp
  refine ⟨c, hl, ?_⟩
  intro c' r' hlen halike
  obtain ⟨b, hb, hV⟩ := hq c' r' hlen halike
  exact ⟨b, hb, himp c a b hV⟩

theorem Closes.mono {V' : List τ → α → β → Prop} (h : Closes L V p q)
    (himp : ∀ c a b, V c a b → V' c a b) : Closes L V' p q := by
  intro l a r hsound hp
  obtain ⟨c, hl, hne, hq⟩ := h l a r hsound hp
  refine ⟨c, hl, hne, ?_⟩
  intro c' r' hlen halike
  obtain ⟨b, hb, hV⟩ := hq c' r' hlen halike
  exact ⟨b, hb, himp c a b hV⟩

theorem Follows.pure {a : α} {b : β} (h : V [] a b) :
    Follows L V (pure a : TokenParser τ ε α) (pure b) := by
  intro l x r _ hp
  obtain ⟨rfl, rfl⟩ := pure_ok_iff.mp hp
  refine ⟨[], rfl, fun c' r' hlen _ => ⟨b, ?_, h⟩⟩
  rw [List.length_eq_zero_iff.mp hlen]
  rfl

/-- A parser that only fails. -/
theorem Follows.throw (e e' : ε) :
    Follows L V (throw e : TokenParser τ ε α) (throw e' : TokenParser τ ε β) := by
  intro l a r _ hp
  cases hp

/-- What a run that repeats itself consumes. -/
private theorem Follows.self (hL : L.Initial) (h : Follows L V p q) {l r : List τ} {a : α}
    (hsound : L.Sound l) (hp : p l = .ok (a, r)) :
    ∃ c b, l = c ++ r ∧ V c a b ∧
      ∀ c' r', c'.length = c.length → L.Alike (c ++ r.take 1) (c' ++ r'.take 1) →
        ∃ b, q (c' ++ r') = .ok (b, r') ∧ V c a b := by
  obtain ⟨c, rfl, hq⟩ := h l a r hsound hp
  have hsplit : L.Alike ((c ++ r.take 1) ++ r.drop 1) ((c ++ r.take 1) ++ r.drop 1) := by
    rw [List.append_assoc, List.take_append_drop]
    exact hL.refl hsound
  obtain ⟨b, _, hV⟩ := hq c r rfl (hL.left rfl hsplit)
  exact ⟨c, b, rfl, hV, hq⟩

theorem Closes.self (hL : L.Initial) (h : Closes L V p q) {c r : List τ} {a : α}
    (hsound : L.Sound (c ++ r)) (hp : p (c ++ r) = .ok (a, r)) : ∃ b, V c a b := by
  obtain ⟨d, hd, _, hq⟩ := h _ _ _ hsound hp
  obtain rfl := List.append_cancel_right hd
  obtain ⟨b, _, hV⟩ := hq c r rfl (hL.left rfl (hL.refl hsound))
  exact ⟨b, hV⟩

/-- The tokens the first of two parsers may look at. -/
private theorem Likeness.Initial.first (hL : L.Initial) {c c' d d' r r' : List τ}
    (hc : c'.length = c.length) (hd : d'.length = d.length)
    (halike : L.Alike ((c ++ d) ++ r.take 1) ((c' ++ d') ++ r'.take 1)) :
    L.Alike (c ++ (d ++ r).take 1) (c' ++ (d' ++ r').take 1) := by
  cases d with
  | nil =>
      rw [List.length_eq_zero_iff.mp hd] at halike ⊢
      simpa using halike
  | cons x d =>
      cases d' with
      | nil => simp at hd
      | cons x' d' =>
          have hsplit : L.Alike ((c ++ [x]) ++ (d ++ r.take 1))
              ((c' ++ [x']) ++ (d' ++ r'.take 1)) := by simpa using halike
          simpa using hL.left (by simpa using hc) hsplit

theorem Follows.bind_leads (hL : L.Initial) (hp : Follows L V p q)
    (hlead : ∀ c a b, V c a b → L.Leads c (M c))
    (hf : ∀ c a b, V c a b → Follows (M c) (fun d x y => W (c ++ d) x y) (f a) (g b)) :
    Follows L W (p >>= f) (q >>= g) := by
  intro l x r hsound hrun
  obtain ⟨a, m, ha, hx⟩ := bind_ok_iff.mp hrun
  obtain ⟨c, b₀, rfl, hV, hq⟩ := Follows.self hL hp hsound ha
  have hsoundm : (M c).Sound m := (hlead c a b₀ hV).sound hsound
  obtain ⟨d, rfl, _⟩ := hf c a b₀ hV m x r hsoundm hx
  refine ⟨c ++ d, (List.append_assoc c d r).symm, ?_⟩
  intro e' r' hlen halike
  obtain ⟨c', d', rfl, hc, hd⟩ := exists_append_of_length (hlen.trans List.length_append)
  obtain ⟨b, hb, hV⟩ := hq c' (d' ++ r') hc (hL.first hc hd halike)
  obtain ⟨d₂, hd₂, hg⟩ := hf c a b hV (d ++ r) x r hsoundm hx
  obtain rfl := List.append_cancel_right hd₂
  have hrest : (M c).Alike (d ++ r.take 1) (d' ++ r'.take 1) := by
    apply (hlead c a b hV).alike hc
    simpa only [List.append_assoc] using halike
  obtain ⟨y, hy, hW⟩ := hg d' r' hd hrest
  refine ⟨y, ?_, hW⟩
  rw [List.append_assoc, bind_of_ok g hb]
  exact hy

theorem Closes.bind_leads (hL : L.Initial) (hp : Follows L V p q)
    (hlead : ∀ c a b, V c a b → L.Leads c (M c))
    (hf : ∀ c a b, V c a b → Closes (M c) (fun d x y => W (c ++ d) x y) (f a) (g b)) :
    Closes L W (p >>= f) (q >>= g) := by
  intro l x r hsound hrun
  obtain ⟨a, m, ha, hx⟩ := bind_ok_iff.mp hrun
  obtain ⟨c, b₀, rfl, hV, hq⟩ := Follows.self hL hp hsound ha
  have hsoundm : (M c).Sound m := (hlead c a b₀ hV).sound hsound
  obtain ⟨d, rfl, hne, _⟩ := hf c a b₀ hV m x r hsoundm hx
  refine ⟨c ++ d, (List.append_assoc c d r).symm, by simp [hne], ?_⟩
  intro e' r' hlen halike
  obtain ⟨c', d', rfl, hc, hd⟩ := exists_append_of_length (hlen.trans List.length_append)
  have hfirst : L.Alike (c ++ (d ++ r).take 1) (c' ++ (d' ++ r').take 1) := by
    obtain ⟨x, d, rfl⟩ := List.exists_cons_of_ne_nil hne
    obtain ⟨x', d', rfl⟩ := List.exists_cons_of_length_eq_add_one (l := d') hd
    have hsplit : L.Alike ((c ++ [x]) ++ d) ((c' ++ [x']) ++ d') := by simpa using halike
    simpa using hL.left (by simpa using hc) hsplit
  obtain ⟨b, hb, hV⟩ := hq c' (d' ++ r') hc hfirst
  obtain ⟨d₂, hd₂, _, hg⟩ := hf c a b hV (d ++ r) x r hsoundm hx
  obtain rfl := List.append_cancel_right hd₂
  obtain ⟨y, hy, hW⟩ := hg d' r' hd ((hlead c a b hV).alike hc halike)
  refine ⟨y, ?_, hW⟩
  rw [List.append_assoc, bind_of_ok g hb]
  exact hy

theorem Follows.bind (hL : L.Local) (hp : Follows L V p q)
    (hf : ∀ c a b, V c a b → Follows L (fun d x y => W (c ++ d) x y) (f a) (g b)) :
    Follows L W (p >>= f) (q >>= g) :=
  Follows.bind_leads (M := fun _ => L) hL.toInitial hp (fun c _ _ _ => hL.leads c) hf

theorem Closes.bind (hL : L.Local) (hp : Follows L V p q)
    (hf : ∀ c a b, V c a b → Closes L (fun d x y => W (c ++ d) x y) (f a) (g b)) :
    Closes L W (p >>= f) (q >>= g) :=
  Closes.bind_leads (M := fun _ => L) hL.toInitial hp (fun c _ _ _ => hL.leads c) hf

theorem Follows.bind_pure {h : α → γ} {k : β → δ} (hp : Follows L V p q)
    (hf : ∀ c a b, V c a b → W c (h a) (k b)) :
    Follows L W (p >>= fun a => Pure.pure (h a)) (q >>= fun b => Pure.pure (k b)) := by
  intro l x r hsound hrun
  obtain ⟨a, m, ha, hx⟩ := bind_ok_iff.mp hrun
  obtain ⟨rfl, rfl⟩ := pure_ok_iff.mp hx
  obtain ⟨c, hl, hq⟩ := hp l a m hsound ha
  refine ⟨c, hl, ?_⟩
  intro c' r' hlen halike
  obtain ⟨b, hb, hV⟩ := hq c' r' hlen halike
  refine ⟨k b, ?_, hf c a b hV⟩
  rw [bind_of_ok _ hb]
  rfl

theorem lift_ok_iff {x : Except ε α} {a : α} {l r : List τ} :
    (lift x : TokenParser τ ε α) l = .ok (a, r) ↔ x = .ok a ∧ l = r := by
  cases x with
  | error e =>
      constructor
      · intro h
        cases h
      · rintro ⟨h, _⟩
        cases h
  | ok b =>
      constructor
      · intro h
        cases h
        exact ⟨rfl, rfl⟩
      · rintro ⟨h, rfl⟩
        cases h
        rfl

/-- A parser that closes and then computes something that may fail. -/
theorem Closes.bind_lift {x : α → Except ε γ} {y : β → Except ε δ} (hp : Closes L V p q)
    (hf : ∀ c a b, V c a b → ∀ z, x a = .ok z → ∃ w, y b = .ok w ∧ W c z w) :
    Closes L W (p >>= fun a => lift (x a)) (q >>= fun b => lift (y b)) := by
  intro l z r hsound hrun
  obtain ⟨a, m, ha, hz⟩ := bind_ok_iff.mp hrun
  obtain ⟨hvalue, rfl⟩ := lift_ok_iff.mp hz
  obtain ⟨c, hl, hne, hq⟩ := hp l a m hsound ha
  refine ⟨c, hl, hne, ?_⟩
  intro c' r' hlen halike
  obtain ⟨b, hb, hV⟩ := hq c' r' hlen halike
  obtain ⟨w, hw, hW⟩ := hf c a b hV z hvalue
  refine ⟨w, ?_, hW⟩
  rw [bind_of_ok _ hb]
  exact lift_ok_iff.mpr ⟨hw, rfl⟩

/-- A parser that closes and then only computes. -/
theorem Closes.bind_pure {h : α → γ} {k : β → δ} (hp : Closes L V p q)
    (hf : ∀ c a b, V c a b → W c (h a) (k b)) :
    Closes L W (p >>= fun a => Pure.pure (h a)) (q >>= fun b => Pure.pure (k b)) := by
  apply Closes.bind_lift (x := fun a => .ok (h a)) (y := fun b => .ok (k b)) hp
  intro c a b hV z hz
  cases hz
  exact ⟨k b, rfl, hf c a b hV⟩

/-- How the outcomes of two rounds are related. -/
def StepRelated (J : List τ → σ → σ' → Prop) (V : List τ → σ → σ' → Prop) (c d : List τ) :
    ForInStep σ → ForInStep σ' → Prop
  | .yield s, .yield s' => d ≠ [] ∧ J (c ++ d) s s'
  | .done s, .done s' => V (c ++ d) s s'
  | _, _ => False

theorem Follows.loop {V : List τ → σ → σ' → Prop} {J : List τ → σ → σ' → Prop}
    (hL : L.Local) {outOfFuel : ε} {body : σ → TokenParser τ ε (ForInStep σ)}
    {body' : σ' → TokenParser τ ε (ForInStep σ')}
    (hbody : ∀ c s s', J c s s' → Follows L (StepRelated J V c) (body s) (body' s'))
    {s : σ} {s' : σ'} (hJ : J [] s s') :
    Follows L V (loop outOfFuel body s) (loop outOfFuel body' s') := by
  have key : ∀ fuel l c s s' a r, J c s s' → L.Sound l →
      loopFrom outOfFuel body fuel s l = .ok (a, r) → ∃ d, l = d ++ r ∧
        ∀ d' r' fuel', d'.length = d.length → d.length < fuel' →
          L.Alike (d ++ r.take 1) (d' ++ r'.take 1) →
          ∃ b, loopFrom outOfFuel body' fuel' s' (d' ++ r') = .ok (b, r') ∧ V (c ++ d) a b := by
    intro fuel
    induction fuel with
    | zero =>
        intro l c s s' a r _ _ hrun
        cases hrun
    | succ fuel ih =>
        intro l c s s' a r hJ hsound hrun
        obtain ⟨step, m, hstep, hrest⟩ := bind_ok_iff.mp hrun
        have hround := hbody c s s' hJ
        obtain ⟨d₁, step₀, rfl, hrel₀, hq⟩ := Follows.self hL.toInitial hround hsound hstep
        cases step with
        | done s₁ =>
            obtain ⟨rfl, rfl⟩ := pure_ok_iff.mp hrest
            refine ⟨d₁, rfl, ?_⟩
            intro d' r' fuel' hlen hfuel halike
            obtain ⟨step', hstep', hrel⟩ := hq d' r' hlen halike
            obtain ⟨fuel', rfl⟩ : ∃ less, fuel' = less + 1 := ⟨fuel' - 1, by omega⟩
            cases step' with
            | yield _ => exact hrel.elim
            | done s₁' =>
                refine ⟨s₁', ?_, hrel⟩
                rw [loopFrom, bind_of_ok _ hstep']
                rfl
        | yield s₁ =>
            obtain ⟨s₀, hne, hJ₀⟩ : ∃ s₀, d₁ ≠ [] ∧ J (c ++ d₁) s₁ s₀ := by
              cases step₀ with
              | yield s₀ => exact ⟨s₀, hrel₀⟩
              | done _ => exact hrel₀.elim
            have hsoundm := (hL.leads d₁).sound hsound
            obtain ⟨d₂, rfl, _⟩ := ih m (c ++ d₁) s₁ s₀ a r hJ₀ hsoundm hrest
            refine ⟨d₁ ++ d₂, (List.append_assoc _ _ _).symm,
              fun e' r' fuel' hlen hfuel halike => ?_⟩
            rw [List.length_append] at hlen hfuel
            obtain ⟨d₁', d₂', rfl, h₁, h₂⟩ := exists_append_of_length hlen
            obtain ⟨step', hstep', hrel⟩ :=
              hq d₁' (d₂' ++ r') h₁ (hL.toInitial.first h₁ h₂ halike)
            obtain ⟨fuel', rfl⟩ : ∃ less, fuel' = less + 1 := ⟨fuel' - 1, by omega⟩
            cases step' with
            | done _ => exact hrel.elim
            | yield s₁' =>
                obtain ⟨d₄, hd₄, htail⟩ := ih _ (c ++ d₁) s₁ s₁' a r hrel.2 hsoundm hrest
                obtain rfl := List.append_cancel_right hd₄
                have hpos := List.length_pos_iff.mpr hne
                have hrest' : L.Alike (d₂ ++ r.take 1) (d₂' ++ r'.take 1) :=
                  (hL.leads d₁).alike h₁ (by simpa only [List.append_assoc] using halike)
                obtain ⟨b, hb, hV⟩ := htail d₂' r' fuel' h₂ (by omega) hrest'
                refine ⟨b, ?_, by simpa only [List.append_assoc] using hV⟩
                rw [List.append_assoc, loopFrom, bind_of_ok _ hstep']
                exact hb
  intro l a r hsound hrun
  obtain ⟨d, rfl, hq⟩ := key _ l [] s s' a r hJ hsound hrun
  refine ⟨d, rfl, ?_⟩
  intro d' r' hlen halike
  refine hq d' r' _ hlen ?_ halike
  rw [List.length_append]
  omega

end TokenParser

end FortyTwo.Foundation
