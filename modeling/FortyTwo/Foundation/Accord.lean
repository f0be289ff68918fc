import FortyTwo.Foundation.RelyGuarantee

/-!
Rely and guarantee where it does not matter who holds which mutex: what a thread
relies on is about the shared state alone, and no step is forbidden, so that what
the guarantees keep holds in every run.
-/

namespace FortyTwo.Foundation

/-- What each thread relies on, and what it guarantees. -/
structure Accord (T S : Type) where
  rely : T → S → S → Prop
  guar : T → S → S → Prop

namespace Accord

variable {T M S α β : Type}

/-- What one thread guarantees the others may rely on, and what the environment does
all may. -/
structure Sound (K : Accord T S) (environment : S → S → Prop) : Prop where
  refl : ∀ t s, K.rely t s s
  trans : ∀ {t s s' s''}, K.rely t s s' → K.rely t s' s'' → K.rely t s s''
  compat : ∀ {t other s s'}, other ≠ t → K.guar t s s' → K.rely other s s'
  rely_environment : ∀ {s s'} t, environment s s' → K.rely t s s'
  idle : ∀ t s, K.guar t s s

def contract (K : Accord T S) (M : Type) : Contract T M S Unit where
  note _ _ _ _ _ := ()
  permit _ _ _ := True
  inv _ _ := True
  rely t _ x y := K.rely t x.1 y.1
  guar t _ x y := K.guar t x.1 y.1

variable {K : Accord T S} {environment : S → S → Prop} {t : T} {A P P' : S → Prop}

theorem Sound.contract (h : K.Sound environment) : (K.contract M).Sound environment where
  refl t _ x := h.refl t x.1
  trans := h.trans
  compat hne _ := h.compat hne
  rely_environment t _ _ := h.rely_environment t
  idle_guar t _ x := h.idle t x.1
  idle_rely t _ x := h.refl t x.1
  inv_guar _ _ := id
  inv_rely _ _ := id
  inv_environment _ := id

/-- What the others do leaves `P` alone. -/
def Stable (K : Accord T S) (t : T) (P : S → Prop) : Prop := ∀ {s s'}, K.rely t s s' → P s → P s'

/-- From `P` on the thread keeps what it guarantees, and comes to `Q`; a round of it
starts in `A`. -/
def Does (K : Accord T S) (t : T) (A P : S → Prop) (p : Prog M S α) (Q : α → S → Prop) : Prop :=
  (K.contract M).Triple t (fun x => A x.1) (fun _ x => P x.1) p fun a _ x => Q a x.1

section Rules

variable {Q Q' : α → S → Prop} {m : M}

theorem Does.mono {p : Prog M S α} (h : K.Does t A P p Q) (hpre : ∀ s, P' s → P s)
    (hpost : ∀ a s, Q a s → Q' a s) : K.Does t A P' p Q' :=
  Contract.Triple.mono h (fun _ x => hpre x.1) fun a _ x => hpost a x.1

/-- What is never begun. -/
theorem does_of_not {p : Prog M S α} (h : ∀ s, ¬ P s) : K.Does t A P p Q :=
  fun _ _ _ x hx => absurd hx (h x.1)

theorem does_exists {ι : Type} {P : ι → S → Prop} {p : Prog M S α}
    (h : ∀ i, K.Does t A (P i) p Q) : K.Does t A (fun s => ∃ i, P i s) p Q := by
  intro k hk H x hx
  obtain ⟨i, hi⟩ := hx
  exact h i k hk H x hi

theorem does_pure {a : α} (h : ∀ s, P s → Q a s) : K.Does t A P (pure a : Prog M S α) Q :=
  Contract.triple_pure fun _ x => h x.1

theorem does_bind {p : Prog M S α} {f : α → Prog M S β} (mid : α → S → Prop) {R : β → S → Prop}
    (hp : K.Does t A P p mid) (hf : ∀ a, K.Does t A (mid a) (f a) R) :
    K.Does t A P (p >>= f) R :=
  Contract.triple_bind _ hp hf

theorem does_acquire (hP : K.Stable t P) :
    K.Does t A P (Prog.acquire m : Prog M S Unit) fun _ => P :=
  Contract.triple_acquire fun _ _ _ hx hy _ => hP hy hx

theorem does_release (hP : K.Stable t P) :
    K.Does t A P (Prog.release m : Prog M S Unit) fun _ => P :=
  Contract.triple_release fun _ _ _ hx _ hy => ⟨trivial, hP hy hx⟩

theorem does_read (hK : K.Sound environment) (hP : K.Stable t P) {f : S → α}
    (h : ∀ s, P s → Q (f s) s) : K.Does t A P (Prog.read f : Prog M S α) Q :=
  Contract.triple_read hK.contract fun _ _ y hx hy => h y.1 (hP hy hx)

theorem does_write (hP : K.Stable t P) {f : S → S} {Q : Unit → S → Prop}
    (h : ∀ s, P s → K.guar t s (f s) ∧ Q () (f s)) :
    K.Does t A P (Prog.write f : Prog M S Unit) Q :=
  Contract.triple_write fun _ _ y hx hy => h y.1 (hP hy hx)

theorem does_sleep (hP : K.Stable t P) {wake : S → Bool} :
    K.Does t A P (Prog.sleep wake : Prog M S Unit) fun _ => P :=
  Contract.triple_sleep fun _ _ _ hx hy => hP hy hx

end Rules

section Runs

variable [DecidableEq T] [DecidableEq M] {may : T → Set M → M → Prop} {start c : Config T M S}
  {trace : List (T × Action M)}

/-- Every run is one of permitted steps. -/
theorem watched_of_run (hrun : Run environment start trace c) :
    (K.contract M).Watched environment start () c () := by
  induction hrun with
  | start => exact .start
  | @step _ c _ _ _ hstep ih =>
      have hmove : ∀ t {next}, c.move t = some next →
          (K.contract M).Watched environment start () next () :=
        fun _ _ hnext => ih.move trivial hnext
      cases hstep with
      | @lock t _ _ hp hfree => exact hmove t (by simp [Config.move, hp, hfree])
      | @unlock t _ _ hp => exact hmove t (by simp [Config.move, hp])
      | @access t _ _ hp => exact hmove t (by simp [Config.move, hp])
      | @wake t _ _ hp hwake => exact hmove t (by simp [Config.move, hp, hwake])
      | sleep _ _ => exact ih
      | @again t hp => exact hmove t (by simp [Config.move, hp])
      | environment hs => exact ih.environment hs

/-- A round that begins in `P` ends in `A`, if another one follows. -/
def Rounds (K : Accord T S) (t : T) (A P : S → Prop) (p : Prog M S Bool) : Prop :=
  K.Does t A P p fun again s => again = true → A s

omit [DecidableEq T] [DecidableEq M] in
private theorem keeps_of_rounds {p : Prog M S Bool} (hA : K.Stable t A) (h : K.Rounds t A P p)
    {H : Set M} {x : S × Unit} (hx : P x.1) : (K.contract M).Keeps t (fun x => A x.1) p H x :=
  Contract.Triple.keeps
    (Contract.Triple.mono h (fun _ _ => id) fun _ _ _ hpost _ hy _ hagain => hA hy (hpost hagain)) hx

/-- What the guarantees and the environment keep holds in every run of threads whose
rounds are within the accord. -/
theorem holds_of_run (hK : K.Sound environment) (hdisciplined : Disciplined may start)
    {A P : T → S → Prop} (hA : ∀ t, K.Stable t (A t)) (hP : ∀ t, P t start.shared)
    (hcurrent : ∀ t, K.Rounds t (A t) (P t) (start.threads t).current)
    (hbody : ∀ t, K.Rounds t (A t) (A t) (start.threads t).body) {I : S → Prop}
    (hguar : ∀ {t s s'}, K.guar t s s' → I s → I s')
    (henvironment : ∀ {s s'}, environment s s' → I s → I s') (hI : I start.shared)
    (hrun : Run environment start trace c) : I c.shared := by
  have hgood : Contract.Good (K.contract M) may (fun t x => A t x.1) start () :=
    ⟨hdisciplined, fun _ _ => trivial, fun t => keeps_of_rounds (hA t) (hcurrent t) (hP t),
      fun t _ hx => keeps_of_rounds (hA t) (hbody t) hx⟩
  exact (watched_of_run hrun).holds hK.contract hgood (P := fun x => I x.1) hguar henvironment hI

end Runs

end Accord

end FortyTwo.Foundation
