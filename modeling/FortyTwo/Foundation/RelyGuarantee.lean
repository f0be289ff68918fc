import FortyTwo.Foundation.LockDiscipline

/-!
What holds of all runs of threads that share a state and lock mutexes. An observer
notes what the accesses do. Each thread relies on what the others do to the state
and to the notes, and guarantees what it does itself, both in terms of the mutexes
it holds; a mutex that no thread holds keeps an invariant.
-/

namespace FortyTwo.Foundation

namespace Prog

variable {M S α β γ : Type}

private theorem bind_done (p : Prog M S α) : p.bind done = p := by
  induction p with
  | done a => rfl
  | lock m next ih => exact congrArg (lock m) ih
  | unlock m next ih => exact congrArg (unlock m) ih
  | access f next ih => exact congrArg (access f) (funext ih)
  | wait wake next ih => exact congrArg (wait wake) ih

private theorem bind_bind (p : Prog M S α) (f : α → Prog M S β) (g : β → Prog M S γ) :
    (p.bind f).bind g = p.bind fun a => (f a).bind g := by
  induction p with
  | done a => rfl
  | lock m next ih => exact congrArg (lock m) ih
  | unlock m next ih => exact congrArg (unlock m) ih
  | access f next ih => exact congrArg (access f) (funext ih)
  | wait wake next ih => exact congrArg (wait wake) ih

instance : LawfulMonad (Prog M S) :=
  LawfulMonad.mk' _ bind_done (fun _ _ => rfl) bind_bind

end Prog

variable {T M S G : Type}

namespace Config

variable [DecidableEq T] [DecidableEq M]

/-- The step that is up to `t`, if it can make one. -/
def move (c : Config T M S) (t : T) : Option (Config T M S) :=
  match (c.threads t).current with
  | .done again => if again then some (c.goto t (c.threads t).body) else none
  | .lock m next => if c.owner m = none then some ((c.setOwner m (some t)).goto t next) else none
  | .unlock m next => some ((c.setOwner m none).goto t next)
  | .access f next => some (Config.goto { c with shared := f c.shared } t (next c.shared))
  | .wait wake next => if wake c.shared then some (c.goto t next) else none

theorem step_of_move {environment : S → S → Prop} {c next : Config T M S} {t : T}
    (h : c.move t = some next) : ∃ actions, Step environment c actions next := by
  unfold move at h
  split at h
  · next again hp =>
      split at h
      · next hagain =>
          cases h
          subst hagain
          exact ⟨_, .again hp⟩
      · cases h
  · next m p hp =>
      split at h
      · next hfree =>
          cases h
          exact ⟨_, .lock hp hfree⟩
      · cases h
  · next m p hp =>
      cases h
      exact ⟨_, .unlock hp⟩
  · next f p hp =>
      cases h
      exact ⟨_, .access hp⟩
  · next wake p hp =>
      split at h
      · next hwake =>
          cases h
          exact ⟨_, .wake hp hwake⟩
      · cases h

end Config

/-- What the observer notes of an access, the steps that are permitted, the
invariant of each mutex, and what a thread that holds some mutexes relies on and
guarantees. -/
structure Contract (T M S G : Type) where
  note : T → Set M → S → S → G → G
  permit : T → Prog M S Bool → S × G → Prop
  inv : M → S × G → Prop
  rely : T → Set M → S × G → S × G → Prop
  guar : T → Set M → S × G → S × G → Prop

namespace Contract

/-- After an access of `t` that leads to `s`. -/
def noted (K : Contract T M S G) (t : T) (H : Set M) (x : S × G) (s : S) : S × G :=
  (s, K.note t H x.1 s x.2)

/-- What one thread guarantees the others may rely on, and likewise of the
environment; reading changes nothing that matters. -/
structure Sound (K : Contract T M S G) (environment : S → S → Prop) : Prop where
  refl : ∀ t H x, K.rely t H x x
  trans : ∀ {t H x y z}, K.rely t H x y → K.rely t H y z → K.rely t H x z
  compat : ∀ {t other H H' x y}, other ≠ t → (∀ m ∈ H, m ∉ H') → K.guar t H x y →
    K.rely other H' x y
  rely_environment : ∀ {s s'} t H g, environment s s' → K.rely t H (s, g) (s', g)
  idle_guar : ∀ t H x, K.guar t H x (K.noted t H x x.1)
  idle_rely : ∀ t H x, K.rely t H x (K.noted t H x x.1)
  inv_guar : ∀ {t H m x y}, m ∉ H → K.guar t H x y → K.inv m x → K.inv m y
  inv_rely : ∀ {t H m x y}, m ∈ H → K.rely t H x y → K.inv m x → K.inv m y
  inv_environment : ∀ {m s s' g}, environment s s' → K.inv m (s, g) → K.inv m (s', g)

variable {K : Contract T M S G} {environment : S → S → Prop} {t : T} {A : S × G → Prop}

/-- The thread `t` goes on with a program within the contract, where it holds `H`,
and ends a round in `A` where it starts another. -/
def Keeps (K : Contract T M S G) (t : T) (A : S × G → Prop) :
    Prog M S Bool → Set M → S × G → Prop
  | .done again, H, x => ∀ y, K.rely t H x y → H = ∅ → again = true → A y
  | .lock m next, H, x => ∀ y, K.rely t H x y → K.permit t (.lock m next) y → K.inv m y →
      Keeps K t A next (insert m H) y
  | .unlock m next, H, x => m ∈ H → ∀ y, K.rely t H x y →
      K.inv m y ∧ Keeps K t A next (H \ {m}) y
  | .access f next, H, x => ∀ y, K.rely t H x y →
      K.guar t H y (K.noted t H y (f y.1)) ∧
        Keeps K t A (next y.1) H (K.noted t H y (f y.1))
  | .wait _ next, H, x => ∀ y, K.rely t H x y → Keeps K t A next H y

theorem Keeps.later (hK : K.Sound environment) {p : Prog M S Bool} {H : Set M} {x y : S × G}
    (h : K.Keeps t A p H x) (hy : K.rely t H x y) : K.Keeps t A p H y := by
  cases p with
  | done again => exact fun z hz => h z (hK.trans hy hz)
  | lock m next => exact fun z hz => h z (hK.trans hy hz)
  | unlock m next => exact fun hm z hz => h hm z (hK.trans hy hz)
  | access f next => exact fun z hz => h z (hK.trans hy hz)
  | wait wake next => exact fun z hz => h z (hK.trans hy hz)

section System

variable [DecidableEq T] [DecidableEq M]

/-- The notes after a step of `t`. -/
def seen (K : Contract T M S G) (c : Config T M S) (t : T) (g : G) : G :=
  match (c.threads t).current with
  | .access f _ => K.note t (c.held t) c.shared (f c.shared) g
  | _ => g

/-- Where runs of permitted steps lead from `start`, with what the observer has
noted then. -/
inductive Watched (K : Contract T M S G) (environment : S → S → Prop) (start : Config T M S)
    (notes : G) : Config T M S → G → Prop
  | start : Watched K environment start notes start notes
  | move {c g t next} (h : Watched K environment start notes c g)
      (hpermit : K.permit t (c.threads t).current (c.shared, g)) (hmove : c.move t = some next) :
      Watched K environment start notes next (K.seen c t g)
  | environment {c g s} (h : Watched K environment start notes c g)
      (hs : environment c.shared s) :
      Watched K environment start notes { c with shared := s } g

theorem Watched.run {start c : Config T M S} {notes g : G}
    (h : K.Watched environment start notes c g) : ∃ trace, Run environment start trace c := by
  induction h with
  | start => exact ⟨[], .start⟩
  | move _ _ hmove ih =>
      obtain ⟨trace, hrun⟩ := ih
      obtain ⟨actions, hstep⟩ := Config.step_of_move hmove
      exact ⟨_, hrun.step hstep⟩
  | environment _ hs ih =>
      obtain ⟨trace, hrun⟩ := ih
      exact ⟨_, hrun.step (.environment hs)⟩

/-- What holds between two steps: each thread is within its contract, in the rest of
its round and from the start of any other. -/
structure Good (K : Contract T M S G) (may : T → Set M → M → Prop) (A : T → S × G → Prop)
    (c : Config T M S) (g : G) : Prop where
  disciplined : Disciplined may c
  free : ∀ m, c.owner m = none → K.inv m (c.shared, g)
  current : ∀ t, K.Keeps t (A t) (c.threads t).current (c.held t) (c.shared, g)
  body : ∀ t x, A t x → K.Keeps t (A t) (c.threads t).body ∅ x

variable {may : T → Set M → M → Prop} {A : T → S × G → Prop} {c next : Config T M S} {g : G}

omit [DecidableEq T] [DecidableEq M] in
theorem notMem_held {other : T} (h : other ≠ t) : ∀ m ∈ c.held t, m ∉ c.held other :=
  fun m (ht : c.owner m = some t) (hother : c.owner m = some other) =>
    h (Option.some.inj (hother.symm.trans ht))

omit [DecidableEq M] in
/-- `t` goes on with `p`. -/
private theorem keeps_goto {p : Prog M S Bool} {x : S × G}
    (hcurrent : ∀ other, other ≠ t → K.Keeps other (A other) (c.threads other).current
      (c.held other) x)
    (hp : K.Keeps t (A t) p (c.held t) x) (other : T) :
    K.Keeps other (A other) ((c.goto t p).threads other).current ((c.goto t p).held other) x := by
  by_cases hother : other = t
  · subst hother
    rw [Config.threads_goto_self]
    exact hp
  · rw [Config.threads_goto_of_ne c hother]
    exact hcurrent other hother

omit [DecidableEq M] in
private theorem body_goto (p : Prog M S Bool) (other : T) :
    ((c.goto t p).threads other).body = (c.threads other).body := by
  by_cases hother : other = t
  · subst hother
    rw [Config.threads_goto_self]
  · rw [Config.threads_goto_of_ne c hother]

/-- A step keeps the contracts, and what it does to the state and the notes is
guaranteed. -/
theorem Good.move (hK : K.Sound environment) (h : Good K may A c g)
    (hpermit : K.permit t (c.threads t).current (c.shared, g)) (hmove : c.move t = some next) :
    Good K may A next (K.seen c t g) ∧
      (K.guar t (c.held t) (c.shared, g) (next.shared, K.seen c t g) ∨
        (next.shared, K.seen c t g) = (c.shared, g)) := by
  have hstep : ∃ actions, Step environment c actions next := Config.step_of_move hmove
  obtain ⟨actions, hstep⟩ := hstep
  have hdisciplined := h.disciplined.step hstep
  have hkeeps := h.current t
  have hsafe := (h.disciplined t).1
  unfold seen
  unfold Config.move at hmove
  split at hmove
  · next again hp =>
      rw [hp] at hkeeps hsafe ⊢
      split at hmove
      · next hagain =>
          cases hmove
          have hempty : c.held t = ∅ := hsafe
          have hA := hkeeps _ (hK.refl _ _ _) hempty hagain
          refine ⟨⟨hdisciplined, h.free, keeps_goto (fun other _ => h.current other) ?_,
            fun other => by rw [body_goto]; exact h.body other⟩, Or.inr rfl⟩
          rw [hempty]
          exact h.body t _ hA
      · cases hmove
  · next m p hp =>
      rw [hp] at hkeeps hpermit ⊢
      split at hmove
      · next hfree =>
          cases hmove
          have hnext := hkeeps _ (hK.refl _ _ _) hpermit (h.free m hfree)
          refine ⟨⟨hdisciplined, fun m' hm' => h.free m' ?_, keeps_goto (fun other hother => ?_) ?_,
            fun other => by rw [body_goto]; exact h.body other⟩, Or.inr rfl⟩
          · by_cases hm : m' = m
            · exact hm ▸ hfree
            · exact (Function.update_of_ne hm _ _).symm.trans hm'
          · rw [Config.held_setOwner_of_ne (by simp [hfree]) (by simpa using hother.symm)]
            exact h.current other
          · rw [Config.held_setOwner_some]
            exact hnext
      · cases hmove
  · next m p hp =>
      rw [hp] at hkeeps hsafe ⊢
      cases hmove
      have howner : c.owner m = some t := hsafe.1
      obtain ⟨hinv, hnext⟩ := hkeeps howner _ (hK.refl _ _ _)
      refine ⟨⟨hdisciplined, fun m' hm' => ?_, keeps_goto (fun other hother => ?_) ?_,
        fun other => by rw [body_goto]; exact h.body other⟩, Or.inr rfl⟩
      · by_cases hm : m' = m
        · exact hm ▸ hinv
        · exact h.free m' ((Function.update_of_ne hm _ _).symm.trans hm')
      · rw [Config.held_setOwner_of_ne (by simpa [howner] using hother.symm) (by simp)]
        exact h.current other
      · rw [Config.held_setOwner_none]
        exact hnext
  · next f p hp =>
      rw [hp] at hkeeps ⊢
      cases hmove
      obtain ⟨hguar, hnext⟩ := hkeeps _ (hK.refl _ _ _)
      refine ⟨⟨hdisciplined, fun m hm => ?_, keeps_goto (c := { c with shared := f c.shared })
        (fun other hother => ?_) hnext, fun other => by rw [body_goto]; exact h.body other⟩,
        Or.inl hguar⟩
      · have hfree : c.owner m = none := hm
        refine hK.inv_guar (fun hheld => ?_) hguar (h.free m hfree)
        have howner : c.owner m = some t := hheld
        rw [hfree] at howner
        cases howner
      · exact (h.current other).later hK (hK.compat hother (notMem_held hother) hguar)
  · next wake p hp =>
      rw [hp] at hkeeps ⊢
      split at hmove
      · cases hmove
        exact ⟨⟨hdisciplined, h.free, keeps_goto (fun other _ => h.current other)
          (hkeeps _ (hK.refl _ _ _)), fun other => by rw [body_goto]; exact h.body other⟩,
          Or.inr rfl⟩
      · cases hmove

omit [DecidableEq T] [DecidableEq M] in
theorem Good.changed (hK : K.Sound environment) (h : Good K may A c g) {s : S}
    (hs : environment c.shared s) : Good K may A { c with shared := s } g where
  disciplined := h.disciplined
  free m hm := hK.inv_environment hs (h.free m hm)
  current t := (h.current t).later hK (hK.rely_environment t _ g hs)
  body := h.body

/-- What each guarantee and the environment keep holds in all runs. -/
theorem Watched.holds (hK : K.Sound environment) {start : Config T M S} {notes : G}
    (hgood : Good K may A start notes) {P : S × G → Prop}
    (hguar : ∀ {t H x y}, K.guar t H x y → P x → P y)
    (henvironment : ∀ {s s' g}, environment s s' → P (s, g) → P (s', g))
    (hstart : P (start.shared, notes)) (h : K.Watched environment start notes c g) :
    P (c.shared, g) := by
  suffices Good K may A c g ∧ P (c.shared, g) from this.2
  induction h with
  | start => exact ⟨hgood, hstart⟩
  | move _ hpermit hmove ih =>
      obtain ⟨hnext, hstep⟩ := ih.1.move hK hpermit hmove
      refine ⟨hnext, ?_⟩
      rcases hstep with hstep | hsame
      · exact hguar hstep ih.2
      · rw [hsame]
        exact ih.2
  | environment _ hs ih => exact ⟨ih.1.changed hK hs, henvironment hs ih.2⟩

end System

section Triples

variable {α β : Type} {pre pre' : Set M → S × G → Prop} {m : M}

/-- Where `pre` holds the thread may run `p` and then whatever is within the contract
wherever `post` holds. -/
def Triple (K : Contract T M S G) (t : T) (A : S × G → Prop) (pre : Set M → S × G → Prop)
    (p : Prog M S α) (post : α → Set M → S × G → Prop) : Prop :=
  ∀ k : α → Prog M S Bool, (∀ a H x, post a H x → K.Keeps t A (k a) H x) →
    ∀ H x, pre H x → K.Keeps t A (p >>= k) H x

theorem triple_pure {a : α} {post : α → Set M → S × G → Prop}
    (h : ∀ H x, pre H x → post a H x) : K.Triple t A pre (pure a) post :=
  fun _ hk H x hx => hk a H x (h H x hx)

theorem triple_bind {p : Prog M S α} {f : α → Prog M S β} (mid : α → Set M → S × G → Prop)
    {post : β → Set M → S × G → Prop} (hp : K.Triple t A pre p mid)
    (hf : ∀ a, K.Triple t A (mid a) (f a) post) : K.Triple t A pre (p >>= f) post := by
  intro k hk H x hx
  rw [bind_assoc]
  exact hp _ (fun a => hf a k hk) H x hx

theorem Triple.mono {p : Prog M S α} {post post' : α → Set M → S × G → Prop}
    (h : K.Triple t A pre p post) (hpre : ∀ H x, pre' H x → pre H x)
    (hpost : ∀ a H x, post a H x → post' a H x) : K.Triple t A pre' p post' :=
  fun k hk H x hx => h k (fun a H x ha => hk a H x (hpost a H x ha)) H x (hpre H x hx)

/-- A round of the thread. -/
theorem Triple.keeps {p : Prog M S Bool}
    (h : K.Triple t A pre p fun again H x => ∀ y, K.rely t H x y → H = ∅ → again = true → A y)
    {H : Set M} {x : S × G} (hx : pre H x) : K.Keeps t A p H x := by
  have hround := h pure (fun _ _ _ hpost => hpost) H x hx
  rwa [bind_pure] at hround

/-- A lock, where the rest of the program decides if it is permitted. -/
theorem triple_acquire_bind {f : Unit → Prog M S α} (mid : Set M → S × G → Prop)
    {post : α → Set M → S × G → Prop}
    (h : ∀ k H x y, pre H x → K.rely t H x y → K.permit t ((Prog.acquire m >>= f) >>= k) y →
      K.inv m y → mid (insert m H) y)
    (hf : K.Triple t A mid (f ()) post) : K.Triple t A pre (Prog.acquire m >>= f) post :=
  fun k hk H x hx y hy hpermit hinv => hf k hk _ y (h k H x y hx hy hpermit hinv)

theorem triple_acquire {post : Unit → Set M → S × G → Prop}
    (h : ∀ H x y, pre H x → K.rely t H x y → K.inv m y → post () (insert m H) y) :
    K.Triple t A pre (Prog.acquire m) post :=
  fun _ hk H x hx y hy _ hinv => hk () _ y (h H x y hx hy hinv)

theorem triple_release {post : Unit → Set M → S × G → Prop}
    (h : ∀ H x y, pre H x → m ∈ H → K.rely t H x y → K.inv m y ∧ post () (H \ {m}) y) :
    K.Triple t A pre (Prog.release m) post := by
  intro k hk H x hx hm y hy
  obtain ⟨hinv, hpost⟩ := h H x y hx hm hy
  exact ⟨hinv, hk () _ y hpost⟩

theorem triple_read (hK : K.Sound environment) {f : S → α} {post : α → Set M → S × G → Prop}
    (h : ∀ H x y, pre H x → K.rely t H x y → post (f y.1) H (K.noted t H y y.1)) :
    K.Triple t A pre (Prog.read f) post :=
  fun _ hk H x hx y hy => ⟨hK.idle_guar t H y, hk _ _ _ (h H x y hx hy)⟩

theorem triple_write {f : S → S} {post : Unit → Set M → S × G → Prop}
    (h : ∀ H x y, pre H x → K.rely t H x y →
      K.guar t H y (K.noted t H y (f y.1)) ∧ post () H (K.noted t H y (f y.1))) :
    K.Triple t A pre (Prog.write f) post := by
  intro k hk H x hx y hy
  obtain ⟨hguar, hpost⟩ := h H x y hx hy
  exact ⟨hguar, hk () _ _ hpost⟩

theorem triple_sleep {wake : S → Bool} {post : Unit → Set M → S × G → Prop}
    (h : ∀ H x y, pre H x → K.rely t H x y → post () H y) :
    K.Triple t A pre (Prog.sleep wake) post :=
  fun _ hk H x hx y hy => hk () _ y (h H x y hx hy)

/-- What others do leaves `P` alone. -/
def Stable (K : Contract T M S G) (t : T) (P : Set M → S × G → Prop) : Prop :=
  ∀ {H x y}, K.rely t H x y → P H x → P H y

/-- `P`, and the invariant of each mutex that is held. -/
def Owning (K : Contract T M S G) (P : Set M → S × G → Prop) (H : Set M) (x : S × G) : Prop :=
  (∀ m ∈ H, K.inv m x) ∧ P H x

theorem owning_empty {P : Set M → S × G → Prop} {x : S × G} (h : P ∅ x) : K.Owning P ∅ x :=
  ⟨fun _ hm => absurd hm (Set.notMem_empty _), h⟩

theorem Stable.owning (hK : K.Sound environment) {P : Set M → S × G → Prop} (hP : K.Stable t P) :
    K.Stable t (K.Owning P) :=
  fun hy hx => ⟨fun m hm => hK.inv_rely hm hy (hx.1 m hm), hP hy hx.2⟩

/-- Wherever it starts in `P`, with the invariants of the mutexes held, it ends so. -/
def Tidy (K : Contract T M S G) (t : T) (A : S × G → Prop) (P : Set M → S × G → Prop)
    (p : Prog M S α) : Prop :=
  K.Triple t A (K.Owning P) p fun _ => K.Owning P

variable {P : Set M → S × G → Prop}

theorem tidy_pure {a : α} : K.Tidy t A P (pure a) := triple_pure fun _ _ hx => hx

theorem tidy_bind {p : Prog M S α} {f : α → Prog M S β} (hp : K.Tidy t A P p)
    (hf : ∀ a, K.Tidy t A P (f a)) : K.Tidy t A P (p >>= f) := triple_bind _ hp hf

theorem tidy_acquire (hK : K.Sound environment) (hP : K.Stable t P)
    (hinsert : ∀ H x, P H x → P (insert m H) x) : K.Tidy t A P (Prog.acquire m) := by
  apply triple_acquire
  intro H x y hx hy hinv
  obtain ⟨hheld, hPy⟩ := hP.owning hK hy hx
  refine ⟨fun m' hm' => ?_, hinsert H y hPy⟩
  rcases Set.mem_insert_iff.mp hm' with rfl | hm'
  · exact hinv
  · exact hheld m' hm'

theorem tidy_release (hK : K.Sound environment) (hP : K.Stable t P)
    (herase : ∀ H x, P H x → P (H \ {m}) x) : K.Tidy t A P (Prog.release m) := by
  apply triple_release
  intro H x y hx hm hy
  obtain ⟨hheld, hPy⟩ := hP.owning hK hy hx
  exact ⟨hheld m hm, fun m' hm' => hheld m' hm'.1, herase H y hPy⟩

theorem tidy_read (hK : K.Sound environment) (hP : K.Stable t P) {f : S → α} :
    K.Tidy t A P (Prog.read f) :=
  triple_read hK fun H _ y hx hy =>
    hP.owning hK (hK.idle_rely t H y) (hP.owning hK hy hx)

theorem tidy_write (hK : K.Sound environment) (hP : K.Stable t P) {f : S → S}
    (h : ∀ H x, K.Owning P H x → K.guar t H x (K.noted t H x (f x.1)) ∧
      K.Owning P H (K.noted t H x (f x.1))) : K.Tidy t A P (Prog.write f) :=
  triple_write fun H _ y hx hy => h H y (hP.owning hK hy hx)

theorem tidy_sleep (hK : K.Sound environment) (hP : K.Stable t P) {wake : S → Bool} :
    K.Tidy t A P (Prog.sleep wake) :=
  triple_sleep fun _ _ _ hx hy => hP.owning hK hy hx

end Triples

end Contract

end FortyTwo.Foundation
