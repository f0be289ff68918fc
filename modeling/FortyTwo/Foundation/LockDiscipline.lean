import Mathlib.Data.Set.Insert
import Mathlib.Tactic

/-!
Threads that share a state and lock mutexes. A thread is a program that is run
over and over until it says to stop; a step of the system is a step of one thread
or of the environment. A rank of the mutexes that grows along the locks of each
thread excludes that they wait for each other.
-/

namespace FortyTwo.Foundation

/-- A program over mutexes `M` and a shared state `S`. -/
inductive Prog (M S α : Type) where
  | done (a : α)
  | lock (m : M) (next : Prog M S α)
  | unlock (m : M) (next : Prog M S α)
  | access (f : S → S) (next : S → Prog M S α)
  | wait (wake : S → Bool) (next : Prog M S α)

namespace Prog

variable {M S α β : Type}

def bind : Prog M S α → (α → Prog M S β) → Prog M S β
  | done a, f => f a
  | lock m next, f => lock m (next.bind f)
  | unlock m next, f => unlock m (next.bind f)
  | access g next, f => access g fun s => (next s).bind f
  | wait wake next, f => wait wake (next.bind f)

instance : Monad (Prog M S) where
  pure := done
  bind := bind

def acquire (m : M) : Prog M S Unit := lock m (done ())

def release (m : M) : Prog M S Unit := unlock m (done ())

def read (f : S → α) : Prog M S α := access id fun s => done (f s)

def write (f : S → S) : Prog M S Unit := access f fun _ => done ()

def sleep (wake : S → Bool) : Prog M S Unit := wait wake (done ())

/-- What holds of the mutexes that a thread holds, from `held` on: `may` of each lock,
that it unlocks what it holds, and `post` at the end. -/
def Safe (may : Set M → M → Prop) (held : Set M) (post : Set M → α → Prop) :
    Prog M S α → Prop
  | done a => post held a
  | lock m next => may held m ∧ Safe may (insert m held) post next
  | unlock m next => m ∈ held ∧ Safe may (held \ {m}) post next
  | access _ next => ∀ s, Safe may held post (next s)
  | wait _ next => Safe may held post next

variable {may : Set M → M → Prop} {held : Set M} {post : Set M → α → Prop}

theorem safe_bind {p : Prog M S α} {f : α → Prog M S β} {post : Set M → β → Prop} :
    (p >>= f).Safe may held post ↔
      p.Safe may held fun H a => (f a).Safe may H post := by
  change (p.bind f).Safe may held post ↔ _
  induction p generalizing held with
  | done a => exact Iff.rfl
  | lock m next ih => exact and_congr_right fun _ => ih
  | unlock m next ih => exact and_congr_right fun _ => ih
  | access g next ih => exact forall_congr' fun s => ih s
  | wait wake next ih => exact ih

section Rules

variable {post : Set M → Unit → Prop} {m : M}

theorem safe_acquire :
    (acquire m : Prog M S Unit).Safe may held post ↔ may held m ∧ post (insert m held) () :=
  Iff.rfl

theorem safe_release :
    (release m : Prog M S Unit).Safe may held post ↔ m ∈ held ∧ post (held \ {m}) () :=
  Iff.rfl

theorem safe_read {f : S → α} {post : Set M → α → Prop} (h : ∀ a, post held a) :
    (read f : Prog M S α).Safe may held post := fun s => h (f s)

theorem safe_write {f : S → S} (h : post held ()) :
    (write f : Prog M S Unit).Safe may held post := fun _ => h

theorem safe_sleep {wake : S → Bool} :
    (sleep wake : Prog M S Unit).Safe may held post ↔ post held () := Iff.rfl

theorem safe_pure {a : α} {post : Set M → α → Prop} :
    (pure a : Prog M S α).Safe may held post ↔ post held a := Iff.rfl

end Rules

end Prog

section System

variable {T M S : Type} [DecidableEq T]

/-- What is left of the current round of a thread, and the round; `true` at its
end means another one. -/
structure Thread (M S : Type) where
  current : Prog M S Bool
  body : Prog M S Bool

structure Config (T M S : Type) where
  threads : T → Thread M S
  owner : M → Option T
  shared : S

inductive Action (M : Type) where
  | lock (m : M)
  | unlock (m : M)

namespace Config

/-- The thread `t` goes on with `p`. -/
def goto (c : Config T M S) (t : T) (p : Prog M S Bool) : Config T M S :=
  { c with threads := Function.update c.threads t { c.threads t with current := p } }

theorem threads_goto_self (c : Config T M S) (t : T) (p : Prog M S Bool) :
    (c.goto t p).threads t = ⟨p, (c.threads t).body⟩ := Function.update_self _ _ _

theorem threads_goto_of_ne (c : Config T M S) {t other : T} (h : other ≠ t) (p : Prog M S Bool) :
    (c.goto t p).threads other = c.threads other := Function.update_of_ne h _ _

variable [DecidableEq M]

def setOwner (c : Config T M S) (m : M) (o : Option T) : Config T M S :=
  { c with owner := Function.update c.owner m o }

def Finished (c : Config T M S) (t : T) : Prop := (c.threads t).current = .done false

/-- `t` waits for a mutex that some thread holds, be it another or itself. -/
def Waits (c : Config T M S) (t : T) : Prop :=
  ∃ m next holder, (c.threads t).current = .lock m next ∧ c.owner m = some holder

/-- Some threads are not finished, and each of them waits. -/
def Deadlock (c : Config T M S) : Prop :=
  (∃ t, ¬ c.Finished t) ∧ ∀ t, ¬ c.Finished t → c.Waits t

def held (c : Config T M S) (t : T) : Set M := {m | c.owner m = some t}

omit [DecidableEq T] in
theorem held_setOwner_some (c : Config T M S) (m : M) (t : T) :
    (c.setOwner m (some t)).held t = insert m (c.held t) := by
  ext m'
  change Function.update c.owner m (some t) m' = some t ↔ m' = m ∨ c.owner m' = some t
  by_cases hm : m' = m
  · subst hm
    simp
  · simp [hm]

omit [DecidableEq T] in
theorem held_setOwner_none (c : Config T M S) (m : M) (t : T) :
    (c.setOwner m none).held t = c.held t \ {m} := by
  ext m'
  change Function.update c.owner m none m' = some t ↔ c.owner m' = some t ∧ m' ≠ m
  by_cases hm : m' = m
  · subst hm
    simp
  · simp [hm]

omit [DecidableEq T] in
theorem held_setOwner_of_ne {c : Config T M S} {m : M} {o : Option T} {other : T}
    (hold : c.owner m ≠ some other) (hnew : o ≠ some other) :
    (c.setOwner m o).held other = c.held other := by
  ext m'
  change Function.update c.owner m o m' = some other ↔ c.owner m' = some other
  by_cases hm : m' = m
  · subst hm
    rw [Function.update_self]
    exact iff_of_false hnew hold
  · rw [Function.update_of_ne hm]

end Config

variable [DecidableEq M]

/-- A step of a thread, with what it does to a mutex, or of the environment. A thread
that waits may be looked at in vain. -/
inductive Step (environment : S → S → Prop) :
    Config T M S → List (T × Action M) → Config T M S → Prop
  | lock {c t m next} (hp : (c.threads t).current = .lock m next) (hfree : c.owner m = none) :
      Step environment c [(t, .lock m)] ((c.setOwner m (some t)).goto t next)
  | unlock {c t m next} (hp : (c.threads t).current = .unlock m next) :
      Step environment c [(t, .unlock m)] ((c.setOwner m none).goto t next)
  | access {c t f next} (hp : (c.threads t).current = .access f next) :
      Step environment c []
        (Config.goto { c with shared := f c.shared } t (next c.shared))
  | wake {c t wake next} (hp : (c.threads t).current = .wait wake next)
      (hwake : wake c.shared = true) : Step environment c [] (c.goto t next)
  | sleep {c t wake next} (hp : (c.threads t).current = .wait wake next)
      (hwake : wake c.shared = false) : Step environment c [] c
  | again {c t} (hp : (c.threads t).current = .done true) :
      Step environment c [] (c.goto t (c.threads t).body)
  | environment {c s} (hs : environment c.shared s) :
      Step environment c [] { c with shared := s }

/-- The runs from `start`, with the actions on the mutexes in their order. -/
inductive Run (environment : S → S → Prop) (start : Config T M S) :
    List (T × Action M) → Config T M S → Prop
  | start : Run environment start [] start
  | step {trace c actions next} (hrun : Run environment start trace c)
      (hstep : Step environment c actions next) : Run environment start (trace ++ actions) next

/-- Each thread locks as `may` allows it, and ends its rounds without a mutex. -/
def Disciplined (may : T → Set M → M → Prop) (c : Config T M S) : Prop :=
  ∀ t, (c.threads t).current.Safe (may t) (c.held t) (fun H _ => H = ∅) ∧
    (c.threads t).body.Safe (may t) ∅ (fun H _ => H = ∅)

variable {environment : S → S → Prop} {may : T → Set M → M → Prop} {c c' : Config T M S} {t : T}

namespace Disciplined

omit [DecidableEq M] in
theorem goto (h : Disciplined may c) {p : Prog M S Bool}
    (hp : p.Safe (may t) (c.held t) fun H _ => H = ∅) : Disciplined may (c.goto t p) := by
  intro other
  by_cases hother : other = t
  · subst hother
    rw [Config.threads_goto_self]
    exact ⟨hp, (h other).2⟩
  · rw [Config.threads_goto_of_ne c hother]
    exact h other

/-- The mutex `m` passes to `o`; no thread but `t` has to do with it. -/
private theorem setOwner {m : M} {o : Option T} (h : Disciplined may c)
    (hold : ∀ other, c.owner m = some other → other = t) (hnew : ∀ other, o = some other → other = t)
    {p : Prog M S Bool}
    (hp : p.Safe (may t) ((c.setOwner m o).held t) fun H _ => H = ∅) :
    Disciplined may ((c.setOwner m o).goto t p) := by
  intro other
  by_cases hother : other = t
  · subst hother
    rw [Config.threads_goto_self]
    exact ⟨hp, (h other).2⟩
  · have hheld : (c.setOwner m o).held other = c.held other :=
      Config.held_setOwner_of_ne (fun heq => hother (hold other heq))
        fun heq => hother (hnew other heq)
    rw [Config.threads_goto_of_ne _ hother]
    change (c.threads other).current.Safe (may other) ((c.setOwner m o).held other) _ ∧ _
    rw [hheld]
    exact h other

theorem step {actions : List (T × Action M)} (h : Disciplined may c)
    (hstep : Step environment c actions c') : Disciplined may c' := by
  cases hstep with
  | @lock t m next hp hfree =>
      have hsafe := (h t).1
      rw [hp] at hsafe
      refine h.setOwner (fun other hother => ?_) (fun other hother => (Option.some.inj hother).symm) ?_
      · rw [hfree] at hother
        cases hother
      · rw [Config.held_setOwner_some]
        exact hsafe.2
  | @unlock t m next hp =>
      have hsafe := (h t).1
      rw [hp] at hsafe
      have howner : c.owner m = some t := hsafe.1
      refine h.setOwner (fun other hother => ?_) (fun other hother => by cases hother) ?_
      · rw [howner] at hother
        exact (Option.some.inj hother).symm
      · rw [Config.held_setOwner_none]
        exact hsafe.2
  | @access t f next hp =>
      have hsafe := (h t).1
      rw [hp] at hsafe
      exact goto h (c := { c with shared := f c.shared }) (hsafe c.shared)
  | @wake t wake next hp _ =>
      have hsafe := (h t).1
      rw [hp] at hsafe
      exact h.goto hsafe
  | sleep _ _ => exact h
  | @again t hp =>
      have hsafe := (h t).1
      rw [hp] at hsafe
      have hempty : c.held t = ∅ := hsafe
      exact h.goto (hempty ▸ (h t).2)
  | environment _ => exact h

theorem run {start : Config T M S} {trace : List (T × Action M)} (h : Disciplined may start)
    (hrun : Run environment start trace c) : Disciplined may c := by
  induction hrun with
  | start => exact h
  | step _ hstep ih => exact ih.step hstep

omit [DecidableEq T] [DecidableEq M] in
/-- No circle of threads waits when each locks by rank. -/
theorem not_deadlock (h : Disciplined may c) (rank : M → Nat) (bound : Nat)
    (hbound : ∀ m, rank m ≤ bound)
    (hrank : ∀ t H m, may t H m → ∀ m' ∈ H, rank m' < rank m) : ¬ c.Deadlock := by
  rintro ⟨⟨start, hstart⟩, hwaits⟩
  -- from a thread that waits, one that waits for a mutex of higher rank
  have hchain : ∀ n t m next holder, (c.threads t).current = .lock m next →
      c.owner m = some holder → bound - rank m < n → False := by
    intro n
    induction n with
    | zero => intro _ _ _ _ _ _ hlt; omega
    | succ n ih =>
        intro t m next holder _ howner hlt
        have hsafe := (h holder).1
        have hheld : m ∈ c.held holder := howner
        have hunfinished : ¬ c.Finished holder := by
          intro hfinished
          rw [hfinished] at hsafe
          have hempty : c.held holder = ∅ := hsafe
          rw [hempty] at hheld
          exact hheld
        obtain ⟨m', next', holder', hp, howner'⟩ := hwaits holder hunfinished
        rw [hp] at hsafe
        have hless := hrank holder _ m' hsafe.1 m hheld
        have hle := hbound m'
        exact ih holder m' next' holder' hp howner' (by omega)
  obtain ⟨m, next, holder, hp, howner⟩ := hwaits start hstart
  exact hchain _ start m next holder hp howner (Nat.lt_succ_self _)

end Disciplined

/-- `t` has locked `m`, and has unlocked none of `ms` since. -/
def LockedSince (trace : List (T × Action M)) (t : T) (m : M) (ms : Set M) : Prop :=
  ∃ before after, trace = before ++ (t, .lock m) :: after ∧ ∀ m' ∈ ms, (t, .unlock m') ∉ after

omit [DecidableEq T] [DecidableEq M] in
private theorem lockedSince_append {trace : List (T × Action M)} {e : T × Action M} {m : M}
    {ms : Set M} (h : LockedSince (trace ++ [e]) t m ms) :
    e = (t, .lock m) ∨ (LockedSince trace t m ms ∧ ∀ m' ∈ ms, e ≠ (t, .unlock m')) := by
  obtain ⟨before, after, heq, hafter⟩ := h
  rcases List.eq_nil_or_concat after with rfl | ⟨rest, last, rfl⟩
  · have hlast := congrArg List.getLast? heq
    simp only [List.getLast?_append, List.getLast?_singleton, Option.some_or,
      Option.some.injEq] at hlast
    exact Or.inl hlast
  · rw [List.concat_eq_append, ← List.cons_append, ← List.append_assoc] at heq
    obtain ⟨rfl, hlast⟩ := List.append_inj' heq rfl
    obtain rfl := List.singleton_inj.mp hlast
    refine Or.inr ⟨⟨before, rest, rfl, fun m' hm' hmem => ?_⟩, fun m' hm' heq => ?_⟩
    · exact hafter m' hm' (by simp [hmem])
    · exact hafter m' hm' (by simp [heq])

/-- Mutexes that a thread must hold to lock `m` are its own from then on, until it
unlocks one of them. -/
theorem owner_of_lockedSince {start : Config T M S} {trace : List (T × Action M)} {m : M}
    {ms : Set M} (hstart : Disciplined may start) (hrun : Run environment start trace c)
    (hmay : ∀ H, may t H m → ∀ m' ∈ ms, m' = m ∨ m' ∈ H) (h : LockedSince trace t m ms) :
    ∀ m' ∈ ms, c.owner m' = some t := by
  induction hrun with
  | start =>
      obtain ⟨before, after, heq, -⟩ := h
      simp at heq
  | @step trace c actions next hrun hstep ih =>
      have hdisciplined := hstart.run hrun
      intro m' hm'
      cases hstep with
      | @lock s x next hp hfree =>
          change Function.update c.owner x (some s) m' = some t
          rcases lockedSince_append h with heq | ⟨hbefore, -⟩
          · obtain ⟨rfl, rfl⟩ : s = t ∧ x = m := by simpa using heq
            have hsafe := (hdisciplined s).1
            rw [hp] at hsafe
            rcases hmay _ hsafe.1 m' hm' with rfl | hheld
            · exact Function.update_self _ _ _
            · have hne : m' ≠ x := by
                rintro rfl
                rw [show c.owner m' = some s from hheld] at hfree
                cases hfree
              rw [Function.update_of_ne hne]
              exact hheld
          · have howner := ih hbefore m' hm'
            have hne : m' ≠ x := by
              rintro rfl
              rw [hfree] at howner
              cases howner
            rw [Function.update_of_ne hne]
            exact howner
      | @unlock s x next hp =>
          change Function.update c.owner x none m' = some t
          rcases lockedSince_append h with heq | ⟨hbefore, hnot⟩
          · simp at heq
          · have howner := ih hbefore m' hm'
            have hsafe := (hdisciplined s).1
            rw [hp] at hsafe
            have hx : c.owner x = some s := hsafe.1
            have hne : m' ≠ x := by
              rintro rfl
              rw [howner, Option.some.injEq] at hx
              exact hnot m' hm' (by rw [hx])
            rw [Function.update_of_ne hne]
            exact howner
      | access _ => exact ih (by simpa using h) m' hm'
      | wake _ _ => exact ih (by simpa using h) m' hm'
      | sleep _ _ => exact ih (by simpa using h) m' hm'
      | again _ => exact ih (by simpa using h) m' hm'
      | environment _ => exact ih (by simpa using h) m' hm'

end System

end FortyTwo.Foundation
