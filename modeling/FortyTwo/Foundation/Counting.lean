import FortyTwo.Foundation.BoundedLoop

/-!
Computations that count. One that does nothing else than a computation that does
not count is related to it by a bound on what it counts, which may be read off the
result; a loop spends what a potential of its state says.
-/

namespace FortyTwo.Foundation

variable {ε α β σ : Type}

abbrev Counted (ε α : Type) := StateT Nat (Except ε) α

def tick : Counted ε Unit := modify (· + 1)

/-- `boundedWhile` with a body that counts. -/
def countedWhile (outOfFuel : ε) (cond : σ → Bool) (body : σ → Counted ε σ) (fuel : Nat) (s : σ) :
    Counted ε σ := fun count =>
  boundedWhile outOfFuel (fun p : σ × Nat => cond p.1) (fun p => body p.1 p.2) fuel (s, count)

/-- Where `x` returns, `m` returns the same and counts `bound` more at most. -/
def Counts (m : Counted ε α) (x : Except ε α) (bound : α → Int) : Prop :=
  ∀ a, x = .ok a → ∀ count, ∃ more : Nat, m count = .ok (a, more) ∧ (more : Int) ≤ count + bound a

theorem Counts.mono {m : Counted ε α} {x : Except ε α} {bound bound' : α → Int}
    (h : Counts m x bound) (hle : ∀ a, x = .ok a → bound a ≤ bound' a) : Counts m x bound' := by
  intro a ha count
  obtain ⟨more, hm, hmore⟩ := h a ha count
  have := hle a ha
  exact ⟨more, hm, by omega⟩

theorem counts_pure (a : α) : Counts (ε := ε) (pure a) (pure a) fun _ => 0 := by
  intro b hb count
  cases hb
  exact ⟨count, rfl, by simp⟩

theorem counts_lift (x : Except ε α) : Counts (liftM x) x fun _ => 0 := by
  intro a ha count
  subst ha
  exact ⟨count, rfl, by simp⟩

theorem counts_error {m : Counted ε α} {e : ε} {bound : α → Int} :
    Counts m (.error e) bound := nofun

theorem counts_tick {m : Counted ε α} {x : Except ε α} {bound : α → Int} (h : Counts m x bound) :
    Counts (tick >>= fun _ => m) x fun a => bound a + 1 := by
  intro a ha count
  obtain ⟨more, hm, hmore⟩ := h a ha (count + 1)
  exact ⟨more, hm, by push_cast at hmore; linarith⟩

theorem counts_bind {m : Counted ε α} {x : Except ε α} {g : α → Counted ε β}
    {f : α → Except ε β} {first : α → Int} {bound : β → Int} (second : α → β → Int)
    (hm : Counts m x first) (hg : ∀ a, x = .ok a → Counts (g a) (f a) (second a))
    (hbound : ∀ a b, x = .ok a → f a = .ok b → first a + second a b ≤ bound b) :
    Counts (m >>= g) (x >>= f) bound := by
  intro b hb count
  cases x with
  | error e => cases hb
  | ok a =>
      obtain ⟨more, hrun, hmore⟩ := hm a rfl count
      obtain ⟨most, hrest, hmost⟩ := hg a rfl b hb more
      have hsum := hbound a b rfl hb
      refine ⟨most, ?_, by omega⟩
      change (m count >>= fun p => g p.1 p.2) = _
      rw [hrun]
      exact hrest

/-- Each round counts what `spent` grows by at most. -/
theorem counts_while (outOfFuel : ε) {cond : σ → Bool} {body : σ → Except ε σ}
    {counted : σ → Counted ε σ} (inv : σ → Prop) (spent : σ → Int)
    (hinv : ∀ s next, inv s → cond s = true → body s = .ok next → inv next)
    (hround : ∀ s, inv s → cond s = true →
      Counts (counted s) (body s) fun next => spent next - spent s)
    (fuel : Nat) (s : σ) (hs : inv s) :
    Counts (countedWhile outOfFuel cond counted fuel s) (boundedWhile outOfFuel cond body fuel s)
      fun final => spent final - spent s := by
  induction fuel generalizing s with
  | zero =>
      intro final hfinal count
      cases hcond : cond s with
      | false =>
          rw [boundedWhile_exit _ _ _ _ _ hcond] at hfinal
          cases hfinal
          refine ⟨count, ?_, by simp⟩
          exact boundedWhile_exit _ _ _ _ (s, count) hcond
      | true => simp [boundedWhile, hcond] at hfinal
  | succ fuel ih =>
      intro final hfinal count
      cases hcond : cond s with
      | false =>
          rw [boundedWhile_exit _ _ _ _ _ hcond] at hfinal
          cases hfinal
          refine ⟨count, ?_, by simp⟩
          exact boundedWhile_exit _ _ _ _ (s, count) hcond
      | true =>
          rw [boundedWhile_round _ _ _ _ _ hcond] at hfinal
          cases hbody : body s with
          | error e =>
              rw [hbody] at hfinal
              cases hfinal
          | ok next =>
              rw [hbody] at hfinal
              obtain ⟨more, hrun, hmore⟩ := hround s hs hcond next hbody count
              obtain ⟨most, hrest, hmost⟩ := ih next (hinv s next hs hcond hbody) final hfinal more
              refine ⟨most, ?_, by linarith⟩
              change boundedWhile _ _ _ (fuel + 1) (s, count) = _
              rw [boundedWhile_round _ _ _ _ (s, count) hcond, hrun]
              exact hrest

end FortyTwo.Foundation
