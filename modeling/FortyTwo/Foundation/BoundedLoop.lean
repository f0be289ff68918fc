import Mathlib.Tactic

/-!
A `while` loop over an explicit state, run for at most a given number of
rounds. A round may be undefined; `outOfFuel` is the distinguished error of a
loop that has not left its condition in time. A loop is shown to terminate by
proving that some number of rounds is enough for it.
-/

namespace FortyTwo.Foundation

section Bind

variable {ε α β : Type}

/-- A computation that goes on only if its first part does not fail. -/
theorem except_bind_eq_ok {x : Except ε α} {f : α → Except ε β} {b : β} :
    x >>= f = .ok b ↔ ∃ a, x = .ok a ∧ f a = .ok b := by
  cases x with
  | error e => exact ⟨nofun, nofun⟩
  | ok a => exact ⟨fun h => ⟨a, rfl, h⟩, fun ⟨_, ha, h⟩ => by cases ha; exact h⟩

end Bind

variable {ε σ : Type*}

/-- `while cond do body`, at most `fuel` rounds. -/
def boundedWhile (outOfFuel : ε) (cond : σ → Bool) (body : σ → Except ε σ) :
    Nat → σ → Except ε σ
  | 0, s => if cond s then .error outOfFuel else .ok s
  | fuel + 1, s =>
      if cond s then (body s).bind (boundedWhile outOfFuel cond body fuel) else .ok s

theorem boundedWhile_exit (outOfFuel : ε) (cond : σ → Bool) (body : σ → Except ε σ)
    (fuel : Nat) (s : σ) (h : cond s = false) :
    boundedWhile outOfFuel cond body fuel s = .ok s := by
  cases fuel <;> simp [boundedWhile, h]

theorem boundedWhile_round (outOfFuel : ε) (cond : σ → Bool) (body : σ → Except ε σ)
    (fuel : Nat) (s : σ) (h : cond s = true) :
    boundedWhile outOfFuel cond body (fuel + 1) s =
      (body s).bind (boundedWhile outOfFuel cond body fuel) := by
  simp [boundedWhile, h]

/-- Total correctness: an invariant kept by every round and a variant that
every round lowers take the loop to a state that leaves the condition. -/
theorem boundedWhile_total (outOfFuel : ε) (cond : σ → Bool) (body : σ → Except ε σ)
    (inv : σ → Prop) (variant : σ → Nat)
    (hround : ∀ s, inv s → cond s = true →
      ∃ next, body s = .ok next ∧ inv next ∧ variant next < variant s)
    (fuel : Nat) (s : σ) (hs : inv s) (hfuel : variant s ≤ fuel) :
    ∃ final, boundedWhile outOfFuel cond body fuel s = .ok final ∧
      inv final ∧ cond final = false := by
  induction fuel generalizing s with
  | zero =>
      have hexit : cond s = false := by
        by_contra hcond
        obtain ⟨next, _, _, hlt⟩ := hround s hs (by simpa using hcond)
        omega
      exact ⟨s, boundedWhile_exit _ _ _ _ _ hexit, hs, hexit⟩
  | succ fuel ih =>
      cases hcond : cond s with
      | false => exact ⟨s, boundedWhile_exit _ _ _ _ _ hcond, hs, hcond⟩
      | true =>
          obtain ⟨next, hbody, hnext, hlt⟩ := hround s hs hcond
          obtain ⟨final, hrun, hfinal, hexit⟩ := ih next hnext (by omega)
          refine ⟨final, ?_, hfinal, hexit⟩
          rw [boundedWhile_round _ _ _ _ _ hcond, hbody]
          exact hrun

/-- Partial correctness: whatever the number of rounds, a loop that returns
returns a state of the invariant that leaves the condition. -/
theorem boundedWhile_partial (outOfFuel : ε) (cond : σ → Bool) (body : σ → Except ε σ)
    (inv : σ → Prop)
    (hround : ∀ s next, inv s → cond s = true → body s = .ok next → inv next)
    (fuel : Nat) (s final : σ) (hs : inv s)
    (hrun : boundedWhile outOfFuel cond body fuel s = .ok final) :
    inv final ∧ cond final = false := by
  induction fuel generalizing s with
  | zero =>
      cases hcond : cond s with
      | false =>
          rw [boundedWhile_exit _ _ _ _ _ hcond] at hrun
          cases hrun
          exact ⟨hs, hcond⟩
      | true => simp [boundedWhile, hcond] at hrun
  | succ fuel ih =>
      cases hcond : cond s with
      | false =>
          rw [boundedWhile_exit _ _ _ _ _ hcond] at hrun
          cases hrun
          exact ⟨hs, hcond⟩
      | true =>
          rw [boundedWhile_round _ _ _ _ _ hcond] at hrun
          cases hbody : body s with
          | error e => simp [hbody, Except.bind] at hrun
          | ok next =>
              rw [hbody] at hrun
              exact ih next (hround s next hs hcond hbody) hrun

/-- A loop that returns does so with more rounds to run as well. -/
theorem boundedWhile_more {outOfFuel : ε} {cond : σ → Bool} {body : σ → Except ε σ}
    {fuel more : Nat} {s final : σ} (hrun : boundedWhile outOfFuel cond body fuel s = .ok final)
    (hle : fuel ≤ more) : boundedWhile outOfFuel cond body more s = .ok final := by
  induction fuel generalizing s more with
  | zero =>
      rw [boundedWhile] at hrun
      split at hrun
      · cases hrun
      · next hexit =>
          rw [boundedWhile_exit _ _ _ _ _ (by simpa using hexit)]
          exact hrun
  | succ fuel ih =>
      obtain ⟨more, rfl⟩ := Nat.exists_eq_add_of_le' (Nat.le_trans (Nat.le_add_left 1 fuel) hle)
      rw [boundedWhile] at hrun ⊢
      split at hrun
      · next hcond =>
          rw [if_pos hcond]
          cases hbody : body s with
          | error e =>
              rw [hbody] at hrun
              cases hrun
          | ok next =>
              rw [hbody] at hrun
              exact ih hrun (Nat.le_of_add_le_add_right hle)
      · next hcond =>
          rw [if_neg hcond]
          exact hrun

/-- One round of the loop. -/
def Round (cond : σ → Bool) (body : σ → Except ε σ) (s next : σ) : Prop :=
  cond s = true ∧ body s = .ok next

/-- Rounds that lead out of the condition are what the loop does, once it may
run for that many of them. -/
theorem boundedWhile_of_rounds (outOfFuel : ε) {cond : σ → Bool} {body : σ → Except ε σ}
    {s final : σ} (hrounds : Relation.ReflTransGen (Round cond body) s final)
    (hexit : cond final = false) :
    ∃ enough, ∀ fuel, enough ≤ fuel → boundedWhile outOfFuel cond body fuel s = .ok final := by
  induction hrounds using Relation.ReflTransGen.head_induction_on with
  | refl => exact ⟨0, fun fuel _ => boundedWhile_exit _ _ _ _ _ hexit⟩
  | head hround _ ih =>
      obtain ⟨enough, hrun⟩ := ih
      refine ⟨enough + 1, ?_⟩
      intro fuel hfuel
      obtain ⟨fuel, rfl⟩ : ∃ less, fuel = less + 1 := ⟨fuel - 1, by omega⟩
      rw [boundedWhile_round _ _ _ _ _ hround.1, hround.2]
      exact hrun fuel (by omega)

theorem boundedWhile_body {outOfFuel : ε} {cond : σ → Bool} {body : σ → Except ε σ} {fuel : Nat}
    {s final : σ} (hrun : boundedWhile outOfFuel cond body fuel s = .ok final)
    (hcond : cond s = true) : ∃ next, body s = .ok next := by
  cases fuel with
  | zero => simp [boundedWhile, hcond] at hrun
  | succ fuel =>
      rw [boundedWhile_round _ _ _ _ _ hcond] at hrun
      cases hbody : body s with
      | ok next => exact ⟨next, rfl⟩
      | error e =>
          rw [hbody] at hrun
          cases hrun

/-- A loop that returns does so from every state that it comes to, in fewer rounds. -/
theorem boundedWhile_later {outOfFuel : ε} {cond : σ → Bool} {body : σ → Except ε σ}
    {s next final : σ} (hrounds : Relation.TransGen (Round cond body) s next) {fuel : Nat}
    (hrun : boundedWhile outOfFuel cond body fuel s = .ok final) :
    ∃ less < fuel, boundedWhile outOfFuel cond body less next = .ok final := by
  have hround : ∀ {s next : σ} {fuel : Nat}, Round cond body s next →
      boundedWhile outOfFuel cond body fuel s = .ok final →
      ∃ less < fuel, boundedWhile outOfFuel cond body less next = .ok final := by
    intro s next fuel hround hrun
    cases fuel with
    | zero => simp [boundedWhile, hround.1] at hrun
    | succ fuel =>
        rw [boundedWhile_round _ _ _ _ _ hround.1, hround.2] at hrun
        exact ⟨fuel, Nat.lt_succ_self fuel, hrun⟩
  induction hrounds with
  | single hlast => exact hround hlast hrun
  | tail _ hlast ih =>
      obtain ⟨more, hmore, hrun⟩ := ih
      obtain ⟨less, hless, hrun⟩ := hround hlast hrun
      exact ⟨less, lt_trans hless hmore, hrun⟩

/-- An error other than `outOfFuel` is that of a round the loop comes to. -/
theorem boundedWhile_error {outOfFuel e : ε} {cond : σ → Bool} {body : σ → Except ε σ}
    {fuel : Nat} {s : σ} (hrun : boundedWhile outOfFuel cond body fuel s = .error e) :
    e = outOfFuel ∨ ∃ last, Relation.ReflTransGen (Round cond body) s last ∧
      cond last = true ∧ body last = .error e := by
  induction fuel generalizing s with
  | zero =>
      rw [boundedWhile] at hrun
      split at hrun
      · cases hrun
        exact Or.inl rfl
      · cases hrun
  | succ fuel ih =>
      cases hcond : cond s with
      | false =>
          rw [boundedWhile_exit _ _ _ _ _ hcond] at hrun
          cases hrun
      | true =>
          rw [boundedWhile_round _ _ _ _ _ hcond] at hrun
          cases hbody : body s with
          | error failure =>
              rw [hbody] at hrun
              cases hrun
              exact Or.inr ⟨s, .refl, hcond, hbody⟩
          | ok next =>
              rw [hbody] at hrun
              rcases ih hrun with hfuel | ⟨last, hrounds, hlast⟩
              · exact Or.inl hfuel
              · exact Or.inr ⟨last, .head ⟨hcond, hbody⟩ hrounds, hlast⟩

end FortyTwo.Foundation
