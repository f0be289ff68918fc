import FortyTwo.Foundation.IntegerRotation
import FortyTwo.PushSwap.Program

/-!
What the stack operations and `do_move` do, and that each of them writes
exactly the instruction it carries out: replaying the log from the original
stacks leads to the numbers now on the stacks.
-/

namespace FortyTwo.PushSwap

open Foundation

/-- The log written so far explains the stacks. -/
def Faithful (xs : List Int) (s : Stacks) : Prop :=
  replay s.out (xs, []) = (s.a.map Node.number, s.b.map Node.number)

/-- `r` is `s` with its stacks rotated by `up` and `vp`, the log kept faithful. -/
structure Turned (xs : List Int) (s r : Stacks) (up vp : Int) : Prop where
  a : r.a = rotateBy up s.a
  b : r.b = rotateBy vp s.b
  faithful : Faithful xs s → Faithful xs r

theorem Turned.refl (xs : List Int) (s : Stacks) : Turned xs s s 0 0 :=
  ⟨by simp, by simp, id⟩

theorem Turned.trans {xs : List Int} {s r t : Stacks} {up vp up' vp' : Int}
    (h : Turned xs s r up vp) (h' : Turned xs r t up' vp') :
    Turned xs s t (up + up') (vp + vp') := by
  refine ⟨?_, ?_, fun hs => h'.faithful (h.faithful hs)⟩
  · rw [h'.a, h.a, rotateBy_rotateBy]
  · rw [h'.b, h.b, rotateBy_rotateBy]

private theorem rotateUp_eq_rotateBy {α : Type*} (l : List α) : rotateUp l = rotateBy 1 l :=
  (rotateBy_natCast 1 l).symm

private theorem rotateDown_eq_rotateBy {α : Type*} (l : List α) :
    rotateDown l = rotateBy (-1) l := by
  rcases l with _ | ⟨x, rest⟩
  · rfl
  · rw [rotateDown, ← rotateBy_natCast]
    apply rotateBy_congr
    have hlen : (((x :: rest).length - 1 : Nat) : Int) = -1 + ((x :: rest).length : Int) := by
      simp
    rw [hlen, Int.add_emod_right]

/-- `rotate_x` turns the stack up; it writes when there are two nodes. -/
theorem rotateX_eq (stack : List Node) (txt : Option Instr) :
    rotateX stack txt = (rotateUp stack, if 2 ≤ stack.length then txt.toList else []) := by
  rcases stack with _ | ⟨x, _ | ⟨y, rest⟩⟩ <;> simp [rotateX, rotateUp]

theorem reverseRotateX_eq (stack : List Node) (txt : Option Instr) :
    reverseRotateX stack txt = (rotateDown stack, if 2 ≤ stack.length then txt.toList else []) := by
  rcases stack with _ | ⟨x, _ | ⟨y, rest⟩⟩
  · simp [reverseRotateX, rotateDown]
  · simp [reverseRotateX, rotateDown]
  · have hlen : (x :: y :: rest).length - 1 ≤ (x :: y :: rest).length := by omega
    simp only [reverseRotateX, rotateDown]
    rw [List.rotate_eq_drop_append_take hlen, List.drop_length_sub_one (by simp),
      ← List.dropLast_eq_take]
    simp

theorem swapX_eq (stack : List Node) (txt : Option Instr) :
    swapX stack txt = (swapTop stack, if 2 ≤ stack.length then txt.toList else []) := by
  rcases stack with _ | ⟨x, _ | ⟨y, rest⟩⟩ <;> simp [swapX, swapTop]

private theorem swapTop_short {α : Type*} (l : List α) (h : ¬ 2 ≤ l.length) : swapTop l = l := by
  rcases l with _ | ⟨x, _ | ⟨y, rest⟩⟩
  · rfl
  · rfl
  · simp at h

private theorem rotateUp_short {α : Type*} (l : List α) (h : ¬ 2 ≤ l.length) : rotateUp l = l := by
  rcases l with _ | ⟨x, _ | ⟨y, rest⟩⟩
  · rfl
  · simp [rotateUp]
  · simp at h

private theorem rotateDown_short {α : Type*} (l : List α) (h : ¬ 2 ≤ l.length) :
    rotateDown l = l := by
  rcases l with _ | ⟨x, _ | ⟨y, rest⟩⟩
  · rfl
  · simp [rotateDown]
  · simp at h

/-- One operation on `a` alone is faithful when its instruction means on the
numbers what it does to the nodes, and when it writes nothing it changes
nothing. -/
private theorem faithful_onA {xs : List Int} {s : Stacks}
    (op : List Node → Option Instr → List Node × List Instr) (instr : Instr)
    (effect : List Int → List Int) (neffect : List Node → List Node)
    (hop : op s.a (some instr) =
      (neffect s.a, if 2 ≤ s.a.length then (some instr).toList else []))
    (hexec : ∀ a b, exec instr (a, b) = (effect a, b))
    (hmap : (neffect s.a).map Node.number = effect (s.a.map Node.number))
    (hshort : ¬ 2 ≤ s.a.length → neffect s.a = s.a)
    (h : Faithful xs s) : Faithful xs (s.onA op instr) := by
  unfold Faithful at h ⊢
  simp only [Stacks.onA, hop]
  by_cases hlen : 2 ≤ s.a.length
  · simp [hlen, h, hexec, hmap]
  · simp [hlen, h, hshort hlen]

private theorem faithful_onB {xs : List Int} {s : Stacks}
    (op : List Node → Option Instr → List Node × List Instr) (instr : Instr)
    (effect : List Int → List Int) (neffect : List Node → List Node)
    (hop : op s.b (some instr) =
      (neffect s.b, if 2 ≤ s.b.length then (some instr).toList else []))
    (hexec : ∀ a b, exec instr (a, b) = (a, effect b))
    (hmap : (neffect s.b).map Node.number = effect (s.b.map Node.number))
    (hshort : ¬ 2 ≤ s.b.length → neffect s.b = s.b)
    (h : Faithful xs s) : Faithful xs (s.onB op instr) := by
  unfold Faithful at h ⊢
  simp only [Stacks.onB, hop]
  by_cases hlen : 2 ≤ s.b.length
  · simp [hlen, h, hexec, hmap]
  · simp [hlen, h, hshort hlen]

theorem turned_ra (xs : List Int) (s : Stacks) : Turned xs s (s.onA rotateX .ra) 1 0 := by
  refine ⟨?_, by simp [Stacks.onA], ?_⟩
  · simp [Stacks.onA, rotateX_eq, rotateUp_eq_rotateBy]
  · exact faithful_onA rotateX .ra rotateUp rotateUp (rotateX_eq _ _) (fun _ _ => rfl)
      (map_rotateUp _ _) (rotateUp_short _)

theorem turned_rra (xs : List Int) (s : Stacks) :
    Turned xs s (s.onA reverseRotateX .rra) (-1) 0 := by
  refine ⟨?_, by simp [Stacks.onA], ?_⟩
  · simp [Stacks.onA, reverseRotateX_eq, rotateDown_eq_rotateBy]
  · exact faithful_onA reverseRotateX .rra rotateDown rotateDown (reverseRotateX_eq _ _)
      (fun _ _ => rfl) (map_rotateDown _ _) (rotateDown_short _)

theorem turned_rb (xs : List Int) (s : Stacks) : Turned xs s (s.onB rotateX .rb) 0 1 := by
  refine ⟨by simp [Stacks.onB], ?_, ?_⟩
  · simp [Stacks.onB, rotateX_eq, rotateUp_eq_rotateBy]
  · exact faithful_onB rotateX .rb rotateUp rotateUp (rotateX_eq _ _) (fun _ _ => rfl)
      (map_rotateUp _ _) (rotateUp_short _)

theorem turned_rrb (xs : List Int) (s : Stacks) :
    Turned xs s (s.onB reverseRotateX .rrb) 0 (-1) := by
  refine ⟨by simp [Stacks.onB], ?_, ?_⟩
  · simp [Stacks.onB, reverseRotateX_eq, rotateDown_eq_rotateBy]
  · exact faithful_onB reverseRotateX .rrb rotateDown rotateDown (reverseRotateX_eq _ _)
      (fun _ _ => rfl) (map_rotateDown _ _) (rotateDown_short _)

/-- `rr` is written only for a `b` that turns, so `b` must have two nodes. -/
theorem turned_rr (xs : List Int) (s : Stacks) (hb : 2 ≤ s.b.length) :
    Turned xs s (multipleOperation s 2) 1 1 := by
  refine ⟨?_, ?_, ?_⟩
  · simp [multipleOperation, rotateX_eq, rotateUp_eq_rotateBy]
  · simp [multipleOperation, rotateX_eq, rotateUp_eq_rotateBy]
  · intro h
    unfold Faithful at h ⊢
    simp [multipleOperation, rotateX_eq, hb, h, exec]

theorem turned_rrr (xs : List Int) (s : Stacks) (hb : 2 ≤ s.b.length) :
    Turned xs s (multipleOperation s 3) (-1) (-1) := by
  refine ⟨?_, ?_, ?_⟩
  · simp [multipleOperation, reverseRotateX_eq, rotateDown_eq_rotateBy]
  · simp [multipleOperation, reverseRotateX_eq, rotateDown_eq_rotateBy]
  · intro h
    unfold Faithful at h ⊢
    simp [multipleOperation, reverseRotateX_eq, hb, h, exec]

theorem faithful_sa {xs : List Int} {s : Stacks} (h : Faithful xs s) :
    Faithful xs (s.onA swapX .sa) :=
  faithful_onA swapX .sa swapTop swapTop (swapX_eq _ _) (fun _ _ => rfl) (map_swapTop _ _)
    (swapTop_short _) h

theorem faithful_pa {xs : List Int} {s : Stacks} (h : Faithful xs s) : Faithful xs s.pa := by
  unfold Faithful at h ⊢
  rcases s with ⟨a, _ | ⟨x, rest⟩, out⟩ <;> simp_all [Stacks.pa, pushToX, exec, pushOnto]

theorem faithful_pb {xs : List Int} {s : Stacks} (h : Faithful xs s) : Faithful xs s.pb := by
  unfold Faithful at h ⊢
  rcases s with ⟨_ | ⟨x, rest⟩, b, out⟩ <;> simp_all [Stacks.pb, pushToX, exec, pushOnto]

/-- A counter that moves by one each round and leaves the condition after `n`
rounds: the loop applies its operation `n` times. -/
theorem countLoop_turned (xs : List Int) (cond : Int → Bool) (step up vp : Int)
    (body : Stacks → Stacks) (hbody : ∀ s, Turned xs s (body s) up vp) (n : Nat) :
    ∀ (fuel : Nat) (count : Int) (s : Stacks), n ≤ fuel →
      (∀ k : Nat, k < n → cond (count + k * step) = true) →
      cond (count + n * step) = false →
      ∃ r, countLoop fuel cond step body count s = .ok r ∧ Turned xs s r (n * up) (n * vp) := by
  induction n with
  | zero =>
      intro fuel count s _ _ hexit
      refine ⟨s, ?_, by simpa using Turned.refl xs s⟩
      have hcond : cond count = false := by simpa using hexit
      rw [countLoop, boundedWhile_exit _ _ _ _ (count, s) hcond]
      rfl
  | succ n ih =>
      intro fuel count s hfuel hin hexit
      obtain ⟨fuel, rfl⟩ : ∃ f, fuel = f + 1 := ⟨fuel - 1, by omega⟩
      have hcond : cond count = true := by simpa using hin 0 (by omega)
      have hrest : ∀ k : Nat, k < n → cond (count + step + k * step) = true := by
        intro k hk
        have h := hin (k + 1) (by omega)
        have hsame : count + ((k + 1 : Nat) : Int) * step = count + step + k * step := by
          push_cast
          ring
        rwa [hsame] at h
      have hlast : cond (count + step + n * step) = false := by
        have hsame : count + ((n + 1 : Nat) : Int) * step = count + step + n * step := by
          push_cast
          ring
        rwa [hsame] at hexit
      obtain ⟨r, hrun, hturn⟩ := ih fuel (count + step) (body s) (by omega) hrest hlast
      refine ⟨r, ?_, ?_⟩
      · unfold countLoop at hrun ⊢
        rw [boundedWhile_round _ _ _ _ (count, s) hcond]
        exact hrun
      · have h := (hbody s).trans hturn
        have hup : ((n + 1 : Nat) : Int) * up = up + n * up := by
          push_cast
          ring
        have hvp : ((n + 1 : Nat) : Int) * vp = vp + n * vp := by
          push_cast
          ring
        rw [hup, hvp]
        exact h

/-- A loop that counts a positive value down to zero. -/
private theorem countLoop_down (xs : List Int) (up vp : Int) (body : Stacks → Stacks)
    (hbody : ∀ s, Turned xs s (body s) up vp) (fuel : Nat) (c : Int) (s : Stacks)
    (hfuel : c.natAbs ≤ fuel) :
    ∃ r, countLoop fuel (fun c => decide (c > 0)) (-1) body c s = .ok r ∧
      Turned xs s r (max c 0 * up) (max c 0 * vp) := by
  have h := countLoop_turned xs (fun c => decide (c > 0)) (-1) up vp body hbody
    (max c 0).toNat fuel c s (by omega) (by intro k hk; simp; omega) (by simp)
  rwa [Int.toNat_of_nonneg (by omega)] at h

/-- A loop that counts a negative value up to zero. -/
private theorem countLoop_up (xs : List Int) (up vp : Int) (body : Stacks → Stacks)
    (hbody : ∀ s, Turned xs s (body s) up vp) (fuel : Nat) (c : Int) (s : Stacks)
    (hfuel : c.natAbs ≤ fuel) :
    ∃ r, countLoop fuel (fun c => decide (c < 0)) 1 body c s = .ok r ∧
      Turned xs s r (max (-c) 0 * up) (max (-c) 0 * vp) := by
  have h := countLoop_turned xs (fun c => decide (c < 0)) 1 up vp body hbody
    (max (-c) 0).toNat fuel c s (by omega) (by intro k hk; simp; omega) (by simp; omega)
  rwa [Int.toNat_of_nonneg (by omega)] at h

/-- The double rotations account for the two costs up to what is left of them. -/
private theorem sameMoves_turned (xs : List Int) (fuel : Nat) (s : Stacks) (costA costB : Int)
    (hb : costB ≠ 0 → 2 ≤ s.b.length) (hfuel : costA.natAbs ≤ fuel) :
    ∃ r restA restB, sameMoves fuel s costA costB = .ok (r, restA, restB) ∧
      Turned xs s r (costA - restA) (costB - restB) ∧
      restA.natAbs ≤ costA.natAbs ∧ restB.natAbs ≤ costB.natAbs := by
  let inv : Stacks × Int × Int → Prop := fun st =>
    Turned xs s st.1 (costA - st.2.1) (costB - st.2.2) ∧
      st.2.1.natAbs ≤ costA.natAbs ∧ st.2.2.natAbs ≤ costB.natAbs
  have hlen : ∀ st, inv st → st.2.2 ≠ 0 → 2 ≤ st.1.b.length := by
    intro st hst hne
    rw [hst.1.b, length_rotateBy]
    have hle := hst.2.2
    exact hb (by omega)
  have hup : ∀ st, inv st → (decide (st.2.1 > 0) && decide (st.2.2 > 0)) = true →
      ∃ next, (.ok (multipleOperation st.1 2, st.2.1 - 1, st.2.2 - 1) :
        Except Stuck (Stacks × Int × Int)) = .ok next ∧ inv next ∧
        next.2.1.natAbs < st.2.1.natAbs := by
    intro st hst hcond
    simp only [Bool.and_eq_true, decide_eq_true_eq] at hcond
    have hle := hst.2
    refine ⟨_, rfl, ⟨?_, by simp only; omega, by simp only; omega⟩, by simp only; omega⟩
    have h := hst.1.trans (turned_rr xs st.1 (hlen st hst (by omega)))
    have hsumA : costA - (st.2.1 - 1) = costA - st.2.1 + 1 := by ring
    have hsumB : costB - (st.2.2 - 1) = costB - st.2.2 + 1 := by ring
    simp only [hsumA, hsumB]
    exact h
  have hdown : ∀ st, inv st → (decide (st.2.1 < 0) && decide (st.2.2 < 0)) = true →
      ∃ next, (.ok (multipleOperation st.1 3, st.2.1 + 1, st.2.2 + 1) :
        Except Stuck (Stacks × Int × Int)) = .ok next ∧ inv next ∧
        next.2.1.natAbs < st.2.1.natAbs := by
    intro st hst hcond
    simp only [Bool.and_eq_true, decide_eq_true_eq] at hcond
    have hle := hst.2
    refine ⟨_, rfl, ⟨?_, by simp only; omega, by simp only; omega⟩, by simp only; omega⟩
    have h := hst.1.trans (turned_rrr xs st.1 (hlen st hst (by omega)))
    have hsumA : costA - (st.2.1 + 1) = costA - st.2.1 + -1 := by ring
    have hsumB : costB - (st.2.2 + 1) = costB - st.2.2 + -1 := by ring
    simp only [hsumA, hsumB]
    exact h
  have hstart : inv (s, costA, costB) := by
    refine ⟨?_, le_refl _, le_refl _⟩
    simpa using Turned.refl xs s
  obtain ⟨mid, hrun, hmid, _⟩ := boundedWhile_total Stuck.outOfFuel _ _ inv
    (fun st => st.2.1.natAbs) hup fuel _ hstart hfuel
  obtain ⟨⟨r, restA, restB⟩, hrun', ⟨hturn, hA, hB⟩, _⟩ := boundedWhile_total Stuck.outOfFuel
    _ _ inv (fun st => st.2.1.natAbs) hdown fuel mid hmid (hmid.2.1.trans hfuel)
  refine ⟨r, restA, restB, ?_, hturn, hA, hB⟩
  simp only [sameMoves, hrun, bind, Except.bind]
  exact hrun'

/-- `do_move` turns the stacks by its two costs and pushes the top of `b`. -/
theorem doMove_spec (xs : List Int) (fuel : Nat) (s : Stacks) (costA costB : Int)
    (hb : costB ≠ 0 → 2 ≤ s.b.length) (hA : costA.natAbs ≤ fuel) (hB : costB.natAbs ≤ fuel) :
    ∃ r, doMove fuel s costA costB = .ok r.pa ∧ Turned xs s r costA costB := by
  obtain ⟨r₀, restA, restB, hrun₀, hturn₀, hA₀, hB₀⟩ :=
    sameMoves_turned xs fuel s costA costB hb hA
  obtain ⟨r₁, hrun₁, hturn₁⟩ := countLoop_down xs 1 0 _ (turned_ra xs) fuel restA r₀
    (hA₀.trans hA)
  obtain ⟨r₂, hrun₂, hturn₂⟩ := countLoop_up xs (-1) 0 _ (turned_rra xs) fuel restA r₁
    (hA₀.trans hA)
  obtain ⟨r₃, hrun₃, hturn₃⟩ := countLoop_down xs 0 1 _ (turned_rb xs) fuel restB r₂
    (hB₀.trans hB)
  obtain ⟨r₄, hrun₄, hturn₄⟩ := countLoop_up xs 0 (-1) _ (turned_rrb xs) fuel restB r₃
    (hB₀.trans hB)
  refine ⟨r₄, ?_, ?_⟩
  · simp only [doMove, hrun₀, hrun₁, hrun₂, hrun₃, hrun₄, bind, Except.bind, pure, Except.pure]
  · have h := (((hturn₀.trans hturn₁).trans hturn₂).trans hturn₃).trans hturn₄
    have hsumA : costA - restA + max restA 0 * 1 + max (-restA) 0 * -1 + max restB 0 * 0 +
        max (-restB) 0 * 0 = costA := by omega
    have hsumB : costB - restB + max restA 0 * 0 + max (-restA) 0 * 0 + max restB 0 * 1 +
        max (-restB) 0 * -1 = costB := by omega
    rwa [hsumA, hsumB] at h

end FortyTwo.PushSwap
