import FortyTwo.PushSwap.Sorting

/-!
How many instructions the sorting phase writes. A round of the merge turns the two
stacks by the costs of one node and pushes it, so what a loop of `do_move` has written
and what is left of its costs never grow together. The node it moves is one of least
cost, and the top of `b` costs at most half a turn of `a`.
-/

namespace FortyTwo.PushSwap

open Foundation

section Operations

/-- `r` comes from `s` with at most `k` instructions more in the log. -/
def Wrote (k : Nat) (s r : Stacks) : Prop :=
  r.out.length ≤ s.out.length + k

private theorem wrote_onA (op : List Node → Option Instr → List Node × List Instr)
    (instr : Instr) (s : Stacks)
    (hop : (op s.a (some instr)).2 = if 2 ≤ s.a.length then (some instr).toList else []) :
    Wrote 1 s (s.onA op instr) := by
  simp only [Wrote, Stacks.onA, hop, List.length_append]
  split <;> simp

private theorem wrote_onB (op : List Node → Option Instr → List Node × List Instr)
    (instr : Instr) (s : Stacks)
    (hop : (op s.b (some instr)).2 = if 2 ≤ s.b.length then (some instr).toList else []) :
    Wrote 1 s (s.onB op instr) := by
  simp only [Wrote, Stacks.onB, hop, List.length_append]
  split <;> simp

private theorem wrote_ra (s : Stacks) : Wrote 1 s (s.onA rotateX .ra) :=
  wrote_onA _ _ _ (by rw [rotateX_eq])

private theorem wrote_rra (s : Stacks) : Wrote 1 s (s.onA reverseRotateX .rra) :=
  wrote_onA _ _ _ (by rw [reverseRotateX_eq])

private theorem wrote_sa (s : Stacks) : Wrote 1 s (s.onA swapX .sa) :=
  wrote_onA _ _ _ (by rw [swapX_eq])

private theorem wrote_rb (s : Stacks) : Wrote 1 s (s.onB rotateX .rb) :=
  wrote_onB _ _ _ (by rw [rotateX_eq])

private theorem wrote_rrb (s : Stacks) : Wrote 1 s (s.onB reverseRotateX .rrb) :=
  wrote_onB _ _ _ (by rw [reverseRotateX_eq])

private theorem wrote_pb (s : Stacks) : Wrote 1 s s.pb := by
  rcases s with ⟨_ | ⟨x, rest⟩, b, out⟩ <;> simp [Wrote, Stacks.pb, pushToX]

private theorem wrote_pa (s : Stacks) : Wrote 1 s s.pa := by
  rcases s with ⟨a, _ | ⟨x, rest⟩, out⟩ <;> simp [Wrote, Stacks.pa, pushToX]

/-- The call on `a` is silent, so a double rotation writes once. -/
private theorem wrote_rr (s : Stacks) : Wrote 1 s (multipleOperation s 2) := by
  by_cases hb : 2 ≤ s.b.length <;> simp [Wrote, multipleOperation, rotateX_eq, hb]

private theorem wrote_rrr (s : Stacks) : Wrote 1 s (multipleOperation s 3) := by
  by_cases hb : 2 ≤ s.b.length <;> simp [Wrote, multipleOperation, reverseRotateX_eq, hb]

end Operations

section Moves

/-- A counting loop that is `left` rounds from its end writes at most that many. -/
theorem countLoop_wrote (cond : Int → Bool) (step : Int) (body : Stacks → Stacks)
    (hbody : ∀ s, Wrote 1 s (body s)) (left : Int → Nat)
    (hleft : ∀ c, cond c = true → left (c + step) + 1 ≤ left c)
    {fuel : Nat} {count : Int} {s r : Stacks}
    (hrun : countLoop fuel cond step body count s = .ok r) : Wrote (left count) s r := by
  unfold countLoop at hrun
  cases hloop : boundedWhile Stuck.outOfFuel (fun state : Int × Stacks => cond state.1)
      (fun state => .ok (state.1 + step, body state.2)) fuel (count, s) with
  | error e => simp [hloop, Except.map] at hrun
  | ok final =>
      obtain rfl : final.2 = r := by simpa [hloop, Except.map] using hrun
      have hround : ∀ state next : Int × Stacks,
          state.2.out.length + left state.1 ≤ s.out.length + left count →
          cond state.1 = true →
          (.ok (state.1 + step, body state.2) : Except Stuck (Int × Stacks)) = .ok next →
          next.2.out.length + left next.1 ≤ s.out.length + left count := by
        rintro state next hle hcond hnext
        cases hnext
        have hone := hbody state.2
        have hless := hleft state.1 hcond
        unfold Wrote at hone
        simp only
        omega
      obtain ⟨hle, -⟩ := boundedWhile_partial _ _ _ _ hround fuel _ final le_rfl hloop
      unfold Wrote
      omega

/-- A double rotation takes one from each cost. -/
private theorem sameMoves_wrote {fuel : Nat} {s r : Stacks} {costA costB restA restB : Int}
    (hrun : sameMoves fuel s costA costB = .ok (r, restA, restB)) :
    r.out.length + restA.natAbs + restB.natAbs ≤
      s.out.length + costA.natAbs + costB.natAbs := by
  let paid : Stacks × Int × Int → Prop := fun state =>
    state.1.out.length + state.2.1.natAbs + state.2.2.natAbs ≤
      s.out.length + costA.natAbs + costB.natAbs
  unfold sameMoves at hrun
  obtain ⟨up, hup, hdown⟩ := except_bind_eq_ok.mp hrun
  have hrr : ∀ state next, paid state →
      (decide (state.2.1 > 0) && decide (state.2.2 > 0)) = true →
      (.ok (multipleOperation state.1 2, state.2.1 - 1, state.2.2 - 1) :
        Except Stuck (Stacks × Int × Int)) = .ok next → paid next := by
    rintro state next hle hcond hnext
    cases hnext
    have hone := wrote_rr state.1
    simp only [Bool.and_eq_true, decide_eq_true_eq] at hcond
    simp only [paid, Wrote] at hone hle ⊢
    omega
  have hrrr : ∀ state next, paid state →
      (decide (state.2.1 < 0) && decide (state.2.2 < 0)) = true →
      (.ok (multipleOperation state.1 3, state.2.1 + 1, state.2.2 + 1) :
        Except Stuck (Stacks × Int × Int)) = .ok next → paid next := by
    rintro state next hle hcond hnext
    cases hnext
    have hone := wrote_rrr state.1
    simp only [Bool.and_eq_true, decide_eq_true_eq] at hcond
    simp only [paid, Wrote] at hone hle ⊢
    omega
  obtain ⟨hpaid, -⟩ := boundedWhile_partial _ _ _ paid hrr fuel _ up le_rfl hup
  obtain ⟨hlast, -⟩ :=
    boundedWhile_partial _ _ _ paid hrrr fuel up (r, restA, restB) hpaid hdown
  exact hlast

theorem doMove_wrote {fuel : Nat} {s r : Stacks} {costA costB : Int}
    (hrun : doMove fuel s costA costB = .ok r) :
    Wrote (costA.natAbs + costB.natAbs + 1) s r := by
  unfold doMove at hrun
  obtain ⟨⟨r₀, restA, restB⟩, hsame, hrun⟩ := except_bind_eq_ok.mp hrun
  obtain ⟨r₁, hra, hrun⟩ := except_bind_eq_ok.mp hrun
  obtain ⟨r₂, hrra, hrun⟩ := except_bind_eq_ok.mp hrun
  obtain ⟨r₃, hrb, hrun⟩ := except_bind_eq_ok.mp hrun
  obtain ⟨r₄, hrrb, hrun⟩ := except_bind_eq_ok.mp hrun
  cases hrun
  have h₀ := sameMoves_wrote hsame
  -- a cost is counted down by one loop and up by the other, whichever its sign is
  have hdown : ∀ c : Int, decide (c > 0) = true → (c + -1).toNat + 1 ≤ c.toNat := by
    intro c hc
    have := of_decide_eq_true hc
    omega
  have hup : ∀ c : Int, decide (c < 0) = true → (-(c + 1)).toNat + 1 ≤ (-c).toNat := by
    intro c hc
    have := of_decide_eq_true hc
    omega
  have h₁ := countLoop_wrote _ _ _ wrote_ra Int.toNat hdown hra
  have h₂ := countLoop_wrote _ _ _ wrote_rra (fun c => (-c).toNat) hup hrra
  have h₃ := countLoop_wrote _ _ _ wrote_rb Int.toNat hdown hrb
  have h₄ := countLoop_wrote _ _ _ wrote_rrb (fun c => (-c).toNat) hup hrrb
  have h₅ := wrote_pa r₄
  unfold Wrote at *
  omega

end Moves

section Greedy

/-- A cost is at most half a turn. -/
private theorem two_mul_signedCost_le {pos size : Nat} (h : pos < size) :
    2 * (signedCost pos size).natAbs ≤ size := by
  unfold signedCost
  rw [Int.tdiv_eq_ediv_of_nonneg (by omega)]
  split <;> omega

/-- No rotation to a position is shorter than the cost of that position. -/
private theorem signedCost_emod_le (turns : Int) {size : Nat} (h : 0 < size) :
    (signedCost (turns % size) size).natAbs ≤ turns.natAbs := by
  have hdiv := Int.mul_ediv_add_emod turns size
  have hnonneg := Int.emod_nonneg turns (by omega : (size : Int) ≠ 0)
  have hlt := Int.emod_lt_of_pos turns (by omega : (0 : Int) < size)
  unfold signedCost
  rw [Int.tdiv_eq_ediv_of_nonneg (by omega)]
  rcases le_or_gt 0 turns with hup | hdown
  · have hback : 0 ≤ (size : Int) * (turns / size) :=
      mul_nonneg (by omega) (Int.ediv_nonneg hup (by omega))
    split <;> omega
  · have hback : (size : Int) * (turns / size) ≤ -size := by
      have hquot : turns / (size : Int) ≤ -1 := by
        have := Int.ediv_neg_of_neg_of_pos hdown (by omega : (0 : Int) < size)
        omega
      calc (size : Int) * (turns / size) ≤ size * -1 :=
            mul_le_mul_of_nonneg_left hquot (by omega)
        _ = -size := by ring
    split <;> omega

/-- The scan of `do_cost_effective` keeps a least sum of costs. -/
private theorem cheapestLoop_least (l : List Node) {cheapest : Int}
    {chosen : Option (Int × Int)} {costs : Int × Int}
    (hchosen : ∀ c, chosen = some c → myAbs c.1 + myAbs c.2 = cheapest)
    (hrun : cheapestLoop cheapest chosen l = some costs) :
    myAbs costs.1 + myAbs costs.2 ≤ cheapest ∧
      ∀ n ∈ l, myAbs costs.1 + myAbs costs.2 ≤ myAbs n.costA + myAbs n.costB := by
  induction l generalizing cheapest chosen with
  | nil => exact ⟨(hchosen costs hrun).le, by simp⟩
  | cons temp rest ih =>
      rw [cheapestLoop] at hrun
      split at hrun
      · next hbetter =>
          have hfound : ∀ c, some (temp.costA, temp.costB) = some c →
              myAbs c.1 + myAbs c.2 = myAbs temp.costA + myAbs temp.costB := by
            rintro c ⟨rfl⟩
            rfl
          obtain ⟨hle, hall⟩ := ih hfound hrun
          exact ⟨hle.trans hbetter.le, List.forall_mem_cons.mpr ⟨hle, hall⟩⟩
      · next hnot =>
          obtain ⟨hle, hall⟩ := ih hchosen hrun
          exact ⟨hle, List.forall_mem_cons.mpr ⟨hle.trans (not_lt.mp hnot), hall⟩⟩

/-- The top of `b` can be pushed: its cyclic successor is on top of `a`. -/
def Ready (a b : List Node) : Prop :=
  ∃ m h, b.head? = some m ∧ a.head? = some h ∧
    CyclicSuccessor (a.map Node.index) m.index h.index

/-- Nodes of two stacks with the same keys, at the same place. -/
private theorem exists_getElem?_of_keys {l l' : List Node} {i : Nat} {n : Node}
    (hkeys : l.map Node.key = l'.map Node.key) (h : l'[i]? = some n) :
    ∃ n', l[i]? = some n' ∧ n'.key = n.key := by
  have hget := congrArg (fun keys => keys[i]?) hkeys
  simpa [List.getElem?_map, h] using hget

private theorem index_eq_of_key {n n' : Node} (h : n'.key = n.key) : n'.index = n.index :=
  congrArg Prod.fst h

/-- With distinct indices a node stands at one place only. -/
private theorem place_unique {l l' : List Node} {i j : Nat} {n n' : Node}
    (hkeys : l.map Node.key = l'.map Node.key) (hnodup : (l'.map Node.index).Nodup)
    (h : l'[i]? = some n) (h' : l[j]? = some n') (hindex : n'.index = n.index) : j = i := by
  obtain ⟨m, hm, hkey⟩ := exists_getElem?_of_keys hkeys.symm h'
  have hlt : j < (l'.map Node.index).length := by
    rw [List.length_map]
    exact (List.getElem?_eq_some_iff.mp hm).1
  apply (List.getElem?_inj hlt hnodup).mp
  rw [List.getElem?_map, List.getElem?_map, h, hm, Option.map_some, Option.map_some,
    index_eq_of_key hkey, hindex]

/-- Rotations that make a node ready are not shorter than the costs of that node. -/
private theorem costs_le_of_ready {s : Stacks} (hne : s.a ≠ [])
    (hmax : ∀ n ∈ s.a, n.index < intMax) (hnodup : ((s.a ++ s.b).map Node.index).Nodup)
    {u v : Int} (hready : Ready (rotateBy u s.a) (rotateBy v s.b)) :
    ∃ node ∈ (priced s s.a.length s.b.length).b,
      node.costA.natAbs ≤ u.natAbs ∧ node.costB.natAbs ≤ v.natAbs := by
  obtain ⟨m, h, hm, hh, hsucc⟩ := hready
  have hm := getElem?_of_head?_rotateBy hm
  have hh := getElem?_of_head?_rotateBy hh
  have hlenB : 0 < s.b.length := List.length_pos_of_mem (List.mem_of_getElem? hm)
  rw [map_rotateBy] at hsucc
  have hsucc := hsucc.of_perm (rotateBy_perm u _).symm
  rw [List.map_append] at hnodup
  have hfresh : ∀ n ∈ s.a, ∀ m ∈ s.b, n.index ≠ m.index := fun n hn m hm =>
    (List.nodup_append.mp hnodup).2.2 _ (List.mem_map_of_mem hn) _ (List.mem_map_of_mem hm)
  obtain ⟨hkeyA, hkeyB⟩ := priced_keys s s.a.length s.b.length
  obtain ⟨node, hnode, hkey⟩ := exists_getElem?_of_keys hkeyB hm
  have hmem := List.mem_of_getElem? hnode
  obtain ⟨pos, tpos, h', hpos, htpos, hcostB, hcostA, hsucc'⟩ :=
    priced_node s hne hmax hfresh s.a.length s.b.length node hmem
  have hplaceB := place_unique hkeyB hnodup.of_append_right hm hpos (index_eq_of_key hkey)
  have hplaceA : tpos = (u % s.a.length).toNat := by
    refine place_unique hkeyA hnodup.of_append_left hh htpos ?_
    obtain ⟨n, hn, hkey'⟩ := exists_getElem?_of_keys hkeyA.symm htpos
    rw [index_eq_of_key hkey] at hsucc'
    refine hsucc'.unique hsucc ?_ (List.mem_map_of_mem (List.mem_of_getElem? hh))
    rw [← index_eq_of_key hkey']
    exact List.mem_map_of_mem (List.mem_of_getElem? hn)
  have hlenA := List.length_pos_iff.mpr hne
  refine ⟨node, hmem, ?_, ?_⟩
  · rw [hcostA, hplaceA, Int.toNat_of_nonneg (Int.emod_nonneg _ (by omega))]
    exact signedCost_emod_le u hlenA
  · rw [hcostB, hplaceB, Int.toNat_of_nonneg (Int.emod_nonneg _ (by omega))]
    exact signedCost_emod_le v hlenB

/-- One round of the merge: `a` is turned by `up` and `b` by `vp`, the top of `b` is
pushed, and no other rotations that make a node ready are shorter in all. -/
structure GreedyRound (s next : Stacks) (up vp : Int) : Prop where
  ready : Ready (rotateBy up s.a) (rotateBy vp s.b)
  pushed : ∃ key, next.a.map Node.key = key :: (rotateBy up s.a).map Node.key ∧
    key :: next.b.map Node.key = (rotateBy vp s.b).map Node.key
  wrote : Wrote (up.natAbs + vp.natAbs + 1) s next
  least : ∀ u v, Ready (rotateBy u s.a) (rotateBy v s.b) →
    up.natAbs + vp.natAbs ≤ u.natAbs + v.natAbs

private theorem myAbs_natAbs (num : Int) : myAbs num = num.natAbs := by
  unfold myAbs
  split <;> omega

/-- The node on top of `b` needs no rotation of `b` and half a turn of `a` at most. -/
private theorem top_cost_le {s : Stacks} (hne : s.a ≠ []) (hb : s.b ≠ [])
    (hmax : ∀ n ∈ s.a, n.index < intMax) (hnodup : (s.b.map Node.index).Nodup)
    (hfresh : ∀ n ∈ s.a, ∀ m ∈ s.b, n.index ≠ m.index) :
    ∃ node ∈ (priced s s.a.length s.b.length).b,
      2 * (node.costA.natAbs + node.costB.natAbs) ≤ s.a.length := by
  obtain ⟨m, rest, hcons⟩ := List.exists_cons_of_ne_nil hb
  have hm : s.b[0]? = some m := by rw [hcons, List.getElem?_cons_zero]
  obtain ⟨hkeyA, hkeyB⟩ := priced_keys s s.a.length s.b.length
  obtain ⟨node, hnode, hkey⟩ := exists_getElem?_of_keys hkeyB hm
  have hmem := List.mem_of_getElem? hnode
  obtain ⟨pos, tpos, h, hpos, htpos, hcostB, hcostA, _⟩ :=
    priced_node s hne hmax hfresh s.a.length s.b.length node hmem
  have hplace := place_unique hkeyB hnodup hm hpos (index_eq_of_key hkey)
  have hlt := (List.getElem?_eq_some_iff.mp htpos).1
  rw [(priced_lengths s s.a.length s.b.length).1] at hlt
  have hhalf := two_mul_signedCost_le hlt
  have hzero : signedCost 0 s.b.length = 0 := by
    unfold signedCost
    rw [Int.tdiv_eq_ediv_of_nonneg (by omega)]
    split <;> omega
  rw [hplace, Nat.cast_zero, hzero] at hcostB
  refine ⟨node, hmem, ?_⟩
  rw [hcostB, hcostA]
  simpa using hhalf

private theorem ready_of_keys {a b restA restB : List Node} {h node : Node} {up vp : Int}
    (ha : (h :: restA).map Node.key = (rotateBy up a).map Node.key)
    (hb : (node :: restB).map Node.key = (rotateBy vp b).map Node.key)
    (hsucc : CyclicSuccessor (a.map Node.index) node.index h.index) :
    Ready (rotateBy up a) (rotateBy vp b) := by
  obtain ⟨m, hm, hkeyB⟩ := exists_getElem?_of_keys hb.symm List.getElem?_cons_zero
  obtain ⟨k, hk, hkeyA⟩ := exists_getElem?_of_keys ha.symm List.getElem?_cons_zero
  refine ⟨m, k, List.head?_eq_getElem?.trans hm, List.head?_eq_getElem?.trans hk, ?_⟩
  rw [map_rotateBy, index_eq_of_key hkeyB, index_eq_of_key hkeyA]
  exact hsucc.of_perm (rotateBy_perm up _)

/-- The freshness that a round relies on: no index stands on both stacks. -/
private theorem Merging.fresh {xs : List Int} {ranked : List Node} {s : Stacks}
    (hs : Merging xs ranked s) (hr : Ranked ranked) :
    ∀ n ∈ s.a, ∀ m ∈ s.b, n.index ≠ m.index := by
  have hdistinct := indices_nodup_of_keys hs.keys hr.index_nodup
  rw [List.map_append, List.nodup_append] at hdistinct
  exact fun n hn m hm => hdistinct.2.2 _ (List.mem_map_of_mem hn) _ (List.mem_map_of_mem hm)

private theorem Merging.below {xs : List Int} {ranked : List Node} {s : Stacks}
    (hs : Merging xs ranked s) (hr : Ranked ranked) : ∀ n ∈ s.a, n.index < intMax :=
  fun n hn => index_lt_of_keys hs.keys hr.index_lt n (by simp [hn])

/-- The node that `do_cost_effective` chooses has the least costs of all. -/
private theorem exists_cheapest {xs : List Int} {ranked : List Node} {s : Stacks}
    (hs : Merging xs ranked s) (hr : Ranked ranked) (hb : s.b ≠ []) :
    ∃ node ∈ (priced s s.a.length s.b.length).b,
      cheapestLoop intMax none (priced s s.a.length s.b.length).b =
        some (node.costA, node.costB) ∧
      ∀ n ∈ (priced s s.a.length s.b.length).b,
        node.costA.natAbs + node.costB.natAbs ≤ n.costA.natAbs + n.costB.natAbs := by
  have hshort := hr.short
  have hlength := length_eq_of_keys hs.keys
  obtain ⟨node, hmem, hchoose⟩ :=
    priced_chosen hs.nonempty hb (hs.below hr) (hs.fresh hr) (by omega)
  obtain ⟨-, hleast⟩ := cheapestLoop_least _ (by simp) hchoose
  refine ⟨node, hmem, hchoose, ?_⟩
  intro n hn
  have hle := hleast n hn
  simp only [myAbs_natAbs] at hle
  omega

/-- Every round of the merge is greedy, and turns the stacks by half of `a` at most. -/
theorem mergeRound_greedy (xs : List Int) (ranked : List Node) (fuel : Nat) (s : Stacks)
    (hr : Ranked ranked) (hfuel : ranked.length ≤ fuel) (hs : Merging xs ranked s)
    (hb : s.b ≠ []) :
    ∃ next up vp, mergeRound fuel ranked.length (s, s.b.length) =
        .ok (next, (next.b.length : Int)) ∧
      Merging xs ranked next ∧ GreedyRound s next up vp ∧
      2 * (up.natAbs + vp.natAbs) ≤ s.a.length := by
  obtain ⟨next, hround, hnext, -⟩ := mergeRound_spec xs ranked fuel s hr.index_nodup hr.index_lt
    hr.short hfuel hs hb
  have hlength := length_eq_of_keys hs.keys
  obtain ⟨node, hmem, hchoose, hleast⟩ := exists_cheapest hs hr hb
  obtain ⟨h, restA, restB, hrestA, hrestB, hsucc, -, -, hA, hB, htwo⟩ :=
    priced_rotates hs.nonempty (hs.below hr) (hs.fresh hr) hmem
  obtain ⟨hkeyA, hkeyB⟩ := priced_keys s s.a.length s.b.length
  obtain ⟨-, hlenB⟩ := priced_lengths s s.a.length s.b.length
  -- what the round did is what `do_move` does with the costs of that node
  obtain ⟨r, hmove, hturn⟩ := doMove_spec xs fuel (priced s s.a.length s.b.length) node.costA
    node.costB (fun hne => by rw [hlenB]; exact htwo hne) (by omega) (by omega)
  obtain rfl : r.pa = next := by
    have hprice : mergeRound fuel ranked.length (s, s.b.length) =
        (doCostEffective fuel (priced s (ranked.length - s.b.length) s.b.length)).bind
          (fun moved => .ok (moved.1, s.b.length - moved.2)) := rfl
    have hsizeA : (ranked.length : Int) - s.b.length = s.a.length := by omega
    have hrun : doCostEffective fuel (priced s s.a.length s.b.length) = .ok (r.pa, 1) := by
      simp only [doCostEffective, hchoose, hmove, bind, Except.bind, pure, Except.pure]
    rw [hprice, hsizeA, hrun] at hround
    exact congrArg Prod.fst (Except.ok.inj hround)
  have hra : r.a = h :: restA := hturn.a.trans hrestA
  have hrb : r.b = node :: restB := hturn.b.trans hrestB
  have hturnedA : (h :: restA).map Node.key = (rotateBy node.costA s.a).map Node.key := by
    rw [← hrestA, map_rotateBy, hkeyA, map_rotateBy]
  have hturnedB : (node :: restB).map Node.key = (rotateBy node.costB s.b).map Node.key := by
    rw [← hrestB, map_rotateBy, hkeyB, map_rotateBy]
  have hpa : r.pa.a = node :: r.a ∧ r.pa.b = restB := by
    rcases r with ⟨a, b, out⟩
    simp only at hrb
    subst hrb
    exact ⟨rfl, rfl⟩
  have hdistinct := indices_nodup_of_keys hs.keys hr.index_nodup
  refine ⟨r.pa, node.costA, node.costB, hround, hnext, ⟨?_, ⟨node.key, ?_, ?_⟩, ?_, ?_⟩, ?_⟩
  · exact ready_of_keys hturnedA hturnedB hsucc
  · rw [hpa.1, List.map_cons, hra, hturnedA]
  · rw [hpa.2, ← hturnedB, List.map_cons]
  · -- the scans write nothing, so `priced` has the log of `s`
    have hout : (priced s s.a.length s.b.length).out = s.out := rfl
    have hwrote := doMove_wrote hmove
    rwa [Wrote, hout] at hwrote
  · intro u v hready
    obtain ⟨n, hn, hu, hv⟩ :=
      costs_le_of_ready hs.nonempty (hs.below hr) hdistinct hready
    exact (hleast n hn).trans (Nat.add_le_add hu hv)
  · rw [List.map_append] at hdistinct
    obtain ⟨n, hn, hhalf⟩ := top_cost_le hs.nonempty hb (hs.below hr) hdistinct.of_append_right
      (hs.fresh hr)
    have hle := hleast n hn
    omega

end Greedy

section Run

/-- The end of `sort_three` adds an exchange to what the turn before it wrote. -/
private theorem swapFirst_wrote {s t r : Stacks} (ht : Wrote 1 s t)
    (hrun : (do
      let first ← deref t.a 0
      let second ← deref t.a 1
      if first.index > second.index then pure (t.onA swapX .sa) else pure t) =
        (.ok r : Except Stuck Stacks)) : Wrote 2 s r := by
  obtain ⟨first, -, hrun⟩ := except_bind_eq_ok.mp hrun
  obtain ⟨second, -, hrun⟩ := except_bind_eq_ok.mp hrun
  have hsa := wrote_sa t
  split at hrun
  · cases hrun
    unfold Wrote at *
    omega
  · cases hrun
    unfold Wrote at *
    omega

theorem sortThree_wrote {s r : Stacks} (hrun : sortThree s = .ok r) : Wrote 2 s r := by
  have hturn : ∀ (greatest : Bool) (second first : Int), Wrote 1 s
      (if greatest then s.onA rotateX .ra
        else if second > first then s.onA reverseRotateX .rra else s) := by
    intro greatest second first
    split
    · exact wrote_ra s
    · split
      · exact wrote_rra s
      · exact Nat.le_succ _
  unfold sortThree at hrun
  obtain ⟨first, -, hrun⟩ := except_bind_eq_ok.mp hrun
  obtain ⟨second, -, hrun⟩ := except_bind_eq_ok.mp hrun
  dsimp only at hrun
  split at hrun
  · obtain ⟨third, -, hrun⟩ := except_bind_eq_ok.mp hrun
    exact swapFirst_wrote (hturn _ _ _) hrun
  · exact swapFirst_wrote (hturn _ _ _) hrun

/-- The rounds of the first loop of `sort_more` are counted by `i`. -/
private theorem spread_wrote {len : Int} {fuel : Nat} {s r : Stacks} {i lenB k : Int}
    (hlen : 0 ≤ len)
    (hrun : boundedWhile Stuck.outOfFuel
      (fun state : Stacks × Int × Int =>
        decide (len > 6) && decide (state.2.1 < len) && decide (state.2.2 < len.tdiv 2))
      (spreadRound len) fuel (s, 0, lenB) = .ok (r, i, k)) :
    (r.out.length : Int) ≤ s.out.length + len := by
  let counted : Stacks × Int × Int → Prop := fun state =>
    (state.1.out.length : Int) ≤ s.out.length + state.2.1 ∧ state.2.1 ≤ len
  have hround : ∀ state next, counted state →
      (decide (len > 6) && decide (state.2.1 < len) && decide (state.2.2 < len.tdiv 2)) = true →
      spreadRound len state = .ok next → counted next := by
    rintro ⟨t, i, lenB⟩ next ⟨hout, -⟩ hcond hnext
    simp only [Bool.and_eq_true, decide_eq_true_eq] at hcond hout
    obtain ⟨⟨-, hi⟩, -⟩ := hcond
    obtain ⟨top, -, hnext⟩ := except_bind_eq_ok.mp hnext
    have hpb := wrote_pb t
    have hra := wrote_ra t
    simp only [counted]
    unfold Wrote at hpb hra
    split at hnext
    · cases hnext
      simp only
      split <;> omega
    · cases hnext
      simp only
      omega
  obtain ⟨⟨hout, hle⟩, -⟩ := boundedWhile_partial _ _ _ counted hround fuel _ _
    ⟨by simp, hlen⟩ hrun
  simp only at hout hle
  omega

private theorem fill_wrote {len : Int} {fuel : Nat} {s r : Stacks} {lenB k : Int}
    (hrun : boundedWhile Stuck.outOfFuel
      (fun state : Stacks × Int => decide (state.2 < len - 3))
      (fun state => .ok (state.1.pb, state.2 + 1)) fuel (s, lenB) = .ok (r, k)) :
    (r.out.length : Int) + lenB ≤ s.out.length + k := by
  let counted : Stacks × Int → Prop := fun state =>
    (state.1.out.length : Int) + lenB ≤ s.out.length + state.2
  have hround : ∀ state next, counted state → decide (state.2 < len - 3) = true →
      (.ok (state.1.pb, state.2 + 1) : Except Stuck (Stacks × Int)) = .ok next →
      counted next := by
    rintro state next hle - hnext
    cases hnext
    have hpb := wrote_pb state.1
    simp only [counted, Wrote] at hpb hle ⊢
    omega
  obtain ⟨hlast, -⟩ := boundedWhile_partial _ _ _ counted hround fuel _ (r, k) le_rfl hrun
  exact hlast

/-- `sort_more` up to its last loop. -/
def beforeMerge (fuel : Nat) (s : Stacks) (len lenB : Int) : Except Stuck (Stacks × Int) := do
  let (s, _, lenB) ← boundedWhile .outOfFuel
    (fun state : Stacks × Int × Int =>
      decide (len > 6) && decide (state.2.1 < len) && decide (state.2.2 < len.tdiv 2))
    (spreadRound len) fuel (s, 0, lenB)
  let (s, lenB) ← boundedWhile .outOfFuel
    (fun state : Stacks × Int => decide (state.2 < len - 3))
    (fun state => .ok (state.1.pb, state.2 + 1)) fuel (s, lenB)
  let s ← if ← isSorted s.a then pure s else sortThree s
  pure (s, lenB)

/-- The condition of the last loop of `sort_more`. -/
def moreToMerge (state : Stacks × Int) : Bool := !state.1.b.isEmpty

theorem sortMore_eq (fuel : Nat) (s : Stacks) (len lenB : Int) :
    sortMore fuel s len lenB = (beforeMerge fuel s len lenB).bind fun state =>
      (boundedWhile .outOfFuel moreToMerge (mergeRound fuel len) fuel state).map Prod.fst := by
  unfold sortMore beforeMerge moreToMerge
  simp only [bind, Except.bind, pure, Except.pure, Except.map]
  split
  · rfl
  · next spread _ =>
    split
    · rfl
    · next filled _ =>
      rcases isSorted filled.1.a with e | _ | _
      · rfl
      · simp only [Bool.false_eq_true, if_false]
        rcases sortThree filled.1 with e | sorted
        · rfl
        · rfl
      · rfl

/-- What the last loop of `sort_more` finds: three nodes on `a`, in cyclic order. -/
theorem beforeMerge_spec (xs : List Int) (ranked : List Node) (fuel : Nat) (s : Stacks)
    (hr : Ranked ranked) (hs : Playing xs ranked s) (hb : s.b = []) (hlen : 4 ≤ ranked.length)
    (hfuel : ranked.length ≤ fuel) :
    ∃ r, beforeMerge fuel s ranked.length 0 = .ok (r, (r.b.length : Int)) ∧
      Merging xs ranked r ∧ r.a.length = 3 ∧ Wrote (2 * ranked.length - 1) s r := by
  obtain ⟨r₁, i, hspread, hplay₁, hroom₁⟩ := spread_spec xs ranked fuel s hs hb hlen hfuel
  obtain ⟨r₂, hfill, hplay₂, hthree⟩ := fill_spec xs ranked fuel r₁ hplay₁ hroom₁ hfuel
  obtain ⟨sorted, r, hsorted, hrun, hmerging, hrb⟩ :=
    sortThree_unless_sorted xs ranked r₂ hr hplay₂ hthree
  have hout₁ := spread_wrote (by omega) hspread
  have hout₂ := fill_wrote hfill
  have hlength₂ := length_eq_of_keys hplay₂.keys
  have hout : Wrote 2 r₂ r := by
    cases sorted with
    | true =>
        cases hrun
        exact Nat.le_add_right _ _
    | false => exact sortThree_wrote hrun
  have hlength := length_eq_of_keys hmerging.keys
  rw [hrb] at hlength
  refine ⟨r, ?_, hmerging, by omega, ?_⟩
  · unfold beforeMerge
    rw [hspread]
    simp only [bind, Except.bind]
    rw [hfill]
    simp only [hsorted]
    cases sorted with
    | true =>
        cases hrun
        simp only [if_true, pure, Except.pure]
    | false =>
        simp only [Bool.false_eq_true, if_false] at hrun ⊢
        simp only [hrun, pure, Except.pure, hrb]
  · unfold Wrote at hout ⊢
    omega

/-- The merge, started with three nodes on `a`: with `m` nodes on `a` a round writes at
most `m / 2 + 1` instructions. -/
theorem merge_wrote (xs : List Int) (ranked : List Node) (fuel : Nat) {s r : Stacks} {k : Int}
    (hr : Ranked ranked) (hfuel : ranked.length ≤ fuel) (hs : Merging xs ranked s)
    (hrun : boundedWhile Stuck.outOfFuel moreToMerge (mergeRound fuel ranked.length) fuel
      (s, (s.b.length : Int)) = .ok (r, k)) :
    4 * r.out.length + (s.a.length * s.a.length + 3 * s.a.length) ≤
      4 * s.out.length + (r.a.length * r.a.length + 3 * r.a.length) := by
  let inv : Stacks × Int → Prop := fun state =>
    Merging xs ranked state.1 ∧ state.2 = state.1.b.length ∧
      4 * state.1.out.length + (s.a.length * s.a.length + 3 * s.a.length) ≤
        4 * s.out.length + (state.1.a.length * state.1.a.length + 3 * state.1.a.length)
  have hround : ∀ state next, inv state → moreToMerge state = true →
      mergeRound fuel ranked.length state = .ok next → inv next := by
    rintro ⟨t, lenB⟩ next ⟨hmerging, hcount, hpaid⟩ hcond hnext
    simp only [moreToMerge, Bool.not_eq_true', List.isEmpty_eq_false_iff] at hcond
    simp only at hmerging hcount hpaid
    subst hcount
    obtain ⟨t', up, vp, hrun', hmerging', hgreedy, hhalf⟩ :=
      mergeRound_greedy xs ranked fuel t hr hfuel hmerging hcond
    obtain rfl : (t', (t'.b.length : Int)) = next := Except.ok.inj (hrun'.symm.trans hnext)
    obtain ⟨key, hpushed, -⟩ := hgreedy.pushed
    have hlonger : t'.a.length = t.a.length + 1 := by
      simpa using congrArg List.length hpushed
    have hwrote := hgreedy.wrote
    unfold Wrote at hwrote
    refine ⟨hmerging', rfl, ?_⟩
    have hsquare : t'.a.length * t'.a.length = t.a.length * t.a.length + 2 * t.a.length + 1 := by
      rw [hlonger]
      ring
    simp only
    omega
  obtain ⟨⟨-, -, hpaid⟩, -⟩ :=
    boundedWhile_partial _ _ _ inv hround fuel _ (r, k) ⟨hs, rfl, le_rfl⟩ hrun
  exact hpaid

theorem sortMore_wrote (xs : List Int) (ranked : List Node) (fuel : Nat) {s r : Stacks}
    (hr : Ranked ranked) (hs : Playing xs ranked s) (hb : s.b = []) (hlen : 4 ≤ ranked.length)
    (hfuel : ranked.length ≤ fuel) (hrun : sortMore fuel s ranked.length 0 = .ok r) :
    4 * r.out.length + 22 ≤
      4 * s.out.length + (ranked.length * ranked.length + 11 * ranked.length) := by
  obtain ⟨r', hrun', hmerging', hb'⟩ := sortMore_spec xs ranked fuel s hr hs hb hlen hfuel
  obtain rfl : r' = r := Except.ok.inj (hrun'.symm.trans hrun)
  obtain ⟨start, hbefore, hmerging, hthree, hwrote⟩ :=
    beforeMerge_spec xs ranked fuel s hr hs hb hlen hfuel
  rw [sortMore_eq, hbefore] at hrun
  cases hloop : boundedWhile Stuck.outOfFuel moreToMerge (mergeRound fuel ranked.length) fuel
      (start, (start.b.length : Int)) with
  | error e => simp [hloop, Except.bind, Except.map] at hrun
  | ok final =>
      obtain rfl : final.1 = r' := by simpa [hloop, Except.bind, Except.map] using hrun
      have hcount := merge_wrote xs ranked fuel hr hfuel hmerging hloop
      have hall := length_eq_of_keys hmerging'.keys
      rw [hb', List.length_nil, add_zero] at hall
      rw [hthree, hall] at hcount
      unfold Wrote at hwrote
      omega

/-- `adjust_stack` turns by half of the stack at most. -/
theorem adjustStack_wrote {fuel : Nat} {s r : Stacks} (hne : s.a ≠ [])
    (hmax : ∀ n ∈ s.a, n.index < intMax) (hrun : adjustStack fuel s s.a.length = .ok r) :
    2 * r.out.length ≤ 2 * s.out.length + s.a.length := by
  unfold adjustStack at hrun
  obtain ⟨low, hlow, hrun⟩ := except_bind_eq_ok.mp hrun
  have hplace : ∃ i : Nat, low = i ∧ i < s.a.length := by
    unfold lowestPos at hlow
    obtain ⟨temp, -, hlow⟩ := except_bind_eq_ok.mp hlow
    have hbelow : ∀ n ∈ currentPos s.a, n.index < intMax := by
      intro n hn
      have hindex : n.index ∈ (currentPos s.a).map Node.index := List.mem_map_of_mem hn
      rw [map_index_currentPos] at hindex
      obtain ⟨n', hn', heq⟩ := List.mem_map.mp hindex
      exact heq ▸ hmax n' hn'
    obtain ⟨node, hnode, hpos, -⟩ := lowestWhere_least (currentPos s.a) temp.pos
      (by simpa [← List.length_pos_iff] using hne) hbelow
    obtain ⟨i, hi⟩ := List.getElem?_of_mem hnode
    refine ⟨i, ?_, ?_⟩
    · rw [← pos_currentPos hi, hpos]
      exact (Except.ok.inj hlow).symm
    · simpa using (List.getElem?_eq_some_iff.mp hi).1
  obtain ⟨i, rfl, hi⟩ := hplace
  rw [Int.tdiv_eq_ediv_of_nonneg (by omega)] at hrun
  split at hrun
  · next hfar =>
    have hwrote := countLoop_wrote _ _ _ wrote_rra (fun p => ((s.a.length : Int) - p).toNat) ?_ hrun
    · simp only [Wrote] at hwrote
      omega
    · intro p hp
      have := of_decide_eq_true hp
      omega
  · next hnear =>
    have hwrote := countLoop_wrote _ _ _ wrote_ra Int.toNat ?_ hrun
    · simp only [Wrote] at hwrote
      omega
    · intro p hp
      have := of_decide_eq_true hp
      omega

/-- What holds at the beginning of each round of the merge. -/
private theorem merging_of_rounds {xs : List Int} {ranked : List Node} {fuel : Nat}
    (hr : Ranked ranked) (hfuel : ranked.length ≤ fuel) {start state : Stacks × Int}
    (hstart : Merging xs ranked start.1 ∧ start.2 = start.1.b.length)
    (hrounds : Relation.ReflTransGen (Round moreToMerge (mergeRound fuel ranked.length))
      start state) :
    Merging xs ranked state.1 ∧ state.2 = state.1.b.length := by
  induction hrounds with
  | refl => exact hstart
  | @tail before after _ hround ih =>
      obtain ⟨s, k⟩ := before
      obtain ⟨hmerging, hcount⟩ := ih
      simp only at hmerging hcount
      subst hcount
      obtain ⟨hcond, hrun⟩ := hround
      simp only [moreToMerge, Bool.not_eq_true', List.isEmpty_eq_false_iff] at hcond
      obtain ⟨next, up, vp, hrun', hnext, -, -⟩ :=
        mergeRound_greedy xs ranked fuel s hr hfuel hmerging hcond
      obtain rfl : (next, (next.b.length : Int)) = after := Except.ok.inj (hrun'.symm.trans hrun)
      exact ⟨hnext, rfl⟩

/-- Four or more distinct numbers: every round that the merge comes to inserts a node of
`b` in front of its cyclic successor, with rotations that no choice of another node or of
another direction makes shorter. -/
theorem merge_greedy (stackA : List Node) (fuel : Nat) (hfour : 4 ≤ stackA.length)
    (hfresh : ∀ n ∈ stackA, n.index = 0) (hnodup : (stackA.map Node.number).Nodup)
    (hshort : (stackA.length : Int) < intMax) (hfuel : stackA.length ≤ fuel) :
    ∃ ranked start, assignIndex fuel stackA stackA.length = .ok ranked ∧
      beforeMerge fuel ⟨ranked, [], []⟩ stackA.length 0 = .ok start ∧
      ∀ state, Relation.ReflTransGen
          (Round moreToMerge (mergeRound fuel stackA.length)) start state →
        moreToMerge state = true →
        ∃ next up vp, mergeRound fuel stackA.length state = .ok (next, state.2 - 1) ∧
          GreedyRound state.1 next up vp := by
  obtain ⟨ranked, hassign, hnumbers, hindexed⟩ := assignIndex_spec stackA fuel hnodup hfresh hshort
    hfuel
  have hlen : ranked.length = stackA.length := by simpa using congrArg List.length hnumbers
  rw [← hlen] at hindexed hassign hshort hfuel hfour ⊢
  rw [← hnumbers] at hnodup
  have hr : Ranked ranked := ⟨hindexed, hnodup, hshort⟩
  have hplay : Playing (ranked.map Node.number) ranked ⟨ranked, [], []⟩ := ⟨rfl, by simp⟩
  obtain ⟨start, hbefore, hmerging, -, -⟩ :=
    beforeMerge_spec _ ranked fuel _ hr hplay rfl hfour hfuel
  refine ⟨ranked, _, hassign, hbefore, ?_⟩
  rintro ⟨s, k⟩ hrounds hcond
  obtain ⟨hmerging', hcount⟩ := merging_of_rounds hr hfuel ⟨hmerging, rfl⟩ hrounds
  simp only at hmerging' hcount
  subst hcount
  simp only [moreToMerge, Bool.not_eq_true', List.isEmpty_eq_false_iff] at hcond
  obtain ⟨next, up, vp, hrun, -, hgreedy, -⟩ :=
    mergeRound_greedy _ ranked fuel s hr hfuel hmerging' hcond
  refine ⟨next, up, vp, ?_, hgreedy⟩
  obtain ⟨key, -, hpopped⟩ := hgreedy.pushed
  have hless : next.b.length + 1 = s.b.length := by simpa using congrArg List.length hpopped
  rw [hrun, ← hless]
  push_cast
  rw [add_sub_cancel_right]

theorem merge_greedy_seven :
    ∃ ranked start, assignIndex 7 (filled [5, -2, 7, 0, 3, 9, 1]) 7 = .ok ranked ∧
      beforeMerge 7 ⟨ranked, [], []⟩ 7 0 = .ok start ∧
      ∀ state, Relation.ReflTransGen (Round moreToMerge (mergeRound 7 7)) start state →
        moreToMerge state = true →
        ∃ next up vp, mergeRound 7 7 state = .ok (next, state.2 - 1) ∧
          GreedyRound state.1 next up vp :=
  merge_greedy (filled [5, -2, 7, 0, 3, 9, 1]) 7 (by decide) (by decide) (by decide)
    (by decide) (by decide)

/-- The branches of `main`: without `sort_more` at most two instructions. -/
theorem sortBySize_wrote (xs : List Int) (ranked : List Node) (fuel : Nat) {s r : Stacks}
    (hr : Ranked ranked) (hs : Playing xs ranked s) (hb : s.b = []) (hfuel : ranked.length ≤ fuel)
    (hrun : sortBySize fuel s ranked.length = .ok r) :
    4 * r.out.length ≤
      4 * s.out.length + (ranked.length * ranked.length + 11 * ranked.length) := by
  have hkept : ∀ {t : Stacks}, s = t →
      4 * t.out.length ≤
        4 * s.out.length + (ranked.length * ranked.length + 11 * ranked.length) := by
    rintro t rfl
    exact Nat.le_add_right _ _
  unfold sortBySize at hrun
  split at hrun
  · next htwo =>
    obtain ⟨sorted, -, hrun⟩ := except_bind_eq_ok.mp hrun
    have hsa := wrote_sa s
    unfold Wrote at hsa
    split at hrun
    · exact hkept (Except.ok.inj hrun)
    · cases hrun
      omega
  · split at hrun
    · next hthree =>
      obtain ⟨sorted, -, hrun⟩ := except_bind_eq_ok.mp hrun
      split at hrun
      · exact hkept (Except.ok.inj hrun)
      · have hwrote := sortThree_wrote hrun
        unfold Wrote at hwrote
        omega
    · split at hrun
      · next hmore =>
        obtain ⟨sorted, -, hrun⟩ := except_bind_eq_ok.mp hrun
        split at hrun
        · exact hkept (Except.ok.inj hrun)
        · have hwrote := sortMore_wrote xs ranked fuel hr hs hb (by omega) hfuel hrun
          omega
      · exact hkept (Except.ok.inj hrun)

/-- Fewer than `INT_MAX` distinct numbers are sorted with at most
`(n * n + 13 * n) / 4` instructions. -/
theorem sortingPhase_length (stackA : List Node) (fuel : Nat) (hne : stackA ≠ [])
    (hfresh : ∀ n ∈ stackA, n.index = 0) (hnodup : (stackA.map Node.number).Nodup)
    (hshort : (stackA.length : Int) < intMax) (hfuel : stackA.length ≤ fuel) :
    ∃ s, sortingPhase fuel stackA stackA.length = .ok s ∧
      4 * s.out.length ≤ stackA.length * stackA.length + 13 * stackA.length := by
  obtain ⟨ranked, hassign, hnumbers, hindexed⟩ := assignIndex_spec stackA fuel hnodup hfresh hshort
    hfuel
  have hlen : ranked.length = stackA.length := by simpa using congrArg List.length hnumbers
  rw [← hlen] at hindexed hassign hshort hfuel ⊢
  rw [← hnumbers] at hnodup
  have hr : Ranked ranked := ⟨hindexed, hnodup, hshort⟩
  have hstart : Playing (ranked.map Node.number) ranked ⟨ranked, [], []⟩ := ⟨rfl, by simp⟩
  have hne' : ranked ≠ [] := by
    rw [← List.length_pos_iff, hlen, List.length_pos_iff]
    exact hne
  obtain ⟨s, hrun, hmerging, hb⟩ := sortBySize_spec _ ranked fuel ⟨ranked, [], []⟩ hr hstart rfl
    hne' hfuel
  have hwrote := sortBySize_wrote _ ranked fuel hr hstart rfl hfuel hrun
  simp only [List.length_nil] at hwrote
  obtain ⟨sorted, hsorted, -⟩ := isSorted_spec s.a hmerging.nonempty
  cases sorted with
  | true =>
      refine ⟨s, ?_, by omega⟩
      simp only [sortingPhase, hassign, hrun, hsorted, bind, Except.bind, if_true, pure,
        Except.pure]
  | false =>
      obtain ⟨r, hadjust, -⟩ := adjustStack_spec _ ranked fuel s hr hmerging hb hfuel
      have hall := length_eq_of_keys hmerging.keys
      rw [hb, List.length_nil, add_zero] at hall
      have hturned := adjustStack_wrote hmerging.nonempty
        (fun n hn => index_lt_of_keys hmerging.keys hr.index_lt n (by simp [hn]))
        (hall ▸ hadjust)
      refine ⟨r, ?_, by omega⟩
      simp only [sortingPhase, hassign, hrun, hsorted, bind, Except.bind, Bool.false_eq_true,
        if_false]
      exact hadjust

theorem sortingPhase_length_seven :
    ∃ s, sortingPhase 7 (filled [5, -2, 7, 0, 3, 9, 1]) 7 = .ok s ∧ 4 * s.out.length ≤ 140 :=
  sortingPhase_length (filled [5, -2, 7, 0, 3, 9, 1]) 7 (by decide) (by decide) (by decide)
    (by decide) (by decide)

end Run

end FortyTwo.PushSwap
