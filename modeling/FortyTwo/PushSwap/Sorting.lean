import FortyTwo.PushSwap.Insertion

/-!
The sorting phase as `main` runs it. Until stack `b` is empty again the two
stacks together hold the ranked nodes; from then on `a` is increasing up to a
rotation, and `adjust_stack` turns its least number to the top.
-/

namespace FortyTwo.PushSwap

open Foundation

private theorem Playing.ra {xs : List Int} {ranked : List Node} {s : Stacks}
    (h : Playing xs ranked s) : Playing xs ranked (s.onA rotateX .ra) := by
  have hturn := turned_ra xs s
  refine ⟨hturn.faithful h.faithful, ?_⟩
  rw [hturn.a, hturn.b, rotateBy_zero]
  exact (((rotateBy_perm 1 s.a).append_right s.b).map Node.key).trans h.keys

private theorem Playing.pb {xs : List Int} {ranked : List Node} {s : Stacks}
    (h : Playing xs ranked s) : Playing xs ranked s.pb := by
  refine ⟨faithful_pb h.faithful, ?_⟩
  have hkeys := h.keys
  rcases s with ⟨_ | ⟨x, rest⟩, b, out⟩
  · exact hkeys
  · have hmoved : (rest ++ x :: b).Perm (x :: rest ++ b) := List.perm_middle
    exact (hmoved.map Node.key).trans hkeys

private theorem Playing.top {xs : List Int} {ranked : List Node} {s : Stacks}
    (h : Playing xs ranked s) (hroom : s.b.length < ranked.length) :
    ∃ top rest, s.a = top :: rest := by
  have hlength := length_eq_of_keys h.keys
  exact List.exists_cons_of_length_pos (by omega)

/-- Nodes with the keys of indexed nodes are indexed. -/
theorem Indexed.of_keys {len : Int} {l ranked : List Node} (h : Indexed len ranked)
    (hkeys : (l.map Node.key).Perm (ranked.map Node.key)) : Indexed len l := by
  have hsame : ∀ n ∈ l, ∃ m ∈ ranked, m.index = n.index ∧ m.number = n.number := by
    intro n hn
    have hmem : n.key ∈ ranked.map Node.key := hkeys.mem_iff.mp (List.mem_map_of_mem hn)
    obtain ⟨m, hm, heq⟩ := List.mem_map.mp hmem
    exact ⟨m, hm, congrArg Prod.fst heq, congrArg Prod.snd heq⟩
  constructor
  · intro n hn
    obtain ⟨m, hm, hindex, _⟩ := hsame n hn
    exact hindex ▸ h.positive m hm
  · intro n hn
    obtain ⟨m, hm, hindex, _⟩ := hsame n hn
    exact hindex ▸ h.bounded m hm
  · intro n hn n' hn'
    obtain ⟨m, hm, hindex, hnumber⟩ := hsame n hn
    obtain ⟨m', hm', hindex', hnumber'⟩ := hsame n' hn'
    rw [← hindex, ← hindex', ← hnumber, ← hnumber']
    exact h.order m hm m' hm'

/-- `is_sorted` decides ascending order on a stack that has a node. -/
theorem isSorted_spec (l : List Node) (hne : l ≠ []) :
    ∃ sorted, isSorted l = .ok sorted ∧
      (sorted = true ↔ (l.map Node.number).Pairwise (· ≤ ·)) := by
  induction l with
  | nil => exact absurd rfl hne
  | cons current rest ih =>
      cases rest with
      | nil => exact ⟨true, rfl, by simp⟩
      | cons next rest =>
          obtain ⟨sorted, hrun, hiff⟩ := ih (by simp)
          by_cases hdrop : current.number > next.number
          · refine ⟨false, by rw [isSorted, if_pos hdrop], ?_⟩
            simp only [List.map_cons, List.pairwise_cons, List.mem_cons, Bool.false_eq_true,
              false_iff]
            intro h
            exact absurd (h.1 next.number (Or.inl rfl)) (not_le.mpr hdrop)
          · refine ⟨sorted, by rw [isSorted, if_neg hdrop, hrun], ?_⟩
            constructor
            · intro h
              refine List.pairwise_cons.mpr ⟨?_, hiff.mp h⟩
              intro y hy
              rcases List.mem_cons.mp hy with rfl | hy
              · exact not_lt.mp hdrop
              · exact (not_lt.mp hdrop).trans ((List.pairwise_cons.mp (hiff.mp h)).1 y hy)
            · intro h
              exact hiff.mpr (List.pairwise_cons.mp h).2

/-- Ascending distinct numbers have increasing indices. -/
private theorem indices_sorted {len : Int} {l : List Node} (hl : Indexed len l)
    (hnodup : (l.map Node.number).Nodup) (h : (l.map Node.number).Pairwise (· ≤ ·)) :
    (l.map Node.index).Pairwise (· < ·) := by
  have hlt : l.Pairwise (fun n m => n.number < m.number) := by
    rw [List.pairwise_map] at h
    rw [List.Nodup, List.pairwise_map] at hnodup
    exact h.imp₂ (fun _ _ hle hne => lt_of_le_of_ne hle hne) hnodup
  rw [List.pairwise_map]
  exact hlt.imp_of_mem (fun hn hm hlt => (hl.order _ hn _ hm).mpr hlt)

/-- Increasing indices stand on ascending numbers. -/
private theorem numbers_sorted {len : Int} {l : List Node} (hl : Indexed len l)
    (h : (l.map Node.index).Pairwise (· < ·)) : (l.map Node.number).Pairwise (· ≤ ·) := by
  rw [List.pairwise_map] at h ⊢
  exact h.imp_of_mem (fun hn hm hlt => ((hl.order _ hn _ hm).mp hlt).le)

/-- The second half of `sort_three`: the greatest node is at the bottom. -/
private theorem swapLast_spec (x y z : Node) (b : List Node) (out : List Instr)
    (hxy : x.index ≠ y.index) (hxz : x.index < z.index) (hyz : y.index < z.index) :
    let s : Stacks := ⟨[x, y, z], b, out⟩
    let r := if x.index > y.index then s.onA swapX .sa else s
    r.b = b ∧ r.a.Perm [x, y, z] ∧ (r.a.map Node.index).Pairwise (· < ·) ∧
      ∀ xs, Faithful xs s → Faithful xs r := by
  intro s r
  by_cases hlt : x.index > y.index
  · have hr : r = s.onA swapX .sa := if_pos hlt
    rw [hr]
    refine ⟨rfl, List.Perm.swap x y [z], ?_, fun xs h => faithful_sa h⟩
    simp only [s, Stacks.onA, swapX, List.map_cons, List.map_nil, List.pairwise_cons,
      List.mem_cons, List.not_mem_nil]
    grind
  · have hr : r = s := if_neg hlt
    rw [hr]
    refine ⟨rfl, List.Perm.refl _, ?_, fun xs h => h⟩
    simp only [s, List.map_cons, List.map_nil, List.pairwise_cons, List.mem_cons,
      List.not_mem_nil]
    grind

/-- Three nodes that are not yet in order are sorted. -/
theorem sortThree_spec (x y z : Node) (b : List Node) (out : List Instr)
    (hxy : x.index ≠ y.index) (hxz : x.index ≠ z.index) (hyz : y.index ≠ z.index)
    (hunsorted : ¬ (x.index < y.index ∧ y.index < z.index)) :
    ∃ r, sortThree ⟨[x, y, z], b, out⟩ = .ok r ∧ r.b = b ∧ r.a.Perm [x, y, z] ∧
      (r.a.map Node.index).Pairwise (· < ·) ∧
      ∀ xs, Faithful xs ⟨[x, y, z], b, out⟩ → Faithful xs r := by
  let s : Stacks := ⟨[x, y, z], b, out⟩
  rcases lt_or_gt_of_ne hxy with hlt | hgt
  · -- `y` is the greatest: it is not below `z`, as the nodes would be in order
    have hzy : z.index < y.index := by omega
    obtain ⟨hb, hperm, hsorted, hfaithful⟩ := swapLast_spec z x y b (out ++ [.rra]) hxz.symm hzy hlt
    refine ⟨_, ?_, hb, hperm.trans ?_, hsorted,
      fun xs h => hfaithful xs ((turned_rra xs s).faithful h)⟩
    · have hnot : ¬ x.index > y.index := not_lt.mpr hlt.le
      simp only [sortThree, deref, List.getElem?_cons_zero, List.getElem?_cons_succ, bind,
        Except.bind, pure, Except.pure, hnot, hlt, decide_false, Bool.false_eq_true, if_false,
        gt_iff_lt, if_true]
      exact (apply_ite Except.ok (x.index < z.index) _ _).symm
    · exact (List.perm_append_comm : ([z] ++ [x, y]).Perm ([x, y] ++ [z]))
  · by_cases hzx : x.index > z.index
    · obtain ⟨hb, hperm, hsorted, hfaithful⟩ := swapLast_spec y z x b (out ++ [.ra]) hyz hgt hzx
      refine ⟨_, ?_, hb, hperm.trans ?_, hsorted,
        fun xs h => hfaithful xs ((turned_ra xs s).faithful h)⟩
      · simp only [sortThree, deref, List.getElem?_cons_zero, List.getElem?_cons_succ, bind,
          Except.bind, pure, Except.pure, hgt, hzx, decide_true, if_true]
        exact (apply_ite Except.ok (y.index > z.index) _ _).symm
      · exact (List.perm_append_comm : ([y, z] ++ [x]).Perm ([x] ++ [y, z]))
    · have hxz' : x.index < z.index := by omega
      have hyz' : y.index < z.index := by omega
      obtain ⟨hb, hperm, hsorted, hfaithful⟩ := swapLast_spec x y z b out hxy hxz' hyz'
      refine ⟨_, ?_, hb, hperm, hsorted, hfaithful⟩
      have hnot : ¬ y.index > x.index := not_lt.mpr hgt.le
      simp only [sortThree, deref, List.getElem?_cons_zero, List.getElem?_cons_succ, bind,
        Except.bind, pure, Except.pure, hgt, hzx, hnot, decide_true, decide_false,
        Bool.false_eq_true, if_true, if_false]

/-- What is known of the ranked nodes of a stack of distinct numbers. -/
structure Ranked (ranked : List Node) : Prop where
  indexed : Indexed ranked.length ranked
  nodup : (ranked.map Node.number).Nodup
  short : (ranked.length : Int) < intMax

theorem Ranked.index_nodup {ranked : List Node} (h : Ranked ranked) :
    (ranked.map Node.index).Nodup := by
  have hnodup := h.nodup
  rw [List.Nodup, List.pairwise_map] at hnodup ⊢
  apply hnodup.imp_of_mem
  intro n m hn hm hne heq
  have hlt := h.indexed.order n hn m hm
  have hgt := h.indexed.order m hm n hn
  omega

theorem Ranked.index_lt {ranked : List Node} (h : Ranked ranked) :
    ∀ n ∈ ranked, n.index < intMax :=
  fun n hn => (h.indexed.bounded n hn).trans_lt h.short

/-- The first loop of `sort_more` sends at most half of the stack to `b`. -/
theorem spread_spec (xs : List Int) (ranked : List Node) (fuel : Nat) (s : Stacks)
    (hs : Playing xs ranked s) (hb : s.b = []) (hlen : 4 ≤ ranked.length)
    (hfuel : ranked.length ≤ fuel) :
    ∃ r i, boundedWhile Stuck.outOfFuel
        (fun state : Stacks × Int × Int =>
          decide ((ranked.length : Int) > 6) && decide (state.2.1 < ranked.length) &&
            decide (state.2.2 < (ranked.length : Int).tdiv 2))
        (spreadRound ranked.length) fuel (s, 0, 0) = .ok (r, i, (r.b.length : Int)) ∧
      Playing xs ranked r ∧ r.b.length + 3 ≤ ranked.length := by
  have hhalf : (ranked.length : Int).tdiv 2 = ranked.length / 2 :=
    Int.tdiv_eq_ediv_of_nonneg (by omega)
  let inv : Stacks × Int × Int → Prop := fun state =>
    Playing xs ranked state.1 ∧ state.2.2 = state.1.b.length ∧
      state.1.b.length + 3 ≤ ranked.length
  have hround : ∀ state, inv state →
      (decide ((ranked.length : Int) > 6) && decide (state.2.1 < ranked.length) &&
        decide (state.2.2 < (ranked.length : Int).tdiv 2)) = true →
      ∃ next, spreadRound ranked.length state = .ok next ∧ inv next ∧
        (ranked.length - next.2.1).toNat < (ranked.length - state.2.1).toNat := by
    rintro ⟨t, i, lenB⟩ ⟨hplay, hcount, hroom⟩ hcond
    simp only [Bool.and_eq_true, decide_eq_true_eq, hhalf] at hcond hcount hroom hplay
    obtain ⟨⟨hbig, hi⟩, hfew⟩ := hcond
    obtain ⟨top, rest, ha⟩ := hplay.top (by omega)
    by_cases hlow : top.index ≤ (ranked.length : Int) / 2
    · refine ⟨(t.pb, i + 1, lenB + 1), ?_, ⟨hplay.pb, ?_, ?_⟩, by simp only; omega⟩
      · have hroom' : lenB < ranked.length := by omega
        simp only [spreadRound, deref, ha, List.getElem?_cons_zero, bind, Except.bind, hhalf, hlow,
          hfew, hroom', and_self, if_true, pure, Except.pure]
      · simp [Stacks.pb, pushToX, ha, hcount]
      · simp [Stacks.pb, pushToX, ha]
        omega
    · refine ⟨(t.onA rotateX .ra, i + 1, lenB), ?_, ⟨hplay.ra, hcount, hroom⟩,
        by simp only; omega⟩
      simp only [spreadRound, deref, ha, List.getElem?_cons_zero, bind, Except.bind, hhalf, hlow,
        false_and, if_false, pure, Except.pure]
  obtain ⟨⟨r, i, lenB⟩, hrun, ⟨hplay, hcount, hroom⟩, _⟩ := boundedWhile_total Stuck.outOfFuel _ _
    inv (fun state => (ranked.length - state.2.1).toNat) hround fuel (s, 0, 0)
    ⟨hs, by simp [hb], by simp only [hb, List.length_nil]; omega⟩ (by simp only; omega)
  simp only at hcount hplay hroom
  subst hcount
  exact ⟨r, i, hrun, hplay, hroom⟩

/-- The second loop of `sort_more` leaves three nodes on `a`. -/
theorem fill_spec (xs : List Int) (ranked : List Node) (fuel : Nat) (s : Stacks)
    (hs : Playing xs ranked s) (hroom : s.b.length + 3 ≤ ranked.length)
    (hfuel : ranked.length ≤ fuel) :
    ∃ r, boundedWhile Stuck.outOfFuel
        (fun state : Stacks × Int => decide (state.2 < (ranked.length : Int) - 3))
        (fun state => .ok (state.1.pb, state.2 + 1)) fuel (s, (s.b.length : Int)) =
          .ok (r, (r.b.length : Int)) ∧
      Playing xs ranked r ∧ r.a.length = 3 := by
  let inv : Stacks × Int → Prop := fun state =>
    Playing xs ranked state.1 ∧ state.2 = state.1.b.length ∧
      state.1.b.length + 3 ≤ ranked.length
  have hround : ∀ state, inv state → decide (state.2 < (ranked.length : Int) - 3) = true →
      ∃ next, (.ok (state.1.pb, state.2 + 1) : Except Stuck (Stacks × Int)) = .ok next ∧
        inv next ∧ (ranked.length - next.2).toNat < (ranked.length - state.2).toNat := by
    rintro ⟨t, lenB⟩ ⟨hplay, hcount, hroom⟩ hcond
    simp only [decide_eq_true_eq] at hcond hcount hroom hplay
    obtain ⟨top, rest, ha⟩ := hplay.top (by omega)
    refine ⟨_, rfl, ⟨hplay.pb, ?_, ?_⟩, by simp only; omega⟩
    · simp [Stacks.pb, pushToX, ha, hcount]
    · simp [Stacks.pb, pushToX, ha]
      omega
  obtain ⟨⟨r, lenB⟩, hrun, ⟨hplay, hcount, hroom'⟩, hexit⟩ := boundedWhile_total Stuck.outOfFuel _
    _ inv (fun state => (ranked.length - state.2).toNat) hround fuel (s, (s.b.length : Int))
    ⟨hs, rfl, hroom⟩ (by simp only; omega)
  simp only [decide_eq_false_iff_not] at hcount hplay hroom' hexit
  have hlength := length_eq_of_keys hplay.keys
  subst hcount
  exact ⟨r, hrun, hplay, by omega⟩

private theorem Playing.indexed_a {xs : List Int} {ranked : List Node} {s : Stacks}
    (h : Playing xs ranked s) (hr : Ranked ranked) : Indexed ranked.length s.a := by
  have hall := hr.indexed.of_keys h.keys
  exact ⟨fun n hn => hall.positive n (by simp [hn]), fun n hn => hall.bounded n (by simp [hn]),
    fun n hn m hm => hall.order n (by simp [hn]) m (by simp [hm])⟩

private theorem Playing.numbers_nodup {xs : List Int} {ranked : List Node} {s : Stacks}
    (h : Playing xs ranked s) (hr : Ranked ranked) : (s.a.map Node.number).Nodup := by
  have hperm := h.keys.map Prod.snd
  simp only [List.map_map, Function.comp_def, Node.key] at hperm
  have hall : ((s.a ++ s.b).map Node.number).Nodup := hperm.nodup_iff.mpr hr.nodup
  rw [List.map_append] at hall
  exact hall.of_append_left

/-- A stack in ascending order is ready for the merge. -/
private theorem Playing.merging {xs : List Int} {ranked : List Node} {s : Stacks}
    (h : Playing xs ranked s) (hr : Ranked ranked) (hne : s.a ≠ [])
    (hsorted : (s.a.map Node.number).Pairwise (· ≤ ·)) : Merging xs ranked s :=
  ⟨h, CyclicallySorted.of_sorted
    (indices_sorted (h.indexed_a hr) (h.numbers_nodup hr) hsorted), hne⟩

/-- `if (!is_sorted(*a)) sort_three(a);` -/
theorem sortThree_unless_sorted (xs : List Int) (ranked : List Node) (s : Stacks)
    (hr : Ranked ranked) (hs : Playing xs ranked s) (hlen : s.a.length = 3) :
    ∃ sorted r, isSorted s.a = .ok sorted ∧
      (if sorted then Except.ok s else sortThree s) = .ok r ∧
      Merging xs ranked r ∧ r.b = s.b := by
  have hne : s.a ≠ [] := by
    intro hnil
    simp [hnil] at hlen
  obtain ⟨sorted, hrun, hiff⟩ := isSorted_spec s.a hne
  cases sorted with
  | true =>
      exact ⟨true, s, hrun, rfl, hs.merging hr hne (hiff.mp rfl), rfl⟩
  | false =>
      obtain ⟨x, y, z, ha⟩ := List.length_eq_three.mp hlen
      have hindices : ([x, y, z].map Node.index).Nodup := by
        have hall := indices_nodup_of_keys hs.keys hr.index_nodup
        rw [List.map_append, ha] at hall
        exact hall.of_append_left
      simp only [List.map_cons, List.map_nil, List.nodup_cons, List.mem_cons, List.not_mem_nil,
        or_false, not_or] at hindices
      have hunsorted : ¬ (x.index < y.index ∧ y.index < z.index) := by
        rintro ⟨hxy, hyz⟩
        have hsorted : (s.a.map Node.number).Pairwise (· ≤ ·) := by
          apply numbers_sorted (hs.indexed_a hr)
          rw [ha]
          simp only [List.map_cons, List.map_nil, List.pairwise_cons, List.mem_cons,
            List.not_mem_nil]
          grind
        simpa using hiff.mpr hsorted
      have hs' : s = ⟨[x, y, z], s.b, s.out⟩ := by rw [← ha]
      obtain ⟨r, hrun', hb, hperm, hincreasing, hfaithful⟩ := sortThree_spec x y z s.b s.out
        hindices.1.1 hindices.1.2 hindices.2.1 hunsorted
      rw [← hs'] at hrun' hfaithful
      refine ⟨false, r, hrun, hrun', ⟨⟨hfaithful xs hs.faithful, ?_⟩,
        CyclicallySorted.of_sorted hincreasing, ?_⟩, hb⟩
      · rw [hb]
        rw [← ha] at hperm
        exact ((hperm.append_right s.b).map Node.key).trans hs.keys
      · intro hnil
        rw [hnil] at hperm
        exact absurd hperm.length_eq (by simp)

/-- The last loop of `sort_more` brings every node back to `a`. -/
private theorem merge_spec (xs : List Int) (ranked : List Node) (fuel : Nat) (s : Stacks)
    (hr : Ranked ranked) (hs : Merging xs ranked s) (hfuel : ranked.length ≤ fuel) :
    ∃ r, boundedWhile Stuck.outOfFuel (fun state : Stacks × Int => !state.1.b.isEmpty)
        (mergeRound fuel ranked.length) fuel (s, (s.b.length : Int)) =
          .ok (r, (r.b.length : Int)) ∧
      Merging xs ranked r ∧ r.b = [] := by
  let inv : Stacks × Int → Prop := fun state =>
    Merging xs ranked state.1 ∧ state.2 = state.1.b.length
  have hround : ∀ state, inv state → (!state.1.b.isEmpty) = true →
      ∃ next, mergeRound fuel ranked.length state = .ok next ∧ inv next ∧
        next.1.b.length < state.1.b.length := by
    rintro ⟨t, lenB⟩ ⟨hmerging, hcount⟩ hcond
    simp only [Bool.not_eq_true', List.isEmpty_eq_false_iff] at hcond hcount hmerging
    subst hcount
    obtain ⟨next, hrun, hnext, hlt⟩ := mergeRound_spec xs ranked fuel t hr.index_nodup
      hr.index_lt hr.short hfuel hmerging hcond
    exact ⟨_, hrun, ⟨hnext, rfl⟩, hlt⟩
  have hlength := length_eq_of_keys hs.keys
  obtain ⟨⟨r, lenB⟩, hrun, ⟨hmerging, hcount⟩, hexit⟩ := boundedWhile_total Stuck.outOfFuel _ _
    inv (fun state => state.1.b.length) hround fuel (s, (s.b.length : Int)) ⟨hs, rfl⟩
    (by simp only; omega)
  simp only [Bool.not_eq_false', List.isEmpty_iff] at hcount hmerging hexit
  subst hcount
  exact ⟨r, hrun, hmerging, hexit⟩

theorem sortMore_spec (xs : List Int) (ranked : List Node) (fuel : Nat) (s : Stacks)
    (hr : Ranked ranked) (hs : Playing xs ranked s) (hb : s.b = []) (hlen : 4 ≤ ranked.length)
    (hfuel : ranked.length ≤ fuel) :
    ∃ r, sortMore fuel s ranked.length 0 = .ok r ∧ Merging xs ranked r ∧ r.b = [] := by
  obtain ⟨r₁, i, hrun₁, hplay₁, hroom₁⟩ := spread_spec xs ranked fuel s hs hb hlen hfuel
  obtain ⟨r₂, hrun₂, hplay₂, hthree⟩ := fill_spec xs ranked fuel r₁ hplay₁ hroom₁ hfuel
  obtain ⟨sorted, r₃, hsorted, hrun₃, hmerging₃, hb₃⟩ := sortThree_unless_sorted xs ranked r₂ hr hplay₂ hthree
  obtain ⟨r₄, hrun₄, hmerging₄, hb₄⟩ := merge_spec xs ranked fuel r₃ hr hmerging₃ hfuel
  refine ⟨r₄, ?_, hmerging₄, hb₄⟩
  rw [hb₃] at hrun₄
  simp only [sortMore]
  rw [hrun₁]
  simp only [bind, Except.bind]
  rw [hrun₂]
  simp only [hsorted]
  cases sorted with
  | true =>
      obtain rfl : r₂ = r₃ := Except.ok.inj hrun₃
      simp only [if_true, pure, Except.pure, hrun₄]
  | false =>
      simp only [Bool.false_eq_true, if_false] at hrun₃ ⊢
      simp only [hrun₃, hrun₄, pure, Except.pure]

/-- `adjust_stack` turns a cyclically increasing stack to its least number. -/
theorem adjustStack_spec (xs : List Int) (ranked : List Node) (fuel : Nat) (s : Stacks)
    (hr : Ranked ranked) (hs : Merging xs ranked s) (hb : s.b = [])
    (hfuel : ranked.length ≤ fuel) :
    ∃ r, adjustStack fuel s ranked.length = .ok r ∧ Playing xs ranked r ∧ r.b = [] ∧
      (r.a.map Node.index).Pairwise (· < ·) := by
  let p : Stacks := { s with a := currentPos s.a }
  have hlength : p.a.length = ranked.length := by
    have h := length_eq_of_keys hs.keys
    rw [hb] at h
    simpa [p] using h
  have hplay : Playing xs ranked p := by
    constructor
    · have hout : p.out = s.out := rfl
      unfold Faithful
      rw [hout, hs.faithful, map_number_currentPos]
    · have hkeys := hs.keys
      rw [List.map_append] at hkeys ⊢
      rwa [map_key_currentPos]
  have hindices : p.a.map Node.index = s.a.map Node.index := map_index_currentPos s.a
  obtain ⟨top, rest, ha⟩ := hplay.top (by
    have hpos := List.length_pos_iff.mpr hs.nonempty
    simp only [p, hb, List.length_nil, length_currentPos] at hlength ⊢
    omega)
  obtain ⟨node, hnode, hpos, hleast⟩ := lowestWhere_least p.a top.pos (by simp [ha])
    (fun n hn => index_lt_of_keys hplay.keys hr.index_lt n (by simp [hn]))
  obtain ⟨pos, hat⟩ := List.getElem?_of_mem hnode
  have hposlt := (List.getElem?_eq_some_iff.mp hat).1
  have hlow : lowestPos p.a = .ok (pos : Int) := by
    rw [pos_currentPos hat] at hpos
    simp only [lowestPos, deref, ha, List.getElem?_cons_zero, bind, Except.bind, pure,
      Except.pure] at hpos ⊢
    rw [hpos]
  -- either way round, the stack is turned up by the position of its least node
  have hturned : ∃ r up, adjustStack fuel s ranked.length = .ok r ∧
      Turned xs p r up 0 ∧ rotateBy up p.a = rotateBy pos p.a := by
    by_cases hfar : (pos : Int) > (ranked.length : Int).tdiv 2
    · obtain ⟨r, hrun, hturn⟩ := countLoop_turned xs (fun c => decide (c < (ranked.length : Int))) 1
        (-1) 0 _ (turned_rra xs) (ranked.length - pos) fuel pos p (by omega)
        (by intro k hk; simp; omega) (by simp; omega)
      rw [mul_zero] at hturn
      refine ⟨r, _, ?_, hturn, ?_⟩
      · simp only [adjustStack, bind, Except.bind]
        rw [hlow]
        simp only [hfar, if_true]
        exact hrun
      · have hturns : ((ranked.length - pos : Nat) : Int) * -1 = pos - p.a.length := by omega
        rw [hturns, rotateBy_sub_length]
    · obtain ⟨r, hrun, hturn⟩ := countLoop_turned xs (fun c => decide (c > 0)) (-1) 1 0 _
        (turned_ra xs) pos fuel pos p (by omega) (by intro k hk; simp; omega) (by simp)
      rw [mul_zero] at hturn
      refine ⟨r, _, ?_, hturn, ?_⟩
      · simp only [adjustStack, bind, Except.bind]
        rw [hlow]
        simp only [hfar, if_false]
        exact hrun
      · rw [mul_one]
  obtain ⟨r, up, hrun, hturn, hrotate⟩ := hturned
  obtain ⟨more, hmore⟩ := rotateBy_eq_cons_of_getElem? hat
  have hra : r.a = node :: more := by rw [hturn.a, hrotate, hmore]
  have hrb : r.b = [] := by
    have hpb : p.b = [] := hb
    rw [hturn.b, hpb, rotateBy_nil]
  have hperm : r.a.Perm p.a := by
    rw [hturn.a]
    exact rotateBy_perm _ _
  refine ⟨r, hrun, ⟨hturn.faithful hplay.faithful, ?_⟩, hrb, ?_⟩
  · have hsame : r.b = p.b := by rw [hrb]; exact hb.symm
    rw [hsame]
    exact ((hperm.append_right p.b).map Node.key).trans hplay.keys
  · have hcyc : CyclicallySorted (r.a.map Node.index) := by
      rw [hturn.a, map_rotateBy, hindices]
      exact hs.cyclic.rotate _
    rw [hra] at hcyc hperm ⊢
    apply hcyc.sorted_of_head_least
    intro y hy
    obtain ⟨n, hn, rfl⟩ := List.mem_map.mp hy
    exact hleast n (hperm.mem_iff.mp (by simp [hn]))

/-- Afterwards every node is on `a`, which is increasing up to a rotation. -/
theorem sortBySize_spec (xs : List Int) (ranked : List Node) (fuel : Nat) (s : Stacks)
    (hr : Ranked ranked) (hs : Playing xs ranked s) (hb : s.b = []) (hne : s.a ≠ [])
    (hfuel : ranked.length ≤ fuel) :
    ∃ r, sortBySize fuel s ranked.length = .ok r ∧ Merging xs ranked r ∧ r.b = [] := by
  have hlength := length_eq_of_keys hs.keys
  rw [hb, List.length_nil, add_zero] at hlength
  obtain ⟨sorted, hsorted, hiff⟩ := isSorted_spec s.a hne
  have hready : sorted = true → Merging xs ranked s := fun h => hs.merging hr hne (hiff.mp h)
  by_cases htwo : ranked.length = 2
  · cases sorted with
    | true =>
        refine ⟨s, ?_, hready rfl, hb⟩
        simp [sortBySize, htwo, hsorted, bind, Except.bind, pure, Except.pure]
    | false =>
        obtain ⟨x, y, ha⟩ := List.length_eq_two.mp (hlength.trans htwo)
        have hdrop : y.number < x.number := by
          by_contra hnot
          have hasc : (s.a.map Node.number).Pairwise (· ≤ ·) := by
            simpa [ha] using not_lt.mp hnot
          simpa using hiff.mpr hasc
        have hswapped : (s.onA swapX .sa).a = [y, x] := by simp [Stacks.onA, swapX, ha]
        have hplay : Playing xs ranked (s.onA swapX .sa) := by
          refine ⟨faithful_sa hs.faithful, ?_⟩
          have hperm : (s.onA swapX .sa).a.Perm s.a := by
            rw [hswapped, ha]
            exact List.Perm.swap x y []
          exact ((hperm.append_right s.b).map Node.key).trans hs.keys
        refine ⟨s.onA swapX .sa, ?_, hplay.merging hr (by simp [hswapped]) ?_, hb⟩
        · simp [sortBySize, htwo, hsorted, bind, Except.bind, pure, Except.pure]
        · simpa [hswapped] using hdrop.le
  have htwo' : ¬ (ranked.length : Int) = 2 := by omega
  by_cases hthree : ranked.length = 3
  · obtain ⟨sorted', r, hsorted', hrun, hmerging, hrb⟩ :=
      sortThree_unless_sorted xs ranked s hr hs (hlength.trans hthree)
    refine ⟨r, ?_, hmerging, hrb.trans hb⟩
    simp [sortBySize, hthree, hsorted', bind, Except.bind]
    exact hrun
  have hthree' : ¬ (ranked.length : Int) = 3 := by omega
  by_cases hmore : (ranked.length : Int) > 3
  · cases sorted with
    | true =>
        refine ⟨s, ?_, hready rfl, hb⟩
        simp only [sortBySize, htwo', hthree', hmore, if_false, if_true, hsorted, bind,
          Except.bind, pure, Except.pure]
    | false =>
        obtain ⟨r, hrun, hmerging, hrb⟩ := sortMore_spec xs ranked fuel s hr hs hb (by omega) hfuel
        refine ⟨r, ?_, hmerging, hrb⟩
        simp only [sortBySize, htwo', hthree', hmore, if_false, if_true, hsorted, bind,
          Except.bind, Bool.false_eq_true]
        exact hrun
  · have hone : s.a.length = 1 := by
      have hpos := List.length_pos_iff.mpr hne
      omega
    obtain ⟨x, ha⟩ := List.length_eq_one_iff.mp hone
    refine ⟨s, ?_, hs.merging hr hne (by simp [ha]), hb⟩
    simp only [sortBySize, htwo', hthree', hmore, if_false, pure, Except.pure]

/-- Fewer than `INT_MAX` distinct numbers are sorted: replaying the log on
them leaves them on `a` in ascending order and `b` empty. -/
theorem sortingPhase_sorts (stackA : List Node) (fuel : Nat) (hne : stackA ≠ [])
    (hfresh : ∀ n ∈ stackA, n.index = 0) (hnodup : (stackA.map Node.number).Nodup)
    (hshort : (stackA.length : Int) < intMax) (hfuel : stackA.length ≤ fuel) :
    ∃ s sorted, sortingPhase fuel stackA stackA.length = .ok s ∧
      replay s.out (stackA.map Node.number, []) = (sorted, []) ∧
      sorted.Perm (stackA.map Node.number) ∧ sorted.Pairwise (· < ·) := by
  obtain ⟨ranked, hassign, hnumbers, hindexed⟩ := assignIndex_spec stackA fuel hnodup hfresh hshort
    hfuel
  have hlen : ranked.length = stackA.length := by simpa using congrArg List.length hnumbers
  rw [← hlen] at hindexed hassign hshort hfuel ⊢
  rw [← hnumbers] at hnodup ⊢
  have hr : Ranked ranked := ⟨hindexed, hnodup, hshort⟩
  have hstart : Playing (ranked.map Node.number) ranked ⟨ranked, [], []⟩ := ⟨rfl, by simp⟩
  have hne' : ranked ≠ [] := by
    rw [← List.length_pos_iff, hlen, List.length_pos_iff]
    exact hne
  obtain ⟨s, hrun, hmerging, hb⟩ := sortBySize_spec _ ranked fuel ⟨ranked, [], []⟩ hr hstart rfl
    hne' hfuel
  -- whichever way `main` ends, the stack it leaves is in ascending order
  have hfinal : ∀ r, Playing (ranked.map Node.number) ranked r → r.b = [] →
      (r.a.map Node.number).Pairwise (· ≤ ·) →
      ∃ sorted, replay r.out (ranked.map Node.number, []) = (sorted, []) ∧
        sorted.Perm (ranked.map Node.number) ∧ sorted.Pairwise (· < ·) := by
    intro r hplay hrb hasc
    refine ⟨r.a.map Node.number, ?_, ?_, ?_⟩
    · have hlog := hplay.faithful
      rw [Faithful, hrb] at hlog
      exact hlog
    · have hperm := hplay.keys.map Prod.snd
      simpa [hrb, Node.key, Function.comp_def] using hperm
    · have hdistinct := hplay.numbers_nodup hr
      exact hasc.imp₂ (fun _ _ hle hne => lt_of_le_of_ne hle hne) hdistinct
  obtain ⟨sorted, hsorted, hiff⟩ := isSorted_spec s.a hmerging.nonempty
  cases sorted with
  | true =>
      obtain ⟨result, hresult⟩ := hfinal s hmerging.toPlaying hb (hiff.mp rfl)
      refine ⟨s, result, ?_, hresult⟩
      simp only [sortingPhase, hassign, hrun, hsorted, bind, Except.bind, if_true, pure,
        Except.pure]
  | false =>
      obtain ⟨r, hadjust, hplay, hrb, hincreasing⟩ := adjustStack_spec _ ranked fuel s hr hmerging
        hb hfuel
      obtain ⟨result, hresult⟩ := hfinal r hplay hrb
        (numbers_sorted (hplay.indexed_a hr) hincreasing)
      refine ⟨r, result, ?_, hresult⟩
      simp only [sortingPhase, hassign, hrun, hsorted, bind, Except.bind, Bool.false_eq_true,
        if_false]
      exact hadjust

/-- A stack as `ft_parse` fills it: no number has an index yet. -/
def filled (xs : List Int) : List Node :=
  xs.map (fun number => ⟨0, number, 0, 0, 0, 0⟩)

theorem sortingPhase_sorts_seven :
    ∃ s sorted, sortingPhase 7 (filled [5, -2, 7, 0, 3, 9, 1]) 7 = .ok s ∧
      replay s.out ((filled [5, -2, 7, 0, 3, 9, 1]).map Node.number, []) = (sorted, []) ∧
      sorted.Perm ((filled [5, -2, 7, 0, 3, 9, 1]).map Node.number) ∧ sorted.Pairwise (· < ·) :=
  sortingPhase_sorts (filled [5, -2, 7, 0, 3, 9, 1]) 7 (by decide) (by decide) (by decide)
    (by decide) (by decide)

/-- The sorting phase never ends on a stack of `INT_MAX` numbers. -/
theorem sortingPhase_intMax_stuck (stackA : List Node) (fuel : Nat)
    (hlen : (stackA.length : Int) = intMax) :
    ∀ s, sortingPhase fuel stackA stackA.length ≠ .ok s := by
  intro s hrun
  cases hassign : assignIndex fuel stackA stackA.length with
  | error e => simp [sortingPhase, hassign, bind, Except.bind] at hrun
  | ok ranked =>
      rw [hlen] at hassign
      exact assignIndex_intMax_stuck stackA fuel ranked hassign

/-- There are that many distinct `int`s. -/
theorem sortingPhase_unsorted :
    ∃ xs : List Int, xs ≠ [] ∧ xs.Nodup ∧ (∀ x ∈ xs, -2147483648 ≤ x ∧ x ≤ intMax) ∧
      ∀ fuel s, sortingPhase fuel (filled xs) (filled xs).length ≠ .ok s := by
  have hlen : ∀ n : Nat, (filled ((List.range n).map (fun i : Nat => (i : Int)))).length = n := by
    intro n
    simp [filled]
  refine ⟨(List.range 2147483647).map (fun i : Nat => (i : Int)), ?_, ?_, ?_, ?_⟩
  · intro hnil
    have hzero := congrArg List.length hnil
    rw [List.length_map, List.length_range] at hzero
    exact absurd hzero (by decide)
  · exact List.nodup_range.map (fun _ _ h => Int.ofNat.inj h)
  · intro x hx
    obtain ⟨i, hi, rfl⟩ := List.mem_map.mp hx
    have hlt := List.mem_range.mp hi
    have hmax : intMax = 2147483647 := rfl
    omega
  · intro fuel
    apply sortingPhase_intMax_stuck
    rw [hlen]
    rfl

end FortyTwo.PushSwap
