import FortyTwo.Foundation.CyclicOrder
import FortyTwo.PushSwap.Moves
import FortyTwo.PushSwap.Ranking

/-!
One round of the last loop of `sort_more`. Whatever node of `b` is cheapest,
its cost turns `a` so that the node's cyclic successor is on top, and pushing
the node there keeps `a` increasing up to a rotation.
-/

namespace FortyTwo.PushSwap

open Foundation

/-- What the scans and moves never change in a node. -/
def Node.key (n : Node) : Int × Int := (n.index, n.number)

private theorem lowestWhere_spec (wanted : Node → Bool) (l : List Node) (ti tp : Int) :
    (lowestWhere wanted (ti, tp) l = (ti, tp) ∨
      ∃ node ∈ l, wanted node = true ∧ node.index < ti ∧
        lowestWhere wanted (ti, tp) l = (node.index, node.pos)) ∧
    (lowestWhere wanted (ti, tp) l).1 ≤ ti ∧
    ∀ n ∈ l, wanted n = true → (lowestWhere wanted (ti, tp) l).1 ≤ n.index := by
  induction l generalizing ti tp with
  | nil => simp [lowestWhere]
  | cons temp rest ih =>
      simp only [lowestWhere]
      by_cases hbetter : wanted temp = true ∧ temp.index < ti
      · have hcond : (wanted temp && decide (temp.index < ti)) = true := by simp [hbetter]
        rw [if_pos hcond]
        obtain ⟨hwhere, hle, hall⟩ := ih temp.index temp.pos
        refine ⟨Or.inr ?_, by omega, ?_⟩
        · rcases hwhere with hsame | ⟨node, hmem, hwant, hlt, heq⟩
          · exact ⟨temp, by simp, hbetter.1, hbetter.2, hsame⟩
          · exact ⟨node, by simp [hmem], hwant, hlt.trans hbetter.2, heq⟩
        · intro n hn hwant
          rcases List.mem_cons.mp hn with rfl | hn
          · exact hle
          · exact hall n hn hwant
      · have hcond : ¬ (wanted temp && decide (temp.index < ti)) = true := by simpa using hbetter
        rw [if_neg hcond]
        obtain ⟨hwhere, hle, hall⟩ := ih ti tp
        refine ⟨?_, hle, ?_⟩
        · rcases hwhere with hsame | ⟨node, hmem, hwant, hlt, heq⟩
          · exact Or.inl hsame
          · exact Or.inr ⟨node, by simp [hmem], hwant, hlt, heq⟩
        · intro n hn hwant
          rcases List.mem_cons.mp hn with rfl | hn
          · have hge : ti ≤ n.index := not_lt.mp (fun hlt => hbetter ⟨hwant, hlt⟩)
            exact hle.trans hge
          · exact hall n hn hwant

/-- The least index of a stack whose indices stay below `INT_MAX`. -/
theorem lowestWhere_least (l : List Node) (tp : Int) (hne : l ≠ [])
    (hmax : ∀ n ∈ l, n.index < intMax) :
    ∃ node ∈ l, node.pos = (lowestWhere (fun _ => true) (intMax, tp) l).2 ∧
      ∀ n ∈ l, node.index ≤ n.index := by
  obtain ⟨hwhere, _, hall⟩ := lowestWhere_spec (fun _ => true) l intMax tp
  rcases hwhere with hsame | ⟨node, hmem, _, _, heq⟩
  · obtain ⟨first, hfirst⟩ := List.exists_mem_of_ne_nil l hne
    have hge := hall first hfirst rfl
    have hlt := hmax first hfirst
    rw [hsame] at hge
    simp only at hge
    omega
  · refine ⟨node, hmem, by rw [heq], ?_⟩
    intro n hn
    have hge := hall n hn rfl
    rwa [heq] at hge

/-- `get_lowest` finds the position of the cyclic successor of `b_index`. -/
theorem getLowest_successor (l : List Node) (bIndex tp : Int) (hne : l ≠ [])
    (hmax : ∀ n ∈ l, n.index < intMax) (hfresh : ∀ n ∈ l, n.index ≠ bIndex) :
    ∃ node ∈ l, node.pos = getLowest l bIndex intMax tp ∧
      CyclicSuccessor (l.map Node.index) bIndex node.index := by
  obtain ⟨hwhere, _, hall⟩ :=
    lowestWhere_spec (fun temp => decide (temp.index > bIndex)) l intMax tp
  simp only [getLowest]
  rcases hwhere with hsame | ⟨node, hmem, hwant, hlt, heq⟩
  · -- no index above: the scan has kept its sentinel
    rw [hsame] at hall ⊢
    simp only [ne_eq, not_true_eq_false, if_false]
    obtain ⟨node, hmem, hpos, hleast⟩ := lowestWhere_least l tp hne hmax
    refine ⟨node, hmem, hpos, Or.inr ⟨?_, ?_⟩⟩
    · intro y hy
      obtain ⟨n, hn, rfl⟩ := List.mem_map.mp hy
      have hnot : ¬ n.index > bIndex := by
        intro habove
        have hge := hall n hn (by simpa using habove)
        have := hmax n hn
        omega
      have := hfresh n hn
      omega
    · intro y hy
      obtain ⟨n, hn, rfl⟩ := List.mem_map.mp hy
      exact hleast n hn
  · rw [heq] at hall ⊢
    simp only [decide_eq_true_eq] at hwant hall
    rw [if_pos (by simp only; omega)]
    refine ⟨node, hmem, rfl, Or.inl ⟨hwant, ?_⟩⟩
    intro y hy habove
    obtain ⟨n, hn, rfl⟩ := List.mem_map.mp hy
    exact hall n hn habove

@[simp] theorem length_currentPos (l : List Node) : (currentPos l).length = l.length := by
  simp [currentPos]

theorem map_key_currentPos (l : List Node) :
    (currentPos l).map Node.key = l.map Node.key := by
  apply List.ext_getElem?
  intro i
  simp only [currentPos, List.getElem?_map, List.getElem?_mapIdx, Option.map_map]
  rfl

theorem map_index_currentPos (l : List Node) :
    (currentPos l).map Node.index = l.map Node.index := by
  have h := congrArg (List.map Prod.fst) (map_key_currentPos l)
  simpa [Node.key, Function.comp_def] using h

theorem map_number_currentPos (l : List Node) :
    (currentPos l).map Node.number = l.map Node.number := by
  have h := congrArg (List.map Prod.snd) (map_key_currentPos l)
  simpa [Node.key, Function.comp_def] using h

theorem pos_currentPos {l : List Node} {i : Nat} {node : Node}
    (h : (currentPos l)[i]? = some node) : node.pos = i := by
  simp only [currentPos, List.getElem?_mapIdx, Option.map_eq_some_iff] at h
  obtain ⟨_, _, rfl⟩ := h
  rfl

private theorem targetLoop_getElem? (a l : List Node) (tp : Int) (i : Nat) (node : Node)
    (h : (targetLoop a tp l)[i]? = some node) :
    ∃ orig carried, l[i]? = some orig ∧
      node = { orig with targetPos := getLowest a orig.index intMax carried } := by
  induction l generalizing tp i with
  | nil => simp [targetLoop] at h
  | cons tempB rest ih =>
      cases i with
      | zero =>
          simp only [targetLoop, List.getElem?_cons_zero, Option.some.injEq] at h
          exact ⟨tempB, tp, by simp, h.symm⟩
      | succ i =>
          simp only [targetLoop, List.getElem?_cons_succ] at h
          simpa using ih _ i h

private theorem map_key_targetLoop (a l : List Node) (tp : Int) :
    (targetLoop a tp l).map Node.key = l.map Node.key := by
  induction l generalizing tp with
  | nil => rfl
  | cons tempB rest ih =>
      simp only [targetLoop, List.map_cons, ih]
      rfl

private theorem map_key_cost (l : List Node) (sizeA sizeB : Int) :
    (cost l sizeA sizeB).map Node.key = l.map Node.key := by
  simp only [cost, List.map_map]
  rfl

/-- The stacks with all positions, targets and costs filled in. -/
def priced (s : Stacks) (sizeA sizeB : Int) : Stacks :=
  { target s with b := cost (target s).b sizeA sizeB }

theorem priced_keys (s : Stacks) (sizeA sizeB : Int) :
    (priced s sizeA sizeB).a.map Node.key = s.a.map Node.key ∧
      (priced s sizeA sizeB).b.map Node.key = s.b.map Node.key := by
  refine ⟨map_key_currentPos s.a, ?_⟩
  simp only [priced, target, map_key_cost, map_key_targetLoop, map_key_currentPos]

/-- A cost as computed for a position: it is that position up to a whole turn. -/
theorem signedCost_spec {α : Type*} (l : List α) (pos : Nat) (hpos : pos < l.length) :
    rotateBy (signedCost pos l.length) l = rotateBy pos l ∧
      (signedCost pos l.length).natAbs ≤ l.length ∧
      2 * (signedCost pos l.length).natAbs ≤ l.length + 1 ∧
      (signedCost pos l.length ≠ 0 → 2 ≤ l.length) := by
  unfold signedCost
  rw [Int.tdiv_eq_ediv_of_nonneg (by omega)]
  by_cases hfar : (pos : Int) > (l.length : Int) / 2
  · rw [if_pos hfar]
    have hturn : ((l.length : Int) - pos) * -1 = pos - l.length := by ring
    rw [hturn]
    exact ⟨rotateBy_sub_length _ _, by omega, by omega, by omega⟩
  · rw [if_neg hfar]
    exact ⟨rfl, by omega, by omega, by omega⟩

/-- Every node of the priced `b` stands where its cost says, and its other
cost leads to its cyclic successor in `a`. -/
theorem priced_node (s : Stacks) (hne : s.a ≠ []) (hmax : ∀ n ∈ s.a, n.index < intMax)
    (hfresh : ∀ n ∈ s.a, ∀ m ∈ s.b, n.index ≠ m.index) (sizeA sizeB : Int) (node : Node)
    (hnode : node ∈ (priced s sizeA sizeB).b) :
    ∃ pos tpos h, (priced s sizeA sizeB).b[pos]? = some node ∧
      (priced s sizeA sizeB).a[tpos]? = some h ∧
      node.costB = signedCost (pos : Nat) sizeB ∧ node.costA = signedCost (tpos : Nat) sizeA ∧
      CyclicSuccessor (s.a.map Node.index) node.index h.index := by
  obtain ⟨pos, hpos⟩ := List.getElem?_of_mem hnode
  have hcost := hpos
  simp only [priced, target, cost, List.getElem?_map, Option.map_eq_some_iff] at hcost
  obtain ⟨aimed, haimed, rfl⟩ := hcost
  obtain ⟨orig, carried, horig, rfl⟩ := targetLoop_getElem? _ _ _ _ _ haimed
  have hkey : ∃ m ∈ s.b, m.index = orig.index := by
    have hmem := List.mem_of_getElem? horig
    have h : orig.index ∈ (currentPos s.b).map Node.index := List.mem_map_of_mem hmem
    rw [map_index_currentPos] at h
    obtain ⟨m, hm, heq⟩ := List.mem_map.mp h
    exact ⟨m, hm, heq⟩
  obtain ⟨m, hm, hindex⟩ := hkey
  have hback : ∀ n ∈ currentPos s.a, ∃ n' ∈ s.a, n'.index = n.index := by
    intro n hn
    have h : n.index ∈ (currentPos s.a).map Node.index := List.mem_map_of_mem hn
    rw [map_index_currentPos] at h
    obtain ⟨n', hn', heq⟩ := List.mem_map.mp h
    exact ⟨n', hn', heq⟩
  obtain ⟨found, hfound, hfpos, hsucc⟩ := getLowest_successor (currentPos s.a) orig.index carried
    (by simpa [← List.length_pos_iff] using hne)
    (fun n hn => by
      obtain ⟨n', hn', heq⟩ := hback n hn
      rw [← heq]
      exact hmax n' hn')
    (fun n hn => by
      obtain ⟨n', hn', heq⟩ := hback n hn
      rw [← heq, ← hindex]
      exact hfresh n' hn' m hm)
  rw [map_index_currentPos] at hsucc
  obtain ⟨tpos, htpos⟩ := List.getElem?_of_mem hfound
  refine ⟨pos, tpos, found, hpos, htpos, ?_, ?_, hsucc⟩
  · simp only
    rw [pos_currentPos horig]
  · simp only
    rw [← hfpos, pos_currentPos htpos]

/-- With every sum of costs below the sentinel, some node is chosen. -/
private theorem cheapestLoop_chosen (l : List Node) (cheapest : Int)
    (chosen : Option (Int × Int))
    (hchosen : chosen ≠ none ∨
      (l ≠ [] ∧ ∀ n ∈ l, myAbs n.costA + myAbs n.costB < cheapest)) :
    ∃ costs, cheapestLoop cheapest chosen l = some costs ∧
      (chosen = some costs ∨ ∃ n ∈ l, costs = (n.costA, n.costB)) := by
  induction l generalizing cheapest chosen with
  | nil =>
      rcases hchosen with hsome | ⟨hnil, _⟩
      · obtain ⟨costs, hcosts⟩ := Option.ne_none_iff_exists'.mp hsome
        exact ⟨costs, by simp [cheapestLoop, hcosts], Or.inl hcosts⟩
      · exact absurd rfl hnil
  | cons temp rest ih =>
      simp only [cheapestLoop]
      by_cases hbetter : myAbs temp.costA + myAbs temp.costB < cheapest
      · rw [if_pos hbetter]
        obtain ⟨costs, hrun, hwhere⟩ := ih _ (some (temp.costA, temp.costB)) (Or.inl (by simp))
        refine ⟨costs, hrun, Or.inr ?_⟩
        rcases hwhere with hsame | ⟨n, hn, heq⟩
        · exact ⟨temp, by simp, (Option.some.inj hsame).symm⟩
        · exact ⟨n, by simp [hn], heq⟩
      · rw [if_neg hbetter]
        have hsome : chosen ≠ none := by
          rcases hchosen with hsome | ⟨_, hall⟩
          · exact hsome
          · exact absurd (hall temp (by simp)) hbetter
        obtain ⟨costs, hrun, hwhere⟩ := ih cheapest chosen (Or.inl hsome)
        refine ⟨costs, hrun, ?_⟩
        rcases hwhere with hsame | ⟨n, hn, heq⟩
        · exact Or.inl hsame
        · exact Or.inr ⟨n, by simp [hn], heq⟩

private theorem myAbs_eq_natAbs (num : Int) : myAbs num = num.natAbs := by
  unfold myAbs
  split <;> omega

/-- The log explains the stacks, which together hold the ranked nodes. -/
structure Playing (xs : List Int) (ranked : List Node) (s : Stacks) : Prop where
  faithful : Faithful xs s
  keys : ((s.a ++ s.b).map Node.key).Perm (ranked.map Node.key)

/-- What holds between two rounds of the last loop of `sort_more`. -/
structure Merging (xs : List Int) (ranked : List Node) (s : Stacks) : Prop
    extends Playing xs ranked s where
  cyclic : CyclicallySorted (s.a.map Node.index)
  nonempty : s.a ≠ []

theorem length_eq_of_keys {s : Stacks} {ranked : List Node}
    (h : ((s.a ++ s.b).map Node.key).Perm (ranked.map Node.key)) :
    s.a.length + s.b.length = ranked.length := by
  have hlen := h.length_eq
  simpa using hlen

theorem indices_nodup_of_keys {s : Stacks} {ranked : List Node}
    (h : ((s.a ++ s.b).map Node.key).Perm (ranked.map Node.key))
    (hnodup : (ranked.map Node.index).Nodup) : ((s.a ++ s.b).map Node.index).Nodup := by
  have hperm := h.map Prod.fst
  simp only [List.map_map, Function.comp_def, Node.key] at hperm
  exact hperm.nodup_iff.mpr hnodup

theorem index_lt_of_keys {s : Stacks} {ranked : List Node}
    (h : ((s.a ++ s.b).map Node.key).Perm (ranked.map Node.key))
    (hmax : ∀ n ∈ ranked, n.index < intMax) : ∀ n ∈ s.a ++ s.b, n.index < intMax := by
  intro n hn
  have hmem : n.key ∈ ranked.map Node.key := h.mem_iff.mp (List.mem_map_of_mem hn)
  obtain ⟨m, hm, heq⟩ := List.mem_map.mp hmem
  have hindex : m.index = n.index := congrArg Prod.fst heq
  rw [← hindex]
  exact hmax m hm

section Round

variable {s : Stacks}

theorem priced_lengths (s : Stacks) (sizeA sizeB : Int) :
    (priced s sizeA sizeB).a.length = s.a.length ∧
      (priced s sizeA sizeB).b.length = s.b.length := by
  obtain ⟨hkeyA, hkeyB⟩ := priced_keys s sizeA sizeB
  exact ⟨by simpa using congrArg List.length hkeyA, by simpa using congrArg List.length hkeyB⟩

private theorem faithful_priced {xs : List Int} (hs : Faithful xs s) (sizeA sizeB : Int) :
    Faithful xs (priced s sizeA sizeB) := by
  have hnumbers : ∀ l l' : List Node, l.map Node.key = l'.map Node.key →
      l.map Node.number = l'.map Node.number := by
    intro l l' heq
    have hsnd := congrArg (List.map Prod.snd) heq
    simpa [Node.key, Function.comp_def] using hsnd
  obtain ⟨hkeyA, hkeyB⟩ := priced_keys s sizeA sizeB
  have hout : (priced s sizeA sizeB).out = s.out := rfl
  unfold Faithful
  rw [hout, hs, hnumbers _ _ hkeyA, hnumbers _ _ hkeyB]

/-- The rotations that the costs of a node stand for bring it to the top of `b` and
its cyclic successor to the top of `a`, each the short way round. -/
theorem priced_rotates (hne : s.a ≠ []) (hmax : ∀ n ∈ s.a, n.index < intMax)
    (hfresh : ∀ n ∈ s.a, ∀ m ∈ s.b, n.index ≠ m.index) {node : Node}
    (hnode : node ∈ (priced s s.a.length s.b.length).b) :
    ∃ h restA restB, rotateBy node.costA (priced s s.a.length s.b.length).a = h :: restA ∧
      rotateBy node.costB (priced s s.a.length s.b.length).b = node :: restB ∧
      CyclicSuccessor (s.a.map Node.index) node.index h.index ∧
      2 * node.costA.natAbs ≤ s.a.length + 1 ∧ 2 * node.costB.natAbs ≤ s.b.length + 1 ∧
      node.costA.natAbs ≤ s.a.length ∧ node.costB.natAbs ≤ s.b.length ∧
      (node.costB ≠ 0 → 2 ≤ s.b.length) := by
  obtain ⟨hlenA, hlenB⟩ := priced_lengths s s.a.length s.b.length
  obtain ⟨pos, tpos, h, hpos, htpos, hcb, hca, hsucc⟩ :=
    priced_node s hne hmax hfresh s.a.length s.b.length node hnode
  have hB := signedCost_spec _ pos (List.getElem?_eq_some_iff.mp hpos).1
  have hA := signedCost_spec _ tpos (List.getElem?_eq_some_iff.mp htpos).1
  rw [hlenB, ← hcb] at hB
  rw [hlenA, ← hca] at hA
  obtain ⟨restA, hrestA⟩ := rotateBy_eq_cons_of_getElem? htpos
  obtain ⟨restB, hrestB⟩ := rotateBy_eq_cons_of_getElem? hpos
  exact ⟨h, restA, restB, hA.1.trans hrestA, hB.1.trans hrestB, hsucc, hA.2.2.1, hB.2.2.1,
    hA.2.1, hB.2.1, hB.2.2.2⟩

/-- The costs of every node are within the sizes, so the sentinel is above all of
them and one node is chosen. -/
theorem priced_chosen (hne : s.a ≠ []) (hb : s.b ≠ [])
    (hmax : ∀ n ∈ s.a, n.index < intMax) (hfresh : ∀ n ∈ s.a, ∀ m ∈ s.b, n.index ≠ m.index)
    (hsize : (s.a.length : Int) + s.b.length < intMax) :
    ∃ node ∈ (priced s s.a.length s.b.length).b,
      cheapestLoop intMax none (priced s s.a.length s.b.length).b =
        some (node.costA, node.costB) := by
  have hbelow : ∀ n ∈ (priced s s.a.length s.b.length).b,
      myAbs n.costA + myAbs n.costB < intMax := by
    intro n hn
    obtain ⟨h, restA, restB, _, _, _, _, _, hA, hB, _⟩ := priced_rotates hne hmax hfresh hn
    rw [myAbs_eq_natAbs, myAbs_eq_natAbs]
    omega
  have hpb : (priced s s.a.length s.b.length).b ≠ [] := by
    rw [← List.length_pos_iff, (priced_lengths s s.a.length s.b.length).2, List.length_pos_iff]
    exact hb
  obtain ⟨costs, hchoose, hwhere⟩ := cheapestLoop_chosen _ intMax none (Or.inr ⟨hpb, hbelow⟩)
  rcases hwhere with habs | ⟨node, hmem, rfl⟩
  · cases habs
  · exact ⟨node, hmem, hchoose⟩

/-- A new index before its cyclic successor, which a rotation has brought to the
top. -/
private theorem cyclic_cons {a restA : List Node} {h node : Node} {up : Int}
    (hcyclic : CyclicallySorted (a.map Node.index))
    (hrotated : (h :: restA).map Node.index = rotateBy up (a.map Node.index))
    (hsucc : CyclicSuccessor (a.map Node.index) node.index h.index)
    (hfresh : node.index ∉ a.map Node.index) :
    CyclicallySorted ((node :: h :: restA).map Node.index) := by
  have hperm : ((h :: restA).map Node.index).Perm (a.map Node.index) := by
    rw [hrotated]
    exact rotateBy_perm _ _
  have hcyc : CyclicallySorted ((h :: restA).map Node.index) := by
    rw [hrotated]
    exact hcyclic.rotate _
  exact CyclicallySorted.insert_before hcyc (fun hin => hfresh (hperm.mem_iff.mp hin))
    (hsucc.of_perm hperm)

end Round

/-- One round moves one node of `b` into its place in `a`. -/
theorem mergeRound_spec (xs : List Int) (ranked : List Node) (fuel : Nat) (s : Stacks)
    (hnodup : (ranked.map Node.index).Nodup) (hmax : ∀ n ∈ ranked, n.index < intMax)
    (hlen : (ranked.length : Int) < intMax) (hfuel : ranked.length ≤ fuel)
    (hs : Merging xs ranked s) (hb : s.b ≠ []) :
    ∃ next, mergeRound fuel ranked.length (s, s.b.length) =
        .ok (next, (next.b.length : Int)) ∧
      Merging xs ranked next ∧ next.b.length < s.b.length := by
  have hlength := length_eq_of_keys hs.keys
  have hbound : ∀ n ∈ s.a, n.index < intMax :=
    fun n hn => index_lt_of_keys hs.keys hmax n (by simp [hn])
  have hdistinct := indices_nodup_of_keys hs.keys hnodup
  have hfresh : ∀ n ∈ s.a, ∀ m ∈ s.b, n.index ≠ m.index := by
    intro n hn m hm
    rw [List.map_append, List.nodup_append] at hdistinct
    exact hdistinct.2.2 _ (List.mem_map_of_mem hn) _ (List.mem_map_of_mem hm)
  have hsizeA : (ranked.length : Int) - s.b.length = s.a.length := by omega
  obtain ⟨node, hmem, hchoose⟩ := priced_chosen hs.nonempty hb hbound hfresh (by omega)
  obtain ⟨h, restA, restB, hrestA, hrestB, hsucc, -, -, hA, hB, htwo⟩ :=
    priced_rotates hs.nonempty hbound hfresh hmem
  obtain ⟨hkeyA, hkeyB⟩ := priced_keys s s.a.length s.b.length
  obtain ⟨-, hlenB⟩ := priced_lengths s s.a.length s.b.length
  have hfaithful := faithful_priced hs.faithful s.a.length s.b.length
  set p := priced s s.a.length s.b.length
  obtain ⟨r, hmove, hturn⟩ := doMove_spec xs fuel p node.costA node.costB
    (fun hne => by rw [hlenB]; exact htwo hne) (by omega) (by omega)
  have hra : r.a = h :: restA := hturn.a.trans hrestA
  have hrb : r.b = node :: restB := hturn.b.trans hrestB
  have hpermA : (h :: restA).Perm p.a := hrestA ▸ rotateBy_perm _ _
  have hpermB : (node :: restB).Perm p.b := hrestB ▸ rotateBy_perm _ _
  have hpa : r.pa = ⟨node :: h :: restA, restB, r.out ++ [.pa]⟩ := by
    rcases r with ⟨a, b, out⟩
    simp only at hra hrb
    subst hra hrb
    rfl
  have hlenRest : restB.length + 1 = s.b.length := by
    rw [← hlenB, ← hpermB.length_eq]
    rfl
  refine ⟨r.pa, ?_, ⟨⟨faithful_pa (hturn.faithful hfaithful), ?_⟩, ?_, ?_⟩, ?_⟩
  · have hrun : doCostEffective fuel p = .ok (r.pa, 1) := by
      simp only [doCostEffective, hchoose, hmove, bind, Except.bind, pure, Except.pure]
    have hprice : mergeRound fuel ranked.length (s, s.b.length) =
        (doCostEffective fuel (priced s (ranked.length - s.b.length) s.b.length)).bind
          (fun moved => .ok (moved.1, s.b.length - moved.2)) := rfl
    have hcount : (s.b.length : Int) - 1 = r.pa.b.length := by
      rw [hpa]
      simp only
      omega
    rw [hprice, hsizeA, hrun]
    simp only [Except.bind, hcount]
  · rw [hpa]
    have hmoved : ((node :: h :: restA) ++ restB).Perm (p.a ++ p.b) :=
      List.perm_middle.symm.trans (hpermA.append hpermB)
    have hsame : (p.a ++ p.b).map Node.key = (s.a ++ s.b).map Node.key := by
      rw [List.map_append, List.map_append, hkeyA, hkeyB]
    exact (hmoved.map Node.key).trans (hsame ▸ hs.keys)
  · rw [hpa]
    have hindexA : p.a.map Node.index = s.a.map Node.index := map_index_currentPos s.a
    refine @cyclic_cons _ _ _ _ node.costA hs.cyclic ?_ hsucc ?_
    · rw [← hrestA, map_rotateBy, hindexA]
    · intro hin
      obtain ⟨n, hn, heq⟩ := List.mem_map.mp hin
      have hnodeB : node.index ∈ s.b.map Node.index := by
        have hkey := congrArg (List.map Prod.fst) hkeyB
        simp only [List.map_map, Function.comp_def, Node.key] at hkey
        rw [← hkey]
        exact List.mem_map_of_mem hmem
      obtain ⟨m, hm, heqm⟩ := List.mem_map.mp hnodeB
      exact hfresh n hn m hm (heq.trans heqm.symm)
  · rw [hpa]
    simp
  · rw [hpa]
    simp only
    omega

end FortyTwo.PushSwap
