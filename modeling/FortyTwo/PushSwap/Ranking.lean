import FortyTwo.PushSwap.Program

/-!
What `assign_index` leaves on the stack: the numbers in their order, each node
carrying the rank of its number. The loop counter is an `int`, so the loop
cannot leave a stack of `INT_MAX` nodes.
-/

namespace FortyTwo.PushSwap

open Foundation

/-- The indices of the stack are positive, at most `len`, and ordered as the
numbers are. -/
structure Indexed (len : Int) (stack : List Node) : Prop where
  positive : ∀ n ∈ stack, 1 ≤ n.index
  bounded : ∀ n ∈ stack, n.index ≤ len
  order : ∀ n ∈ stack, ∀ m ∈ stack, n.index < m.index ↔ n.number < m.number

/-- The loop invariant of `assign_index` before it gives out `index`. -/
structure PartlyIndexed (xs : List Int) (index : Int) (stack : List Node) : Prop where
  numbers : stack.map Node.number = xs
  given : ∀ n ∈ stack, n.index = 0 ∨ (1 ≤ n.index ∧ n.index < index)
  order : ∀ n ∈ stack, ∀ m ∈ stack, n.index ≠ 0 → m.index ≠ 0 →
    (n.index < m.index ↔ n.number < m.number)
  lower : ∀ n ∈ stack, ∀ m ∈ stack, n.index ≠ 0 → m.index = 0 → n.number < m.number
  open_count : (stack.countP (fun n => n.index = 0) : Int) = xs.length - (index - 1)

private theorem modify_at_length {α : Type*} (f : α → α) (l₁ l₂ : List α) (x : α) :
    (l₁ ++ x :: l₂).modify l₁.length f = l₁ ++ f x :: l₂ := by
  induction l₁ with
  | nil => rfl
  | cons y rest ih => simpa using ih

/-- What the scan of `stack` from position `i` has found, having started with
`lowest`: the least number among `lowest` and the nodes without an index. -/
def ScanResult (i : Nat) (lowest : Option (Nat × Int)) (stack : List Node) :
    Option (Nat × Int) → Prop
  | none => lowest = none ∧ ∀ n ∈ stack, n.index ≠ 0
  | some (j, number) =>
      (lowest = some (j, number) ∨ ∃ l₁ x l₂, stack = l₁ ++ x :: l₂ ∧ j = i + l₁.length ∧
        x.index = 0 ∧ x.number = number) ∧
      (∀ k m, lowest = some (k, m) → number ≤ m) ∧
      ∀ n ∈ stack, n.index = 0 → number ≤ n.number

/-- One node more in front: `acc` is what the scan carries past it. -/
private theorem scanResult_cons (i : Nat) (lowest acc : Option (Nat × Int)) (current : Node)
    (rest : List Node) (found : Option (Nat × Int))
    (hacc : acc = lowest ∨ (current.index = 0 ∧ acc = some (i, current.number)))
    (hlow : ∀ k m, lowest = some (k, m) → ∃ k' m', acc = some (k', m') ∧ m' ≤ m)
    (hcur : current.index = 0 → ∃ k' m', acc = some (k', m') ∧ m' ≤ current.number)
    (hrest : ScanResult (i + 1) acc rest found) :
    ScanResult i lowest (current :: rest) found := by
  cases found with
  | none =>
      obtain ⟨hnone, hall⟩ := hrest
      constructor
      · rcases hacc with rfl | ⟨_, hsome⟩
        · exact hnone
        · rw [hnone] at hsome
          cases hsome
      · intro n hn
        rcases List.mem_cons.mp hn with rfl | hn
        · intro hzero
          obtain ⟨k', m', hsome, _⟩ := hcur hzero
          rw [hnone] at hsome
          cases hsome
        · exact hall n hn
  | some best =>
      obtain ⟨j, number⟩ := best
      obtain ⟨hwhere, hacc_le, hall⟩ := hrest
      refine ⟨?_, ?_, ?_⟩
      · rcases hwhere with hsame | ⟨l₁, x, l₂, hsplit, hj, hx, hnum⟩
        · rcases hacc with rfl | ⟨hzero, hsome⟩
          · exact Or.inl hsame
          · rw [hsame] at hsome
            cases hsome
            exact Or.inr ⟨[], current, rest, rfl, by simp, hzero, rfl⟩
        · refine Or.inr ⟨current :: l₁, x, l₂, by simp [hsplit], ?_, hx, hnum⟩
          simp only [List.length_cons]
          omega
      · intro k m hk
        obtain ⟨k', m', hsome, hle⟩ := hlow k m hk
        exact (hacc_le k' m' hsome).trans hle
      · intro n hn hzero
        rcases List.mem_cons.mp hn with rfl | hn
        · obtain ⟨k', m', hsome, hle⟩ := hcur hzero
          exact (hacc_le k' m' hsome).trans hle
        · exact hall n hn hzero

private theorem lowestUnindexed_spec (stack : List Node) (i : Nat)
    (lowest : Option (Nat × Int)) :
    ScanResult i lowest stack (lowestUnindexed i lowest stack) := by
  induction stack generalizing i lowest with
  | nil =>
      cases lowest with
      | none => exact ⟨rfl, by simp⟩
      | some best =>
          refine ⟨Or.inl rfl, ?_, by simp⟩
          rintro k m ⟨⟩
          exact le_refl _
  | cons current rest ih =>
      simp only [lowestUnindexed]
      by_cases hzero : current.index = 0
      · rw [if_pos hzero]
        rcases lowest with _ | ⟨j, number⟩
        · refine scanResult_cons i _ _ current rest _ (Or.inr ⟨hzero, rfl⟩) ?_ ?_ (ih _ _)
          · simp
          · exact fun _ => ⟨i, current.number, rfl, le_refl _⟩
        · by_cases hlt : current.number < number
          · simp only [hlt, if_true]
            refine scanResult_cons i _ _ current rest _ (Or.inr ⟨hzero, rfl⟩) ?_ ?_ (ih _ _)
            · rintro k m ⟨⟩
              exact ⟨i, current.number, rfl, hlt.le⟩
            · exact fun _ => ⟨i, current.number, rfl, le_refl _⟩
          · simp only [hlt, if_false]
            refine scanResult_cons i _ _ current rest _ (Or.inl rfl) ?_ ?_ (ih _ _)
            · exact fun k m hk => ⟨k, m, hk, le_refl _⟩
            · exact fun _ => ⟨j, number, rfl, not_lt.mp hlt⟩
      · rw [if_neg hzero]
        refine scanResult_cons i _ _ current rest _ (Or.inl rfl) ?_ ?_ (ih _ _)
        · exact fun k m hk => ⟨k, m, hk, le_refl _⟩
        · exact fun h => absurd h hzero

section Give

variable {xs : List Int} {index : Int} {l₁ l₂ : List Node} {x : Node}

/-- The numbers are distinct, so a lowest node without an index is strictly the
lowest. -/
private theorem PartlyIndexed.lowest_lt (h : PartlyIndexed xs index (l₁ ++ x :: l₂))
    (hnodup : xs.Nodup) {m : Node} (hm : m ∈ l₁ ++ l₂) (hle : x.number ≤ m.number) :
    x.number < m.number := by
  rcases lt_or_eq_of_le hle with hlt | heq
  · exact hlt
  · exfalso
    rw [← h.numbers, List.map_append, List.map_cons, List.nodup_middle, ← List.map_append]
      at hnodup
    exact (List.nodup_cons.mp hnodup).1 (heq ▸ List.mem_map_of_mem hm)

/-- The index goes to the lowest node without one. -/
private theorem PartlyIndexed.give (h : PartlyIndexed xs index (l₁ ++ x :: l₂))
    (hindex : 1 ≤ index) (hx : x.index = 0)
    (hlowest : ∀ m ∈ l₁ ++ l₂, m.index = 0 → x.number < m.number) :
    PartlyIndexed xs (index + 1) (l₁ ++ { x with index := index } :: l₂) := by
  have hold : ∀ n ∈ l₁ ++ l₂, n ∈ l₁ ++ x :: l₂ := by
    intro n hn
    simp only [List.mem_append, List.mem_cons] at hn ⊢
    tauto
  have hcases : ∀ n ∈ l₁ ++ { x with index := index } :: l₂,
      n = { x with index := index } ∨ n ∈ l₁ ++ l₂ := by
    intro n hn
    simp only [List.mem_append, List.mem_cons] at hn ⊢
    tauto
  have hx_mem : x ∈ l₁ ++ x :: l₂ := by simp
  constructor
  · simpa using h.numbers
  · intro n hn
    rcases hcases n hn with rfl | hn
    · exact Or.inr ⟨hindex, by simp⟩
    · rcases h.given n (hold n hn) with hz | ⟨h1, h2⟩
      · exact Or.inl hz
      · exact Or.inr ⟨h1, by omega⟩
  · intro n hn m hm hn0 hm0
    rcases hcases n hn with rfl | hn <;> rcases hcases m hm with rfl | hm
    · simp
    · have hlow := h.lower m (hold m hm) x hx_mem hm0 hx
      have hgiven := h.given m (hold m hm)
      simp only at hn0 ⊢
      constructor
      · intro hlt
        omega
      · intro hlt
        omega
    · have hlow := h.lower n (hold n hn) x hx_mem hn0 hx
      have hgiven := h.given n (hold n hn)
      simp only at hm0 ⊢
      constructor
      · intro _
        exact hlow
      · intro _
        omega
    · exact h.order n (hold n hn) m (hold m hm) hn0 hm0
  · intro n hn m hm hn0 hm0
    rcases hcases m hm with rfl | hm
    · simp only at hm0
      omega
    · rcases hcases n hn with rfl | hn
      · exact hlowest m hm hm0
      · exact h.lower n (hold n hn) m (hold m hm) hn0 hm0
  · have hcount := h.open_count
    have hne : ¬ index = 0 := by omega
    simp only [List.countP_append, List.countP_cons, hx, hne, decide_true, decide_false,
      if_true] at hcount ⊢
    push_cast at hcount ⊢
    omega

end Give

/-- While some index below `INT_MAX` is still to be given, one round gives it
to the right node. -/
private theorem assignIndexRound_step (xs : List Int) (hnodup : xs.Nodup) (index : Int)
    (stack : List Node) (hindex : 1 ≤ index) (hle : index ≤ xs.length)
    (hmax : index < intMax) (h : PartlyIndexed xs index stack) :
    ∃ next, assignIndexRound (index, stack) = .ok (index + 1, next) ∧
      PartlyIndexed xs (index + 1) next := by
  have hspec := lowestUnindexed_spec stack 0 none
  cases hscan : lowestUnindexed 0 none stack with
  | none =>
      rw [hscan] at hspec
      have hzero : stack.countP (fun n => n.index = 0) = 0 := by
        rw [List.countP_eq_zero]
        intro n hn
        simpa using hspec.2 n hn
      have hcount := h.open_count
      rw [hzero] at hcount
      push_cast at hcount
      omega
  | some found =>
      obtain ⟨j, number⟩ := found
      rw [hscan] at hspec
      obtain ⟨habs | ⟨l₁, x, l₂, rfl, hj, hx, hnum⟩, _, hleast⟩ := hspec
      · cases habs
      have hj' : j = l₁.length := by omega
      refine ⟨l₁ ++ { x with index := index } :: l₂, ?_, ?_⟩
      · simp only [assignIndexRound, hscan]
        rw [if_neg (by omega), hj', modify_at_length]
      · apply h.give hindex hx
        intro m hm hzero
        apply h.lowest_lt hnodup hm
        rw [hnum]
        refine hleast m ?_ hzero
        simp only [List.mem_append, List.mem_cons] at hm ⊢
        tauto

/-- For every stack of fewer than `INT_MAX` distinct numbers the indices are
given out after as many rounds as there are nodes. -/
theorem assignIndex_spec (stack : List Node) (fuel : Nat)
    (hnodup : (stack.map Node.number).Nodup) (hfresh : ∀ n ∈ stack, n.index = 0)
    (hlen : (stack.length : Int) < intMax) (hfuel : stack.length ≤ fuel) :
    ∃ ranked, assignIndex fuel stack stack.length = .ok ranked ∧
      ranked.map Node.number = stack.map Node.number ∧
      Indexed stack.length ranked := by
  let xs := stack.map Node.number
  have hxs : xs.length = stack.length := by simp [xs]
  let inv : Int × List Node → Prop := fun s =>
    1 ≤ s.1 ∧ s.1 ≤ xs.length + 1 ∧ PartlyIndexed xs s.1 s.2
  have hround : ∀ s, inv s → decide (s.1 ≤ (stack.length : Int)) = true →
      ∃ next, assignIndexRound s = .ok next ∧ inv next ∧
        (xs.length + 1 - next.1).toNat < (xs.length + 1 - s.1).toNat := by
    rintro ⟨index, nodes⟩ ⟨h1, h2, hpart⟩ hcond
    simp only [decide_eq_true_eq] at hcond
    obtain ⟨next, hrun, hnext⟩ := assignIndexRound_step xs hnodup index nodes h1
      (by omega) (by omega) hpart
    refine ⟨(index + 1, next), hrun, ⟨by simp only; omega, by simp only; omega, hnext⟩, ?_⟩
    simp only
    omega
  have hstart : inv (1, stack) := by
    refine ⟨le_refl _, by simp only; omega, ⟨rfl, ?_, ?_, ?_, ?_⟩⟩
    · exact fun n hn => Or.inl (hfresh n hn)
    · exact fun n hn _ _ h0 => absurd (hfresh n hn) h0
    · exact fun n hn _ _ h0 => absurd (hfresh n hn) h0
    · have hall : stack.countP (fun n => n.index = 0) = stack.length := by
        rw [List.countP_eq_length]
        intro n hn
        simpa using hfresh n hn
      rw [hall, hxs]
      simp
  obtain ⟨⟨index, ranked⟩, hrun, ⟨_, hupper, hpart⟩, hexit⟩ :=
    boundedWhile_total .outOfFuel _ _ inv (fun s => (xs.length + 1 - s.1).toNat) hround fuel
      (1, stack) hstart (by simp only; omega)
  simp only [decide_eq_false_iff_not] at hexit
  have hindex : index = xs.length + 1 := by
    simp only at hupper
    omega
  have hclosed : ∀ n ∈ ranked, n.index ≠ 0 := by
    have hcount := hpart.open_count
    simp only [hindex] at hcount
    have hzero : ranked.countP (fun n => n.index = 0) = 0 := by omega
    rw [List.countP_eq_zero] at hzero
    intro n hn
    simpa using hzero n hn
  refine ⟨ranked, ?_, hpart.numbers, ⟨?_, ?_, ?_⟩⟩
  · simp [assignIndex, hrun, Except.map]
  · intro n hn
    exact ((hpart.given n hn).resolve_left (hclosed n hn)).1
  · intro n hn
    have hlt := ((hpart.given n hn).resolve_left (hclosed n hn)).2
    omega
  · intro n hn m hm
    exact hpart.order n hn m hm (hclosed n hn) (hclosed m hm)

/-- With `len = INT_MAX` the counter cannot pass `len`: it overflows, or the
loop goes on for ever. -/
theorem assignIndex_intMax_stuck (stack : List Node) (fuel : Nat) :
    ∀ ranked, assignIndex fuel stack intMax ≠ .ok ranked := by
  intro ranked hrun
  unfold assignIndex at hrun
  cases hloop : boundedWhile .outOfFuel (fun s : Int × List Node => decide (s.1 ≤ intMax))
      assignIndexRound fuel (1, stack) with
  | error e => simp [hloop, Except.map] at hrun
  | ok final =>
      have hstep : ∀ s next : Int × List Node, s.1 ≤ intMax →
          decide (s.1 ≤ intMax) = true → assignIndexRound s = .ok next → next.1 ≤ intMax := by
        rintro ⟨index, nodes⟩ next hs _ hnext
        simp only [assignIndexRound] at hnext hs
        cases hscan : lowestUnindexed 0 none nodes with
        | none =>
            simp only [hscan] at hnext
            cases hnext
            exact hs
        | some found =>
            simp only [hscan] at hnext
            by_cases hmax : index = intMax
            · simp [hmax] at hnext
            · rw [if_neg hmax] at hnext
              cases hnext
              show index + 1 ≤ intMax
              omega
      obtain ⟨hinv, hexit⟩ := boundedWhile_partial _ _ _ _ hstep fuel _ final
        (show (1 : Int) ≤ intMax by decide) hloop
      simp only [decide_eq_false_iff_not] at hexit
      exact hexit hinv

end FortyTwo.PushSwap
