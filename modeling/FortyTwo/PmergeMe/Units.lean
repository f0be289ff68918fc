import FortyTwo.PmergeMe.PendInsertion

/-!
A container seen as units of equal length with a remainder behind them: what
the iterators to the last places of the units stand on, the loop that orders
pairs of units, and the copy that puts the units back in the order of a chain.
-/

namespace FortyTwo.PmergeMe

open Foundation

/-- A unit is ordered by its last number. -/
def lastNumber (unit : List Int) : Int :=
  unit.getLastD 0

theorem lastNumber_append {unit : List Int} (front : List Int) (h : unit ≠ []) :
    lastNumber (front ++ unit) = lastNumber unit := by
  rw [lastNumber, lastNumber, List.getLastD_eq_getLast?, List.getLastD_eq_getLast?,
    List.getLast?_append_of_ne_nil _ h]

/-- The last place of a unit of `size` numbers that starts at `start`. -/
theorem getElem?_last {front unit behind : List Int} (h : unit ≠ []) :
    (front ++ (unit ++ behind))[front.length + (unit.length - 1)]? = some (lastNumber unit) := by
  have hlen := List.length_pos_iff.2 h
  rw [List.getElem?_append_right (by omega), Nat.add_sub_cancel_left,
    List.getElem?_append_left (by omega), ← List.getLast?_eq_getElem?, lastNumber,
    List.getLastD_eq_getLast?, List.getLast?_eq_some_getLast h]
  rfl

theorem deref_last {front unit behind : List Int} (h : unit ≠ []) {it : Int}
    (hit : it = front.length + unit.length - 1) :
    deref (front ++ (unit ++ behind)) it = .ok (lastNumber unit) := by
  have hlen := List.length_pos_iff.2 h
  have hcast : it = ((front.length + (unit.length - 1) : Nat) : Int) := by omega
  rw [hcast]
  exact deref_of_getElem? (getElem?_last h)

/-! ### Ordering the pairs -/

theorem iterSwap_ok (front middle behind : List Int) (x y : Int) {i j : Int}
    (hi : i = front.length) (hj : j = front.length + 1 + middle.length) :
    iterSwap (front ++ x :: (middle ++ y :: behind)) i j =
      .ok (front ++ y :: (middle ++ x :: behind)) := by
  have hfirst : deref (front ++ x :: (middle ++ y :: behind)) i = .ok x := by
    rw [hi]
    exact deref_of_getElem? (by simp)
  have hsecond : deref (front ++ x :: (middle ++ y :: behind)) j = .ok y := by
    have hcast : j = ((front.length + (1 + middle.length) : Nat) : Int) := by omega
    rw [hcast]
    apply deref_of_getElem?
    rw [List.getElem?_append_right (by omega), Nat.add_sub_cancel_left, Nat.add_comm 1]
    simp
  have hstore : store (front ++ x :: (middle ++ y :: behind)) i y =
      .ok (front ++ y :: (middle ++ y :: behind)) := by
    rw [store, if_pos (by simp; omega), hi, Int.toNat_natCast, List.set_append_right _ _ (by omega)]
    simp
  have hstore' : store (front ++ y :: (middle ++ y :: behind)) j x =
      .ok (front ++ y :: (middle ++ x :: behind)) := by
    have hnat : j.toNat = front.length + (middle.length + 1) := by omega
    rw [store, if_pos (by simp; omega), hnat, List.set_append_right _ _ (by omega),
      Nat.add_sub_cancel_left, List.set_cons_succ, List.set_append_right _ _ (by omega)]
    simp
  simp only [iterSwap, hfirst, hsecond, hstore, hstore', bind, Except.bind]

/-- The loop of `_swap_pair` exchanges two stretches of equal length. -/
theorem swapLoop_ok (pairLevel : Nat) (fuel : Nat) (xs : List Int) :
    ∀ (front middle ys behind : List Int), xs.length = ys.length → xs.length ≤ fuel →
      xs.length + middle.length = pairLevel →
      boundedWhile Fault.outOfFuel
        (fun s : List Int × Int => s.2 != (front.length : Int) + xs.length)
        (swapRound pairLevel) fuel (front ++ (xs ++ (middle ++ (ys ++ behind))), front.length) =
      .ok (front ++ (ys ++ (middle ++ (xs ++ behind))), (front.length : Int) + xs.length) := by
  induction xs generalizing fuel with
  | nil =>
      intro front middle ys behind hys _ _
      obtain rfl := List.eq_nil_of_length_eq_zero hys.symm
      rw [boundedWhile_exit _ _ _ _ _ (by simp)]
      simp
  | cons x xs ih =>
      intro front middle ys behind hys hfuel hlevel
      obtain ⟨y, ys, rfl⟩ : ∃ y tail, ys = y :: tail := by
        cases ys with
        | nil => simp at hys
        | cons y tail => exact ⟨y, tail, rfl⟩
      simp only [List.length_cons] at hys hfuel hlevel
      obtain ⟨fuel, rfl⟩ : ∃ less, fuel = less + 1 := ⟨fuel - 1, by omega⟩
      have hswap : swapRound pairLevel
          (front ++ (x :: xs ++ (middle ++ (y :: ys ++ behind))), (front.length : Int)) =
          .ok ((front ++ [y]) ++ (xs ++ ((middle ++ [x]) ++ (ys ++ behind))),
            ((front ++ [y]).length : Int)) := by
        have := iterSwap_ok front (xs ++ middle) (ys ++ behind) x y
          (i := front.length) (j := front.length + pairLevel) rfl
          (by simp only [List.length_append]; omega)
        rw [swapRound]
        simp only [List.cons_append, List.append_assoc, List.length_append] at this ⊢
        simp only [this, bind, Except.bind, pure, Except.pure]
        simp
      have hrest := ih fuel (front ++ [y]) (middle ++ [x]) ys behind (by omega) (by omega)
        (by simp only [List.length_append, List.length_cons, List.length_nil]; omega)
      rw [boundedWhile_round _ _ _ _ _ (by simp; omega), hswap]
      have hstop : ((front ++ [y]).length : Int) + xs.length =
          (front.length : Int) + (x :: xs).length := by
        simp only [List.length_append, List.length_cons, List.length_nil]
        omega
      rw [hstop] at hrest
      simp only [Except.bind]
      rw [hrest]
      simp

theorem swapPair_ok (front behind : List Int) {lo hi : List Int} {pairLevel fuel : Nat}
    (hlo : lo.length = pairLevel) (hhi : hi.length = pairLevel) (hfuel : pairLevel ≤ fuel) {it : Int}
    (hit : it = front.length + ((pairLevel : Int) - 1)) :
    swapPair fuel (front ++ (lo ++ (hi ++ behind))) it pairLevel =
      .ok (front ++ (hi ++ (lo ++ behind))) := by
  have hstart : it + (-(pairLevel : Int) + 1) = front.length := by omega
  have hloop := swapLoop_ok pairLevel fuel lo front [] hi behind (by omega) (by omega) (by simpa)
  rw [hlo, List.nil_append, List.nil_append] at hloop
  simp only [swapPair, hstart, bind, Except.bind]
  rw [hloop]
  rfl

/-- A pair with its units in order. -/
def orderPair (p : List Int × List Int) : List Int × List Int :=
  if lastNumber p.2 < lastNumber p.1 then (p.2, p.1) else p

/-- The numbers of pairs of units. -/
def joinPairs (ps : List (List Int × List Int)) : List Int :=
  (ps.map fun p => p.1 ++ p.2).flatten

theorem pairRound_ok (front behind : List Int) {p : List Int × List Int} {pairLevel fuel : Nat}
    (hpos : 0 < pairLevel) (hlo : p.1.length = pairLevel) (hhi : p.2.length = pairLevel)
    (hfuel : pairLevel ≤ fuel) :
    pairRound fuel pairLevel (front ++ (p.1 ++ (p.2 ++ behind)), front.length) =
      .ok (front ++ ((orderPair p).1 ++ ((orderPair p).2 ++ behind)),
        (front.length : Int) + 2 * pairLevel) := by
  have hthis : deref (front ++ (p.1 ++ (p.2 ++ behind))) (front.length + ((pairLevel : Int) - 1)) =
      .ok (lastNumber p.1) :=
    deref_last (List.ne_nil_of_length_pos (by omega)) (by omega)
  have hnext : deref (front ++ (p.1 ++ (p.2 ++ behind)))
      (front.length + ((pairLevel : Int) * 2 - 1)) = .ok (lastNumber p.2) := by
    rw [← List.append_assoc]
    exact deref_last (List.ne_nil_of_length_pos (by omega)) (by rw [List.length_append]; omega)
  have hswap := swapPair_ok front behind hlo hhi hfuel rfl
  simp only [pairRound, comp, hthis, hnext, bind, Except.bind, pure, Except.pure, orderPair]
  by_cases hless : lastNumber p.2 < lastNumber p.1
  · simp [hless, hswap]
  · simp [hless]

theorem pairLoop_ok {pairLevel fuel : Nat} (hpos : 0 < pairLevel) (hfuel : pairLevel ≤ fuel)
    (behind : List Int) (ps : List (List Int × List Int)) :
    ∀ (rounds : Nat) (front : List Int), ps.length ≤ rounds →
      (∀ p ∈ ps, p.1.length = pairLevel ∧ p.2.length = pairLevel) →
      boundedWhile Fault.outOfFuel
        (fun s : List Int × Int => s.2 != (front.length : Int) + 2 * pairLevel * ps.length)
        (pairRound fuel pairLevel) rounds (front ++ (joinPairs ps ++ behind), front.length) =
      .ok (front ++ (joinPairs (ps.map orderPair) ++ behind),
        (front.length : Int) + 2 * pairLevel * ps.length) := by
  induction ps with
  | nil =>
      intro rounds front _ _
      rw [boundedWhile_exit _ _ _ _ _ (by simp)]
      simp
  | cons p ps ih =>
      intro rounds front hrounds hunits
      obtain ⟨rounds, rfl⟩ : ∃ less, rounds = less + 1 :=
        ⟨rounds - 1, by simp only [List.length_cons] at hrounds; omega⟩
      obtain ⟨hlo, hhi⟩ := hunits p (by simp)
      have hround := pairRound_ok front (joinPairs ps ++ behind) hpos hlo hhi hfuel
      have hlen : ((front ++ ((orderPair p).1 ++ (orderPair p).2)).length : Int) =
          (front.length : Int) + 2 * pairLevel := by
        have horder : (orderPair p).1.length + (orderPair p).2.length = 2 * pairLevel := by
          rw [orderPair]
          split
          · simp only
            omega
          · omega
        simp only [List.length_append]
        omega
      have hrest := ih rounds (front ++ ((orderPair p).1 ++ (orderPair p).2))
        (by simpa using hrounds) fun q hq => hunits q (List.mem_cons_of_mem _ hq)
      have hstop : (front.length : Int) + 2 * pairLevel + 2 * pairLevel * ps.length =
          (front.length : Int) + 2 * pairLevel * (p :: ps).length := by
        simp only [List.length_cons]
        push_cast
        ring
      rw [hlen, hstop] at hrest
      have hinside : (front.length : Int) ≠
          (front.length : Int) + 2 * pairLevel * (p :: ps).length := by
        have : 0 < 2 * pairLevel * (p :: ps).length := Nat.mul_pos (by omega) (by simp)
        intro heq
        have hzero : (2 * pairLevel * (p :: ps).length : Int) = 0 := by omega
        exact absurd (by exact_mod_cast hzero) this.ne'
      rw [boundedWhile_round _ _ _ _ _ (by simpa using hinside)]
      simp only [joinPairs, List.map_cons, List.flatten_cons, List.append_assoc] at hround hrest ⊢
      rw [hround]
      exact hrest

/-! ### Units and their last places -/

/-- The last place of unit `i`, units being numbered from one. -/
def lastPlace (pairLevel : Nat) (i : Nat) : Int :=
  (pairLevel : Int) * i - 1

/-- The numbers of the unit with last place `it`. -/
def unitAt (container : List Int) (pairLevel : Nat) (it : Int) : List Int :=
  (container.drop (it - pairLevel + 1).toNat).take pairLevel

theorem flatten_length {pairLevel : Nat} {units : List (List Int)}
    (hunits : ∀ u ∈ units, u.length = pairLevel) :
    units.flatten.length = pairLevel * units.length := by
  rw [List.length_flatten, List.map_congr_left hunits, List.map_const', List.sum_replicate,
    smul_eq_mul, Nat.mul_comm]

section Places

variable {pairLevel : Nat} {units : List (List Int)} {rest : List Int}

theorem unit_split (rest : List Int) (hunits : ∀ u ∈ units, u.length = pairLevel) {i : Nat} {unit : List Int}
    (hi : units[i]? = some unit) :
    ∃ front behind, units.flatten ++ rest = front ++ (unit ++ behind) ∧
      front.length = pairLevel * i ∧ unit.length = pairLevel := by
  obtain ⟨hlen, rfl⟩ := List.getElem?_eq_some_iff.1 hi
  refine ⟨(units.take i).flatten, (units.drop (i + 1)).flatten ++ rest, ?_, ?_,
    hunits _ (List.getElem_mem _)⟩
  · have hcut : units = units.take i ++ units[i] :: units.drop (i + 1) := by
      rw [← List.drop_eq_getElem_cons hlen, List.take_append_drop]
    calc units.flatten ++ rest =
        (units.take i ++ units[i] :: units.drop (i + 1)).flatten ++ rest := by rw [← hcut]
      _ = (units.take i).flatten ++ (units[i] ++ ((units.drop (i + 1)).flatten ++ rest)) := by
        rw [List.flatten_append, List.flatten_cons, List.append_assoc, List.append_assoc]
  · rw [flatten_length fun u hu => hunits u (List.mem_of_mem_take hu), List.length_take,
      Nat.min_eq_left hlen.le]

theorem inside_lastPlace (hpos : 0 < pairLevel) (hunits : ∀ u ∈ units, u.length = pairLevel)
    {i : Nat} (hi : i < units.length) :
    Inside (units.flatten ++ rest) (lastPlace pairLevel (i + 1)) := by
  obtain ⟨front, behind, hsplit, hfront, hunit⟩ :=
    unit_split rest hunits (List.getElem?_eq_getElem hi)
  rw [Inside, hsplit, lastPlace]
  simp only [List.length_append]
  push_cast
  rw [mul_add, mul_one]
  have : (front.length : Int) = pairLevel * i := by exact_mod_cast hfront
  omega

theorem number_lastPlace (hpos : 0 < pairLevel) (hunits : ∀ u ∈ units, u.length = pairLevel)
    {i : Nat} {unit : List Int} (hi : units[i]? = some unit) :
    number (units.flatten ++ rest) (lastPlace pairLevel (i + 1)) = lastNumber unit := by
  obtain ⟨front, behind, hsplit, hfront, hunit⟩ := unit_split rest hunits hi
  have hplace : (lastPlace pairLevel (i + 1)).toNat = front.length + (unit.length - 1) := by
    rw [lastPlace, hfront, hunit]
    push_cast
    rw [mul_add, mul_one]
    have : ((pairLevel * i : Nat) : Int) = pairLevel * i := Nat.cast_mul _ _
    omega
  rw [number, hplace, hsplit, List.getD_eq_getElem?_getD,
    getElem?_last (List.ne_nil_of_length_pos (by omega))]
  rfl

theorem unitAt_lastPlace (rest : List Int) (hunits : ∀ u ∈ units, u.length = pairLevel)
    {i : Nat} {unit : List Int} (hi : units[i]? = some unit) :
    unitAt (units.flatten ++ rest) pairLevel (lastPlace pairLevel (i + 1)) = unit := by
  obtain ⟨front, behind, hsplit, hfront, hunit⟩ := unit_split rest hunits hi
  have hplace : (lastPlace pairLevel (i + 1) - pairLevel + 1).toNat = front.length := by
    rw [lastPlace, hfront]
    push_cast
    rw [mul_add, mul_one]
    have : ((pairLevel * i : Nat) : Int) = pairLevel * i := Nat.cast_mul _ _
    omega
  rw [unitAt, hplace, hsplit, List.drop_left, ← hunit, List.take_left]

private theorem mapM_range'_ok {f : Nat → Except Fault Int} (ys : List Int) :
    ∀ (start : Nat), (∀ (i : Nat) (y : Int), ys[i]? = some y → f (start + i) = .ok y) →
      (List.range' start ys.length).mapM f = .ok ys := by
  induction ys with
  | nil => intro start _; rfl
  | cons y ys ih =>
      intro start h
      rw [List.length_cons, List.range'_succ, List.mapM_cons,
        show f start = .ok y from h 0 y rfl, ih (start + 1) fun i z hz => ?_]
      · rfl
      · rw [Nat.add_assoc, Nat.add_comm 1 i]
        exact h (i + 1) z (by simpa using hz)

theorem copyUnits_ok (hunits : ∀ u ∈ units, u.length = pairLevel) {main : List Int}
    (hmain : ∀ it ∈ main, ∃ i, i < units.length ∧ it = lastPlace pairLevel (i + 1)) :
    copyUnits (units.flatten ++ rest) pairLevel main =
      .ok (main.map (unitAt (units.flatten ++ rest) pairLevel)).flatten := by
  suffices hcopy : (main.mapM fun it => (List.range pairLevel).mapM fun (i : Nat) =>
      deref (units.flatten ++ rest) (it + (-(pairLevel : Int) + i + 1))) =
      .ok (main.map (unitAt (units.flatten ++ rest) pairLevel)) by
    rw [copyUnits, Int.toNat_natCast, hcopy]
    rfl
  induction main with
  | nil => rfl
  | cons it main ih =>
      obtain ⟨i, hi, rfl⟩ := hmain it (by simp)
      have hget := List.getElem?_eq_getElem hi
      obtain ⟨front, behind, hsplit, hfront, hunit⟩ := unit_split rest hunits hget
      have hread : ∀ (j : Nat) (y : Int), units[i][j]? = some y →
          deref (units.flatten ++ rest)
            (lastPlace pairLevel (i + 1) + (-(pairLevel : Int) + (0 + j : Nat) + 1)) = .ok y := by
        intro j y hj
        have hplace : lastPlace pairLevel (i + 1) + (-(pairLevel : Int) + (0 + j : Nat) + 1) =
            ((front.length + j : Nat) : Int) := by
          rw [lastPlace, hfront]
          push_cast
          ring
        obtain ⟨hlen, _⟩ := List.getElem?_eq_some_iff.1 hj
        rw [hplace, hsplit]
        apply deref_of_getElem?
        rw [List.getElem?_append_right (by omega), Nat.add_sub_cancel_left,
          List.getElem?_append_left hlen, hj]
      have hunitcopy := mapM_range'_ok (f := fun (j : Nat) => deref (units.flatten ++ rest)
        (lastPlace pairLevel (i + 1) + (-(pairLevel : Int) + j + 1))) units[i] 0 hread
      rw [hunit, ← List.range_eq_range'] at hunitcopy
      rw [List.mapM_cons, hunitcopy, ih fun other hother => hmain other (List.mem_cons_of_mem _ hother),
        List.map_cons, unitAt_lastPlace rest hunits hget]
      rfl

end Places

theorem writeBack_ok (copy : List Int) :
    ∀ (front old behind : List Int), old.length = copy.length →
      writeBack (front ++ (old ++ behind)) front.length copy = .ok (front ++ (copy ++ behind)) := by
  induction copy with
  | nil =>
      intro front old behind hlen
      rw [List.eq_nil_of_length_eq_zero hlen]
      rfl
  | cons value copy ih =>
      intro front old behind hlen
      obtain ⟨y, old, rfl⟩ : ∃ y tail, old = y :: tail := by
        cases old with
        | nil => simp at hlen
        | cons y tail => exact ⟨y, tail, rfl⟩
      have hstore : store (front ++ (y :: old ++ behind)) front.length value =
          .ok ((front ++ [value]) ++ (old ++ behind)) := by
        rw [store, if_pos (by simp; omega), Int.toNat_natCast,
          List.set_append_right _ _ (by omega)]
        simp
      have hrest := ih (front ++ [value]) old behind (by simpa using hlen)
      simp only [List.length_append, List.length_singleton, Nat.cast_add, Nat.cast_one] at hrest
      rw [writeBack, hstore]
      simp only [bind, Except.bind]
      rw [hrest]
      simp

end FortyTwo.PmergeMe
