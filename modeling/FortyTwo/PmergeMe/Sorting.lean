import FortyTwo.PmergeMe.Units

/-!
Merge-insertion sort sorts. A level orders its pairs of units, the next level
orders the pairs by their larger units, and the insertions of the level bring
the smaller units in; the last level stands on single numbers.
-/

namespace FortyTwo.PmergeMe

open Foundation

/-- The units of pairs, one after the other. -/
def unpair (ps : List (List Int × List Int)) : List (List Int) :=
  ps.flatMap fun p => [p.1, p.2]

@[simp] theorem unpair_length (ps : List (List Int × List Int)) :
    (unpair ps).length = 2 * ps.length := by
  induction ps with
  | nil => rfl
  | cons p ps ih =>
      rw [unpair, List.flatMap_cons, List.length_append, ← unpair, ih]
      simp only [List.length_cons, List.length_nil]
      omega

theorem unpair_flatten (ps : List (List Int × List Int)) :
    (unpair ps).flatten = joinPairs ps := by
  induction ps with
  | nil => rfl
  | cons p ps ih =>
      rw [unpair, List.flatMap_cons, List.flatten_append, ← unpair, ih]
      simp [joinPairs]

theorem exists_pairs (units : List (List Int)) :
    ∃ ps odd, units = unpair ps ++ odd ∧ odd.length ≤ 1 := by
  induction units using List.twoStepInduction with
  | nil => exact ⟨[], [], rfl, by simp⟩
  | singleton u => exact ⟨[], [u], rfl, by simp⟩
  | cons_cons u v units ih _ =>
      obtain ⟨ps, odd, rfl, hodd⟩ := ih
      exact ⟨(u, v) :: ps, odd, rfl, hodd⟩

theorem unpair_getElem? (ps : List (List Int × List Int)) (odd : List (List Int)) :
    ∀ (i : Nat) (p : List Int × List Int), ps[i]? = some p →
      (unpair ps ++ odd)[2 * i]? = some p.1 ∧ (unpair ps ++ odd)[2 * i + 1]? = some p.2 := by
  induction ps with
  | nil => intro i p h; simp at h
  | cons q ps ih =>
      intro i p h
      cases i with
      | zero =>
          obtain rfl : q = p := by simpa using h
          exact ⟨rfl, rfl⟩
      | succ i => exact ih i p (by simpa using h)

/-- The units of pairs are the smaller ones and the larger ones. -/
theorem unpair_perm (ps : List (List Int × List Int)) (odd : List (List Int)) :
    (ps.map Prod.fst ++ odd ++ ps.map Prod.snd).Perm (unpair ps ++ odd) := by
  induction ps with
  | nil => simp [unpair]
  | cons p ps ih =>
      calc ((p :: ps).map Prod.fst ++ odd ++ (p :: ps).map Prod.snd).Perm
            (p.1 :: (p.2 :: (ps.map Prod.fst ++ odd ++ ps.map Prod.snd))) :=
            List.Perm.cons _ List.perm_middle
        List.Perm _ (unpair (p :: ps) ++ odd) := (ih.cons _).cons _

theorem unpair_order_perm (ps : List (List Int × List Int)) :
    (unpair (ps.map orderPair)).Perm (unpair ps) := by
  induction ps with
  | nil => rfl
  | cons p ps ih =>
      have hpair : [(orderPair p).1, (orderPair p).2].Perm [p.1, p.2] := by
        rw [orderPair]
        split
        · exact List.Perm.swap _ _ _
        · exact List.Perm.refl _
      exact hpair.append ih

theorem orderPair_le (p : List Int × List Int) :
    lastNumber (orderPair p).1 ≤ lastNumber (orderPair p).2 := by
  rw [orderPair]
  split
  · exact le_of_lt ‹_›
  · exact not_lt.1 ‹_›

/-! ### The insertions of a level -/

/-- The last place of the larger unit of pair `i`, pairs being numbered from one. -/
def largerPlace (pairLevel : Nat) (i : Nat) : Int :=
  lastPlace pairLevel (2 * i)

/-- The last place of the smaller unit of pair `i`, or of the unit behind the
pairs. -/
def smallerPlace (pairLevel : Nat) (i : Nat) : Int :=
  lastPlace pairLevel (2 * (i - 1) + 1)

/-- The chain a level begins with. -/
def startChain (pairLevel : Nat) (pairs : Nat) : List Int :=
  smallerPlace pairLevel 1 :: (List.range' 1 pairs).map (largerPlace pairLevel)

/-- The units of a level as the next level leaves them: the units of every pair
in order, and the pairs in the order of their larger units. -/
structure Paired (pairLevel : Nat) (ps : List (List Int × List Int)) (odd : List (List Int)) :
    Prop where
  pos : 0 < pairLevel
  nonempty : ps ≠ []
  odd_le : odd.length ≤ 1
  units : ∀ u ∈ unpair ps ++ odd, u.length = pairLevel
  ordered : ∀ p ∈ ps, lastNumber p.1 ≤ lastNumber p.2
  sorted : SortedBy (fun p => lastNumber p.2) ps

section Level

variable {pairLevel : Nat} {ps : List (List Int × List Int)} {odd : List (List Int)}
  {rest : List Int}

theorem smaller_getElem? {i : Nat} {u : List Int} (hodd : odd.length ≤ 1)
    (hi : (ps.map Prod.fst ++ odd)[i]? = some u) : (unpair ps ++ odd)[2 * i]? = some u := by
  by_cases hpair : i < ps.length
  · rw [List.getElem?_append_left (by simpa using hpair), List.getElem?_map] at hi
    obtain ⟨p, hp, rfl⟩ := Option.map_eq_some_iff.1 hi
    exact (unpair_getElem? ps odd i p hp).1
  · rw [List.getElem?_append_right (by simpa using hpair), List.length_map] at hi
    obtain ⟨hlen, _⟩ := List.getElem?_eq_some_iff.1 hi
    have hlast : i - ps.length = 0 := by omega
    rw [hlast] at hi
    rw [List.getElem?_append_right (by rw [unpair_length]; omega), unpair_length,
      show 2 * i - 2 * ps.length = 0 by omega, hi]

theorem larger_getElem? {i : Nat} {u : List Int} (hi : (ps.map Prod.snd)[i]? = some u) :
    (unpair ps ++ odd)[2 * i + 1]? = some u := by
  rw [List.getElem?_map] at hi
  obtain ⟨p, hp, rfl⟩ := Option.map_eq_some_iff.1 hi
  exact (unpair_getElem? ps odd i p hp).2

/-- What the places of the pending units and of the chain's units mean: an
entry of `places` stands on the unit of the same index. -/
theorem map_unitAt {container : List Int} (place : Nat → Int) (us : List (List Int))
    (hplace : ∀ (i : Nat) (u : List Int), us[i]? = some u →
      unitAt container pairLevel (place (i + 1)) = u) :
    ((List.range' 1 us.length).map place).map (unitAt container pairLevel) = us := by
  apply List.ext_getElem?
  intro i
  rw [List.getElem?_map, List.getElem?_map]
  by_cases hi : i < us.length
  · rw [List.getElem?_eq_getElem hi, List.getElem?_range' hi, Nat.one_mul, Nat.add_comm 1 i]
    exact congrArg some (hplace i _ (List.getElem?_eq_getElem hi))
  · rw [List.getElem?_eq_none (not_lt.1 hi), List.getElem?_eq_none (by simpa using hi)]
    rfl

/-- Where the entries of a level stand. -/
def places (pairLevel pairs odd : Nat) : List Int :=
  startChain pairLevel pairs ++ pending (smallerPlace pairLevel) 2 (pairs + odd - 1)

theorem places_eq (pairLevel odd : Nat) {pairs : Nat} (hpairs : 1 ≤ pairs) :
    (places pairLevel pairs odd).Perm
      ((List.range' 1 (pairs + odd)).map (smallerPlace pairLevel) ++
        (List.range' 1 pairs).map (largerPlace pairLevel)) := by
  obtain ⟨count, hcount⟩ : ∃ count, pairs + odd = count + 1 := ⟨pairs + odd - 1, by omega⟩
  rw [places, startChain, hcount, List.range'_succ, List.map_cons, Nat.add_sub_cancel]
  exact List.Perm.cons _ List.perm_append_comm

theorem Paired.mem_places (h : Paired pairLevel ps odd) {it : Int}
    (hit : it ∈ places pairLevel ps.length odd.length) :
    ∃ i, i < (unpair ps ++ odd).length ∧ it = lastPlace pairLevel (i + 1) := by
  have hpairs := List.length_pos_iff.2 h.nonempty
  have hodd := h.odd_le
  rw [(places_eq pairLevel odd.length hpairs).mem_iff, List.mem_append, List.mem_map,
    List.mem_map] at hit
  simp only [List.length_append, unpair_length]
  rcases hit with ⟨i, hi, rfl⟩ | ⟨i, hi, rfl⟩
  · rw [List.mem_range'_1] at hi
    exact ⟨2 * (i - 1), by omega, rfl⟩
  · rw [List.mem_range'_1] at hi
    refine ⟨2 * i - 1, by omega, ?_⟩
    rw [largerPlace, show 2 * i - 1 + 1 = 2 * i by omega]

/-- The entries of a level stand for its units. -/
theorem Paired.map_places (h : Paired pairLevel ps odd) :
    ((places pairLevel ps.length odd.length).map
      (unitAt ((unpair ps ++ odd).flatten ++ rest) pairLevel)).Perm (unpair ps ++ odd) := by
  have hpairs := List.length_pos_iff.2 h.nonempty
  have hsmaller : ((List.range' 1 (ps.length + odd.length)).map (smallerPlace pairLevel)).map
      (unitAt ((unpair ps ++ odd).flatten ++ rest) pairLevel) = ps.map Prod.fst ++ odd := by
    have hmap := map_unitAt (smallerPlace pairLevel) (ps.map Prod.fst ++ odd) fun i u hi =>
      unitAt_lastPlace rest h.units (smaller_getElem? h.odd_le hi)
    rwa [List.length_append, List.length_map] at hmap
  have hlarger : ((List.range' 1 ps.length).map (largerPlace pairLevel)).map
      (unitAt ((unpair ps ++ odd).flatten ++ rest) pairLevel) = ps.map Prod.snd := by
    have hmap := map_unitAt (largerPlace pairLevel) (ps.map Prod.snd) fun i u hi =>
      unitAt_lastPlace rest h.units (larger_getElem? hi)
    rwa [List.length_map] at hmap
  have hperm := (places_eq pairLevel odd.length hpairs).map
    (unitAt ((unpair ps ++ odd).flatten ++ rest) pairLevel)
  rw [List.map_append, hsmaller, hlarger] at hperm
  exact hperm.trans (unpair_perm ps odd)

theorem Paired.number_smaller (h : Paired pairLevel ps odd) {i : Nat} {u : List Int}
    (hi : (ps.map Prod.fst ++ odd)[i]? = some u) :
    number ((unpair ps ++ odd).flatten ++ rest) (smallerPlace pairLevel (i + 1)) =
      lastNumber u :=
  number_lastPlace h.pos h.units (smaller_getElem? h.odd_le hi)

theorem Paired.number_larger (h : Paired pairLevel ps odd) {i : Nat} {u : List Int}
    (hi : (ps.map Prod.snd)[i]? = some u) :
    number ((unpair ps ++ odd).flatten ++ rest) (largerPlace pairLevel (i + 1)) =
      lastNumber u :=
  number_lastPlace h.pos h.units (larger_getElem? hi)

theorem Paired.partners (h : Paired pairLevel ps odd) :
    Partners (number ((unpair ps ++ odd).flatten ++ rest)) (largerPlace pairLevel)
      (smallerPlace pairLevel) ps.length odd.length where
  odd_le := h.odd_le
  partner i hi hpair := by
    obtain ⟨j, rfl⟩ : ∃ j, i = j + 1 := ⟨i - 1, by omega⟩
    have hj : j < ps.length := by omega
    have hget := List.getElem?_eq_getElem hj
    rw [h.number_smaller (u := ps[j].1)
        (by rw [List.getElem?_append_left (by simpa using hj), List.getElem?_map, hget]; rfl),
      h.number_larger (u := ps[j].2) (by rw [List.getElem?_map, hget]; rfl)]
    exact h.ordered _ (List.getElem_mem hj)

theorem Paired.startChain_sorted (h : Paired pairLevel ps odd) :
    SortedBy (number ((unpair ps ++ odd).flatten ++ rest)) (startChain pairLevel ps.length) := by
  have hpairs := List.length_pos_iff.2 h.nonempty
  have hnumbers : ∀ (i : Nat) (hi : i < ps.length),
      number ((unpair ps ++ odd).flatten ++ rest) (largerPlace pairLevel (i + 1)) =
        lastNumber ps[i].2 := fun i hi =>
    h.number_larger (by rw [List.getElem?_map, List.getElem?_eq_getElem hi]; rfl)
  have horder : ∀ i j, i ≤ j → j < ps.length →
      number ((unpair ps ++ odd).flatten ++ rest) (largerPlace pairLevel (i + 1)) ≤
        number ((unpair ps ++ odd).flatten ++ rest) (largerPlace pairLevel (j + 1)) := by
    intro i j hij hj
    rw [hnumbers i (by omega), hnumbers j hj]
    rcases hij.eq_or_lt with rfl | hlt
    · exact le_refl _
    · exact List.pairwise_iff_getElem.1 h.sorted i j (by omega) hj hlt
  rw [startChain, SortedBy, List.pairwise_cons]
  constructor
  · intro it hit
    obtain ⟨i, hi, rfl⟩ := List.mem_map.1 hit
    rw [List.mem_range'_1] at hi
    obtain ⟨j, rfl⟩ : ∃ j, i = j + 1 := ⟨i - 1, by omega⟩
    exact (h.partners.partner 1 (le_refl 1) hpairs).trans (horder 0 j (by omega) (by omega))
  · rw [List.pairwise_map, List.pairwise_iff_getElem]
    intro i j hi hj hij
    rw [List.getElem_range', List.getElem_range']
    rw [List.length_range'] at hj
    simpa only [Nat.one_mul, Nat.add_comm 1] using horder i j (by omega) hj

theorem Paired.startChain_ok (h : Paired pairLevel ps odd) (more : Nat) :
    MainChain (number ((unpair ps ++ odd).flatten ++ rest)) (largerPlace pairLevel) ps.length 1
      more 0 0 (startChain pairLevel ps.length) := by
  have hplace : ∀ i, 1 < i → i ≤ ps.length →
      WithinPlace (startChain pairLevel ps.length) (largerPlace pairLevel i) i := by
    intro i hi hpair
    obtain ⟨j, rfl⟩ : ∃ j, i = j + 1 := ⟨i - 1, by omega⟩
    refine ⟨j + 1, le_refl _, ?_⟩
    rw [startChain, List.getElem?_cons_succ, List.getElem?_map,
      List.getElem?_range' (by omega), Nat.one_mul, Nat.add_comm 1 j]
    rfl
  exact {
    sorted := h.startChain_sorted
    length := by simp [startChain]
    ahead := fun i hi hpair => hplace i (by omega) hpair
    below := fun i hi _ hpair => hplace i hi hpair }

/-- The two insertion loops leave the units of the level in order. -/
theorem Paired.insertions (h : Paired pairLevel ps odd) (rest : List Int) {fuel : Nat}
    (hfuel : ps.length + odd.length ≤ fuel) :
    ∃ k prev main main',
      boundedWhile .outOfFuel (fun s : Chains => decide (s.jacobsthalDiff ≤ s.pend.length))
        (chainsRound fuel ((unpair ps ++ odd).flatten ++ rest)) fuel
        (chainsState (smallerPlace pairLevel) ps.length odd.length 2 1
          (startChain pairLevel ps.length)) =
        .ok (chainsState (smallerPlace pairLevel) ps.length odd.length k prev main) ∧
      boundedWhile .outOfFuel (fun s : Int × List Int => decide (0 ≤ s.1))
        (remainingRound ((unpair ps ++ odd).flatten ++ rest)
          (pending (smallerPlace pairLevel) (prev + 1) (ps.length + odd.length - prev))
          (decide (odd.length = 1))) fuel
        (((ps.length + odd.length - prev : Nat) : Int) - 1, main) = .ok (-1, main') ∧
      SortedBy (number ((unpair ps ++ odd).flatten ++ rest)) main' ∧
      main'.Perm (places pairLevel ps.length odd.length) := by
  have hpairs := List.length_pos_iff.2 h.nonempty
  have hall : ∀ it ∈ places pairLevel ps.length odd.length,
      Inside ((unpair ps ++ odd).flatten ++ rest) it := by
    intro it hit
    obtain ⟨i, hi, rfl⟩ := h.mem_places hit
    exact inside_lastPlace h.pos h.units hi
  obtain ⟨k, prev, main, hrun, hprev, hroom, hmain, hperm⟩ := chains_ok hall h.partners hfuel
    (by omega) h.startChain_ok (List.Perm.refl _)
  obtain ⟨main', hrest, hsorted, hperm'⟩ := remaining_ok hall h.partners
    (ps.length + odd.length - prev) hprev (by omega) fuel (ps.length + odd.length - prev) 0 main
    rfl (by omega) (hmain _) hperm
  exact ⟨k, prev, main, main', hrun, hrest, hsorted, hperm'⟩

end Level

/-! ### What a level computes from its length -/

theorem pairIndices_eq {pairs odd : Nat} (hodd : odd ≤ 1) :
    pairIndices ((2 * pairs + odd : Nat) : Int) =
      (List.range' 2 (pairs - 1)).map fun i => 2 * i := by
  rw [pairIndices, Int.toNat_natCast, show (2 * pairs + odd - 2) / 2 = pairs - 1 by omega]
  apply List.ext_getElem
  · simp
  · intro i hi hi'
    rw [List.getElem_range', List.getElem_map, List.getElem_range']
    omega

theorem initialMain_eq (pairLevel : Nat) {pairs odd : Nat} (hodd : odd ≤ 1) (hpairs : 1 ≤ pairs) :
    initialMain pairLevel ((2 * pairs + odd : Nat) : Int) = startChain pairLevel pairs := by
  obtain ⟨more, rfl⟩ : ∃ more, pairs = more + 1 := ⟨pairs - 1, by omega⟩
  rw [initialMain, pairIndices_eq hodd, startChain, List.range'_succ, List.map_cons, List.map_map,
    Nat.add_sub_cancel]
  congr 1
  · simp [smallerPlace, lastPlace]

theorem initialPend_eq (pairLevel : Nat) {pairs odd : Nat} (hodd : odd ≤ 1) (hpairs : 1 ≤ pairs)
    {stop : Int} (hstop : stop = 2 * pairLevel * pairs) :
    initialPend pairLevel ((2 * pairs + odd : Nat) : Int) stop (decide (odd = 1)) =
      pending (smallerPlace pairLevel) 2 (pairs + odd - 1) := by
  have hpend : ((pairIndices ((2 * pairs + odd : Nat) : Int)).map fun i : Nat =>
      (pairLevel : Int) * (i - 1) - 1) = pending (smallerPlace pairLevel) 2 (pairs - 1) := by
    rw [pairIndices_eq hodd, List.map_map, pending]
    apply List.map_congr_left
    intro i hi
    rw [List.mem_range'_1] at hi
    have hcast : ((2 * (i - 1) + 1 : Nat) : Int) = ((2 * i : Nat) : Int) - 1 := by omega
    rw [Function.comp, smallerPlace, lastPlace, hcast]
  rw [initialPend, hpend]
  rcases Nat.le_one_iff_eq_zero_or_eq_one.1 hodd with rfl | rfl
  · simp
  · have hlast : stop + ((pairLevel : Int) - 1) = smallerPlace pairLevel (2 + (pairs - 1)) := by
      rw [smallerPlace, lastPlace, hstop, show 2 * (2 + (pairs - 1) - 1) + 1 = 2 * pairs + 1 by omega]
      push_cast
      ring
    rw [show pairs + 1 - 1 = pairs - 1 + 1 by omega, pending_succ, hlast]
    rfl

theorem unitsNumber {pairLevel : Nat} {units : List (List Int)} {rest : List Int}
    (hunits : ∀ u ∈ units, u.length = pairLevel) (hrest : rest.length < pairLevel) :
    ((units.flatten ++ rest).length : Int) / pairLevel = (units.length : Nat) := by
  rw [List.length_append, flatten_length hunits, ← Int.natCast_div,
    Nat.mul_add_div (by omega), Nat.div_eq_of_lt hrest, Nat.add_zero]

/-! ### The levels -/

/-- What a level does to a container of units: it puts them in order. -/
def Sorts (fuel : Nat) (pairLevel : Nat) (units : List (List Int)) (rest : List Int) : Prop :=
  ∃ sorted, mergeInsertionSort fuel (units.flatten ++ rest) pairLevel =
      .ok (sorted.flatten ++ rest) ∧ sorted.Perm units ∧ SortedBy lastNumber sorted

theorem sorts_of_lt_two {fuel pairLevel : Nat} {units : List (List Int)} {rest : List Int}
    (hunits : ∀ u ∈ units, u.length = pairLevel) (hrest : rest.length < pairLevel)
    (hfew : units.length < 2) : Sorts (fuel + 1) pairLevel units rest := by
  refine ⟨units, ?_, List.Perm.refl _, ?_⟩
  · rw [mergeInsertionSort, unitsNumber hunits hrest, if_pos (by exact_mod_cast hfew)]
    rfl
  · rw [SortedBy, List.pairwise_iff_getElem]
    intro i j _ hj hij
    omega

/-- What follows the next level: the pairs that it ordered by their larger
units become the units of this level again. -/
theorem exists_paired {pairLevel : Nat} {ps : List (List Int × List Int)}
    {odd : List (List Int)} (hpos : 0 < pairLevel) (hps : ps ≠ []) (hodd : odd.length ≤ 1)
    (hunits : ∀ u ∈ unpair ps ++ odd, u.length = pairLevel) {sorted : List (List Int)}
    (hperm : sorted.Perm ((ps.map orderPair).map fun p => p.1 ++ p.2))
    (hsorted : SortedBy lastNumber sorted) :
    ∃ qs, sorted.flatten = (unpair qs).flatten ∧ Paired pairLevel qs odd ∧
      (unpair qs ++ odd).Perm (unpair ps ++ odd) ∧ qs.length = ps.length := by
  have horder : ∀ p ∈ ps.map orderPair,
      p.1.length = pairLevel ∧ p.2.length = pairLevel ∧ lastNumber p.1 ≤ lastNumber p.2 := by
    intro p hp
    obtain ⟨q, hq, rfl⟩ := List.mem_map.1 hp
    have hfirst := hunits q.1 (List.mem_append_left _ (List.mem_flatMap.2 ⟨q, hq, by simp⟩))
    have hsecond := hunits q.2 (List.mem_append_left _ (List.mem_flatMap.2 ⟨q, hq, by simp⟩))
    refine ⟨?_, ?_, orderPair_le q⟩ <;> rw [orderPair] <;> split <;> assumption
  -- a pair is its joined units cut in the middle
  have hcut : ∀ p ∈ ps.map orderPair,
      ((p.1 ++ p.2).take pairLevel, (p.1 ++ p.2).drop pairLevel) = p := by
    intro p hp
    obtain ⟨hfirst, _, _⟩ := horder p hp
    rw [← hfirst, List.take_left, List.drop_left]
  have hqs : (sorted.map fun u => (u.take pairLevel, u.drop pairLevel)).Perm
      (ps.map orderPair) := by
    have hmap := hperm.map fun u => (u.take pairLevel, u.drop pairLevel)
    rw [List.map_map, List.map_congr_left (f := _ ∘ _) (g := id) hcut, List.map_id] at hmap
    exact hmap
  have hsplit : (sorted.map fun u => (u.take pairLevel, u.drop pairLevel)).map
      (fun p => p.1 ++ p.2) = sorted := by
    rw [List.map_map]
    exact (List.map_congr_left fun u _ => List.take_append_drop pairLevel u).trans (List.map_id _)
  obtain ⟨qs, hqsdef⟩ : ∃ qs, qs = sorted.map fun u => (u.take pairLevel, u.drop pairLevel) :=
    ⟨_, rfl⟩
  rw [← hqsdef] at hqs hsplit
  have hunpair : (unpair qs ++ odd).Perm (unpair ps ++ odd) :=
    ((hqs.flatMap_right _).trans (unpair_order_perm ps)).append_right _
  refine ⟨qs, ?_, ?_, hunpair, by rw [hqs.length_eq, List.length_map]⟩
  · rw [unpair_flatten, joinPairs, hsplit]
  · exact {
      pos := hpos
      nonempty := by
        intro hnil
        rw [hnil, List.nil_perm, List.map_eq_nil_iff] at hqs
        exact hps hqs
      odd_le := hodd
      units := fun u hu => hunits u (hunpair.mem_iff.1 hu)
      ordered := fun p hp => (horder p (hqs.mem_iff.1 hp)).2.2
      sorted := by
        rw [SortedBy, ← hsplit, List.pairwise_map] at hsorted
        refine hsorted.imp_of_mem fun {p q} hp hq hle => ?_
        obtain ⟨_, hpsecond, _⟩ := horder p (hqs.mem_iff.1 hp)
        obtain ⟨_, hqsecond, _⟩ := horder q (hqs.mem_iff.1 hq)
        rwa [lastNumber_append _ (List.ne_nil_of_length_pos (by omega)),
          lastNumber_append _ (List.ne_nil_of_length_pos (by omega))] at hle }

/-- The copy puts the units in the order of the chain. -/
theorem Paired.copyBack {pairLevel : Nat} {ps : List (List Int × List Int)}
    {odd : List (List Int)} {rest main : List Int} (h : Paired pairLevel ps odd)
    (hperm : main.Perm (places pairLevel ps.length odd.length))
    (hsorted : SortedBy (number ((unpair ps ++ odd).flatten ++ rest)) main) :
    ∃ sorted : List (List Int),
      copyUnits ((unpair ps ++ odd).flatten ++ rest) pairLevel main = .ok sorted.flatten ∧
      writeBack ((unpair ps ++ odd).flatten ++ rest) 0 sorted.flatten =
        .ok (sorted.flatten ++ rest) ∧
      sorted.Perm (unpair ps ++ odd) ∧ SortedBy lastNumber sorted := by
  have hplaces : ∀ it ∈ main, ∃ i, i < (unpair ps ++ odd).length ∧
      it = lastPlace pairLevel (i + 1) := fun it hit => h.mem_places (hperm.mem_iff.1 hit)
  have hunits : (main.map (unitAt ((unpair ps ++ odd).flatten ++ rest) pairLevel)).Perm
      (unpair ps ++ odd) := (hperm.map _).trans h.map_places
  refine ⟨_, copyUnits_ok h.units hplaces, ?_, hunits, ?_⟩
  · exact writeBack_ok _ [] (unpair ps ++ odd).flatten rest hunits.flatten.length_eq.symm
  · rw [SortedBy, List.pairwise_map]
    refine List.Pairwise.imp_of_mem (fun {p q} hp hq hle => ?_) hsorted
    obtain ⟨i, hi, rfl⟩ := hplaces p hp
    obtain ⟨j, hj, rfl⟩ := hplaces q hq
    have hgeti := List.getElem?_eq_getElem hi
    have hgetj := List.getElem?_eq_getElem hj
    rw [unitAt_lastPlace rest h.units hgeti, unitAt_lastPlace rest h.units hgetj]
    rwa [number_lastPlace h.pos h.units hgeti, number_lastPlace h.pos h.units hgetj] at hle

/-- One level on top of the next one. -/
theorem sorts_of_next {fuel pairLevel : Nat} {ps : List (List Int × List Int)}
    {odd : List (List Int)} {rest : List Int} (hpos : 0 < pairLevel) (hps : ps ≠ [])
    (hodd : odd.length ≤ 1) (hunits : ∀ u ∈ unpair ps ++ odd, u.length = pairLevel)
    (hrest : rest.length < pairLevel) (hfuel : pairLevel + (unpair ps ++ odd).length ≤ fuel)
    (hnext : Sorts fuel (2 * pairLevel) ((ps.map orderPair).map fun p => p.1 ++ p.2)
      (odd.flatten ++ rest)) :
    Sorts (fuel + 1) pairLevel (unpair ps ++ odd) rest := by
  have hpairs := List.length_pos_iff.2 hps
  obtain ⟨sorted, hsort, hperm, horder⟩ := hnext
  obtain ⟨qs, hflat, hpaired, hunpair, hlength⟩ := exists_paired hpos hps hodd hunits hperm horder
  have hcount : (unpair ps ++ odd).length = 2 * ps.length + odd.length := by
    rw [List.length_append, unpair_length]
  rw [hcount] at hfuel
  have hisOdd : decide (((2 * ps.length + odd.length : Nat) : Int) % 2 = 1) =
      decide (odd.length = 1) := decide_eq_decide.2 (by omega)
  obtain ⟨stop, hstopdef⟩ : ∃ stop : Int, stop = 2 * pairLevel * ps.length := ⟨_, rfl⟩
  have hstop : (pairLevel : Int) * (2 * ps.length + odd.length : Nat) +
      -((if decide (odd.length = 1) = true then 1 else 0) * (pairLevel : Int)) = stop := by
    rw [hstopdef]
    rcases Nat.le_one_iff_eq_zero_or_eq_one.1 hodd with h | h <;> rw [h] <;> simp <;> ring
  have hpairing : boundedWhile Fault.outOfFuel (fun s : List Int × Int => s.2 != stop)
      (pairRound fuel pairLevel) fuel ((unpair ps ++ odd).flatten ++ rest, 0) =
      .ok (((ps.map orderPair).map fun p => p.1 ++ p.2).flatten ++ (odd.flatten ++ rest), stop) := by
    have hloop := pairLoop_ok hpos (show pairLevel ≤ fuel by omega) (odd.flatten ++ rest) ps fuel [] (by omega)
      fun p hp => ⟨hunits p.1 (List.mem_append_left _ (List.mem_flatMap.2 ⟨p, hp, by simp⟩)),
        hunits p.2 (List.mem_append_left _ (List.mem_flatMap.2 ⟨p, hp, by simp⟩))⟩
    rw [List.nil_append, List.nil_append, List.length_nil, Nat.cast_zero, zero_add, ← hstopdef,
      ← unpair_flatten, ← List.append_assoc, ← List.flatten_append] at hloop
    exact hloop
  have hcontainer : sorted.flatten ++ (odd.flatten ++ rest) =
      (unpair qs ++ odd).flatten ++ rest := by
    rw [hflat, List.flatten_append, List.append_assoc]
  obtain ⟨k, prev, main, main', hchains, hremaining, hsorted, hplaces⟩ :=
    hpaired.insertions rest (show qs.length + odd.length ≤ fuel by omega)
  obtain ⟨result, hcopy, hwrite, hresult, hinorder⟩ := hpaired.copyBack hplaces hsorted
  have hfirst : jacobsthalNumber 1 = 1 := by decide
  have hstart : ({
      k := 2
      prevJacobsthal := jacobsthalNumber 1
      insertedNumbers := 0
      main := initialMain pairLevel ((2 * ps.length + odd.length : Nat) : Int)
      pend := initialPend pairLevel ((2 * ps.length + odd.length : Nat) : Int) stop
        (decide (odd.length = 1)) } : Chains) =
      chainsState (smallerPlace pairLevel) qs.length odd.length 2 1
        (startChain pairLevel qs.length) := by
    rw [initialMain_eq pairLevel hodd hpairs, initialPend_eq pairLevel hodd hpairs hstopdef, hfirst,
      chainsState, hlength]
    rfl
  refine ⟨result, ?_, hresult.trans hunpair, hinorder⟩
  have hmany : ¬ ((2 * ps.length + odd.length : Nat) : Int) < 2 := by omega
  have hlevel : (pairLevel : Int) * 2 = (2 * pairLevel : Nat) := by push_cast; ring
  rw [mergeInsertionSort, unitsNumber hunits hrest, hcount, if_neg hmany]
  simp only [hisOdd, hstop, bind, Except.bind, hpairing, hlevel, hsort, hcontainer, hstart,
    hchains]
  simp only [chainsState, pending_length, hremaining, hcopy]
  exact hwrite

theorem sorts (fuel : Nat) : ∀ (pairLevel : Nat) (units : List (List Int)) (rest : List Int),
    0 < pairLevel → (∀ u ∈ units, u.length = pairLevel) → rest.length < pairLevel →
    pairLevel * units.length + rest.length + units.length < fuel →
    Sorts fuel pairLevel units rest := by
  induction fuel with
  | zero => intro _ _ _ _ _ _ hfuel; omega
  | succ fuel ih =>
      intro pairLevel units rest hpos hunits hrest hfuel
      by_cases hfew : units.length < 2
      · exact sorts_of_lt_two hunits hrest hfew
      obtain ⟨ps, odd, rfl, hodd⟩ := exists_pairs units
      have hcount : (unpair ps ++ odd).length = 2 * ps.length + odd.length := by
        rw [List.length_append, unpair_length]
      have hps : ps ≠ [] := List.ne_nil_of_length_pos (by omega)
      have hpairs := List.length_pos_iff.2 hps
      have hlevel : pairLevel ≤ pairLevel * ps.length := Nat.le_mul_of_pos_right _ hpairs
      have hodds : odd.flatten.length = pairLevel * odd.length :=
        flatten_length fun u hu => hunits u (List.mem_append_right _ hu)
      have hoddle : pairLevel * odd.length ≤ pairLevel := by
        simpa using Nat.mul_le_mul_left pairLevel hodd
      have hmul : pairLevel * (2 * ps.length + odd.length) =
          2 * pairLevel * ps.length + pairLevel * odd.length := by ring
      rw [hcount, hmul, Nat.mul_assoc 2] at hfuel
      apply sorts_of_next hpos hps hodd hunits hrest (by rw [hcount]; omega)
      refine ih _ _ _ (by omega) ?_ ?_ ?_
      · intro u hu
        obtain ⟨p, hp, rfl⟩ := List.mem_map.1 hu
        obtain ⟨q, hq, rfl⟩ := List.mem_map.1 hp
        have hfirst := hunits q.1 (List.mem_append_left _ (List.mem_flatMap.2 ⟨q, hq, by simp⟩))
        have hsecond := hunits q.2 (List.mem_append_left _ (List.mem_flatMap.2 ⟨q, hq, by simp⟩))
        rw [List.length_append, orderPair]
        split
        · simp only
          omega
        · omega
      · rw [List.length_append, hodds]
        omega
      · simp only [List.length_append, List.length_map, hodds]
        rw [Nat.mul_assoc 2]
        omega

/-- The first level, whose units are single numbers. -/
theorem sorts_numbers (container : List Int) {fuel : Nat} (hfuel : 2 * container.length + 1 ≤ fuel) :
    ∃ sorted : List (List Int), mergeInsertionSort fuel container 1 = .ok sorted.flatten ∧
      sorted.Perm (container.map fun x => [x]) ∧ SortedBy lastNumber sorted := by
  have hunits : ∀ u ∈ container.map fun x => [x], u.length = 1 := by
    intro u hu
    obtain ⟨x, _, rfl⟩ := List.mem_map.1 hu
    rfl
  obtain ⟨sorted, hrun, hperm, hsorted⟩ := sorts fuel 1 (container.map fun x => [x]) []
    (by decide) hunits (by decide) (by rw [List.length_map, List.length_nil]; omega)
  rw [← List.flatMap_def, List.flatMap_singleton', List.append_nil, List.append_nil] at hrun
  exact ⟨sorted, hrun, hperm, hsorted⟩

example : mergeInsertionSort 40 [5, 3, 8, 1, 9, 2, 2] 1 = .ok [1, 2, 2, 3, 5, 8, 9] := by
  decide +kernel

end FortyTwo.PmergeMe
