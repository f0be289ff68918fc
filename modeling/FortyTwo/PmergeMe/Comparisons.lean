import FortyTwo.PmergeMe.CountedInsertion
import FortyTwo.PmergeMe.FordJohnson
import FortyTwo.PmergeMe.Sorting

/-!
How often `_comp` is called. Every search of group `k` looks at fewer than `2 ^ k`
entries, since two Jacobsthal numbers in a row make a power of two, and so does
every search after the last group.
-/

namespace FortyTwo.PmergeMe

open Foundation

theorem counts_comp (container : List Int) (lv rv : Int) :
    Counts (countedComp container lv rv) (comp container lv rv) fun _ => 1 :=
  (counts_tick (counts_lift _)).mono fun _ _ => le_rfl

section Search

variable {container main : List Int} {value number : Int}

private theorem deref_eq_ok {α : Type} {xs : List α} {it : Int} {x : α} (h : deref xs it = .ok x) :
    0 ≤ it ∧ xs[it.toNat]? = some x := by
  unfold deref at h
  split at h
  · next hnonneg =>
      refine ⟨hnonneg, ?_⟩
      cases hget : xs[it.toNat]? with
      | none =>
          rw [hget] at h
          cases h
      | some y =>
          rw [hget] at h
          cases h
          rfl
  · cases h

private theorem mapM_deref {its range : List Int} (h : its.mapM (deref container) = .ok range) :
    range.length = its.length ∧
      ∀ (j : Nat) it e, its[j]? = some it → range[j]? = some e → deref container it = .ok e := by
  induction its generalizing range with
  | nil =>
      cases h
      exact ⟨rfl, fun j it e hit => by simp at hit⟩
  | cons first its ih =>
      rw [List.mapM_cons] at h
      obtain ⟨x, hx, h⟩ := except_bind_eq_ok.1 h
      obtain ⟨rest, hrest, h⟩ := except_bind_eq_ok.1 h
      cases h
      obtain ⟨hlength, hget⟩ := ih hrest
      refine ⟨by simp [hlength], ?_⟩
      intro j it e hit he
      cases j with
      | zero =>
          obtain rfl : first = it := by simpa using hit
          obtain rfl : x = e := by simpa using he
          exact hx
      | succ j => exact hget j it e (by simpa using hit) (by simpa using he)

/-- What the search of a range finds out about the entries: those from `idx` on are
larger than the value. -/
private def SplitsAt (container main : List Int) (number : Int) (bound idx : Nat) : Prop :=
  ∀ j, j < bound → ∃ it e, main[j]? = some it ∧ deref container it = .ok e ∧ (number < e ↔ idx ≤ j)

private theorem upperBound_splits {bound : Int} {idx : Nat}
    (h : upperBound container main bound value = .ok idx) :
    (0 ≤ bound ∧ bound ≤ main.length) ∧ idx ≤ bound.toNat ∧
      ∃ number, deref container value = .ok number ∧
        SplitsAt container main number bound.toNat idx := by
  unfold upperBound at h
  split at h
  · next hbound =>
      obtain ⟨number, hnumber, h⟩ := except_bind_eq_ok.1 h
      obtain ⟨range, hrange, h⟩ := except_bind_eq_ok.1 h
      obtain ⟨hlength, hget⟩ := mapM_deref hrange
      simp only at h
      split at h
      · next hall =>
          cases h
          have hsize : range.length = bound.toNat := by
            rw [hlength, List.length_take]
            omega
          refine ⟨hbound, hsize ▸ List.findIdx_le_length, number, hnumber, ?_⟩
          intro j hj
          have hjrange : j < range.length := by omega
          have hjmain : j < main.length := by omega
          refine ⟨main[j], range[j], List.getElem?_eq_getElem hjmain, ?_, ?_⟩
          · refine hget j _ _ ?_ (List.getElem?_eq_getElem hjrange)
            rw [List.getElem?_take_of_lt hj, List.getElem?_eq_getElem hjmain]
          · constructor
            · intro hless
              by_contra hlt
              have hnot := List.not_of_lt_findIdx (Nat.lt_of_not_le hlt)
              simp [hless] at hnot
            · intro hle
              have hmem : range[j] ∈ range.drop (range.findIdx fun e => decide (number < e)) := by
                rw [List.mem_drop_iff_getElem]
                exact ⟨j - range.findIdx fun e => decide (number < e), by omega, by congr 1; omega⟩
              exact of_decide_eq_true (List.all_eq_true.1 hall _ hmem)
      · cases h
  · cases h

/-- The halving of fewer than `2 ^ k` entries. -/
private theorem search_count {bound idx : Nat} (hvalue : deref container value = .ok number)
    (hsplit : SplitsAt container main number bound idx) (k : Nat) :
    ∀ (fuel first len count : Nat), len ≤ fuel → len < 2 ^ k → first ≤ idx → idx ≤ first + len →
      first + len ≤ bound →
      ∃ more, countedWhile .outOfFuel (fun s : Nat × Nat => s.2 != 0)
        (searchRound container main value) fuel (first, len) count = .ok ((idx, 0), more) ∧
        more ≤ count + k := by
  induction k with
  | zero =>
      intro fuel first len count _ hlen hfirst hlast _
      obtain rfl : len = 0 := by omega
      obtain rfl : first = idx := by omega
      exact ⟨count, boundedWhile_exit _ _ _ _ (_, count) (by simp), le_rfl⟩
  | succ k ih =>
      intro fuel first len count hfuel hlen hfirst hlast hbound
      by_cases hzero : len = 0
      · subst hzero
        obtain rfl : first = idx := by omega
        exact ⟨count, boundedWhile_exit _ _ _ _ (_, count) (by simp), by omega⟩
      obtain ⟨fuel, rfl⟩ : ∃ less, fuel = less + 1 := ⟨fuel - 1, by omega⟩
      rw [pow_succ] at hlen
      obtain ⟨it, e, hit, he, hiff⟩ := hsplit (first + len / 2) (by omega)
      have hentry : deref main ((first + len / 2 : Nat) : Int) = .ok it := deref_of_getElem? hit
      have hround : searchRound container main value (first, len) count =
          .ok (if number < e then (first, len / 2) else (first + len / 2 + 1, len - len / 2 - 1),
            count + 1) := by
        have hcomp : countedComp container value it count =
            .ok (decide (number < e), count + 1) := by
          simp only [countedComp, comp, hvalue, he]
          rfl
        simp only [searchRound, liftM, monadLift, MonadLift.monadLift, bind, StateT.bind, StateT.lift,
          Except.bind, hentry, pure, Except.pure, hcomp]
        by_cases hless : number < e
        · rw [decide_eq_true hless, if_pos hless]
          rfl
        · rw [decide_eq_false hless, if_neg hless]
          rfl
      have hrest : ∃ more, countedWhile .outOfFuel (fun s : Nat × Nat => s.2 != 0)
          (searchRound container main value) fuel
          (if number < e then (first, len / 2) else (first + len / 2 + 1, len - len / 2 - 1))
          (count + 1) = .ok ((idx, 0), more) ∧ more ≤ count + 1 + k := by
        by_cases hless : number < e
        · have hle := hiff.1 hless
          rw [if_pos hless]
          exact ih fuel _ _ _ (by omega) (by omega) hfirst hle (by omega)
        · have hlt : ¬ idx ≤ first + len / 2 := fun hle => hless (hiff.2 hle)
          rw [if_neg hless]
          exact ih fuel _ _ _ (by omega) (by omega) (by omega) (by omega) (by omega)
      obtain ⟨more, hrun, hmore⟩ := hrest
      refine ⟨more, ?_, by omega⟩
      change boundedWhile _ _ _ (fuel + 1) ((first, len), count) = _
      rw [boundedWhile_round _ _ _ _ _ (by simpa using hzero), hround]
      exact hrun

/-- A search of fewer than `2 ^ k` entries calls `_comp` at most `k` times. -/
theorem counts_upperBound {bound : Int} {k : Nat} (hk : bound < 2 ^ k) :
    Counts (countedUpperBound container main bound value) (upperBound container main bound value)
      fun _ => k := by
  intro idx hidx count
  obtain ⟨hbound, hle, number, hnumber, hsplit⟩ := upperBound_splits hidx
  have hlen : bound.toNat < 2 ^ k := by
    have hcast : ((bound.toNat : Nat) : Int) < ((2 ^ k : Nat) : Int) := by
      push_cast
      omega
    exact_mod_cast hcast
  obtain ⟨more, hrun, hmore⟩ := search_count hnumber hsplit k bound.toNat 0 bound.toNat count le_rfl
    hlen (Nat.zero_le _) (by omega) (by omega)
  refine ⟨more, ?_, by push_cast; omega⟩
  rw [countedUpperBound, if_pos hbound]
  change (countedWhile _ _ _ _ _ count >>= fun p => _) = _
  rw [hrun]
  rfl

end Search

section Rounds

private theorem store_length {container next : List Int} {it value : Int}
    (h : store container it value = .ok next) : next.length = container.length := by
  unfold store at h
  split at h
  · cases h
    exact List.length_set
  · cases h

private theorem swapPair_length {fuel : Nat} {container next : List Int} {it pairLevel : Int}
    (h : swapPair fuel container it pairLevel = .ok next) : next.length = container.length := by
  obtain ⟨s, hs, h⟩ := except_bind_eq_ok.1 h
  cases h
  have hkeep : ∀ s next : List Int × Int, s.1.length = container.length →
      swapRound pairLevel s = .ok next → next.1.length = container.length := by
    intro s next hlength hround
    obtain ⟨swapped, hswap, hround⟩ := except_bind_eq_ok.1 hround
    cases hround
    obtain ⟨first, -, hswap⟩ := except_bind_eq_ok.1 hswap
    obtain ⟨second, -, hswap⟩ := except_bind_eq_ok.1 hswap
    obtain ⟨half, hhalf, hswap⟩ := except_bind_eq_ok.1 hswap
    exact ((store_length hswap).trans (store_length hhalf)).trans hlength
  obtain ⟨hlength, -⟩ := boundedWhile_partial _ _ _ (fun s => s.1.length = container.length)
    (fun s next hs _ hround => hkeep s next hs hround) _ _ _ rfl hs
  exact hlength

theorem pairRound_next {fuel : Nat} {pairLevel : Int} {s next : List Int × Int}
    (h : pairRound fuel pairLevel s = .ok next) :
    next.2 = s.2 + 2 * pairLevel ∧ next.1.length = s.1.length := by
  obtain ⟨swapped, -, h⟩ := except_bind_eq_ok.1 h
  simp only at h
  split at h
  · obtain ⟨container, hswap, h⟩ := except_bind_eq_ok.1 h
    cases h
    exact ⟨rfl, swapPair_length hswap⟩
  · cases h
    exact ⟨rfl, rfl⟩

theorem counts_pairRound {fuel : Nat} {pairLevel : Int} {s : List Int × Int} :
    Counts (countedPairRound fuel pairLevel s) (pairRound fuel pairLevel s) fun _ => 1 := by
  refine counts_bind (fun _ _ => 0) (counts_comp _ _ _) (fun swapped _ => ?_) fun _ _ _ _ => le_rfl
  simp only
  split
  · exact counts_bind (fun _ _ => 0) (counts_lift _) (fun _ _ => counts_pure _) fun _ _ _ _ => le_rfl
  · exact counts_pure _

variable {container : List Int}

private theorem upperBound_le {main : List Int} {bound value : Int} {idx : Nat}
    (h : upperBound container main bound value = .ok idx) : idx ≤ main.length := by
  obtain ⟨hbound, hle, -⟩ := upperBound_splits h
  omega

theorem groupRound_next {curr inserted : Int} {s next : Group}
    (h : groupRound container curr inserted s = .ok next) :
    next.boundIt = curr + inserted - next.offset ∧ s.offset ≤ next.offset ∧
      next.nbrOfTimes = s.nbrOfTimes - 1 ∧ (next.main.length : Int) = s.main.length + 1 ∧
      (next.pend.length : Int) = s.pend.length - 1 := by
  obtain ⟨value, hvalue, h⟩ := except_bind_eq_ok.1 h
  obtain ⟨idx, hidx, h⟩ := except_bind_eq_ok.1 h
  cases h
  obtain ⟨-, hpend⟩ := deref_eq_ok hvalue
  obtain ⟨hlt, -⟩ := List.getElem?_eq_some_iff.1 hpend
  refine ⟨rfl, ?_, rfl, ?_, ?_⟩
  · simp only
    split <;> omega
  · simp only [List.length_insertIdx_of_le_length (upperBound_le hidx)]
    push_cast
    rfl
  · simp only [List.length_eraseIdx_of_lt hlt]
    omega

theorem counts_groupRound {curr inserted : Int} {s : Group} {k : Nat} (hk : s.boundIt < 2 ^ k) :
    Counts (countedGroupRound container curr inserted s) (groupRound container curr inserted s)
      fun _ => k := by
  refine counts_bind (fun _ _ => k) (counts_lift _) (fun value _ => ?_)
    fun _ _ _ _ => (zero_add _).le
  exact counts_bind (fun _ _ => 0) (counts_upperBound hk) (fun _ _ => counts_pure _)
    fun _ _ _ _ => (add_zero _).le

/-- What holds at each round of group `k`, which has inserted `start.nbrOfTimes` less
`g.nbrOfTimes` entries. -/
private structure InGroup (curr inserted : Int) (start g : Group) : Prop where
  offset : 0 ≤ g.offset
  boundIt : g.boundIt ≤ curr + inserted
  main : (g.main.length : Int) = start.main.length + (start.nbrOfTimes - g.nbrOfTimes)
  pend : (g.pend.length : Int) = start.pend.length - (start.nbrOfTimes - g.nbrOfTimes)

private theorem InGroup.next {curr inserted : Int} {start g next : Group}
    (h : InGroup curr inserted start g) (hround : groupRound container curr inserted g = .ok next) :
    InGroup curr inserted start next := by
  obtain ⟨hbound, hoffset, htimes, hmain, hpend⟩ := groupRound_next hround
  obtain ⟨hnonneg, -, hmain', hpend'⟩ := h
  exact ⟨by omega, by omega, by omega, by omega⟩

private def groupStart (s : Chains) : Group where
  main := s.main
  pend := s.pend
  pendIt := s.jacobsthalDiff - 1
  boundIt := jacobsthalNumber s.k + s.insertedNumbers
  offset := 0
  nbrOfTimes := s.jacobsthalDiff

private theorem inGroup_start (s : Chains) :
    InGroup (jacobsthalNumber s.k) s.insertedNumbers (groupStart s) (groupStart s) :=
  ⟨le_rfl, le_rfl, by omega, by omega⟩

theorem chainsRound_next {fuel : Nat} {s next : Chains}
    (h : chainsRound fuel container s = .ok next) :
    next.k = s.k + 1 ∧ next.prevJacobsthal = jacobsthalNumber s.k ∧
      next.insertedNumbers = s.insertedNumbers + s.jacobsthalDiff ∧
      (next.main.length : Int) = s.main.length + s.jacobsthalDiff ∧
      (next.pend.length : Int) = s.pend.length - s.jacobsthalDiff := by
  obtain ⟨g, hgroup, h⟩ := except_bind_eq_ok.1 h
  cases h
  obtain ⟨hg, hexit⟩ := boundedWhile_partial _ _ _
    (InGroup (jacobsthalNumber s.k) s.insertedNumbers (groupStart s))
    (fun g next hg _ hround => hg.next hround) fuel (groupStart s) g (inGroup_start s) hgroup
  have htimes : g.nbrOfTimes = 0 := by simpa using hexit
  obtain ⟨-, -, hmain, hpend⟩ := hg
  rw [htimes, sub_zero] at hmain hpend
  exact ⟨rfl, rfl, rfl, hmain, hpend⟩

/-- The group inserts `jacobsthalDiff` entries, each by a search of fewer than `2 ^ k`. -/
theorem counts_chainsRound {fuel : Nat} {s : Chains} {k : Nat}
    (hk : jacobsthalNumber s.k + s.insertedNumbers < 2 ^ k) :
    Counts (countedChainsRound fuel container s) (chainsRound fuel container s)
      fun _ => s.jacobsthalDiff * k := by
  have hloop : Counts
      (countedWhile Fault.outOfFuel (fun g : Group => g.nbrOfTimes != 0)
        (countedGroupRound container (jacobsthalNumber s.k) s.insertedNumbers) fuel (groupStart s))
      (boundedWhile Fault.outOfFuel (fun g : Group => g.nbrOfTimes != 0)
        (groupRound container (jacobsthalNumber s.k) s.insertedNumbers) fuel (groupStart s))
      fun g => -g.nbrOfTimes * k - -(groupStart s).nbrOfTimes * k := by
    refine counts_while Fault.outOfFuel
      (InGroup (jacobsthalNumber s.k) s.insertedNumbers (groupStart s)) (fun g => -g.nbrOfTimes * k)
      (fun g next hg _ hround => hg.next hround) (fun g hg _ => ?_) fuel _ (inGroup_start s)
    apply (counts_groupRound (hg.boundIt.trans_lt hk)).mono
    intro next hnext
    obtain ⟨-, -, htimes, -⟩ := groupRound_next hnext
    rw [htimes]
    exact (by ring : (k : Int) = -(g.nbrOfTimes - 1) * k - -g.nbrOfTimes * k).le
  apply counts_bind (fun _ _ => 0) hloop (fun _ _ => counts_pure _)
  intro g _ hgroup _
  obtain ⟨-, hexit⟩ := boundedWhile_partial _ _ _ (fun _ => True) (fun _ _ _ _ _ => trivial) fuel
    (groupStart s) g trivial hgroup
  have htimes : g.nbrOfTimes = 0 := by simpa using hexit
  rw [htimes, groupStart]
  simp

end Rounds

section Insertions

variable {container : List Int} {pairs odd : Nat}

theorem jacobsthalNumber_add (k : Nat) :
    jacobsthalNumber k + jacobsthalNumber (k + 1) = 2 ^ (k + 1) := by
  have hthis := three_mul_jacobsthalNumber k
  have hnext := three_mul_jacobsthalNumber (k + 1)
  rw [pow_succ (2 : Int) (k + 1), pow_succ (-1 : Int) k] at hnext
  omega

theorem pow_le_jacobsthalNumber (k : Nat) : 2 ^ (k + 1) ≤ 3 * jacobsthalNumber k + 1 := by
  have hthis := three_mul_jacobsthalNumber k
  rcases neg_one_pow_eq_or Int k with hsign | hsign <;> rw [hsign] at hthis <;> omega

/-- What holds at each round of the loop over the Jacobsthal numbers. -/
structure InChains (pairs odd : Nat) (s : Chains) : Prop where
  k : 2 ≤ s.k
  prev : s.prevJacobsthal = jacobsthalNumber (s.k - 1)
  inserted : s.insertedNumbers = s.prevJacobsthal - 1
  main : (s.main.length : Int) = pairs + s.prevJacobsthal
  pend : (s.pend.length : Int) = pairs + odd - s.prevJacobsthal

theorem InChains.next {fuel : Nat} {s next : Chains} (h : InChains pairs odd s)
    (hround : chainsRound fuel container s = .ok next) : InChains pairs odd next := by
  obtain ⟨hk, hprev, hinserted, hmain, hpend⟩ := chainsRound_next hround
  have hdiff : s.jacobsthalDiff = next.prevJacobsthal - s.prevJacobsthal := by
    rw [hprev, Chains.jacobsthalDiff]
  have hone := h.k
  obtain ⟨-, -, hinserted', hmain', hpend'⟩ := h
  refine ⟨by omega, ?_, by omega, by omega, by omega⟩
  rw [hprev, hk, Nat.add_sub_cancel]

/-- The Jacobsthal numbers of the group to come, as natural numbers. -/
theorem InChains.numbers {s : Chains} (h : InChains pairs odd s) :
    ∃ prev count : Nat, s.prevJacobsthal = prev ∧ s.jacobsthalDiff = count ∧
      jacobsthalNumber s.k = (prev + count : Nat) ∧ 1 ≤ prev ∧ 2 ^ s.k ≤ 3 * prev + 1 ∧
      2 * prev + count = 2 ^ s.k := by
  obtain ⟨k, hk⟩ : ∃ k, s.k = k + 1 + 1 := ⟨s.k - 2, by have := h.k; omega⟩
  have hprev := h.prev
  rw [hk, Nat.add_sub_cancel] at hprev
  have hpow := pow_le_jacobsthalNumber (k + 1)
  have hsum := jacobsthalNumber_add (k + 1)
  have hgrow := jacobsthalNumber_lt_succ (Nat.le_add_left 1 k)
  have hfour : (2 : Int) ^ 2 ≤ 2 ^ (k + 1 + 1) := pow_le_pow_right₀ (by norm_num) (by omega)
  have hdiff : s.jacobsthalDiff = jacobsthalNumber (k + 1 + 1) - jacobsthalNumber (k + 1) := by
    rw [Chains.jacobsthalDiff, hprev, hk]
  obtain ⟨prev, hnat⟩ := Int.eq_ofNat_of_zero_le (show 0 ≤ jacobsthalNumber (k + 1) by omega)
  obtain ⟨count, hcount⟩ := Int.eq_ofNat_of_zero_le (show 0 ≤ s.jacobsthalDiff by omega)
  rw [hnat] at hpow hsum hdiff hgrow
  refine ⟨prev, count, hprev.trans hnat, hcount, ?_, by omega, ?_, ?_⟩
  · rw [hk]
    omega
  · rw [hk]
    exact_mod_cast hpow
  · have hcast : ((2 * prev + count : Nat) : Int) = 2 ^ (k + 1 + 1) := by omega
    rw [hk]
    exact_mod_cast hcast

theorem counts_chains {fuel : Nat} {s : Chains} (hs : InChains pairs odd s) :
    Counts
      (countedWhile .outOfFuel (fun s : Chains => decide (s.jacobsthalDiff ≤ s.pend.length))
        (countedChainsRound fuel container) fuel s)
      (boundedWhile .outOfFuel (fun s : Chains => decide (s.jacobsthalDiff ≤ s.pend.length))
        (chainsRound fuel container) fuel s)
      fun final => insertionTerms final.prevJacobsthal.toNat -
        insertionTerms s.prevJacobsthal.toNat := by
  refine counts_while Fault.outOfFuel (InChains pairs odd)
    (fun s => insertionTerms s.prevJacobsthal.toNat) (fun s next h _ hround => h.next hround)
    (fun s h _ => ?_) fuel s hs
  obtain ⟨prev, count, hprev, hcount, hcurr, hone, hlarge, hsum⟩ := h.numbers
  have hbound : jacobsthalNumber s.k + s.insertedNumbers < 2 ^ s.k := by
    have hcast : ((2 * prev + count : Nat) : Int) = 2 ^ s.k := by exact_mod_cast hsum
    rw [h.inserted, hprev, hcurr]
    omega
  apply (counts_chainsRound hbound).mono
  intro next hnext
  obtain ⟨-, hnextPrev, -⟩ := chainsRound_next hnext
  rw [hnextPrev, hcurr, hprev, hcount, Int.toNat_natCast, Int.toNat_natCast]
  exact mul_le_insertionTerms hone hlarge

theorem remainingRound_next {pend : List Int} {isOdd : Bool} {s next : Int × List Int}
    (h : remainingRound container pend isOdd s = .ok next) :
    next.1 = s.1 - 1 ∧ (next.2.length : Int) = s.2.length + 1 := by
  obtain ⟨value, -, h⟩ := except_bind_eq_ok.1 h
  obtain ⟨idx, hidx, h⟩ := except_bind_eq_ok.1 h
  cases h
  refine ⟨rfl, ?_⟩
  simp only [List.length_insertIdx_of_le_length (upperBound_le hidx)]
  push_cast
  rfl

theorem counts_remainingRound {pend : List Int} {isOdd : Bool} {s : Int × List Int} {k : Nat}
    (hk : (s.2.length : Int) - pend.length + s.1 + (if isOdd then 1 else 0) < 2 ^ k) :
    Counts (countedRemainingRound container pend isOdd s) (remainingRound container pend isOdd s)
      fun _ => k := by
  refine counts_bind (fun _ _ => k) (counts_lift _) (fun value _ => ?_)
    fun _ _ _ _ => (zero_add _).le
  exact counts_bind (fun _ _ => 0) (counts_upperBound hk) (fun _ _ => counts_pure _)
    fun _ _ _ _ => (add_zero _).le

/-- What no Jacobsthal number reaches goes in by searches of fewer than `2 ^ k`
entries as well. -/
theorem counts_remaining {fuel : Nat} {s : Chains} (h : InChains pairs odd s) (hodd : odd ≤ 1)
    (hexit : ¬ s.jacobsthalDiff ≤ s.pend.length) :
    Counts
      (countedWhile .outOfFuel (fun s : Int × List Int => decide (0 ≤ s.1))
        (countedRemainingRound container s.pend (decide (odd = 1))) fuel
        ((s.pend.length : Int) - 1, s.main))
      (boundedWhile .outOfFuel (fun s : Int × List Int => decide (0 ≤ s.1))
        (remainingRound container s.pend (decide (odd = 1))) fuel
        ((s.pend.length : Int) - 1, s.main))
      fun _ => insertionTerms (pairs + odd) - insertionTerms s.prevJacobsthal.toNat := by
  obtain ⟨prev, count, hprev, hcount, hcurr, hone, hlarge, hsum⟩ := h.numbers
  have hmain := h.main
  have hpend := h.pend
  rw [hprev] at hmain hpend
  rw [hcount] at hexit
  have hlast : pairs + odd = prev + s.pend.length := by omega
  have hisOdd : (if decide (odd = 1) = true then (1 : Int) else 0) = odd := by
    rcases Nat.le_one_iff_eq_zero_or_eq_one.1 hodd with rfl | rfl <;> rfl
  have hround : ∀ r next : Int × List Int, (-1 ≤ r.1 ∧ (r.2.length : Int) + r.1 =
      s.main.length + s.pend.length - 1) → decide (0 ≤ r.1) = true →
      remainingRound container s.pend (decide (odd = 1)) r = .ok next →
      -1 ≤ next.1 ∧ (next.2.length : Int) + next.1 = s.main.length + s.pend.length - 1 := by
    intro r next hr hcond hnext
    have hnonneg : 0 ≤ r.1 := of_decide_eq_true hcond
    obtain ⟨hfirst, hlength⟩ := remainingRound_next hnext
    omega
  have hpow : ((2 * prev + count : Nat) : Int) = 2 ^ s.k := by exact_mod_cast hsum
  have hloop : Counts
      (countedWhile .outOfFuel (fun r : Int × List Int => decide (0 ≤ r.1))
        (countedRemainingRound container s.pend (decide (odd = 1))) fuel
        ((s.pend.length : Int) - 1, s.main))
      (boundedWhile .outOfFuel (fun r : Int × List Int => decide (0 ≤ r.1))
        (remainingRound container s.pend (decide (odd = 1))) fuel
        ((s.pend.length : Int) - 1, s.main))
      fun final => -final.1 * s.k - -((s.pend.length : Int) - 1) * s.k := by
    refine counts_while Fault.outOfFuel _ (fun r : Int × List Int => -r.1 * s.k) hround
      (fun r hr _ => ?_) fuel _ ⟨by omega, by simp only; omega⟩
    refine (counts_remainingRound (k := s.k) ?_).mono fun next hnext => ?_
    · rw [hisOdd]
      omega
    · obtain ⟨hfirst, -⟩ := remainingRound_next hnext
      rw [hfirst]
      exact (by ring : (s.k : Int) = -(r.1 - 1) * s.k - -r.1 * s.k).le
  apply hloop.mono
  intro final hfinal
  obtain ⟨⟨hlow, -⟩, hdone⟩ := boundedWhile_partial _ _ _ _ hround fuel _ final
    ⟨by omega, by simp only; omega⟩ hfinal
  have hfinal' : final.1 = -1 := by
    have hnot : ¬ 0 ≤ final.1 := by simpa using hdone
    omega
  have hterms : (s.pend.length : Int) * s.k ≤
      insertionTerms (prev + s.pend.length) - insertionTerms prev :=
    mul_le_insertionTerms hone hlarge
  rw [hfinal', hlast, hprev, Int.toNat_natCast]
  linarith

end Insertions

theorem counts_pairs {fuel rounds : Nat} {container : List Int} {pairLevel : Int} {pairs : Nat}
    (hpos : 0 < pairLevel) :
    Counts
      (countedWhile .outOfFuel (fun s : List Int × Int => s.2 != 2 * pairLevel * pairs)
        (countedPairRound fuel pairLevel) rounds (container, 0))
      (boundedWhile .outOfFuel (fun s : List Int × Int => s.2 != 2 * pairLevel * pairs)
        (pairRound fuel pairLevel) rounds (container, 0))
      fun _ => pairs := by
  have hlevel : 2 * pairLevel ≠ 0 := by omega
  have hloop : Counts
      (countedWhile .outOfFuel (fun s : List Int × Int => s.2 != 2 * pairLevel * pairs)
        (countedPairRound fuel pairLevel) rounds (container, 0))
      (boundedWhile .outOfFuel (fun s : List Int × Int => s.2 != 2 * pairLevel * pairs)
        (pairRound fuel pairLevel) rounds (container, 0))
      fun final => final.2 / (2 * pairLevel) - 0 / (2 * pairLevel) := by
    refine counts_while Fault.outOfFuel (fun _ => True)
      (fun s : List Int × Int => s.2 / (2 * pairLevel)) (fun _ _ _ _ _ => trivial) (fun s _ _ => ?_)
      rounds _ trivial
    apply counts_pairRound.mono
    intro next hnext
    rw [(pairRound_next hnext).1, Int.add_ediv_of_dvd_right (dvd_refl _), Int.ediv_self hlevel]
    omega
  apply hloop.mono
  intro final hfinal
  obtain ⟨-, hexit⟩ := boundedWhile_partial _ _ _ (fun _ => True) (fun _ _ _ _ _ => trivial) rounds
    (container, 0) final trivial hfinal
  have hstop : final.2 = 2 * pairLevel * pairs := by simpa using hexit
  rw [hstop, Int.mul_ediv_cancel_left _ hlevel]
  simp

theorem fordJohnson_nonneg_of_lt_two {n : Nat} (h : n < 2) : 0 ≤ fordJohnson n := by
  interval_cases n
  · rfl
  · rw [fordJohnson_succ]
    have hone := fordJohnsonTerm_one
    simpa [fordJohnson] using hone

theorem inChains_start (pairLevel stop : Int) {pairs odd : Nat} (hpairs : 1 ≤ pairs)
    (hodd : odd ≤ 1) :
    InChains pairs odd {
      k := 2
      prevJacobsthal := jacobsthalNumber 1
      insertedNumbers := 0
      main := initialMain pairLevel ((2 * pairs + odd : Nat) : Int)
      pend := initialPend pairLevel ((2 * pairs + odd : Nat) : Int) stop (decide (odd = 1)) } := by
  have hfirst : jacobsthalNumber 1 = 1 := by decide
  have hindices : (pairIndices ((2 * pairs + odd : Nat) : Int)).length = pairs - 1 := by
    rw [pairIndices, List.length_range', Int.toNat_natCast]
    omega
  refine ⟨le_rfl, rfl, by rw [hfirst]; rfl, ?_, ?_⟩
  · simp only [initialMain, List.length_cons, List.length_map, hindices, hfirst]
    omega
  · simp only [initialPend, List.length_append, List.length_map, hindices, hfirst]
    rcases Nat.le_one_iff_eq_zero_or_eq_one.1 hodd with rfl | rfl <;> simp <;> omega

/-- A level calls `_comp` no more often than the bound for the number of its units. -/
theorem counts_sort (fuel : Nat) : ∀ (container : List Int) (pairLevel : Int), 0 < pairLevel →
    Counts (countedSort fuel container pairLevel) (mergeInsertionSort fuel container pairLevel)
      fun _ => fordJohnson ((container.length : Int) / pairLevel).toNat := by
  induction fuel with
  | zero => exact fun _ _ _ => counts_error
  | succ fuel ih =>
      intro container pairLevel hpos
      obtain ⟨units, hunits⟩ := Int.eq_ofNat_of_zero_le
        (Int.ediv_nonneg (Int.natCast_nonneg container.length) hpos.le)
      rw [countedSort, mergeInsertionSort, hunits]
      simp only [Int.toNat_natCast]
      split
      · next hfew =>
          exact (counts_pure _).mono fun _ _ => fordJohnson_nonneg_of_lt_two (by exact_mod_cast hfew)
      · next hmany =>
          obtain ⟨pairs, odd, rfl, hodd⟩ : ∃ pairs odd : Nat, units = 2 * pairs + odd ∧ odd ≤ 1 :=
            ⟨units / 2, units % 2, by omega, by omega⟩
          have hpairs : 1 ≤ pairs := by omega
          have hisOdd : decide (((2 * pairs + odd : Nat) : Int) % 2 = 1) = decide (odd = 1) :=
            decide_eq_decide.2 (by omega)
          have hstop : pairLevel * ((2 * pairs + odd : Nat) : Int) +
              -((if decide (odd = 1) = true then 1 else 0) * pairLevel) = 2 * pairLevel * pairs := by
            rcases Nat.le_one_iff_eq_zero_or_eq_one.1 hodd with rfl | rfl <;> simp <;> ring
          have hlevel := level_le_fordJohnson hpairs hodd
          have hstart := inChains_start pairLevel (2 * pairLevel * pairs) hpairs hodd
          simp only [hisOdd, hstop]
          refine counts_bind (fun _ _ => fordJohnson pairs + insertionTerms (pairs + odd))
            (counts_pairs hpos) (fun paired hpaired => ?_) fun _ _ _ _ => by linarith
          obtain ⟨hlength, -⟩ := boundedWhile_partial _ _ _
            (fun s => s.1.length = container.length)
            (fun s next hs _ hround => (pairRound_next hround).2.trans hs) _ _ _ rfl hpaired
          have hnext : (paired.1.length : Int) / (pairLevel * 2) = pairs := by
            rw [hlength, ← Int.ediv_ediv_of_nonneg hpos.le, hunits]
            omega
          refine counts_bind (fun _ _ => insertionTerms (pairs + odd))
            (ih paired.1 (pairLevel * 2) (by omega)) (fun sorted _ => ?_) fun _ _ _ _ => ?_
          · refine counts_bind (fun chains _ => insertionTerms (pairs + odd) -
              insertionTerms chains.prevJacobsthal.toNat) (counts_chains hstart)
              (fun chains hchains => ?_) fun chains _ _ _ => ?_
            · obtain ⟨hin, hexit⟩ := boundedWhile_partial _ _ _ (InChains pairs odd)
                (fun s next h _ hround => h.next hround) _ _ _ hstart hchains
              refine counts_bind (fun _ _ => 0)
                (counts_remaining hin hodd (of_decide_eq_false hexit)) (fun remaining _ => ?_)
                fun _ _ _ _ => (add_zero _).le
              exact counts_bind (fun _ _ => 0) (counts_lift _) (fun copy _ => counts_lift _)
                fun _ _ _ _ => le_rfl
            · have hnone : insertionTerms (jacobsthalNumber 1).toNat = 0 := by
                rw [show (jacobsthalNumber 1).toNat = 1 by decide]
                rfl
              simp only [hnone]
              linarith
          · simp only [hnext, Int.toNat_natCast]
            exact le_rfl

end FortyTwo.PmergeMe
