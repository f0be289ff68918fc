import FortyTwo.PmergeMe.MainChain
import FortyTwo.PmergeMe.MergeInsertion

/-!
The two insertion loops of a level. Inside a group the code's counters name the
bound of `MainChain`; the loop over the Jacobsthal numbers and the loop over
what they leave end with every pending iterator in a sorted main chain.
-/

namespace FortyTwo.PmergeMe

open Foundation

/-- The iterator stands in its container. -/
def Inside {α : Type} (xs : List α) (it : Int) : Prop :=
  0 ≤ it ∧ it < xs.length

/-- The number an iterator stands on. -/
def number (container : List Int) (it : Int) : Int :=
  container.getD it.toNat 0

theorem deref_of_getElem? {α : Type} {xs : List α} {j : Nat} {x : α} (h : xs[j]? = some x) :
    deref xs (j : Int) = .ok x := by
  simp [deref, h]

theorem deref_ok {container : List Int} {it : Int} (h : Inside container it) :
    deref container it = .ok (number container it) := by
  obtain ⟨hnonneg, hlen⟩ := h
  have hnat : it.toNat < container.length := by omega
  have hget : container[it.toNat]? = some (number container it) := by
    rw [number, List.getD_eq_getElem?_getD, List.getElem?_eq_getElem hnat]
    rfl
  have hderef := deref_of_getElem? hget
  rwa [Int.toNat_of_nonneg hnonneg] at hderef

theorem mapM_deref_ok {container : List Int} (its : List Int)
    (h : ∀ it ∈ its, Inside container it) :
    its.mapM (deref container) = .ok (its.map (number container)) := by
  induction its with
  | nil => rfl
  | cons it rest ih =>
      rw [List.mapM_cons, deref_ok (h it (by simp)), ih fun other hother =>
        h other (List.mem_cons_of_mem _ hother)]
      rfl

/-- The search meets what it asks for in a sorted chain, and finds the place of
the library's bounded search. -/
theorem upperBound_ok {container : List Int} {main : List Int} {bound : Nat}
    (value : Int) (hmain : ∀ it ∈ main, Inside container it)
    (hvalue : Inside container value) (hbound : bound ≤ main.length)
    (hsorted : SortedBy (number container) main) :
    upperBound container main bound value =
      .ok (boundedUpper (number container) bound (number container value) main) := by
  have hrange := mapM_deref_ok (main.take bound) fun it hit =>
    hmain it (List.mem_of_mem_take hit)
  have hidx : ((main.take bound).map (number container)).findIdx
      (fun e => decide (number container value < e)) =
      boundedUpper (number container) bound (number container value) main := by
    rw [List.findIdx_map, boundedUpper]
    rfl
  have hpartitioned : (((main.take bound).map (number container)).drop
      (boundedUpper (number container) bound (number container value) main)).all
      (fun e => decide (number container value < e)) = true := by
    rw [List.all_eq_true]
    intro e he
    obtain ⟨j, hj⟩ := List.mem_iff_getElem?.1 he
    rw [List.getElem?_drop, List.getElem?_map] at hj
    obtain ⟨it, hit, rfl⟩ := Option.map_eq_some_iff.1 hj
    obtain ⟨hlen, _⟩ := List.getElem?_eq_some_iff.1 hit
    rw [List.length_take] at hlen
    rw [List.getElem?_take_of_lt (by omega)] at hit
    exact decide_eq_true (lt_of_boundedUpper_le hsorted (Nat.le_add_right _ _) (by omega) hit)
  rw [upperBound, if_pos ⟨Int.natCast_nonneg _, by exact_mod_cast hbound⟩, Int.toNat_natCast,
    deref_ok hvalue, hrange]
  simp only [bind, Except.bind, pure, Except.pure]
  rw [hidx, if_pos hpartitioned]

private theorem pow_two_sub_dvd (n : Nat) : (3 : Int) ∣ 2 ^ (n + 1) + (-1) ^ n := by
  induction n with
  | zero => norm_num
  | succ n ih =>
      have hstep : (2 : Int) ^ (n + 1 + 1) + (-1) ^ (n + 1) =
          2 * (2 ^ (n + 1) + (-1) ^ n) - 3 * (-1) ^ n := by ring
      rw [hstep]
      exact dvd_sub (ih.mul_left 2) (dvd_mul_right _ _)

theorem three_mul_jacobsthalNumber (n : Nat) :
    3 * jacobsthalNumber n = 2 ^ (n + 1) + (-1) ^ n :=
  Int.mul_ediv_cancel' (pow_two_sub_dvd n)

/-- The Jacobsthal numbers from the first on grow, so that no group is empty. -/
theorem jacobsthalNumber_lt_succ {k : Nat} (hk : 1 ≤ k) :
    jacobsthalNumber k < jacobsthalNumber (k + 1) := by
  have hthis := three_mul_jacobsthalNumber k
  have hnext := three_mul_jacobsthalNumber (k + 1)
  have hpow : (2 : Int) ^ 2 ≤ 2 ^ (k + 1) := pow_le_pow_right₀ (by norm_num) (by omega)
  rw [pow_succ (2 : Int) (k + 1), pow_succ (-1 : Int) k] at hnext
  rcases neg_one_pow_eq_or Int k with hsign | hsign <;> rw [hsign] at hthis hnext <;> omega

section Insertion

variable {container : List Int} {a b : Nat → Int} {pairs odd : Nat} {all : List Int}

/-- The pending entries from `first` on. -/
def pending (b : Nat → Int) (first count : Nat) : List Int :=
  (List.range' first count).map b

@[simp] theorem pending_length (b : Nat → Int) (first count : Nat) :
    (pending b first count).length = count := by
  simp [pending]

theorem pending_add (b : Nat → Int) (first left more : Nat) :
    pending b first (left + more) = pending b first left ++ pending b (first + left) more := by
  rw [pending, pending, pending, ← List.map_append, List.range'_append_1]

theorem pending_succ (b : Nat → Int) (first left : Nat) :
    pending b first (left + 1) = pending b first left ++ [b (first + left)] := by
  rw [pending_add]
  rfl

/-- The state of a group with `left` entries to come, `rest` being what is
pending after the group. -/
def groupState (b : Nat → Int) (rest : List Int) (prev left count offset : Nat)
    (main : List Int) : Group where
  main := main
  pend := pending b (prev + 1) left ++ rest
  pendIt := (left : Int) - 1
  boundIt := groupBound prev left count offset
  offset := offset
  nbrOfTimes := left

theorem groupRound_ok (hall : ∀ it ∈ all, Inside container it)
    (hpartners : Partners (number container) a b pairs odd) {rest main : List Int}
    {prev left count offset : Nat}
    (h : MainChain (number container) a pairs prev (left + 1) count offset main)
    (hperm : (main ++ (pending b (prev + 1) (left + 1) ++ rest)).Perm all)
    (hprev : 1 ≤ prev) (hroom : prev + (left + 1) + count ≤ pairs + odd)
    (hoffset : offset ≤ 1) {idx : Nat}
    (hidx : idx = boundedUpper (number container) (groupBound prev (left + 1) count offset)
      (number container (b (prev + left + 1))) main) :
    groupRound container ((prev + (left + 1) + count : Nat) : Int) ((prev : Int) - 1)
        (groupState b rest prev (left + 1) count offset main) =
      .ok (groupState b rest prev left (count + 1)
        (offset + if idx = groupBound prev (left + 1) count 0 then 1 else 0)
        (main.insertIdx idx (b (prev + left + 1)))) := by
  have hfirst : prev + 1 + left = prev + left + 1 := by omega
  have hpend : (groupState b rest prev (left + 1) count offset main).pend =
      pending b (prev + 1) left ++ b (prev + left + 1) :: rest := by
    rw [groupState, pending_succ, hfirst, List.append_assoc]
    rfl
  have hderef : deref (groupState b rest prev (left + 1) count offset main).pend
      (groupState b rest prev (left + 1) count offset main).pendIt =
      .ok (b (prev + left + 1)) := by
    have hit : (groupState b rest prev (left + 1) count offset main).pendIt = (left : Int) := by
      simp [groupState]
    rw [hit, hpend]
    apply deref_of_getElem?
    rw [List.getElem?_append_right (by simp)]
    simp
  have hvalue : b (prev + left + 1) ∈ all := by
    apply hperm.subset
    rw [pending_succ, hfirst]
    simp
  have hsearch := upperBound_ok (b (prev + left + 1))
    (fun it hit => hall it (hperm.subset (List.mem_append_left _ hit))) (hall _ hvalue)
    (h.groupBound_le_length hpartners.odd_le hprev hroom) h.sorted
  rw [← hidx] at hsearch
  have herase : (pending b (prev + 1) left ++ b (prev + left + 1) :: rest).eraseIdx left =
      pending b (prev + 1) left ++ rest := by
    rw [List.eraseIdx_append_of_length_le (by simp)]
    simp
  have hidxle : idx ≤ groupBound prev (left + 1) count offset := by
    rw [hidx]
    exact boundedUpper_le_bound _ _ _ _
  have hoffset' := offset_le_one hprev hoffset hidxle
  have hbound : (idx : Int) = ((prev + (left + 1) + count : Nat) : Int) + ((prev : Int) - 1) ↔
      idx = groupBound prev (left + 1) count 0 := by
    rw [groupBound]
    omega
  have hlast : ((left + 1 : Nat) : Int) - 1 = left := by omega
  rw [groupRound, hderef]
  simp only [bind, Except.bind]
  rw [show (groupState b rest prev (left + 1) count offset main).main = main from rfl,
    show (groupState b rest prev (left + 1) count offset main).boundIt =
      (groupBound prev (left + 1) count offset : Int) from rfl, hsearch]
  simp only [pure, Except.pure, groupState, hbound, hlast, Int.toNat_natCast]
  generalize hnext : (offset + if idx = groupBound prev (left + 1) count 0 then 1 else 0) =
    moved at hoffset' ⊢
  have hcast : (offset : Int) + (if idx = groupBound prev (left + 1) count 0 then 1 else 0) =
      moved := by
    rw [← hnext]
    push_cast
    rfl
  have hboundIt : ((prev + (left + 1) + count : Nat) : Int) + ((prev : Int) - 1) - moved =
      groupBound prev left (count + 1) moved := by
    rw [groupBound]
    omega
  have herase' : (pending b (prev + 1) (left + 1) ++ rest).eraseIdx left =
      pending b (prev + 1) left ++ rest := by
    rw [← herase]
    exact congrArg (List.eraseIdx · left) hpend
  rw [hcast, hboundIt, herase']
  rfl

/-- What a group has inserted so far, and what is pending, is what there was. -/
theorem perm_insert {main : List Int} (rest : List Int) {prev left idx : Nat}
    (hidx : idx ≤ main.length)
    (hperm : (main ++ (pending b (prev + 1) (left + 1) ++ rest)).Perm all) :
    (main.insertIdx idx (b (prev + left + 1)) ++ (pending b (prev + 1) left ++ rest)).Perm all := by
  refine List.Perm.trans ?_ hperm
  rw [pending_succ, show prev + 1 + left = prev + left + 1 by omega, List.append_assoc,
    List.singleton_append]
  calc (main.insertIdx idx (b (prev + left + 1)) ++ (pending b (prev + 1) left ++ rest)).Perm
        ((b (prev + left + 1) :: main) ++ (pending b (prev + 1) left ++ rest)) :=
        (List.perm_insertIdx _ _ hidx).append_right _
    _ = b (prev + left + 1) :: ((main ++ pending b (prev + 1) left) ++ rest) := by simp
    List.Perm _ ((main ++ pending b (prev + 1) left) ++ b (prev + left + 1) :: rest) :=
        List.perm_middle.symm
    _ = main ++ (pending b (prev + 1) left ++ b (prev + left + 1) :: rest) := by simp

theorem group_ok (hall : ∀ it ∈ all, Inside container it)
    (hpartners : Partners (number container) a b pairs odd) (rest : List Int) {prev curr : Nat}
    (hprev : 1 ≤ prev) (hroom : curr ≤ pairs + odd) (fuel : Nat) (left : Nat) :
    ∀ (count offset : Nat) (main : List Int), prev + left + count = curr → left ≤ fuel →
      MainChain (number container) a pairs prev left count offset main →
      (main ++ (pending b (prev + 1) left ++ rest)).Perm all →
      (count = 0 → offset = 0) → offset ≤ 1 →
      ∃ offset' main',
        boundedWhile .outOfFuel (fun g : Group => g.nbrOfTimes != 0)
          (groupRound container (curr : Int) ((prev : Int) - 1)) fuel
          (groupState b rest prev left count offset main) =
        .ok (groupState b rest prev 0 (count + left) offset' main') ∧
        MainChain (number container) a pairs prev 0 (count + left) offset' main' ∧
        (main' ++ rest).Perm all := by
  induction left generalizing fuel with
  | zero =>
      intro count offset main _ _ hmain hperm _ _
      refine ⟨offset, main, ?_, hmain, ?_⟩
      · exact boundedWhile_exit _ _ _ _ _ (by simp [groupState])
      · simpa [pending] using hperm
  | succ left ih =>
      intro count offset main hcurr hfuel hmain hperm hfirst hoffset
      obtain ⟨fuel, rfl⟩ : ∃ less, fuel = less + 1 := ⟨fuel - 1, by omega⟩
      have hroom' : prev + (left + 1) + count ≤ pairs + odd := by omega
      obtain ⟨idx, hidx⟩ : ∃ idx, idx = boundedUpper (number container)
        (groupBound prev (left + 1) count offset) (number container (b (prev + left + 1))) main :=
        ⟨_, rfl⟩
      have hround := groupRound_ok hall hpartners hmain hperm hprev hroom' hoffset hidx
      rw [hcurr] at hround
      have hidxle : idx ≤ groupBound prev (left + 1) count offset := by
        rw [hidx]
        exact boundedUpper_le_bound _ _ _ _
      have hidxlen : idx ≤ main.length := by
        rw [hidx]
        exact boundedUpper_le_length _ _ _ _
      obtain ⟨offset', main', hrun, hmain', hperm'⟩ := ih fuel (count + 1) _ _ (by omega)
        (by omega) (hmain.insert hpartners hprev hroom' hfirst hoffset hidx)
        (perm_insert rest hidxlen hperm) (fun h => absurd h (by omega))
        (offset_le_one hprev hoffset hidxle)
      have hcount : count + 1 + left = count + (left + 1) := by omega
      rw [hcount] at hrun hmain'
      refine ⟨offset', main', ?_, hmain', hperm'⟩
      rw [boundedWhile_round _ _ _ _ _ (by simp [groupState]; omega), hround]
      exact hrun

/-- The state of the loop over the Jacobsthal numbers when the entries up to
`prev` are inserted. -/
def chainsState (b : Nat → Int) (pairs odd k prev : Nat) (main : List Int) : Chains where
  k := k
  prevJacobsthal := prev
  insertedNumbers := (prev : Int) - 1
  main := main
  pend := pending b (prev + 1) (pairs + odd - prev)

theorem chainsRound_ok (hall : ∀ it ∈ all, Inside container it)
    (hpartners : Partners (number container) a b pairs odd) {k prev curr : Nat} {main : List Int}
    (hprev : 1 ≤ prev) (hlt : prev < curr) (hroom : curr ≤ pairs + odd)
    (hcurr : jacobsthalNumber k = curr) {fuel : Nat} (hfuel : pairs + odd ≤ fuel)
    (hmain : ∀ more, MainChain (number container) a pairs prev more 0 0 main)
    (hperm : (main ++ pending b (prev + 1) (pairs + odd - prev)).Perm all) :
    ∃ main', chainsRound fuel container (chainsState b pairs odd k prev main) =
        .ok (chainsState b pairs odd (k + 1) curr main') ∧
      (∀ more, MainChain (number container) a pairs curr more 0 0 main') ∧
      (main' ++ pending b (curr + 1) (pairs + odd - curr)).Perm all := by
  obtain ⟨left, rfl⟩ : ∃ left, curr = prev + left := ⟨curr - prev, by omega⟩
  have hpend : pending b (prev + 1) (pairs + odd - prev) =
      pending b (prev + 1) left ++ pending b (prev + left + 1) (pairs + odd - (prev + left)) := by
    rw [show prev + left + 1 = prev + 1 + left by omega, ← pending_add]
    congr 1
    omega
  rw [hpend] at hperm
  obtain ⟨offset, main', hrun, hmain', hperm'⟩ := group_ok hall hpartners _ hprev hroom fuel left
    0 0 main rfl (by omega) (hmain left) hperm (fun _ => rfl) (by omega)
  rw [Nat.zero_add] at hrun hmain'
  refine ⟨main', ?_, hmain'.next, hperm'⟩
  have hdiff : (chainsState b pairs odd k prev main).jacobsthalDiff = left := by
    rw [Chains.jacobsthalDiff, chainsState, hcurr]
    push_cast
    ring
  have hstate : groupState b (pending b (prev + left + 1) (pairs + odd - (prev + left))) prev left
      0 0 main = {
        main := main
        pend := pending b (prev + 1) (pairs + odd - prev)
        pendIt := (left : Int) - 1
        boundIt := ((prev + left : Nat) : Int) + ((prev : Int) - 1)
        offset := 0
        nbrOfTimes := left } := by
    rw [groupState, ← hpend, groupBound]
    congr 1
    omega
  rw [hstate] at hrun
  rw [chainsRound, hdiff]
  simp only [chainsState, hcurr, bind, Except.bind]
  rw [hrun]
  simp only [pure, Except.pure, groupState, pending, List.range'_zero, List.map_nil,
    List.nil_append]
  congr 2
  push_cast
  ring

/-- The states of the loop over the Jacobsthal numbers: the entries up to a
Jacobsthal number are in the chain. -/
def Chained (container : List Int) (a b : Nat → Int) (pairs odd : Nat) (all : List Int)
    (s : Chains) : Prop :=
  ∃ (k prev : Nat) (main : List Int), s = chainsState b pairs odd (k + 1) prev main ∧ 1 ≤ k ∧
    jacobsthalNumber k = prev ∧ 1 ≤ prev ∧ prev ≤ pairs + odd ∧
    (∀ more, MainChain (number container) a pairs prev more 0 0 main) ∧
    (main ++ pending b (prev + 1) (pairs + odd - prev)).Perm all

theorem Chained.round (hall : ∀ it ∈ all, Inside container it)
    (hpartners : Partners (number container) a b pairs odd) {fuel : Nat}
    (hfuel : pairs + odd ≤ fuel) {s : Chains} (h : Chained container a b pairs odd all s)
    (hcond : s.jacobsthalDiff ≤ s.pend.length) :
    ∃ next, chainsRound fuel container s = .ok next ∧
      Chained container a b pairs odd all next ∧ next.pend.length < s.pend.length := by
  obtain ⟨k, prev, main, rfl, hk, hnumber, hprev, hroom, hmain, hperm⟩ := h
  have hgrow := jacobsthalNumber_lt_succ hk
  obtain ⟨curr, hcurr⟩ := Int.eq_ofNat_of_zero_le (show 0 ≤ jacobsthalNumber (k + 1) by omega)
  simp only [Chains.jacobsthalDiff, chainsState, pending_length] at hcond
  obtain ⟨next, hround, hnext, hperm'⟩ := chainsRound_ok hall hpartners hprev
    (show prev < curr by omega) (by omega) hcurr hfuel hmain hperm
  refine ⟨_, hround, ⟨k + 1, curr, next, rfl, by omega, hcurr, by omega, by omega, hnext,
    hperm'⟩, ?_⟩
  simp only [chainsState, pending_length]
  omega

/-- The loop over the Jacobsthal numbers leaves the chain sorted, with a
segment of the pending entries still to come. -/
theorem chains_ok (hall : ∀ it ∈ all, Inside container it)
    (hpartners : Partners (number container) a b pairs odd) {main : List Int} {fuel : Nat}
    (hfuel : pairs + odd ≤ fuel) (hpairs : 1 ≤ pairs + odd)
    (hmain : ∀ more, MainChain (number container) a pairs 1 more 0 0 main)
    (hperm : (main ++ pending b 2 (pairs + odd - 1)).Perm all) :
    ∃ k prev main',
      boundedWhile .outOfFuel (fun s : Chains => decide (s.jacobsthalDiff ≤ s.pend.length))
        (chainsRound fuel container) fuel (chainsState b pairs odd 2 1 main) =
      .ok (chainsState b pairs odd k prev main') ∧
      1 ≤ prev ∧ prev ≤ pairs + odd ∧
      (∀ more, MainChain (number container) a pairs prev more 0 0 main') ∧
      (main' ++ pending b (prev + 1) (pairs + odd - prev)).Perm all := by
  have hstart : Chained container a b pairs odd all (chainsState b pairs odd 2 1 main) :=
    ⟨1, 1, main, rfl, le_refl 1, by decide, le_refl 1, hpairs, hmain, hperm⟩
  obtain ⟨final, hrun, ⟨k, prev, main', rfl, _, _, hprev, hroom, hmain', hperm'⟩, _⟩ :=
    boundedWhile_total Fault.outOfFuel
      (fun s : Chains => decide (s.jacobsthalDiff ≤ s.pend.length)) (chainsRound fuel container)
      (Chained container a b pairs odd all) (fun s => s.pend.length)
      (fun s hs hcond => hs.round hall hpartners hfuel (of_decide_eq_true hcond)) fuel _ hstart
      (by simp only [chainsState, pending_length]; omega)
  exact ⟨k + 1, prev, main', hrun, hprev, hroom, hmain', hperm'⟩

/-- What the Jacobsthal numbers leave goes in from the last entry to the
first, every search ending at the same place. -/
theorem remaining_ok (hall : ∀ it ∈ all, Inside container it)
    (hpartners : Partners (number container) a b pairs odd) (size : Nat) {prev : Nat}
    (hprev : 1 ≤ prev) (hsize : prev + size = pairs + odd) (fuel left : Nat) :
    ∀ (count : Nat) (main : List Int), left + count = size → left ≤ fuel →
      MainChain (number container) a pairs prev left count 0 main →
      (main ++ pending b (prev + 1) left).Perm all →
      ∃ main',
        boundedWhile .outOfFuel (fun s : Int × List Int => decide (0 ≤ s.1))
          (remainingRound container (pending b (prev + 1) size) (decide (odd = 1))) fuel
          ((left : Int) - 1, main) = .ok (-1, main') ∧
        SortedBy (number container) main' ∧ main'.Perm all := by
  induction left generalizing fuel with
  | zero =>
      intro count main _ _ hmain hperm
      refine ⟨main, ?_, hmain.sorted, by simpa [pending] using hperm⟩
      exact boundedWhile_exit _ _ _ _ _ (by simp)
  | succ left ih =>
      intro count main hcount hfuel hmain hperm
      obtain ⟨fuel, rfl⟩ : ∃ less, fuel = less + 1 := ⟨fuel - 1, by omega⟩
      have hodd := hpartners.odd_le
      have hroom : prev + (left + 1) + count ≤ pairs + odd := by omega
      have hderef : deref (pending b (prev + 1) size) (left : Int) = .ok (b (prev + left + 1)) := by
        apply deref_of_getElem?
        rw [← hcount, pending_add, pending_succ, List.append_assoc,
          List.getElem?_append_right (by simp)]
        simp [show prev + 1 + left = prev + left + 1 by omega]
      have hvalue : b (prev + left + 1) ∈ all := by
        apply hperm.subset
        rw [pending_succ, show prev + 1 + left = prev + left + 1 by omega]
        simp
      have hsearch := upperBound_ok (b (prev + left + 1))
        (fun it hit => hall it (hperm.subset (List.mem_append_left _ hit))) (hall _ hvalue)
        (hmain.groupBound_le_length hodd hprev hroom) hmain.sorted
      have hbound : (main.length : Int) - (pending b (prev + 1) size).length + left +
          (if decide (odd = 1) = true then 1 else 0) =
          groupBound prev (left + 1) count 0 := by
        rw [pending_length, hmain.length, groupBound]
        rcases Nat.le_one_iff_eq_zero_or_eq_one.1 hodd with rfl | rfl <;> simp <;> omega
      obtain ⟨main', hrun, hsorted, hperm'⟩ := ih fuel (count + 1) _ (by omega) (by omega)
        (hmain.insert hpartners hprev hroom (fun _ => rfl) (by omega) rfl).weaken
        (by
          have := perm_insert []
            (boundedUpper_le_length (number container) (groupBound prev (left + 1) count 0)
              (number container (b (prev + left + 1))) main) (by simpa using hperm)
          simpa using this)
      refine ⟨main', ?_, hsorted, hperm'⟩
      rw [boundedWhile_round _ _ _ _ _ (by simp)]
      have hlast : ((left + 1 : Nat) : Int) - 1 = left := by omega
      simp only [remainingRound, hlast, hderef, bind, Except.bind, hbound, hsearch, pure,
        Except.pure]
      exact hrun

end Insertion

end FortyTwo.PmergeMe
