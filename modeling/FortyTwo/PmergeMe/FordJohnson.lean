import Mathlib.Analysis.SpecialFunctions.Log.Base
import Mathlib.Tactic

/-!
The Ford-Johnson bound on the comparisons of merge-insertion sort. Its terms of
even number are what the pairs cost, its terms of odd number what the insertions
cost.
-/

namespace FortyTwo.PmergeMe

open Finset

/-- Term `i` of the bound. -/
noncomputable def fordJohnsonTerm (i : Nat) : Int := ⌈Real.logb 2 (3 * i / 4)⌉

noncomputable def fordJohnson (n : Nat) : Int := ∑ i ∈ Icc 1 n, fordJohnsonTerm i

theorem fordJohnson_succ (n : Nat) :
    fordJohnson (n + 1) = fordJohnson n + fordJohnsonTerm (n + 1) :=
  sum_Icc_succ_top (Nat.le_add_left 1 n) _

theorem fordJohnsonTerm_double {m : Nat} (hm : 1 ≤ m) :
    fordJohnsonTerm (2 * m) = fordJohnsonTerm m + 1 := by
  have hpos : (0 : ℝ) < 3 * m / 4 := by
    have : (1 : ℝ) ≤ m := by exact_mod_cast hm
    positivity
  have hdouble : (3 * (2 * m : Nat) / 4 : ℝ) = 2 * (3 * m / 4) := by push_cast; ring
  rw [fordJohnsonTerm, fordJohnsonTerm, hdouble, Real.logb_mul (by norm_num) hpos.ne',
    Real.logb_self_eq_one (by norm_num), Int.ceil_one_add, add_comm]

theorem lt_fordJohnsonTerm {i k : Nat} (h : 4 * 2 ^ k < 3 * i) : (k : Int) < fordJohnsonTerm i := by
  have hreal : (4 * 2 ^ k : ℝ) < 3 * i := by exact_mod_cast h
  have hpow : (0 : ℝ) < 2 ^ k := by positivity
  rw [fordJohnsonTerm, Int.lt_ceil, Real.lt_logb_iff_rpow_lt (by norm_num) (by linarith),
    Int.cast_natCast, Real.rpow_natCast]
  linarith

theorem fordJohnsonTerm_one : 0 ≤ fordJohnsonTerm 1 := by
  have h : (-1 : Int) < fordJohnsonTerm 1 := by
    rw [fordJohnsonTerm, Int.lt_ceil, Real.lt_logb_iff_rpow_lt (by norm_num) (by norm_num)]
    norm_num
  omega

/-- What the insertions of the entries up to `last` cost at most. -/
noncomputable def insertionTerms (last : Nat) : Int := ∑ i ∈ Icc 2 last, fordJohnsonTerm (2 * i - 1)

theorem insertionTerms_succ {last : Nat} (h : 1 ≤ last) :
    insertionTerms (last + 1) = insertionTerms last + fordJohnsonTerm (2 * last + 1) :=
  sum_Icc_succ_top (Nat.succ_le_succ h) _

private theorem fordJohnson_double (pairs : Nat) :
    fordJohnson (2 * pairs) =
      pairs + fordJohnson pairs + ∑ i ∈ Icc 1 pairs, fordJohnsonTerm (2 * i - 1) := by
  induction pairs with
  | zero => simp [fordJohnson]
  | succ pairs ih =>
      have hodd : 2 * (pairs + 1) - 1 = 2 * pairs + 1 := by omega
      have heven : 2 * (pairs + 1) = 2 * pairs + 1 + 1 := by ring
      have hterm := fordJohnsonTerm_double (Nat.le_add_left 1 pairs)
      rw [heven] at hterm
      rw [heven, fordJohnson_succ, fordJohnson_succ, fordJohnson_succ, ih, hterm,
        sum_Icc_succ_top (by omega), hodd]
      push_cast
      ring

/-- The bound covers one level: a comparison for each pair, the next level, and the
insertions. -/
theorem level_le_fordJohnson {pairs odd : Nat} (hpairs : 1 ≤ pairs) (hodd : odd ≤ 1) :
    pairs + fordJohnson pairs + insertionTerms (pairs + odd) ≤
      fordJohnson (2 * pairs + odd) := by
  have hdouble := fordJohnson_double pairs
  have hfirst : ∑ i ∈ Icc 1 pairs, fordJohnsonTerm (2 * i - 1) =
      fordJohnsonTerm 1 + insertionTerms pairs := by
    rw [insertionTerms, ← Finset.add_sum_Ioc_eq_sum_Icc hpairs]
    rfl
  have hone := fordJohnsonTerm_one
  rcases Nat.le_one_iff_eq_zero_or_eq_one.1 hodd with rfl | rfl
  · rw [Nat.add_zero, Nat.add_zero]
    omega
  · rw [fordJohnson_succ, insertionTerms_succ hpairs]
    omega

/-- Entries that follow the `prev` first cost `k` each where `prev` is large enough. -/
theorem mul_le_insertionTerms {k prev count : Nat} (hprev : 1 ≤ prev)
    (hlarge : 2 ^ k ≤ 3 * prev + 1) :
    (count : Int) * k ≤ insertionTerms (prev + count) - insertionTerms prev := by
  induction count with
  | zero => simp
  | succ count ih =>
      have hterm : (k : Int) ≤ fordJohnsonTerm (2 * (prev + count) + 1) := by
        cases k with
        | zero => exact (lt_fordJohnsonTerm (k := 0) (by omega)).le
        | succ k =>
            rw [pow_succ] at hlarge
            have hlt : (k : Int) < fordJohnsonTerm (2 * (prev + count) + 1) :=
              lt_fordJohnsonTerm (by omega)
            push_cast
            omega
      rw [← Nat.add_assoc, insertionTerms_succ (by omega)]
      push_cast
      linarith

end FortyTwo.PmergeMe
