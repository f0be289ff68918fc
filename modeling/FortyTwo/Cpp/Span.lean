import FortyTwo.Foundation.CInt
import FortyTwo.Foundation.Distances

/-!
`Span.cpp` and `Span.hpp`: a store of `int`s, and the distances between them. Subtracting
two `int`s may overflow.
-/

namespace FortyTwo.Cpp

open Foundation

inductive SpanFault where
  | overflow
  | arrayFull
  | logicError (what : String)
  deriving DecidableEq, Repr

structure Span where
  mN : Nat
  mSize : Nat := 0
  mVector : List CInt := []
  size_eq : mSize = mVector.length := by rfl
  size_le : mSize ≤ mN := by omega

namespace Span

def addNumber (span : Span) (newNumber : CInt) : Except SpanFault Span :=
  if h : span.mN = span.mSize then .error .arrayFull
  else .ok {
    mN := span.mN
    mSize := span.mSize + 1
    mVector := span.mVector ++ [newNumber]
    size_eq := by rw [List.length_append, span.size_eq, List.length_singleton]
    size_le := Nat.lt_of_le_of_ne span.size_le (Ne.symm h) }

/-- The values are added until there is no room for one. -/
def multiValues (span : Span) : List CInt → Except SpanFault Span
  | [] => .ok span
  | value :: values => do
      let span ← span.addNumber value
      span.multiValues values

def longestSpan (span : Span) : Except SpanFault CInt :=
  match span.mVector.min?, span.mVector.max? with
  | some minVal, some maxVal =>
      if span.mVector.length < 2 then .error (.logicError "No span for less than 2 numbers")
      else CInt.checked .overflow (maxVal.val - minVal.val)
  | _, _ => .error (.logicError "No span for less than 2 numbers")

/-- The loop of `shortestSpan` over what is left of the sorted numbers. -/
def shortestLoop (minSpan : CInt) : List CInt → Except SpanFault CInt
  | previous :: next :: rest => do
      let span ← CInt.checked .overflow (next.val - previous.val)
      shortestLoop (if span.val < minSpan.val then span else minSpan) (next :: rest)
  | _ => .ok minSpan

def shortestSpan (span : Span) : Except SpanFault CInt :=
  if span.mVector.length < 2 then .error (.logicError "No span for less than 2 numbers")
  else shortestLoop CInt.max (span.mVector.mergeSort (fun a b => a.val ≤ b.val))

end Span

/-- The distances between the numbers of a store. -/
def spans (span : Span) : Set Int := distances (span.mVector.map Subtype.val)

/-- The spans are computed without an overflow, and they are the greatest and the least of
the distances. -/
structure SpansRight (span : Span) : Prop where
  longest : ∃ n, span.longestSpan = .ok n ∧ IsGreatest (spans span) n.val
  shortest : ∃ n, span.shortestSpan = .ok n ∧ IsLeast (spans span) n.val

/-- The input condition: no two numbers are `2 ^ 31` or more apart. -/
def Near (values : List CInt) : Prop :=
  ∀ a ∈ values, ∀ b ∈ values, a.val - b.val < 2 ^ 31

section Storing

theorem addNumber_ok {span : Span} (newNumber : CInt) (h : span.mSize < span.mN) :
    ∃ next, span.addNumber newNumber = .ok next ∧ next.mN = span.mN ∧
      next.mVector = span.mVector ++ [newNumber] := by
  rw [Span.addNumber, dif_neg (ne_of_gt h)]
  exact ⟨_, rfl, rfl, rfl⟩

/-- Where there is room for all the values they are stored in their order. -/
theorem multiValues_ok {span : Span} (values : List CInt)
    (h : span.mSize + values.length ≤ span.mN) :
    ∃ next, span.multiValues values = .ok next ∧ next.mVector = span.mVector ++ values := by
  induction values generalizing span with
  | nil => exact ⟨span, rfl, (List.append_nil _).symm⟩
  | cons value values ih =>
      rw [List.length_cons] at h
      obtain ⟨next, hnext, hroom, hvector⟩ := @addNumber_ok span value (by omega)
      have hsize : next.mSize = span.mSize + 1 := by
        rw [next.size_eq, hvector, List.length_append, List.length_singleton, span.size_eq]
      obtain ⟨last, hlast, hstored⟩ := @ih next (by omega)
      refine ⟨last, ?_, ?_⟩
      · rw [Span.multiValues, hnext]
        exact hlast
      · rw [hstored, hvector, List.append_assoc]
        rfl

end Storing

section Longest

variable {values : List CInt}

private theorem exists_extremes (h : values ≠ []) : ∃ lo hi, values.min? = some lo ∧
    values.max? = some hi ∧ lo ∈ values ∧ hi ∈ values ∧ ∀ a ∈ values, lo ≤ a ∧ a ≤ hi := by
  obtain ⟨lo, hlo⟩ := Option.isSome_iff_exists.mp (List.isSome_min?_of_ne_nil h)
  obtain ⟨hi, hhi⟩ := Option.isSome_iff_exists.mp (List.isSome_max?_of_ne_nil h)
  obtain ⟨hlomem, hleast⟩ := List.min?_eq_some_iff.mp hlo
  obtain ⟨hhimem, hgreatest⟩ := List.max?_eq_some_iff.mp hhi
  exact ⟨lo, hi, hlo, hhi, hlomem, hhimem, fun a ha => ⟨hleast a ha, hgreatest a ha⟩⟩

/-- `longestSpan` is one subtraction. -/
theorem longestSpan_eq {span : Span} (hlength : 2 ≤ span.mVector.length) : ∃ lo hi,
    lo ∈ span.mVector ∧ hi ∈ span.mVector ∧ (∀ a ∈ span.mVector, lo ≤ a ∧ a ≤ hi) ∧
      span.longestSpan = CInt.checked .overflow (hi.val - lo.val) := by
  obtain ⟨lo, hi, hlo, hhi, hlomem, hhimem, hbounds⟩ :=
    exists_extremes (List.ne_nil_of_length_pos (Nat.lt_of_lt_of_le Nat.zero_lt_two hlength))
  refine ⟨lo, hi, hlomem, hhimem, hbounds, ?_⟩
  rw [Span.longestSpan, hlo, hhi]
  exact if_neg (by omega)

end Longest

section Shortest

variable {values : List CInt}

/-- Over sorted numbers that are near each other the loop comes to the least distance, or
stays with what it has if that is less. -/
theorem shortestLoop_spec (hsorted : values.Pairwise (fun a b => a.val ≤ b.val))
    (hnear : Near values) (minSpan : CInt) : ∃ n, Span.shortestLoop minSpan values = .ok n ∧
      (n = minSpan ∨ n.val ∈ distances (values.map Subtype.val)) ∧ n.val ≤ minSpan.val ∧
        ∀ d ∈ distances (values.map Subtype.val), n.val ≤ d := by
  induction values generalizing minSpan with
  | nil =>
      refine ⟨minSpan, rfl, Or.inl rfl, le_refl _, ?_⟩
      exact (forall_distances (minSpan.val ≤ ·)).mpr List.Pairwise.nil
  | cons previous rest ih =>
      cases rest with
      | nil =>
          refine ⟨minSpan, rfl, Or.inl rfl, le_refl _, ?_⟩
          exact (forall_distances (minSpan.val ≤ ·)).mpr (List.pairwise_singleton _ _)
      | cons next rest =>
          obtain ⟨hfirst, hrest⟩ := List.pairwise_cons.mp hsorted
          have hle := hfirst next List.mem_cons_self
          have hfits : -2 ^ 31 ≤ next.val - previous.val ∧ next.val - previous.val < 2 ^ 31 := by
            have hlt := hnear next (by simp) previous (by simp)
            omega
          have hspan : next.val - previous.val ∈
              distances ((previous :: next :: rest).map Subtype.val) := by
            have hmem := @abs_sub_mem_distances Int _ _ previous.val next.val
              ((next :: rest).map Subtype.val) (by simp)
            rwa [abs_sub_comm, abs_of_nonneg (by omega)] at hmem
          have hnear' : Near (next :: rest) := fun a ha b hb =>
            hnear a (List.mem_cons_of_mem _ ha) b (List.mem_cons_of_mem _ hb)
          obtain ⟨n, hrun, hfound, hmin, hleast⟩ := ih hrest hnear'
            (if next.val - previous.val < minSpan.val then ⟨_, hfits⟩ else minSpan)
          refine ⟨n, ?_, ?_, ?_, ?_⟩
          · rw [Span.shortestLoop, CInt.checked_of_fits _ hfits]
            exact hrun
          · rcases hfound with rfl | hfound
            · split
              · exact Or.inr hspan
              · exact Or.inl rfl
            · exact Or.inr (distances_subset_cons _ _ hfound)
          · split at hmin
            · next hlt => exact le_trans hmin (le_of_lt hlt)
            · exact hmin
          · have hstep : n.val ≤ next.val - previous.val := by
              split at hmin
              · exact hmin
              · next hge => exact le_trans hmin (not_lt.mp hge)
            apply (forall_distances (n.val ≤ ·)).mpr
            apply List.pairwise_cons.mpr
            constructor
            · intro a ha
              obtain ⟨c, hc, rfl⟩ := List.mem_map.mp ha
              have hmore : next.val ≤ c.val := by
                rcases List.mem_cons.mp hc with rfl | hc
                · exact le_refl _
                · exact (List.pairwise_cons.mp hrest).1 c hc
              rw [abs_sub_comm, abs_of_nonneg (by omega)]
              omega
            · exact (forall_distances (n.val ≤ ·)).mp hleast

theorem shortestSpan_isLeast {span : Span} (hlength : 2 ≤ span.mVector.length)
    (hnear : Near span.mVector) :
    ∃ n, span.shortestSpan = .ok n ∧ IsLeast (spans span) n.val := by
  have hperm := List.mergeSort_perm span.mVector (fun a b => a.val ≤ b.val)
  have hsorted : (span.mVector.mergeSort fun a b => a.val ≤ b.val).Pairwise
      (fun a b => a.val ≤ b.val) := by
    have htrans : ∀ a b c : CInt, decide (a.val ≤ b.val) → decide (b.val ≤ c.val) →
        decide (a.val ≤ c.val) := by
      simp only [decide_eq_true_eq]
      intro a b c
      exact le_trans
    have htotal : ∀ a b : CInt, decide (a.val ≤ b.val) || decide (b.val ≤ a.val) := by
      simp only [Bool.or_eq_true, decide_eq_true_eq]
      intro a b
      exact le_total a.val b.val
    have hpairs := List.pairwise_mergeSort htrans htotal span.mVector
    simpa only [decide_eq_true_eq] using hpairs
  have hnear' : Near (span.mVector.mergeSort fun a b => a.val ≤ b.val) := fun a ha b hb =>
    hnear a (hperm.mem_iff.mp ha) b (hperm.mem_iff.mp hb)
  obtain ⟨n, hrun, hfound, hle, hleast⟩ :=
    shortestLoop_spec hsorted hnear' CInt.max
  rw [distances_perm (hperm.map Subtype.val)] at hfound hleast
  refine ⟨n, ?_, ?_, hleast⟩
  · rw [Span.shortestSpan, if_neg (by omega)]
    exact hrun
  · rcases hfound with rfl | hfound
    · obtain ⟨a, b, rest, hvalues⟩ : ∃ a b rest, span.mVector = a :: b :: rest := by
        obtain ⟨a, rest, hrest⟩ := List.exists_cons_of_length_pos (by omega : 0 < span.mVector.length)
        rw [hrest, List.length_cons] at hlength
        obtain ⟨b, rest, rfl⟩ := List.exists_cons_of_length_pos (by omega : 0 < rest.length)
        exact ⟨a, b, rest, hrest⟩
      have hmem : |a.val - b.val| ∈ spans span := by
        rw [spans, hvalues]
        exact abs_sub_mem_distances (by simp)
      have hab := hnear a (by simp [hvalues]) b (by simp [hvalues])
      have hba := hnear b (by simp [hvalues]) a (by simp [hvalues])
      have hge : 2 ^ 31 - 1 ≤ |a.val - b.val| := hleast _ hmem
      have heq : |a.val - b.val| = 2 ^ 31 - 1 :=
        le_antisymm (abs_sub_le_iff.mpr ⟨by omega, by omega⟩) hge
      rwa [heq] at hmem
    · exact hfound

end Shortest

/-- The spans are right for exactly the stores of numbers that are near each other. -/
theorem spansRight_iff (span : Span) (hlength : 2 ≤ span.mVector.length) :
    SpansRight span ↔ Near span.mVector := by
  obtain ⟨lo, hi, hlo, hhi, hbounds, hlongest⟩ := longestSpan_eq hlength
  constructor
  · intro hright a ha b hb
    obtain ⟨n, hn, -⟩ := hright.longest
    have hvalue := CInt.checked_eq_ok (hlongest.symm.trans hn)
    have hfits := n.2.2
    have hmore : a.val ≤ hi.val := (hbounds a ha).2
    have hless : lo.val ≤ b.val := (hbounds b hb).1
    omega
  · intro hnear
    constructor
    · have hle : lo.val ≤ hi.val := (hbounds hi hhi).1
      have hlt := hnear hi hhi lo hlo
      refine ⟨⟨hi.val - lo.val, by omega, hlt⟩, hlongest.trans (CInt.checked_of_fits _ _), ?_⟩
      apply greatest_distance (by rwa [List.length_map]) (List.mem_map_of_mem hlo)
        (List.mem_map_of_mem hhi)
      intro a ha
      obtain ⟨c, hc, rfl⟩ := List.mem_map.mp ha
      exact hbounds c hc
    · exact shortestSpan_isLeast hlength hnear

theorem spansRight_iff_some :
    2 ≤ [(⟨6, by decide⟩ : CInt), ⟨3, by decide⟩].length ∧
      (SpansRight { mN := 5, mSize := 2, mVector := [⟨6, by decide⟩, ⟨3, by decide⟩] } ↔
        Near [⟨6, by decide⟩, ⟨3, by decide⟩]) :=
  ⟨by decide, spansRight_iff _ (by decide)⟩

/-- The least and the greatest `int` are `2 ^ 32 - 1` apart. -/
theorem not_spansRight : ¬∀ span : Span, 2 ≤ span.mVector.length → SpansRight span := by
  intro hall
  obtain ⟨⟨n, hn, -⟩, -⟩ := hall
    { mN := 2, mSize := 2, mVector := [⟨-2 ^ 31, by decide⟩, ⟨2 ^ 31 - 1, by decide⟩] } (by decide)
  cases hn

end FortyTwo.Cpp
