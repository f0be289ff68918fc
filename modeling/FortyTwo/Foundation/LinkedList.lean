import Mathlib.Algebra.BigOperators.Group.Finset.Basic
import Mathlib.Data.Multiset.Basic
import Mathlib.Tactic

/-!
Singly linked lists in a heap. A chain is a run of cells from a pointer to another;
several lists own a heap when their chains are apart and every live cell is on one of
them. What the usual operations do to the heap is stated here once, for lists of
anything, held by any finite set of owners.
-/

namespace FortyTwo.Foundation

structure Cell (ι α : Type) where
  content : α
  next : Option ι
  deriving DecidableEq, Repr

section Chain

variable {ι α : Type} [DecidableEq ι] {heap heap' : ι → Option (Cell ι α)}
  {p q r : Option ι} {as bs : List ι} {xs ys : List α}

/-- The cells at `as` hold `xs` and lead from `p` to `q`. -/
inductive Chain (heap : ι → Option (Cell ι α)) :
    Option ι → List ι → List α → Option ι → Prop
  | nil (p : Option ι) : Chain heap p [] [] p
  | cons {a : ι} {x : α} {next q : Option ι} {as : List ι} {xs : List α} :
      heap a = some ⟨x, next⟩ → Chain heap next as xs q →
      Chain heap (some a) (a :: as) (x :: xs) q

omit [DecidableEq ι] in
theorem Chain.length_eq (h : Chain heap p as xs q) : as.length = xs.length := by
  induction h with
  | nil p => rfl
  | cons _ _ ih => rw [List.length_cons, List.length_cons, ih]

omit [DecidableEq ι] in
theorem Chain.live (h : Chain heap p as xs q) : ∀ a ∈ as, heap a ≠ none := by
  induction h with
  | nil p => simp
  | cons hcell _ ih =>
      intro b hb
      rcases List.mem_cons.mp hb with rfl | hb
      · simp [hcell]
      · exact ih b hb

omit [DecidableEq ι] in
/-- What happens elsewhere leaves a chain as it is. -/
theorem Chain.frame (h : Chain heap p as xs q) (hsame : ∀ a ∈ as, heap' a = heap a) :
    Chain heap' p as xs q := by
  induction h with
  | nil p => exact .nil p
  | cons hcell _ ih =>
      refine .cons ?_ (ih fun b hb => hsame b (List.mem_cons_of_mem _ hb))
      rw [hsame _ List.mem_cons_self]
      exact hcell

omit [DecidableEq ι] in
theorem Chain.append (h : Chain heap p as xs q) (h' : Chain heap q bs ys r) :
    Chain heap p (as ++ bs) (xs ++ ys) r := by
  induction h with
  | nil p => exact h'
  | cons hcell _ ih => exact .cons hcell (ih h')

theorem Chain.update (h : Chain heap p as xs q) {a : ι} (ha : a ∉ as)
    (cell : Option (Cell ι α)) : Chain (Function.update heap a cell) p as xs q := by
  refine h.frame fun b hb => Function.update_of_ne ?_ _ _
  rintro rfl
  exact ha hb

omit [DecidableEq ι] in
theorem Chain.nil_of_null (h : Chain heap none as xs q) : as = [] ∧ xs = [] ∧ q = none := by
  cases h with
  | nil p => exact ⟨rfl, rfl, rfl⟩

omit [DecidableEq ι] in
theorem Chain.cons_of_pointer {a : ι} (h : Chain heap (some a) as xs none) :
    ∃ x next rest more, heap a = some ⟨x, next⟩ ∧ as = a :: rest ∧ xs = x :: more ∧
      Chain heap next rest more none := by
  cases h with
  | cons hcell hrest => exact ⟨_, _, _, _, hcell, rfl, rfl, hrest⟩

omit [DecidableEq ι] in
theorem Chain.getLast {a : ι} (h : Chain heap (some a) as xs none) :
    ∃ before front last x, as = before ++ [last] ∧ xs = front ++ [x] ∧
      Chain heap (some a) before front (some last) ∧ heap last = some ⟨x, none⟩ := by
  induction as generalizing a xs with
  | nil =>
      obtain ⟨x, next, rest, more, -, hnil, -, -⟩ := h.cons_of_pointer
      cases hnil
  | cons b as ih =>
      obtain ⟨x, next, rest, more, hcell, hplaces, rfl, hrest⟩ := h.cons_of_pointer
      obtain ⟨rfl, rfl⟩ := List.cons.inj hplaces
      cases next with
      | none =>
          obtain ⟨rfl, rfl, -⟩ := hrest.nil_of_null
          exact ⟨[], [], b, x, rfl, rfl, .nil _, hcell⟩
      | some c =>
          obtain ⟨before, front, last, y, rfl, rfl, hbefore, hlast⟩ := ih hrest
          exact ⟨b :: before, x :: front, last, y, rfl, rfl, .cons hcell hbefore, hlast⟩

/-- A chain with its last cell led to another chain. -/
theorem Chain.link {a : ι} {x : α} (h : Chain heap p as xs (some a)) (ha : a ∉ as) (hb : a ∉ bs)
    (h' : Chain heap q bs ys none) :
    Chain (Function.update heap a (some ⟨x, q⟩)) p (as ++ a :: bs) (xs ++ x :: ys) none :=
  (h.update ha _).append (.cons (Function.update_self _ _ _) (h'.update hb _))

end Chain

section Owners

variable {ι α ν : Type} [DecidableEq ι] [DecidableEq ν]

/-- The lists that the owners hold: their chains are apart, and with the cells that are
`loose` they are the whole of the heap. -/
structure Owned (heap : ι → Option (Cell ι α)) (loose : Set ι) (heads : ν → Option ι)
    (places : ν → List ι) (lists : ν → List α) : Prop where
  chain : ∀ v, Chain heap (heads v) (places v) (lists v) none
  nodup : ∀ v, (places v).Nodup
  apart : ∀ v w, v ≠ w → ∀ a ∈ places v, a ∉ places w
  held : ∀ v, ∀ a ∈ places v, a ∉ loose
  live : ∀ a, heap a ≠ none ↔ a ∈ loose ∨ ∃ v, a ∈ places v

variable {heap : ι → Option (Cell ι α)} {loose : Set ι} {heads : ν → Option ι}
  {places : ν → List ι} {lists : ν → List α} {a : ι} {v w : ν}

omit [DecidableEq ι] [DecidableEq ν] in
theorem owned_empty :
    Owned (fun _ : ι => (none : Option (Cell ι α))) ∅ (fun _ : ν => none) (fun _ => [])
      (fun _ => []) where
  chain _ := .nil none
  nodup _ := List.nodup_nil
  apart _ _ _ _ := nofun
  held _ _ := nofun
  live a := by simp

omit [DecidableEq ι] [DecidableEq ν] in
theorem Owned.head_eq_none_iff (h : Owned heap loose heads places lists) :
    heads v = none ↔ lists v = [] := by
  have hchain := h.chain v
  generalize heads v = p at hchain
  generalize places v = as at hchain
  generalize lists v = xs at hchain
  cases hchain with
  | nil p => simp
  | cons hcell hrest => simp

omit [DecidableEq ι] [DecidableEq ν] in
theorem Owned.places_eq_nil_iff (h : Owned heap loose heads places lists) :
    places v = [] ↔ lists v = [] := by
  rw [← List.length_eq_zero_iff, (h.chain v).length_eq, List.length_eq_zero_iff]

omit [DecidableEq ι] [DecidableEq ν] in
/-- No owner is left with a cell: the heap is empty. -/
theorem Owned.heap_eq_none (h : Owned heap ∅ heads places lists) (hempty : ∀ v, lists v = []) :
    ∀ a, heap a = none := by
  intro a
  by_contra hlive
  obtain hloose | ⟨v, hv⟩ := (h.live a).mp hlive
  · exact hloose
  · rw [h.places_eq_nil_iff.mpr (hempty v)] at hv
    cases hv

section Loose

variable (h : Owned heap loose heads places lists)
include h

omit [DecidableEq ι] [DecidableEq ν] in
/-- A loose cell is no owner's, so it can be written or given back. -/
private theorem Owned.not_mem_of_loose (ha : a ∈ loose) : ∀ v, a ∉ places v :=
  fun v hv => h.held v a hv ha

omit [DecidableEq ν] in
theorem Owned.write (ha : a ∈ loose) (cell : Cell ι α) :
    Owned (Function.update heap a (some cell)) loose heads places lists where
  chain v := (h.chain v).update (h.not_mem_of_loose ha v) _
  nodup := h.nodup
  apart := h.apart
  held := h.held
  live b := by
    by_cases hb : b = a
    · subst hb
      simp [ha]
    · rw [Function.update_of_ne hb]
      exact h.live b

omit [DecidableEq ν] in
/-- The allocator has found room at `a`. -/
theorem Owned.alloc (ha : heap a = none) (cell : Cell ι α) :
    Owned (Function.update heap a (some cell)) (insert a loose) heads places lists := by
  have hfree : ¬ (a ∈ loose ∨ ∃ v, a ∈ places v) := fun hlive => (h.live a).mpr hlive ha
  have hout : ∀ v, a ∉ places v := fun v hv => hfree (Or.inr ⟨v, hv⟩)
  refine ⟨fun v => (h.chain v).update (hout v) _, h.nodup, h.apart, ?_, ?_⟩
  · intro v b hb hloose
    rcases Set.mem_insert_iff.mp hloose with rfl | hloose
    · exact hout v hb
    · exact h.held v b hb hloose
  · intro b
    by_cases hb : b = a
    · subst hb
      simp
    · rw [Function.update_of_ne hb, h.live b, Set.mem_insert_iff]
      simp [hb]

omit [DecidableEq ν] in
theorem Owned.free (ha : a ∈ loose) :
    Owned (Function.update heap a none) (loose \ {a}) heads places lists where
  chain v := (h.chain v).update (h.not_mem_of_loose ha v) _
  nodup := h.nodup
  apart := h.apart
  held v b hb hloose := h.held v b hb hloose.1
  live b := by
    by_cases hb : b = a
    · subst hb
      simpa using h.not_mem_of_loose ha
    · rw [Function.update_of_ne hb, h.live b]
      simp [hb]

end Loose

omit [DecidableEq ι] in
/-- The owner lets go of its cells. -/
theorem Owned.detach (h : Owned heap loose heads places lists) (v : ν) :
    Owned heap (loose ∪ {a | a ∈ places v}) (Function.update heads v none)
      (Function.update places v []) (Function.update lists v []) := by
  refine ⟨?_, ?_, ?_, ?_, ?_⟩
  · intro w
    by_cases hw : w = v
    · subst hw
      simpa using Chain.nil none
    · simpa [hw] using h.chain w
  · intro w
    by_cases hw : w = v
    · subst hw
      simp
    · simpa [hw] using h.nodup w
  · intro w u hne a hmem
    by_cases hw : w = v
    · subst hw
      simp at hmem
    · by_cases hu : u = v
      · subst hu
        simp
      · simp only [Function.update_of_ne hw, Function.update_of_ne hu] at hmem ⊢
        exact h.apart w u hne a hmem
  · intro w a hmem
    by_cases hw : w = v
    · subst hw
      simp at hmem
    · simp only [Function.update_of_ne hw] at hmem
      exact fun hloose => hloose.elim (h.held w a hmem) (h.apart w v hw a hmem)
  · intro a
    rw [h.live a]
    constructor
    · rintro (hloose | ⟨w, hw⟩)
      · exact Or.inl (Or.inl hloose)
      · by_cases hwv : w = v
        · exact Or.inl (Or.inr (hwv ▸ hw))
        · exact Or.inr ⟨w, by simpa [hwv] using hw⟩
    · rintro ((hloose | hmem) | ⟨w, hw⟩)
      · exact Or.inl hloose
      · exact Or.inr ⟨v, hmem⟩
      · by_cases hwv : w = v
        · subst hwv
          simp at hw
        · exact Or.inr ⟨w, by simpa [hwv] using hw⟩

omit [DecidableEq ι] in
/-- An owner with nothing takes the chain of all the loose cells. -/
theorem Owned.attach (h : Owned heap loose heads places lists) (hempty : lists v = [])
    {q : Option ι} {bs : List ι} {ys : List α} (hchain : Chain heap q bs ys none)
    (hnodup : bs.Nodup) (hloose : ∀ b, b ∈ loose ↔ b ∈ bs) :
    Owned heap ∅ (Function.update heads v q) (Function.update places v bs)
      (Function.update lists v ys) := by
  have hnone := h.places_eq_nil_iff.mpr hempty
  refine ⟨?_, ?_, ?_, fun _ _ _ => nofun, ?_⟩
  · intro w
    by_cases hw : w = v
    · subst hw
      simpa using hchain
    · simpa [hw] using h.chain w
  · intro w
    by_cases hw : w = v
    · subst hw
      simpa using hnodup
    · simpa [hw] using h.nodup w
  · intro w u hne a hmem
    by_cases hw : w = v
    · subst hw
      rw [Function.update_self] at hmem
      rw [Function.update_of_ne hne.symm]
      exact fun hu => h.held u a hu ((hloose a).mpr hmem)
    · rw [Function.update_of_ne hw] at hmem
      by_cases hu : u = v
      · subst hu
        rw [Function.update_self]
        exact fun hb => h.held w a hmem ((hloose a).mpr hb)
      · rw [Function.update_of_ne hu]
        exact h.apart w u hne a hmem
  · intro a
    rw [h.live a, hloose a]
    constructor
    · rintro (hb | ⟨w, hw⟩)
      · exact Or.inr ⟨v, by simpa using hb⟩
      · have hwv : w ≠ v := by
          rintro rfl
          rw [hnone] at hw
          cases hw
        exact Or.inr ⟨w, by simpa [hwv] using hw⟩
    · rintro (hnone | ⟨w, hw⟩)
      · exact hnone.elim
      · by_cases hwv : w = v
        · subst hwv
          rw [Function.update_self] at hw
          exact Or.inl hw
        · exact Or.inr ⟨w, by simpa [hwv] using hw⟩

omit [DecidableEq ι] in
/-- One of two owners with nothing takes it all. -/
theorem Owned.attach_first {q : Option ι} {bs : List ι} {ys : List α} (hne : v ≠ w)
    (h : Owned heap loose (Function.update (Function.update heads v none) w none)
      (Function.update (Function.update places v []) w [])
      (Function.update (Function.update lists v []) w []))
    (hchain : Chain heap q bs ys none) (hnodup : bs.Nodup) (hloose : ∀ b, b ∈ loose ↔ b ∈ bs) :
    Owned heap ∅ (Function.update (Function.update heads v q) w none)
      (Function.update (Function.update places v bs) w [])
      (Function.update (Function.update lists v ys) w []) := by
  have hempty : Function.update (Function.update lists v []) w [] v = [] := by
    rw [Function.update_of_ne hne, Function.update_self]
  have howned := h.attach hempty hchain hnodup hloose
  simpa only [Function.update_comm hne.symm, Function.update_idem] using howned

variable [Fintype ν]

/-- What one owner gains and gives is what all of them together do. -/
theorem sum_update_lists (lists : ν → List α) (v : ν) (xs : List α) :
    ∑ w, (Function.update lists v xs w : Multiset α) + lists v =
      ∑ w, (lists w : Multiset α) + xs := by
  have hrest : ∀ w ∈ Finset.univ.erase v,
      (Function.update lists v xs w : Multiset α) = lists w := by
    intro w hw
    rw [Function.update_of_ne (Finset.ne_of_mem_erase hw)]
  rw [← Finset.add_sum_erase _ _ (Finset.mem_univ v),
    ← Finset.add_sum_erase Finset.univ (fun w => (lists w : Multiset α)) (Finset.mem_univ v),
    Finset.sum_congr rfl hrest, Function.update_self]
  abel

end Owners

end FortyTwo.Foundation
