import Mathlib.Tactic

/-!
Depth-first marking. Nodes are marked in a state that the search carries; from a
node it marks it goes on to the next ones, in their order. A visit may also stop
the whole search, at a node that is not good.
-/

namespace FortyTwo.Foundation

variable {ε σ ν : Type*}

/-- Marks a node and then what follows it, at most `fuel` deep. -/
def flood (outOfFuel : ε) (visit : σ → ν → Except ε (Option σ)) (next : ν → List ν) :
    Nat → σ → ν → Except ε σ
  | 0, _, _ => .error outOfFuel
  | fuel + 1, s, v => do
      match ← visit s v with
      | none => return s
      | some s => (next v).foldlM (flood outOfFuel visit next fuel) s

/-- From `v` to `u`, each node next to the one before it. -/
def Reaches (next : ν → List ν) (cells : Finset ν) : ν → ν → Prop :=
  Relation.ReflTransGen fun u w => w ∈ next u ∧ w ∈ cells

/-- What a visit does when the marked nodes are those of `M`. Only nodes that are
`Readable` are visited. -/
structure Visits (visit : σ → ν → Except ε (Option σ)) (next : ν → List ν) (bad : ε)
    (cells : Finset ν) (Good Readable : ν → Prop) (Rep : σ → Set ν → Prop) : Prop where
  skip : ∀ {s M v}, Rep s M → Readable v → v ∉ cells ∨ v ∈ M → visit s v = .ok none
  mark : ∀ {s M v}, Rep s M → v ∈ cells → v ∉ M → Good v →
    ∃ marked, visit s v = .ok (some marked) ∧ Rep marked (insert v M)
  stop : ∀ {s M v}, Rep s M → v ∈ cells → v ∉ M → ¬ Good v → visit s v = .error bad
  readable : ∀ {v w}, v ∈ cells → Good v → w ∈ next v → Readable w

/-- What a search from `roots` adds to the marked nodes. -/
structure Flooded (next : ν → List ν) (cells : Finset ν) (Good : ν → Prop) (M M' : Set ν)
    (roots : List ν) : Prop where
  mono : M ⊆ M'
  new : ∀ {u}, u ∈ M' → u ∉ M → u ∈ cells ∧ Good u ∧
    ∃ root ∈ roots, root ∈ cells ∧ Reaches next cells root u
  root : ∀ {v}, v ∈ roots → v ∈ cells → v ∈ M'
  closed : ∀ {u w}, u ∈ M' → u ∉ M → w ∈ next u → w ∈ cells → w ∈ M'

namespace Flooded

variable {next : ν → List ν} {cells : Finset ν} {Good : ν → Prop} {M M' M'' : Set ν}

theorem nil (M : Set ν) : Flooded next cells Good M M [] where
  mono := subset_rfl
  new h hnot := absurd h hnot
  root h := by cases h
  closed h hnot := absurd h hnot

theorem cons {v : ν} {rest : List ν} (hfirst : Flooded next cells Good M M' [v])
    (hrest : Flooded next cells Good M' M'' rest) :
    Flooded next cells Good M M'' (v :: rest) where
  mono := hfirst.mono.trans hrest.mono
  new {u} hu hnot := by
    by_cases hmid : u ∈ M'
    · obtain ⟨hcell, hgood, root, hroot, hreach⟩ := hfirst.new hmid hnot
      rw [List.mem_singleton.mp hroot] at hreach
      exact ⟨hcell, hgood, v, List.mem_cons_self, hreach⟩
    · obtain ⟨hcell, hgood, root, hroot, hreach⟩ := hrest.new hu hmid
      exact ⟨hcell, hgood, root, List.mem_cons_of_mem _ hroot, hreach⟩
  root hu hcell := by
    rcases List.mem_cons.mp hu with rfl | hu
    · exact hrest.mono (hfirst.root List.mem_cons_self hcell)
    · exact hrest.root hu hcell
  closed {u w} hu hnot hw hcell := by
    by_cases hmid : u ∈ M'
    · exact hrest.mono (hfirst.closed hmid hnot hw hcell)
    · exact hrest.closed hu hmid hw hcell

/-- A node is marked and the search goes on behind it. -/
theorem enter {v : ν} (hv : v ∈ cells) (hgood : Good v)
    (hnext : Flooded next cells Good (insert v M) M' (next v)) :
    Flooded next cells Good M M' [v] where
  mono := (Set.subset_insert v M).trans hnext.mono
  new {u} hu hnot := by
    by_cases huv : u = v
    · subst huv
      exact ⟨hv, hgood, u, List.mem_singleton.mpr rfl, hv, Relation.ReflTransGen.refl⟩
    · have hnot' : u ∉ insert v M := fun h => (Set.mem_insert_iff.mp h).elim huv hnot
      obtain ⟨hcell, hgood', w, hw, hwcell, hreach⟩ := hnext.new hu hnot'
      exact ⟨hcell, hgood', v, List.mem_singleton.mpr rfl, hv,
        Relation.ReflTransGen.head ⟨hw, hwcell⟩ hreach⟩
  root hu _ := by
    rw [List.mem_singleton.mp hu]
    exact hnext.mono (Set.mem_insert v M)
  closed {u w} hu hnot hw hcell := by
    by_cases huv : u = v
    · subst huv
      exact hnext.root hw hcell
    · exact hnext.closed hu (fun h => (Set.mem_insert_iff.mp h).elim huv hnot) hw hcell

/-- From one cell, the marked nodes are those that it reaches. -/
theorem mem_iff {v u : ν} (h : Flooded next cells Good ∅ M' [v]) (hv : v ∈ cells) :
    u ∈ M' ↔ Reaches next cells v u := by
  constructor
  · intro hu
    obtain ⟨-, -, root, hroot, -, hreach⟩ := h.new hu (Set.notMem_empty u)
    rw [List.mem_singleton.mp hroot] at hreach
    exact hreach
  · intro hreach
    induction hreach with
    | refl => exact h.root (List.mem_singleton.mpr rfl) hv
    | tail _ hstep ih => exact h.closed ih (Set.notMem_empty _) hstep.1 hstep.2

end Flooded

section Search

variable {outOfFuel bad : ε} {visit : σ → ν → Except ε (Option σ)} {next : ν → List ν}
  {cells : Finset ν} {Good Readable : ν → Prop} {Rep : σ → Set ν → Prop}

/-- A search that runs through, or stops since some cell is not good. -/
def Searched (next : ν → List ν) (cells : Finset ν) (Good : ν → Prop) (Rep : σ → Set ν → Prop)
    (bad : ε) (M : Set ν) (roots : List ν) (result : Except ε σ) : Prop :=
  (∃ s M', result = .ok s ∧ Rep s M' ∧ Flooded next cells Good M M' roots) ∨
    (result = .error bad ∧ ∃ u ∈ cells, ¬ Good u)

private theorem foldlM_searched {search : σ → ν → Except ε σ} {n : Nat}
    (hsearch : ∀ s M v, Rep s M → Readable v → ((cells : Set ν) \ M).ncard < n →
      Searched next cells Good Rep bad M [v] (search s v))
    (roots : List ν) (hroots : ∀ v ∈ roots, Readable v) (s : σ) (M : Set ν) (hrep : Rep s M)
    (hn : ((cells : Set ν) \ M).ncard < n) :
    Searched next cells Good Rep bad M roots (roots.foldlM search s) := by
  induction roots generalizing s M with
  | nil => exact Or.inl ⟨s, M, rfl, hrep, Flooded.nil M⟩
  | cons v rest ih =>
      rw [List.foldlM_cons]
      rcases hsearch s M v hrep (hroots v List.mem_cons_self) hn with
        ⟨s', M', hrun, hrep', hfirst⟩ | ⟨hrun, hbad⟩
      · rw [hrun]
        have hless : ((cells : Set ν) \ M').ncard ≤ ((cells : Set ν) \ M).ncard :=
          Set.ncard_le_ncard (Set.sdiff_subset_sdiff_right hfirst.mono) cells.finite_toSet.sdiff
        rcases ih (fun w hw => hroots w (List.mem_cons_of_mem _ hw)) s' M' hrep' (by omega) with
          ⟨s'', M'', hrun', hrep'', hrest⟩ | ⟨hrun', hbad⟩
        · exact Or.inl ⟨s'', M'', hrun', hrep'', hfirst.cons hrest⟩
        · exact Or.inr ⟨hrun', hbad⟩
      · rw [hrun]
        exact Or.inr ⟨rfl, hbad⟩

theorem flood_searched (hvisit : Visits visit next bad cells Good Readable Rep) (fuel : Nat)
    (s : σ) (M : Set ν) (v : ν) (hrep : Rep s M) (hv : Readable v)
    (hfuel : ((cells : Set ν) \ M).ncard < fuel) :
    Searched next cells Good Rep bad M [v] (flood outOfFuel visit next fuel s v) := by
  induction fuel generalizing s M v with
  | zero => omega
  | succ fuel ih =>
      rw [flood]
      by_cases hnew : v ∈ cells ∧ v ∉ M
      · by_cases hgood : Good v
        · obtain ⟨marked, hrun, hmarked⟩ := hvisit.mark hrep hnew.1 hnew.2 hgood
          rw [hrun]
          have hless : ((cells : Set ν) \ insert v M).ncard < ((cells : Set ν) \ M).ncard := by
            refine Set.ncard_lt_ncard ?_ cells.finite_toSet.sdiff
            refine (Set.ssubset_iff_of_subset ?_).mpr ⟨v, hnew, fun h => h.2 (Set.mem_insert v M)⟩
            exact Set.sdiff_subset_sdiff_right (Set.subset_insert v M)
          rcases foldlM_searched ih (next v) (fun w hw => hvisit.readable hnew.1 hgood hw)
              marked (insert v M) hmarked (by omega) with
            ⟨s', M', hrest, hrep', hflooded⟩ | hstop
          · exact Or.inl ⟨s', M', hrest, hrep', hflooded.enter hnew.1 hgood⟩
          · exact Or.inr hstop
        · rw [hvisit.stop hrep hnew.1 hnew.2 hgood]
          exact Or.inr ⟨rfl, v, hnew.1, hgood⟩
      · have hskip : v ∉ cells ∨ v ∈ M := by
          by_cases hcell : v ∈ cells
          · exact Or.inr (by_contra fun h => hnew ⟨hcell, h⟩)
          · exact Or.inl hcell
        rw [hvisit.skip hrep hv hskip]
        refine Or.inl ⟨s, M, rfl, hrep, subset_rfl, fun h hnot => absurd h hnot, ?_,
          fun h hnot => absurd h hnot⟩
        intro u hu hcell
        rw [List.mem_singleton.mp hu] at hcell ⊢
        exact hskip.resolve_left (not_not_intro hcell)

private theorem foldlM_ok_mono {search deeper : σ → ν → Except ε σ}
    (h : ∀ s v r, search s v = .ok r → deeper s v = .ok r) (roots : List ν) (s r : σ)
    (hrun : roots.foldlM search s = .ok r) : roots.foldlM deeper s = .ok r := by
  induction roots generalizing s with
  | nil => exact hrun
  | cons v rest ih =>
      rw [List.foldlM_cons] at hrun ⊢
      cases hfirst : search s v with
      | error e =>
          rw [hfirst] at hrun
          cases hrun
      | ok mid =>
          rw [hfirst] at hrun
          rw [h s v mid hfirst]
          exact ih mid hrun

/-- A search that came to its end runs as well with more fuel, and with visits that do at
least what its own do. -/
theorem flood_of_visit {other : σ → ν → Except ε (Option σ)}
    (h : ∀ s v r, visit s v = .ok r → other s v = .ok r) {fuel more : Nat} (hmore : fuel ≤ more)
    (s : σ) (v : ν) (r : σ) (hrun : flood outOfFuel visit next fuel s v = .ok r) :
    flood outOfFuel other next more s v = .ok r := by
  induction fuel generalizing more s v r with
  | zero => cases hrun
  | succ fuel ih =>
      obtain ⟨more, rfl⟩ : ∃ m, more = m + 1 := ⟨more - 1, by omega⟩
      rw [flood] at hrun ⊢
      cases hvisit : visit s v with
      | error e =>
          rw [hvisit] at hrun
          cases hrun
      | ok marked =>
          rw [hvisit] at hrun
          rw [h s v marked hvisit]
          cases marked with
          | none => exact hrun
          | some marked =>
              exact foldlM_ok_mono (fun s v r h => ih (by omega) s v r h) (next v) marked r hrun

theorem flood_mono {fuel more : Nat} (hmore : fuel ≤ more) (s : σ) (v : ν) (r : σ)
    (hrun : flood outOfFuel visit next fuel s v = .ok r) :
    flood outOfFuel visit next more s v = .ok r :=
  flood_of_visit (fun _ _ _ h => h) hmore s v r hrun

theorem floodAll_mono {fuel more : Nat} (hmore : fuel ≤ more) (roots : List ν) (s r : σ)
    (hrun : roots.foldlM (flood outOfFuel visit next fuel) s = .ok r) :
    roots.foldlM (flood outOfFuel visit next more) s = .ok r :=
  foldlM_ok_mono (fun s v r h => flood_mono hmore s v r h) roots s r hrun

/-- A search that has fuel for a path through all cells marks what the roots reach,
or finds a cell that is not good. -/
theorem floodAll_searched (hvisit : Visits visit next bad cells Good Readable Rep) (fuel : Nat)
    (hfuel : cells.card < fuel) (roots : List ν) (hroots : ∀ v ∈ roots, Readable v) (s : σ)
    (hrep : Rep s ∅) :
    Searched next cells Good Rep bad ∅ roots
      (roots.foldlM (flood outOfFuel visit next fuel) s) := by
  apply foldlM_searched (flood_searched hvisit fuel) roots hroots s ∅ hrep
  rw [Set.sdiff_empty, Set.ncard_coe_finset]
  exact hfuel

end Search

end FortyTwo.Foundation
