import Mathlib.Data.List.Range

/-!
Copies within one memory, a place at a time. The range that is copied to may overlap the one
that is copied from, in whatever way, as long as the order of the places suits it.
-/

namespace FortyTwo.Foundation

variable {α : Type*}

/-- The range at `dst` holds what the range at `src` held, and every other place is as it was. -/
structure Moved (dst src len : Nat) (memory memory' : List α) : Prop where
  length : memory'.length = memory.length
  inside : ∀ i < len, memory'[dst + i]? = memory[src + i]?
  outside : ∀ place, place < dst ∨ dst + len ≤ place → memory'[place]? = memory[place]?

theorem moved_same (place len : Nat) (memory : List α) : Moved place place len memory memory :=
  ⟨rfl, fun _ _ => rfl, fun _ _ => rfl⟩

theorem moved_nothing (dst src : Nat) (memory : List α) : Moved dst src 0 memory memory :=
  ⟨rfl, fun _ hi => absurd hi (Nat.not_lt_zero _), fun _ _ => rfl⟩

/-- What the place `src + i` holds is put into `dst + i`. -/
def copyPlace (dst src : Nat) (memory : List α) (i : Nat) : List α :=
  match memory[src + i]? with
  | some a => memory.set (dst + i) a
  | none => memory

def copyPlaces (dst src : Nat) (order : List Nat) (memory : List α) : List α :=
  order.foldl (copyPlace dst src) memory

/-- No place is overwritten before it is read. -/
def ReadsFirst (dst src : Nat) (order : List Nat) : Prop :=
  order.Pairwise (fun i j => dst + i ≠ src + j)

section Order

variable {dst src : Nat}

theorem readsFirst_up (h : dst ≤ src) (len : Nat) : ReadsFirst dst src (List.range len) := by
  apply List.pairwise_lt_range.imp
  intro i j hij
  omega

theorem readsFirst_down (h : src ≤ dst) (len : Nat) :
    ReadsFirst dst src (List.range len).reverse := by
  apply List.pairwise_reverse.mpr
  apply List.pairwise_lt_range.imp
  intro i j hij
  omega

end Order

section Copy

variable {dst src : Nat}

theorem length_copyPlace (memory : List α) (i : Nat) :
    (copyPlace dst src memory i).length = memory.length := by
  unfold copyPlace
  cases memory[src + i]? with
  | none => rfl
  | some a => exact List.length_set

theorem getElem?_copyPlace_self {memory : List α} {i : Nat} (hdst : dst + i < memory.length)
    (hsrc : src + i < memory.length) :
    (copyPlace dst src memory i)[dst + i]? = memory[src + i]? := by
  rw [copyPlace, List.getElem?_eq_getElem hsrc]
  exact List.getElem?_set_self hdst

theorem getElem?_copyPlace_of_ne (memory : List α) {i place : Nat} (h : dst + i ≠ place) :
    (copyPlace dst src memory i)[place]? = memory[place]? := by
  unfold copyPlace
  cases memory[src + i]? with
  | none => rfl
  | some a => exact List.getElem?_set_ne h

theorem length_copyPlaces (order : List Nat) (memory : List α) :
    (copyPlaces dst src order memory).length = memory.length := by
  induction order generalizing memory with
  | nil => rfl
  | cons i order ih => exact (ih (copyPlace dst src memory i)).trans (length_copyPlace memory i)

/-- A place that is not written keeps what it holds. -/
theorem getElem?_copyPlaces_of_forall_ne {order : List Nat} {place : Nat}
    (h : ∀ i ∈ order, dst + i ≠ place) (memory : List α) :
    (copyPlaces dst src order memory)[place]? = memory[place]? := by
  induction order generalizing memory with
  | nil => rfl
  | cons i order ih =>
      obtain ⟨hi, horder⟩ := List.forall_mem_cons.mp h
      have hlater := ih horder (copyPlace dst src memory i)
      exact hlater.trans (getElem?_copyPlace_of_ne memory hi)

/-- A place that is written gets what its counterpart held at the beginning, since nothing is
written there before the counterpart is read. -/
theorem getElem?_copyPlaces_of_mem {order : List Nat} (hreads : ReadsFirst dst src order)
    (memory : List α) (hdst : ∀ i ∈ order, dst + i < memory.length)
    (hsrc : ∀ i ∈ order, src + i < memory.length) {i : Nat} (hi : i ∈ order) :
    (copyPlaces dst src order memory)[dst + i]? = memory[src + i]? := by
  induction order generalizing memory with
  | nil => cases hi
  | cons first order ih =>
      obtain ⟨hfirst, hrest⟩ := List.pairwise_cons.mp hreads
      obtain ⟨hdstFirst, hdstRest⟩ := List.forall_mem_cons.mp hdst
      obtain ⟨hsrcFirst, hsrcRest⟩ := List.forall_mem_cons.mp hsrc
      by_cases hmem : i ∈ order
      · rw [← length_copyPlace memory first] at hdstRest hsrcRest
        have hlater := ih hrest (copyPlace dst src memory first) hdstRest hsrcRest hmem
        exact hlater.trans (getElem?_copyPlace_of_ne memory (hfirst i hmem))
      · have heq : i = first := (List.mem_cons.mp hi).resolve_right hmem
        subst heq
        have hlater : ∀ j ∈ order, dst + j ≠ dst + i := by
          intro j hj heq
          rw [Nat.add_left_cancel heq] at hj
          exact hmem hj
        exact (getElem?_copyPlaces_of_forall_ne hlater _).trans
          (getElem?_copyPlace_self hdstFirst hsrcFirst)

/-- A copy of the whole range that reads each place before it overwrites it. -/
theorem moved_copyPlaces {order : List Nat} {len : Nat} (hreads : ReadsFirst dst src order)
    (horder : ∀ i, i ∈ order ↔ i < len) {memory : List α} (hdst : dst + len ≤ memory.length)
    (hsrc : src + len ≤ memory.length) :
    Moved dst src len memory (copyPlaces dst src order memory) where
  length := length_copyPlaces order memory
  inside := by
    intro i hi
    apply getElem?_copyPlaces_of_mem hreads
    · intro j hj
      have hlt := (horder j).mp hj
      omega
    · intro j hj
      have hlt := (horder j).mp hj
      omega
    · exact (horder i).mpr hi
  outside := by
    intro place hplace
    apply getElem?_copyPlaces_of_forall_ne
    intro j hj
    have hlt := (horder j).mp hj
    omega

end Copy

end FortyTwo.Foundation
