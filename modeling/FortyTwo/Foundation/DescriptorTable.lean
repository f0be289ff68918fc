import Mathlib.Data.List.Basic

/-!
A table of numbered slots that a kernel hands out: a new one is the lowest free
number, `dup2` puts what one slot refers to into another. The lemmas say what each
operation does to every number.
-/

namespace FortyTwo.Foundation

/-- The slots from 0 on; those behind the list are free. -/
abbrev DescriptorTable (α : Type) := List (Option α)

namespace DescriptorTable

variable {α : Type} (t : DescriptorTable α) (n : Nat)

/-- What a number refers to. -/
def file : Option α := t.getD n none

def lowestFree : Nat := t.findIdx Option.isNone

/-- Slot `n` set to `f`. -/
def assign (f : Option α) : DescriptorTable α :=
  (t ++ List.replicate (n + 1 - t.length) none).set n f

def close : DescriptorTable α := t.assign n none

/-- A number that is not open is an error, and changes nothing. -/
def dup2 (old new : Nat) : DescriptorTable α :=
  match t.file old with
  | none => t
  | some f => t.assign new (some f)

theorem file_assign (f : Option α) (m : Nat) :
    (t.assign n f).file m = if m = n then f else t.file m := by
  rw [file, assign, List.getD_eq_getElem?_getD, List.getElem?_set, file,
    List.getD_eq_getElem?_getD]
  by_cases hm : m = n
  · have hlt : n < (t ++ List.replicate (n + 1 - t.length) none).length := by
      rw [List.length_append, List.length_replicate]
      omega
    rw [if_pos hm.symm, if_pos hm, if_pos hlt]
    rfl
  · rw [if_neg (Ne.symm hm), if_neg hm]
    by_cases hlt : m < t.length
    · rw [List.getElem?_append_left hlt]
    · rw [List.getElem?_append_right (by omega), List.getElem?_eq_none (by omega : t.length ≤ m),
        List.getElem?_replicate]
      split <;> rfl

theorem file_close (m : Nat) : (t.close n).file m = if m = n then none else t.file m :=
  file_assign t n none m

theorem file_dup2 {old : Nat} {f : α} (h : t.file old = some f) (new m : Nat) :
    (t.dup2 old new).file m = if m = new then some f else t.file m := by
  rw [dup2, h]
  exact file_assign t new (some f) m

theorem dup2_of_closed {old : Nat} (h : t.file old = none) (new : Nat) : t.dup2 old new = t := by
  rw [dup2, h]

theorem file_dup2_of_ne {new m : Nat} (old : Nat) (h : m ≠ new) :
    (t.dup2 old new).file m = t.file m := by
  cases hold : t.file old with
  | none => rw [dup2_of_closed t hold]
  | some f => rw [file_dup2 t hold, if_neg h]

theorem file_lowestFree : t.file t.lowestFree = none := by
  rw [file, lowestFree, List.getD_eq_getElem?_getD]
  by_cases hlt : t.findIdx Option.isNone < t.length
  · have hnone := List.findIdx_getElem (w := hlt)
    rw [List.getElem?_eq_getElem hlt, Option.isNone_iff_eq_none.mp hnone]
    rfl
  · rw [List.getElem?_eq_none (by omega)]
    rfl

end DescriptorTable

end FortyTwo.Foundation
