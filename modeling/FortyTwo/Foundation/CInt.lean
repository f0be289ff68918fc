import Mathlib.Tactic

/-!
The values of an `int` of 32 bits, and operations that fail where they overflow.
-/

namespace FortyTwo.Foundation

abbrev CInt := { n : Int // -2 ^ 31 ≤ n ∧ n < 2 ^ 31 }

namespace CInt

def max : CInt := ⟨2 ^ 31 - 1, by decide⟩

variable {ε : Type*}

/-- The result of an operation, which `overflow` stands for if it is no `int`. -/
def checked (overflow : ε) (n : Int) : Except ε CInt :=
  if h : -2 ^ 31 ≤ n ∧ n < 2 ^ 31 then .ok ⟨n, h⟩ else .error overflow

theorem checked_of_fits (overflow : ε) {n : Int} (h : -2 ^ 31 ≤ n ∧ n < 2 ^ 31) :
    checked overflow n = .ok ⟨n, h⟩ := dif_pos h

theorem checked_eq_ok {overflow : ε} {n : Int} {result : CInt}
    (h : checked overflow n = .ok result) : result.val = n := by
  rw [checked] at h
  split at h
  · exact congrArg Subtype.val (Except.ok.inj h).symm
  · cases h

end CInt

end FortyTwo.Foundation
