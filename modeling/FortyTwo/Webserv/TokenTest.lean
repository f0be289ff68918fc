import FortyTwo.Webserv.Text

/-!
What `is_string_valid_token` is for, and where it does it. Its loop goes on while the length
is below the index, and so never begins.
-/

namespace FortyTwo.Webserv

/-- The characters that the length gives over to the test: all of them when it is 0. -/
def testedChars (c : Bytes) (len : Nat) : Bytes :=
  let string := c.takeWhile (· ≠ 0)
  if len = 0 then string else string.take len

/-- The input condition: no character that is to be tested is a tspecial or a control. -/
def IsToken (c : Bytes) (len : Nat) : Prop :=
  ∀ char ∈ testedChars c len, isCharTspecial char = false ∧ isCharCtl char = false

instance : ∀ c len, Decidable (IsToken c len) := fun c len =>
  inferInstanceAs (Decidable (∀ char ∈ testedChars c len, _))

/-- The answer says whether the characters make a token, for exactly those that do. -/
theorem isStringValidToken_iff (c : Bytes) (len : Nat) :
    (isStringValidToken c len = true ↔ IsToken c len) ↔ IsToken c len := by
  rw [isStringValidToken_eq_true]
  constructor
  · intro htest
    exact htest.mp rfl
  · intro htoken
    exact iff_of_true rfl htoken

/-- `(` is a tspecial, and passes. -/
theorem not_isStringValidToken :
    ¬∀ (c : Bytes) (len : Nat), isStringValidToken c len = true ↔ IsToken c len := by
  intro hall
  have htoken := (hall [40] 1).mp rfl
  revert htoken
  decide

end FortyTwo.Webserv
