import Mathlib.Logic.Relation
import Mathlib.Order.Monotone.Basic
import Mathlib.Tactic

/-!
Sorting by exchanges of neighbours. What is exchanged only where its key is greater keeps its
order among equal keys, so that the result is sorted by a finer order exactly if the entries
of equal keys came in that order.
-/

namespace FortyTwo.Foundation

open Relation

variable {α : Type*} {exceeds : α → α → Prop} {values values' : List α}

/-- Two neighbours change places, the first of which exceeds the second. -/
inductive Exchange (exceeds : α → α → Prop) : List α → List α → Prop where
  | intro (front : List α) {a b : α} (rest : List α) (h : exceeds a b) :
      Exchange exceeds (front ++ a :: b :: rest) (front ++ b :: a :: rest)

abbrev Exchanges (exceeds : α → α → Prop) : List α → List α → Prop :=
  ReflTransGen (Exchange exceeds)

theorem Exchanges.cons (h : Exchanges exceeds values values') (a : α) :
    Exchanges exceeds (a :: values) (a :: values') := by
  apply ReflTransGen.lift (a :: ·) _ _ _ h
  rintro _ _ ⟨front, rest, hab⟩
  exact Exchange.intro (a :: front) rest hab

theorem Exchanges.append (h : Exchanges exceeds values values') (rest : List α) :
    Exchanges exceeds (values ++ rest) (values' ++ rest) := by
  apply ReflTransGen.lift (· ++ rest) _ _ _ h
  rintro _ _ ⟨front, later, hab⟩
  simp only [Function.onFun, List.append_assoc, List.cons_append]
  exact Exchange.intro front (later ++ rest) hab

theorem Exchanges.perm (h : Exchanges exceeds values values') : values.Perm values' := by
  induction h with
  | refl => exact List.Perm.refl values
  | tail _ hlast ih =>
      obtain ⟨front, rest, -⟩ := hlast
      exact ih.trans (List.Perm.append_left front (List.Perm.swap _ _ rest))

/-- A relation that does not care which of two exchanged entries comes first. -/
theorem Exchanges.pairwise_iff {R : α → α → Prop} (hR : ∀ a b, exceeds a b → R a b ∧ R b a)
    (h : Exchanges exceeds values values') : values.Pairwise R ↔ values'.Pairwise R := by
  induction h with
  | refl => exact Iff.rfl
  | tail _ hlast ih =>
      obtain ⟨front, rest, hab⟩ := hlast
      obtain ⟨hR, hR'⟩ := hR _ _ hab
      rw [ih]
      simp only [List.pairwise_append, List.pairwise_cons, List.forall_mem_cons, hR, hR', true_and,
        and_left_comm]

section Keys

variable {κ : Type*} [LinearOrder κ] [LinearOrder α] {key : α → κ}

theorem pairwise_le_iff_of_exchanges (hkey : Monotone key)
    (h : Exchanges (fun a b => key b < key a) values values')
    (hsorted : values'.Pairwise (fun a b => key a ≤ key b)) :
    values'.Pairwise (· ≤ ·) ↔ values.Pairwise (fun a b => key a = key b → a ≤ b) := by
  have hclasses : values.Pairwise (fun a b => key a = key b → a ≤ b) ↔
      values'.Pairwise (fun a b => key a = key b → a ≤ b) := by
    apply h.pairwise_iff
    intro a b hab
    exact ⟨fun heq => absurd heq (ne_of_gt hab), fun heq => absurd heq (ne_of_lt hab)⟩
  rw [hclasses]
  constructor
  · intro hle
    apply hle.imp
    intro a b hab _
    exact hab
  · intro hequal
    apply (hequal.and hsorted).imp
    rintro a b ⟨hab, hle⟩
    rcases hle.lt_or_eq with hlt | heq
    · exact le_of_lt (hkey.reflect_lt hlt)
    · exact hab heq

end Keys

end FortyTwo.Foundation
