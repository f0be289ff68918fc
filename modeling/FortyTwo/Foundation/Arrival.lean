import Mathlib.Tactic

/-!
A text that is arriving: what is there already, and the chunks that are still
to come.
-/

namespace FortyTwo.Foundation

structure Arrival (α : Type*) where
  arrived : List α
  coming : List (List α)

namespace Arrival

variable {α : Type*}

def text (s : Arrival α) : List α := s.arrived ++ s.coming.flatten

/-- Take chunks until `n` items have arrived, or no chunk is left. -/
def awaitFrom (n : Nat) (arrived : List α) : List (List α) → Arrival α
  | [] => ⟨arrived, []⟩
  | chunk :: rest =>
      if n ≤ arrived.length then ⟨arrived, chunk :: rest⟩
      else awaitFrom n (arrived ++ chunk) rest

def await (s : Arrival α) (n : Nat) : Arrival α := awaitFrom n s.arrived s.coming

def drop (s : Arrival α) (n : Nat) : Arrival α := ⟨s.arrived.drop n, s.coming⟩

/-- Wait for `n` items and leave them out. -/
def skip (s : Arrival α) (n : Nat) : Arrival α := (s.await n).drop n

theorem await_of_le {s : Arrival α} {n : Nat} (h : n ≤ s.arrived.length) : s.await n = s := by
  obtain ⟨arrived, coming⟩ := s
  cases coming with
  | nil => rfl
  | cons chunk rest => exact if_pos h

theorem await_cons {arrived chunk : List α} {rest : List (List α)} {n : Nat}
    (h : arrived.length < n) :
    (⟨arrived, chunk :: rest⟩ : Arrival α).await n = await ⟨arrived ++ chunk, rest⟩ n :=
  if_neg (by simpa using h)

theorem skip_of_le {s : Arrival α} {n : Nat} (h : n ≤ s.arrived.length) : s.skip n = s.drop n := by
  rw [skip, await_of_le h]

theorem skip_cons {arrived chunk : List α} {rest : List (List α)} {n : Nat}
    (h : arrived.length < n) :
    (⟨arrived, chunk :: rest⟩ : Arrival α).skip n = skip ⟨arrived ++ chunk, rest⟩ n := by
  rw [skip, skip, await_cons h]

/-- Waiting after leaving out what has already arrived. -/
theorem await_drop (s : Arrival α) {k n : Nat} (hk : k ≤ s.arrived.length) (hkn : k ≤ n) :
    (s.drop k).await (n - k) = (s.await n).drop k := by
  obtain ⟨arrived, coming⟩ := s
  induction coming generalizing arrived with
  | nil => rfl
  | cons chunk rest ih =>
      simp only at hk
      by_cases h : n ≤ arrived.length
      · have hleft : n - k ≤ ((⟨arrived, chunk :: rest⟩ : Arrival α).drop k).arrived.length := by
          simp only [drop, List.length_drop]
          omega
        rw [await_of_le hleft, await_of_le (s := ⟨arrived, chunk :: rest⟩) h]
      · have hdrop : (⟨arrived, chunk :: rest⟩ : Arrival α).drop k =
            ⟨arrived.drop k, chunk :: rest⟩ := rfl
        have happend : arrived.drop k ++ chunk = (arrived ++ chunk).drop k := by
          rw [List.drop_append_of_le_length hk]
        rw [hdrop, await_cons (by rw [List.length_drop]; omega), await_cons (by omega), happend]
        exact ih (arrived ++ chunk) (by simp only [List.length_append]; omega)

theorem skip_drop (s : Arrival α) {k n : Nat} (hk : k ≤ s.arrived.length) (hkn : k ≤ n) :
    (s.drop k).skip (n - k) = s.skip n := by
  have hsum : k + (n - k) = n := by omega
  rw [skip, skip, await_drop s hk hkn]
  simp only [drop, List.drop_drop, hsum]

end Arrival

end FortyTwo.Foundation
