import FortyTwo.Foundation.CInt

/-!
The memory that the functions of the library allocate, and their `int`s. `malloc` succeeds;
what it gives holds nothing that may be read.
-/

namespace FortyTwo.Libft

open Foundation

abbrev Str := List Char

inductive Fault where
  | overflow
  /-- A place outside of an array is read or written. -/
  | outOfBounds
  /-- A place is read before it is written. -/
  | unwritten
  deriving DecidableEq, Repr

theorem ok_bind {α β : Type} (a : α) (f : α → Except Fault β) : (.ok a >>= f) = f a := rfl

theorem ok_eq_bind_iff {α β : Type} {x : Except Fault α} {f : α → Except Fault β} {b : β} :
    (x >>= f) = .ok b ↔ ∃ a, x = .ok a ∧ f a = .ok b := by
  cases x with
  | error fault =>
      constructor
      · intro h
        cases h
      · rintro ⟨a, ha, -⟩
        cases ha
  | ok a =>
      rw [ok_bind]
      constructor
      · intro h
        exact ⟨a, rfl, h⟩
      · rintro ⟨a', ha, h⟩
        rwa [Except.ok.inj ha]

theorem mapM_eq_ok_iff {α β : Type} {f : α → Except Fault β} {g : α → β} {l : List α} :
    l.mapM f = .ok (l.map g) ↔ ∀ x ∈ l, f x = .ok (g x) := by
  induction l with
  | nil => exact iff_of_true rfl (List.forall_mem_nil _)
  | cons a rest ih =>
      rw [List.mapM_cons, List.forall_mem_cons, ok_eq_bind_iff, ← ih]
      constructor
      · rintro ⟨b, hb, h⟩
        obtain ⟨bs, hbs, h⟩ := ok_eq_bind_iff.mp h
        obtain ⟨rfl, rfl⟩ := List.cons.inj (Except.ok.inj h)
        exact ⟨hb, hbs⟩
      · rintro ⟨hb, hbs⟩
        exact ⟨g a, hb, ok_eq_bind_iff.mpr ⟨rest.map g, hbs, rfl⟩⟩

/-- The value of an operation on `int`s. -/
def int (n : Int) : Except Fault Int := (CInt.checked .overflow n).map Subtype.val

theorem int_of_fits {n : Int} (h : -2 ^ 31 ≤ n ∧ n < 2 ^ 31) : int n = .ok n := by
  rw [int, CInt.checked_of_fits _ h]
  rfl

theorem int_overflow {n : Int} (h : 2 ^ 31 ≤ n) : int n = .error .overflow := by
  rw [int, CInt.checked, dif_neg fun hfits => absurd hfits.2 (not_lt.mpr h)]
  rfl

section Store

variable {α : Type*}

/-- An array of so many places. -/
def malloc (size : Nat) : List (Option α) := List.replicate size none

/-- `array[i] = x`. -/
def store (array : List (Option α)) (i : Int) (x : α) : Except Fault (List (Option α)) :=
  if 0 ≤ i ∧ i < array.length then .ok (array.set i.toNat (some x)) else .error .outOfBounds

theorem store_at (front rest : List (Option α)) (old : Option α) (x : α) :
    store (front ++ old :: rest) front.length x = .ok (front ++ some x :: rest) := by
  have hbounds : (0 : Int) ≤ front.length ∧ (front.length : Int) < (front ++ old :: rest).length := by
    rw [List.length_append, List.length_cons]
    omega
  rw [store, if_pos hbounds, Int.toNat_natCast, List.set_append_right _ _ (le_refl _), Nat.sub_self]
  rfl

/-- The first place that is not written yet. -/
theorem store_malloc (front : List (Option α)) (n : Nat) (x : α) :
    store (front ++ malloc (n + 1)) front.length x = .ok (front ++ [some x] ++ malloc n) := by
  rw [List.append_assoc]
  exact store_at front (malloc n) none x

/-- A character after the other, and a zero behind them. -/
def storeString (array : List (Option Char)) (i : Nat) : Str → Except Fault (List (Option Char))
  | [] => store array i '\x00'
  | c :: text => do
      let array ← store array i c
      storeString array (i + 1) text

theorem storeString_eq {text : Str} {rest : List (Option Char)} (h : text.length < rest.length)
    (front : List (Option Char)) : storeString (front ++ rest) front.length text =
      .ok (front ++ (text.map some ++ some '\x00' :: rest.drop (text.length + 1))) := by
  induction text generalizing front rest with
  | nil =>
      obtain ⟨old, rest, rfl⟩ := List.exists_cons_of_length_pos h
      exact store_at front rest old '\x00'
  | cons c text ih =>
      obtain ⟨old, rest, rfl⟩ := List.exists_cons_of_length_pos (Nat.zero_lt_of_lt h)
      have hlater := ih (Nat.lt_of_succ_lt_succ h) (front ++ [some c])
      rw [List.length_append, List.length_singleton, List.append_assoc, List.append_assoc] at hlater
      rw [storeString, store_at, ok_bind]
      exact hlater

end Store

/-- The string that begins an array, up to its zero. -/
def cString : List (Option Char) → Except Fault Str
  | [] => .error .outOfBounds
  | none :: _ => .error .unwritten
  | some c :: rest => if c = '\x00' then .ok [] else (cString rest).map (c :: ·)

theorem cString_of_written {text : Str} (h : '\x00' ∉ text) (rest : List (Option Char)) :
    cString (text.map some ++ some '\x00' :: rest) = .ok text := by
  induction text with
  | nil => rfl
  | cons c text ih =>
      obtain ⟨hc, htext⟩ := not_or.mp (mt List.mem_cons.mpr h)
      rw [List.map_cons, List.cons_append, cString, if_neg (Ne.symm hc), ih htext]
      rfl

/-- A string that fits comes out again. -/
theorem cString_storeString {text : Str} (hzero : '\x00' ∉ text) {size : Nat}
    (h : text.length < size) : (storeString (malloc size) 0 text >>= cString) = .ok text := by
  have hroom : text.length < (malloc size : List (Option Char)).length := by
    rwa [malloc, List.length_replicate]
  have hstored := storeString_eq hroom []
  rw [List.nil_append, List.nil_append, List.length_nil] at hstored
  rw [hstored, ok_bind]
  exact cString_of_written hzero _

end FortyTwo.Libft
