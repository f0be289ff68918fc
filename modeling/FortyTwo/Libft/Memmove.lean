import FortyTwo.Foundation.PlaceCopy
import FortyTwo.Libft.Arrays

/-!
`ft_memmove.c`: the bytes of one range of the memory are copied to another, which may overlap it.
Both pointers point into the same memory, and a `size_t` counts all of its bytes.
-/

namespace FortyTwo.Libft

open Foundation

abbrev Memory := List UInt8

/-- The index of a byte of the memory. `none` is `NULL`, which comes before every byte. -/
abbrev Pointer := Option Nat

/-- `pointer[i]`. -/
def loadByte (memory : Memory) : Pointer → Nat → Except Fault UInt8
  | none, _ => .error .outOfBounds
  | some place, i =>
      match memory[place + i]? with
      | none => .error .outOfBounds
      | some byte => .ok byte

/-- `pointer[i] = byte`. -/
def storeByte (memory : Memory) : Pointer → Nat → UInt8 → Except Fault Memory
  | none, _, _ => .error .outOfBounds
  | some place, i, byte =>
      if place + i < memory.length then .ok (memory.set (place + i) byte) else .error .outOfBounds

/-- `destination[i] = source[i]`. -/
def copyByte (destination source : Pointer) (i : Nat) (memory : Memory) : Except Fault Memory := do
  let byte ← loadByte memory source i
  storeByte memory destination i byte

/-- The loop over `destination[len] = source[len]`. The test has taken one off `len` already. -/
def copyDown (destination source : Pointer) : Nat → Memory → Except Fault Memory
  -- `len` wraps here, and nothing reads it any more
  | 0, memory => .ok memory
  | len + 1, memory => do
      let memory ← copyByte destination source len memory
      copyDown destination source len memory

/-- The loop over `*destination++ = *source++`. -/
def copyUp : Nat → Pointer → Pointer → Memory → Except Fault Memory
  | 0, _, _, memory => .ok memory
  | len + 1, destination, source, memory => do
      let memory ← copyByte destination source 0 memory
      copyUp len (destination.map (· + 1)) (source.map (· + 1)) memory

/-- `destination > source`. -/
def isAbove (destination source : Pointer) : Bool := Option.lt (· < ·) source destination

/-- The pointer that is returned, and the memory afterwards. -/
def ftMemmove (memory : Memory) (dst src : Pointer) (len : Nat) :
    Except Fault (Pointer × Memory) :=
  if dst = none ∧ src = none then .ok (none, memory)
  else if dst = src ∨ len = 0 then .ok (dst, memory)
  else if isAbove dst src then do
    let memory ← copyDown dst src len memory
    .ok (dst, memory)
  else do
    let memory ← copyUp len dst src memory
    .ok (dst, memory)

section Loops

variable {memory : Memory} {dst src : Nat}

theorem copyByte_eq {i : Nat} (hdst : dst + i < memory.length) (hsrc : src + i < memory.length) :
    copyByte (some dst) (some src) i memory = .ok (copyPlace dst src memory i) := by
  rw [copyByte, loadByte, copyPlace, List.getElem?_eq_getElem hsrc, ok_bind, storeByte,
    if_pos hdst]

/-- The loop from the last byte to the first. -/
theorem copyDown_eq (len : Nat) (hdst : dst + len ≤ memory.length)
    (hsrc : src + len ≤ memory.length) :
    copyDown (some dst) (some src) len memory =
      .ok (copyPlaces dst src (List.range len).reverse memory) := by
  induction len generalizing memory with
  | zero => rfl
  | succ len ih =>
      have hlength := @length_copyPlace _ dst src memory len
      have hlater := @ih (copyPlace dst src memory len) (by omega) (by omega)
      rw [copyDown, copyByte_eq (by omega) (by omega), ok_bind, hlater, List.range_succ,
        List.reverse_append]
      rfl

theorem copyPlaces_map_succ (order : List Nat) :
    copyPlaces dst src (order.map Nat.succ) memory =
      copyPlaces (dst + 1) (src + 1) order memory := by
  have hplace : ∀ (memory : Memory) (i : Nat),
      copyPlace dst src memory (i + 1) = copyPlace (dst + 1) (src + 1) memory i := by
    intro memory i
    rw [copyPlace, copyPlace, Nat.add_right_comm dst, Nat.add_right_comm src]
    rfl
  rw [copyPlaces, copyPlaces, List.foldl_map]
  exact congrArg (fun step => order.foldl step memory) (funext fun memory => funext (hplace memory))

/-- The loop from the first byte to the last. -/
theorem copyUp_eq (len : Nat) (hdst : dst + len ≤ memory.length)
    (hsrc : src + len ≤ memory.length) :
    copyUp len (some dst) (some src) memory = .ok (copyPlaces dst src (List.range len) memory) := by
  induction len generalizing memory dst src with
  | zero => rfl
  | succ len ih =>
      have hlength := @length_copyPlace _ dst src memory 0
      have hlater := @ih (copyPlace dst src memory 0) (dst + 1) (src + 1) (by omega) (by omega)
      rw [copyUp, copyByte_eq (by omega) (by omega), ok_bind, List.range_succ_eq_map]
      apply hlater.trans
      rw [← copyPlaces_map_succ]
      rfl

end Loops

section Bounds

/-- So many bytes of the memory, at a pointer into it. -/
def InRange (memory : Memory) (len : Nat) : Pointer → Prop
  | none => False
  | some place => place + len ≤ memory.length

variable {memory memory' : Memory} {dst src : Pointer}

theorem storeByte_inRange {i : Nat} {byte : UInt8} (h : storeByte memory dst i byte = .ok memory') :
    InRange memory (i + 1) dst ∧ memory'.length = memory.length := by
  cases dst with
  | none => cases h
  | some place =>
      rw [storeByte] at h
      split at h
      · next hlt =>
          cases h
          exact ⟨hlt, List.length_set⟩
      · cases h

theorem loadByte_inRange {i : Nat} {byte : UInt8} (h : loadByte memory src i = .ok byte) :
    InRange memory (i + 1) src := by
  cases src with
  | none => cases h
  | some place =>
      rw [loadByte] at h
      split at h
      · cases h
      · next hbyte =>
          obtain ⟨hlt, -⟩ := List.getElem?_eq_some_iff.mp hbyte
          exact hlt

theorem copyByte_inRange {i : Nat} (h : copyByte dst src i memory = .ok memory') :
    InRange memory (i + 1) dst ∧ InRange memory (i + 1) src ∧ memory'.length = memory.length := by
  obtain ⟨byte, hload, hstore⟩ := ok_eq_bind_iff.mp h
  obtain ⟨hdst, hlength⟩ := storeByte_inRange hstore
  exact ⟨hdst, loadByte_inRange hload, hlength⟩

theorem copyDown_inRange {len : Nat} (h : copyDown dst src (len + 1) memory = .ok memory') :
    InRange memory (len + 1) dst ∧ InRange memory (len + 1) src := by
  obtain ⟨next, hbyte, -⟩ := ok_eq_bind_iff.mp h
  obtain ⟨hdst, hsrc, -⟩ := copyByte_inRange hbyte
  exact ⟨hdst, hsrc⟩

theorem copyUp_inRange {len : Nat} (h : copyUp (len + 1) dst src memory = .ok memory') :
    InRange memory (len + 1) dst ∧ InRange memory (len + 1) src := by
  induction len generalizing dst src memory with
  | zero =>
      obtain ⟨next, hbyte, -⟩ := ok_eq_bind_iff.mp h
      obtain ⟨hdst, hsrc, -⟩ := copyByte_inRange hbyte
      exact ⟨hdst, hsrc⟩
  | succ len ih =>
      obtain ⟨next, hbyte, hrest⟩ := ok_eq_bind_iff.mp h
      obtain ⟨hdst, hsrc, hlength⟩ := copyByte_inRange hbyte
      obtain ⟨hdstRest, hsrcRest⟩ := ih hrest
      cases dst with
      | none => cases hdst
      | some dst =>
          cases src with
          | none => cases hsrc
          | some src =>
              simp only [InRange, Option.map_some, hlength] at hdstRest hsrcRest ⊢
              omega

/-- `ft_memmove` keeps to the memory exactly when there is nothing to copy or both ranges lie
inside it. -/
theorem ftMemmove_returns_iff (memory : Memory) (dst src : Pointer) (len : Nat) :
    (∃ result, ftMemmove memory dst src len = .ok result) ↔
      dst = src ∨ len = 0 ∨ (InRange memory len dst ∧ InRange memory len src) := by
  unfold ftMemmove
  by_cases hnull : dst = none ∧ src = none
  · rw [if_pos hnull, hnull.1, hnull.2]
    exact iff_of_true ⟨_, rfl⟩ (Or.inl rfl)
  rw [if_neg hnull, ← or_assoc]
  by_cases hnothing : dst = src ∨ len = 0
  · rw [if_pos hnothing]
    exact iff_of_true ⟨_, rfl⟩ (Or.inl hnothing)
  rw [if_neg hnothing, or_iff_right hnothing]
  obtain ⟨len, rfl⟩ := Nat.exists_eq_succ_of_ne_zero (not_or.mp hnothing).2
  constructor
  · rintro ⟨result, hresult⟩
    split at hresult
    · obtain ⟨final, hloop, -⟩ := ok_eq_bind_iff.mp hresult
      exact copyDown_inRange hloop
    · obtain ⟨final, hloop, -⟩ := ok_eq_bind_iff.mp hresult
      exact copyUp_inRange hloop
  · rintro ⟨hdst, hsrc⟩
    cases dst with
    | none => cases hdst
    | some dst =>
        cases src with
        | none => cases hsrc
        | some src =>
            rw [copyDown_eq _ hdst hsrc, copyUp_eq _ hdst hsrc]
            split <;> exact ⟨_, rfl⟩

end Bounds

/-- After `ft_memmove` the range at `dst` holds what the range at `src` held before, however they
overlap, and every other byte is as it was. -/
theorem ftMemmove_moved (memory : Memory) (dst src len : Nat) (hdst : dst + len ≤ memory.length)
    (hsrc : src + len ≤ memory.length) :
    ∃ memory', ftMemmove memory (some dst) (some src) len = .ok (some dst, memory') ∧
      Moved dst src len memory memory' := by
  unfold ftMemmove
  rw [if_neg fun h => nomatch h.1]
  by_cases hnothing : some dst = some src ∨ len = 0
  · rw [if_pos hnothing]
    refine ⟨memory, rfl, ?_⟩
    rcases hnothing with hsame | rfl
    · cases hsame
      exact moved_same dst len memory
    · exact moved_nothing dst src memory
  · rw [if_neg hnothing]
    by_cases habove : isAbove (some dst) (some src) = true
    · have hle : src ≤ dst := Nat.le_of_lt (of_decide_eq_true habove)
      rw [if_pos habove, copyDown_eq len hdst hsrc]
      refine ⟨_, rfl, ?_⟩
      apply moved_copyPlaces (readsFirst_down hle len) _ hdst hsrc
      intro i
      rw [List.mem_reverse, List.mem_range]
    · have hle : dst ≤ src := Nat.le_of_not_lt fun hlt => habove (decide_eq_true hlt)
      rw [if_neg habove, copyUp_eq len hdst hsrc]
      refine ⟨_, rfl, ?_⟩
      exact moved_copyPlaces (readsFirst_up hle len) (fun _ => List.mem_range) hdst hsrc

/-- Four bytes move up by one place. -/
theorem ftMemmove_moved_overlapping :
    ∃ memory', ftMemmove [1, 2, 3, 4, 5] (some 1) (some 0) 4 = .ok (some 1, memory') ∧
      Moved 1 0 4 [1, 2, 3, 4, 5] memory' :=
  ftMemmove_moved [1, 2, 3, 4, 5] 1 0 4 (by decide) (by decide)

example : ftMemmove [1, 2, 3, 4, 5] (some 1) (some 0) 4 = .ok (some 1, [1, 1, 2, 3, 4]) := rfl

end FortyTwo.Libft
