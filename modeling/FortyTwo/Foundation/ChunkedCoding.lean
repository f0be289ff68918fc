import Mathlib.Tactic

/-!
The chunked coding of a body: chunks with their sizes in hexadecimal, ended by
a chunk of size zero. The reader takes the chunks apart again.
-/

namespace FortyTwo.Foundation.Chunked

/-- The digits of a number as text, the highest one first. -/
def hexDigits (n : Nat) : List UInt8 := (Nat.toDigits 16 n).map (fun c => UInt8.ofNat c.toNat)

def hexValue (c : UInt8) : Option Nat :=
  if 48 ≤ c ∧ c ≤ 57 then some (c.toNat - 48)
  else if 97 ≤ c ∧ c ≤ 102 then some (c.toNat - 87)
  else if 65 ≤ c ∧ c ≤ 70 then some (c.toNat - 55)
  else none

def chunk (data : List UInt8) : List UInt8 :=
  hexDigits data.length ++ 13 :: 10 :: (data ++ [13, 10])

def lastChunk : List UInt8 := [48, 13, 10, 13, 10]

/-- The digits up to the line end. -/
def readDigits (value : Nat) : List UInt8 → Option (Nat × List UInt8)
  | 13 :: 10 :: rest => some (value, rest)
  | c :: rest =>
      match hexValue c with
      | some digit => readDigits (value * 16 + digit) rest
      | none => none
  | [] => none

/-- The number of at least one digit at the front. -/
def readSize : List UInt8 → Option (Nat × List UInt8)
  | c :: rest =>
      match hexValue c with
      | some digit => readDigits digit rest
      | none => none
  | [] => none

def skipLineEnd : List UInt8 → Option (List UInt8)
  | 13 :: 10 :: rest => some rest
  | _ => none

/-- The body, and what follows its last chunk. `fuel` bounds the chunks. -/
def readChunks : Nat → List UInt8 → Option (List UInt8 × List UInt8)
  | 0, _ => none
  | fuel + 1, text =>
      match readSize text with
      | none => none
      | some (size, rest) =>
          if size = 0 then (skipLineEnd rest).map (fun rest => ([], rest))
          else if size ≤ rest.length then
            match skipLineEnd (rest.drop size) with
            | some more => (readChunks fuel more).map (fun r => (rest.take size ++ r.1, r.2))
            | none => none
          else none

def decode (text : List UInt8) : Option (List UInt8 × List UInt8) := readChunks text.length text

private theorem hexValue_digitChar (d : Fin 16) :
    hexValue (UInt8.ofNat d.val.digitChar.toNat) = some d.val := by
  revert d
  decide

private theorem readDigits_digitChar {d : Nat} (hd : d < 16) (value : Nat) (tail : List UInt8) :
    readDigits value (UInt8.ofNat d.digitChar.toNat :: tail) =
      readDigits (value * 16 + d) tail := by
  have hvalue := hexValue_digitChar ⟨d, hd⟩
  have hne : UInt8.ofNat d.digitChar.toNat ≠ 13 := by
    intro h
    have hnone : hexValue 13 = none := by decide
    simp only [h, hnone] at hvalue
    cases hvalue
  rw [readDigits]
  · simp only [hvalue]
  · exact fun rest hc => absurd hc hne

private theorem hexValue_of_mem_hexDigits (n : Nat) :
    ∀ c ∈ hexDigits n, ∃ d, hexValue c = some d := by
  induction n using Nat.strongRecOn with
  | ind n ih =>
      intro c hc
      by_cases hsmall : n < 16
      · simp only [hexDigits, Nat.toDigits_of_lt_base hsmall, List.map_cons, List.map_nil,
          List.mem_singleton] at hc
        exact ⟨n, hc ▸ hexValue_digitChar ⟨n, hsmall⟩⟩
      · simp only [hexDigits, Nat.toDigits_of_base_le (by decide : 1 < 16) (by omega : 16 ≤ n),
          List.map_append, List.mem_append, List.map_cons, List.map_nil, List.mem_singleton] at hc
        rcases hc with hc | rfl
        · exact ih (n / 16) (by omega) c hc
        · exact ⟨n % 16, hexValue_digitChar ⟨n % 16, Nat.mod_lt n (by decide)⟩⟩

/-- Reading the digits of `n` appends them to the number read so far. -/
private theorem readDigits_hexDigits (n : Nat) :
    ∀ (value : Nat) (tail : List UInt8), readDigits value (hexDigits n ++ tail) =
      readDigits (value * 16 ^ (hexDigits n).length + n) tail := by
  induction n using Nat.strongRecOn with
  | ind n ih =>
      intro value tail
      by_cases hsmall : n < 16
      · have hdigits : hexDigits n = [UInt8.ofNat n.digitChar.toNat] := by
          simp [hexDigits, Nat.toDigits_of_lt_base hsmall]
        rw [hdigits, List.singleton_append, readDigits_digitChar hsmall]
        simp
      · have hdigits : hexDigits n =
            hexDigits (n / 16) ++ [UInt8.ofNat (n % 16).digitChar.toNat] := by
          simp [hexDigits, Nat.toDigits_of_base_le (by decide : 1 < 16) (by omega : 16 ≤ n)]
        rw [hdigits, List.append_assoc, ih (n / 16) (by omega), List.singleton_append,
          readDigits_digitChar (Nat.mod_lt n (by decide)), List.length_append,
          List.length_singleton, Nat.pow_succ]
        congr 1
        have hsplit := Nat.div_add_mod n 16
        calc (value * 16 ^ (hexDigits (n / 16)).length + n / 16) * 16 + n % 16
            = value * (16 ^ (hexDigits (n / 16)).length * 16) + (16 * (n / 16) + n % 16) := by ring
          _ = _ := by rw [hsplit]

private theorem readSize_hexDigits (n : Nat) (rest : List UInt8) :
    readSize (hexDigits n ++ 13 :: 10 :: rest) = some (n, rest) := by
  have hread := readDigits_hexDigits n 0 (13 :: 10 :: rest)
  rw [Nat.zero_mul, Nat.zero_add, readDigits] at hread
  cases hdigits : hexDigits n with
  | nil => simp [hexDigits] at hdigits
  | cons c more =>
      obtain ⟨d, hd⟩ := hexValue_of_mem_hexDigits n c (by simp [hdigits])
      have hne : c ≠ 13 := by
        rintro rfl
        exact absurd hd (by decide +revert)
      rw [hdigits, List.cons_append, readDigits, hd] at hread
      · rw [List.cons_append, readSize, hd]
        simpa using hread
      · exact fun rest hc => absurd hc hne

/-- A chunk at the front is read alone. -/
theorem readChunks_chunk {data : List UInt8} (hdata : data ≠ []) (fuel : Nat)
    (more : List UInt8) :
    readChunks (fuel + 1) (chunk data ++ more) =
      (readChunks fuel more).map (fun r => (data ++ r.1, r.2)) := by
  have htext : chunk data ++ more =
      hexDigits data.length ++ 13 :: 10 :: (data ++ 13 :: 10 :: more) := by simp [chunk]
  have hlength : data.length ≠ 0 := by simpa using hdata
  rw [htext, readChunks, readSize_hexDigits]
  simp only [hlength, if_false, List.length_append, List.drop_left, List.take_left, skipLineEnd]
  rw [if_pos (by omega)]

theorem readChunks_lastChunk (fuel : Nat) (rest : List UInt8) :
    readChunks (fuel + 1) (lastChunk ++ rest) = some ([], rest) := by
  simp [readChunks, lastChunk, readSize, readDigits, hexValue, skipLineEnd]

theorem length_chunk_pos (data : List UInt8) : 0 < (chunk data).length := by
  simp [chunk]

private theorem length_le_flatten (chunks : List (List UInt8)) :
    chunks.length ≤ ((chunks.map chunk).flatten).length := by
  induction chunks with
  | nil => simp
  | cons data chunks ih =>
      have hdata := length_chunk_pos data
      simp only [List.map_cons, List.flatten_cons, List.length_cons, List.length_append]
      omega

/-- Chunks that are not empty decode to what they hold, up to the last chunk. -/
theorem decode_chunks (chunks : List (List UInt8)) (hchunks : ∀ data ∈ chunks, data ≠ [])
    (rest : List UInt8) :
    decode ((chunks.map chunk).flatten ++ (lastChunk ++ rest)) = some (chunks.flatten, rest) := by
  have hread : ∀ fuel, chunks.length < fuel →
      readChunks fuel ((chunks.map chunk).flatten ++ (lastChunk ++ rest)) =
        some (chunks.flatten, rest) := by
    induction chunks with
    | nil =>
        intro fuel hfuel
        obtain ⟨fuel, rfl⟩ : ∃ f, fuel = f + 1 := ⟨fuel - 1, by omega⟩
        exact readChunks_lastChunk fuel rest
    | cons data chunks ih =>
        intro fuel hfuel
        rw [List.length_cons] at hfuel
        obtain ⟨fuel, rfl⟩ : ∃ f, fuel = f + 1 := ⟨fuel - 1, by omega⟩
        rw [List.map_cons, List.flatten_cons, List.append_assoc,
          readChunks_chunk (hchunks data (by simp)),
          ih (fun d hd => hchunks d (by simp [hd])) fuel (by omega)]
        rfl
  have hlength := length_le_flatten chunks
  apply hread _
  simp only [List.length_append, lastChunk, List.length_cons]
  omega

end FortyTwo.Foundation.Chunked
