import Mathlib.Tactic

/-!
Byte strings that encode a text in UTF-8. The first byte of a character says how
many follow it, so a valid string can be taken apart from the front.
-/

namespace FortyTwo.Foundation.Utf8

def encode (text : List Char) : List UInt8 := text.flatMap String.utf8EncodeChar

/-- A string that is the encoding of a text. -/
def Valid (data : List UInt8) : Prop := ∃ text, data = encode text

/-- The encoding of one character. -/
def IsChar (data : List UInt8) : Prop := ∃ c, data = String.utf8EncodeChar c

/-- How many bytes follow the first one of a character. -/
def followers (lead : UInt8) : Nat :=
  if 0xC2 ≤ lead ∧ lead ≤ 0xDF then 1
  else if 0xE0 ≤ lead ∧ lead ≤ 0xEF then 2
  else if 0xF0 ≤ lead ∧ lead ≤ 0xF4 then 3
  else 0

/-- The bounds of a byte, as numbers. -/
private theorem le_ofNat_iff {k n : Nat} (hk : k < 256) (hn : n < 256) :
    UInt8.ofNat k ≤ UInt8.ofNat n ↔ k ≤ n := by
  rw [UInt8.le_iff_toNat_le, UInt8.toNat_ofNat', UInt8.toNat_ofNat', Nat.mod_eq_of_lt hk,
    Nat.mod_eq_of_lt hn]

private theorem followers_ofNat {n : Nat} (hn : n < 256) :
    followers (UInt8.ofNat n) = if 0xC2 ≤ n ∧ n ≤ 0xDF then 1
      else if 0xE0 ≤ n ∧ n ≤ 0xEF then 2
      else if 0xF0 ≤ n ∧ n ≤ 0xF4 then 3
      else 0 := by
  have hlow : ∀ k < 256, (UInt8.ofNat k ≤ UInt8.ofNat n ↔ k ≤ n) :=
    fun k hk => le_ofNat_iff hk hn
  have hhigh : ∀ k < 256, (UInt8.ofNat n ≤ UInt8.ofNat k ↔ n ≤ k) :=
    fun k hk => le_ofNat_iff hn hk
  rw [followers]
  simp only [← hlow 0xC2 (by decide), ← hhigh 0xDF (by decide), ← hlow 0xE0 (by decide),
    ← hhigh 0xEF (by decide), ← hlow 0xF0 (by decide), ← hhigh 0xF4 (by decide)]
  rfl

theorem followers_ascii {c : UInt8} (h : c < 128) : followers c = 0 := by
  have hc : c.toNat < 128 := UInt8.lt_iff_toNat_lt.mp h
  have hofNat : UInt8.ofNat c.toNat = c := by simp
  rw [← hofNat, followers_ofNat (by omega), if_neg (by omega), if_neg (by omega),
    if_neg (by omega)]

private theorem le_followed (n : Nat) : 128 ≤ UInt8.ofNat (n % 64 + 128) := by
  have hle : UInt8.ofNat 128 ≤ UInt8.ofNat (n % 64 + 128) :=
    (le_ofNat_iff (by decide) (by omega)).mpr (Nat.le_add_left 128 _)
  exact hle

/-- The first byte of a character announces the others, and none of these begins
a character. -/
theorem exists_lead (c : Char) :
    ∃ lead rest, String.utf8EncodeChar c = lead :: rest ∧ rest.length = followers lead ∧
      ∀ b ∈ rest, 128 ≤ b := by
  have hmax : c.val.toNat < 0x110000 := by
    rcases c.valid with h | h
    · exact lt_trans h (by decide)
    · exact h.2
  simp only [String.utf8EncodeChar]
  split
  · refine ⟨_, _, rfl, ?_, by simp⟩
    rw [followers_ofNat (by omega), if_neg (by omega), if_neg (by omega), if_neg (by omega)]
    rfl
  · split
    · refine ⟨_, _, rfl, ?_, List.forall_mem_singleton.mpr (le_followed _)⟩
      rw [followers_ofNat (by omega), if_pos (by omega)]
      rfl
    · split
      · refine ⟨_, _, rfl, ?_, ?_⟩
        · rw [followers_ofNat (by omega), if_neg (by omega), if_pos (by omega)]
          rfl
        · rw [List.forall_mem_cons, List.forall_mem_singleton]
          exact ⟨le_followed _, le_followed _⟩
      · refine ⟨_, _, rfl, ?_, ?_⟩
        · rw [followers_ofNat (by omega), if_neg (by omega), if_neg (by omega), if_pos (by omega)]
          rfl
        · rw [List.forall_mem_cons, List.forall_mem_cons, List.forall_mem_singleton]
          exact ⟨le_followed _, le_followed _, le_followed _⟩

theorem valid_nil : Valid [] := ⟨[], rfl⟩

theorem IsChar.append {data rest : List UInt8} (h : IsChar data) (hrest : Valid rest) :
    Valid (data ++ rest) := by
  obtain ⟨c, rfl⟩ := h
  obtain ⟨text, rfl⟩ := hrest
  exact ⟨c :: text, rfl⟩

theorem isChar_ascii {c : UInt8} (h : c < 128) : IsChar [c] := by
  have hc : c.toNat < 128 := UInt8.lt_iff_toNat_lt.mp h
  have hval : (UInt32.ofNat c.toNat).toNat = c.toNat := by
    rw [UInt32.toNat_ofNat', Nat.mod_eq_of_lt (by omega)]
  have hvalid : (UInt32.ofNat c.toNat).isValidChar := Or.inl (by rw [hval]; omega)
  refine ⟨⟨UInt32.ofNat c.toNat, hvalid⟩, ?_⟩
  simp only [String.utf8EncodeChar, hval]
  rw [if_pos (by omega), UInt8.ofNat_toNat]

/-- The first character of a valid string is what its first byte announces. -/
theorem valid_cons_iff {lead : UInt8} {followed rest : List UInt8}
    (h : followed.length = followers lead) :
    Valid (lead :: (followed ++ rest)) ↔ IsChar (lead :: followed) ∧ Valid rest := by
  constructor
  · rintro ⟨text, htext⟩
    cases text with
    | nil => cases htext
    | cons c text =>
        obtain ⟨lead', rest', hchar, hlength, _⟩ := exists_lead c
        rw [encode, List.flatMap_cons, hchar, List.cons_append, List.cons.injEq] at htext
        obtain ⟨rfl, htail⟩ := htext
        obtain ⟨rfl, hrest⟩ := List.append_inj htail (h.trans hlength.symm)
        exact ⟨⟨c, hchar.symm⟩, ⟨text, hrest⟩⟩
  · rintro ⟨hchar, hrest⟩
    exact hchar.append hrest

/-- A valid string begins with a character. -/
theorem Valid.exists_followed {lead : UInt8} {data : List UInt8} (h : Valid (lead :: data)) :
    ∃ followed rest, data = followed ++ rest ∧ followed.length = followers lead ∧
      (∀ b ∈ followed, 128 ≤ b) ∧ Valid rest := by
  obtain ⟨text, htext⟩ := h
  cases text with
  | nil => cases htext
  | cons c text =>
      obtain ⟨lead', followed, hchar, hlength, hhigh⟩ := exists_lead c
      rw [encode, List.flatMap_cons, hchar, List.cons_append, List.cons.injEq] at htext
      obtain ⟨rfl, htail⟩ := htext
      exact ⟨followed, encode text, htail, hlength, hhigh, ⟨text, rfl⟩⟩

end FortyTwo.Foundation.Utf8
