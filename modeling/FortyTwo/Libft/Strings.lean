import FortyTwo.Foundation.Search
import FortyTwo.Foundation.Trimming
import FortyTwo.Libft.Arrays

/-!
Searching, trimming and copying within a size: `ft_strnstr`, `ft_strtrim`, `ft_strlcpy` and
`ft_strlcat`. The pointers are not `NULL`, a `size_t` counts every string, and `malloc` succeeds.
-/

namespace FortyTwo.Libft

open Foundation

/-- The place of the character that is found; the zero is behind all others. -/
def ftStrchr (string : Str) (c : Char) : Option Nat :=
  match string with
  | [] => if c = '\x00' then some 0 else none
  | d :: rest => if d = c then some 0 else (ftStrchr rest c).map (· + 1)

def ftStrncmp : Str → Str → Nat → Int
  | _, _, 0 => 0
  | [], [], _ + 1 => 0
  | s1, s2, n + 1 =>
      if s1.headD '\x00' ≠ s2.headD '\x00' then
        (s1.headD '\x00').toNat - (s2.headD '\x00').toNat
      else ftStrncmp s1.tail s2.tail n

/-- The loop of `ft_strnstr`, with how far `big_str` has moved. -/
def strnstrLoop (smallStr : Str) : Str → Nat → Nat → Option Nat
  | [], _, _ => none
  | c :: rest, len, moved =>
      if smallStr.length ≤ len then
        if c = smallStr.headD '\x00' ∧ ftStrncmp (c :: rest) smallStr smallStr.length = 0 then
          some moved
        else strnstrLoop smallStr rest (len - 1) (moved + 1)
      else none

/-- How far the pointer that is returned is behind `big_str`. -/
def ftStrnstr (bigStr smallStr : Str) (len : Nat) : Option Nat :=
  if smallStr = [] then some 0 else strnstrLoop smallStr bigStr len 0

/-- The loop of `ft_strlcpy`. -/
def copyWithin (dstsize : Nat) :
    Str → Nat → List (Option Char) → Except Fault (Nat × List (Option Char))
  | [], i, dst => .ok (i, dst)
  | c :: src, i, dst =>
      if i < dstsize then do
        let dst ← store dst i c
        copyWithin dstsize src (i + 1) dst
      else .ok (i, dst)

/-- What is returned is the length as an `int`. -/
def ftStrlcpy (dst : List (Option Char)) (src : Str) (dstsize : Nat) :
    Except Fault (Int × List (Option Char)) := do
  let srcLen : Int := (src.length : Int).bmod (2 ^ 32)
  if dstsize = 0 then
    .ok (srcLen, dst)
  else
    let (i, dst) ← copyWithin dstsize src 0 dst
    let dst ← store dst (if dstsize ≤ src.length then dstsize - 1 else i) '\x00'
    .ok (srcLen, dst)

/-- The loop of `ft_strlcat`: `i` is ahead of `j` by the length that there was. -/
def appendWithin (destLength dstsize : Nat) :
    Str → Nat → List (Option Char) → Except Fault (Nat × List (Option Char))
  | [], j, dst => .ok (j, dst)
  | c :: src, j, dst =>
      if j + destLength < dstsize then do
        let dst ← store dst (destLength + j : Nat) c
        appendWithin destLength dstsize src (j + 1) dst
      else .ok (j, dst)

def ftStrlcat (dst : List (Option Char)) (src : Str) (dstsize : Nat) :
    Except Fault (Int × List (Option Char)) := do
  let dest ← cString dst
  let destLength := dest.length
  if dstsize < destLength then
    .ok (((dstsize + src.length : Nat) : Int).bmod (2 ^ 32), dst)
  else
    let (j, dst) ← appendWithin destLength dstsize src 0 dst
    let i := destLength + j
    let dst ← store dst (if destLength + j = dstsize ∧ j > 0 then (i : Int) - 1 else i) '\x00'
    .ok (((destLength + src.length : Nat) : Int).bmod (2 ^ 32), dst)

/-- The first loop of `ft_strtrim`, over what `s1` is from `start` on; `ft_strchr` finds the
zero behind it as well. -/
def startLoop (set : Str) : Str → Int → Except Fault Int
  | [], start => if (ftStrchr set '\x00').isSome then int (start + 1) else .ok start
  | c :: rest, start =>
      if (ftStrchr set c).isSome then do
        let start ← int (start + 1)
        startLoop set rest start
      else .ok start

/-- The second loop, which reads the place before `end`. -/
def endLoop (s1 set : Str) : Nat → Except Fault Nat
  | 0 => .error .outOfBounds
  | last + 1 =>
      if (ftStrchr set (s1.getD last '\x00')).isSome then endLoop s1 set last
      else .ok (last + 1)

def ftStrtrim (s1 set : Str) : Except Fault Str := do
  let stop ← int s1.length
  let start ← startLoop set s1 0
  if start > stop then
    .ok []
  else
    let stop ← endLoop s1 set stop.toNat
    let size ← int (stop - start + 1)
    let (_, trimmed) ← ftStrlcpy (malloc size.toNat) (s1.drop start.toNat) size.toNat
    cString trimmed

section Searching

theorem isSome_ftStrchr (string : Str) (c : Char) :
    (ftStrchr string c).isSome ↔ c ∈ string ∨ c = '\x00' := by
  induction string with
  | nil =>
      rw [ftStrchr]
      split <;> simp_all
  | cons d rest ih =>
      rw [ftStrchr]
      split
      · next hd => simp [hd]
      · next hd =>
          rw [Option.isSome_map, ih, List.mem_cons, or_assoc]
          simp [Ne.symm hd]

theorem ftStrncmp_eq_zero_iff {bigStr smallStr : Str} (h : '\x00' ∉ smallStr) :
    ftStrncmp bigStr smallStr smallStr.length = 0 ↔ smallStr <+: bigStr := by
  induction smallStr generalizing bigStr with
  | nil =>
      rw [List.length_nil, ftStrncmp]
      simp
  | cons c smallStr ih =>
      obtain ⟨hc, hsmall⟩ := not_or.mp (mt List.mem_cons.mpr h)
      cases bigStr with
      | nil =>
          have hdiff : ((0 : Nat) : Int) - c.toNat ≠ 0 := by
            intro hzero
            apply hc
            rw [← Char.toNat_inj]
            show 0 = c.toNat
            omega
          have hne : ('\x00' : Char) ≠ c := hc
          simpa [ftStrncmp, hne] using hdiff
      | cons d bigStr =>
          by_cases hd : d = c
          · simp [ftStrncmp, hd, ih hsmall, List.cons_prefix_cons]
          · have hdiff : (d.toNat : Int) - c.toNat ≠ 0 := by
              intro hzero
              apply hd
              rw [← Char.toNat_inj]
              omega
            have hne : ¬ c :: smallStr <+: d :: bigStr := by
              rw [List.cons_prefix_cons]
              exact fun hpre => hd hpre.1.symm
            simpa [ftStrncmp, hd, hne] using hdiff

private theorem strnstrLoop_eq {smallStr : Str} (hzero : '\x00' ∉ smallStr) (hne : smallStr ≠ [])
    (bigStr : Str) (len moved : Nat) :
    strnstrLoop smallStr bigStr len moved =
      (find smallStr (bigStr.take len)).map (· + moved) := by
  have hpos := List.length_pos_iff.mpr hne
  induction bigStr generalizing len moved with
  | nil =>
      have hnot : ¬ smallStr.isPrefixOf [] = true := by
        rw [List.isPrefixOf_iff_prefix, List.prefix_nil]
        exact hne
      rw [strnstrLoop, List.take_nil, find, if_neg hnot]
      rfl
  | cons c bigStr ih =>
      rw [strnstrLoop]
      split
      · next hlen =>
          obtain ⟨len, rfl⟩ := Nat.exists_eq_succ_of_ne_zero (Nat.ne_of_gt (hpos.trans_le hlen))
          have hfound : (c = smallStr.headD '\x00' ∧
              ftStrncmp (c :: bigStr) smallStr smallStr.length = 0) ↔
              smallStr.isPrefixOf (c :: bigStr.take len) = true := by
            rw [ftStrncmp_eq_zero_iff hzero, List.isPrefixOf_iff_prefix, ← List.take_succ_cons,
              List.prefix_take_iff]
            constructor
            · exact fun h => ⟨h.2, hlen⟩
            · rintro ⟨hpre, -⟩
              refine ⟨?_, hpre⟩
              obtain ⟨d, rest, rfl⟩ := List.exists_cons_of_ne_nil hne
              exact (List.cons_prefix_cons.mp hpre).1.symm
          rw [List.take_succ_cons, find]
          simp only [hfound]
          split
          · simp
          · rw [Nat.succ_sub_one, ih, Option.map_map]
            congr 1
            funext k
            exact (Nat.add_assoc k moved 1).symm.trans (Nat.add_right_comm k moved 1)
      · next hlen =>
          rw [find_eq_none_of_length_lt]
          · rfl
          · exact lt_of_le_of_lt (List.length_take_le _ _) (Nat.not_le.mp hlen)

/-- The first occurrence that ends within `len` characters. -/
theorem ftStrnstr_eq (bigStr : Str) {smallStr : Str} (hzero : '\x00' ∉ smallStr) (len : Nat) :
    ftStrnstr bigStr smallStr len = find smallStr (bigStr.take len) := by
  rw [ftStrnstr]
  split
  · next hnil =>
      rw [hnil, eq_comm, find_eq_zero_iff]
      exact List.nil_prefix
  · next hne =>
      rw [strnstrLoop_eq hzero hne]
      simp

end Searching

section Copying

/-- The one loop is the other with nothing there before. -/
private theorem copyWithin_eq (dstsize : Nat) (src : Str) (i : Nat) (dst : List (Option Char)) :
    copyWithin dstsize src i dst = appendWithin 0 dstsize src i dst := by
  induction src generalizing i dst with
  | nil => rfl
  | cons c src ih =>
      simp only [copyWithin, appendWithin, ih, Nat.add_zero, Nat.zero_add]

/-- As many characters as there is room for go behind those that are there. -/
private theorem appendWithin_eq {destLength j room : Nat} (src : Str)
    {front rest : List (Option Char)} (hfront : front.length = destLength + j)
    (hroom : room ≤ rest.length) :
    appendWithin destLength (destLength + j + room) src j (front ++ rest) =
      .ok (j + min room src.length,
        front ++ ((src.take room).map some ++ rest.drop (min room src.length))) := by
  induction src generalizing front rest j room with
  | nil => simp [appendWithin]
  | cons c src ih =>
      cases room with
      | zero =>
          rw [appendWithin, if_neg (by omega)]
          simp
      | succ room =>
          obtain ⟨old, rest, rfl⟩ := List.exists_cons_of_length_pos (Nat.zero_lt_of_lt hroom)
          have hfront' : (front ++ [some c]).length = destLength + (j + 1) := by
            rw [List.length_append, List.length_singleton, hfront, Nat.add_assoc]
          have hsize : destLength + (j + 1) + room = destLength + j + (room + 1) := by omega
          have hlater := ih hfront' (Nat.le_of_succ_le_succ hroom)
          rw [hsize, List.append_assoc, List.append_assoc, Nat.add_assoc j,
            ← Nat.succ_eq_one_add] at hlater
          rw [appendWithin, if_pos (by omega), ← hfront, store_at, ok_bind, hfront]
          rw [List.length_cons, Nat.add_min_add_right, List.take_succ_cons, List.map_cons,
            List.drop_succ_cons]
          exact hlater

/-- The zero behind what is copied, in the place of the last character if that has filled
the room. -/
private theorem store_zero (src : Str) {size : Nat} (front : List (Option Char))
    {rest : List (Option Char)} (hroom : size < rest.length) {i : Int}
    (hi : i = (front.length + min size src.length : Nat)) :
    store (front ++ ((src.take (size + 1)).map some ++ rest.drop (min (size + 1) src.length)))
      i '\x00' = .ok (front ++ ((src.take size).map some ++
        some '\x00' :: rest.drop (min size src.length + 1))) := by
  obtain ⟨old, hold⟩ : ∃ old, (src.take (size + 1)).map some ++
      rest.drop (min (size + 1) src.length) =
      (src.take size).map some ++ old :: rest.drop (min size src.length + 1) := by
    by_cases hfull : size < src.length
    · refine ⟨some src[size], ?_⟩
      rw [List.take_succ_eq_append_getElem hfull, List.map_append, List.append_assoc,
        Nat.min_eq_left (by omega), Nat.min_eq_left (by omega)]
      rfl
    · have hlt : src.length < rest.length := by omega
      refine ⟨rest[src.length], ?_⟩
      rw [List.take_of_length_le (by omega), List.take_of_length_le (by omega),
        Nat.min_eq_right (by omega), Nat.min_eq_right (by omega), List.drop_eq_getElem_cons hlt]
  have hlength : i = ((front ++ (src.take size).map some).length : Nat) := by
    rw [hi, List.length_append, List.length_map, List.length_take]
  rw [hold, ← List.append_assoc, hlength, store_at, List.append_assoc]

variable {dst : List (Option Char)} {dstsize : Nat}

/-- What fits into the size beside the zero is copied, and nothing behind it is written. -/
theorem ftStrlcpy_eq (src : Str) (hpos : 0 < dstsize) (hroom : dstsize ≤ dst.length) :
    ftStrlcpy dst src dstsize = .ok ((src.length : Int).bmod (2 ^ 32),
      (src.take (dstsize - 1)).map some ++
        some '\x00' :: dst.drop (min (dstsize - 1) src.length + 1)) := by
  obtain ⟨size, rfl⟩ := Nat.exists_eq_succ_of_ne_zero (Nat.ne_of_gt hpos)
  have hfront : ([] : List (Option Char)).length = 0 + 0 := rfl
  have hloop := appendWithin_eq src hfront hroom
  rw [Nat.zero_add, Nat.zero_add, List.nil_append, List.nil_append] at hloop
  have hindex : (if size + 1 ≤ src.length then ((size + 1 : Nat) : Int) - 1
      else (min (size + 1) src.length : Nat)) =
      (([] : List (Option Char)).length + min size src.length : Nat) := by
    rw [List.length_nil, Nat.zero_add]
    split <;> omega
  have hzero := store_zero src [] hroom hindex
  rw [List.nil_append, List.nil_append] at hzero
  rw [ftStrlcpy, if_neg (Nat.succ_ne_zero size), copyWithin_eq, hloop, ok_bind]
  show (store _ (if size + 1 ≤ src.length then ((size + 1 : Nat) : Int) - 1 else _) _ >>= _) = _
  rw [hzero]
  rfl

/-- A fresh copy of the first characters. -/
private theorem ftStrlcpy_malloc {src : Str} (hzero : '\x00' ∉ src) (size : Nat) :
    (do
      let (_, copied) ← ftStrlcpy (malloc (size + 1)) src (size + 1)
      cString copied) = .ok (src.take size) := by
  have hroom : size + 1 ≤ (malloc (size + 1) : List (Option Char)).length :=
    List.length_replicate.ge
  have htaken : '\x00' ∉ src.take size := fun hmem => hzero (List.mem_of_mem_take hmem)
  rw [ftStrlcpy_eq src (Nat.succ_pos size) hroom, ok_bind]
  exact cString_of_written htaken _

private theorem ftStrlcat_roomy {dest : Str} (hzero : '\x00' ∉ dest) (room : List (Option Char))
    (src : Str) (hsize : dest.length < dstsize) (hroom : dstsize ≤ dest.length + 1 + room.length) :
    ftStrlcat (dest.map some ++ some '\x00' :: room) src dstsize =
      .ok (((dest.length + src.length : Nat) : Int).bmod (2 ^ 32),
        (dest ++ src.take (dstsize - dest.length - 1)).map some ++
          some '\x00' :: room.drop (min (dstsize - dest.length - 1) src.length)) := by
  obtain ⟨size, rfl⟩ := Nat.exists_eq_add_of_lt hsize
  have hrest : size + 1 ≤ (some '\x00' :: room).length := by
    rw [List.length_cons]
    omega
  have hfront : (dest.map some).length = dest.length + 0 := List.length_map _
  have hloop := appendWithin_eq src hfront hrest
  rw [Nat.add_zero, Nat.zero_add, ← Nat.add_assoc] at hloop
  have hindex : (if dest.length + min (size + 1) src.length = dest.length + size + 1 ∧
      min (size + 1) src.length > 0 then
        ((dest.length + min (size + 1) src.length : Nat) : Int) - 1
      else (dest.length + min (size + 1) src.length : Nat)) =
      ((dest.map some).length + min size src.length : Nat) := by
    rw [List.length_map]
    split <;> omega
  have hend := store_zero src (dest.map some) hrest hindex
  have hroom' : dest.length + size + 1 - dest.length - 1 = size := by omega
  rw [ftStrlcat, cString_of_written hzero, ok_bind]
  show (if dest.length + size + 1 < dest.length then _ else
    appendWithin dest.length (dest.length + size + 1) src 0 _ >>= _) = _
  rw [if_neg (by omega), hloop, ok_bind]
  show (store _ (if dest.length + min (size + 1) src.length = dest.length + size + 1 ∧
    min (size + 1) src.length > 0 then _ else _) _ >>= _) = _
  rw [hend, hroom', List.map_append, List.append_assoc]
  rfl

private theorem ftStrlcat_full {dest : Str} (hzero : '\x00' ∉ dest) (room : List (Option Char))
    (src : Str) (hsize : dstsize ≤ dest.length) :
    ftStrlcat (dest.map some ++ some '\x00' :: room) src dstsize =
      .ok (((dstsize + src.length : Nat) : Int).bmod (2 ^ 32),
        dest.map some ++ some '\x00' :: room) := by
  rw [ftStrlcat, cString_of_written hzero, ok_bind]
  show (if dstsize < dest.length then _ else appendWithin dest.length dstsize src 0 _ >>= _) = _
  split
  · rfl
  · obtain rfl : dstsize = dest.length := by omega
    have hloop : appendWithin dest.length dest.length src 0
        (dest.map some ++ some '\x00' :: room) = .ok (0, dest.map some ++ some '\x00' :: room) := by
      cases src with
      | nil => rfl
      | cons c src => rw [appendWithin, if_neg (by omega)]
    have hstore := store_at (dest.map some) room (some '\x00') '\x00'
    rw [List.length_map] at hstore
    rw [hloop, ok_bind]
    show (store _ (if dest.length + 0 = dest.length ∧ 0 > 0 then _ else
      ((dest.length + 0 : Nat) : Int)) _ >>= _) = _
    rw [if_neg (by omega), Nat.add_zero, hstore]
    rfl

/-- A string that is there keeps its place, as much of `src` as fits beside the zero goes
behind it, and what is returned is the length that there would have been room needed for. -/
theorem ftStrlcat_eq {dest : Str} (hzero : '\x00' ∉ dest) (room : List (Option Char)) (src : Str)
    (hroom : dstsize ≤ dest.length + 1 + room.length) :
    ftStrlcat (dest.map some ++ some '\x00' :: room) src dstsize =
      .ok (((min dstsize dest.length + src.length : Nat) : Int).bmod (2 ^ 32),
        (dest ++ src.take (dstsize - dest.length - 1)).map some ++
          some '\x00' :: room.drop (min (dstsize - dest.length - 1) src.length)) := by
  by_cases hsize : dest.length < dstsize
  · rw [ftStrlcat_roomy hzero room src hsize hroom, Nat.min_eq_right hsize.le]
  · have hnone : dstsize - dest.length - 1 = 0 := by omega
    rw [ftStrlcat_full hzero room src (Nat.not_lt.mp hsize), Nat.min_eq_left (Nat.not_lt.mp hsize),
      hnone, List.take_zero, List.append_nil, Nat.zero_min, List.drop_zero]

theorem ftStrlcat_eq_four : ftStrlcat ("ab".toList.map some ++ some '\x00' :: [none, none])
    "xyz".toList 4 = .ok (((min 4 "ab".toList.length + "xyz".toList.length : Nat) : Int).bmod
      (2 ^ 32), ("ab".toList ++ "xyz".toList.take (4 - "ab".toList.length - 1)).map some ++
        some '\x00' :: [none, none].drop (min (4 - "ab".toList.length - 1) "xyz".toList.length)) :=
  ftStrlcat_eq (by decide) [none, none] "xyz".toList (by decide)

end Copying

section Trimming

/-- The characters that are trimmed away. -/
def isTrimmed (set : Str) (c : Char) : Bool := decide (c ∈ set)

private theorem startLoop_eq (set : Str) {s1 : Str} (hzero : '\x00' ∉ s1) (start : Nat)
    (hfits : start + s1.length + 1 < 2 ^ 31) :
    startLoop set s1 start = .ok (start + (s1.takeWhile (isTrimmed set)).length +
      if s1.all (isTrimmed set) then 1 else 0 : Nat) := by
  induction s1 generalizing start with
  | nil =>
      have hfound : (ftStrchr set '\x00').isSome = true := (isSome_ftStrchr set _).mpr (Or.inr rfl)
      rw [startLoop, if_pos hfound, int_of_fits (by omega)]
      simp
  | cons c s1 ih =>
      obtain ⟨hc, hzero⟩ := not_or.mp (mt List.mem_cons.mpr hzero)
      rw [List.length_cons] at hfits
      by_cases hset : c ∈ set
      · have hlater := ih hzero (start + 1) (by omega)
        have hfound : (ftStrchr set c).isSome = true := (isSome_ftStrchr set _).mpr (Or.inl hset)
        have htrimmed : isTrimmed set c = true := decide_eq_true hset
        rw [Nat.cast_add, Nat.cast_one] at hlater
        rw [startLoop, if_pos hfound, int_of_fits (by omega), ok_bind, hlater,
          List.takeWhile_cons_of_pos htrimmed, List.length_cons, List.all_cons, htrimmed,
          Bool.true_and, Nat.add_assoc start 1, Nat.add_comm 1]
      · have hfound : ¬ (ftStrchr set c).isSome = true := by
          rw [isSome_ftStrchr, not_or]
          exact ⟨hset, Ne.symm hc⟩
        have hkept : isTrimmed set c = false := decide_eq_false hset
        rw [startLoop, if_neg hfound, List.takeWhile_cons_of_neg (by rw [hkept]; nofun),
          List.all_cons, hkept]
        rfl

private theorem endLoop_eq (set : Str) {s1 : Str} (hzero : '\x00' ∉ s1) {n : Nat}
    (hn : n ≤ s1.length) :
    endLoop s1 set n = if (s1.take n).rdropWhile (isTrimmed set) = [] then .error .outOfBounds
      else .ok ((s1.take n).rdropWhile (isTrimmed set)).length := by
  induction n with
  | zero => rw [endLoop, List.take_zero, List.rdropWhile_nil, if_pos rfl]
  | succ n ih =>
      have hget : s1.getD n '\x00' = s1[n] := by
        rw [List.getD_eq_getElem?_getD, List.getElem?_eq_getElem hn, Option.getD_some]
      rw [endLoop, hget, List.take_succ_eq_append_getElem hn]
      by_cases hset : s1[n] ∈ set
      · have htrimmed : isTrimmed set s1[n] = true := decide_eq_true hset
        rw [if_pos ((isSome_ftStrchr set _).mpr (Or.inl hset)), ih (Nat.le_of_succ_le hn),
          List.rdropWhile_concat_pos _ _ _ htrimmed]
      · have hkept : ¬ isTrimmed set s1[n] = true := by simpa [isTrimmed] using hset
        have hfound : ¬ (ftStrchr set s1[n]).isSome = true := by
          rw [isSome_ftStrchr, not_or]
          exact ⟨hset, fun heq => hzero (heq ▸ List.getElem_mem hn)⟩
        rw [if_neg hfound, List.rdropWhile_concat_neg _ _ _ hkept,
          if_neg (List.append_ne_nil_of_right_ne_nil _ (List.cons_ne_nil _ _)),
          List.length_append, List.length_take_of_le (Nat.le_of_succ_le hn),
          List.length_singleton]

/-- What is left of the string without the characters of the set at its two ends. -/
theorem ftStrtrim_eq {s1 : Str} (hzero : '\x00' ∉ s1) (set : Str) (hfits : s1.length + 1 < 2 ^ 31) :
    ftStrtrim s1 set = .ok (trim (isTrimmed set) s1) := by
  have hsplit := List.takeWhile_append_dropWhile (p := isTrimmed set) (l := s1)
  have hlength := congrArg List.length hsplit
  rw [List.length_append] at hlength
  have hstart : startLoop set s1 0 = .ok ((s1.takeWhile (isTrimmed set)).length +
      if s1.all (isTrimmed set) then 1 else 0 : Nat) := by
    have hloop := startLoop_eq set hzero 0 (by omega)
    rwa [Nat.zero_add] at hloop
  rw [ftStrtrim, int_of_fits (by omega), ok_bind, hstart, ok_bind]
  by_cases hall : s1.all (isTrimmed set) = true
  · have hnil := trim_eq_nil_iff.mpr (List.all_eq_true.mp hall)
    have hdrop : s1.dropWhile (isTrimmed set) = [] :=
      List.dropWhile_eq_nil_iff.mpr (List.all_eq_true.mp hall)
    rw [hdrop, List.length_nil] at hlength
    rw [if_pos hall, if_pos (by omega), hnil]
  · have hkept : trim (isTrimmed set) s1 ≠ [] :=
      fun hnil => hall (List.all_eq_true.mpr (trim_eq_nil_iff.mp hnil))
    have hright := rdropWhile_of_trim_ne_nil hkept
    have hend := endLoop_eq set hzero le_rfl
    rw [List.take_length, hright, if_neg (List.append_ne_nil_of_right_ne_nil _ hkept),
      List.length_append] at hend
    have hprefix := List.rdropWhile_prefix (isTrimmed set) (s1.dropWhile (isTrimmed set))
    have hle := hprefix.length_le
    have hdrop : (s1.takeWhile (isTrimmed set) ++ s1.dropWhile (isTrimmed set)).drop
        (s1.takeWhile (isTrimmed set)).length = s1.dropWhile (isTrimmed set) := List.drop_left
    rw [hsplit] at hdrop
    have hsize : (((s1.takeWhile (isTrimmed set)).length +
        (trim (isTrimmed set) s1).length : Nat) : Int) -
        ((s1.takeWhile (isTrimmed set)).length : Nat) + 1 =
        ((trim (isTrimmed set) s1).length + 1 : Nat) := by
      push_cast
      ring
    have hzero' : '\x00' ∉ s1.dropWhile (isTrimmed set) :=
      fun hmem => hzero ((List.dropWhile_sublist _).subset hmem)
    rw [if_neg hall, Nat.add_zero, if_neg (by omega), Int.toNat_natCast, hend, ok_bind, hsize,
      int_of_fits (by rw [trim]; omega), ok_bind, Int.toNat_natCast, Int.toNat_natCast, hdrop,
      ftStrlcpy_malloc hzero']
    exact congrArg Except.ok (List.prefix_iff_eq_take.mp hprefix).symm

theorem ftStrtrim_eq_blanks : ftStrtrim "  a b ".toList " ".toList =
    .ok (trim (isTrimmed " ".toList) "  a b ".toList) :=
  ftStrtrim_eq (by decide) " ".toList (by decide)

end Trimming

end FortyTwo.Libft
