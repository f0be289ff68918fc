import FortyTwo.Webserv.MultipartFramer

/-!
What the header of a part is taken to say. Its two lines are read from the
buffer as it stands when the blank line after the header has arrived, so what
the second one says can depend on how much of the data has come with it.
-/

namespace FortyTwo.Webserv

open Foundation

/-- The status of the line that `parse_body_header` reads as a content type. -/
def contentTypeStatus (line : Bytes) : Status :=
  if (parseContentType line []).1 = .noMime then .ok else (parseContentType line []).1

theorem contentTypeStatus_cases (line : Bytes) :
    contentTypeStatus line = .ok ∨ contentTypeStatus line = .requestHeaderFieldsTooLarge := by
  unfold contentTypeStatus parseContentType
  cases find (bytes "Content-Type: ") line with
  | none => exact Or.inl rfl
  | some start =>
      cases find (bytes "/") line with
      | none => exact Or.inl rfl
      | some slashPos =>
          simp only [isStringValidToken_eq_true, Bool.not_true, Bool.false_eq_true, if_false]
          split
          · exact Or.inr rfl
          · exact Or.inl rfl

theorem headerAt_status_eq (boundary buffer : Bytes) (pos : Nat) :
    (headerAt boundary buffer pos).1 =
      let line := getTokenWithDelim buffer (pos + (startBoundary boundary).length) crlf true
      if (parseFilename line.1 []).1 = .badRequest then .badRequest
      else contentTypeStatus (getTokenWithDelim buffer line.2 crlf true).1 := by
  simp only [headerAt, parseBodyHeader]
  split
  · assumption
  · rfl

/-- A header is refused or accepted; no other status comes out of it. -/
theorem headerAt_ok_of_not_error {boundary buffer : Bytes} {pos : Nat}
    (h : (headerAt boundary buffer pos).1.isError = false) :
    (headerAt boundary buffer pos).1 = .ok := by
  rw [headerAt_status_eq] at h ⊢
  simp only at h ⊢
  split at h
  · cases h
  · rename_i hname
    rw [if_neg hname]
    rcases contentTypeStatus_cases (getTokenWithDelim buffer (getTokenWithDelim buffer
      (pos + (startBoundary boundary).length) crlf true).2 crlf true).1 with hok | hlarge
    · exact hok
    · rw [hlarge] at h
      cases h

private theorem getTokenWithDelim_bounds (data delim : Bytes) (start : Nat) (skip : Bool) :
    (getTokenWithDelim data start delim skip).1.length ≤ data.length - start ∧
      start ≤ (getTokenWithDelim data start delim skip).2 := by
  unfold getTokenWithDelim
  cases hfind : findFrom delim data start with
  | none => simp
  | some stop =>
      have hle := ((findFrom_eq_some_iff _ _ _ _).mp hfind).1
      have hlen : ((data.drop start).take (stop - start)).length ≤ data.length - start := by
        rw [List.length_take, List.length_drop]
        omega
      cases skip with
      | false => exact ⟨hlen, by simp⟩
      | true =>
          simp only [if_true]
          cases hnext : findFirstNotOf delim data stop with
          | none => exact ⟨hlen, by simp⟩
          | some next =>
              have hge := ((findFirstNotOf_eq_some_iff _ _ _ _).mp hnext).1
              exact ⟨hlen, by simp only; omega⟩

/-- Too few bytes to say anything: the header is accepted. -/
theorem headerAt_of_short {boundary buffer : Bytes} {pos : Nat}
    (h : buffer.length < pos + (startBoundary boundary).length + 8) :
    (headerAt boundary buffer pos).1 = .ok := by
  have hfirst := getTokenWithDelim_bounds buffer crlf (pos + (startBoundary boundary).length) true
  have hsecond := getTokenWithDelim_bounds buffer crlf (getTokenWithDelim buffer
    (pos + (startBoundary boundary).length) crlf true).2 true
  have hfilename : (bytes "filename").length = 8 := rfl
  have htype : (bytes "Content-Type: ").length = 14 := rfl
  rw [headerAt_status_eq]
  simp only
  have hname : (parseFilename (getTokenWithDelim buffer
      (pos + (startBoundary boundary).length) crlf true).1 []).1 = .noFilename := by
    rw [parseFilename, find_eq_none_of_length_lt (by omega)]
  have hline : contentTypeStatus (getTokenWithDelim buffer (getTokenWithDelim buffer
      (pos + (startBoundary boundary).length) crlf true).2 crlf true).1 = .ok := by
    rw [contentTypeStatus, parseContentType, find_eq_none_of_length_lt (by omega)]
    rfl
  rw [hname, if_neg (by decide), hline]

private theorem prefix_getElem? {pat text : Bytes} {k i : Nat} (h : pat <+: text.drop k)
    (hi : i < pat.length) : text[k + i]? = pat[i]? := by
  obtain ⟨rest, hrest⟩ := h
  rw [← List.getElem?_drop, ← hrest, List.getElem?_append_left hi]

/-- A token that ends at a delimiter. -/
theorem getTokenWithDelim_of_find {data delim : Bytes} {start stop : Nat}
    (h : findFrom delim data start = some stop) :
    getTokenWithDelim data start delim true =
      ((data.drop start).take (stop - start), (findFirstNotOf delim data stop).getD stop) := by
  obtain ⟨hle, hlen, hfind⟩ := (findFrom_eq_some_iff _ _ _ _).mp h
  have hbound := ((find_eq_some_iff _ _ _).mp hfind).2.1
  rw [List.length_drop] at hbound
  have hstop : start + ((data.drop start).take (stop - start)).length = stop := by
    rw [List.length_take, List.length_drop]
    omega
  simp only [getTokenWithDelim, h, if_true, hstop]
  cases findFirstNotOf delim data stop <;> rfl

private theorem take_drop_take (text : Bytes) {start stop n : Nat} (h : stop ≤ n) :
    ((text.take n).drop start).take (stop - start) = (text.drop start).take (stop - start) := by
  rw [List.drop_take, List.take_take]
  congr 1
  omega

/-- A header that is refused as soon as its blank line has arrived is refused
whatever comes with it. -/
theorem headerAt_take_refused (boundary : Bytes) (k : Nat) {text : Bytes} {h t : Nat}
    (hblank : find (crlf ++ crlf) text = some h)
    (ht : max (k + (startBoundary boundary).length) (h + 4) ≤ t)
    (hrefused : (headerAt boundary
      (text.take (max (k + (startBoundary boundary).length) (h + 4))) k).1.isError = true) :
    (headerAt boundary (text.take t) k).1.isError = true := by
  have hnil : crlf ≠ [] := by decide
  have hsize : crlf.length = 2 := rfl
  have hblank' := prefix_of_find hblank
  have hbound : h + 4 ≤ text.length := find_add_length_le hblank
  by_cases hafter : k + (startBoundary boundary).length ≤ h + 2
  case neg =>
    -- the buffer ends with the start boundary, so there is nothing to refuse
    rw [headerAt_of_short (by rw [List.length_take]; omega)] at hrefused
    cases hrefused
  case pos =>
    have hmax : max (k + (startBoundary boundary).length) (h + 4) = h + 4 := by omega
    rw [hmax] at hrefused ht
    have hline : crlf <+: text.drop (h + 2) := by
      obtain ⟨rest, hrest⟩ := hblank'
      refine ⟨rest, ?_⟩
      rw [← List.drop_drop, ← hrest, List.append_assoc]
      rfl
    obtain ⟨q, hq, hle, hqh⟩ := findFrom_of_prefix hafter (by omega) hline
    -- the first line is complete in both buffers
    have hfirst : ∀ n, h + 4 ≤ n →
        getTokenWithDelim (text.take n) (k + (startBoundary boundary).length) crlf true =
          ((text.drop (k + (startBoundary boundary).length)).take
              (q - (k + (startBoundary boundary).length)),
            (findFirstNotOf crlf (text.take n) q).getD q) := by
      intro n hn
      rw [getTokenWithDelim_of_find ((findFrom_take_eq_some_iff hnil _ _ _ _).mpr ⟨hq, by omega⟩),
        take_drop_take text (by omega)]
    rw [headerAt_status_eq] at hrefused ⊢
    simp only [hfirst (h + 4) (le_refl _), hfirst t ht] at hrefused ⊢
    split at hrefused
    · rename_i hname
      rw [if_pos hname]
      rfl
    · rename_i hname
      rw [if_neg hname]
      cases hnext : findFirstNotOf crlf (text.take (h + 4)) q with
      | none =>
          -- only line ends follow, so the second line is empty
          obtain ⟨q', hq', hge, hle'⟩ := findFrom_of_prefix (le_refl q) (by omega)
            (prefix_of_findFrom hq)
          obtain rfl : q' = q := by omega
          have hempty := getTokenWithDelim_of_find
            ((findFrom_take_eq_some_iff hnil text (h + 4) q' q').mpr ⟨hq', by omega⟩)
          rw [hnext, Option.getD_none, hempty] at hrefused
          simp only [Nat.sub_self, List.take_zero] at hrefused
          exact absurd hrefused (by decide)
      | some p =>
          obtain ⟨hp, hplt⟩ := (findFirstNotOf_take_eq_some_iff _ _ _ _ _).mp hnext
          obtain ⟨_, ⟨c, hc, hnot⟩, _⟩ := (findFirstNotOf_eq_some_iff _ _ _ _).mp hp
          have hph : p ≤ h := by
            by_contra hgt
            have hat := prefix_getElem? (i := p - h) hblank' (by
              have hfour : (crlf ++ crlf).length = 4 := rfl
              omega)
            have hsum : h + (p - h) = p := by omega
            rw [hsum, hc] at hat
            have hmem := List.mem_of_getElem? hat.symm
            simp only [List.mem_append, or_self] at hmem
            exact hnot hmem
          have hcr : crlf <+: text.drop h := by
            obtain ⟨rest, hrest⟩ := hblank'
            exact ⟨crlf ++ rest, by rw [← List.append_assoc]; exact hrest⟩
          obtain ⟨q₂, hq₂, _, hle₂⟩ := findFrom_of_prefix hph (by omega) hcr
          have hsecond : ∀ n, h + 4 ≤ n → (getTokenWithDelim (text.take n)
              ((findFirstNotOf crlf (text.take n) q).getD q) crlf true).1 =
              (text.drop p).take (q₂ - p) := by
            intro n hn
            rw [(findFirstNotOf_take_eq_some_iff _ _ _ _ _).mpr ⟨hp, by omega⟩, Option.getD_some,
              getTokenWithDelim_of_find
                ((findFrom_take_eq_some_iff hnil _ _ _ _).mpr ⟨hq₂, by omega⟩),
              take_drop_take text (by omega)]
          rw [hsecond (h + 4) (le_refl _)] at hrefused
          rw [hsecond t ht]
          exact hrefused

end FortyTwo.Webserv
