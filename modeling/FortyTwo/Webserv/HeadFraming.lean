import FortyTwo.Webserv.RequestHeader

/-!
The head of a request that arrives in chunks. However the stream is cut, the
parser is ready with the chunk that completes the first empty line, and knows
where in it the body begins.
-/

namespace FortyTwo.Webserv

open Foundation

namespace RequestHeaderParser

/-- The parser after the chunks. -/
def feedAll (chunks : List Bytes) : RequestHeaderParser :=
  chunks.foldl (fun p chunk => (p.feed chunk 0).1) {}

def headEnd : Bytes := crlf ++ crlf

variable {p : RequestHeaderParser}

theorem toInt_eq {n : Int} (h : 0 ≤ n ∧ n < 2 ^ 31) : toInt n = n := by
  unfold toInt
  omega

theorem feed_notReady (hp : p.endFound = false) (content : Bytes)
    (hfind : find headEnd (p.buffer ++ content) = none) (bodyStartPos : Nat) :
    p.feed content bodyStartPos = (⟨p.buffer ++ content, false⟩, .dataIsNotReady, npos) := by
  obtain ⟨buffer, endFound⟩ := p
  cases hp
  rw [headEnd] at hfind
  simp [feed, hfind]

/-- The chunk that completes the empty line. -/
theorem feed_ready (hp : p.endFound = false) (content : Bytes) {k : Nat}
    (hfind : find headEnd (p.buffer ++ content) = some k) (hmore : p.buffer.length < k + 4)
    (hsize : (p.buffer ++ content).length < 2 ^ 31) (bodyStartPos : Nat) :
    p.feed content bodyStartPos =
      (⟨(p.buffer ++ content).take k, true⟩, .ok, k + 4 - p.buffer.length) := by
  have hle := find_add_length_le hfind
  have hfour : headEnd.length = 4 := rfl
  rw [List.length_append] at hle hsize
  have hpos : toInt (content.length - (p.buffer ++ content).length + k + 4) =
      (k + 4 - p.buffer.length : Nat) := by
    rw [toInt_eq] <;> rw [List.length_append] <;> omega
  rw [headEnd] at hfind
  rw [feed, hp, if_neg (by decide)]
  simp only [hfind, hpos, Int.toNat_natCast]

/-- Chunks without an empty line are stored. -/
theorem feedAll_notReady {chunks : List Bytes} (h : find headEnd chunks.flatten = none) :
    feedAll chunks = ⟨chunks.flatten, false⟩ := by
  induction chunks using List.reverseRecOn with
  | nil => rfl
  | append_singleton chunks chunk ih =>
      rw [List.flatten_append, List.flatten_singleton] at h ⊢
      have hbefore : find headEnd chunks.flatten = none := by
        rw [find_eq_none_iff] at h ⊢
        exact fun hin => h (hin.trans (List.prefix_append _ _).isInfix)
      have hfed := ih hbefore
      have hfeed := feed_notReady (p := feedAll chunks) (by rw [hfed]) chunk
        (by rw [hfed]; exact h) 0
      rw [feedAll, List.foldl_append]
      change ((feedAll chunks).feed chunk 0).1 = _
      rw [hfeed, hfed]

/-- The first empty line of the stream ends at `k + 4`. Every chunk before the one
that reaches this place is stored and waits for more; that one leaves the head,
and the place in it where the body begins. -/
theorem feed_frames {chunks : List Bytes} {k : Nat} (hfind : find headEnd chunks.flatten = some k)
    (hsize : chunks.flatten.length < 2 ^ 31) :
    (∃ before chunk after, chunks = before ++ chunk :: after ∧ before.flatten.length < k + 4 ∧
      k + 4 ≤ (before ++ [chunk]).flatten.length) ∧
    ∀ before chunk after, chunks = before ++ chunk :: after → ∀ bodyStartPos,
      ((before ++ [chunk]).flatten.length < k + 4 →
        (feedAll before).feed chunk bodyStartPos =
          (⟨(before ++ [chunk]).flatten, false⟩, .dataIsNotReady, npos)) ∧
      (before.flatten.length < k + 4 → k + 4 ≤ (before ++ [chunk]).flatten.length →
        ∃ start, (feedAll before).feed chunk bodyStartPos =
            (⟨chunks.flatten.take k, true⟩, .ok, start) ∧
          start ≤ chunk.length ∧ start + before.flatten.length = k + 4) := by
  have hle := find_add_length_le hfind
  have hfour : headEnd.length = 4 := rfl
  constructor
  · -- the shortest beginning of the chunks that reaches `k + 4`
    clear hsize
    have hcut : ∀ chunks : List Bytes, k + 4 ≤ chunks.flatten.length →
        ∃ before chunk after, chunks = before ++ chunk :: after ∧ before.flatten.length < k + 4 ∧
          k + 4 ≤ (before ++ [chunk]).flatten.length := by
      intro chunks
      induction chunks using List.reverseRecOn with
      | nil =>
          intro h
          simp at h
      | append_singleton chunks chunk ih =>
          intro h
          by_cases hbefore : k + 4 ≤ chunks.flatten.length
          · obtain ⟨before, c, after, rfl, hlt, hreach⟩ := ih hbefore
            exact ⟨before, c, after ++ [chunk], by simp, hlt, hreach⟩
          · exact ⟨chunks, chunk, [], rfl, by omega, h⟩
    exact hcut chunks (by omega)
  · rintro before chunk after rfl bodyStartPos
    have hstream : (before ++ chunk :: after).flatten = before.flatten ++ chunk ++ after.flatten := by
      simp
    -- what is found in the first chunks
    have hpart : ∀ n, find headEnd ((before ++ chunk :: after).flatten.take n) = none ↔
        n < k + 4 := by
      intro n
      rw [find_take_eq_none_iff (by decide), hfind]
      simp [hfour]
    have htake : ∀ part rest : Bytes, (before ++ chunk :: after).flatten = part ++ rest →
        (find headEnd part = none ↔ part.length < k + 4) := by
      intro part rest hpart'
      rw [← hpart part.length, hpart', List.take_left]
    have hfed : before.flatten.length < k + 4 → feedAll before = ⟨before.flatten, false⟩ := by
      intro hlt
      refine feedAll_notReady ((htake before.flatten (chunk ++ after.flatten) ?_).mpr hlt)
      rw [hstream, List.append_assoc]
    have hnext : (before ++ [chunk]).flatten = before.flatten ++ chunk := by simp
    rw [hnext]
    constructor
    · intro hlt
      have hp := hfed (by rw [List.length_append] at hlt; omega)
      have hfeed := feed_notReady (p := feedAll before) (by rw [hp]) chunk
        (by rw [hp]; exact (htake _ after.flatten hstream).mpr hlt) bodyStartPos
      rw [hfeed, hp]
    · intro hlt hreach
      have hp := hfed hlt
      have hfound : find headEnd (before.flatten ++ chunk) = some k := by
        have hall := (find_take_eq_some_iff (by decide) (before ++ chunk :: after).flatten
          (before.flatten ++ chunk).length k).mpr ⟨hfind, by rw [hfour]; exact hreach⟩
        rw [hstream, List.take_left] at hall
        exact hall
      have hhead : (before.flatten ++ chunk).take k = (before ++ chunk :: after).flatten.take k := by
        rw [hstream]
        exact (List.take_append_of_le_length (by omega)).symm
      have hfits : (before.flatten ++ chunk).length < 2 ^ 31 := by
        rw [hstream, List.length_append] at hsize
        omega
      have hfeed := feed_ready (p := feedAll before) (by rw [hp]) chunk
        (by rw [hp]; exact hfound) (by rw [hp]; exact hlt)
        (by rw [hp]; exact hfits) bodyStartPos
      refine ⟨k + 4 - before.flatten.length, ?_, ?_, by omega⟩
      · rw [hfeed, hp, hhead]
      · rw [List.length_append] at hreach
        omega

/-- A head in two chunks, cut within its empty line. -/
theorem feed_frames_cut :
    ∃ start, (feedAll [bytes "GET / HTTP/1.1\r\n"]).feed (bytes "\r\nab") 0 =
        (⟨bytes "GET / HTTP/1.1", true⟩, .ok, start) ∧ start ≤ 4 ∧ start + 16 = 14 + 4 :=
  ((feed_frames (k := 14) (by decide) (by decide)).2 [bytes "GET / HTTP/1.1\r\n"]
    (bytes "\r\nab") [] rfl 0).2 (by decide) (by decide)

end RequestHeaderParser

end FortyTwo.Webserv
