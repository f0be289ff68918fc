import FortyTwo.Webserv.Chunk

/-!
What the client receives of a streamed file. A chunk that `write` does not take
at once is sent again after the rest of it: the body is the file exactly when
every chunk is taken by one `write`.
-/

namespace FortyTwo.Webserv

open Foundation

namespace Socket

/-- The next `write` takes all of `data`. -/
def TakesAll (socket : Socket) (data : Bytes) : Prop :=
  ∃ n, socket.outcomes socket.writes = some n ∧ data.length ≤ n

/-- The socket after a `write` that took `data`. -/
def advance (socket : Socket) (data : Bytes) : Socket :=
  { socket with writes := socket.writes + 1, received := socket.received ++ data }

theorem write_some {socket : Socket} {n : Nat} (h : socket.outcomes socket.writes = some n)
    (data : Bytes) :
    socket.write data = (some (min n data.length), socket.advance (data.take n)) := by
  simp [write, h, advance, ← List.take_eq_take_min]

theorem write_all {socket : Socket} {data : Bytes} (h : socket.TakesAll data) :
    socket.write data = (some data.length, socket.advance data) := by
  obtain ⟨n, hn, hle⟩ := h
  rw [write_some hn, Nat.min_eq_right hle, List.take_of_length_le hle]

/-- A `write` that does not take all fails, or leaves some bytes. -/
theorem write_short {socket : Socket} {data : Bytes} (h : ¬ socket.TakesAll data) :
    socket.write data = (none, socket.advance []) ∨
      ∃ sent, sent < data.length ∧
        socket.write data = (some sent, socket.advance (data.take sent)) := by
  cases houtcome : socket.outcomes socket.writes with
  | none => exact Or.inl (by simp [write, houtcome, advance])
  | some n =>
      have hlt : n < data.length := by
        by_contra hle
        exact h ⟨n, houtcome, by omega⟩
      exact Or.inr ⟨n, hlt, by rw [write_some houtcome, Nat.min_eq_left hlt.le]⟩

/-- The same socket with `before` ahead of what has been received. -/
def prepend (before : Bytes) (socket : Socket) : Socket :=
  { socket with received := before ++ socket.received }

@[simp] theorem write_prepend (before data : Bytes) (socket : Socket) :
    (socket.prepend before).write data =
      ((socket.write data).1, (socket.write data).2.prepend before) := by
  unfold write prepend
  cases socket.outcomes socket.writes <;> simp

@[simp] theorem write_writes (socket : Socket) (data : Bytes) :
    (socket.write data).2.writes = socket.writes + 1 := by
  unfold write
  cases socket.outcomes socket.writes <;> rfl

end Socket

namespace Chunk

theorem encode_eq_chunk (data : Bytes) : encode data = Chunked.chunk data := by
  simp [encode, hex, Chunked.chunk, crlf]

theorem generateFinalChunk_eq : generateFinalChunk = Chunked.lastChunk := rfl

theorem encode_ne_nil (data : Bytes) : encode data ≠ [] := by
  simp [encode, crlf]

/-- No chunk with data is the final one. -/
theorem encode_ne_final {data : Bytes} (hdata : data ≠ []) : encode data ≠ generateFinalChunk := by
  intro h
  have hchunk := Chunked.decode_chunks [data] (by simpa using hdata) []
  have hfinal := Chunked.decode_chunks [] (by simp) Chunked.lastChunk
  rw [encode_eq_chunk, generateFinalChunk_eq] at h
  simp only [List.map_cons, List.map_nil, List.flatten_cons, List.flatten_nil, List.append_nil, h,
    List.nil_append] at hchunk hfinal
  rw [hchunk] at hfinal
  simp [Chunked.lastChunk] at hfinal

/-- One chunk is taken at once or kept with what is left of it. -/
theorem sendNextChunk_cases {content : Bytes} {size offset : Nat} (hsize : 0 < size)
    (hmore : offset < content.length) (socket : Socket) :
    let data := (content.drop offset).take size
    (socket.TakesAll (encode data) ∧
      sendNextChunk content size ⟨offset, [], 0⟩ socket =
        (if content.length ≤ offset + data.length then
          ⟨offset + data.length, generateFinalChunk, 0⟩
        else ⟨offset + data.length, [], 0⟩, socket.advance (encode data))) ∨
    (¬ socket.TakesAll (encode data) ∧ ∃ sent, sent ≤ (encode data).length ∧
      sendNextChunk content size ⟨offset, [], 0⟩ socket =
        (⟨offset, encode data, sent⟩, socket.advance ((encode data).take sent))) := by
  intro data
  have hlength : data.length = min size (content.length - offset) := by
    rw [List.length_take, List.length_drop]
  have hdata : data.length ≠ 0 := by omega
  unfold sendNextChunk
  rw [if_neg (by omega : ¬content.length ≤ offset)]
  simp only [show (content.drop offset).take size = data from rfl, hdata, if_false]
  by_cases hall : socket.TakesAll (encode data)
  · left
    refine ⟨hall, ?_⟩
    simp only [Socket.write_all hall, lt_irrefl, if_false]
    split <;> rfl
  · right
    refine ⟨hall, ?_⟩
    rcases Socket.write_short hall with hwrite | ⟨sent, hsent, hwrite⟩
    · exact ⟨0, Nat.zero_le _, by simp only [hwrite, List.take_zero]⟩
    · exact ⟨sent, hsent.le, by simp only [hwrite, if_pos hsent]⟩

theorem sendNextChunk_end {content : Bytes} {size offset : Nat} (hend : content.length ≤ offset)
    (socket : Socket) :
    sendNextChunk content size ⟨offset, [], 0⟩ socket =
      (⟨offset, generateFinalChunk, 0⟩, socket) := by
  simp [sendNextChunk, hend]

private theorem sendNextChunk_prepend (before content : Bytes) (size : Nat) (stream : Stream)
    (socket : Socket) :
    sendNextChunk content size stream (socket.prepend before) =
      ((sendNextChunk content size stream socket).1,
        (sendNextChunk content size stream socket).2.prepend before) := by
  unfold sendNextChunk
  simp only [Socket.write_prepend]
  split
  · rfl
  split
  · rfl
  rcases socket.write (encode ((content.drop stream.offset).take size)) with ⟨_ | written, socket⟩
  · rfl
  simp only
  split
  · rfl
  split <;> rfl

/-- What has been received before a call does not matter to it. -/
theorem streamFileChunked_prepend (before : Bytes) (file : Option Bytes)
    (location : Option Location) (stream : Stream) (socket : Socket) :
    (streamFileChunked file location stream (socket.prepend before)).2.2.2 =
      (streamFileChunked file location stream socket).2.2.2.prepend before := by
  cases file with
  | none => rfl
  | some content =>
      unfold streamFileChunked
      simp only [Socket.write_prepend, sendNextChunk_prepend]
      split
      · rcases socket.write (stream.pendingData.drop stream.pendingSent) with ⟨_ | written, socket⟩
        · rfl
        simp only
        split
        · rfl
        split
        · rfl
        · exact congrArg Prod.snd (sendNextChunk_prepend before content _ _ socket)
      · rfl

private theorem sendNextChunk_writes (content : Bytes) (size : Nat) (stream : Stream)
    (socket : Socket) : socket.writes ≤ (sendNextChunk content size stream socket).2.writes := by
  unfold sendNextChunk
  split
  · exact le_refl _
  simp only
  split
  · exact le_refl _
  have hwrites := socket.write_writes (encode ((content.drop stream.offset).take size))
  rcases hwrite : socket.write (encode ((content.drop stream.offset).take size)) with
    ⟨_ | written, socket'⟩
  · rw [hwrite] at hwrites
    simp only at hwrites ⊢
    omega
  · rw [hwrite] at hwrites
    simp only at hwrites ⊢
    split
    · simp only
      omega
    split <;> (simp only; omega)

theorem streamFileChunked_writes (file : Option Bytes) (location : Option Location)
    (stream : Stream) (socket : Socket) :
    socket.writes ≤ (streamFileChunked file location stream socket).2.2.2.writes := by
  cases file with
  | none => exact le_refl _
  | some content =>
      unfold streamFileChunked
      simp only
      split
      · have hwrites := socket.write_writes (stream.pendingData.drop stream.pendingSent)
        rcases hwrite : socket.write (stream.pendingData.drop stream.pendingSent) with
          ⟨_ | written, socket'⟩
        · rw [hwrite] at hwrites
          simp only at hwrites ⊢
          omega
        · rw [hwrite] at hwrites
          simp only at hwrites ⊢
          split
          · simp only
            omega
          split
          · simp only
            omega
          · have hnext := sendNextChunk_writes content (chunkSize location)
              { stream with pendingData := [], pendingSent := 0 } socket'
            simp only at hnext ⊢
            omega
      · exact sendNextChunk_writes content _ stream socket

section Calls

variable {content : Bytes} {location : Option Location} {socket' : Socket}

theorem chunkSize_pos (location : Option Location) : 0 < chunkSize location := by
  unfold chunkSize defaultChunkSize
  split
  · split <;> omega
  · omega

/-- Pending data is flushed, or some of it is left. -/
private theorem streamFileChunked_pending {stream : Stream} (hpending : stream.pendingData ≠ [])
    (hsent : stream.pendingSent ≤ stream.pendingData.length) (socket : Socket) :
    let rest := stream.pendingData.drop stream.pendingSent
    (streamFileChunked (some content) location stream socket =
      if stream.pendingData = generateFinalChunk then
        (.ok, true, ⟨stream.offset, [], 0⟩, socket.advance rest)
      else (.ok, false, sendNextChunk content (chunkSize location) ⟨stream.offset, [], 0⟩
        (socket.advance rest))) ∨
    ∃ sent, sent ≤ rest.length ∧ streamFileChunked (some content) location stream socket =
      (.ok, false, ⟨stream.offset, stream.pendingData, stream.pendingSent + sent⟩,
        socket.advance (rest.take sent)) := by
  intro rest
  have hlength : rest.length = stream.pendingData.length - stream.pendingSent :=
    List.length_drop
  unfold streamFileChunked
  simp only [if_pos hpending, show stream.pendingData.drop stream.pendingSent = rest from rfl]
  by_cases hall : socket.TakesAll rest
  · left
    simp only [Socket.write_all hall]
    rw [if_neg (by omega)]
  · right
    rcases Socket.write_short hall with hwrite | ⟨sent, hlt, hwrite⟩
    · exact ⟨0, Nat.zero_le _, by simp only [hwrite, List.take_zero]; rfl⟩
    · refine ⟨sent, hlt.le, ?_⟩
      simp only [hwrite]
      rw [if_pos (by omega)]

/-- Once the final chunk is pending, nothing else is sent. -/
private theorem streamCalls_final (calls : Nat) :
    ∀ (offset sent : Nat) (socket : Socket), sent ≤ generateFinalChunk.length →
      streamCalls (some content) location calls ⟨offset, generateFinalChunk, sent⟩ socket =
        some socket' →
      socket'.received = socket.received ++ generateFinalChunk.drop sent := by
  induction calls with
  | zero =>
      intro offset sent socket _ h
      cases h
  | succ calls ih =>
      intro offset sent socket hsent h
      rw [streamCalls] at h
      rcases @streamFileChunked_pending content location ⟨offset, generateFinalChunk, sent⟩
        (show generateFinalChunk ≠ [] by decide) hsent socket with hflush | ⟨more, hmore, hkeep⟩
      · rw [hflush, if_pos rfl] at h
        cases h
        rfl
      · rw [hkeep] at h
        rw [List.length_drop] at hmore
        rw [ih offset (sent + more) _ (by simp only at hmore; omega) h, Socket.advance,
          List.append_assoc, ← List.drop_drop, List.take_append_drop]

/-- From the `k`-th `write` on, every chunk of what is left is taken at once. -/
def TakesChunks (content : Bytes) (size offset : Nat) (socket : Socket) : Prop :=
  ∀ k, offset + k * size < content.length →
    ∃ n, socket.outcomes (socket.writes + k) = some n ∧
      (encode ((content.drop (offset + k * size)).take size)).length ≤ n

private theorem takesChunks_step {size offset : Nat} (hmore : offset < content.length)
    (socket : Socket) (written : Bytes) :
    TakesChunks content size offset socket ↔
      socket.TakesAll (encode ((content.drop offset).take size)) ∧
        TakesChunks content size (offset + size) (socket.advance written) := by
  constructor
  · intro h
    refine ⟨by simpa [Socket.TakesAll] using h 0 (by simpa using hmore), ?_⟩
    intro k hk
    have hnext := h (k + 1) (by rw [Nat.add_mul, Nat.one_mul]; omega)
    rw [show offset + (k + 1) * size = offset + size + k * size by ring,
      show socket.writes + (k + 1) = socket.writes + 1 + k by ring] at hnext
    exact hnext
  · rintro ⟨hfirst, hrest⟩ k hk
    cases k with
    | zero => simpa [Socket.TakesAll] using hfirst
    | succ k =>
        have hnext := hrest k (by rw [Nat.add_mul, Nat.one_mul] at hk; omega)
        rw [show offset + size + k * size = offset + (k + 1) * size by ring] at hnext
        rw [show socket.writes + (k + 1) = socket.writes + 1 + k by ring]
        exact hnext

/-- What a run from `offset` sends: chunks with data and the final one. They
are what is left of the file if every chunk is taken at once, and longer if not. -/
private def SendsRest (content : Bytes) (location : Option Location) (socket' : Socket)
    (offset : Nat) (socket : Socket) : Prop :=
  ∃ chunks : List Bytes, (∀ data ∈ chunks, data ≠ []) ∧
    socket'.received = socket.received ++ ((chunks.map encode).flatten ++ generateFinalChunk) ∧
    ((TakesChunks content (chunkSize location) offset socket ∧
        chunks.flatten = content.drop offset) ∨
      (¬ TakesChunks content (chunkSize location) offset socket ∧
        content.length - offset < chunks.flatten.length))

/-- What a run sends while a chunk is pending: the rest of it, and then at least
as much as is left of the file. -/
private def Resends (content : Bytes) (socket' : Socket) (offset : Nat) (pending : Bytes)
    (socket : Socket) : Prop :=
  ∃ chunks : List Bytes, (∀ data ∈ chunks, data ≠ []) ∧
    socket'.received = socket.received ++ (pending ++
      ((chunks.map encode).flatten ++ generateFinalChunk)) ∧
    content.length - offset ≤ chunks.flatten.length

private theorem SendsRest.resends {offset : Nat} {socket : Socket}
    (h : SendsRest content location socket' offset socket) :
    Resends content socket' offset [] socket := by
  obtain ⟨chunks, hchunks, hreceived, hlength⟩ := h
  refine ⟨chunks, hchunks, hreceived, ?_⟩
  rcases hlength with ⟨_, hflat⟩ | ⟨_, hlt⟩
  · rw [hflat, List.length_drop]
  · exact hlt.le

/-- The next chunk, and what the rest of the run sends behind it. -/
private theorem sendNextChunk_sends {calls : Nat}
    (hready : ∀ offset socket,
      streamCalls (some content) location calls ⟨offset, [], 0⟩ socket = some socket' →
      SendsRest content location socket' offset socket)
    (hpending : ∀ offset sent data socket, data ≠ [] → sent ≤ (encode data).length →
      streamCalls (some content) location calls ⟨offset, encode data, sent⟩ socket =
        some socket' →
      Resends content socket' offset ((encode data).drop sent) socket)
    (offset : Nat) (socket : Socket)
    (h : streamCalls (some content) location calls
      (sendNextChunk content (chunkSize location) ⟨offset, [], 0⟩ socket).1
      (sendNextChunk content (chunkSize location) ⟨offset, [], 0⟩ socket).2 = some socket') :
    SendsRest content location socket' offset socket := by
  by_cases hend : content.length ≤ offset
  · rw [sendNextChunk_end hend] at h
    refine ⟨[], by simp, ?_, Or.inl ⟨fun k hk => by omega, by simp [hend]⟩⟩
    exact streamCalls_final calls offset 0 socket (Nat.zero_le _) h
  have hmore : offset < content.length := by omega
  set data := (content.drop offset).take (chunkSize location) with hdataDef
  have hlength : data.length = min (chunkSize location) (content.length - offset) := by
    rw [hdataDef, List.length_take, List.length_drop]
  have hdata : data ≠ [] := by
    intro hnil
    rw [hnil, List.length_nil] at hlength
    have hsize := chunkSize_pos location
    omega
  have hstep := @takesChunks_step content (chunkSize location) offset hmore socket (encode data)
  rcases sendNextChunk_cases (chunkSize_pos location) hmore socket with
    ⟨hall, hsend⟩ | ⟨hshort, sent, hsent, hsend⟩
  · rw [hsend] at h
    simp only [← hdataDef] at h
    by_cases hlast : content.length ≤ offset + data.length
    · rw [if_pos hlast] at h
      have hreceived := streamCalls_final calls (offset + data.length) 0 _ (Nat.zero_le _) h
      refine ⟨[data], by simpa using hdata, ?_, Or.inl ⟨?_, ?_⟩⟩
      · rw [hreceived, Socket.advance]
        simp
      · exact hstep.mpr ⟨hall, fun k hk => by omega⟩
      · rw [List.flatten_cons, List.flatten_nil, List.append_nil, hdataDef]
        exact List.take_of_length_le (by rw [List.length_drop]; omega)
    · rw [if_neg hlast] at h
      have hfull : data.length = chunkSize location := by omega
      rw [hfull] at h hlast
      have hsplit : content.drop offset = data ++ content.drop (offset + chunkSize location) := by
        rw [hdataDef, ← List.drop_drop, List.take_append_drop]
      obtain ⟨chunks, hchunks, hreceived, hrest⟩ := hready _ _ h
      refine ⟨data :: chunks, by simpa [hdata] using hchunks, ?_, ?_⟩
      · rw [hreceived, Socket.advance]
        simp
      · rw [hstep]
        rcases hrest with ⟨htakes, hflat⟩ | ⟨hnot, hlt⟩
        · exact Or.inl ⟨⟨hall, htakes⟩, by rw [List.flatten_cons, hflat, hsplit]⟩
        · refine Or.inr ⟨fun hboth => hnot hboth.2, ?_⟩
          rw [List.flatten_cons, List.length_append]
          omega
  · rw [hsend] at h
    obtain ⟨chunks, hchunks, hreceived, hle⟩ := hpending offset sent data _ hdata hsent h
    refine ⟨data :: chunks, by simpa [hdata] using hchunks, ?_, Or.inr ⟨?_, ?_⟩⟩
    · rw [hreceived, Socket.advance]
      simp only [List.map_cons, List.flatten_cons, List.append_assoc]
      rw [← List.append_assoc ((encode data).take sent), List.take_append_drop]
    · exact fun htakes => hshort (hstep.mp htakes).1
    · have hpos := List.length_pos_iff.mpr hdata
      rw [List.flatten_cons, List.length_append]
      omega

/-- One call, then the rest of the run. -/
private theorem streamCalls_sends (calls : Nat) :
    (∀ offset socket,
      streamCalls (some content) location calls ⟨offset, [], 0⟩ socket = some socket' →
      SendsRest content location socket' offset socket) ∧
    (∀ offset sent data socket, data ≠ [] → sent ≤ (encode data).length →
      streamCalls (some content) location calls ⟨offset, encode data, sent⟩ socket =
        some socket' →
      Resends content socket' offset ((encode data).drop sent) socket) := by
  induction calls with
  | zero =>
      constructor
      · intro offset socket h
        cases h
      · intro offset sent data socket _ _ h
        cases h
  | succ calls ih =>
      constructor
      · intro offset socket h
        rw [streamCalls] at h
        exact sendNextChunk_sends ih.1 ih.2 offset socket h
      · intro offset sent data socket hdata hsent h
        rw [streamCalls] at h
        rcases @streamFileChunked_pending content location ⟨offset, encode data, sent⟩
          (encode_ne_nil data) hsent socket with hflush | ⟨more, hmore, hkeep⟩
        · rw [hflush, if_neg (encode_ne_final hdata)] at h
          obtain ⟨chunks, hchunks, hreceived, hle⟩ :=
            (sendNextChunk_sends ih.1 ih.2 offset _ h).resends
          exact ⟨chunks, hchunks, by simpa [Socket.advance] using hreceived, hle⟩
        · rw [hkeep] at h
          simp only [List.length_drop] at hmore
          obtain ⟨chunks, hchunks, hreceived, hle⟩ :=
            ih.2 offset (sent + more) data _ hdata (by omega) h
          refine ⟨chunks, hchunks, ?_, hle⟩
          rw [hreceived, Socket.advance, List.append_assoc, ← List.drop_drop,
            ← List.append_assoc (List.take more _), List.take_append_drop]

end Calls

/-- The body that the client has received when a transfer finishes decodes to
the file exactly when every chunk was taken by the first `write` that offered
it. -/
theorem streamCalls_decodes_iff (content : Bytes) (location : Option Location)
    (outcomes : Nat → Option Nat) (calls : Nat) (socket' : Socket)
    (h : streamCalls (some content) location calls {} { outcomes := outcomes } = some socket') :
    Chunked.decode socket'.received = some (content, []) ↔
      ∀ k, k * chunkSize location < content.length →
        ∃ n, outcomes k = some n ∧
          (encode ((content.drop (k * chunkSize location)).take
            (chunkSize location))).length ≤ n := by
  obtain ⟨chunks, hchunks, hreceived, hrest⟩ := (streamCalls_sends calls).1 0 _ h
  have htakes : TakesChunks content (chunkSize location) 0 { outcomes := outcomes } ↔
      ∀ k, k * chunkSize location < content.length → ∃ n, outcomes k = some n ∧
        (encode ((content.drop (k * chunkSize location)).take
          (chunkSize location))).length ≤ n := by
    simp [TakesChunks]
  have hdecode : Chunked.decode socket'.received = some (chunks.flatten, []) := by
    have hread := Chunked.decode_chunks chunks hchunks []
    rw [List.append_nil] at hread
    rw [hreceived, generateFinalChunk_eq, List.nil_append,
      show encode = Chunked.chunk from funext encode_eq_chunk, hread]
  rw [← htakes, hdecode]
  rcases hrest with ⟨hall, hflat⟩ | ⟨hshort, hlt⟩
  · exact iff_of_true (by rw [hflat, List.drop_zero]) hall
  · refine iff_of_false (fun heq => ?_) hshort
    simp only [Option.some.injEq, Prod.mk.injEq, and_true] at heq
    rw [heq] at hlt
    omega

/-- A file of one byte in a socket that takes all: the transfer decodes. -/
theorem streamCalls_decodes_iff_open :
    ∃ socket', streamCalls (some (bytes "x")) none 2 {} { outcomes := fun _ => some 100 } =
        some socket' ∧
      Chunked.decode socket'.received = some (bytes "x", []) := by
  have hrun : streamCalls (some (bytes "x")) none 2 {} { outcomes := fun _ => some 100 } =
      some ⟨fun _ => some 100, 2, bytes "1\r\nx\r\n0\r\n\r\n"⟩ := by
    simp only [streamCalls, streamFileChunked, sendNextChunk]
    rfl
  refine ⟨_, hrun, (streamCalls_decodes_iff (bytes "x") none (fun _ => some 100) 2 _ hrun).mpr ?_⟩
  intro k hk
  obtain rfl : k = 0 := by
    by_contra hpos
    have hsize : chunkSize none ≤ k * chunkSize none := Nat.le_mul_of_pos_left _ (by omega)
    have hdefault : chunkSize none = 8192 := rfl
    have hlength : (bytes "x").length = 1 := rfl
    omega
  exact ⟨100, rfl, by decide⟩

/-- The first `write` takes two of the six bytes of the chunk, which then comes
twice. -/
theorem streamCalls_repeats_chunk :
    ∃ socket', streamCalls (some (bytes "x")) none 3 {}
        { outcomes := fun k => some (if k = 0 then 2 else 100) } = some socket' ∧
      Chunked.decode socket'.received = some (bytes "xx", []) :=
  ⟨_, rfl, by decide⟩

end Chunk

end FortyTwo.Webserv
