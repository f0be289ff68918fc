import FortyTwo.Webserv.ServerRequestParser

/-!
What the request record says about a raw body after each chunk. The parser adds
the bytes received so far to the record at every call, and never says that it
is finished.
-/

namespace FortyTwo.Webserv

open RequestHeaderParser (toInt)

namespace RequestRawBodyParser

/-- Behind the chunks the record has the bytes up to the declared length and
their number, and the parser is finished once all of them have come. -/
def AccountedAfter (L : UInt64) (request : Request) (sent : List Bytes) : Prop :=
  ∃ p request',
    parseBodyChunks (init L.toNat .inBuffer) { request with transferedLength := 0 } sent =
      .ok (p, request') ∧
    request'.bodyChunk = sent.flatten.take L.toNat ∧
    request'.transferedLength = min L.toNat sent.flatten.length ∧
    (IRequestBodyParser.isFinished p = true ↔ L.toNat ≤ sent.flatten.length)

/-- After each of the calls. -/
def Accounts (L : UInt64) (request : Request) (chunks : List Bytes) : Prop :=
  ∀ sent, sent <+: chunks → sent ≠ [] → AccountedAfter L request sent

/-- Only the last chunk has bytes, fewer than are declared, and its length and
the declared one keep their order as `int`. -/
def Unsplit (L : UInt64) : List Bytes → Prop
  | [] => True
  | [chunk] => chunk.length < L.toNat ∧ toInt chunk.length ≤ toInt L.toNat ∧
      toInt chunk.length % 2 ^ 64 = chunk.length
  | chunk :: next :: rest => chunk = [] ∧ 0 ≤ toInt L.toNat ∧ Unsplit L (next :: rest)

/-- A parser that keeps the body in memory. -/
def buffering (limit size : Int) (data : Bytes) : RequestRawBodyParser :=
  ⟨limit, .inBuffer, size, data, false⟩

/-- How many bytes of a chunk are counted. -/
def counted (limit size : Int) (chunk : Bytes) : Int :=
  if toInt (size + toInt chunk.length) > limit then toInt (limit - size) else toInt chunk.length

def countedIn (request : Request) (size : Int) (data : Bytes) : Request :=
  { request with
    transferedLength := ((request.transferedLength + size) % 2 ^ 64).toNat
    bodyChunk := data }

private theorem init_eq (L : UInt64) :
    init L.toNat .inBuffer = buffering (toInt L.toNat) 0 [] := rfl

private theorem toInt_range (x : Int) : -2 ^ 31 ≤ toInt x ∧ toInt x < 2 ^ 31 := by
  unfold toInt
  constructor <;> omega

private theorem toInt_residue (x : Int) : ∃ q, x = toInt x + 2 ^ 32 * q := by
  refine ⟨(x + 2 ^ 31) / 2 ^ 32, ?_⟩
  unfold toInt
  omega

private theorem toInt_add (x q : Int) (h : -2 ^ 31 ≤ x ∧ x < 2 ^ 31) :
    toInt (x + 2 ^ 32 * q) = x := by
  unfold toInt
  omega

private theorem toInt_self {x : Int} (h : -2 ^ 31 ≤ x ∧ x < 2 ^ 31) : toInt x = x := by
  simpa using toInt_add x 0 h

/-- A 64-bit number that an `int` stands for. -/
private theorem eq_of_wrapped {n : Nat} {x : Int} (hn : n < 2 ^ 64)
    (hx : -2 ^ 31 ≤ x ∧ x < 2 ^ 31) (h : x % 2 ^ 64 = n) : (n : Int) = x ∨ (n : Int) = x + 2 ^ 64 := by
  omega

private theorem parseBody_buffering (limit size : Int) (data chunk : Bytes) (request : Request) :
    parseBody (buffering limit size data) chunk 0 request =
      .ok (buffering limit (toInt (size + counted limit size chunk))
          (data ++ substr chunk 0 (counted limit size chunk)),
        countedIn request (toInt (size + counted limit size chunk))
          (data ++ substr chunk 0 (counted limit size chunk)), .ok) := by
  have hincomplete : Status.incomplete.isError = false := rfl
  by_cases hexceeds : toInt (size + toInt chunk.length) > limit <;>
    simp [parseBody, IRequestBodyParser.feed, IRequestBodyParser.apply,
      IRequestBodyParser.isFinished, feed, RequestRawBodyParser.apply, buffering, counted,
      countedIn, hexceeds, hincomplete, pure, Except.pure, bind, Except.bind]

private theorem parseBodyChunks_cons (limit size : Int) (data chunk : Bytes) (request : Request)
    (rest : List Bytes) :
    parseBodyChunks (buffering limit size data) request (chunk :: rest) =
      parseBodyChunks
        (buffering limit (toInt (size + counted limit size chunk))
          (data ++ substr chunk 0 (counted limit size chunk)))
        (countedIn request (toInt (size + counted limit size chunk))
          (data ++ substr chunk 0 (counted limit size chunk))) rest := by
  rw [parseBodyChunks, parseBody_buffering]
  simp [bind, Except.bind]

private theorem substr_zero (chunk : Bytes) (n : Int) :
    substr chunk 0 n = if n < 0 then chunk else chunk.take n.toNat := by
  rw [substr, List.drop_zero]

/-- A chunk that is taken whole. -/
private theorem substr_eq_iff (chunk : Bytes) (n : Int) :
    substr chunk 0 n = chunk ↔ n < 0 ∨ (chunk.length : Int) ≤ n := by
  rw [substr_zero]
  by_cases hn : n < 0
  · simp [hn]
  · rw [if_neg hn, List.take_eq_self_iff]
    omega

variable {L : UInt64} {request : Request}

private theorem buffering_not_finished (limit size : Int) (data : Bytes) :
    IRequestBodyParser.isFinished (buffering limit size data) = false := rfl

/-- The parser is never finished, so fewer bytes than declared have come; what
the record says about them is in its fields. -/
private theorem accountedAfter_iff {size : Int} {data : Bytes} {request' : Request}
    {sent : List Bytes}
    (hrun : parseBodyChunks (init L.toNat .inBuffer) { request with transferedLength := 0 } sent =
      .ok (buffering (toInt L.toNat) size data, request')) :
    AccountedAfter L request sent ↔ sent.flatten.length < L.toNat ∧
      request'.bodyChunk = sent.flatten ∧ request'.transferedLength = sent.flatten.length := by
  unfold AccountedAfter
  rw [hrun]
  constructor
  · rintro ⟨p, r, hr, hbody, hlength, hfinished⟩
    rw [Except.ok.injEq, Prod.mk.injEq] at hr
    obtain ⟨rfl, rfl⟩ := hr
    rw [buffering_not_finished] at hfinished
    have hshort : sent.flatten.length < L.toNat := by
      by_contra hlong
      exact Bool.false_ne_true (hfinished.mpr (by omega))
    rw [List.take_of_length_le (le_of_lt hshort)] at hbody
    rw [min_eq_right (le_of_lt hshort)] at hlength
    exact ⟨hshort, hbody, hlength⟩
  · rintro ⟨hshort, hbody, hlength⟩
    refine ⟨_, _, rfl, ?_, ?_, ?_⟩
    · rw [List.take_of_length_le (le_of_lt hshort), hbody]
    · rw [min_eq_right (le_of_lt hshort), hlength]
    · rw [buffering_not_finished]
      exact iff_of_false Bool.false_ne_true (Nat.not_le.mpr hshort)

private theorem counted_first (chunk : Bytes) :
    counted (toInt L.toNat) 0 chunk = min (toInt chunk.length) (toInt L.toNat) := by
  have hlimit := toInt_self (toInt_range L.toNat)
  have hchunk := toInt_self (toInt_range chunk.length)
  rw [counted, Int.zero_add, Int.sub_zero, hlimit, hchunk]
  split <;> omega

private theorem run_one (chunk : Bytes) :
    parseBodyChunks (init L.toNat .inBuffer) { request with transferedLength := 0 } [chunk] =
      .ok (buffering (toInt L.toNat) (toInt (counted (toInt L.toNat) 0 chunk))
          (substr chunk 0 (counted (toInt L.toNat) 0 chunk)),
        countedIn { request with transferedLength := 0 } (toInt (counted (toInt L.toNat) 0 chunk))
          (substr chunk 0 (counted (toInt L.toNat) 0 chunk))) := by
  rw [init_eq, parseBodyChunks_cons, parseBodyChunks, Int.zero_add, List.nil_append]

/-- One chunk is accounted for when the `int` conversions do not change how its
length stands to the declared one. -/
private theorem accountedAfter_one (chunk : Bytes) :
    AccountedAfter L request [chunk] ↔ chunk.length < L.toNat ∧
      toInt chunk.length ≤ toInt L.toNat ∧ toInt chunk.length % 2 ^ 64 = chunk.length := by
  have hL := L.toNat_lt
  have hself := toInt_self (toInt_range chunk.length)
  rw [accountedAfter_iff (run_one chunk), List.flatten_singleton]
  simp only [countedIn, counted_first, Nat.cast_zero, Int.zero_add]
  constructor
  · rintro ⟨hshort, _, hlength⟩
    have hle : toInt chunk.length ≤ toInt L.toNat := by
      by_contra hgt
      have hlimit := toInt_self (toInt_range L.toNat)
      rw [min_eq_right (by omega), hlimit] at hlength
      obtain ⟨q, hq⟩ : ∃ q, (chunk.length : Int) = toInt L.toNat + 2 ^ 32 * q := by
        have hwrapped : toInt L.toNat % 2 ^ 64 = chunk.length := by omega
        rcases eq_of_wrapped (by omega) (toInt_range L.toNat) hwrapped with h | h
        · exact ⟨0, by omega⟩
        · exact ⟨2 ^ 32, by omega⟩
      have hsame := toInt_add _ q (toInt_range L.toNat)
      rw [← hq] at hsame
      omega
    rw [min_eq_left hle, hself] at hlength
    exact ⟨hshort, hle, by omega⟩
  · rintro ⟨hshort, hle, hlength⟩
    rw [min_eq_left hle, hself, substr_eq_iff]
    refine ⟨hshort, ?_, by omega⟩
    rcases eq_of_wrapped (by omega) (toInt_range chunk.length) hlength with h | h
    · exact Or.inr (le_of_eq h)
    · have hrange := toInt_range chunk.length
      exact Or.inl (by omega)

/-- Below the limit the total of both chunks is counted where only the second
is due. -/
private theorem eq_zero_of_within {n m a b t q s : Int} (hn : 0 ≤ n ∧ n < 2 ^ 64)
    (ha : n = a ∨ n = a + 2 ^ 64) (hm : m = t ∨ m = t + 2 ^ 64) (hrange : -2 ^ 31 ≤ a ∧ a < 2 ^ 31)
    (hq : m = b + 2 ^ 32 * q) (hs : a + b = t + 2 ^ 32 * s) : n = 0 := by
  obtain ⟨r, rfl⟩ : ∃ r, a = 2 ^ 32 * r := by
    rcases hm with rfl | rfl
    · exact ⟨q + s, by omega⟩
    · exact ⟨q + s - 2 ^ 32, by omega⟩
  omega

/-- At the limit the limit itself is counted. -/
private theorem eq_zero_of_beyond {n m d a l k r : Int} (hn : 0 ≤ n) (hm : 0 ≤ m)
    (hsum : n + m < d) (hd : d < 2 ^ 64) (ha : n = a ∨ n = a + 2 ^ 64)
    (hm' : m = l ∨ m = l + 2 ^ 64) (harange : -2 ^ 31 ≤ a ∧ a < 2 ^ 31)
    (hlrange : -2 ^ 31 ≤ l ∧ l < 2 ^ 31) (hle : a ≤ l) (hr : d = l + 2 ^ 32 * r)
    (hk : 0 ≤ a → k = l - a) (hall : k < 0 ∨ m ≤ k) : n = 0 := by
  rcases hm' with rfl | rfl
  · rcases ha with rfl | rfl
    · have hrest := hk hn
      omega
    · omega
  · omega

/-- What the second of two numbers is, when their total is counted modulo
`2 ^ 64`. -/
private theorem wrapped_of_total {n m : Nat} {x : Int} (h : n + m = ((n + x) % 2 ^ 64).toNat) :
    x % 2 ^ 64 = m := by
  omega

private theorem toInt_add_toInt_sub (x y : Int) (hx : -2 ^ 31 ≤ x ∧ x < 2 ^ 31) :
    toInt (y + toInt (x - y)) = x := by
  obtain ⟨d, hd⟩ := toInt_residue (x - y)
  have htotal : y + toInt (x - y) = x + 2 ^ 32 * (-d) := by
    clear hx
    omega
  rw [htotal, toInt_add x (-d) hx]

private theorem run_two {chunk : Bytes} (hone : AccountedAfter L request [chunk]) (next : Bytes) :
    ∃ request',
      parseBodyChunks (init L.toNat .inBuffer) { request with transferedLength := 0 }
          [chunk, next] =
        .ok (buffering (toInt L.toNat)
          (toInt (toInt chunk.length + counted (toInt L.toNat) (toInt chunk.length) next))
          (chunk ++ substr next 0 (counted (toInt L.toNat) (toInt chunk.length) next)), request') ∧
      request'.bodyChunk =
        chunk ++ substr next 0 (counted (toInt L.toNat) (toInt chunk.length) next) ∧
      request'.transferedLength = ((chunk.length +
        toInt (toInt chunk.length + counted (toInt L.toNat) (toInt chunk.length) next)) %
          2 ^ 64).toNat := by
  obtain ⟨_, hbody, hlength⟩ := (accountedAfter_iff (run_one chunk)).mp hone
  obtain ⟨_, hle, _⟩ := (accountedAfter_one chunk).mp hone
  simp only [countedIn, List.flatten_singleton] at hbody hlength
  have hself := toInt_self (toInt_range chunk.length)
  rw [counted_first, min_eq_left hle, hself] at hlength
  rw [counted_first, min_eq_left hle] at hbody
  refine ⟨countedIn (countedIn { request with transferedLength := 0 } (toInt chunk.length) chunk)
    (toInt (toInt chunk.length + counted (toInt L.toNat) (toInt chunk.length) next))
    (chunk ++ substr next 0 (counted (toInt L.toNat) (toInt chunk.length) next)), ?_, rfl, ?_⟩
  · rw [init_eq, parseBodyChunks_cons, parseBodyChunks_cons, parseBodyChunks, Int.zero_add,
      List.nil_append, counted_first, min_eq_left hle, hself, hbody]
  · rw [countedIn, countedIn, hlength]

/-- Bytes that a second chunk follows are counted twice. -/
private theorem eq_nil_of_two {chunk next : Bytes} (hone : AccountedAfter L request [chunk])
    (htwo : AccountedAfter L request [chunk, next]) : chunk = [] := by
  obtain ⟨_, hle, hwrapped⟩ := (accountedAfter_one chunk).mp hone
  obtain ⟨request', hrun, hbody, hlength⟩ := run_two hone next
  obtain ⟨hshort, hbody', hlength'⟩ := (accountedAfter_iff hrun).mp htwo
  rw [hbody', List.flatten_cons, List.flatten_singleton, List.append_cancel_left_eq, eq_comm,
    substr_eq_iff] at hbody
  rw [List.flatten_cons, List.flatten_singleton, List.length_append] at hshort hlength'
  have hL : (L.toNat : Int) < 2 ^ 64 := by exact_mod_cast L.toNat_lt
  have hsum : (chunk.length : Int) + next.length < L.toNat := by exact_mod_cast hshort
  have hn := eq_of_wrapped (lt_of_le_of_lt (Nat.le_add_right _ _) (hshort.trans L.toNat_lt))
    (toInt_range chunk.length) hwrapped
  have hnext : next.length < 2 ^ 64 :=
    lt_of_le_of_lt (Nat.le_add_left _ _) (hshort.trans L.toNat_lt)
  have htransfered := wrapped_of_total (hlength'.symm.trans hlength)
  clear hwrapped hlength hlength' hrun hbody'
  suffices hzero : (chunk.length : Int) = 0 by
    exact List.length_eq_zero_iff.mp (by exact_mod_cast hzero)
  by_cases hexceeds : toInt (toInt chunk.length + toInt next.length) > toInt L.toNat
  · have hcounted : counted (toInt L.toNat) (toInt chunk.length) next =
        toInt (toInt L.toNat - toInt chunk.length) := by rw [counted, if_pos hexceeds]
    rw [hcounted] at hbody htransfered
    rw [toInt_add_toInt_sub _ _ (toInt_range L.toNat)] at htransfered
    obtain ⟨r, hr⟩ := toInt_residue L.toNat
    have hm := eq_of_wrapped hnext (toInt_range L.toNat) htransfered
    refine eq_zero_of_beyond (Int.natCast_nonneg _) (Int.natCast_nonneg _) hsum hL hn hm
      (toInt_range _) (toInt_range _) hle hr ?_ hbody
    intro hpos
    have hrange := toInt_range L.toNat
    apply toInt_self
    clear hn hm htransfered
    omega
  · have hcounted : counted (toInt L.toNat) (toInt chunk.length) next = toInt next.length := by
      rw [counted, if_neg hexceeds]
    rw [hcounted] at htransfered
    obtain ⟨q, hq⟩ := toInt_residue next.length
    obtain ⟨s, hs⟩ := toInt_residue (toInt chunk.length + toInt next.length)
    have hm := eq_of_wrapped hnext (toInt_range _) htransfered
    refine eq_zero_of_within ⟨Int.natCast_nonneg _, ?_⟩ hn hm (toInt_range _) hq hs
    clear hn hm htransfered
    omega

/-- An empty chunk in front leaves the parser as it was, unless the declared
length is negative as `int`. -/
private theorem accountedAfter_nil_cons (hlimit : 0 ≤ toInt L.toNat) (sent : List Bytes) :
    AccountedAfter L request ([] :: sent) ↔
      AccountedAfter L { request with bodyChunk := [] } sent := by
  have hcounted : counted (toInt L.toNat) 0 [] = 0 := by
    rw [counted_first]
    exact min_eq_left hlimit
  have hrun : parseBodyChunks (init L.toNat .inBuffer) { request with transferedLength := 0 }
      ([] :: sent) = parseBodyChunks (init L.toNat .inBuffer)
        { request with transferedLength := 0, bodyChunk := [] } sent := by
    rw [init_eq, parseBodyChunks_cons, hcounted]
    rfl
  rw [AccountedAfter, AccountedAfter, hrun, List.flatten_cons, List.nil_append]

private theorem accounts_one (chunk : Bytes) :
    Accounts L request [chunk] ↔ AccountedAfter L request [chunk] := by
  constructor
  · intro h
    exact h [chunk] (List.prefix_refl _) (by simp)
  · intro h sent hsent hne
    rcases List.prefix_cons_iff.mp hsent with rfl | ⟨rest, rfl, hrest⟩
    · exact absurd rfl hne
    · rw [List.prefix_nil.mp hrest]
      exact h

/-- The record is right after every call exactly when only the last chunk has
bytes, and fewer than are declared: the end of the body is never noticed, and
what a call has counted the next one counts again. -/
theorem accounts_iff (L : UInt64) (request : Request) (chunks : List Bytes) :
    Accounts L request chunks ↔ Unsplit L chunks := by
  induction chunks generalizing request with
  | nil =>
      refine iff_of_true ?_ trivial
      intro sent hsent hne
      exact absurd (List.prefix_nil.mp hsent) hne
  | cons chunk rest ih =>
      cases rest with
      | nil => rw [accounts_one, accountedAfter_one, Unsplit]
      | cons next rest =>
          rw [Unsplit]
          constructor
          · intro h
            have hone := h [chunk] ⟨next :: rest, rfl⟩ (by simp)
            obtain rfl := eq_nil_of_two hone (h [chunk, next] ⟨rest, rfl⟩ (by simp))
            have hlimit : 0 ≤ toInt L.toNat := ((accountedAfter_one []).mp hone).2.1
            refine ⟨rfl, hlimit, (ih { request with bodyChunk := [] }).mp ?_⟩
            intro sent hsent hne
            rw [← accountedAfter_nil_cons hlimit]
            exact h ([] :: sent) (List.cons_prefix_cons.mpr ⟨rfl, hsent⟩) (by simp)
          · rintro ⟨rfl, hlimit, hrest⟩ sent hsent hne
            have haccounts := (ih { request with bodyChunk := [] }).mpr hrest
            have hnext := haccounts [next] ⟨rest, rfl⟩ (by simp)
            have hpos : next.length < L.toNat := ((accountedAfter_one next).mp hnext).1
            rcases List.prefix_cons_iff.mp hsent with rfl | ⟨behind, rfl, hbehind⟩
            · exact absurd rfl hne
            · cases behind with
              | nil =>
                  rw [accountedAfter_one]
                  exact ⟨Nat.zero_lt_of_lt hpos, hlimit, rfl⟩
              | cons first behind =>
                  rw [accountedAfter_nil_cons hlimit]
                  exact haccounts _ hbehind (by simp)

/-- A body of one byte, which arrives in one piece. -/
theorem not_accounts_whole_body : ¬ Accounts 1 {} [bytes "a"] := by
  rw [accounts_one, accountedAfter_one]
  decide

end RequestRawBodyParser

end FortyTwo.Webserv
