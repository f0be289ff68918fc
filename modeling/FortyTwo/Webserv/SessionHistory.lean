import FortyTwo.Webserv.ServerResponse

/-!
The session store seen from outside: what a lookup gives is decided by the calls
before it, although sessions that are over are erased only when somebody asks
for them.
-/

namespace FortyTwo.Webserv

/-- A call of the store. `sid` is the id that is generated for a new session. -/
inductive SessionCall where
  | create (username : Bytes) (ttlSeconds : Int) (sid : Bytes)
  | get (sid : Bytes)
  | destroy (sid : Bytes)
  deriving DecidableEq

namespace SessionCall

/-- The session that the call is about. -/
def sid : SessionCall → Bytes
  | create _ _ sid => sid
  | get sid => sid
  | destroy sid => sid

/-- The store after the call, made at the time `now`. -/
def apply (now : Int) (s : SessionStore) : SessionCall → SessionStore
  | create username ttlSeconds sid =>
      ({ s with now := now, nextId := sid }.createSession username ttlSeconds).2
  | get sid => ({ s with now := now }.getUsername sid).2
  | destroy sid => { s with now := now }.destroySession sid

end SessionCall

/-- Calls with their times. -/
abbrev SessionHistory := List (Int × SessionCall)

namespace SessionHistory

def run (h : SessionHistory) (s : SessionStore) : SessionStore :=
  h.foldl (fun s entry => entry.2.apply entry.1 s) s

/-- What `get_username` gives at the time `now`. -/
def lookUp (h : SessionHistory) (now : Int) (sid : Bytes) : Option Bytes :=
  ({ h.run {} with now := now }.getUsername sid).1

/-- The ids that have been generated. -/
def generated (h : SessionHistory) : List Bytes :=
  h.filterMap fun entry =>
    match entry.2 with
    | .create _ _ sid => some sid
    | _ => none

/-- The session is created, to be over after `expiresAt`, and not destroyed. -/
def Holds (h : SessionHistory) (sid username : Bytes) (expiresAt : Int) : Prop :=
  ∃ before after time ttl, h = before ++ (time, .create username ttl sid) :: after ∧
    expiresAt = time + ttl ∧ ∀ time', (time', SessionCall.destroy sid) ∉ after

theorem run_concat (h : SessionHistory) (time : Int) (call : SessionCall) (s : SessionStore) :
    run (h ++ [(time, call)]) s = call.apply time (h.run s) := by
  simp [run]

/-- What one more call does to a session. -/
theorem holds_concat {h : SessionHistory} {time : Int} {call : SessionCall}
    {sid username : Bytes} {expiresAt : Int} :
    Holds (h ++ [(time, call)]) sid username expiresAt ↔
      (∃ ttl, call = .create username ttl sid ∧ expiresAt = time + ttl) ∨
        (h.Holds sid username expiresAt ∧ call ≠ .destroy sid) := by
  constructor
  · rintro ⟨before, after, t, ttl, heq, hexpires, hkept⟩
    rcases List.eq_nil_or_concat after with rfl | ⟨rest, last, rfl⟩
    · obtain ⟨rfl, hlast⟩ := List.append_inj' heq rfl
      obtain ⟨rfl, rfl⟩ : time = t ∧ call = .create username ttl sid := by simpa using hlast
      exact Or.inl ⟨ttl, rfl, hexpires⟩
    · rw [List.concat_eq_append, ← List.cons_append, ← List.append_assoc] at heq
      obtain ⟨rfl, hlast⟩ := List.append_inj' heq rfl
      obtain rfl := List.singleton_inj.mp hlast
      refine Or.inr ⟨⟨before, rest, t, ttl, rfl, hexpires, fun time' hmem => ?_⟩, ?_⟩
      · exact hkept time' (by simp [hmem])
      · rintro rfl
        exact hkept time (by simp)
  · rintro (⟨ttl, rfl, hexpires⟩ | ⟨⟨before, after, t, ttl, rfl, hexpires, hkept⟩, hcall⟩)
    · exact ⟨h, [], time, ttl, rfl, hexpires, by simp⟩
    · refine ⟨before, after ++ [(time, call)], t, ttl, by simp, hexpires, fun time' hmem => ?_⟩
      rcases List.mem_append.mp hmem with hmem | hmem
      · exact hkept time' hmem
      · exact hcall (by simpa using (List.mem_singleton.mp hmem).symm : _ ∧ _).2

theorem mem_generated_of_holds {h : SessionHistory} {sid username : Bytes} {expiresAt : Int}
    (hholds : h.Holds sid username expiresAt) : sid ∈ h.generated := by
  obtain ⟨before, after, time, ttl, rfl, -, -⟩ := hholds
  simp [generated]

end SessionHistory

private theorem lookup_filter_ne (store : List (Bytes × Session)) (sid other : Bytes) :
    (store.filter fun entry => entry.1 != sid).lookup other =
      if other = sid then none else store.lookup other := by
  induction store with
  | nil => simp
  | cons entry store ih =>
      obtain ⟨id, session⟩ := entry
      by_cases hid : id = sid
      · subst hid
        rw [List.filter_cons_of_neg (by simp), ih]
        by_cases hother : other = id
        · rw [if_pos hother, if_pos hother]
        · have hbeq : (other == id) = false := by simpa using hother
          rw [if_neg hother, if_neg hother, List.lookup_cons, hbeq]
      · rw [List.filter_cons_of_pos (by simpa using hid), List.lookup_cons, List.lookup_cons, ih]
        cases hbeq : other == id with
        | true =>
            have hother : other ≠ sid := fun h => hid ((by simpa using hbeq : other = id) ▸ h)
            exact (if_neg hother).symm
        | false => rfl

/-- No call changes another session. -/
theorem SessionCall.lookup_apply_of_ne {call : SessionCall} {other : Bytes}
    (h : other ≠ call.sid) (now : Int) (s : SessionStore) :
    (call.apply now s).store.lookup other = s.store.lookup other := by
  have hbeq : (other == call.sid) = false := by simpa using h
  cases call with
  | create username ttl sid =>
      change List.lookup other ((sid, _) :: s.store.filter fun entry => entry.1 != sid) = _
      rw [List.lookup_cons, show (other == sid) = false from hbeq, lookup_filter_ne]
      exact if_neg h
  | get sid =>
      unfold SessionCall.apply SessionStore.getUsername
      dsimp only
      split
      · rfl
      · split
        · exact (lookup_filter_ne _ _ _).trans (if_neg h)
        · rfl
  | destroy sid => exact (lookup_filter_ne _ _ _).trans (if_neg h)

/-- What the store holds after the calls of `h`, the last of them made before `now`. -/
structure Tracks (h : SessionHistory) (now : Int) (s : SessionStore) : Prop where
  kept : ∀ {sid username expiresAt}, s.store.lookup sid = some ⟨username, expiresAt⟩ →
    h.Holds sid username expiresAt
  held : ∀ {sid username expiresAt}, h.Holds sid username expiresAt → now ≤ expiresAt →
    s.store.lookup sid = some ⟨username, expiresAt⟩

namespace Tracks

variable {h : SessionHistory} {now time : Int} {s : SessionStore} {call : SessionCall}

private theorem kept_self (htracks : Tracks h now s) {username : Bytes} {expiresAt : Int}
    (hlookup : (call.apply time s).store.lookup call.sid = some ⟨username, expiresAt⟩) :
    SessionHistory.Holds (h ++ [(time, call)]) call.sid username expiresAt := by
  rw [SessionHistory.holds_concat]
  cases call with
  | create username' ttl sid =>
      have hnew : (SessionCall.apply time s (.create username' ttl sid)).store.lookup sid =
          some ⟨username', time + ttl⟩ := List.lookup_cons_self
      rw [SessionCall.sid, hnew] at hlookup
      cases hlookup
      exact Or.inl ⟨ttl, rfl, rfl⟩
  | get sid =>
      refine Or.inr ⟨htracks.kept ?_, by simp⟩
      revert hlookup
      unfold SessionCall.apply SessionStore.getUsername
      dsimp only
      split
      · exact id
      · split
        · intro hlookup
          have herased := lookup_filter_ne s.store sid sid
          rw [if_pos rfl] at herased
          exact absurd (herased.symm.trans hlookup) (by simp)
        · exact id
  | destroy sid =>
      have herased := lookup_filter_ne s.store sid sid
      rw [if_pos rfl] at herased
      exact absurd (herased.symm.trans hlookup) (by simp)

private theorem held_self (htracks : Tracks h now s) (hle : now ≤ time)
    (hids : (SessionHistory.generated (h ++ [(time, call)])).Nodup) {username : Bytes}
    {expiresAt : Int} (hexpires : time ≤ expiresAt)
    (hholds : SessionHistory.Holds (h ++ [(time, call)]) call.sid username expiresAt) :
    (call.apply time s).store.lookup call.sid = some ⟨username, expiresAt⟩ := by
  rcases SessionHistory.holds_concat.mp hholds with ⟨ttl, hcall, rfl⟩ | ⟨hholds, hcall⟩
  · rw [hcall]
    exact List.lookup_cons_self
  · have hlookup := htracks.held hholds (hle.trans hexpires)
    cases call with
    | create username' ttl sid =>
        -- the id would have been generated twice
        have hmem := SessionHistory.mem_generated_of_holds hholds
        rw [SessionHistory.generated, List.filterMap_append, List.nodup_append] at hids
        exact absurd rfl (hids.2.2 _ hmem sid (by simp))
    | get sid =>
        have hlookup' : s.store.lookup sid = some ⟨username, expiresAt⟩ := hlookup
        unfold SessionCall.apply SessionStore.getUsername
        dsimp only
        rw [hlookup']
        dsimp only
        rw [if_neg (by omega)]
        exact hlookup'
    | destroy sid => exact absurd rfl hcall

theorem concat (htracks : Tracks h now s) (hle : now ≤ time)
    (hids : (SessionHistory.generated (h ++ [(time, call)])).Nodup) :
    Tracks (h ++ [(time, call)]) time (call.apply time s) where
  kept := by
    intro sid username expiresAt hlookup
    by_cases hsid : sid = call.sid
    · subst hsid
      exact htracks.kept_self hlookup
    · rw [call.lookup_apply_of_ne hsid] at hlookup
      refine SessionHistory.holds_concat.mpr (Or.inr ⟨htracks.kept hlookup, ?_⟩)
      rintro rfl
      exact hsid rfl
  held := by
    intro sid username expiresAt hholds hexpires
    by_cases hsid : sid = call.sid
    · subst hsid
      exact htracks.held_self hle hids hexpires hholds
    · rw [call.lookup_apply_of_ne hsid]
      rcases SessionHistory.holds_concat.mp hholds with ⟨ttl, rfl, -⟩ | ⟨hholds, -⟩
      · exact absurd rfl hsid
      · exact htracks.held hholds (hle.trans hexpires)

end Tracks

namespace SessionHistory

/-- The times do not decrease, up to `now`, and no id is generated twice. -/
structure Proper (h : SessionHistory) (now : Int) : Prop where
  times : (h.map Prod.fst ++ [now]).Pairwise (· ≤ ·)
  ids : h.generated.Nodup

theorem tracks_run {h : SessionHistory} {now : Int} (hproper : h.Proper now) :
    Tracks h now (h.run {}) := by
  induction h using List.reverseRecOn generalizing now with
  | nil =>
      refine ⟨fun hlookup => ?_, fun hholds _ => ?_⟩
      · cases hlookup
      · obtain ⟨before, after, time, ttl, heq, -, -⟩ := hholds
        simp at heq
  | append_singleton h entry ih =>
      obtain ⟨time, call⟩ := entry
      obtain ⟨htimes, hids⟩ := hproper
      rw [List.map_append, List.pairwise_append] at htimes
      have hle : time ≤ now := htimes.2.2 time (by simp) now (by simp)
      have hbefore : Proper h time := by
        refine ⟨htimes.1, ?_⟩
        rw [generated, List.filterMap_append, List.nodup_append] at hids
        exact hids.1
      have htracks := (ih hbefore).concat le_rfl hids
      rw [run_concat]
      exact ⟨htracks.kept, fun hholds hexpires => htracks.held hholds (hle.trans hexpires)⟩

/-- A session id gives the name that it was created for, until its time is over
or it is destroyed; the calls for one id do not matter for another. -/
theorem lookUp_iff {h : SessionHistory} {now : Int} (hproper : h.Proper now) (sid : Bytes) :
    (∀ username, h.lookUp now sid = some username ↔
      ∃ before after time ttl, h = before ++ (time, .create username ttl sid) :: after ∧
        now ≤ time + ttl ∧ ∀ time', (time', SessionCall.destroy sid) ∉ after) ∧
    ∀ time call, SessionCall.sid call ≠ sid →
      lookUp (h ++ [(time, call)]) now sid = h.lookUp now sid := by
  have htracks := tracks_run hproper
  have hlookUp : ∀ (h : SessionHistory) username, h.lookUp now sid = some username ↔
      ∃ expiresAt, (h.run {}).store.lookup sid = some ⟨username, expiresAt⟩ ∧ now ≤ expiresAt := by
    intro h username
    unfold lookUp SessionStore.getUsername
    dsimp only
    cases hfound : (h.run {}).store.lookup sid with
    | none => simp
    | some session =>
        obtain ⟨name, expiresAt⟩ := session
        by_cases hover : expiresAt < now
        · simp [hover]
        · simpa [hover] using fun _ => not_lt.mp hover
  constructor
  · intro username
    rw [hlookUp]
    constructor
    · rintro ⟨expiresAt, hfound, hle⟩
      obtain ⟨before, after, time, ttl, heq, rfl, hkept⟩ := htracks.kept hfound
      exact ⟨before, after, time, ttl, heq, hle, hkept⟩
    · rintro ⟨before, after, time, ttl, heq, hle, hkept⟩
      exact ⟨time + ttl, htracks.held ⟨before, after, time, ttl, heq, rfl, hkept⟩ hle, hle⟩
  · intro time call hne
    apply Option.ext
    intro username
    rw [hlookUp, hlookUp, run_concat, call.lookup_apply_of_ne (Ne.symm hne)]

/-- A session of one minute, asked for after half of it. -/
theorem lookUp_half_minute :
    lookUp [(0, .create (bytes "ada") 60 (bytes "x")), (10, .get (bytes "y"))] 30 (bytes "x") =
      some (bytes "ada") := by
  have hproper : Proper [(0, .create (bytes "ada") 60 (bytes "x")), (10, .get (bytes "y"))] 30 :=
    ⟨by decide, by decide⟩
  apply ((lookUp_iff hproper (bytes "x")).1 (bytes "ada")).mpr
  exact ⟨[], [(10, .get (bytes "y"))], 0, 60, rfl, by decide, by simp⟩

end SessionHistory

end FortyTwo.Webserv
