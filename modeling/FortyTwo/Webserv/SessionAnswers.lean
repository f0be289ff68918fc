import FortyTwo.Webserv.Serving

/-!
Who the server takes a request for. Whatever else it has answered in between, the
path `/session` names a user exactly when he has logged in, with this id, in the
last hour, and has not logged out.
-/

namespace FortyTwo.Webserv

open Foundation ServerResponse

namespace Exchange

variable {e : Exchange} {sid username : Bytes}

def isAccepted (e : Exchange) : Bool := ServerResponse.isAccepted e.config (e.start {})

def LogsIn (e : Exchange) (username sid : Bytes) : Prop :=
  e.isAccepted = true ∧ e.request.uriPath = bytes "/login" ∧
    (e.start {}).credentials = some username ∧ e.newId = sid

def LogsOut (e : Exchange) (sid : Bytes) : Prop :=
  e.isAccepted = true ∧ e.request.uriPath = bytes "/logout" ∧ e.request.sessionId = sid

/-- The exchange as a call of the store; it does not depend on the sessions. -/
def call (e : Exchange) : Option SessionCall := sessionCall e.config (e.start {})

theorem call_eq_create {ttl : Int} :
    e.call = some (.create username ttl sid) ↔ e.LogsIn username sid ∧ ttl = 3600 := by
  unfold LogsIn
  by_cases haccepted : e.isAccepted = true
  · by_cases hlogin : e.request.uriPath = bytes "/login"
    · have hcall : e.call =
          (e.start {}).credentials.map fun username => .create username 3600 e.newId :=
        sessionCall_login haccepted hlogin
      rw [hcall, Option.map_eq_some_iff]
      constructor
      · rintro ⟨name, hname, heq⟩
        obtain ⟨rfl, rfl, rfl⟩ : name = username ∧ 3600 = ttl ∧ e.newId = sid := by
          simpa using heq
        exact ⟨⟨haccepted, hlogin, hname, rfl⟩, rfl⟩
      · rintro ⟨⟨-, -, hname, rfl⟩, rfl⟩
        exact ⟨username, hname, rfl⟩
    · refine iff_of_false (fun hcall => ?_) fun h => hlogin h.1.2.1
      unfold call sessionCall at hcall
      split at hcall
      · cases hcall
      split at hcall
      · next h => exact hlogin h
      split at hcall
      · cases hcall
      split at hcall
      · cases hcall
      · cases hcall
  · refine iff_of_false (fun hcall => ?_) fun h => haccepted h.1.1
    rw [call, sessionCall, if_pos (by simpa [isAccepted] using haccepted)] at hcall
    cases hcall

theorem call_eq_destroy (hsid : sid ≠ []) : e.call = some (.destroy sid) ↔ e.LogsOut sid := by
  unfold LogsOut
  by_cases haccepted : e.isAccepted = true
  · by_cases hlogout : e.request.uriPath = bytes "/logout"
    · have hcall : e.call = if e.request.sessionId = [] then none
          else some (.destroy e.request.sessionId) := sessionCall_logout haccepted hlogout
      rw [hcall]
      by_cases hid : e.request.sessionId = []
      · rw [if_pos hid]
        exact iff_of_false (by simp) fun h => hsid (h.2.2.symm.trans hid)
      · rw [if_neg hid]
        simp [haccepted, hlogout]
    · refine iff_of_false (fun hcall => ?_) fun h => hlogout h.2.1
      unfold call sessionCall at hcall
      split at hcall
      · cases hcall
      split at hcall
      · obtain ⟨name, -, heq⟩ := Option.map_eq_some_iff.mp hcall
        cases heq
      split at hcall
      · cases hcall
      split at hcall
      · next h => exact hlogout h.1
      · cases hcall
  · refine iff_of_false (fun hcall => ?_) fun h => haccepted h.1
    rw [call, sessionCall, if_pos (by simpa [isAccepted] using haccepted)] at hcall
    cases hcall

/-- The answers of a server one after the other. A throw is not caught, and ends it. -/
def serve (sessions : SessionStore) : List Exchange → Except Fault SessionStore
  | [] => .ok sessions
  | e :: rest => do
      let r ← e.respond sessions
      serve r.sessionStore rest

/-- The calls that a run comes to. -/
def calls (exchanges : List Exchange) : SessionHistory :=
  exchanges.filterMap fun e => e.call.map fun call => (e.time, call)

end Exchange

open Exchange

private theorem apply_congr {s s' : SessionStore} (h : s.store = s'.store) (now : Int)
    (call : SessionCall) : (call.apply now s).store = (call.apply now s').store := by
  cases call with
  | create username ttl sid => simp [SessionCall.apply, SessionStore.createSession, h]
  | destroy sid => simp [SessionCall.apply, SessionStore.destroySession, h]
  | get sid =>
      simp only [SessionCall.apply, SessionStore.getUsername, SessionStore.destroySession, h]
      split
      · rfl
      · split
        · rfl
        · rfl

/-- A response comes to at most one call. -/
theorem respond_sessions {e : Exchange} {sessions : SessionStore} {r : ServerResponse}
    (h : e.respond sessions = .ok r) :
    r.sessionStore.store = ((calls [e]).run sessions).store := by
  have heffect := (generateResponse_effect h).2
  have hcall : sessionCall e.config (e.start sessions) = e.call := rfl
  rw [heffect, sessionsOf, hcall, calls]
  cases hnone : e.call with
  | none => simp [hnone, SessionHistory.run, start, ServerResponse.create]
  | some call =>
      simp only [List.filterMap_cons, hnone, Option.map_some, List.filterMap_nil, Option.elim_some,
        SessionHistory.run, List.foldl_cons, List.foldl_nil]
      have hstart : (e.start sessions).sessionStore.store = sessions.store := rfl
      exact apply_congr hstart e.time call

private theorem run_congr (h : SessionHistory) {s s' : SessionStore} (hstore : s.store = s'.store) :
    (h.run s).store = (h.run s').store := by
  induction h generalizing s s' with
  | nil => exact hstore
  | cons entry h ih => exact ih (apply_congr hstore entry.1 entry.2)

theorem calls_cons (e : Exchange) (rest : List Exchange) : calls (e :: rest) = calls [e] ++ calls rest := by
  rw [← List.singleton_append, calls, List.filterMap_append]
  rfl

theorem serve_sessions {exchanges : List Exchange} {sessions after : SessionStore}
    (h : serve sessions exchanges = .ok after) :
    after.store = ((calls exchanges).run sessions).store := by
  induction exchanges generalizing sessions with
  | nil =>
      cases h
      rfl
  | cons e rest ih =>
      obtain ⟨r, hr, hrest⟩ := except_bind_eq_ok.mp h
      rw [ih hrest, calls_cons, SessionHistory.run, SessionHistory.run, List.foldl_append]
      exact run_congr _ (respond_sessions hr)

/-- The clock does not go back, and no two logins get the same id. -/
structure InOrder (exchanges : List Exchange) : Prop where
  times : (exchanges.map Exchange.time).Pairwise (· ≤ ·)
  ids : (calls exchanges).generated.Nodup

theorem proper_of_inOrder {before : List Exchange} {e : Exchange} (h : InOrder (before ++ [e])) :
    (calls before).Proper e.time := by
  have hsublist : ((calls before).map Prod.fst).Sublist (before.map Exchange.time) := by
    clear h
    induction before with
    | nil => exact List.Sublist.refl _
    | cons first rest ih =>
        rw [calls_cons, List.map_append, List.map_cons]
        cases hcall : first.call with
        | none => simpa [calls, hcall] using ih.cons first.time
        | some call => simpa [calls, hcall] using ih.cons_cons first.time
  constructor
  · have htimes := h.times
    rw [List.map_append] at htimes
    exact htimes.sublist (hsublist.append_right [e.time])
  · have hids := h.ids
    rw [calls, List.filterMap_append, SessionHistory.generated, List.filterMap_append] at hids
    exact hids.of_append_left

/-- A session that is held was made by a login, and ended by no logout since. -/
theorem holds_iff {before : List Exchange} {sid username : Bytes} {expiresAt : Int}
    (hsid : sid ≠ []) :
    (calls before).Holds sid username expiresAt ↔
      ∃ earlier login since, before = earlier ++ login :: since ∧ login.LogsIn username sid ∧
        expiresAt = login.time + 3600 ∧ ∀ later ∈ since, ¬ later.LogsOut sid := by
  constructor
  · rintro ⟨first, last, time, ttl, heq, rfl, hkept⟩
    obtain ⟨earlier, more, rfl, -, hmore⟩ := List.filterMap_eq_append_iff.mp heq
    obtain ⟨between, login, since, rfl, hbetween, hlogin, hsince⟩ :=
      List.filterMap_eq_cons_iff.mp hmore
    obtain ⟨call, hcall, hentry⟩ := Option.map_eq_some_iff.mp hlogin
    obtain ⟨rfl, rfl⟩ : login.time = time ∧ call = .create username ttl sid := by
      simpa using hentry
    obtain ⟨hlogs, rfl⟩ := call_eq_create.mp hcall
    refine ⟨earlier ++ between, login, since, by simp, hlogs, rfl, fun later hlater hout => ?_⟩
    refine hkept later.time (hsince ▸ List.mem_filterMap.mpr ⟨later, hlater, ?_⟩)
    rw [(call_eq_destroy hsid).mpr hout]
    rfl
  · rintro ⟨earlier, login, since, rfl, hlogs, rfl, hkept⟩
    have hcall := call_eq_create.mpr ⟨hlogs, rfl⟩
    refine ⟨calls earlier, calls since, login.time, 3600, ?_, rfl, fun time' hmem => ?_⟩
    · simp [calls, hcall]
    · obtain ⟨later, hlater, hentry⟩ := List.mem_filterMap.mp hmem
      obtain ⟨call, hcall, heq⟩ := Option.map_eq_some_iff.mp hentry
      obtain ⟨-, rfl⟩ : later.time = time' ∧ call = .destroy sid := by simpa using heq
      exact hkept later hlater ((call_eq_destroy hsid).mp hcall)

theorem userMessage_inj {message username other : Bytes}
    (h : userMessage message username = userMessage message other) : username = other :=
  List.append_cancel_left (List.append_cancel_right h)

/-- The answer to `/session`, by what the store has under the id. -/
theorem respond_session {e : Exchange} {sessions : SessionStore} {r : ServerResponse}
    (hr : e.respond sessions = .ok r) (haccepted : e.isAccepted = true)
    (hpath : e.request.uriPath = bytes "/session") (hid : e.request.sessionId ≠ []) :
    (r.status = .ok ∨ r.status = .unauthorized) ∧ ∀ username,
      (r.status = .ok ∧ r.body = userMessage (bytes "OK") username) ↔
        ∃ expiresAt, sessions.store.lookup e.request.sessionId = some ⟨username, expiresAt⟩ ∧
          e.time ≤ expiresAt := by
  have hline : (e.start sessions).handleAuthSession.constructResponseLine e.config = .ok r :=
    (generateResponse_session (r := e.start sessions) haccepted hpath).symm.trans hr
  obtain ⟨-, hstatus, hbody⟩ := constructResponseLine_untouched hline
  rw [hstatus, hbody, handleAuthSession]
  have hid' : (e.start sessions).request.sessionId ≠ [] := hid
  rw [if_neg hid']
  unfold SessionStore.getUsername
  have hlookup : (e.start sessions).sessionStore.store.lookup (e.start sessions).request.sessionId =
      sessions.store.lookup e.request.sessionId := rfl
  have hne : Status.unauthorized ≠ Status.ok := by decide
  have hnow : (e.start sessions).sessionStore.now = e.time := rfl
  rw [hlookup, hnow]
  cases sessions.store.lookup e.request.sessionId with
  | none =>
      refine ⟨Or.inr rfl, fun username => iff_of_false (fun h => hne h.1) (by simp)⟩
  | some session =>
      obtain ⟨name, expiresAt⟩ := session
      by_cases hover : expiresAt < e.time
      · simp only [if_pos hover]
        refine ⟨Or.inr trivial, fun username => iff_of_false (fun h => hne h.1) ?_⟩
        rintro ⟨later, hsome, hle⟩
        obtain ⟨-, rfl⟩ : name = username ∧ expiresAt = later := by simpa using hsome
        omega
      · simp only [if_neg hover]
        refine ⟨Or.inl rfl, fun username => ?_⟩
        constructor
        · rintro ⟨-, hbody⟩
          obtain rfl := userMessage_inj hbody
          exact ⟨expiresAt, rfl, not_lt.mp hover⟩
        · rintro ⟨later, hsome, -⟩
          obtain ⟨rfl, -⟩ : name = username ∧ expiresAt = later := by simpa using hsome
          exact ⟨rfl, rfl⟩

/-- Whatever the server has answered before, `/session` names a user exactly when he
has logged in with this id in the last hour, and not logged out since. -/
theorem session_answered {before : List Exchange} {e : Exchange} {sessions : SessionStore}
    {r : ServerResponse} (hbefore : serve {} before = .ok sessions)
    (horder : InOrder (before ++ [e])) (hr : e.respond sessions = .ok r)
    (haccepted : e.isAccepted = true) (hpath : e.request.uriPath = bytes "/session")
    (hid : e.request.sessionId ≠ []) :
    (r.status = .ok ∨ r.status = .unauthorized) ∧ ∀ username,
      (r.status = .ok ∧ r.body = userMessage (bytes "OK") username) ↔
        ∃ earlier login since, before = earlier ++ login :: since ∧
          login.LogsIn username e.request.sessionId ∧ e.time ≤ login.time + 3600 ∧
          ∀ later ∈ since, ¬ later.LogsOut e.request.sessionId := by
  have hanswer := respond_session hr haccepted hpath hid
  have htracks := SessionHistory.tracks_run (proper_of_inOrder horder)
  refine ⟨hanswer.1, fun username => (hanswer.2 username).trans ?_⟩
  rw [serve_sessions hbefore]
  constructor
  · rintro ⟨expiresAt, hlookup, hle⟩
    obtain ⟨earlier, login, since, heq, hlogs, rfl, hkept⟩ :=
      (holds_iff hid).mp (htracks.kept hlookup)
    exact ⟨earlier, login, since, heq, hlogs, hle, hkept⟩
  · rintro ⟨earlier, login, since, heq, hlogs, hle, hkept⟩
    exact ⟨login.time + 3600,
      htracks.held ((holds_iff hid).mpr ⟨earlier, login, since, heq, hlogs, rfl, hkept⟩) hle, hle⟩

private def visit (path : String) (queries : List String) (sessionId : String) (time : Int)
    (newId : String) : Exchange where
  config := plainServer
  status := .ok
  request := {
    method := bytes "GET"
    uriPath := bytes path
    pathQueries := queries.map bytes
    sessionId := bytes sessionId }
  time := time
  newId := bytes newId
  fileSystem := {
    node := fun path => if path = usersFile then some (.file (bytes "ada:1815\n")) else none
    readable := fun _ => true
    appendable := fun _ => false
    removable := fun _ => false }
  autoIndex := false

private def adaLogsIn : Exchange := visit "/login" ["username=ada", "password=1815"] "" 100 "k7"

private def bobIsLost : Exchange := visit "/session" [] "k9" 160 "k8"

private def adaIsAsked : Exchange := visit "/session" [] "k7" 200 "k8"

/-- Ada is known a minute and a half after her login, in spite of another request. -/
theorem session_answered_ada : ∃ sessions r,
    serve {} [adaLogsIn, bobIsLost] = .ok sessions ∧ adaIsAsked.respond sessions = .ok r ∧
      r.status = .ok ∧ r.body = userMessage (bytes "OK") (bytes "ada") := by
  obtain ⟨sessions, hbefore⟩ : ∃ sessions, serve {} [adaLogsIn, bobIsLost] = .ok sessions :=
    ⟨_, rfl⟩
  obtain ⟨r, hr⟩ : ∃ r, adaIsAsked.respond sessions = .ok r := ⟨_, rfl⟩
  have horder : InOrder ([adaLogsIn, bobIsLost] ++ [adaIsAsked]) := ⟨by decide, by decide⟩
  have hanswered := session_answered hbefore horder hr (by decide) rfl (by decide)
  refine ⟨sessions, r, hbefore, hr, (hanswered.2 (bytes "ada")).mpr ?_⟩
  refine ⟨[], adaLogsIn, [bobIsLost], rfl, ⟨by decide, rfl, by decide, rfl⟩, by decide, ?_⟩
  intro later hlater hout
  obtain rfl := List.mem_singleton.mp hlater
  exact absurd hout.2.1 (by decide)

end FortyTwo.Webserv
