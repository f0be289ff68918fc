import FortyTwo.Webserv.EventLoopFrames

/-!
How long a client lives that a script runs for. The handler of the script refers to the client,
and nothing keeps the client while the script's event is registered.
-/

namespace FortyTwo.Webserv.EventLoop

open Foundation

/-- Where the handler of a script runs, at an event of its own or asked by a client, the client
that it refers to is not destroyed. -/
structure RunsSafely (s : State) : Prop where
  event : ∀ delivery rest cgi, s.pending = delivery :: rest → delivery.error = false →
    IsRunning s delivery.context cgi → cgi.client ∉ s.destroyed
  asked : ∀ delivery rest c script cgi, s.pending = delivery :: rest →
    s.contexts[delivery.context]? = some (.client c) → c.cgiEventContext = some script →
    s.contexts[script]? = some (.cgi cgi) → cgi.client ∉ s.destroyed

/-- No event context that `wait_event` drops is that of a client whose script runs. -/
def KeepsClients (s : State) (action : Action) : Prop :=
  ∀ deliveries, action = .wait deliveries →
    ∀ id cgi, IsRunning s id cgi → cgi.client ∉ s.closedEventsContexts

/-- What holds while events are handled, and between two waits. -/
structure Sound (s : State) : Prop where
  destroyed : ∀ id ∈ s.destroyed, id < s.contexts.length
  keys : DistinctKeys Prod.fst s.eventsContexts
  fds : ∀ it ∈ s.eventsContexts, ∃ context, s.contexts[it.2]? = some context ∧ context.fd = it.1
  closed : ∀ id ∈ s.closedEventsContexts, id < s.contexts.length ∧ ¬ Registered s id
  alive : ∀ id, Registered s id ∨ id ∈ s.closedEventsContexts → id ∉ s.destroyed
  pending : ∀ delivery ∈ s.pending,
    Registered s delivery.context ∨ delivery.context ∈ s.closedEventsContexts
  scripts : ∀ (id : Nat) c script, s.contexts[id]? = some (.client c) →
    c.cgiEventContext = some script →
      ∃ cgi, s.contexts[script]? = some (.cgi cgi) ∧ cgi.client = id
  clients : ∀ (id : Nat) cgi, s.contexts[id]? = some (.cgi cgi) →
    ∃ c, s.contexts[cgi.client]? = some (.client c)
  safe : ∀ id cgi, IsRunning s id cgi → cgi.client ∉ s.destroyed

namespace Sound

variable {s s' : State}

theorem lt_of_registered (h : Sound s) {id : Nat} (hid : Registered s id) :
    id < s.contexts.length := by
  obtain ⟨it, hit, rfl⟩ := hid
  obtain ⟨context, hcontext, -⟩ := h.fds it hit
  exact (List.getElem?_eq_some_iff.mp hcontext).1

/-- Only the event contexts change. -/
theorem of_follows (h : Sound s) (hfollows : Follows s s')
    (hclosed : s'.closedEventsContexts = s.closedEventsContexts)
    (hdestroyed : s'.destroyed = s.destroyed)
    (hscripts : ∀ (id : Nat) c' script, s'.contexts[id]? = some (.client c') →
      c'.cgiEventContext = some script →
        ∃ cgi, s.contexts[script]? = some (.cgi cgi) ∧ cgi.client = id) :
    Sound s' where
  destroyed := by
    rw [hdestroyed, hfollows.length]
    exact h.destroyed
  keys := by
    rw [hfollows.events]
    exact h.keys
  fds := by
    intro it hit
    rw [hfollows.events] at hit
    obtain ⟨context, hcontext, hfd⟩ := h.fds it hit
    obtain ⟨context', hcontext', hsame⟩ := hfollows.later hcontext
    exact ⟨context', hcontext', hsame.fd_eq.trans hfd⟩
  closed := by
    unfold Registered
    rw [hclosed, hfollows.length, hfollows.events]
    exact h.closed
  alive := by
    unfold Registered
    rw [hfollows.events, hclosed, hdestroyed]
    exact h.alive
  pending := by
    unfold Registered
    rw [hfollows.pending, hfollows.events, hclosed]
    exact h.pending
  scripts := by
    intro id c' script hc' hscript
    exact hfollows.cgi_later (hscripts id c' script hc' hscript)
  clients := by
    intro id cgi' hcgi'
    obtain ⟨cgi, hcgi, hclient, -⟩ := hfollows.cgi_before hcgi'
    obtain ⟨c, hc⟩ := h.clients id cgi hcgi
    rw [hclient]
    exact hfollows.client_later hc
  safe := by
    intro id cgi' hrunning
    obtain ⟨cgi, hcgi, hclient⟩ := hfollows.isRunning hrunning
    rw [hclient, hdestroyed]
    exact h.safe id cgi hcgi

theorem modify (h : Sound s) {id : Nat} {f : EventContext → EventContext}
    (hsame : ∀ context, s.contexts[id]? = some context → Same context (f context))
    (hscripts : ∀ context c' script, s.contexts[id]? = some context → f context = .client c' →
      c'.cgiEventContext = some script →
        ∃ cgi, s.contexts[script]? = some (.cgi cgi) ∧ cgi.client = id) :
    Sound (s.modify id f) := by
  apply h.of_follows (follows_modify hsame) rfl rfl
  intro i c' script hc' hscript
  rw [State.modify, List.getElem?_modify] at hc'
  obtain ⟨context, hcontext, hf⟩ := Option.map_eq_some_iff.mp hc'
  split at hf
  · next heq =>
      subst heq
      exact hscripts context c' script hcontext hf hscript
  · exact h.scripts i c' script (hf ▸ hcontext) hscript

theorem setIsClosing (h : Sound s) (id : Nat) : Sound (s.modify id .setIsClosing) := by
  apply h.modify (fun context _ => same_setIsClosing context)
  intro context c' script hcontext hc' hscript
  cases context with
  | server fd => cases hc'
  | cgi cgi => cases hc'
  | client c =>
      cases hc'
      exact h.scripts id c script hcontext hscript

theorem modifyClient (h : Sound s) {id : Nat} {f : Client → Client}
    (hfd : ∀ c, s.contexts[id]? = some (.client c) → (f c).fd = c.fd)
    (hscripts : ∀ c script, s.contexts[id]? = some (.client c) →
      (f c).cgiEventContext = some script →
        ∃ cgi, s.contexts[script]? = some (.cgi cgi) ∧ cgi.client = id) :
    Sound (s.modify id (.modifyClient f)) := by
  apply h.modify
  · intro context hcontext
    cases context with
    | server fd => exact .server fd
    | cgi cgi => exact Same.refl _
    | client c => exact .client (hfd c hcontext)
  · intro context c' script hcontext hc' hscript
    cases context with
    | server fd => cases hc'
    | cgi cgi => cases hc'
    | client c =>
        cases hc'
        exact hscripts c script hcontext hscript

theorem modifyCgi (h : Sound s) (id : Nat) {f : Cgi → Cgi}
    (hf : ∀ c, Same (.cgi c) (.cgi (f c))) : Sound (s.modify id (.modifyCgi f)) := by
  apply h.modify
  · intro context _
    cases context with
    | server fd => exact .server fd
    | cgi cgi => exact hf cgi
    | client c => exact Same.refl _
  · intro context c' script hcontext hc' hscript
    cases context with
    | server fd => cases hc'
    | cgi cgi => cases hc'
    | client c =>
        cases hc'
        exact h.scripts id c' script hcontext hscript

/-- Nothing that runs refers to an event context that is destroyed now. -/
theorem destroy (h : Sound s) {id : Nat} (hlt : id < s.contexts.length)
    (hheld : s.isHeld id = false) (hsafe : ∀ i cgi, IsRunning s i cgi → cgi.client ≠ id) :
    Sound { s with destroyed := s.destroyed ++ [id] } := by
  obtain ⟨hregistered, hclosed, -⟩ := isHeld_eq_false_iff.mp hheld
  refine { h with destroyed := ?_, alive := ?_, safe := ?_ }
  · intro i hi
    rcases List.mem_append.mp hi with hold | hnew
    · exact h.destroyed i hold
    · rw [List.mem_singleton.mp hnew]
      exact hlt
  · intro i hi hmem
    rcases List.mem_append.mp hmem with hold | hnew
    · exact h.alive i hi hold
    · rw [List.mem_singleton.mp hnew] at hi
      exact hi.elim hregistered hclosed
  · intro i cgi hrunning hmem
    have hrunning' : IsRunning s i cgi := ⟨hrunning.context, hrunning.registered, hrunning.notClosing⟩
    rcases List.mem_append.mp hmem with hold | hnew
    · exact h.safe i cgi hrunning' hold
    · exact hsafe i cgi hrunning' (List.mem_singleton.mp hnew)

theorem releaseCgi (h : Sound s) {id client : Nat}
    (hcgi : ∃ cgi, s.contexts[id]? = some (.cgi cgi) ∧ cgi.client = client) :
    Sound (s.releaseCgi id) := by
  unfold State.releaseCgi
  split
  · exact h
  · next hheld =>
      obtain ⟨cgi, hcgi, -⟩ := hcgi
      apply h.destroy (List.getElem?_eq_some_iff.mp hcgi).1 (Bool.not_eq_true _ ▸ hheld)
      rintro i running hrunning rfl
      -- a script's event context is not a client's
      obtain ⟨c, hc⟩ := h.clients i running hrunning.context
      rw [hcgi] at hc
      cases hc

theorem unlinkCgi (h : Sound s) (id : Nat) : Sound (s.unlinkCgi id) := by
  rcases unlinkCgi_cases s id with heq | ⟨c, script, hc, hscript, heq⟩
  · rw [heq]
    exact h
  · rw [heq]
    have hcgi := h.scripts id c script hc hscript
    have hunlinked : Sound (s.modify id (.modifyClient .unlink)) :=
      h.modifyClient (fun c _ => c.fd_unlink) (fun _ _ _ hnone => nomatch hnone)
    exact hunlinked.releaseCgi ((follows_modifyClient s id Client.fd_unlink).cgi_later hcgi)

/-- A handle to what no running script refers to. -/
theorem release (h : Sound s) {id : Nat} (hlt : id < s.contexts.length)
    (hsafe : ∀ i cgi, IsRunning s i cgi → cgi.client ≠ id) : Sound (s.release id) := by
  unfold State.release
  split
  · exact h
  · next hheld =>
      have hfollows := follows_unlinkCgi s id
      apply (h.unlinkCgi id).destroy
      · rw [hfollows.length]
        exact hlt
      · exact isHeld_unlinkCgi (Bool.not_eq_true _ ▸ hheld)
      · intro i cgi' hrunning
        obtain ⟨cgi, hcgi, hclient⟩ := hfollows.isRunning hrunning
        rw [hclient]
        exact hsafe i cgi hcgi

theorem reset (h : Sound s) (id : Nat) : Sound (s.reset id) :=
  (h.unlinkCgi id).modifyClient (fun c _ => c.fd_reset) (fun _ _ _ hnone => nomatch hnone)

/-- A new event context, which nothing refers to yet. -/
theorem make (h : Sound s) {context : EventContext}
    (hclient : ∀ c, context = .client c → c.cgiEventContext = none)
    (hcgi : ∀ cgi, context = .cgi cgi → ∃ c, s.contexts[cgi.client]? = some (.client c)) :
    Sound (s.make context) := by
  have hold : ∀ {id : Nat} {old : EventContext}, s.contexts[id]? = some old →
      (s.make context).contexts[id]? = some old := by
    intro id old hid
    have hlt := (List.getElem?_eq_some_iff.mp hid).1
    exact (List.getElem?_append_left hlt).trans hid
  have hlength : (s.make context).contexts.length = s.contexts.length + 1 :=
    List.length_append
  have hcases : ∀ {id : Nat} {new : EventContext}, (s.make context).contexts[id]? = some new →
      s.contexts[id]? = some new ∨ context = new := by
    intro id new hid
    rw [State.make, List.getElem?_append] at hid
    split at hid
    · exact Or.inl hid
    · exact Or.inr (List.mem_singleton.mp (List.mem_of_getElem? hid)).symm
  refine ⟨?_, h.keys, ?_, ?_, h.alive, h.pending, ?_, ?_, ?_⟩
  · intro id hid
    rw [hlength]
    exact Nat.lt_succ_of_lt (h.destroyed id hid)
  · intro it hit
    obtain ⟨old, hcontext, hfd⟩ := h.fds it hit
    exact ⟨old, hold hcontext, hfd⟩
  · intro id hid
    rw [hlength]
    exact ⟨Nat.lt_succ_of_lt (h.closed id hid).1, (h.closed id hid).2⟩
  · intro id c script hc hscript
    rcases hcases hc with hc | rfl
    · obtain ⟨cgi, hcgi, hid⟩ := h.scripts id c script hc hscript
      exact ⟨cgi, hold hcgi, hid⟩
    · rw [hclient c rfl] at hscript
      cases hscript
  · intro id cgi hid
    rcases hcases hid with hid | rfl
    · obtain ⟨c, hc⟩ := h.clients id cgi hid
      exact ⟨c, hold hc⟩
    · obtain ⟨c, hc⟩ := hcgi cgi rfl
      exact ⟨c, hold hc⟩
  · intro id cgi hrunning
    obtain ⟨old, hid⟩ : ∃ old, s.contexts[id]? = some old :=
      ⟨_, List.getElem?_eq_getElem (h.lt_of_registered hrunning.registered)⟩
    have hcontext := (hold hid).symm.trans hrunning.context
    exact h.safe id cgi ⟨hid.trans hcontext, hrunning.registered, hrunning.notClosing⟩

/-- What is registered is neither closed nor destroyed, and a script's client lives. -/
theorem registerEvent (h : Sound s) {fd id : Nat} {context : EventContext}
    (hcontext : s.contexts[id]? = some context) (hfd : context.fd = fd)
    (hclosed : id ∉ s.closedEventsContexts) (hdestroyed : id ∉ s.destroyed)
    (hclient : ∀ cgi, context = .cgi cgi → cgi.client ∉ s.destroyed)
    (hs' : s.registerEvent fd id = some s') : Sound s' := by
  unfold State.registerEvent at hs'
  split at hs'
  · cases hs'
  split at hs'
  · cases hs'
    exact h
  · next hfresh =>
      cases hs'
      have hregistered : ∀ {i : Nat},
          Registered { s with eventsContexts := s.eventsContexts ++ [(fd, id)] } i →
            Registered s i ∨ i = id := by
        rintro i ⟨it, hit, rfl⟩
        rcases List.mem_append.mp hit with hold | hnew
        · exact Or.inl ⟨it, hold, rfl⟩
        · rw [List.mem_singleton.mp hnew]
          exact Or.inr rfl
      refine { h with keys := ?_, fds := ?_, closed := ?_, alive := ?_, pending := ?_, safe := ?_ }
      · exact distinctKeys_append_iff.mpr ⟨h.keys, Option.not_isSome_iff_eq_none.mp hfresh⟩
      · intro it hit
        rcases List.mem_append.mp hit with hold | hnew
        · exact h.fds it hold
        · rw [List.mem_singleton.mp hnew]
          exact ⟨context, hcontext, hfd⟩
      · intro i hi
        refine ⟨(h.closed i hi).1, ?_⟩
        intro hnow
        rcases hregistered hnow with hold | rfl
        · exact (h.closed i hi).2 hold
        · exact hclosed hi
      · intro i hi
        rcases hi with hnow | hi
        · rcases hregistered hnow with hold | rfl
          · exact h.alive i (Or.inl hold)
          · exact hdestroyed
        · exact h.alive i (Or.inr hi)
      · intro delivery hdelivery
        rcases h.pending delivery hdelivery with ⟨it, hit, hid⟩ | hclosed
        · exact Or.inl ⟨it, List.mem_append_left _ hit, hid⟩
        · exact Or.inr hclosed
      · intro i cgi hrunning
        rcases hregistered hrunning.registered with hold | rfl
        · exact h.safe i cgi ⟨hrunning.context, hold, hrunning.notClosing⟩
        · exact hclient cgi (Option.some.inj (hcontext.symm.trans hrunning.context))

theorem unregisterEvent (h : Sound s) (fd : Nat) : Sound (s.unregisterEvent fd) := by
  unfold State.unregisterEvent
  cases hentry : entry Prod.fst fd s.eventsContexts with
  | none => exact h
  | some it =>
      obtain ⟨hit, hfd⟩ := (entry_eq_some_iff h.keys).mp hentry
      have hregistered : ∀ {i : Nat}, Registered
          { s with
            closedEventsContexts := s.closedEventsContexts ++ [it.2]
            eventsContexts := s.eventsContexts.filter (·.1 != fd) } i → Registered s i := by
        rintro i ⟨other, hother, rfl⟩
        exact ⟨other, List.mem_of_mem_filter hother, rfl⟩
      refine { h with keys := ?_, fds := ?_, closed := ?_, alive := ?_, pending := ?_, safe := ?_ }
      · exact (List.filter_sublist.map Prod.fst).nodup h.keys
      · intro other hother
        exact h.fds other (List.mem_of_mem_filter hother)
      · intro i hi
        rcases List.mem_append.mp hi with hold | hnew
        · exact ⟨(h.closed i hold).1, fun hnow => (h.closed i hold).2 (hregistered hnow)⟩
        · rw [List.mem_singleton.mp hnew]
          refine ⟨h.lt_of_registered ⟨it, hit, rfl⟩, ?_⟩
          -- an event context has one descriptor, and that is not registered any more
          rintro ⟨other, hother, hsame⟩
          obtain ⟨context, hcontext, hcontextFd⟩ := h.fds it hit
          obtain ⟨hmem, hne⟩ := List.mem_filter.mp hother
          obtain ⟨context', hcontext', hotherFd⟩ := h.fds other hmem
          rw [hsame, hcontext] at hcontext'
          cases hcontext'
          exact absurd (hotherFd.symm.trans (hcontextFd.trans hfd)) (bne_iff_ne.mp hne)
      · intro i hi
        rcases hi with hnow | hi
        · exact h.alive i (Or.inl (hregistered hnow))
        · rcases List.mem_append.mp hi with hold | hnew
          · exact h.alive i (Or.inr hold)
          · rw [List.mem_singleton.mp hnew]
            exact h.alive it.2 (Or.inl ⟨it, hit, rfl⟩)
      · intro delivery hdelivery
        rcases h.pending delivery hdelivery with ⟨other, hother, hid⟩ | hclosed
        · by_cases hsame : other.1 = fd
          · have heq := (entry_eq_some_iff h.keys).mpr ⟨hother, hsame⟩
            rw [hentry] at heq
            cases heq
            exact Or.inr (List.mem_append_right _ (List.mem_singleton.mpr hid.symm))
          · exact Or.inl ⟨other, List.mem_filter.mpr ⟨hother, bne_iff_ne.mpr hsame⟩, hid⟩
        · exact Or.inr (List.mem_append_left _ hclosed)
      · intro i cgi hrunning
        exact h.safe i cgi ⟨hrunning.context, hregistered hrunning.registered, hrunning.notClosing⟩

/-- The closed event contexts go, one after the other, if no running script refers to any. -/
theorem clearClosed (h : Sound s) (hpending : s.pending = []) {ids : List Nat}
    (hids : s.closedEventsContexts = ids)
    (hsafe : ∀ i cgi, IsRunning s i cgi → cgi.client ∉ ids) : Sound (State.clearClosed ids s) := by
  induction ids generalizing s with
  | nil =>
      have heq : State.clearClosed [] s = s := by
        rw [State.clearClosed, ← hids]
      rw [heq]
      exact h
  | cons id rest ih =>
      have hclosed := h.closed
      have halive := h.alive
      rw [hids] at hclosed halive
      have hrest : Sound { s with closedEventsContexts := rest } := by
        refine { h with closed := ?_, alive := ?_, pending := ?_, safe := ?_ }
        · exact fun i hi => hclosed i (List.mem_cons_of_mem _ hi)
        · intro i hi
          exact halive i (hi.imp_right (List.mem_cons_of_mem _))
        · rw [hpending]
          nofun
        · intro i cgi hrunning
          exact h.safe i cgi ⟨hrunning.context, hrunning.registered, hrunning.notClosing⟩
      have hfollows := (follows_closed s rest).trans (follows_release _ id)
      rw [State.clearClosed]
      apply ih
      · apply hrest.release (hclosed id List.mem_cons_self).1
        intro i cgi hrunning heq
        apply hsafe i cgi ⟨hrunning.context, hrunning.registered, hrunning.notClosing⟩
        rw [heq]
        exact List.mem_cons_self
      · rw [hfollows.pending]
        exact hpending
      · exact closed_release _ id
      · intro i cgi' hrunning hmem
        obtain ⟨cgi, hcgi, hclient⟩ := hfollows.isRunning hrunning
        apply hsafe i cgi hcgi
        rw [← hclient]
        exact List.mem_cons_of_mem _ hmem

theorem waitEvent (h : Sound s) (hpending : s.pending = [])
    (hsafe : ∀ i cgi, IsRunning s i cgi → cgi.client ∉ s.closedEventsContexts)
    {deliveries : List Delivery}
    (hdeliveries : ∀ delivery ∈ deliveries, Registered s delivery.context) :
    Sound (s.waitEvent deliveries) := by
  have hcleared := h.clearClosed hpending rfl hsafe
  refine { hcleared with pending := ?_, safe := ?_ }
  · intro delivery hdelivery
    apply Or.inl
    rw [State.waitEvent, Registered, (follows_clearClosed _ s).events]
    exact hdeliveries delivery hdelivery
  · intro i cgi hrunning
    exact hcleared.safe i cgi ⟨hrunning.context, hrunning.registered, hrunning.notClosing⟩

end Sound

theorem registerEvent_keeps {s s' : State} {fd id : Nat} (h : s.registerEvent fd id = some s') :
    s'.contexts = s.contexts ∧ s'.destroyed = s.destroyed := by
  unfold State.registerEvent at h
  split at h
  · cases h
  split at h
  · cases h
    exact ⟨rfl, rfl⟩
  · cases h
    exact ⟨rfl, rfl⟩

theorem getElem?_make (s : State) (context : EventContext) :
    (s.make context).contexts[s.contexts.length]? = some context :=
  List.getElem?_concat_length

namespace Sound

variable {s s' : State} {answers : Answers}

/-- The next number is not in use. -/
theorem registerNew (h : Sound s) {context : EventContext}
    (hclient : ∀ c, context = .client c → c.cgiEventContext = none)
    (hcgi : ∀ cgi, context = .cgi cgi →
      (∃ c, s.contexts[cgi.client]? = some (.client c)) ∧ cgi.client ∉ s.destroyed)
    (hs' : (s.make context).registerEvent context.fd s.contexts.length = some s') : Sound s' := by
  apply (h.make hclient fun cgi heq => (hcgi cgi heq).1).registerEvent (getElem?_make s context) rfl
    _ _ (fun cgi heq => (hcgi cgi heq).2) hs'
  · intro hmem
    exact absurd (h.closed _ hmem).1 (Nat.lt_irrefl _)
  · intro hmem
    exact absurd (h.destroyed _ hmem) (Nat.lt_irrefl _)

theorem handleServer (h : Sound s) (hs' : handleServer s answers = some s') : Sound s' := by
  obtain ⟨_, _, hs'⟩ := Option.bind_eq_some_iff.mp hs'
  obtain ⟨t, ht, hs'⟩ := Option.bind_eq_some_iff.mp hs'
  cases hs'
  have hnew : Sound t := h.registerNew (by rintro c ⟨⟩; rfl) (by rintro cgi ⟨⟩) ht
  obtain ⟨hcontexts, -⟩ := registerEvent_keeps ht
  have hid : t.contexts[s.contexts.length]? = some (.client { fd := answers.fd }) := by
    rw [hcontexts]
    exact getElem?_make s _
  apply hnew.release (List.getElem?_eq_some_iff.mp hid).1
  intro i cgi hrunning heq
  -- a script's client is older than the script, and this client is the last of all
  have hcgi := hrunning.context
  rw [hcontexts, State.make, List.getElem?_append] at hcgi
  split at hcgi
  · obtain ⟨c, hc⟩ := h.clients i cgi hcgi
    have hlt := (List.getElem?_eq_some_iff.mp hc).1
    omega
  · have hlast := List.mem_singleton.mp (List.mem_of_getElem? hcgi)
    cases hlast

theorem finishCgiRequest (h : Sound s) (id : Nat) :
    Sound (s.modify id (.modifyClient .finishCgiRequest)) :=
  h.modifyClient (fun c _ => c.fd_finishCgiRequest)
    (fun c script hc hscript => h.scripts id c script hc hscript)

theorem handleCgi (h : Sound s) (id : Nat) (cgi : Cgi) : Sound (handleCgi s id cgi answers) := by
  have hfirst : Sound (if answers.expired then handleTimeout s cgi
      else handleDefault s id answers.childExited) := by
    split
    · exact h.finishCgiRequest cgi.client
    · exact h.modifyCgi id fun _ => .cgi rfl rfl fun hclosing => hclosing
  unfold EventLoop.handleCgi
  dsimp only
  split
  · exact (hfirst.finishCgiRequest cgi.client).setIsClosing id
  · exact hfirst

theorem createCgiProcess (h : Sound s) {id : Nat} {c : Client}
    (hc : s.contexts[id]? = some (.client c)) (hlive : id ∉ s.destroyed)
    (hs' : createCgiProcess s id answers = some s') : Sound s' := by
  obtain ⟨_, _, hs'⟩ := Option.bind_eq_some_iff.mp hs'
  obtain ⟨t, ht, hs'⟩ := Option.bind_eq_some_iff.mp hs'
  cases hs'
  have hnew : Sound t := by
    apply h.registerNew _ _ ht
    · rintro c ⟨⟩
    · rintro cgi ⟨⟩
      exact ⟨⟨c, hc⟩, hlive⟩
  have hscript : t.contexts[s.contexts.length]? =
      some (.cgi { fd := answers.fd, client := id }) := by
    rw [(registerEvent_keeps ht).1]
    exact getElem?_make s _
  have hcgi := (follows_unlinkCgi t id).cgi_later ⟨_, hscript, rfl⟩
  have hstarted : Sound
      ((t.unlinkCgi id).modify id (.modifyClient (.startCgi · s.contexts.length))) := by
    apply (hnew.unlinkCgi id).modifyClient (fun c _ => c.fd_startCgi s.contexts.length)
    rintro _ script _ ⟨⟩
    exact hcgi
  exact hstarted.releaseCgi
    ((follows_modifyClient _ id (Client.fd_startCgi · s.contexts.length)).cgi_later hcgi)

theorem handleCgiRequest (h : Sound s) {id : Nat} {c : Client}
    (hc : s.contexts[id]? = some (.client c)) (hlive : id ∉ s.destroyed)
    (hs' : handleCgiRequest s id c answers = some s') : Sound s' := by
  unfold EventLoop.handleCgiRequest at hs'
  split at hs'
  · exact h.createCgiProcess hc hlive hs'
  split at hs'
  · split at hs'
    · next cgi _ =>
        split at hs'
        · cases hs'
          exact ((h.handleCgi _ cgi).unregisterEvent cgi.fd).reset id
        split at hs'
        · cases hs'
          exact h.reset id
        · cases hs'
          exact h
    · cases hs'
  · cases hs'
    exact h

theorem handleDefaultRequest (h : Sound s) (id : Nat) :
    Sound (handleDefaultRequest s id answers) := by
  unfold EventLoop.handleDefaultRequest
  split
  · exact h
  split
  · exact h.setIsClosing id
  split
  · exact h.reset id
  · exact h

theorem handleClient (h : Sound s) {id : Nat} {c : Client} {delivery : Delivery}
    (hc : s.contexts[id]? = some (.client c)) (hlive : id ∉ s.destroyed)
    (hs' : handleClient s id c delivery answers = some s') : Sound s' := by
  unfold EventLoop.handleClient at hs'
  split at hs'
  · cases hs'
    exact h.setIsClosing id
  dsimp only at hs'
  generalize hread : (if (delivery.readable && !c.isCgi) = true then readAndParse c answers
    else c) = c' at hs'
  have hkeeps : c'.fd = c.fd ∧ c'.cgiEventContext = c.cgiEventContext := by
    rw [← hread]
    split <;> exact ⟨rfl, rfl⟩
  have hnext : Sound (s.modify id (.modifyClient fun _ => c')) := by
    apply h.modifyClient
    · intro old hold
      rw [hc] at hold
      cases hold
      exact hkeeps.1
    · intro old script hold hscript
      rw [hkeeps.2] at hscript
      exact h.scripts id c script hc hscript
  have hc' : (s.modify id (.modifyClient fun _ => c')).contexts[id]? = some (.client c') := by
    rw [State.modify, List.getElem?_modify_eq, hc]
    rfl
  split at hs'
  · cases hs'
    exact hnext
  split at hs'
  · split at hs'
    · exact hnext.handleCgiRequest hc' hlive hs'
    · cases hs'
      exact hnext.handleDefaultRequest id
  · cases hs'
    exact hnext

theorem handle (h : Sound s) {delivery : Delivery} (hlive : delivery.context ∉ s.destroyed)
    (hs' : handle s delivery answers = some s') : Sound s' := by
  unfold EventLoop.handle at hs'
  split at hs'
  · cases hs'
  · exact h.handleServer hs'
  · next c hc => exact h.handleClient hc hlive hs'
  · cases hs'
    exact h.handleCgi _ _

theorem handleUnlessClosing (h : Sound s) {delivery : Delivery}
    (hlive : delivery.context ∉ s.destroyed)
    (hs' : handleUnlessClosing s delivery answers = some s') : Sound s' := by
  unfold EventLoop.handleUnlessClosing at hs'
  split at hs'
  · cases hs'
    exact h
  · exact h.handle hlive hs'

theorem handleEpollEvent (h : Sound s) {delivery : Delivery}
    (hlive : delivery.context ∉ s.destroyed)
    (hs' : handleEpollEvent s delivery answers = some s') : Sound s' := by
  obtain ⟨context, _, hs'⟩ := Option.bind_eq_some_iff.mp hs'
  obtain ⟨t, ht, hs'⟩ := Option.bind_eq_some_iff.mp hs'
  have hhandled : Sound t := by
    cases herror : delivery.error with
    | true =>
        rw [herror] at ht
        exact (h.setIsClosing _).handleUnlessClosing hlive ht
    | false =>
        rw [herror] at ht
        exact h.handleUnlessClosing hlive ht
  cases hs'
  split
  · exact hhandled.unregisterEvent _
  · exact hhandled

theorem createServerSocket (h : Sound s) (fd : Nat) : Sound (createServerSocket s fd) := by
  unfold EventLoop.createServerSocket
  cases hregister : (s.make (.server fd)).registerEvent fd s.contexts.length with
  | none =>
      simp only [hregister, Option.getD_none]
      exact h.make (by rintro c ⟨⟩) (by rintro cgi ⟨⟩)
  | some t =>
      simp only [hregister, Option.getD_some]
      exact h.registerNew (by rintro c ⟨⟩) (by rintro cgi ⟨⟩) hregister

theorem step (h : Sound s) {action : Action} (hkeeps : KeepsClients s action)
    (hs' : step s action = some s') : Sound s' := by
  cases action with
  | wait deliveries =>
      rw [EventLoop.step] at hs'
      split at hs'
      · next hwait =>
          cases hs'
          exact h.waitEvent hwait.1 (hkeeps deliveries rfl) hwait.2.2
      · cases hs'
  | handle answers =>
      rw [EventLoop.step] at hs'
      split at hs'
      · cases hs'
      · next delivery rest hpending =>
          have hrest : Sound { s with pending := rest } := by
            refine { h with pending := ?_, safe := ?_ }
            · intro later hlater
              exact h.pending later (hpending ▸ List.mem_cons_of_mem _ hlater)
            · intro i cgi hrunning
              exact h.safe i cgi ⟨hrunning.context, hrunning.registered, hrunning.notClosing⟩
          have hhead := h.pending delivery (hpending ▸ List.mem_cons_self)
          exact hrest.handleEpollEvent (h.alive delivery.context hhead) hs'

end Sound

/-- What only the closed event contexts hold is destroyed with them. -/
theorem mem_destroyed_clearClosed {ids : List Nat} {s : State} {id : Nat} (hid : id ∈ ids)
    (hregistered : ¬ Registered s id)
    (hlinks : ∀ (i : Nat) context, s.contexts[i]? = some context →
      context.cgiEventContext ≠ some id) :
    id ∈ (State.clearClosed ids s).destroyed := by
  induction ids generalizing s with
  | nil => cases hid
  | cons first rest ih =>
      have hfollows := (follows_closed s rest).trans (follows_release _ first)
      have hclosed : Drops s { s with closedEventsContexts := rest } := .of_eq rfl
      have hdrops := hclosed.trans (drops_release _ first)
      rw [State.clearClosed]
      by_cases hrest : id ∈ rest
      · apply ih hrest
        · rw [Registered, hfollows.events]
          exact hregistered
        · intro i context' hcontext' hscript
          obtain ⟨context, hcontext, hold⟩ := hdrops.links i context' id hcontext' hscript
          exact hlinks i context hcontext hold
      · obtain rfl := (List.mem_cons.mp hid).resolve_right hrest
        apply (follows_clearClosed rest _).destroyed
        have hfree : State.isHeld { s with closedEventsContexts := rest } id = false :=
          isHeld_eq_false_iff.mpr ⟨hregistered, hrest, hlinks⟩
        rw [State.release, hfree, if_neg Bool.false_ne_true]
        exact List.mem_append_right _ (List.mem_singleton.mpr rfl)

theorem Sound.runsSafely {s : State} (h : Sound s) : RunsSafely s where
  event := fun delivery _ cgi _ _ hrunning => h.safe delivery.context cgi hrunning
  asked := by
    intro delivery rest c script cgi hpending hc hscript hcgi
    -- the script of a client refers to that client, whose event is being handled
    obtain ⟨other, hother, hclient⟩ := h.scripts delivery.context c script hc hscript
    rw [hcgi] at hother
    cases hother
    rw [hclient]
    exact h.alive _ (h.pending delivery (hpending ▸ List.mem_cons_self))

/-- A client that goes while its script runs is destroyed, and the next event of the script finds
it so. -/
theorem Sound.runsSafely_waitEvent_iff {s : State} (h : Sound s) (hpending : s.pending = []) :
    (∀ deliveries next, EventLoop.step s (.wait deliveries) = some next → RunsSafely next) ↔
      ∀ deliveries, KeepsClients s (.wait deliveries) := by
  constructor
  · intro hsafe _ _ _ id cgi hrunning hclosed
    have hstep : EventLoop.step s (.wait [⟨id, false, false, true, false⟩]) =
        some (s.waitEvent [⟨id, false, false, true, false⟩]) := by
      apply if_pos
      refine ⟨hpending, List.nodup_singleton _, ?_⟩
      intro delivery hdelivery
      rw [List.mem_singleton.mp hdelivery]
      exact hrunning.registered
    have hregistered := hrunning.registered
    rw [Registered, ← (follows_clearClosed s.closedEventsContexts s).events] at hregistered
    apply (hsafe _ _ hstep).event ⟨id, false, false, true, false⟩ [] cgi rfl rfl
    · exact ⟨(drops_clearClosed _ s).cgi id cgi hrunning.context, hregistered, hrunning.notClosing⟩
    · apply mem_destroyed_clearClosed hclosed (h.closed _ hclosed).2
      intro i context hcontext hscript
      -- a handle is to a script, and a script's client is a client
      cases context with
      | server fd => cases hscript
      | cgi other => cases hscript
      | client c =>
          obtain ⟨other, hother, -⟩ := h.scripts i c cgi.client hcontext hscript
          obtain ⟨owner, howner⟩ := h.clients id cgi hrunning.context
          rw [hother] at howner
          cases howner
  · intro hkeeps deliveries next hnext
    exact (h.step (hkeeps deliveries) hnext).runsSafely

theorem sound_empty : Sound {} where
  destroyed := nofun
  keys := List.nodup_nil
  fds := nofun
  closed := nofun
  alive := by
    rintro id (⟨it, hit, -⟩ | hid)
    · cases hit
    · cases hid
  pending := nofun
  scripts := nofun
  clients := nofun
  safe := fun _ _ hrunning => nomatch hrunning.context

theorem Reached.sound {s : State} (h : Reached KeepsClients s) : Sound s := by
  induction h with
  | launch fds hfds =>
      clear hfds
      have hall : ∀ s, Sound s → Sound (fds.foldl createServerSocket s) := by
        induction fds with
        | nil => exact fun s hs => hs
        | cons fd fds ih => exact fun s hs => ih _ (hs.createServerSocket fd)
      exact hall {} sound_empty
  | step _ hkeeps hstep ih => exact ih.step hkeeps hstep

/-- A client connects and asks for a script, which is started. -/
def startScript : List Action :=
  [.wait [{ context := 0, readable := true }], .handle { fd := 4 },
    .wait [{ context := 1, readable := true, writable := true }], .handle { fd := 5, isCgi := true }]

/-- A run whose actions a test allows. -/
theorem reached_of_run {allowed : State → Action → Prop} {test : State → Bool}
    (htest : ∀ s action, test s = true → allowed s action) {actions : List Action}
    {s next : State} (hs : Reached allowed s)
    (hrun : actions.foldlM (fun s action => if test s then step s action else none) s =
      some next) : Reached allowed next := by
  induction actions generalizing s with
  | nil =>
      cases hrun
      exact hs
  | cons action rest ih =>
      obtain ⟨t, ht, hrest⟩ := Option.bind_eq_some_iff.mp hrun
      dsimp only at ht
      split at ht
      · next hallowed => exact ih (hs.step (htest s action hallowed) ht) hrest
      · cases ht

theorem keepsClients_of_isEmpty {s : State} (action : Action)
    (h : s.closedEventsContexts.isEmpty = true) : KeepsClients s action := by
  intro deliveries _ id cgi _
  rw [List.isEmpty_iff.mp h]
  exact List.not_mem_nil

/-- In a run in which no client goes while its script runs, the handler of the script finds its
client. Where one does, the next event of the script finds it destroyed. -/
theorem runsSafely_of_keepsClients (s : State) (h : Reached KeepsClients s) :
    RunsSafely s ∧ (s.pending = [] →
      ((∀ deliveries next, step s (.wait deliveries) = some next → RunsSafely next) ↔
        ∀ deliveries, KeepsClients s (.wait deliveries))) :=
  ⟨h.sound.runsSafely, h.sound.runsSafely_waitEvent_iff⟩

/-- The script writes while its client is there. -/
theorem runsSafely_of_keepsClients_writes :
    RunsSafely
      { contexts := [.server 3,
          .client { fd := 4, isCgi := true, cgiEventContext := some 2, cgiStarted := true },
          .cgi { fd := 5, client := 1 }]
        eventsContexts := [(3, 0), (4, 1), (5, 2)]
        pending := [{ context := 2, readable := true }] } :=
  (runsSafely_of_keepsClients _ (@reached_of_run KeepsClients (·.closedEventsContexts.isEmpty)
    (fun _ action h => keepsClients_of_isEmpty action h)
    (startScript ++ [.wait [{ context := 2, readable := true }]])
    _ _ (.launch [3] (List.nodup_singleton 3)) (by decide))).1

/-- The client hangs up, and the script writes: its handler finds the client destroyed. -/
theorem not_runsSafely : ∃ s, Reached (fun _ _ => True) s ∧ ¬ RunsSafely s := by
  have hreached : Reached (fun _ _ => True)
      { contexts := [.server 3,
          .client { fd := 4, isClosing := true, isCgi := true, cgiStarted := true },
          .cgi { fd := 5, client := 1 }]
        destroyed := [1]
        eventsContexts := [(3, 0), (5, 2)]
        pending := [{ context := 2, readable := true }] } :=
    @reached_of_run _ (fun _ => true) (fun _ _ _ => trivial)
      (startScript ++ [.wait [{ context := 1, hangUp := true }], .handle {},
        .wait [{ context := 2, readable := true }]])
      _ _ (.launch [3] (List.nodup_singleton 3)) (by decide)
  refine ⟨_, hreached, ?_⟩
  intro hsafe
  exact hsafe.event _ _ { fd := 5, client := 1 } rfl rfl ⟨rfl, ⟨(5, 2), by decide, rfl⟩, rfl⟩
    (by decide)

end FortyTwo.Webserv.EventLoop
