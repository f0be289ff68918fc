import FortyTwo.Webserv.EventLoop

/-!
What the steps of the event loop leave as it is: the kinds of the event contexts, what is
registered, and which handles to scripts there are.
-/

namespace FortyTwo.Webserv.EventLoop

def Registered (s : State) (id : Nat) : Prop := ∃ it ∈ s.eventsContexts, it.2 = id

/-- The event of a script is registered, and its handler runs at the next one. -/
structure IsRunning (s : State) (id : Nat) (cgi : Cgi) : Prop where
  context : s.contexts[id]? = some (.cgi cgi)
  registered : Registered s id
  notClosing : cgi.isClosing = false

section Contexts

/-- What a handler does to an event context: it closes for good, and keeps its descriptor and its
client. -/
inductive Same : EventContext → EventContext → Prop
  | server (fd : Nat) : Same (.server fd) (.server fd)
  | client {c c' : Client} (hfd : c'.fd = c.fd) : Same (.client c) (.client c')
  | cgi {c c' : Cgi} (hfd : c'.fd = c.fd) (hclient : c'.client = c.client)
      (hclosing : c'.isClosing = false → c.isClosing = false) : Same (.cgi c) (.cgi c')

theorem Same.refl (context : EventContext) : Same context context := by
  cases context with
  | server fd => exact .server fd
  | client c => exact .client rfl
  | cgi c => exact .cgi rfl rfl id

theorem Same.trans {a b c : EventContext} (hab : Same a b) (hbc : Same b c) : Same a c := by
  cases hab with
  | server fd => exact hbc
  | client hfd =>
      cases hbc with
      | client hfd' => exact .client (hfd'.trans hfd)
  | cgi hfd hclient hclosing =>
      cases hbc with
      | cgi hfd' hclient' hclosing' =>
          exact .cgi (hfd'.trans hfd) (hclient'.trans hclient) (hclosing ∘ hclosing')

theorem Same.fd_eq {a b : EventContext} (h : Same a b) : b.fd = a.fd := by
  cases h with
  | server fd => rfl
  | client hfd => exact hfd
  | cgi hfd _ _ => exact hfd

theorem same_setIsClosing (context : EventContext) : Same context context.setIsClosing := by
  cases context with
  | server fd => exact .server fd
  | client c => exact .client rfl
  | cgi c => exact .cgi rfl rfl nofun

theorem same_modifyClient {f : Client → Client} (hf : ∀ c, (f c).fd = c.fd)
    (context : EventContext) : Same context (context.modifyClient f) := by
  cases context with
  | server fd => exact .server fd
  | client c => exact .client (hf c)
  | cgi c => exact Same.refl _

end Contexts

/-- The event contexts that there are stay what they are, and registered, and what is destroyed
stays so. -/
structure Follows (s s' : State) : Prop where
  length : s'.contexts.length = s.contexts.length
  same : ∀ (id : Nat) context', s'.contexts[id]? = some context' →
    ∃ context, s.contexts[id]? = some context ∧ Same context context'
  events : s'.eventsContexts = s.eventsContexts
  pending : s'.pending = s.pending
  destroyed : s.destroyed ⊆ s'.destroyed

namespace Follows

variable {s s' s'' : State}

theorem refl (s : State) : Follows s s :=
  ⟨rfl, fun _ context h => ⟨context, h, Same.refl context⟩, rfl, rfl, List.Subset.refl _⟩

theorem trans (h : Follows s s') (h' : Follows s' s'') : Follows s s'' := by
  refine ⟨h'.length.trans h.length, ?_, h'.events.trans h.events, h'.pending.trans h.pending,
    List.Subset.trans h.destroyed h'.destroyed⟩
  intro id context'' hcontext''
  obtain ⟨context', hcontext', hsame'⟩ := h'.same id context'' hcontext''
  obtain ⟨context, hcontext, hsame⟩ := h.same id context' hcontext'
  exact ⟨context, hcontext, hsame.trans hsame'⟩

theorem later (h : Follows s s') {id : Nat} {context : EventContext}
    (hcontext : s.contexts[id]? = some context) :
    ∃ context', s'.contexts[id]? = some context' ∧ Same context context' := by
  have hlt : id < s'.contexts.length := by
    rw [h.length]
    exact (List.getElem?_eq_some_iff.mp hcontext).1
  obtain ⟨before, hbefore, hsame⟩ := h.same id _ (List.getElem?_eq_getElem hlt)
  rw [hcontext] at hbefore
  cases hbefore
  exact ⟨_, List.getElem?_eq_getElem hlt, hsame⟩

theorem cgi_later (h : Follows s s') {id client : Nat}
    (hcgi : ∃ cgi, s.contexts[id]? = some (.cgi cgi) ∧ cgi.client = client) :
    ∃ cgi', s'.contexts[id]? = some (.cgi cgi') ∧ cgi'.client = client := by
  obtain ⟨cgi, hcgi, rfl⟩ := hcgi
  obtain ⟨context', hcontext', hsame⟩ := h.later hcgi
  cases hsame with
  | cgi hfd hclient hclosing => exact ⟨_, hcontext', hclient⟩

theorem client_later (h : Follows s s') {id : Nat} {c : Client}
    (hclient : s.contexts[id]? = some (.client c)) :
    ∃ c', s'.contexts[id]? = some (.client c') := by
  obtain ⟨context', hcontext', hsame⟩ := h.later hclient
  cases hsame
  exact ⟨_, hcontext'⟩

theorem cgi_before (h : Follows s s') {id : Nat} {cgi' : Cgi}
    (hcgi' : s'.contexts[id]? = some (.cgi cgi')) :
    ∃ cgi, s.contexts[id]? = some (.cgi cgi) ∧ cgi'.client = cgi.client ∧
      (cgi'.isClosing = false → cgi.isClosing = false) := by
  obtain ⟨context, hcontext, hsame⟩ := h.same id _ hcgi'
  cases hsame with
  | cgi hfd hclient hclosing => exact ⟨_, hcontext, hclient, hclosing⟩

theorem isRunning (h : Follows s s') {id : Nat} {cgi' : Cgi} (hrunning : IsRunning s' id cgi') :
    ∃ cgi, IsRunning s id cgi ∧ cgi'.client = cgi.client := by
  obtain ⟨cgi, hcgi, hclient, hclosing⟩ := h.cgi_before hrunning.context
  have hregistered := hrunning.registered
  rw [Registered, h.events] at hregistered
  exact ⟨cgi, ⟨hcgi, hregistered, hclosing hrunning.notClosing⟩, hclient⟩

end Follows

theorem follows_modify {s : State} {id : Nat} {f : EventContext → EventContext}
    (hf : ∀ context, s.contexts[id]? = some context → Same context (f context)) :
    Follows s (s.modify id f) := by
  refine ⟨List.length_modify _ _ _, ?_, rfl, rfl, List.Subset.refl _⟩
  intro i context' hcontext'
  rw [State.modify, List.getElem?_modify] at hcontext'
  obtain ⟨context, hcontext, rfl⟩ := Option.map_eq_some_iff.mp hcontext'
  refine ⟨context, hcontext, ?_⟩
  split
  · next heq =>
      subst heq
      exact hf context hcontext
  · exact Same.refl context

theorem follows_modifyClient (s : State) (id : Nat) {f : Client → Client}
    (hf : ∀ c, (f c).fd = c.fd) : Follows s (s.modify id (.modifyClient f)) :=
  follows_modify fun context _ => same_modifyClient hf context

theorem follows_releaseCgi (s : State) (id : Nat) : Follows s (s.releaseCgi id) := by
  unfold State.releaseCgi
  split
  · exact .refl s
  · exact ⟨rfl, fun _ context h => ⟨context, h, Same.refl context⟩, rfl, rfl,
      List.subset_append_left _ _⟩

/-- A client has a script to let go of, or not. -/
theorem unlinkCgi_cases (s : State) (id : Nat) :
    s.unlinkCgi id = s ∨
    ∃ c script, s.contexts[id]? = some (.client c) ∧ c.cgiEventContext = some script ∧
      s.unlinkCgi id = (s.modify id (.modifyClient .unlink)).releaseCgi script := by
  unfold State.unlinkCgi
  cases hlink : s.contexts[id]?.bind EventContext.cgiEventContext with
  | none => exact Or.inl rfl
  | some script =>
      obtain ⟨context, hcontext, hscript⟩ := Option.bind_eq_some_iff.mp hlink
      cases context with
      | server fd => cases hscript
      | cgi cgi => cases hscript
      | client c => exact Or.inr ⟨c, script, hcontext, hscript, rfl⟩

theorem follows_unlinkCgi (s : State) (id : Nat) : Follows s (s.unlinkCgi id) := by
  rcases unlinkCgi_cases s id with heq | ⟨c, script, -, -, heq⟩
  · rw [heq]
    exact .refl s
  · rw [heq]
    exact (follows_modifyClient s id Client.fd_unlink).trans (follows_releaseCgi _ _)

theorem closed_releaseCgi (s : State) (id : Nat) :
    (s.releaseCgi id).closedEventsContexts = s.closedEventsContexts := by
  unfold State.releaseCgi
  split <;> rfl

theorem closed_unlinkCgi (s : State) (id : Nat) :
    (s.unlinkCgi id).closedEventsContexts = s.closedEventsContexts := by
  rcases unlinkCgi_cases s id with heq | ⟨c, script, -, -, heq⟩
  · rw [heq]
  · rw [heq]
    exact closed_releaseCgi _ _

theorem follows_release (s : State) (id : Nat) : Follows s (s.release id) := by
  unfold State.release
  split
  · exact .refl s
  · have hunlink := follows_unlinkCgi s id
    exact ⟨hunlink.length, hunlink.same, hunlink.events, hunlink.pending,
      List.Subset.trans hunlink.destroyed (List.subset_append_left _ _)⟩

theorem closed_release (s : State) (id : Nat) :
    (s.release id).closedEventsContexts = s.closedEventsContexts := by
  unfold State.release
  split
  · rfl
  · exact closed_unlinkCgi s id

theorem follows_closed (s : State) (ids : List Nat) :
    Follows s { s with closedEventsContexts := ids } :=
  ⟨rfl, fun _ context h => ⟨context, h, Same.refl context⟩, rfl, rfl, List.Subset.refl _⟩

theorem follows_clearClosed (ids : List Nat) (s : State) : Follows s (State.clearClosed ids s) := by
  induction ids generalizing s with
  | nil => exact follows_closed s []
  | cons id rest ih =>
      exact ((follows_closed s rest).trans (follows_release _ id)).trans (ih _)

/-- Handles to scripts go, and the scripts stay what they are. -/
structure Drops (s s' : State) : Prop where
  cgi : ∀ (i : Nat) cgi, s.contexts[i]? = some (.cgi cgi) → s'.contexts[i]? = some (.cgi cgi)
  links : ∀ (i : Nat) context' script, s'.contexts[i]? = some context' →
    context'.cgiEventContext = some script →
    ∃ context, s.contexts[i]? = some context ∧ context.cgiEventContext = some script

theorem Drops.of_eq {s s' : State} (h : s'.contexts = s.contexts) : Drops s s' := by
  constructor
  · rw [h]
    exact fun _ _ hcgi => hcgi
  · rw [h]
    exact fun _ context _ hcontext hscript => ⟨context, hcontext, hscript⟩

theorem Drops.trans {s s' s'' : State} (h : Drops s s') (h' : Drops s' s'') : Drops s s'' := by
  constructor
  · exact fun i cgi hcgi => h'.cgi i cgi (h.cgi i cgi hcgi)
  · intro i context'' script hcontext'' hscript
    obtain ⟨context', hcontext', hscript'⟩ := h'.links i context'' script hcontext'' hscript
    exact h.links i context' script hcontext' hscript'

theorem drops_unlink (s : State) (id : Nat) : Drops s (s.modify id (.modifyClient .unlink)) := by
  constructor
  · intro i cgi hcgi
    rw [State.modify, List.getElem?_modify, hcgi]
    split <;> rfl
  · intro i context' script hcontext' hscript
    rw [State.modify, List.getElem?_modify] at hcontext'
    obtain ⟨context, hcontext, hmodified⟩ := Option.map_eq_some_iff.mp hcontext'
    refine ⟨context, hcontext, ?_⟩
    split at hmodified
    · subst hmodified
      cases context with
      | server fd => cases hscript
      | cgi cgi => cases hscript
      | client c => cases hscript
    · rw [hmodified]
      exact hscript

theorem drops_unlinkCgi (s : State) (id : Nat) : Drops s (s.unlinkCgi id) := by
  rcases unlinkCgi_cases s id with heq | ⟨c, script, -, -, heq⟩
  · rw [heq]
    exact .of_eq rfl
  · rw [heq]
    apply (drops_unlink s id).trans
    unfold State.releaseCgi
    split
    · exact .of_eq rfl
    · exact .of_eq rfl

theorem drops_release (s : State) (id : Nat) : Drops s (s.release id) := by
  unfold State.release
  split
  · exact .of_eq rfl
  · exact (drops_unlinkCgi s id).trans (.of_eq rfl)

theorem drops_clearClosed (ids : List Nat) (s : State) : Drops s (State.clearClosed ids s) := by
  induction ids generalizing s with
  | nil => exact .of_eq rfl
  | cons id rest ih =>
      have hclosed : Drops s { s with closedEventsContexts := rest } := .of_eq rfl
      exact (hclosed.trans (drops_release _ id)).trans (ih _)

theorem isHeld_eq_false_iff {s : State} {id : Nat} : s.isHeld id = false ↔
    ¬ Registered s id ∧ id ∉ s.closedEventsContexts ∧
      ∀ (i : Nat) context, s.contexts[i]? = some context →
        context.cgiEventContext ≠ some id := by
  simp only [State.isHeld, Bool.or_eq_false_iff, List.any_eq_false, beq_iff_eq,
    List.contains_eq_mem, decide_eq_false_iff_not, and_assoc, Registered, not_exists, not_and,
    List.mem_iff_getElem?, forall_exists_index]
  tauto

theorem isHeld_unlinkCgi {s : State} {id i : Nat} (h : s.isHeld i = false) :
    (s.unlinkCgi id).isHeld i = false := by
  obtain ⟨hregistered, hclosed, hlinks⟩ := isHeld_eq_false_iff.mp h
  rw [isHeld_eq_false_iff, Registered, (follows_unlinkCgi s id).events, closed_unlinkCgi]
  refine ⟨hregistered, hclosed, ?_⟩
  intro j context' hcontext' hscript
  obtain ⟨context, hcontext, hold⟩ := (drops_unlinkCgi s id).links j context' i hcontext' hscript
  exact hlinks j context hcontext hold

end FortyTwo.Webserv.EventLoop
