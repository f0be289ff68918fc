import FortyTwo.Foundation.KeyedList

/-!
`Server.cpp` and `ServerEvent.cpp`: the event contexts, who owns them, and the loop that hands
events to their handlers. A shared pointer deletes an event context when its last handle goes.
Where a system call fails, or a handler throws, the server ends, and so does the run. A request is
known by what its client's handler asks of it.
-/

namespace FortyTwo.Webserv.EventLoop

open Foundation

/-- `ClientEventContext`, with its `IOClientHandler` and its `IOClientContext`. -/
structure Client where
  fd : Nat
  isClosing : Bool := false
  isCgi : Bool := false
  /-- An empty request is as long as it says. -/
  isRequestReady : Bool := true
  /-- The shared pointer to the event context of the script. -/
  cgiEventContext : Option Nat := none
  isCgiRequestFinished : Bool := false
  cgiStarted : Bool := false
  deriving DecidableEq, Repr

namespace Client

variable (client : Client)

/-- The fields of `IOClientContext::reset`. -/
def reset : Client := { fd := client.fd, isClosing := client.isClosing }

def unlink : Client := { client with cgiEventContext := none }

def startCgi (cgi : Nat) : Client := { client with cgiEventContext := some cgi, cgiStarted := true }

def finishCgiRequest : Client := { client with isCgiRequestFinished := true }

theorem fd_reset : client.reset.fd = client.fd := rfl

theorem fd_unlink : client.unlink.fd = client.fd := rfl

theorem fd_startCgi (cgi : Nat) : (client.startCgi cgi).fd = client.fd := rfl

theorem fd_finishCgiRequest : client.finishCgiRequest.fd = client.fd := rfl

end Client

/-- `CGIEventContext`, with its `IOCGIHandler`. -/
structure Cgi where
  fd : Nat
  /-- The event context whose `IOClientContext` the handler refers to. -/
  client : Nat
  isClosing : Bool := false
  childExited : Bool := false
  deriving DecidableEq, Repr

inductive EventContext where
  | server (fd : Nat)
  | client (client : Client)
  | cgi (cgi : Cgi)
  deriving DecidableEq, Repr

namespace EventContext

/-- `get_fd()->get_fd()`. -/
def fd : EventContext → Nat
  | server fd => fd
  | client c => c.fd
  | cgi c => c.fd

/-- `get_io_handler()->is_closing()`. -/
def isClosing : EventContext → Bool
  | server _ => false
  | client c => c.isClosing
  | cgi c => c.isClosing

/-- `get_io_handler()->set_is_closing()`. -/
def setIsClosing : EventContext → EventContext
  | server fd => server fd
  | client c => client { c with isClosing := true }
  | cgi c => cgi { c with isClosing := true }

def modifyClient (f : Client → Client) : EventContext → EventContext
  | client c => client (f c)
  | context => context

def modifyCgi (f : Cgi → Cgi) : EventContext → EventContext
  | cgi c => cgi (f c)
  | context => context

def cgiEventContext : EventContext → Option Nat
  | client c => c.cgiEventContext
  | _ => none

end EventContext

/-- An entry of `_events_arr`. -/
structure Delivery where
  /-- `data.ptr`. -/
  context : Nat
  /-- `EPOLLERR`. -/
  error : Bool := false
  /-- `EPOLLHUP` or `EPOLLRDHUP`. -/
  hangUp : Bool := false
  /-- `EPOLLIN`. -/
  readable : Bool := false
  /-- `EPOLLOUT`. -/
  writable : Bool := false
  deriving DecidableEq, Repr

inductive Status where
  | ok
  | dataIsNotReady
  | failed
  deriving DecidableEq, Repr

/-- What the system and the rest of the program answer while an event is handled. -/
structure Answers where
  /-- The descriptor that `accept` or `pipe` gives. -/
  fd : Nat := 0
  /-- The status of a client's handler, and its request, after `read_and_parse`. -/
  status : Status := .ok
  isCgi : Bool := false
  isRequestReady : Bool := true
  /-- A response can be sent, if there is one. -/
  sent : Bool := true
  /-- There is one, for the whole request, and it is not streamed any further. -/
  sentWhole : Bool := true
  /-- The timer of the script has expired when a handler asks first. -/
  expired : Bool := false
  /-- It has expired at the end of the handler. -/
  expiredAfter : Bool := false
  /-- `waitpid` finds that the script has exited. -/
  childExited : Bool := false
  deriving DecidableEq, Repr

/-- The event contexts have the numbers in which they were made, and no number is used again. -/
structure State where
  contexts : List EventContext := []
  destroyed : List Nat := []
  /-- `_events_contexts`, by their descriptors. -/
  eventsContexts : List (Nat × Nat) := []
  closedEventsContexts : List Nat := []
  /-- What `handle_epoll_event` has still to hand out. -/
  pending : List Delivery := []
  deriving DecidableEq, Repr

def eventsCapacity : Nat := 2000

namespace State

def modify (s : State) (id : Nat) (f : EventContext → EventContext) : State :=
  { s with contexts := s.contexts.modify id f }

/-- A shared pointer to the event context is somewhere. -/
def isHeld (s : State) (id : Nat) : Bool :=
  s.eventsContexts.any (·.2 == id) || s.closedEventsContexts.contains id ||
    s.contexts.any (·.cgiEventContext == some id)

/-- A descriptor of an event context is open as long as that is not destroyed. -/
def isOpen (s : State) (fd : Nat) : Bool :=
  (List.range s.contexts.length).any fun id =>
    !s.destroyed.contains id && (s.contexts[id]?.map EventContext.fd == some fd)

/-- A handle to the event context of a script has gone. -/
def releaseCgi (s : State) (id : Nat) : State :=
  if s.isHeld id then s else { s with destroyed := s.destroyed ++ [id] }

/-- `cgi_event_context.unlink_ptr()`. -/
def unlinkCgi (s : State) (id : Nat) : State :=
  match s.contexts[id]?.bind EventContext.cgiEventContext with
  | none => s
  | some cgi =>
      (s.modify id (.modifyClient .unlink)).releaseCgi cgi

/-- A handle to the event context has gone. The destructor of a client's handler unlinks the
script. -/
def release (s : State) (id : Nat) : State :=
  if s.isHeld id then s
  else { s.unlinkCgi id with destroyed := (s.unlinkCgi id).destroyed ++ [id] }

/-- `IOClientContext::reset`. -/
def reset (s : State) (id : Nat) : State := (s.unlinkCgi id).modify id (.modifyClient .reset)

/-- A new event context, which has the next number. -/
def make (s : State) (context : EventContext) : State :=
  { s with contexts := s.contexts ++ [context] }

def registerEvent (s : State) (fd id : Nat) : Option State :=
  if s.eventsContexts.length = eventsCapacity then none
  else if (entry Prod.fst fd s.eventsContexts).isSome then some s
  else some { s with eventsContexts := s.eventsContexts ++ [(fd, id)] }

def unregisterEvent (s : State) (fd : Nat) : State :=
  match entry Prod.fst fd s.eventsContexts with
  | none => s
  | some it =>
      { s with
        closedEventsContexts := s.closedEventsContexts ++ [it.2]
        eventsContexts := s.eventsContexts.filter (·.1 != fd) }

/-- `_closed_events_contexts.clear()`, one handle after the other. -/
def clearClosed : List Nat → State → State
  | [], s => { s with closedEventsContexts := [] }
  | id :: rest, s => clearClosed rest ({ s with closedEventsContexts := rest }.release id)

def waitEvent (s : State) (deliveries : List Delivery) : State :=
  { clearClosed s.closedEventsContexts s with pending := deliveries }

end State

/-- `IOServerHandler::handle`. -/
def handleServer (s : State) (answers : Answers) : Option State := do
  guard (!s.isOpen answers.fd)
  let id := s.contexts.length
  let s ← (s.make (.client { fd := answers.fd })).registerEvent answers.fd id
  -- the handle of the function itself
  return s.release id

/-- The flag is written to wherever the reference leads. -/
def handleTimeout (s : State) (cgi : Cgi) : State :=
  s.modify cgi.client (.modifyClient .finishCgiRequest)

/-- `handle_default`, of which the exit of the script is kept. -/
def handleDefault (s : State) (id : Nat) (childExited : Bool) : State :=
  s.modify id (.modifyCgi fun c => { c with childExited := c.childExited || childExited })

/-- `IOCGIHandler::handle`. -/
def handleCgi (s : State) (id : Nat) (cgi : Cgi) (answers : Answers) : State :=
  let s :=
    if answers.expired then handleTimeout s cgi else handleDefault s id answers.childExited
  let childExited := cgi.childExited || (!answers.expired && answers.childExited)
  if childExited || answers.expired || answers.expiredAfter then
    (s.modify cgi.client (.modifyClient .finishCgiRequest)).modify id .setIsClosing
  else s

def createCgiProcess (s : State) (id : Nat) (answers : Answers) : Option State := do
  guard (!s.isOpen answers.fd)
  let cgi := s.contexts.length
  let s ← (s.make (.cgi { fd := answers.fd, client := id })).registerEvent answers.fd cgi
  -- the assignment unlinks what the client has
  let s := (s.unlinkCgi id).modify id (.modifyClient (.startCgi · cgi))
  return s.releaseCgi cgi

def handleCgiRequest (s : State) (id : Nat) (client : Client) (answers : Answers) :
    Option State :=
  if client.cgiStarted = false ∧ client.isRequestReady = true then createCgiProcess s id answers
  else if client.cgiStarted then
    match client.cgiEventContext.bind (s.contexts[·]?) with
    | some (.cgi cgi) =>
        if answers.expired then
          -- `handle(NULL)`, which finds the timer expired as well
          let s := handleCgi s (client.cgiEventContext.getD 0) cgi answers
          some ((s.unregisterEvent cgi.fd).reset id)
        else if client.isCgiRequestFinished then some (s.reset id)
        else some s
    | _ => none
  else some s

def handleDefaultRequest (s : State) (id : Nat) (answers : Answers) : State :=
  if answers.status = .dataIsNotReady then s
  else if answers.sent = false then s.modify id .setIsClosing
  else if answers.sentWhole then s.reset id
  else s

/-- `read_and_parse`, and the closing of the client where it fails. -/
def readAndParse (client : Client) (answers : Answers) : Client :=
  { client with
    isCgi := answers.isCgi
    isRequestReady := answers.isRequestReady
    isClosing := client.isClosing || answers.status == .failed }

/-- `IOClientHandler::handle`. -/
def handleClient (s : State) (id : Nat) (client : Client) (delivery : Delivery)
    (answers : Answers) : Option State :=
  if delivery.hangUp then some (s.modify id .setIsClosing)
  else
    let isRead := delivery.readable && !client.isCgi
    let client := if isRead then readAndParse client answers else client
    let s := s.modify id (.modifyClient fun _ => client)
    if isRead ∧ answers.status = .dataIsNotReady then some s
    else if delivery.writable then
      if client.isCgi then handleCgiRequest s id client answers
      else some (handleDefaultRequest s id answers)
    else some s

/-- `get_io_handler()->handle(&event)`. -/
def handle (s : State) (delivery : Delivery) (answers : Answers) : Option State :=
  match s.contexts[delivery.context]? with
  | none => none
  | some (.server _) => handleServer s answers
  | some (.client client) => handleClient s delivery.context client delivery answers
  | some (.cgi cgi) => some (handleCgi s delivery.context cgi answers)

def isClosing (s : State) (id : Nat) : Bool :=
  (s.contexts[id]?.map EventContext.isClosing).getD false

def handleUnlessClosing (s : State) (delivery : Delivery) (answers : Answers) : Option State :=
  if isClosing s delivery.context then some s else handle s delivery answers

/-- The body of the loop of `handle_epoll_event`. -/
def handleEpollEvent (s : State) (delivery : Delivery) (answers : Answers) : Option State := do
  let context ← s.contexts[delivery.context]?
  let s ← handleUnlessClosing
    (if delivery.error then s.modify delivery.context .setIsClosing else s) delivery answers
  return if isClosing s delivery.context then s.unregisterEvent context.fd else s

/-- `create_server_socket`. -/
def createServerSocket (s : State) (fd : Nat) : State :=
  let id := s.contexts.length
  let s := s.make (.server fd)
  (s.registerEvent fd id).getD s

inductive Action where
  /-- `wait_event` returns these events. -/
  | wait (deliveries : List Delivery)
  /-- The next of them is handled. -/
  | handle (answers : Answers)

/-- A step of `launch`. `epoll_wait` reports what is registered, and nothing of it twice. -/
def step (s : State) : Action → Option State
  | .wait deliveries =>
      if s.pending = [] ∧ (deliveries.map Delivery.context).Nodup ∧
          ∀ delivery ∈ deliveries, ∃ entry ∈ s.eventsContexts, entry.2 = delivery.context then
        some (s.waitEvent deliveries)
      else none
  | .handle answers =>
      match s.pending with
      | [] => none
      | delivery :: rest => handleEpollEvent { s with pending := rest } delivery answers

/-- The states that steps of a kind lead to from the start of the server. -/
inductive Reached (allowed : State → Action → Prop) : State → Prop
  | launch (fds : List Nat) (hfds : fds.Nodup) :
      Reached allowed (fds.foldl createServerSocket {})
  | step {s action next} (hs : Reached allowed s) (hallowed : allowed s action)
      (hstep : step s action = some next) : Reached allowed next

end FortyTwo.Webserv.EventLoop
