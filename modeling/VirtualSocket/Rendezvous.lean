import Mathlib.Algebra.Order.Group.Multiset
import Mathlib.Algebra.BigOperators.Group.List.Basic
import VirtualSocket.Traffic
import VirtualSocket.Clients

/- The broker, its clients and the service proxies together. Each program runs at
   its own pace: a request sent to the broker is an arrival, which the broker may
   take up in any order and after any delay, and a line the broker writes on a
   control connection waits in the proxy's inbox. Lines are delivered whole. A
   service proxy is its one thread and the children it has forked; an interrupt
   reaches all of them at once, as from a terminal. Any `createConnection`, fork
   and connection to a local service may fail.
   A connection is named when its opener first sends on it or closes it. What a
   client does once its request is sent concerns no other party here: that it may
   quit at any time shows only in `clientAbort`, where it quits before.
   `opener` remembers which service proxy opened a connection; no step reads it.
   The client IDs still on their way from the broker to a service and back are
   followed in `Tokens`; here `Proxy.step_moves` says what a step of a proxy can be,
   and the proofs about proxies split on that.

   Correspondence (C++ ↔ Lean):
     `Server::handleRequest`, one accept          ↔ `.brokerHandle`
     `ServiceProxy::start`, a `recv` that returns ↔ `.recv`, `.eof`
     `ServiceProxy::handleConnectRequest`         ↔ `.create`, `.fork`, `.service`
     the child's `exit` after the relay           ↔ `.childExit`
     `interrupt_handler`                          ↔ `.interrupt`
     `ServiceProxy::shutdown`                     ↔ `.stop`, `.childStop`
   `handleConnectRequest_steps` and `shutdown_farewell` tie the steps to the calls of
   the two functions. -/
namespace VirtualSocket.Rendezvous
open Json Protocol Server Broker ServiceProxy Function

abbrev Conn := Nat

/-- What a process sends on a connection it has opened to the broker; `none` when it
closes it without a request. -/
abbrev Request := Option (Kind × Bytes)

structure Arrival where
  conn : Conn
  request : Request
  deriving DecidableEq

/-- What the broker's `recv` gives. -/
def Arrival.line (a : Arrival) : Bytes :=
  match a.request with
  | none => []
  | some (k, id) => makeRequest k.text id

/-- Where the thread of a service proxy stands: waiting for the response to its
register, in `readRequest`, in `createConnection` or at the fork of
`handleConnectRequest`, in `shutdown`, or gone. -/
inductive Phase where
  | starting
  | idle
  | handling (clientID : Bytes)
  | opened (clientID : Bytes)
  | stopping (unsent : Bool)
  | ended
  deriving DecidableEq

/-- Where a forked child stands: connecting to the local service, relaying, or in
`shutdown`. `unsent` says that its connection to the broker has carried nothing. -/
inductive Stage where
  | connecting
  | session
  | stopping (unsent : Bool)
  deriving DecidableEq

structure Child where
  clientID : Bytes
  stage : Stage
  deriving DecidableEq

structure Proxy where
  id : Bytes
  control : Conn
  phase : Phase
  inbox : List Bytes
  children : List Child
  deriving DecidableEq

inductive ProxyAction where
  | recv
  | eof
  | create (ok : Bool)
  | fork (ok : Bool)
  | service (k : Nat) (ok : Bool)
  | childExit (k : Nat)
  | interrupt
  | stop (ok : Bool)
  | childStop (k : Nat) (ok : Bool)
  deriving DecidableEq

/-- The response to the register request is OK. -/
def registered (line : Bytes) : Bool := start 0 [.bytes line] = .ok (.serving [])

/-- The client ID one turn of the connect loop takes from a line; `none` is an exception. -/
def clientOf (line : Bytes) : Option Bytes :=
  match connectLoop [.bytes line] with
  | .ok [clientID] => some clientID
  | _ => none

namespace Proxy

/-- A `recv` on the control connection returns. An exception ends the process, and so does a refusal. -/
def receive (p : Proxy) (line : Bytes) : Proxy :=
  match p.phase with
  | .starting => { p with phase := if registered line then .idle else .ended }
  | .idle =>
    match clientOf line with
    | some clientID => { p with phase := .handling clientID }
    | none => { p with phase := .ended }
  | _ => p

/-- The interrupt in a child. -/
def interruptChild (c : Child) : Child :=
  match c.stage with
  | .connecting => { c with stage := .stopping true }
  | .session => { c with stage := .stopping false }
  | .stopping _ => c

/-- What `shutdown` leaves: the unregister request, if a connection for it could be
made, and the end of a connection that nothing was sent on. -/
def farewell (p : Proxy) (unsent ok : Bool) : List Request :=
  (if ok then [some (.unregister, p.id)] else []) ++ (if unsent then [none] else [])

/-- One step of the service proxy or of one of its children, and the connections that
now reach the broker. `closed` says that the broker has closed the control connection. -/
def step (p : Proxy) (closed : Bool) : ProxyAction → Option (Proxy × List Request)
  | .recv =>
    match p.inbox, p.phase with
    | line :: rest, .starting => some ({ p with inbox := rest }.receive line, [])
    | line :: rest, .idle => some ({ p with inbox := rest }.receive line, [])
    | _, _ => none
  | .eof =>
    if closed = true ∧ p.inbox = [] ∧ (p.phase = .starting ∨ p.phase = .idle) then
      some (p.receive [], [])
    else none
  | .create ok =>
    match p.phase with
    | .handling clientID => some ({ p with phase := if ok then .opened clientID else .idle }, [])
    | _ => none
  | .fork ok =>
    match p.phase with
    | .opened clientID =>
      -- without a child, the parent's close is the end of the new connection
      if ok then some ({ p with phase := .idle, children := p.children ++ [⟨clientID, .connecting⟩] }, [])
      else some ({ p with phase := .idle }, [none])
    | _ => none
  | .service k ok =>
    match p.children[k]? with
    | some ⟨clientID, .connecting⟩ =>
      if ok then
        some ({ p with children := p.children.set k ⟨clientID, .session⟩ },
          [some (.connectionCreated, clientID)])
      else some ({ p with children := p.children.eraseIdx k }, [some (.connectionFailed, clientID)])
    | _ => none
  | .childExit k =>
    match p.children[k]? with
    | some ⟨_, .session⟩ => some ({ p with children := p.children.eraseIdx k }, [])
    | _ => none
  | .interrupt =>
    let children := p.children.map interruptChild
    match p.phase with
    -- the handler is installed after the response; until then the signal ends the process
    | .starting => some ({ p with phase := .ended }, [])
    | .idle | .handling _ => some ({ p with phase := .stopping false, children }, [])
    | .opened _ => some ({ p with phase := .stopping true, children }, [])
    -- a second interrupt waits until the handler returns, which it never does
    | _ => none
  | .stop ok =>
    match p.phase with
    | .stopping unsent => some ({ p with phase := .ended }, p.farewell unsent ok)
    | _ => none
  | .childStop k ok =>
    match p.children[k]? with
    | some ⟨_, .stopping unsent⟩ =>
      some ({ p with children := p.children.eraseIdx k }, p.farewell unsent ok)
    | _ => none

end Proxy

structure System where
  broker : Broker Conn
  alive : Bool
  arrivals : List Arrival
  proxies : List Proxy
  opener : Conn → Option Conn
  next : Conn

inductive Action where
  | clientStart (id : Bytes)
  | clientAbort
  | proxyStart (id : Bytes)
  | brokerHandle (i : Nat) (fd : Fd) (forked : Bool)
  | proxy (i : Nat) (action : ProxyAction)
  deriving DecidableEq

/-- The messages among some events that go out on a connection. -/
def sentOn (c : Conn) (events : List (Event Conn)) : List Bytes :=
  events.filterMap fun
    | .sent r msg => if r = c then some msg else none
    | _ => none

def deliver (events : List (Event Conn)) (proxies : List Proxy) : List Proxy :=
  proxies.map fun p => { p with inbox := p.inbox ++ sentOn p.control events }

namespace System

def init : System := ⟨Broker.init, true, [], [], fun _ => none, 0⟩

/-- A new connection reaches the broker. -/
def arrive (s : System) (opener : Option Conn) (request : Request) : System :=
  { s with
    arrivals := s.arrivals ++ [⟨s.next, request⟩]
    opener := update s.opener s.next opener
    next := s.next + 1 }

/-- The broker has closed the connection, or is gone. -/
def closed (s : System) (c : Conn) : Bool :=
  !s.alive || s.broker.history.any fun e => e.events.any (· = .closed c)

/-- The events of the broker's latest handling. -/
def latest (b : Broker Conn) : List (Event Conn) :=
  match b.history with
  | [] => []
  | e :: _ => e.events

def step (s : System) : Action → Option System
  | .clientStart id => some (s.arrive none (some (.connect, id)))
  | .clientAbort => some (s.arrive none none)
  -- the register request goes out on the control connection itself
  | .proxyStart id =>
    some { s.arrive none (some (.register, id)) with
      proxies := s.proxies ++ [⟨id, s.next, .starting, [], []⟩] }
  | .brokerHandle i fd forked =>
    match s.arrivals[i]? with
    | none => none
    | some a =>
      if s.alive = true ∧ s.broker.fds fd = none then
        let arrivals := s.arrivals.eraseIdx i
        match s.broker.handle a.conn fd (.bytes a.line) forked with
        -- the exception ends the process
        | .error _ => some { s with arrivals, alive := false }
        | .ok b => some { s with arrivals, broker := b, proxies := deliver (latest b) s.proxies }
      else none
  | .proxy i action =>
    match s.proxies[i]? with
    | none => none
    | some p =>
      match p.step (s.closed p.control) action with
      | none => none
      | some (p', requests) =>
        some (requests.foldl (fun s r => s.arrive (some p.control) r)
          { s with proxies := s.proxies.set i p' })

end System

/-! ## What a step of a proxy can be -/

namespace Proxy

/-- A step of a proxy: what it needs, what it leaves and what then reaches the broker. -/
inductive Moves (p : Proxy) (closed : Bool) : ProxyAction → Proxy → List Request → Prop
  | response {line rest} (hp : p.phase = .starting) (hi : p.inbox = line :: rest) : Moves p closed .recv
      { p with inbox := rest, phase := if registered line then .idle else .ended } []
  | request {line rest clientID} (hp : p.phase = .idle) (hi : p.inbox = line :: rest)
      (hc : clientOf line = some clientID) :
      Moves p closed .recv { p with inbox := rest, phase := .handling clientID } []
  | garbled {line rest} (hp : p.phase = .idle) (hi : p.inbox = line :: rest) (hc : clientOf line = none) :
      Moves p closed .recv { p with inbox := rest, phase := .ended } []
  | hangup (hc : closed = true) (hi : p.inbox = []) (hp : p.phase = .starting ∨ p.phase = .idle) :
      Moves p closed .eof { p with phase := .ended } []
  | created {clientID} (ok : Bool) (hp : p.phase = .handling clientID) :
      Moves p closed (.create ok) { p with phase := if ok then .opened clientID else .idle } []
  | forked {clientID} (hp : p.phase = .opened clientID) : Moves p closed (.fork true)
      { p with phase := .idle, children := p.children ++ [⟨clientID, .connecting⟩] } []
  | unforked {clientID} (hp : p.phase = .opened clientID) :
      Moves p closed (.fork false) { p with phase := .idle } [none]
  | connected {k clientID} (hk : p.children[k]? = some ⟨clientID, .connecting⟩) :
      Moves p closed (.service k true) { p with children := p.children.set k ⟨clientID, .session⟩ }
        [some (.connectionCreated, clientID)]
  | failed {k clientID} (hk : p.children[k]? = some ⟨clientID, .connecting⟩) :
      Moves p closed (.service k false) { p with children := p.children.eraseIdx k }
        [some (.connectionFailed, clientID)]
  | exited {k clientID} (hk : p.children[k]? = some ⟨clientID, .session⟩) :
      Moves p closed (.childExit k) { p with children := p.children.eraseIdx k } []
  | killed (hp : p.phase = .starting) : Moves p closed .interrupt { p with phase := .ended } []
  | interrupted {unsent} (hp : (p.phase = .idle ∨ ∃ clientID, p.phase = .handling clientID) ∧ unsent = false ∨
        (∃ clientID, p.phase = .opened clientID) ∧ unsent = true) : Moves p closed .interrupt
      { p with phase := .stopping unsent, children := p.children.map interruptChild } []
  | stopped {unsent} (ok : Bool) (hp : p.phase = .stopping unsent) :
      Moves p closed (.stop ok) { p with phase := .ended } (p.farewell unsent ok)
  | childStopped {k clientID unsent} (ok : Bool)
      (hk : p.children[k]? = some ⟨clientID, .stopping unsent⟩) :
      Moves p closed (.childStop k ok) { p with children := p.children.eraseIdx k } (p.farewell unsent ok)

theorem registered_nil : registered [] = false := by decide +kernel

theorem clientOf_nil : clientOf [] = none := by decide +kernel

theorem step_moves {p p' : Proxy} {closed : Bool} {action : ProxyAction} {requests : List Request}
    (h : p.step closed action = some (p', requests)) : Moves p closed action p' requests := by
  cases action with
  | recv =>
    simp only [step] at h
    split at h <;> cases h
    · next hi hp => simp only [receive, hp]; exact .response hp hi
    · next line rest hi hp =>
      cases hc : clientOf line with
      | some clientID => simp only [receive, hp, hc]; exact .request hp hi hc
      | none => simp only [receive, hp, hc]; exact .garbled hp hi hc
  | eof =>
    simp only [step] at h
    split_ifs at h with hg
    obtain ⟨hc, hi, hp⟩ := hg
    cases h
    have he : p.receive [] = { p with phase := .ended } := by
      rcases hp with hp | hp <;> simp [receive, hp, registered_nil, clientOf_nil]
    rw [he]
    exact .hangup hc hi hp
  | create ok =>
    simp only [step] at h
    split at h <;> cases h
    next hp => exact .created ok hp
  | fork ok =>
    simp only [step] at h
    split at h
    · next hp =>
      cases ok <;> cases h
      · exact .unforked hp
      · exact .forked hp
    · cases h
  | service k ok =>
    simp only [step] at h
    split at h
    · next hk =>
      cases ok <;> cases h
      · exact .failed hk
      · exact .connected hk
    · cases h
  | childExit k =>
    simp only [step] at h
    split at h <;> cases h
    next hk => exact .exited hk
  | interrupt =>
    simp only [step] at h
    split at h <;> cases h
    · next hp => exact .killed hp
    · next hp => exact .interrupted (Or.inl ⟨Or.inl hp, rfl⟩)
    · next hp => exact .interrupted (Or.inl ⟨Or.inr ⟨_, hp⟩, rfl⟩)
    · next hp => exact .interrupted (Or.inr ⟨⟨_, hp⟩, rfl⟩)
  | stop ok =>
    simp only [step] at h
    split at h <;> cases h
    next hp => exact .stopped ok hp
  | childStop k ok =>
    simp only [step] at h
    split at h <;> cases h
    next hk => exact .childStopped ok hk

end Proxy

/-! ## The calls a step stands for -/

/-- What a process has sent first on a descriptor; nothing, when it only closes it. -/
def firstSent (fd : Int) (calls : List Call) : Bytes :=
  (calls.findSome? fun
    | .send f msg => if f = fd then some msg else none
    | _ => none).getD []

namespace Proxy

/-- A step, with what has reached the broker so far. -/
def turn (closed : Bool) (s : Proxy × List Request) (action : ProxyAction) : Option (Proxy × List Request) :=
  (s.1.step closed action).map fun (p', requests) => (p', s.2 ++ requests)

theorem turn_some {closed : Bool} {p p' : Proxy} {sent requests : List Request} {action : ProxyAction}
    (h : p.step closed action = some (p', requests)) :
    turn closed (p, sent) action = some (p', sent ++ requests) := by
  simp only [turn, h]
  rfl

/-- Without a new connection, `handleConnectRequest` makes no call. -/
theorem handleConnectRequest_unconnected {p : Proxy} {clientID : Bytes} (hp : p.phase = .handling clientID)
    (closed : Bool) {newProxyConnection : Int} (hcon : newProxyConnection < 0) (forked : Bool)
    (serviceConnection : Int) :
    turn closed (p, []) (.create false) = some ({ p with phase := .idle }, []) ∧
      handleConnectRequest clientID newProxyConnection forked serviceConnection = [] := by
  constructor
  · have hstep : p.step closed (.create false) = some ({ p with phase := .idle }, []) := by
      simp only [step, hp]
      rfl
    exact turn_some hstep
  · rw [handleConnectRequest, if_pos hcon]

/-- The thread's two steps and the one of its child come to the calls of `handleConnectRequest`. -/
theorem handleConnectRequest_steps {p : Proxy} {clientID : Bytes} (hp : p.phase = .handling clientID)
    (closed : Bool) (newProxyConnection : Fd) (forked : Bool) (serviceConnection : Int) :
    ∃ request,
      Transition.exec (turn closed) (p, []) (.create true :: .fork forked ::
          if forked then [.service p.children.length (decide (0 ≤ serviceConnection))] else []) =
        some ({ p with
          phase := .idle
          children := p.children ++
            if forked = true ∧ 0 ≤ serviceConnection then [⟨clientID, .session⟩] else [] }, [request]) ∧
      ∀ c, Arrival.line ⟨c, request⟩ = firstSent newProxyConnection
        ((handleConnectRequest clientID newProxyConnection forked serviceConnection).flatMap Effect.calls) := by
  have hcon : ¬ (newProxyConnection : Int) < 0 := by omega
  rw [handleConnectRequest, if_neg hcon]
  have hcreate : p.step closed (.create true) = some ({ p with phase := .opened clientID }, []) := by
    simp only [step, hp]
    rfl
  have hexec : ∀ as, Transition.exec (turn closed) (p, []) (.create true :: as) =
      Transition.exec (turn closed) ({ p with phase := .opened clientID }, []) as := by
    intro as
    rw [Transition.exec, turn_some hcreate]
    rfl
  rw [hexec]
  cases forked with
  | false => exact ⟨none, by simp [Transition.exec, turn, step], fun c => rfl⟩
  | true =>
    by_cases hs : 0 ≤ serviceConnection
    · refine ⟨some (.connectionCreated, clientID), ?_, ?_⟩
      · simp [Transition.exec, turn, step, hs]
      · intro c
        have hs' : ¬ serviceConnection < 0 := by omega
        simp [firstSent, connectService, report, hs', Effect.calls, Arrival.line, makeConnectionCreatedRequest,
          Kind.text]
    · refine ⟨some (.connectionFailed, clientID), ?_, ?_⟩
      · simp [Transition.exec, turn, step, hs, List.eraseIdx_append_of_length_le]
      · intro c
        have hs' : serviceConnection < 0 := by omega
        simp [firstSent, connectService, report, hs', Effect.calls, Arrival.line, makeConnectionFailedRequest,
          Kind.text]

/-- What `shutdown` sends is the unregister request of `farewell`. -/
theorem shutdown_farewell (p : Proxy) (unsent : Bool) (connection newProxyConnection : Int) (c : Conn) :
    (p.farewell unsent (decide (newProxyConnection > 0))).map (fun r => Arrival.line ⟨c, r⟩) =
      (if newProxyConnection > 0 then
        [firstSent newProxyConnection (shutdown p.id connection newProxyConnection)] else []) ++
      (if unsent then [[]] else []) := by
  by_cases hcon : newProxyConnection > 0
  · cases unsent <;>
      simp [farewell, hcon, shutdown, firstSent, Arrival.line, makeUnregisterRequest, Kind.text]
  · cases unsent <;> simp [farewell, hcon, Arrival.line]

end Proxy

end VirtualSocket.Rendezvous
