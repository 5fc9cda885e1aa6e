import VirtualSocket.Registration
import VirtualSocket.Relay

/- The system with its relays and the data they carry. A session takes three of them:
   the `ClientProxy` between its application and the broker, the child of the broker
   between the connections of client and service, and the child of the service proxy
   between the broker and the service. Each has its own copy of a descriptor table:
   the broker's child has the parent's as it was at the fork, whatever the parent
   closes and reuses later. The streams of a connection to the broker are those
   behind the line that opened it and the response to that, since each line is
   received alone. A socket that fails or is closed shows in a `recv` or a `send`
   that fails, which may happen at any time. No process is interrupted. -/
namespace VirtualSocket

variable {κ : Type}

/-- The relays a forked child starts: the descriptor table, and the two descriptors. -/
def Call.relayed (fds : Int → Option κ) : List Call → List ((Int → Option κ) × Int × Int)
  | [] => []
  | .exit :: _ => []
  | .facilitateConnection clientFd serverFd :: cs => (fds, clientFd, serverFd) :: relayed fds cs
  | c :: cs => relayed (c.run fds).1 cs

/-- The relays of the children forked in a handling, each on a copy of the table as it is then. -/
def Effect.relayed (fds : Int → Option κ) : List Effect → List ((Int → Option κ) × Int × Int)
  | [] => []
  | .call c :: es => relayed (c.run fds).1 es
  | .fork child :: es => Call.relayed fds child ++ relayed fds es

/-- The relay of a client proxy, and that of a service proxy's child. -/
theorem relayed_handleRequest (fds : Int → Option κ) (requestFd connection : Int) :
    Call.relayed fds (ClientProxy.handleRequest requestFd connection) = [(fds, requestFd, connection)] := rfl

theorem relayed_connectService (fds : Int → Option κ) (clientID : Bytes) (newProxyConnection : Int)
    {serviceConnection : Int} (h : 0 ≤ serviceConnection) :
    Call.relayed fds (ServiceProxy.connectService clientID newProxyConnection serviceConnection) =
      [(fds, newProxyConnection, serviceConnection)] := by
  have hs : ¬ serviceConnection < 0 := by omega
  have hsend : ∀ msg, ((Call.send newProxyConnection msg).run fds).1 = fds := by
    intro msg
    simp only [Call.run]
    split <;> rfl
  rw [ServiceProxy.connectService, if_neg hs]
  show Call.relayed ((Call.send newProxyConnection _).run fds).1 _ = _
  rw [hsend]
  rfl

/-- A relay between open descriptors is a splice of their connections. -/
theorem Call.spliced_of_relayed {fds t : Int → Option κ} {f g : Int} {c n : κ} {cs : List Call}
    (h : (t, f, g) ∈ Call.relayed fds cs) (hf : t f = some c) (hg : t g = some n) :
    .spliced c n ∈ Call.runAll fds cs := by
  induction cs generalizing fds with
  | nil => cases h
  | cons call cs ih =>
    cases call with
    | exit => cases h
    | facilitateConnection f' g' =>
      show Event.spliced c n ∈ _ ++ _
      rw [List.mem_append]
      rcases List.mem_cons.mp h with heq | h
      · cases heq
        left
        rw [Call.run_facilitate hf hg]
        exact List.mem_singleton_self _
      · right
        apply ih
        have hfds : ((Call.facilitateConnection f' g').run fds).1 = fds := by
          simp only [Call.run]
          split <;> rfl
        rwa [hfds]
    | send fd msg => exact List.mem_append_right _ (ih h)
    | close fd => exact List.mem_append_right _ (ih h)

theorem Effect.spliced_of_relayed {fds t : Int → Option κ} {f g : Int} {c n : κ} {es : List Effect}
    (h : (t, f, g) ∈ Effect.relayed fds es) (hf : t f = some c) (hg : t g = some n) :
    .spliced c n ∈ (Effect.runAll fds es).2 := by
  induction es generalizing fds with
  | nil => cases h
  | cons e es ih =>
    cases e with
    | call call => exact List.mem_append_right _ (ih h)
    | fork child =>
      rcases List.mem_append.mp h with h | h
      · exact List.mem_append_left _ (Call.spliced_of_relayed h hf hg)
      · exact List.mem_append_right _ (ih h)

/-- One request starts at most one relay. -/
theorem relayed_dispatch (s : Server) (fds : Int → Option κ) (fd : Fd) (m : Server.Message) (forked : Bool) :
    (Effect.relayed fds (s.dispatch fd m forked).2).length ≤ 1 := by
  obtain ⟨kind, id⟩ := m
  have hreport : ∀ success, (Effect.relayed fds
      ((s.updateConnectionStatus id fd success forked).2 ++ [.call (.close fd)])).length ≤ 1 := by
    intro success
    by_cases hp : id ∈ s.pendingConnections
    · cases forked <;> cases success <;>
        simp [Server.updateConnectionStatus, hp, Effect.relayed, Call.relayed, Server.notifyClient]
    · simp [Server.updateConnectionStatus, hp, Effect.relayed]
  rcases kind with _ | _ | _ | _ | _ | _
  case some.connectionCreated => exact hreport true
  case some.connectionFailed => exact hreport false
  case none => simp [Server.dispatch, Effect.relayed]
  all_goals
    simp only [Server.dispatch]
    split <;> simp [Effect.relayed]

namespace Rendezvous
open Json Protocol Server Broker Function

/-- The connections: those to the broker, the one the application of a client has to its
`ClientProxy`, and the one a child of a service proxy has to its service. The last two
go by the connection to the broker they are relayed to. -/
inductive Wire where
  | broker (c : Conn)
  | app (c : Conn)
  | service (n : Conn)
  deriving DecidableEq

structure World where
  system : System
  relays : List (Relay Wire)
  net : Net Wire

inductive Happening where
  | system (a : Action)
  | clientSession (c : Conn) (requestFd connection : Fd)
  | serviceSession (i k : Nat) (newProxyConnection serviceConnection : Fd)
  | thread (j : Nat) (d : Dir) (a : ThreadStep)
  | appWrites (c : Conn) (bytes : Bytes)
  | appReads (c : Conn) (n : Nat)
  | serviceWrites (n : Conn) (bytes : Bytes)
  | serviceReads (n : Conn) (k : Nat)
  deriving DecidableEq

/-- A table that holds two descriptors. -/
def pairTable (f g : Fd) (x y : Wire) : Int → Option Wire :=
  update (update (fun _ => none) (f : Int) (some x)) (g : Int) (some y)

/-- A child of the broker starts its threads, if both descriptors are open. -/
def spawn : (Int → Option Conn) × Int × Int → List (Relay Wire)
  | (fds, f, g) =>
    match fds f, fds g with
    | some c, some n =>
      [Relay.facilitateConnection (fun fd => (fds fd).map .broker) f g (.broker c) (.broker n)]
    | _, _ => []

/-- The relays that the children forked by the broker start. -/
def System.spawned (s : System) : Action → List (Relay Wire)
  | .brokerHandle i fd forked =>
    match s.arrivals[i]? with
    | none => []
    | some a =>
      match s.broker.server.handleRequest fd (.bytes a.line) forked with
      | .error _ => []
      | .ok h => (Effect.relayed (update s.broker.fds fd (some a.conn)) h.effects).flatMap spawn
  | _ => []

/-- The step is neither an interrupt nor the start of a session at a service. -/
def Action.plain : Action → Bool
  | .proxy _ .interrupt | .proxy _ (.service _ true) => false
  | _ => true

/-- The client on the connection has asked for a service and been told OK. -/
def System.accepted (s : System) (c : Conn) : Bool :=
  (s.broker.history.any fun e => e.conn = c ∧ e.message.map Message.kind = some (some .connect)) &&
    okResponse ∈ messagesOn c s.broker.history

namespace World

def init : World := ⟨System.init, [], fun _ _ => .empty⟩

def step (w : World) : Happening → Option World
  | .system a =>
    if a.plain then
      -- the relays of the children forked in this step start at once
      (w.system.step a).map fun s => { w with system := s, relays := w.relays ++ w.system.spawned a }
    else none
  | .clientSession c requestFd connection =>
    if requestFd ≠ connection ∧ w.system.accepted c ∧ Wire.app c ∉ w.relays.map Relay.client then
      some { w with relays := w.relays ++ [Relay.facilitateConnection
        (pairTable requestFd connection (.app c) (.broker c)) requestFd connection (.app c) (.broker c)] }
    else none
  | .serviceSession i k newProxyConnection serviceConnection =>
    if newProxyConnection ≠ serviceConnection then
      let n := w.system.next
      (w.system.step (.proxy i (.service k true))).map fun s => { w with
        system := s
        relays := w.relays ++ [Relay.facilitateConnection
          (pairTable newProxyConnection serviceConnection (.broker n) (.service n))
          newProxyConnection serviceConnection (.broker n) (.service n)] }
    else none
  | .thread j d a =>
    match w.relays[j]? with
    | none => none
    | some r => (r.step w.net d a).map fun (r', net) => { w with relays := w.relays.set j r', net }
  | .appWrites c bytes => some { w with net := w.net.push (.app c) .toServer bytes }
  | .appReads c n => some { w with net := w.net.take (.app c) .toClient n }
  | .serviceWrites n bytes => some { w with net := w.net.push (.service n) .toClient bytes }
  | .serviceReads n k => some { w with net := w.net.take (.service n) .toServer k }

end World

end Rendezvous

end VirtualSocket
