import Mathlib.Data.Finmap
import Mathlib.Data.Finset.Basic
import VirtualSocket.NetworkUtil

/- server.cpp: the broker's `handleRequest`, with the two containers it keeps. One
   handling returns the tables it leaves together with the calls the parent makes
   and the calls of the child it forks; what those calls do to connections is
   `Broker`'s business. An exception
   is the one `json.hpp` throws: nothing between here and `main` catches it.
   `handleRequest_typed`: on a buffer that holds an object with a string type and
   a string node_id, the handling is `dispatch`, which the rest of the
   development reads instead of the source's order of tests. -/
namespace VirtualSocket
open Json Protocol

/-- The two tables of the broker. -/
structure Server where
  serverMap : Finmap fun _ : Bytes => Fd
  pendingConnections : Finset Bytes

/-- What one handling comes to: the tables it leaves, the calls, the return value. -/
structure Handled where
  server : Server
  effects : List Effect
  ret : Int

namespace Server

def init : Server := ⟨∅, ∅⟩

def idTaken : Bytes := makeResponse false (str "ID already registered")
def idNotRegistered : Bytes := makeResponse false (str "ID not registered")
def couldNotConnect : Bytes := makeResponse false (str "Could not connect to service")
def unexpectedRequest : Bytes := makeResponse false (str "REGISTER or CONNECT request expected")
def okResponse : Bytes := makeResponse true []

def registerServer (s : Server) (id : Bytes) (serverFd : Fd) : Int × Server :=
  if id ∈ s.serverMap then (-1, s)
  else (0, { s with serverMap := s.serverMap.insert id serverFd })

/-- The calls of the child that `updateConnectionStatus` forks. -/
def notifyClient (clientFd serverFd : Int) (success : Bool) : List Call :=
  if success then
    [.send clientFd okResponse, .facilitateConnection clientFd serverFd, .exit]
  else
    [.send clientFd couldNotConnect, .close clientFd, .close serverFd, .exit]

/-- `forked` says whether `fork` made a child; a fork that fails returns -1, which
the source takes for the parent's branch. -/
def updateConnectionStatus (s : Server) (clientID : Bytes) (serverFd : Fd) (success forked : Bool) :
    Server × List Effect :=
  if clientID ∈ s.pendingConnections then
    let clientFd := atoi clientID
    ({ s with pendingConnections := s.pendingConnections.erase clientID },
      (if forked then [.fork (notifyClient clientFd serverFd success)] else []) ++
        [.call (.close clientFd)])
  else
    (s, [.call (.send serverFd idNotRegistered)])

def handleRequest (s : Server) (requestFd : Fd) (received : Recv) (forked : Bool) :
    Except Exn Handled := do
  match received with
  -- `perror` and nothing else: the descriptor is left open
  | .error => pure ⟨s, [], -1⟩
  | .bytes buf =>
    let req ← Request.ofBytes (cstr buf)
    if ← req.isRegisterRequest then
      let id ← req.getServerID
      let (failed, s') := s.registerServer id requestFd
      let res := if failed ≠ 0 then idTaken else okResponse
      -- either way the descriptor stays open
      pure ⟨s', [.call (.send requestFd res)], 0⟩
    else if ← req.isUnregisterRequest then
      let id ← req.getServerID
      let (s', closed) := match s.serverMap.lookup id with
        | some serverFd => ({ s with serverMap := s.serverMap.erase id }, [Effect.call (.close serverFd)])
        | none => (s, [])
      pure ⟨s', closed ++ [.call (.send requestFd okResponse), .call (.close requestFd)], 0⟩
    else if ← req.isConnectRequest then
      let id ← req.getServerID
      match s.serverMap.lookup id with
      | some serverFd =>
        let clientID := requestFd.toString
        let s' := { s with pendingConnections := insert clientID s.pendingConnections }
        -- the client hears of it when its service reports
        pure ⟨s', [.call (.send serverFd (makeProxyConnectRequest clientID))], 0⟩
      | none =>
        pure ⟨s, [.call (.send requestFd idNotRegistered), .call (.close requestFd)], 0⟩
    else if ← req.isConnectionCreatedRequest then
      let id ← req.getClientID
      let (s', effects) := s.updateConnectionStatus id requestFd true forked
      pure ⟨s', effects ++ [.call (.close requestFd)], 0⟩
    else if ← req.isConnectionFailedRequest then
      let id ← req.getClientID
      let (s', effects) := s.updateConnectionStatus id requestFd false forked
      pure ⟨s', effects ++ [.call (.close requestFd)], 0⟩
    else
      pure ⟨s, [.call (.send requestFd unexpectedRequest), .call (.close requestFd)], 0⟩

/-! ## Requests with a string type and a string node_id -/

/-- What such a request says; `kind` is `none` on a type the protocol does not know. -/
structure Message where
  kind : Option Kind
  nodeId : Bytes
  deriving DecidableEq

/-- The request a buffer holds, when it parses as an object with both strings. -/
def messageOf (buf : Bytes) : Option Message :=
  match parse (cstr buf) with
  | .ok (.object ms) =>
    match ms.lookup Protocol.type, ms.lookup Protocol.nodeId with
    | some (.string t), some (.string id) => some ⟨Kind.ofText t, id⟩
    | _, _ => none
  | _ => none

/-- The handling of such a request, by its kind. -/
def dispatch (s : Server) (requestFd : Fd) (m : Message) (forked : Bool) : Server × List Effect :=
  match m.kind with
  | some .register =>
    if m.nodeId ∈ s.serverMap then (s, [.call (.send requestFd idTaken)])
    else ({ s with serverMap := s.serverMap.insert m.nodeId requestFd },
      [.call (.send requestFd okResponse)])
  | some .unregister =>
    match s.serverMap.lookup m.nodeId with
    | some serverFd => ({ s with serverMap := s.serverMap.erase m.nodeId },
        [.call (.close serverFd), .call (.send requestFd okResponse), .call (.close requestFd)])
    | none => (s, [.call (.send requestFd okResponse), .call (.close requestFd)])
  | some .connect =>
    match s.serverMap.lookup m.nodeId with
    | some serverFd =>
      ({ s with pendingConnections := insert requestFd.toString s.pendingConnections },
        [.call (.send serverFd (makeProxyConnectRequest requestFd.toString))])
    | none => (s, [.call (.send requestFd idNotRegistered), .call (.close requestFd)])
  | some .connectionCreated =>
    let (s', effects) := s.updateConnectionStatus m.nodeId requestFd true forked
    (s', effects ++ [.call (.close requestFd)])
  | some .connectionFailed =>
    let (s', effects) := s.updateConnectionStatus m.nodeId requestFd false forked
    (s', effects ++ [.call (.close requestFd)])
  | none => (s, [.call (.send requestFd unexpectedRequest), .call (.close requestFd)])

theorem hasType_string {ms : List (Bytes × Json)} {t : Bytes} (h : ms.lookup Protocol.type = some (.string t))
    (t' : Bytes) : (Request.mk (.object ms)).hasType t' = .ok (decide (t = t')) := by
  simp [Request.hasType, subscript, h, eqString, beq_eq_decide, bind, Except.bind, pure, Except.pure]

theorem getServerID_string {ms : List (Bytes × Json)} {id : Bytes}
    (h : ms.lookup Protocol.nodeId = some (.string id)) :
    (Request.mk (.object ms)).getServerID = .ok id := by
  simp [Request.getServerID, subscript, h, toBytes, bind, Except.bind, pure, Except.pure]

theorem messageOf_some {buf : Bytes} {m : Message} (h : messageOf buf = some m) :
    ∃ ms t, parse (cstr buf) = .ok (.object ms) ∧ ms.lookup Protocol.type = some (.string t) ∧
      ms.lookup Protocol.nodeId = some (.string m.nodeId) ∧ m.kind = Kind.ofText t := by
  unfold messageOf at h
  split at h
  · next ms hp =>
    split at h
    · next t id ht hid =>
      obtain rfl := Option.some.inj h
      exact ⟨ms, t, hp, ht, hid, rfl⟩
    · cases h
  · cases h

/-- The order of the source's tests does not matter: a typed request is dispatched on its kind. -/
theorem handleRequest_typed {buf : Bytes} {m : Message} (h : messageOf buf = some m) (s : Server)
    (requestFd : Fd) (forked : Bool) :
    s.handleRequest requestFd (.bytes buf) forked =
      .ok ⟨(s.dispatch requestFd m forked).1, (s.dispatch requestFd m forked).2, 0⟩ := by
  obtain ⟨ms, t, hp, ht, hid, hk⟩ := messageOf_some h
  have hreq : Request.ofBytes (cstr buf) = .ok ⟨.object ms⟩ := by simp only [Request.ofBytes, hp]; rfl
  have hid' : (Request.mk (.object ms)).getClientID = .ok m.nodeId := getServerID_string hid
  unfold handleRequest dispatch
  simp only [hreq, hk, Request.isRegisterRequest, Request.isUnregisterRequest, Request.isConnectRequest,
    Request.isConnectionCreatedRequest, Request.isConnectionFailedRequest, hasType_string ht,
    getServerID_string hid, hid', registerServer, Kind.ofText, bind, Except.bind, pure, Except.pure]
  -- the tests in the source's order
  by_cases h1 : t = Protocol.register
  · by_cases hin : m.nodeId ∈ s.serverMap <;> simp [if_pos h1, hin]
  by_cases h2 : t = Protocol.unregister
  · cases hl : s.serverMap.lookup m.nodeId <;> simp [if_neg h1, if_pos h2]
  by_cases h3 : t = Protocol.connect
  · cases hl : s.serverMap.lookup m.nodeId <;> simp [if_neg h1, if_neg h2, if_pos h3]
  by_cases h4 : t = Protocol.connectionCreated
  · simp [if_neg h1, if_neg h2, if_neg h3, if_pos h4]
  by_cases h5 : t = Protocol.connectionFailed
  · simp [if_neg h1, if_neg h2, if_neg h3, if_neg h4, if_pos h5]
  · simp [if_neg h1, if_neg h2, if_neg h3, if_neg h4, if_neg h5]

/-- A request line received whole says what it was made to say. -/
theorem messageOf_line (t id : Bytes) : messageOf (makeRequest t id) = some ⟨Kind.ofText t, id⟩ := by
  simp only [messageOf, parse_request, requestJson]
  rfl

end Server
end VirtualSocket
