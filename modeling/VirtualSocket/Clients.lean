import VirtualSocket.NetworkUtil

/- service_proxy.cpp and client_proxy.cpp: the two programs at the ends of a
   session, as functions from what the kernel gives them (descriptors, `recv`
   results, the outcome of a fork) to what they do. `recv` results stand in a
   list; a program that has used them up is blocked in its next `recv`. -/
namespace VirtualSocket
open Json Protocol NetworkUtil

namespace ServiceProxy

/-- How far `start` has come. -/
inductive Outcome where
  | notConnected
  | awaitingResponse
  | refused (errMsg : Bytes)
  | serving (handled : List Bytes)
  deriving DecidableEq

/-- The `while(1)` of `start`: the client IDs that `handleConnectRequest` is called with. -/
def connectLoop : List Recv → Except Exn (List Bytes)
  | [] => pure []
  | received :: rest => do
    match ← readRequest received with
    | none => connectLoop rest
    | some connectReq =>
      let clientID ← connectReq.getClientID
      let handled ← connectLoop rest
      pure (clientID :: handled)

def start (connection : Int) (received : List Recv) : Except Exn Outcome :=
  if connection < 0 then pure .notConnected
  else
    match received with
    | [] => pure .awaitingResponse
    | response :: rest => do
      let res ← sendRequest response
      if ← res.isOK then
        let handled ← connectLoop rest
        pure (.serving handled)
      else
        let errMsg ← res.getErrorMessage
        pure (.refused errMsg)

/-- The line the forked child reports with. -/
def report (clientID : Bytes) (serviceConnection : Int) : Bytes :=
  if serviceConnection < 0 then makeConnectionFailedRequest clientID
  else makeConnectionCreatedRequest clientID

/-- The calls of the forked child; `serviceConnection` is its connection to the local service. -/
def connectService (clientID : Bytes) (newProxyConnection serviceConnection : Int) : List Call :=
  if serviceConnection < 0 then
    [.send newProxyConnection (report clientID serviceConnection), .close newProxyConnection, .exit]
  else
    [.send newProxyConnection (report clientID serviceConnection),
      .facilitateConnection newProxyConnection serviceConnection, .exit]

/-- A failed `createConnection` is only printed; a failed fork takes the parent's branch. -/
def handleConnectRequest (clientID : Bytes) (newProxyConnection : Int) (forked : Bool)
    (serviceConnection : Int) : List Effect :=
  if newProxyConnection < 0 then []
  else
    (if forked then [.fork (connectService clientID newProxyConnection serviceConnection)] else []) ++
      [.call (.close newProxyConnection)]

/-- The interrupt handler, in the process that registered and in every child it forked since. -/
def shutdown (id : Bytes) (connection newProxyConnection : Int) : List Call :=
  (if newProxyConnection > 0 then
    [.send newProxyConnection (makeUnregisterRequest id), .close newProxyConnection] else []) ++
    (if connection > 0 then [.close connection] else []) ++ [.exit]

/-! ## One message -/

theorem connectLoop_error {c : Bytes} {e : Exn} (h : Json.parse (cstr c) = .error e) (rest : List Recv) :
    connectLoop (.bytes c :: rest) = .error e := by
  simp only [connectLoop, readRequest, Request.ofBytes, h, bind, Except.bind]

theorem connectLoop_request {c t id : Bytes} (h : Json.parse (cstr c) = .ok (requestJson t id)) (rest : List Recv) :
    connectLoop (.bytes c :: rest) = (do
      let handled ← connectLoop rest
      pure (id :: handled)) := by
  have hid : (Request.mk (requestJson t id)).getClientID = .ok id := rfl
  simp only [connectLoop, readRequest, Request.ofBytes, h, hid, bind, Except.bind, pure, Except.pure]

theorem start_refusing {c : Bytes} {e : Exn} (h : Json.parse (cstr c) = .error e) (connection : Fd)
    (rest : List Recv) : start connection (.bytes c :: rest) = .error e := by
  have hcon : ¬ (connection : Int) < 0 := by omega
  simp only [start, hcon, if_false, sendRequest, Response.ofBytes, h, bind, Except.bind]

theorem start_ok {c : Bytes} (h : Json.parse (cstr c) = .ok (responseJson true [])) (connection : Fd)
    (rest : List Recv) : start connection (.bytes c :: rest) = (do
      let handled ← connectLoop rest
      pure (.serving handled)) := by
  have hcon : ¬ (connection : Int) < 0 := by omega
  have hok : (Response.mk (responseJson true [])).isOK = .ok true := by
    simp [Response.isOK, responseJson, subscript, eqString, bind, Except.bind, pure, Except.pure]
  simp only [start, hcon, if_false, sendRequest, Response.ofBytes, h, hok, bind, Except.bind, pure,
    Except.pure, if_true]

end ServiceProxy

namespace ClientProxy

inductive Outcome where
  | notConnected
  | refused (errMsg : Bytes)
  | listening
  deriving DecidableEq

def start (connection : Int) (response : Recv) : Except Exn Outcome :=
  if connection < 0 then pure .notConnected
  else do
    let connectRes ← sendRequest response
    if ← connectRes.isOK then pure .listening
    else
      let errMsg ← connectRes.getErrorMessage
      pure (.refused errMsg)

/-- The local application has connected. -/
def handleRequest (requestFd connection : Int) : List Call :=
  [.facilitateConnection requestFd connection, .exit]

end ClientProxy
end VirtualSocket
