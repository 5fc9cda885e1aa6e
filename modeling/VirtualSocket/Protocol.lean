import VirtualSocket.Json.Flat

/- protocol.cpp: the five requests and the response, each one line holding a flat
   JSON object, and the accessors the three programs read them with. Every
   accessor goes through the non-const `operator[]`, so it throws on a value
   that is neither an object nor null, and adds a missing member as null; that
   addition changes no later answer (`subscript_stable`), so the accessors below
   return the answer only. -/
namespace VirtualSocket
open Json

namespace Protocol

def packetSize : Nat := 1024

def register : Bytes := str "register"
def unregister : Bytes := str "unregister"
def connect : Bytes := str "connect"
def connectionCreated : Bytes := str "connection_created"
def connectionFailed : Bytes := str "connection_failed"
def ok : Bytes := str "ok"
def error : Bytes := str "error"

def type : Bytes := str "type"
def status : Bytes := str "status"
def nodeId : Bytes := str "node_id"
def errorMessage : Bytes := str "error_message"

/-- The five request types. -/
inductive Kind where
  | register
  | unregister
  | connect
  | connectionCreated
  | connectionFailed
  deriving DecidableEq, Repr

def Kind.text : Kind → Bytes
  | .register => Protocol.register
  | .unregister => Protocol.unregister
  | .connect => Protocol.connect
  | .connectionCreated => Protocol.connectionCreated
  | .connectionFailed => Protocol.connectionFailed

/-- The request type a `type` member names. -/
def Kind.ofText (t : Bytes) : Option Kind :=
  if t = Protocol.register then some .register
  else if t = Protocol.unregister then some .unregister
  else if t = Protocol.connect then some .connect
  else if t = Protocol.connectionCreated then some .connectionCreated
  else if t = Protocol.connectionFailed then some .connectionFailed
  else none

def makeRequest (type nodeId : Bytes) : Bytes :=
  dump (assign Protocol.nodeId nodeId (assign Protocol.type type [])) ++ [newline]

def makeRegisterRequest (id : Bytes) : Bytes := makeRequest register id
def makeUnregisterRequest (id : Bytes) : Bytes := makeRequest unregister id
def makeConnectRequest (id : Bytes) : Bytes := makeRequest connect id
def makeProxyConnectRequest (id : Bytes) : Bytes := makeRequest connect id
def makeConnectionCreatedRequest (clientId : Bytes) : Bytes := makeRequest connectionCreated clientId
def makeConnectionFailedRequest (clientId : Bytes) : Bytes := makeRequest connectionFailed clientId

def makeResponse (success : Bool) (errMsg : Bytes) : Bytes :=
  let res := assign status (if success then ok else error) []
  dump (if success then res else assign errorMessage errMsg res) ++ [newline]

structure Request where
  j : Json

namespace Request

/-- The constructor from a request string. -/
def ofBytes (reqJson : Bytes) : Except Exn Request := do
  let j ← parse reqJson
  pure ⟨j⟩

/-- `j[TYPE] == type`, the comparison behind the five predicates. -/
def hasType (r : Request) (type : Bytes) : Except Exn Bool := do
  let (v, _) ← r.j.subscript Protocol.type
  pure (v.eqString type)

def isConnectRequest (r : Request) : Except Exn Bool := r.hasType connect
def isRegisterRequest (r : Request) : Except Exn Bool := r.hasType register
def isUnregisterRequest (r : Request) : Except Exn Bool := r.hasType unregister
def isConnectionCreatedRequest (r : Request) : Except Exn Bool := r.hasType connectionCreated
def isConnectionFailedRequest (r : Request) : Except Exn Bool := r.hasType connectionFailed

def getServerID (r : Request) : Except Exn Bytes := do
  let (v, _) ← r.j.subscript nodeId
  v.toBytes

def getClientID (r : Request) : Except Exn Bytes := do
  let (v, _) ← r.j.subscript nodeId
  v.toBytes

/-- `number` is how `dump` writes a number. -/
def toString (number : Bytes → Bytes) (r : Request) : Bytes := dumpValue number r.j ++ [newline]

end Request

structure Response where
  j : Json

namespace Response

/-- The constructor from a response string. -/
def ofBytes (resJson : Bytes) : Except Exn Response := do
  let j ← parse resJson
  pure ⟨j⟩

def isOK (r : Response) : Except Exn Bool := do
  let (v, _) ← r.j.subscript status
  pure (v.eqString ok)

def isError (r : Response) : Except Exn Bool := do
  let (v, _) ← r.j.subscript status
  pure (v.eqString error)

def getErrorMessage (r : Response) : Except Exn Bytes := do
  let (v, _) ← r.j.subscript errorMessage
  v.toBytes

def toString (number : Bytes → Bytes) (r : Response) : Bytes := dumpValue number r.j ++ [newline]

end Response
end Protocol

/-! ## The member `operator[]` adds -/

namespace Json

theorem lookup_assign {β : Type} (k k' : Bytes) (v : β) (ms : List (Bytes × β)) :
    (assign k v ms).lookup k' = if k' = k then some v else ms.lookup k' := by
  induction ms with
  | nil =>
    by_cases h : k' = k
    · simp [assign, h]
    · have hb : (k' == k) = false := by simpa using h
      simp [assign, h, List.lookup_cons, hb]
  | cons m ms ih =>
    obtain ⟨k0, v0⟩ := m
    unfold assign
    split_ifs with h1 h2 h3 h4 h5 <;> simp only [List.lookup_cons, ih] <;> grind

/-- Asking an object for one member answers every later question as before. -/
theorem subscript_stable {j j' v : Json} {k : Bytes} (h : j.subscript k = .ok (v, j')) (k' : Bytes) :
    (j'.subscript k').map Prod.fst = (j.subscript k').map Prod.fst := by
  cases j with
  | null =>
    obtain ⟨rfl, rfl⟩ := Prod.mk.inj (Except.ok.inj h)
    by_cases hk : k' = k
    · subst hk; simp [subscript, pure, Except.pure, Except.map]
    · have hb : (k' == k) = false := by simpa using hk
      simp [subscript, List.lookup_cons, hb, pure, Except.pure, Except.map]
  | object ms =>
    unfold subscript at h
    simp only at h
    split at h
    · obtain ⟨rfl, rfl⟩ := Prod.mk.inj (Except.ok.inj h)
      rfl
    · next hl =>
      obtain ⟨rfl, rfl⟩ := Prod.mk.inj (Except.ok.inj h)
      simp only [subscript, lookup_assign]
      by_cases hk : k' = k
      · subst hk; simp [hl, pure, Except.pure, Except.map]
      · simp only [hk, if_false]
        cases ms.lookup k' <;> rfl
  | _ => cases h

end Json

namespace Protocol

/-! ## Made lines read back -/

theorem kind_text_ofText (k : Kind) : Kind.ofText k.text = some k := by
  cases k <;> decide

/-- The members of a request, in the order `dump` writes them. -/
def requestMembers (type nodeId : Bytes) : List (Bytes × Bytes) :=
  [(Protocol.nodeId, nodeId), (Protocol.type, type)]

def responseMembers (success : Bool) (errMsg : Bytes) : List (Bytes × Bytes) :=
  if success then [(status, ok)] else [(errorMessage, errMsg), (status, error)]

theorem requestMembers_ne_nil (t id : Bytes) : requestMembers t id ≠ [] := List.cons_ne_nil _ _

theorem responseMembers_ne_nil (success : Bool) (errMsg : Bytes) : responseMembers success errMsg ≠ [] := by
  cases success <;> exact List.cons_ne_nil _ _

theorem makeRequest_eq (t id : Bytes) :
    makeRequest t id = dump (requestMembers t id) ++ [newline] := rfl

theorem makeResponse_eq (success : Bool) (errMsg : Bytes) :
    makeResponse success errMsg = dump (responseMembers success errMsg) ++ [newline] := by
  cases success <;> rfl

/-- The value a request line parses to. -/
def requestJson (type nodeId : Bytes) : Json :=
  .object [(Protocol.nodeId, .string nodeId), (Protocol.type, .string type)]

def responseJson (success : Bool) (errMsg : Bytes) : Json :=
  .object (if success then [(status, .string ok)]
    else [(errorMessage, .string errMsg), (status, .string error)])

theorem addMembers_request (t id : Bytes) :
    Json.object (addMembers (requestMembers t id) []) = requestJson t id := rfl

theorem addMembers_response (success : Bool) (errMsg : Bytes) :
    Json.object (addMembers (responseMembers success errMsg) []) = responseJson success errMsg := by
  cases success <;> rfl

theorem parse_line {kvs : List (Bytes × Bytes)} (hk : kvs ≠ []) :
    parse (cstr (dump kvs ++ [newline])) = .ok (.object (addMembers kvs [])) := by
  have hend : (scan (cstr [newline])).1 = .endOfInput := by decide +kernel
  have := parse_dump hk (b := []) rfl (cstr [newline])
  rwa [List.nil_append, if_pos hend, ← cstr_append (dump_no_nul kvs)] at this

theorem parse_request (t id : Bytes) : parse (cstr (makeRequest t id)) = .ok (requestJson t id) := by
  rw [makeRequest_eq, parse_line (requestMembers_ne_nil t id), addMembers_request]

theorem parse_response (success : Bool) (errMsg : Bytes) :
    parse (cstr (makeResponse success errMsg)) = .ok (responseJson success errMsg) := by
  rw [makeResponse_eq, parse_line (responseMembers_ne_nil success errMsg), addMembers_response]

/-- A request line begins with `{"n`, a response line does not. -/
theorem makeResponse_ne_makeRequest (success : Bool) (errMsg t id : Bytes) :
    makeResponse success errMsg ≠ makeRequest t id := by
  intro h
  have h2 := congrArg (fun s => s[2]?) h
  have hreq : (makeRequest t id)[2]? = some 0x6e := rfl
  have hres : (makeResponse success errMsg)[2]? = some (if success then 0x73 else 0x65) := by
    cases success <;> rfl
  simp only [hreq, hres] at h2
  cases success <;> exact absurd h2 (by decide)

end Protocol
end VirtualSocket
