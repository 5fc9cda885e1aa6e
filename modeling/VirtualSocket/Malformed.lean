import VirtualSocket.Server

/- What arbitrary bytes do to the broker. `Answerable` is the exact set of `recv`
   results that `handleRequest` comes back from with everything but the sender's
   own connection as it was (`contained_iff`). Outside it an exception leaves
   `handleRequest`, and there is no handler above it, so the accept loop
   (`acceptConnections`) ends for everyone; a peer that connects and closes is enough
   (`contained_fails_on_hangup`). -/
namespace VirtualSocket
open Json Protocol

namespace Server

/-- The bytes are one of the five requests. -/
def IsRequest (received : Recv) : Prop :=
  ∃ buf m k, received = .bytes buf ∧ messageOf buf = some m ∧ m.kind = some k

/-- The calls touch the sender's connection only, and answer it with an error or close it. -/
def Dismissed (requestFd : Fd) (effects : List Effect) : Prop :=
  (∀ e ∈ effects, e = .call (.close requestFd) ∨ ∃ msg, e = .call (.send requestFd msg)) ∧
    (.call (.close requestFd) ∈ effects ∨
      ∃ errMsg, .call (.send requestFd (makeResponse false errMsg)) ∈ effects)

/-- The handling returns, and unless the bytes are a request it leaves both tables
and every other connection alone and dismisses the sender. -/
def Contained (s : Server) (requestFd : Fd) (received : Recv) (forked : Bool) : Prop :=
  ∃ h, s.handleRequest requestFd received forked = .ok h ∧
    (¬ IsRequest received → h.server = s ∧ Dismissed requestFd h.effects)

/-- Values the dispatch gets through: null, or an object that names a node as a
string whenever its type is one of the five. -/
def AnswerableJson : Json → Prop
  | .null => True
  | .object ms =>
    (∃ k : Kind, ms.lookup Protocol.type = some (.string k.text)) →
      ∃ id, ms.lookup Protocol.nodeId = some (.string id)
  | _ => False

def Answerable : Recv → Prop
  | .error => False
  | .bytes buf => ∃ j, parse (cstr buf) = .ok j ∧ AnswerableJson j

/-! ## The accessors on any value -/

/-- The member `operator[]` answers with, on a value it does not throw on. -/
def member (ms : List (Bytes × Json)) (key : Bytes) : Json := (ms.lookup key).getD .null

theorem hasType_object (ms : List (Bytes × Json)) (t : Bytes) :
    (Request.mk (.object ms)).hasType t = .ok ((member ms Protocol.type).eqString t) := by
  cases h : ms.lookup Protocol.type <;>
    simp [Request.hasType, subscript, member, h, bind, Except.bind, pure, Except.pure]

theorem getServerID_object (ms : List (Bytes × Json)) :
    (Request.mk (.object ms)).getServerID = (member ms Protocol.nodeId).toBytes := by
  cases h : ms.lookup Protocol.nodeId <;>
    simp [Request.getServerID, subscript, member, h, bind, Except.bind, pure, Except.pure]

theorem eqString_iff {v : Json} {t : Bytes} : v.eqString t = true ↔ v = .string t := by
  cases v <;> simp [eqString]

theorem member_string {ms : List (Bytes × Json)} {key s : Bytes} :
    member ms key = .string s ↔ ms.lookup key = some (.string s) := by
  cases h : ms.lookup key <;> simp [member, h]

/-- A value that is neither null nor an object has no `operator[]`. -/
theorem handleRequest_scalar {buf : Bytes} {j : Json} (hp : parse (cstr buf) = .ok j) (hn : j ≠ .null)
    (ho : ∀ ms, j ≠ .object ms) (s : Server) (requestFd : Fd) (forked : Bool) :
    s.handleRequest requestFd (.bytes buf) forked = .error .domainError := by
  have hreq : Request.ofBytes (cstr buf) = .ok ⟨j⟩ := by simp only [Request.ofBytes, hp]; rfl
  have hs : j.subscript Protocol.type = .error .domainError := by
    cases j with
    | null => exact absurd rfl hn
    | object ms => exact absurd rfl (ho ms)
    | _ => rfl
  simp only [handleRequest, hreq, Request.isRegisterRequest, Request.hasType, hs, bind, Except.bind]

theorem handleRequest_unparsed {buf : Bytes} {e : Exn} (hp : parse (cstr buf) = .error e) (s : Server)
    (requestFd : Fd) (forked : Bool) : s.handleRequest requestFd (.bytes buf) forked = .error e := by
  have hreq : Request.ofBytes (cstr buf) = .error e := by simp only [Request.ofBytes, hp]; rfl
  simp only [handleRequest, hreq, bind, Except.bind]

/-- The last branch: no test on the type holds. -/
theorem handleRequest_unknown {buf : Bytes} {j : Json} (hp : parse (cstr buf) = .ok j)
    (hj : j = .null ∨ ∃ ms, j = .object ms ∧ ∀ k : Kind, member ms Protocol.type ≠ .string k.text)
    (s : Server) (requestFd : Fd) (forked : Bool) :
    s.handleRequest requestFd (.bytes buf) forked =
      .ok ⟨s, [.call (.send requestFd unexpectedRequest), .call (.close requestFd)], 0⟩ := by
  have hreq : Request.ofBytes (cstr buf) = .ok ⟨j⟩ := by simp only [Request.ofBytes, hp]; rfl
  have hf : ∀ k : Kind, (Request.mk j).hasType k.text = .ok false := by
    intro k
    rcases hj with rfl | ⟨ms, rfl, hne⟩
    · rfl
    · rw [hasType_object, Bool.eq_false_iff.mpr fun h => hne k (eqString_iff.mp h)]
  have h1 : (Request.mk j).isRegisterRequest = .ok false := hf .register
  have h2 : (Request.mk j).isUnregisterRequest = .ok false := hf .unregister
  have h3 : (Request.mk j).isConnectRequest = .ok false := hf .connect
  have h4 : (Request.mk j).isConnectionCreatedRequest = .ok false := hf .connectionCreated
  have h5 : (Request.mk j).isConnectionFailedRequest = .ok false := hf .connectionFailed
  simp only [handleRequest, hreq, h1, h2, h3, h4, h5, bind, Except.bind, pure, Except.pure,
    Bool.false_eq_true, if_false]

/-- Each of the five branches converts node_id first, and the conversion throws. -/
theorem handleRequest_unnamed {buf : Bytes} {ms : List (Bytes × Json)} {k : Kind}
    (hp : parse (cstr buf) = .ok (.object ms)) (hk : ms.lookup Protocol.type = some (.string k.text))
    (hid : ∀ id, ms.lookup Protocol.nodeId ≠ some (.string id)) (s : Server) (requestFd : Fd)
    (forked : Bool) : s.handleRequest requestFd (.bytes buf) forked = .error .domainError := by
  have hreq : Request.ofBytes (cstr buf) = .ok ⟨.object ms⟩ := by simp only [Request.ofBytes, hp]; rfl
  have hv : (member ms Protocol.nodeId).toBytes = .error .domainError := by
    cases hm : member ms Protocol.nodeId with
    | string id => exact absurd (member_string.mp hm) (hid id)
    | _ => rfl
  have hs : (Request.mk (.object ms)).getServerID = .error .domainError := by rw [getServerID_object, hv]
  have hc : (Request.mk (.object ms)).getClientID = .error .domainError := hs
  unfold handleRequest
  simp only [hreq, hs, hc, Request.isRegisterRequest, Request.isUnregisterRequest, Request.isConnectRequest,
    Request.isConnectionCreatedRequest, Request.isConnectionFailedRequest, hasType_string hk,
    bind, Except.bind]
  cases k <;> rfl

/-! ## Exactly the answerable bytes -/

theorem unexpected_dismissed (requestFd : Fd) :
    Dismissed requestFd [.call (.send requestFd unexpectedRequest), .call (.close requestFd)] := by
  refine ⟨?_, Or.inl (by simp)⟩
  intro e he
  rcases List.mem_pair.mp he with rfl | rfl
  · exact Or.inr ⟨_, rfl⟩
  · exact Or.inl rfl

theorem contained_unknown {s : Server} {requestFd : Fd} {received : Recv} {forked : Bool}
    (h : s.handleRequest requestFd received forked =
      .ok ⟨s, [.call (.send requestFd unexpectedRequest), .call (.close requestFd)], 0⟩) :
    Contained s requestFd received forked :=
  ⟨_, h, fun _ => ⟨rfl, unexpected_dismissed requestFd⟩⟩

theorem not_contained_error {s : Server} {requestFd : Fd} {received : Recv} {forked : Bool} {e : Exn}
    (h : s.handleRequest requestFd received forked = .error e) :
    ¬ Contained s requestFd received forked := by
  rintro ⟨_, hh, _⟩
  rw [h] at hh
  cases hh

theorem answerable_iff {buf : Bytes} {j : Json} (hp : parse (cstr buf) = .ok j) :
    Answerable (.bytes buf) ↔ AnswerableJson j := by
  refine ⟨?_, fun h => ⟨j, hp, h⟩⟩
  rintro ⟨j', hj', h⟩
  rw [hp] at hj'
  exact Except.ok.inj hj' ▸ h

/-- On bytes that are not answerable an exception leaves `handleRequest`. -/
theorem handleRequest_throws {buf : Bytes} (h : ¬ Answerable (.bytes buf)) (s : Server) (requestFd : Fd)
    (forked : Bool) : ∃ e, s.handleRequest requestFd (.bytes buf) forked = .error e := by
  cases hp : parse (cstr buf) with
  | error e => exact ⟨e, handleRequest_unparsed hp s requestFd forked⟩
  | ok j =>
    rw [answerable_iff hp] at h
    cases j with
    | null => exact absurd trivial h
    | object ms =>
      obtain ⟨⟨k, hk⟩, hid⟩ := Classical.not_imp.mp h
      have hne : ∀ id, ms.lookup Protocol.nodeId ≠ some (.string id) := fun id hl => hid ⟨id, hl⟩
      exact ⟨_, handleRequest_unnamed hp hk hne s requestFd forked⟩
    | _ =>
      exact ⟨_, handleRequest_scalar hp Json.noConfusion (fun _ => Json.noConfusion) s requestFd forked⟩

theorem contained_of_answerable {buf : Bytes} (h : Answerable (.bytes buf)) (s : Server) (requestFd : Fd)
    (forked : Bool) : Contained s requestFd (.bytes buf) forked := by
  obtain ⟨j, hp, hj⟩ := h
  cases j with
  | null => exact contained_unknown (handleRequest_unknown hp (Or.inl rfl) s requestFd forked)
  | object ms =>
    by_cases hk : ∃ k : Kind, ms.lookup Protocol.type = some (.string k.text)
    · obtain ⟨id, hid⟩ := hj hk
      obtain ⟨k, hk⟩ := hk
      have hm : messageOf buf = some ⟨some k, id⟩ := by
        simp only [messageOf, hp, hk, hid, kind_text_ofText]
      exact ⟨_, handleRequest_typed hm s requestFd forked, fun hr => absurd ⟨buf, _, k, rfl, hm, rfl⟩ hr⟩
    · have hne : ∀ k : Kind, member ms Protocol.type ≠ .string k.text :=
        fun k hm => hk ⟨k, member_string.mp hm⟩
      exact contained_unknown (handleRequest_unknown hp (Or.inr ⟨ms, rfl, hne⟩) s requestFd forked)
  | _ => exact hj.elim

/-- For every state of the tables, answerable results and no others are contained. -/
theorem contained_iff (s : Server) (requestFd : Fd) (received : Recv) (forked : Bool) :
    Contained s requestFd received forked ↔ Answerable received := by
  cases received with
  | error =>
    refine ⟨fun ⟨h, hh, hd⟩ => ?_, False.elim⟩
    cases hh
    obtain ⟨-, -, hm | ⟨_, hm⟩⟩ := hd (by rintro ⟨_, _, _, h, _⟩; cases h) <;> cases hm
  | bytes buf =>
    refine ⟨?_, fun h => contained_of_answerable h s requestFd forked⟩
    intro h
    by_contra hn
    obtain ⟨e, he⟩ := handleRequest_throws hn s requestFd forked
    exact not_contained_error he h

/-- A peer that connects and closes: `recv` gives no bytes, and the parse of the
empty string throws. -/
theorem contained_fails_on_hangup : ¬ Contained init 4 (.bytes []) false :=
  not_contained_error (e := .invalidArgument) rfl

/-! ## The accept loop -/

/-- `SimpleServer::acceptConnections` over the connections it accepts: whatever
`handleRequest` returns, the loop goes on; an exception leaves it. -/
def acceptConnections (s : Server) : List (Fd × Recv × Bool) → Except Exn Server
  | [] => pure s
  | (clientFd, received, forked) :: rest => do
    let h ← s.handleRequest clientFd received forked
    acceptConnections h.server rest

/-- Handling returns on the answerable results and on a failed `recv`. -/
theorem handleRequest_returns_iff (s : Server) (requestFd : Fd) (received : Recv) (forked : Bool) :
    (∃ h, s.handleRequest requestFd received forked = .ok h) ↔ received = .error ∨ Answerable received := by
  cases received with
  | error => exact ⟨fun _ => Or.inl rfl, fun _ => ⟨_, rfl⟩⟩
  | bytes buf =>
    constructor
    · rintro ⟨h, hh⟩
      right
      by_contra hn
      obtain ⟨e, he⟩ := handleRequest_throws hn s requestFd forked
      rw [hh] at he
      cases he
    · rintro (h | h)
      · cases h
      · obtain ⟨h, hh, _⟩ := contained_of_answerable h s requestFd forked
        exact ⟨h, hh⟩

end Server
end VirtualSocket
