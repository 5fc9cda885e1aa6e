import VirtualSocket.Protocol

/- The messages of the protocol, made and read back. A message is one line: it holds
   no NUL, which would end the C string it is received as, and one newline, its
   last byte, so that a stream of messages splits at its newlines and in no other
   way. `Request` and `Response` answer on such a line exactly what it was made of,
   whichever accessors were called before: `operator[]` adds a member only when it
   is missing, and here none is (`Request.Says.undisturbed`). -/
namespace VirtualSocket
open Json

namespace Protocol

/-- One line, ended by its newline and cut short by no NUL. -/
structure IsLine (s : Bytes) : Prop where
  no_nul : 0 ∉ s
  ended : ∃ body, s = body ++ [newline] ∧ newline ∉ body

theorem isLine_dump (kvs : List (Bytes × Bytes)) : IsLine (dump kvs ++ [newline]) where
  no_nul h := by
    rcases List.mem_append.mp h with h | h
    · exact dump_no_nul kvs h
    · exact absurd (List.mem_singleton.mp h) (by decide)
  ended := ⟨dump kvs, rfl, dump_no_newline kvs⟩

theorem IsLine.cstr_self {s : Bytes} (h : IsLine s) : VirtualSocket.cstr s = s := by
  have hcstr := cstr_append (t := []) h.no_nul
  rwa [List.append_nil, VirtualSocket.cstr, VirtualSocket.cstr, List.takeWhile_nil, List.append_nil] at hcstr

/-- Received into a buffer behind which a NUL is put, a line is read whole. -/
theorem IsLine.cstr {s : Bytes} (h : IsLine s) (rest : Bytes) : VirtualSocket.cstr (s ++ 0 :: rest) = s := by
  rw [cstr_append h.no_nul, VirtualSocket.cstr, List.takeWhile_cons_of_neg (by decide), List.append_nil]

/-- A stream of lines splits into them. -/
theorem getlines_flatten {ls : List Bytes} (h : ∀ l ∈ ls, IsLine l) :
    getlines ls.flatten = ls.map List.dropLast := by
  induction ls with
  | nil => rfl
  | cons l ls ih =>
    obtain ⟨hl, hls⟩ := List.forall_mem_cons.mp h
    obtain ⟨body, rfl, hbody⟩ := hl.ended
    rw [List.flatten_cons, List.append_assoc, List.singleton_append, getlines_line hbody, ih hls, List.map_cons,
      List.dropLast_concat]

/-- What one of the three programs sends. -/
def IsMessage (s : Bytes) : Prop :=
  (∃ (k : Kind) (id : Bytes), s = makeRequest k.text id) ∨ ∃ success msg, s = makeResponse success msg

theorem IsMessage.isLine {s : Bytes} (h : IsMessage s) : IsLine s := by
  rcases h with ⟨k, id, rfl⟩ | ⟨success, msg, rfl⟩
  · rw [makeRequest_eq]
    exact isLine_dump _
  · rw [makeResponse_eq]
    exact isLine_dump _

/-! ## Reading a member -/

theorem subscript_some {ms : List (Bytes × Json)} {key : Bytes} {v : Json} (h : ms.lookup key = some v) :
    (Json.object ms).subscript key = .ok (v, .object ms) := by
  simp only [subscript, h]
  rfl

/-- A value after accessors have read its members. -/
def reading (j : Json) (keys : List Bytes) : Except Exn Json :=
  keys.foldlM (fun j key => Prod.snd <$> j.subscript key) j

/-- Members that are there are read without a change. -/
theorem reading_object {ms : List (Bytes × Json)} {keys : List Bytes}
    (h : ∀ key ∈ keys, ∃ v, ms.lookup key = some v) :
    reading (.object ms) keys = .ok (.object ms) := by
  induction keys with
  | nil => rfl
  | cons key keys ih =>
    obtain ⟨⟨v, hv⟩, hkeys⟩ := List.forall_mem_cons.mp h
    have hread : Prod.snd <$> (Json.object ms).subscript key = .ok (.object ms) := by
      rw [subscript_some hv]
      rfl
    rw [reading, List.foldlM_cons, hread]
    exact ih hkeys

/-! ## Requests -/

namespace Request

/-- The predicate of a request type. -/
def isKind (r : Request) : Kind → Except Exn Bool
  | .register => r.isRegisterRequest
  | .unregister => r.isUnregisterRequest
  | .connect => r.isConnectRequest
  | .connectionCreated => r.isConnectionCreatedRequest
  | .connectionFailed => r.isConnectionFailedRequest

theorem isKind_eq (r : Request) (k : Kind) : r.isKind k = r.hasType k.text := by
  cases k <;> rfl

/-- The request answers as one of type `k` for `id` does. -/
structure Says (r : Request) (k : Kind) (id : Bytes) : Prop where
  kind : ∀ k', r.isKind k' = .ok (decide (k' = k))
  serverID : r.getServerID = .ok id
  clientID : r.getClientID = .ok id
  text : ∀ number, r.toString number = makeRequest k.text id
  undisturbed : ∀ keys, (∀ key ∈ keys, key ∈ [Protocol.type, nodeId]) → reading r.j keys = .ok r.j

theorem kind_text_inj {k k' : Kind} : k.text = k'.text ↔ k = k' := by
  constructor
  · intro h
    have hk := congrArg Kind.ofText h
    rw [kind_text_ofText, kind_text_ofText] at hk
    exact Option.some.inj hk
  · exact congrArg Kind.text

theorem says_requestJson (k : Kind) (id : Bytes) : Says ⟨requestJson k.text id⟩ k id where
  kind k' := by
    have hlook : (Json.object [(nodeId, .string id), (Protocol.type, .string k.text)]).subscript Protocol.type =
        .ok (.string k.text, requestJson k.text id) := subscript_some rfl
    have htype : (Request.mk (requestJson k.text id)).hasType k'.text = .ok (k.text == k'.text) := by
      rw [hasType, requestJson, hlook]
      rfl
    rw [isKind_eq, htype, beq_eq_decide]
    simp only [kind_text_inj, eq_comm]
  serverID := rfl
  clientID := rfl
  text number := by
    have hdump := dumpValue_strings number (requestMembers_ne_nil k.text id)
    rw [toString, makeRequest_eq, ← hdump]
    rfl
  undisturbed keys h := by
    refine reading_object ?_
    intro key hkey
    rcases List.mem_pair.mp (h key hkey) with rfl | rfl
    · exact ⟨.string k.text, rfl⟩
    · exact ⟨.string id, rfl⟩

theorem ofBytes_line (k : Kind) (id : Bytes) : ofBytes (makeRequest k.text id) = .ok ⟨requestJson k.text id⟩ := by
  have hline : IsLine (makeRequest k.text id) := IsMessage.isLine (Or.inl ⟨k, id, rfl⟩)
  have hparse := parse_request k.text id
  rw [hline.cstr_self] at hparse
  rw [ofBytes, hparse]
  rfl

end Request

/-! ## Responses -/

namespace Response

/-- The response answers as one of that status and message does. -/
structure Says (r : Response) (success : Bool) (msg : Bytes) : Prop where
  isOK : r.isOK = .ok success
  isError : r.isError = .ok (!success)
  errorMessage : success = false → r.getErrorMessage = .ok msg
  text : ∀ number, r.toString number = makeResponse success msg
  undisturbed : ∀ keys, (∀ key ∈ keys, key = status ∨ success = false ∧ key = Protocol.errorMessage) →
    reading r.j keys = .ok r.j

theorem says_responseJson (success : Bool) (msg : Bytes) : Says ⟨responseJson success msg⟩ success msg where
  isOK := by cases success <;> rfl
  isError := by cases success <;> rfl
  errorMessage h := by subst h; rfl
  text number := by
    have hdump := dumpValue_strings number (responseMembers_ne_nil success msg)
    rw [toString, makeResponse_eq, ← hdump]
    cases success <;> rfl
  undisturbed keys h := by
    refine reading_object ?_
    intro key hkey
    rcases h key hkey with rfl | ⟨rfl, rfl⟩
    · cases success
      · exact ⟨.string error, rfl⟩
      · exact ⟨.string ok, rfl⟩
    · exact ⟨.string msg, rfl⟩

theorem ofBytes_line (success : Bool) (msg : Bytes) :
    ofBytes (makeResponse success msg) = .ok ⟨responseJson success msg⟩ := by
  have hline : IsLine (makeResponse success msg) := IsMessage.isLine (Or.inr ⟨success, msg, rfl⟩)
  have hparse := parse_response success msg
  rw [hline.cstr_self] at hparse
  rw [ofBytes, hparse]
  rfl

end Response

/-! ## Messages round-trip -/

/-- Every message is one line, and what is read from it is what it was made of. -/
theorem messages_roundtrip :
    (∀ s, IsMessage s → IsLine s ∧ ∀ rest, VirtualSocket.cstr (s ++ 0 :: rest) = s) ∧
    (∀ ss : List Bytes, (∀ s ∈ ss, IsMessage s) → getlines ss.flatten = ss.map List.dropLast) ∧
    (∀ (k : Kind) (id : Bytes), ∃ r : Request, Request.ofBytes (makeRequest k.text id) = .ok r ∧ r.Says k id) ∧
    ∀ success msg, ∃ r : Response, Response.ofBytes (makeResponse success msg) = .ok r ∧ r.Says success msg := by
  refine ⟨?_, ?_, ?_, ?_⟩
  · intro s hs
    exact ⟨hs.isLine, hs.isLine.cstr⟩
  · intro ss hss
    exact getlines_flatten fun s hs => (hss s hs).isLine
  · intro k id
    exact ⟨_, Request.ofBytes_line k id, Request.says_requestJson k id⟩
  · intro success msg
    exact ⟨_, Response.ofBytes_line success msg, Response.says_responseJson success msg⟩

end Protocol
end VirtualSocket
