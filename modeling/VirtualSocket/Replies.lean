import Mathlib.Data.List.Range
import VirtualSocket.Clients
import VirtualSocket.Malformed
import VirtualSocket.Messages

/- What the two client programs make of whatever they receive from the broker. A reply
   is read by `sendRequest` and a connect request by `readRequest`; both take a `recv`
   that fails for a failure and hand everything else to the JSON parser, the empty
   buffer of a closed connection too. So they get by exactly on the replies that are
   `Readable` and, in the loop of a service proxy, on requests that name a client;
   and since nothing leaves that loop, a connection that only fails keeps it busy
   for ever (`proxies_survive_iff`). -/
namespace VirtualSocket
open Json Protocol NetworkUtil Server

namespace Recv

/-- The members of the object received, when the bytes are one. -/
def members : Recv → Option (List (Bytes × Json))
  | .error => none
  | .bytes buf =>
    match parse (cstr buf) with
    | .ok (.object ms) => some ms
    | _ => none

/-- The reply is a response that says OK. -/
def IsOK (r : Recv) : Prop := ∃ ms, r.members = some ms ∧ ms.lookup status = some (.string ok)

/-- The reply is a failed `recv`, an OK, or an object with an error message. -/
def Readable (r : Recv) : Prop :=
  r = .error ∨ r.IsOK ∨ ∃ ms msg, r.members = some ms ∧ ms.lookup errorMessage = some (.string msg)

/-- The request has a node_id. -/
def NamesClient (r : Recv) : Prop := ∃ ms id, r.members = some ms ∧ ms.lookup nodeId = some (.string id)

end Recv

/-- The first results of a connection. -/
def firstResults (rs : Nat → Recv) (n : Nat) : List Recv := (List.range n).map rs

/-- The connection is at its end or failing, from some result on. -/
def Dead (rs : Nat → Recv) : Prop := ∃ i, ∀ j ≥ i, rs j = .error ∨ rs j = .bytes []

namespace ClientProxy

/-- No exception, and what is no OK is reported as a refusal. -/
structure Survives (connection : Int) (reply : Recv) : Prop where
  no_throw : ∃ o, start connection reply = .ok o
  reported : ¬ reply.IsOK → ∃ errMsg, start connection reply = .ok (.refused errMsg)

end ClientProxy

namespace ServiceProxy

/-- Where `start` returns to its caller. -/
def Outcome.Returned : Outcome → Prop
  | .notConnected | .refused _ => True
  | .awaitingResponse | .serving _ => False

/-- No exception after any number of results, what is no OK is reported as a refusal, and
on a dead connection `start` returns. -/
structure Survives (connection : Int) (rs : Nat → Recv) : Prop where
  no_throw : ∀ n, ∃ o, start connection (firstResults rs n) = .ok o
  reported : ¬ (rs 0).IsOK → ∀ n, ∃ errMsg, start connection (firstResults rs (n + 1)) = .ok (.refused errMsg)
  ends : Dead rs → ∃ n o, start connection (firstResults rs n) = .ok o ∧ o.Returned

end ServiceProxy

theorem Recv.members_some {r : Recv} {ms : List (Bytes × Json)} :
    r.members = some ms ↔ ∃ buf, r = .bytes buf ∧ parse (cstr buf) = .ok (.object ms) := by
  constructor
  · intro h
    cases r with
    | error => cases h
    | bytes buf =>
      refine ⟨buf, rfl, ?_⟩
      simp only [members] at h
      split at h
      · next hp => rw [hp, Option.some.inj h]
      · cases h
  · intro ⟨buf, hr, hp⟩
    simp only [hr, members, hp]

/-- The buffer of a closed connection is empty, and no object. -/
theorem Recv.members_end : (Recv.bytes []).members = none := rfl

/-! ## One reply -/

/-- What both programs do with a reply: `isOK`, and `getErrorMessage` where it is not. -/
def readReply (reply : Recv) : Except Exn (Option Bytes) := do
  let res ← sendRequest reply
  if ← res.isOK then pure none
  else
    let errMsg ← res.getErrorMessage
    pure (some errMsg)

theorem clientStart_eq (connection : Fd) (reply : Recv) :
    ClientProxy.start connection reply = (readReply reply).map
      fun answer => answer.elim .listening .refused := by
  have hcon : ¬ (connection : Int) < 0 := by omega
  unfold ClientProxy.start readReply
  rw [if_neg hcon]
  cases hres : sendRequest reply with
  | error e => rfl
  | ok res =>
    cases hok : res.isOK with
    | error e => simp [hok, bind, Except.bind, Except.map]
    | ok success =>
      cases success <;> cases hmsg : res.getErrorMessage <;>
        simp [hok, hmsg, bind, Except.bind, pure, Except.pure, Except.map]

theorem serviceStart_eq (connection : Fd) (reply : Recv) (rest : List Recv) :
    ServiceProxy.start connection (reply :: rest) = (readReply reply).bind fun
      | some errMsg => .ok (.refused errMsg)
      | none => (ServiceProxy.connectLoop rest).map .serving := by
  have hcon : ¬ (connection : Int) < 0 := by omega
  unfold ServiceProxy.start readReply
  rw [if_neg hcon]
  cases hres : sendRequest reply with
  | error e => simp [hres, bind, Except.bind]
  | ok res =>
    cases hok : res.isOK with
    | error e => simp [hres, hok, bind, Except.bind]
    | ok success =>
      cases success <;> cases hmsg : res.getErrorMessage <;>
        simp [hres, hok, hmsg, bind, Except.bind, pure, Except.pure, Except.map]

/-- A failed `recv` is made into an error response. -/
theorem readReply_error : readReply .error = .ok (some (str "Could not receive response")) := by
  have hsays := Response.says_responseJson false (str "Could not receive response")
  unfold readReply sendRequest
  simp only [Response.ofBytes_line, bind, Except.bind, hsays.isOK, hsays.errorMessage rfl, pure, Except.pure,
    Bool.false_eq_true, if_false]

theorem subscript_member (ms : List (Bytes × Json)) (key : Bytes) :
    ∃ j', (Json.object ms).subscript key = .ok (member ms key, j') := by
  cases h : ms.lookup key <;> simp [subscript, member, h, pure, Except.pure]

/-- An object that was received, by its status and its error message. -/
theorem readReply_object {reply : Recv} {ms : List (Bytes × Json)} (h : reply.members = some ms) :
    readReply reply = if (member ms status).eqString ok then .ok none
      else (member ms errorMessage).toBytes.map some := by
  obtain ⟨buf, rfl, hp⟩ := Recv.members_some.mp h
  obtain ⟨j', hs⟩ := subscript_member ms status
  obtain ⟨j'', he⟩ := subscript_member ms errorMessage
  have hread : sendRequest (.bytes buf) = .ok ⟨.object ms⟩ := by
    simp only [sendRequest, Response.ofBytes, hp, bind, Except.bind, pure, Except.pure]
  simp only [readReply, hread, Response.isOK, Response.getErrorMessage, hs, he, bind, Except.bind, pure, Except.pure]
  cases (member ms status).eqString ok
  · cases (member ms errorMessage).toBytes <;> rfl
  · rfl

/-- What is no object is not read: it does not parse, has no members, or no message. -/
theorem readReply_other {buf : Bytes} (h : (Recv.bytes buf).members = none) :
    ∃ e, readReply (.bytes buf) = .error e := by
  cases hp : parse (cstr buf) with
  | error e => exact ⟨e, by simp only [readReply, sendRequest, Response.ofBytes, hp, bind, Except.bind]⟩
  | ok j =>
    cases j with
    | object ms =>
      rw [Recv.members_some.mpr ⟨buf, rfl, hp⟩] at h
      cases h
    | _ =>
      refine ⟨.domainError, ?_⟩
      simp only [readReply, sendRequest, Response.ofBytes, hp, bind, Except.bind, pure, Except.pure]
      rfl

theorem toBytes_string {v : Json} {s : Bytes} : v.toBytes = .ok s ↔ v = .string s := by
  cases v <;> simp [toBytes, pure, Except.pure, throw, throwThe, MonadExceptOf.throw]

theorem readReply_ok {reply : Recv} (h : reply.IsOK) : readReply reply = .ok none := by
  obtain ⟨ms, hms, hst⟩ := h
  rw [readReply_object hms, if_pos (eqString_iff.mpr (member_string.mpr hst))]

/-- And if it is none but has a message, as that refusal. -/
theorem readReply_refused {reply : Recv} (h : reply.Readable) (hok : ¬ reply.IsOK) :
    ∃ errMsg, readReply reply = .ok (some errMsg) := by
  rcases h with rfl | hok' | ⟨ms, msg, hms, hmsg⟩
  · exact ⟨_, readReply_error⟩
  · exact absurd hok' hok
  · have hst : ¬ (member ms status).eqString ok = true :=
      fun hst => hok ⟨ms, hms, member_string.mp (eqString_iff.mp hst)⟩
    refine ⟨msg, ?_⟩
    rw [readReply_object hms, if_neg hst, toBytes_string.mpr (member_string.mpr hmsg)]
    rfl

/-- Nothing else is read. -/
theorem readable_of_readReply {reply : Recv} {answer : Option Bytes} (h : readReply reply = .ok answer) :
    reply.Readable := by
  cases reply with
  | error => exact Or.inl rfl
  | bytes buf =>
    cases hms : (Recv.bytes buf).members with
    | none =>
      obtain ⟨e, he⟩ := readReply_other hms
      rw [h] at he
      cases he
    | some ms =>
      rw [readReply_object hms] at h
      by_cases hst : (member ms status).eqString ok = true
      · exact Or.inr (Or.inl ⟨ms, hms, member_string.mp (eqString_iff.mp hst)⟩)
      · rw [if_neg hst] at h
        cases hmsg : (member ms errorMessage).toBytes with
        | error e =>
          rw [hmsg] at h
          cases h
        | ok msg => exact Or.inr (Or.inr ⟨ms, msg, hms, member_string.mp (toBytes_string.mp hmsg)⟩)

/-! ## The loop of a service proxy -/

/-- What a turn of the loop reads: nothing when the `recv` fails, or the client ID. -/
def readClientID (received : Recv) : Except Exn (Option Bytes) := do
  match ← readRequest received with
  | none => pure none
  | some connectReq =>
    let clientID ← connectReq.getClientID
    pure (some clientID)

theorem connectLoop_cons (r : Recv) (rest : List Recv) : ServiceProxy.connectLoop (r :: rest) =
    (readClientID r).bind fun clientID => (ServiceProxy.connectLoop rest).map (clientID.toList ++ ·) := by
  rw [ServiceProxy.connectLoop, readClientID]
  cases hreq : readRequest r with
  | error e => rfl
  | ok req =>
    cases req with
    | none => cases ServiceProxy.connectLoop rest <;> rfl
    | some connectReq =>
      cases hid : connectReq.getClientID with
      | error e => simp [hid, bind, Except.bind]
      | ok clientID =>
        cases ServiceProxy.connectLoop rest <;>
          simp [hid, bind, Except.bind, pure, Except.pure, Except.map]

theorem readClientID_named {r : Recv} (h : r.NamesClient) : ∃ clientID, readClientID r = .ok clientID := by
  obtain ⟨ms, id, hms, hid⟩ := h
  obtain ⟨buf, rfl, hp⟩ := Recv.members_some.mp hms
  have hget : (Request.mk (.object ms)).getClientID = .ok id := getServerID_string hid
  refine ⟨some id, ?_⟩
  simp only [readClientID, readRequest, Request.ofBytes, hp, hget, bind, Except.bind, pure, Except.pure]

theorem namesClient_of_readClientID {r : Recv} {clientID : Option Bytes} (h : readClientID r = .ok clientID) :
    r = .error ∨ r.NamesClient := by
  cases r with
  | error => exact Or.inl rfl
  | bytes buf =>
    right
    cases hp : parse (cstr buf) with
    | error e => simp [readClientID, readRequest, Request.ofBytes, hp, bind, Except.bind] at h
    | ok j =>
      have hread : readRequest (.bytes buf) = .ok (some ⟨j⟩) := by
        simp only [readRequest, Request.ofBytes, hp, bind, Except.bind, pure, Except.pure]
      cases j with
      | object ms =>
        have hget : (Request.mk (.object ms)).getClientID = (member ms nodeId).toBytes := getServerID_object ms
        cases hid : (member ms nodeId).toBytes with
        | error e => simp [readClientID, hread, hget, hid, bind, Except.bind] at h
        | ok id =>
          exact ⟨ms, id, Recv.members_some.mpr ⟨buf, rfl, hp⟩, member_string.mp (toBytes_string.mp hid)⟩
      | _ =>
        rw [readClientID, hread] at h
        cases h

/-- The loop gets through results that each are a failed `recv` or name a client, and no others. -/
theorem connectLoop_returns_iff (received : List Recv) :
    (∃ handled, ServiceProxy.connectLoop received = .ok handled) ↔
    ∀ r ∈ received, r = .error ∨ r.NamesClient := by
  induction received with
  | nil => exact ⟨fun _ _ h => absurd h List.not_mem_nil, fun _ => ⟨[], rfl⟩⟩
  | cons r rest ih =>
    rw [connectLoop_cons, List.forall_mem_cons, ← ih]
    constructor
    · intro ⟨handled, h⟩
      cases hr : readClientID r with
      | error e =>
        rw [hr] at h
        cases h
      | ok clientID =>
        refine ⟨namesClient_of_readClientID hr, ?_⟩
        cases hrest : ServiceProxy.connectLoop rest with
        | error e =>
          rw [hr, hrest] at h
          cases h
        | ok handled' => exact ⟨handled', rfl⟩
    · intro ⟨hr, handled, hrest⟩
      have hok : ∃ clientID, readClientID r = .ok clientID := by
        rcases hr with rfl | hr
        · exact ⟨none, rfl⟩
        · exact readClientID_named hr
      obtain ⟨clientID, hok⟩ := hok
      exact ⟨clientID.toList ++ handled, by rw [hok, hrest]; rfl⟩

/-! ## The programs -/

theorem firstResults_succ (rs : Nat → Recv) (n : Nat) :
    firstResults rs (n + 1) = rs 0 :: (List.range n).map fun i => rs (i + 1) := by
  simp [firstResults, List.range_succ_eq_map, Function.comp_def]

theorem ClientProxy.survives_iff (connection : Fd) (reply : Recv) :
    ClientProxy.Survives connection reply ↔ reply.Readable := by
  constructor
  · intro ⟨⟨o, ho⟩, _⟩
    rw [clientStart_eq] at ho
    cases hr : readReply reply with
    | error e =>
      rw [hr] at ho
      cases ho
    | ok answer => exact readable_of_readReply hr
  · intro hread
    refine ⟨?_, ?_⟩
    · by_cases hok : reply.IsOK
      · exact ⟨_, by rw [clientStart_eq, readReply_ok hok]; rfl⟩
      · obtain ⟨errMsg, hr⟩ := readReply_refused hread hok
        exact ⟨_, by rw [clientStart_eq, hr]; rfl⟩
    · intro hok
      obtain ⟨errMsg, hr⟩ := readReply_refused hread hok
      exact ⟨errMsg, by rw [clientStart_eq, hr]; rfl⟩

namespace ServiceProxy

/-- After an OK the program is in its loop. -/
theorem start_firstResults {connection : Fd} {rs : Nat → Recv} (hok : (rs 0).IsOK) (n : Nat) :
    start connection (firstResults rs (n + 1)) =
      (connectLoop ((List.range n).map fun i => rs (i + 1))).map .serving := by
  rw [firstResults_succ, serviceStart_eq, readReply_ok hok]
  rfl

theorem start_nothing (connection : Fd) : start connection [] = .ok .awaitingResponse := by
  have hcon : ¬ (connection : Int) < 0 := by omega
  rw [start, if_neg hcon]
  rfl

/-- It never comes back from there. -/
theorem not_returned {connection : Fd} {rs : Nat → Recv} (hok : (rs 0).IsOK) {n : Nat} {o : Outcome}
    (h : start connection (firstResults rs n) = .ok o) : ¬ o.Returned := by
  cases n with
  | zero =>
    obtain rfl := Except.ok.inj ((start_nothing connection).symm.trans h)
    exact id
  | succ n =>
    rw [start_firstResults hok] at h
    cases hl : connectLoop ((List.range n).map fun i => rs (i + 1)) with
    | error e =>
      rw [hl] at h
      cases h
    | ok handled =>
      rw [hl] at h
      cases h
      exact id

/-- The loop throws on no result, and does not fail for ever. -/
def LoopServes (rs : Nat → Recv) : Prop :=
  (∀ i, rs (i + 1) = .error ∨ (rs (i + 1)).NamesClient) ∧ ¬ ∃ i, ∀ j ≥ i, rs j = .error

/-- Of a dead connection nothing names a client, so every `recv` fails. -/
theorem dead_failing {rs : Nat → Recv} (hdead : Dead rs)
    (hnames : ∀ i, rs (i + 1) = .error ∨ (rs (i + 1)).NamesClient) :
    ∃ i, ∀ j ≥ i, rs j = .error := by
  obtain ⟨i, hi⟩ := hdead
  refine ⟨i + 1, ?_⟩
  intro j hj
  obtain ⟨j, rfl⟩ : ∃ k, j = k + 1 := ⟨j - 1, by omega⟩
  rcases hi (j + 1) (by omega) with herr | hend
  · exact herr
  · rcases hnames j with herr | ⟨ms, id, hms, -⟩
    · exact herr
    · rw [hend, Recv.members_end] at hms
      cases hms

theorem survives_iff (connection : Fd) (rs : Nat → Recv) :
    Survives connection rs ↔ (rs 0).Readable ∧ ((rs 0).IsOK → LoopServes rs) := by
  constructor
  · intro h
    refine ⟨?_, ?_⟩
    · obtain ⟨o, ho⟩ := h.no_throw 1
      rw [firstResults_succ, serviceStart_eq] at ho
      cases hr : readReply (rs 0) with
      | error e =>
        rw [hr] at ho
        cases ho
      | ok answer => exact readable_of_readReply hr
    · intro hok
      refine ⟨?_, ?_⟩
      · intro i
        obtain ⟨o, ho⟩ := h.no_throw (i + 2)
        rw [start_firstResults hok] at ho
        cases hl : connectLoop ((List.range (i + 1)).map fun i => rs (i + 1)) with
        | error e =>
          rw [hl] at ho
          cases ho
        | ok handled =>
          refine (connectLoop_returns_iff _).mp ⟨handled, hl⟩ _ ?_
          exact List.mem_map.mpr ⟨i, List.mem_range.mpr (Nat.lt_succ_self i), rfl⟩
      · intro ⟨i, hi⟩
        obtain ⟨n, o, ho, hret⟩ := h.ends ⟨i, fun j hj => Or.inl (hi j hj)⟩
        exact not_returned hok ho hret
  · intro ⟨hread, hloop⟩
    by_cases hok : (rs 0).IsOK
    · obtain ⟨hnames, hlives⟩ := hloop hok
      refine ⟨?_, fun hno => absurd hok hno, fun hdead => absurd (dead_failing hdead hnames) hlives⟩
      intro n
      cases n with
      | zero => exact ⟨_, start_nothing connection⟩
      | succ n =>
        obtain ⟨handled, hl⟩ := (connectLoop_returns_iff ((List.range n).map fun i => rs (i + 1))).mpr
          (List.forall_mem_map.mpr fun i _ => hnames i)
        exact ⟨_, by rw [start_firstResults hok, hl]; rfl⟩
    · obtain ⟨errMsg, hr⟩ := readReply_refused hread hok
      have hrefused : ∀ n, start connection (firstResults rs (n + 1)) = .ok (.refused errMsg) := by
        intro n
        rw [firstResults_succ, serviceStart_eq, hr]
        rfl
      refine ⟨?_, fun _ n => ⟨errMsg, hrefused n⟩, fun _ => ⟨1, _, hrefused 0, trivial⟩⟩
      intro n
      cases n with
      | zero => exact ⟨_, start_nothing connection⟩
      | succ n => exact ⟨_, hrefused n⟩

end ServiceProxy

/-- On every reply and every sequence of results. -/
theorem proxies_survive_iff (connection : Fd) (rs : Nat → Recv) :
    (ClientProxy.Survives connection (rs 0) ↔ (rs 0).Readable) ∧
    (ServiceProxy.Survives connection rs ↔ (rs 0).Readable ∧ ((rs 0).IsOK → ServiceProxy.LoopServes rs)) :=
  ⟨ClientProxy.survives_iff connection (rs 0), ServiceProxy.survives_iff connection rs⟩

/-- The broker answers OK and then goes away. -/
def hangup : Nat → Recv
  | 0 => .bytes (makeResponse true [])
  | _ + 1 => .bytes []

theorem hangup_ok : (hangup 0).IsOK :=
  ⟨_, Recv.members_some.mpr ⟨_, rfl, parse_response true []⟩, rfl⟩

/-- Its end is read as a connect request, which throws. -/
theorem survives_fails_on_hangup : ¬ ServiceProxy.Survives 3 hangup := by
  intro h
  obtain ⟨hnames, -⟩ := ((ServiceProxy.survives_iff 3 hangup).mp h).2 hangup_ok
  rcases hnames 0 with herr | ⟨ms, id, hms, -⟩
  · cases herr
  · rw [hangup, Recv.members_end] at hms
    cases hms

end VirtualSocket
