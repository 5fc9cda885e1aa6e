import Mathlib.Data.List.Count
import VirtualSocket.Clients
import VirtualSocket.Json.Grammar
import VirtualSocket.Lib.Ledger

/- The sockets, address lists and requests that the programs acquire and release in
   setting up their connections. The kernel's answers are data: a lookup is the list
   `getaddrinfo` allocates, with what comes of each address on it. `createConnection`
   and `startListening` leave exactly what `createConnection_transfers` and
   `startListening_transfers` say, for all answers; the first forgets its address
   list when no address can be connected, the second its socket when a later call
   fails. Over a whole run the service proxy never releases what it does not hold,
   and holds its control connection and one address list for each `createConnection`
   that found addresses and reached none (`serviceProxy_holds`). The child that
   `handleConnectRequest` forks has a table of its own and is not followed here. -/
namespace VirtualSocket
open Json Protocol Ledger

/-- A socket, the list `getaddrinfo` allocated at an address, or a request that was allocated there. -/
inductive Resource where
  | socket (fd : Int)
  | addresses (servinfo : Nat)
  | request (connectReq : Nat)
  deriving DecidableEq

/-- What comes of one address: `socket` fails, or `connect`, or neither. -/
inductive Attempt where
  | noSocket
  | refused (sockfd : Fd)
  | connected (sockfd : Fd)
  deriving DecidableEq

/-- What comes of one address: `socket` fails, or `setsockopt`, or `bind`, or none of them. -/
inductive BindAttempt where
  | noSocket
  | noOption (sockfd : Fd)
  | inUse (sockfd : Fd)
  | bound (sockfd : Fd)
  deriving DecidableEq

/-- The list a `getaddrinfo` that succeeds has allocated, and what comes of its addresses. -/
structure Lookup (α : Type) where
  servinfo : Nat
  attempts : List α
  deriving DecidableEq

namespace NetworkUtil

/-- The loop of `createConnection`: the socket it breaks with, unless `p` comes to `NULL`. -/
def firstConnected : List Attempt → Option Fd × List (Act Resource)
  | [] => (none, [])
  | .noSocket :: p => firstConnected p
  | .refused sockfd :: p =>
    ((firstConnected p).1, .acquire (.socket sockfd) :: .release (.socket sockfd) :: (firstConnected p).2)
  | .connected sockfd :: _ => (some sockfd, [.acquire (.socket sockfd)])

/-- `lookup` is `none` when `getaddrinfo` fails. -/
def createConnection (lookup : Option (Lookup Attempt)) : Int × List (Act Resource) :=
  match lookup with
  | none => (-1, [])
  | some l =>
    match (firstConnected l.attempts).1 with
    -- returns before `freeaddrinfo`
    | none => (-1, .acquire (.addresses l.servinfo) :: (firstConnected l.attempts).2)
    | some sockfd =>
      (sockfd, .acquire (.addresses l.servinfo) ::
        ((firstConnected l.attempts).2 ++ [.release (.addresses l.servinfo)]))

end NetworkUtil

namespace SimpleServer

/-- How the loop of `startListening` ends: with `p == NULL`, with a socket, or with its `return -1`. -/
inductive BindLoop where
  | exhausted
  | bound (sockfd : Fd)
  | aborted (sockfd : Fd)
  deriving DecidableEq

def firstBound : List BindAttempt → BindLoop × List (Act Resource)
  | [] => (.exhausted, [])
  | .noSocket :: p => firstBound p
  | .noOption sockfd :: _ => (.aborted sockfd, [.acquire (.socket sockfd)])
  | .inUse sockfd :: p =>
    ((firstBound p).1, .acquire (.socket sockfd) :: .release (.socket sockfd) :: (firstBound p).2)
  | .bound sockfd :: _ => (.bound sockfd, [.acquire (.socket sockfd)])

/-- `listens` and `handles` say whether `listen` and `sigaction` succeed. -/
def startListening (lookup : Option (Lookup BindAttempt)) (listens handles : Bool) : Int × List (Act Resource) :=
  match lookup with
  | none => (-1, [])
  | some l =>
    let freed := .acquire (.addresses l.servinfo) ::
      ((firstBound l.attempts).2 ++ [.release (.addresses l.servinfo)])
    match (firstBound l.attempts).1 with
    | .aborted _ => (-1, .acquire (.addresses l.servinfo) :: (firstBound l.attempts).2)
    | .exhausted => (-1, freed)
    | .bound sockfd =>
      if listens = false then (-1, freed)
      else if handles = false then (-1, freed)
      else (sockfd, freed)

end SimpleServer

/-- What a call closes; a relay closes its two descriptors in its threads. -/
def Call.acts : Call → List (Act Resource)
  | .close fd => [.release (.socket fd)]
  | .send .. | .facilitateConnection .. | .exit => []

/-- What a process closes itself; its child has a table of its own. -/
def Effect.acts : Effect → List (Act Resource)
  | .call c => c.acts
  | .fork _ => []

namespace ServiceProxy

/-- What one turn of the connect loop meets: its `recv`, where the request is allocated, the lookup
of the proxy server, the fork, and the child's connection to the service. -/
structure Turn where
  received : Recv
  connectReq : Nat
  lookup : Option (Lookup Attempt)
  forked : Bool
  serviceConnection : Int

/-- A request is allocated, `handleConnectRequest` serves it and deletes it. -/
def Turn.acts (t : Turn) (clientID : Bytes) : List (Act Resource) :=
  .acquire (.request t.connectReq) ::
    ((NetworkUtil.createConnection t.lookup).2 ++
      (handleConnectRequest clientID (NetworkUtil.createConnection t.lookup).1 t.forked
        t.serviceConnection).flatMap Effect.acts ++ [.release (.request t.connectReq)])

/-- The connect loop over some turns; an exception ends the process. -/
def loopActs : List Turn → Except Exn (List (Act Resource))
  | [] => pure []
  | t :: rest => do
    match ← NetworkUtil.readRequest t.received with
    | none => loopActs rest
    | some connectReq =>
      let clientID ← connectReq.getClientID
      let acts ← loopActs rest
      pure (t.acts clientID ++ acts)

/-- `start`, up to some turns of its loop. -/
def startActs (lookup : Option (Lookup Attempt)) (response : Recv) (turns : List Turn) :
    Except Exn (List (Act Resource)) :=
  if (NetworkUtil.createConnection lookup).1 < 0 then pure (NetworkUtil.createConnection lookup).2
  else do
    let res ← NetworkUtil.sendRequest response
    if ← res.isOK then
      let acts ← loopActs turns
      pure ((NetworkUtil.createConnection lookup).2 ++ acts)
    else
      let _errMsg ← res.getErrorMessage
      pure (NetworkUtil.createConnection lookup).2

/-- `shutdown`, in the handler of the interrupt. -/
def shutdownActs (id : Bytes) (connection : Int) (lookup : Option (Lookup Attempt)) : List (Act Resource) :=
  (NetworkUtil.createConnection lookup).2 ++
    (shutdown id connection (NetworkUtil.createConnection lookup).1).flatMap Call.acts

end ServiceProxy

namespace ClientProxy

/-- `start`, up to the accept loop of `run`, which exits where `startListening` fails. -/
def startActs (lookup : Option (Lookup Attempt)) (response : Recv) (port : Option (Lookup BindAttempt))
    (listens handles : Bool) : Except Exn (List (Act Resource)) :=
  if (NetworkUtil.createConnection lookup).1 < 0 then pure (NetworkUtil.createConnection lookup).2
  else do
    let connectRes ← NetworkUtil.sendRequest response
    if ← connectRes.isOK then
      pure ((NetworkUtil.createConnection lookup).2 ++ (SimpleServer.startListening port listens handles).2)
    else
      let _errMsg ← connectRes.getErrorMessage
      pure ((NetworkUtil.createConnection lookup).2 ++ [.release (.socket (NetworkUtil.createConnection lookup).1)])

end ClientProxy

/-! ## createConnection -/

/-- The address can be connected. -/
def Attempt.connects : Attempt → Bool
  | .connected _ => true
  | _ => false

/-- The connection that was made. -/
def made (lookup : Option (Lookup Attempt)) : Multiset Resource :=
  if 0 ≤ (NetworkUtil.createConnection lookup).1 then {.socket (NetworkUtil.createConnection lookup).1} else 0

/-- The address list of a lookup none of whose addresses can be connected. -/
def lost : Option (Lookup Attempt) → Multiset Resource
  | none => 0
  | some l => if l.attempts.any Attempt.connects then 0 else {.addresses l.servinfo}

namespace NetworkUtil

/-- The loop breaks with the first address that can be connected. -/
theorem firstConnected_eq_some {attempts : List Attempt} {sockfd : Fd} :
    (firstConnected attempts).1 = some sockfd ↔ attempts.find? Attempt.connects = some (.connected sockfd) := by
  induction attempts with
  | nil => simp [firstConnected]
  | cons a p ih =>
    cases a with
    | noSocket => exact ih
    | refused fd => exact ih
    | connected fd => simp [firstConnected, Attempt.connects]

theorem firstConnected_eq_none {attempts : List Attempt} :
    (firstConnected attempts).1 = none ↔ attempts.any Attempt.connects = false := by
  induction attempts with
  | nil => simp [firstConnected]
  | cons a p ih =>
    cases a with
    | noSocket => exact ih
    | refused fd => exact ih
    | connected fd => simp [firstConnected, Attempt.connects]

/-- A socket that could not be connected is closed again. -/
theorem firstConnected_transfers (attempts : List Attempt) : Transfers 0 (firstConnected attempts).2
    ((firstConnected attempts).1.elim 0 fun sockfd => {.socket sockfd}) := by
  induction attempts with
  | nil => exact .nil 0
  | cons a p ih =>
    cases a with
    | noSocket => exact ih
    | refused fd => exact (Transfers.bracket _ (.nil 0)).append ih
    | connected fd => exact .acquire _

/-- The first address that can be connected is, and the list is freed; where there is none, -1 is returned and
the list forgotten. -/
theorem createConnection_transfers (lookup : Option (Lookup Attempt)) :
    Transfers 0 (createConnection lookup).2 (made lookup + lost lookup) ∧
      ∀ sockfd : Fd, (createConnection lookup).1 = sockfd ↔
        ∃ l, lookup = some l ∧ l.attempts.find? Attempt.connects = some (.connected sockfd) := by
  cases lookup with
  | none =>
    refine ⟨.nil 0, ?_⟩
    intro sockfd
    constructor
    · intro h
      have hneg : (-1 : Int) = sockfd := h
      omega
    · intro ⟨l, hl, _⟩
      cases hl
  | some l =>
    have hacts := firstConnected_transfers l.attempts
    cases hr : (firstConnected l.attempts).1 with
    | none =>
      have heq : createConnection (some l) =
          (-1, .acquire (.addresses l.servinfo) :: (firstConnected l.attempts).2) := by
        simp only [createConnection, hr]
      have hany := firstConnected_eq_none.mp hr
      rw [hr] at hacts
      refine ⟨?_, ?_⟩
      · have hleft : made (some l) + lost (some l) = {.addresses l.servinfo} := by simp [made, lost, heq, hany]
        rw [hleft, heq]
        exact (Transfers.acquire _).more hacts
      · intro sockfd
        rw [heq]
        constructor
        · intro h
          have hneg : (-1 : Int) = sockfd := h
          omega
        · intro ⟨_, hl, hfind⟩
          obtain rfl := Option.some.inj hl
          rw [← firstConnected_eq_some, hr] at hfind
          cases hfind
    | some sockfd =>
      have heq : createConnection (some l) = ((sockfd : Int), .acquire (.addresses l.servinfo) ::
          ((firstConnected l.attempts).2 ++ [.release (.addresses l.servinfo)])) := by
        simp only [createConnection, hr]
      have hany : l.attempts.any Attempt.connects = true := by
        rw [← Bool.not_eq_false, ← firstConnected_eq_none, hr]
        exact Option.some_ne_none _
      rw [hr] at hacts
      refine ⟨?_, ?_⟩
      · have hleft : made (some l) + lost (some l) = {.socket sockfd} := by simp [made, lost, heq, hany]
        rw [hleft, heq]
        exact hacts.bracket _
      · intro sockfd'
        rw [heq]
        constructor
        · intro h
          obtain rfl : sockfd = sockfd' := Int.ofNat.inj h
          exact ⟨l, rfl, firstConnected_eq_some.mp hr⟩
        · intro ⟨_, hl, hfind⟩
          obtain rfl := Option.some.inj hl
          rw [← firstConnected_eq_some, hr] at hfind
          exact congrArg Int.ofNat (Option.some.inj hfind)

theorem made_lost {lookup : Option (Lookup Attempt)} (h : 0 ≤ (createConnection lookup).1) :
    made lookup + lost lookup = {.socket (createConnection lookup).1} := by
  obtain ⟨sockfd, hfd⟩ := Int.eq_ofNat_of_zero_le h
  obtain ⟨l, rfl, hfind⟩ := ((createConnection_transfers lookup).2 sockfd).mp hfd
  have hany : l.attempts.any Attempt.connects = true := by
    rw [List.any_eq_true]
    exact ⟨_, List.mem_of_find?_eq_some hfind, rfl⟩
  rw [made, if_pos h, lost, if_pos hany, add_zero]

end NetworkUtil

/-! ## startListening -/

/-- The loop goes on to the next address. -/
def BindAttempt.passed : BindAttempt → Bool
  | .noSocket | .inUse _ => true
  | .noOption _ | .bound _ => false

namespace SimpleServer

/-- What the loop holds when it ends. -/
def BindLoop.holds : BindLoop → Multiset Resource
  | .exhausted => 0
  | .bound sockfd | .aborted sockfd => {.socket sockfd}

theorem firstBound_transfers (p : List BindAttempt) : Transfers 0 (firstBound p).2 (firstBound p).1.holds := by
  induction p with
  | nil => exact .nil 0
  | cons a p ih =>
    cases a with
    | noSocket => exact ih
    | inUse sockfd => exact (Transfers.bracket _ (.nil 0)).append ih
    | noOption sockfd | bound sockfd => exact .acquire _

/-- The end of the loop at an address it does not pass, if there is one. -/
def BindLoop.at : Option BindAttempt → BindLoop
  | some (.bound sockfd) => .bound sockfd
  | some (.noOption sockfd) => .aborted sockfd
  | _ => .exhausted

theorem firstBound_eq (attempts : List BindAttempt) :
    (firstBound attempts).1 = .at (attempts.find? fun a => !a.passed) := by
  induction attempts with
  | nil => rfl
  | cons a p ih =>
    cases a with
    | noSocket => exact ih
    | inUse fd => exact ih
    | noOption fd => rfl
    | bound fd => rfl

end SimpleServer

/-- What `startListening` leaves: the socket once it is bound, whatever `listen` and `sigaction` give, and the
list as well where no option could be set. -/
def listening : Option (Lookup BindAttempt) → Multiset Resource
  | none => 0
  | some l =>
    match l.attempts.find? fun a => !a.passed with
    | some (.bound sockfd) => {.socket sockfd}
    | some (.noOption sockfd) => {.addresses l.servinfo, .socket sockfd}
    | _ => 0

namespace SimpleServer

/-- The first address that is not passed over is bound and listened on, unless its option, `listen` or
`sigaction` fails; then -1 is returned with the socket open. -/
theorem startListening_transfers (lookup : Option (Lookup BindAttempt)) (listens handles : Bool) :
    Transfers 0 (startListening lookup listens handles).2 (listening lookup) ∧
      ∀ sockfd : Fd, (startListening lookup listens handles).1 = sockfd ↔ listens = true ∧ handles = true ∧
        ∃ l, lookup = some l ∧ l.attempts.find? (fun a => !a.passed) = some (.bound sockfd) := by
  have hminus : ∀ sockfd : Fd, (-1 : Int) ≠ sockfd := by
    intro sockfd
    omega
  cases lookup with
  | none =>
    refine ⟨.nil 0, ?_⟩
    intro sockfd
    simp [startListening, hminus]
  | some l =>
    have hacts := firstBound_transfers l.attempts
    have hloop := firstBound_eq l.attempts
    cases hfind : l.attempts.find? fun a => !a.passed with
    | none =>
      rw [hfind] at hloop
      rw [hloop] at hacts
      refine ⟨?_, ?_⟩
      · simp only [startListening, hloop, listening, hfind, BindLoop.at]
        exact hacts.bracket _
      · intro sockfd
        simp [startListening, hloop, BindLoop.at, hfind, hminus]
    | some a =>
      rw [hfind] at hloop
      rw [hloop] at hacts
      cases a with
      | noSocket | inUse =>
        have hpassed := List.find?_some hfind
        cases hpassed
      | noOption fd =>
        refine ⟨?_, ?_⟩
        · simp only [startListening, hloop, listening, hfind, BindLoop.at]
          exact (Transfers.acquire _).more hacts
        · intro sockfd
          simp [startListening, hloop, BindLoop.at, hfind, hminus]
      | bound fd =>
        refine ⟨?_, ?_⟩
        · have hfreed : (startListening (some l) listens handles).2 = .acquire (.addresses l.servinfo) ::
              ((firstBound l.attempts).2 ++ [.release (.addresses l.servinfo)]) := by
            simp only [startListening, hloop, BindLoop.at]
            split_ifs <;> rfl
          simp only [hfreed, listening, hfind]
          exact hacts.bracket _
        · intro sockfd
          cases listens <;> cases handles <;> simp [startListening, hloop, BindLoop.at, hfind, hminus]

end SimpleServer

/-! ## The run of a service proxy -/

/-- The response is read, and it is OK. -/
def accepted (response : Recv) : Prop :=
  (do let res ← NetworkUtil.sendRequest response; res.isOK) = .ok true

theorem accepted_iff {response : Recv} {res : Response} {ok : Bool}
    (hres : NetworkUtil.sendRequest response = .ok res)
    (hok : res.isOK = .ok ok) : accepted response ↔ ok = true := by
  have hread : (do let res ← NetworkUtil.sendRequest response; res.isOK) = .ok ok := by
    rw [hres]
    exact hok
  unfold accepted
  rw [hread, Except.ok.injEq]

namespace ServiceProxy

/-- The turn reads a request. -/
def Turn.reads (t : Turn) : Bool := t.received ≠ .error

theorem handleConnectRequest_acts (clientID : Bytes) (newProxyConnection : Int) (forked : Bool)
    (serviceConnection : Int) :
    (handleConnectRequest clientID newProxyConnection forked serviceConnection).flatMap Effect.acts =
      if 0 ≤ newProxyConnection then [.release (.socket newProxyConnection)] else [] := by
  unfold handleConnectRequest
  by_cases hcon : newProxyConnection < 0
  · have hneg : ¬ 0 ≤ newProxyConnection := by omega
    rw [if_pos hcon, if_neg hneg]
    rfl
  · have hle : 0 ≤ newProxyConnection := by omega
    rw [if_neg hcon, if_pos hle]
    cases forked <;> rfl

/-- A turn leaves nothing but an address list that was lost. -/
theorem turn_transfers (t : Turn) (clientID : Bytes) : Transfers 0 (t.acts clientID) (lost t.lookup) := by
  apply Transfers.bracket
  rw [handleConnectRequest_acts]
  obtain ⟨hmake, -⟩ := NetworkUtil.createConnection_transfers t.lookup
  unfold made at hmake
  by_cases hcon : 0 ≤ (NetworkUtil.createConnection t.lookup).1
  · rw [if_pos hcon] at hmake ⊢
    have hclose := (Transfers.release (Resource.socket (NetworkUtil.createConnection t.lookup).1)).frame
      (lost t.lookup)
    rw [zero_add] at hclose
    exact hmake.append hclose
  · rw [if_neg hcon, zero_add] at hmake
    rw [if_neg hcon, List.append_nil]
    exact hmake

theorem loop_transfers {turns : List Turn} {acts : List (Act Resource)} (h : loopActs turns = .ok acts) :
    Transfers 0 acts ((turns.filter Turn.reads).map fun t => lost t.lookup).sum := by
  induction turns generalizing acts with
  | nil =>
    cases h
    exact .nil 0
  | cons t rest ih =>
    obtain ⟨req, hread, h⟩ := ok_of_bind h
    cases hr : t.received with
    | error =>
      rw [hr] at hread
      cases hread
      have hreads : t.reads = false := by simp [Turn.reads, hr]
      rw [List.filter_cons_of_neg (by simp [hreads])]
      exact ih h
    | bytes buf =>
      have hreads : t.reads = true := by simp [Turn.reads, hr]
      rw [hr] at hread
      obtain ⟨connectReq, -, hread⟩ := ok_of_bind hread
      cases hread
      obtain ⟨clientID, -, h⟩ := ok_of_bind h
      obtain ⟨restActs, hrest, h⟩ := ok_of_bind h
      cases h
      rw [List.filter_cons_of_pos hreads, List.map_cons, List.sum_cons]
      exact (turn_transfers t clientID).more (ih hrest)

theorem start_transfers {lookup : Option (Lookup Attempt)} {response : Recv} {turns : List Turn}
    {acts : List (Act Resource)} (h : startActs lookup response turns = .ok acts) :
    (0 ≤ (NetworkUtil.createConnection lookup).1 ∧ accepted response ∧
        Transfers 0 acts (made lookup + lost lookup + ((turns.filter Turn.reads).map fun t => lost t.lookup).sum)) ∨
      ¬ (0 ≤ (NetworkUtil.createConnection lookup).1 ∧ accepted response) ∧
        Transfers 0 acts (made lookup + lost lookup) := by
  obtain ⟨hmake, -⟩ := NetworkUtil.createConnection_transfers lookup
  unfold startActs at h
  split_ifs at h with hcon
  · cases h
    exact Or.inr ⟨fun hboth => absurd hboth.1 (by omega), hmake⟩
  · obtain ⟨res, hres, h⟩ := ok_of_bind h
    obtain ⟨ok, hok, h⟩ := ok_of_bind h
    have hacc := accepted_iff hres hok
    cases ok with
    | true =>
      obtain ⟨loop, hloop, h⟩ := ok_of_bind h
      cases h
      exact Or.inl ⟨by omega, hacc.mpr rfl, hmake.more (loop_transfers hloop)⟩
    | false =>
      obtain ⟨errMsg, -, h⟩ := ok_of_bind h
      cases h
      refine Or.inr ⟨?_, hmake⟩
      intro hboth
      exact absurd (hacc.mp hboth.2) (by simp)

/-- Descriptor 0, which `shutdown` takes for none. -/
def zeroFd (fd : Int) : Multiset Resource := if fd = 0 then {.socket 0} else 0

theorem closing_transfers {fd : Int} (h : 0 ≤ fd) :
    Transfers {.socket fd} (if fd > 0 then [.release (.socket fd)] else []) (zeroFd fd) := by
  by_cases hpos : fd > 0
  · have hzero : fd ≠ 0 := by omega
    rw [if_pos hpos, zeroFd, if_neg hzero]
    exact .release _
  · obtain rfl : fd = 0 := by omega
    exact .nil _

theorem shutdown_acts (id : Bytes) (connection newProxyConnection : Int) :
    (shutdown id connection newProxyConnection).flatMap Call.acts =
      (if newProxyConnection > 0 then [.release (.socket newProxyConnection)] else []) ++
        (if connection > 0 then [.release (.socket connection)] else []) := by
  unfold shutdown
  split_ifs <;> rfl

/-- `shutdown` closes the connection it makes and the control connection, but for a descriptor 0. -/
theorem shutdown_transfers (id : Bytes) {connection : Int} (hcon : 0 ≤ connection)
    (lookup : Option (Lookup Attempt)) :
    Transfers {.socket connection} (shutdownActs id connection lookup)
      (zeroFd connection + (zeroFd (NetworkUtil.createConnection lookup).1 + lost lookup)) := by
  obtain ⟨hmake, -⟩ := NetworkUtil.createConnection_transfers lookup
  have hnew : Transfers 0 ((NetworkUtil.createConnection lookup).2 ++
      if (NetworkUtil.createConnection lookup).1 > 0 then
        [.release (.socket (NetworkUtil.createConnection lookup).1)] else [])
      (zeroFd (NetworkUtil.createConnection lookup).1 + lost lookup) := by
    unfold made at hmake
    by_cases hmade : 0 ≤ (NetworkUtil.createConnection lookup).1
    · rw [if_pos hmade] at hmake
      exact hmake.append ((closing_transfers hmade).frame (lost lookup))
    · have hpos : ¬ (NetworkUtil.createConnection lookup).1 > 0 := by omega
      have hzero : (NetworkUtil.createConnection lookup).1 ≠ 0 := by omega
      rw [if_neg hmade] at hmake
      rw [if_neg hpos, List.append_nil, zeroFd, if_neg hzero]
      exact hmake
  have hold := (closing_transfers hcon).frame (zeroFd (NetworkUtil.createConnection lookup).1 + lost lookup)
  unfold shutdownActs
  rw [shutdown_acts, ← List.append_assoc]
  exact ((Transfers.nil _).more hnew).append hold

/-- In every run of a service proxy, whatever the kernel answers: it releases only what it holds. Once it
serves, it holds its control connection at the head of its loop, and the address list of each lookup for a
connect request that found addresses and reached none; an interrupt then closes only what is held, and leaves
a descriptor 0 and its own lost list. A proxy that was not accepted returns with what `connect` left it. -/
theorem serviceProxy_holds {lookup : Option (Lookup Attempt)} {response : Recv} {turns : List Turn}
    {acts : List (Act Resource)} (h : startActs lookup response turns = .ok acts) :
    Owned 0 acts ∧
      (0 ≤ (NetworkUtil.createConnection lookup).1 ∧ accepted response →
        after 0 acts = {.socket (NetworkUtil.createConnection lookup).1} +
            ((turns.filter Turn.reads).map fun t => lost t.lookup).sum ∧
          ∀ id again, Owned (after 0 acts) (shutdownActs id (NetworkUtil.createConnection lookup).1 again) ∧
            after (after 0 acts) (shutdownActs id (NetworkUtil.createConnection lookup).1 again) =
              zeroFd (NetworkUtil.createConnection lookup).1 +
                (zeroFd (NetworkUtil.createConnection again).1 + lost again) +
                ((turns.filter Turn.reads).map fun t => lost t.lookup).sum) ∧
      (¬ (0 ≤ (NetworkUtil.createConnection lookup).1 ∧ accepted response) →
        after 0 acts = made lookup + lost lookup) := by
  rcases start_transfers h with ⟨hcon, hacc, hacts⟩ | ⟨hnot, hacts⟩
  · obtain ⟨howned, hafter⟩ := hacts.whole
    rw [NetworkUtil.made_lost hcon] at hafter
    refine ⟨howned, fun _ => ⟨hafter, ?_⟩, fun hnot => absurd ⟨hcon, hacc⟩ hnot⟩
    intro id again
    rw [hafter]
    exact shutdown_transfers id hcon again _
  · obtain ⟨howned, hafter⟩ := hacts.whole
    exact ⟨howned, fun hboth => absurd hboth hnot, fun _ => hafter⟩

/-- A proxy server reached at its second address; then a turn without a request, one whose lookup reaches
nothing, and one that forks a child. -/
def turns : List Turn :=
  [⟨.error, 0, none, true, 0⟩,
    ⟨.bytes (makeProxyConnectRequest (str "5")), 1, some ⟨1, [.refused 4, .noSocket]⟩, true, 5⟩,
    ⟨.bytes (makeProxyConnectRequest (str "6")), 2, some ⟨2, [.connected 4]⟩, true, 5⟩]

theorem serviceProxy_holds_turns : ∃ acts,
    startActs (some ⟨0, [.refused 3, .connected 3]⟩) (.bytes (makeResponse true [])) turns = .ok acts ∧
      Owned 0 acts ∧
      after 0 acts = {.socket 3} + {.addresses 1} := by
  have hsome : (startActs (some ⟨0, [.refused 3, .connected 3]⟩) (.bytes (makeResponse true [])) turns).toOption.isSome =
      true := by decide +kernel
  cases hacts : startActs (some ⟨0, [.refused 3, .connected 3]⟩) (.bytes (makeResponse true [])) turns with
  | error e =>
    rw [hacts] at hsome
    cases hsome
  | ok acts =>
    obtain ⟨howned, hserve, -⟩ := serviceProxy_holds hacts
    have hacc : accepted (.bytes (makeResponse true [])) := by
      unfold accepted
      decide +kernel
    exact ⟨acts, rfl, howned, (hserve ⟨by decide, hacc⟩).1⟩

end ServiceProxy

/-! ## The run of a client proxy -/

namespace ClientProxy

/-- Whatever the kernel answers, a client proxy releases only what it holds. Accepted, it holds its connection
and what `startListening` leaves, which is the one socket it listens on when it gets that far; refused, nothing. -/
theorem clientProxy_holds {lookup : Option (Lookup Attempt)} {response : Recv} {port : Option (Lookup BindAttempt)}
    {listens handles : Bool} {acts : List (Act Resource)}
    (h : startActs lookup response port listens handles = .ok acts) :
    Owned 0 acts ∧
      ((NetworkUtil.createConnection lookup).1 < 0 → after 0 acts = lost lookup) ∧
      (0 ≤ (NetworkUtil.createConnection lookup).1 → ¬ accepted response → after 0 acts = 0) ∧
      (0 ≤ (NetworkUtil.createConnection lookup).1 → accepted response →
        after 0 acts = {.socket (NetworkUtil.createConnection lookup).1} + listening port ∧
          ∀ sockfd : Fd, (SimpleServer.startListening port listens handles).1 = sockfd →
            listening port = {.socket sockfd}) := by
  obtain ⟨hmake, -⟩ := NetworkUtil.createConnection_transfers lookup
  obtain ⟨hlisten, hsocket⟩ := SimpleServer.startListening_transfers port listens handles
  have hport : ∀ sockfd : Fd, (SimpleServer.startListening port listens handles).1 = sockfd →
      listening port = {.socket sockfd} := by
    intro sockfd hfd
    obtain ⟨-, -, l, rfl, hfind⟩ := (hsocket sockfd).mp hfd
    simp only [listening, hfind]
  unfold startActs at h
  split_ifs at h with hcon
  · cases h
    have hnot : ¬ 0 ≤ (NetworkUtil.createConnection lookup).1 := by omega
    rw [made, if_neg hnot, zero_add] at hmake
    obtain ⟨howned, hafter⟩ := hmake.whole
    exact ⟨howned, fun _ => hafter, fun hle => absurd hle hnot, fun hle => absurd hle hnot⟩
  · have hle : 0 ≤ (NetworkUtil.createConnection lookup).1 := by omega
    rw [NetworkUtil.made_lost hle] at hmake
    obtain ⟨connectRes, hres, h⟩ := ok_of_bind h
    obtain ⟨ok, hok, h⟩ := ok_of_bind h
    have hacc := accepted_iff hres hok
    cases ok with
    | true =>
      cases h
      obtain ⟨howned, hafter⟩ := (hmake.more hlisten).whole
      exact ⟨howned, fun hneg => absurd hneg hcon, fun _ hnot => absurd (hacc.mpr rfl) hnot,
        fun _ _ => ⟨hafter, hport⟩⟩
    | false =>
      obtain ⟨errMsg, -, h⟩ := ok_of_bind h
      cases h
      obtain ⟨howned, hafter⟩ := (hmake.append (Transfers.release _)).whole
      refine ⟨howned, fun hneg => absurd hneg hcon, fun _ _ => hafter, ?_⟩
      intro _ hyes
      exact absurd (hacc.mp hyes) (by simp)

theorem clientProxy_holds_busy : ∃ acts,
    startActs (some ⟨0, [.connected 3]⟩) (.bytes (makeResponse true [])) (some ⟨1, [.inUse 4, .bound 4]⟩) true true =
      .ok acts ∧ Owned 0 acts ∧ after 0 acts = {.socket 3} + {.socket 4} := by
  have hsome : (startActs (some ⟨0, [.connected 3]⟩) (.bytes (makeResponse true []))
      (some ⟨1, [.inUse 4, .bound 4]⟩) true true).toOption.isSome = true := by decide +kernel
  cases hacts : startActs (some ⟨0, [.connected 3]⟩) (.bytes (makeResponse true []))
      (some ⟨1, [.inUse 4, .bound 4]⟩) true true with
  | error e =>
    rw [hacts] at hsome
    cases hsome
  | ok acts =>
    obtain ⟨howned, -, -, haccepted⟩ := clientProxy_holds hacts
    have hacc : accepted (.bytes (makeResponse true [])) := by
      unfold accepted
      decide +kernel
    exact ⟨acts, rfl, howned, (haccepted (by decide) hacc).1⟩

end ClientProxy
end VirtualSocket
