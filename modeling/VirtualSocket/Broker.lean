import Mathlib.Logic.Function.Basic
import VirtualSocket.Server
import VirtualSocket.Lib.Transition

/- The broker at work on its descriptor table. The kernel gives descriptor
   numbers out again once they are closed, so a table says which connection a
   number stands for now, and the calls of `handleRequest` come to events on
   connections: a message sent, a connection closed, two connections spliced. A
   forked child works on a copy of the table. `history` keeps what was handled
   and what came of it, newest first; no code reads it. `next_cases` is the one
   place where the handling of a request is taken apart: as long as the two
   tables name open descriptors, each request is handled in one of its nine
   ways, and every invariant of the broker is proved from these. -/
namespace VirtualSocket
open Json Protocol Server Function

variable {κ : Type}

inductive Event (κ : Type) where
  | sent (c : κ) (msg : Bytes)
  | closed (c : κ)
  | spliced (client service : κ)
  deriving DecidableEq

/-- One call on a table. A descriptor that is not open makes the call fail, and nothing comes of it. -/
def Call.run (fds : Int → Option κ) : Call → (Int → Option κ) × List (Event κ)
  | .send fd msg =>
    match fds fd with
    | some c => (fds, [.sent c msg])
    | none => (fds, [])
  | .close fd =>
    match fds fd with
    | some c => (update fds fd none, [.closed c])
    | none => (fds, [])
  | .facilitateConnection clientFd serverFd =>
    match fds clientFd, fds serverFd with
    | some client, some service => (fds, [.spliced client service])
    | _, _ => (fds, [])
  | .exit => (fds, [])

theorem Call.run_send {fds : Int → Option κ} {fd : Int} {c : κ} (h : fds fd = some c) (msg : Bytes) :
    (Call.send fd msg).run fds = (fds, [.sent c msg]) := by
  simp only [Call.run, h]

theorem Call.run_close {fds : Int → Option κ} {fd : Int} {c : κ} (h : fds fd = some c) :
    (Call.close fd).run fds = (update fds fd none, [.closed c]) := by
  simp only [Call.run, h]

theorem Call.run_facilitate {fds : Int → Option κ} {f g : Int} {client service : κ}
    (hf : fds f = some client) (hg : fds g = some service) :
    (Call.facilitateConnection f g).run fds = (fds, [.spliced client service]) := by
  simp only [Call.run, hf, hg]

/-- A child's calls, up to its `exit`. -/
def Call.runAll (fds : Int → Option κ) : List Call → List (Event κ)
  | [] => []
  | .exit :: _ => []
  -- each call meets the table the earlier ones have left
  | c :: cs => (c.run fds).2 ++ runAll (c.run fds).1 cs

/-- The parent's calls and, on a copy of the table, those of the children it forks. -/
def Effect.runAll (fds : Int → Option κ) : List Effect → (Int → Option κ) × List (Event κ)
  | [] => (fds, [])
  | .call c :: es =>
    let (fds', events) := runAll (c.run fds).1 es
    (fds', (c.run fds).2 ++ events)
  | .fork child :: es =>
    -- what the child closes stays open in the parent
    let (fds', events) := runAll fds es
    (fds', Call.runAll fds child ++ events)

/-- One accepted connection: the descriptor it got, the request it sent, what came of it. -/
structure Entry (κ : Type) where
  conn : κ
  fd : Fd
  message : Option Message
  events : List (Event κ)
  deriving DecidableEq

structure Broker (κ : Type) where
  server : Server
  fds : Int → Option κ
  history : List (Entry κ)

/-- A connection as the accept loop meets it: the descriptor `accept` returns, what
its first `recv` gives, and whether a fork made for it succeeds. -/
structure Input (κ : Type) where
  conn : κ
  fd : Fd
  buf : Bytes
  forked : Bool

namespace Broker

def init : Broker κ := ⟨Server.init, fun _ => none, []⟩

/-- `handleRequest` on a newly accepted connection. -/
def handle (b : Broker κ) (c : κ) (fd : Fd) (received : Recv) (forked : Bool) : Except Exn (Broker κ) := do
  let h ← b.server.handleRequest fd received forked
  let (fds, events) := Effect.runAll (update b.fds fd (some c)) h.effects
  let message := match received with
    | .error => none
    | .bytes buf => messageOf buf
  pure ⟨h.server, fds, ⟨c, fd, message, events⟩ :: b.history⟩

variable [DecidableEq κ]

/-- A step of the broker on a typed request, on a descriptor that is not open and
a connection not met before. -/
def step (b : Broker κ) (i : Input κ) : Option (Broker κ) :=
  if b.fds i.fd = none ∧ i.conn ∉ b.history.map Entry.conn ∧ (messageOf i.buf).isSome then
    (b.handle i.conn i.fd (.bytes i.buf) i.forked).toOption
  else none

omit [DecidableEq κ]

/-- The state after a typed request. -/
def next (b : Broker κ) (c : κ) (fd : Fd) (m : Message) (forked : Bool) : Broker κ :=
  let h := b.server.dispatch fd m forked
  let r := Effect.runAll (update b.fds fd (some c)) h.2
  ⟨h.1, r.1, ⟨c, fd, some m, r.2⟩ :: b.history⟩

theorem handle_typed {buf : Bytes} {m : Message} (h : messageOf buf = some m) (b : Broker κ) (c : κ)
    (fd : Fd) (forked : Bool) : b.handle c fd (.bytes buf) forked = .ok (b.next c fd m forked) := by
  simp only [handle, handleRequest_typed h, h, next, bind, Except.bind, pure, Except.pure]

theorem step_some [DecidableEq κ] {b b' : Broker κ} {i : Input κ} :
    b.step i = some b' ↔ b.fds i.fd = none ∧ i.conn ∉ b.history.map Entry.conn ∧
      ∃ m, messageOf i.buf = some m ∧ b' = b.next i.conn i.fd m i.forked := by
  unfold step
  constructor
  · intro h
    split_ifs at h with hg
    obtain ⟨hfd, hc, hm⟩ := hg
    obtain ⟨m, hm⟩ := Option.isSome_iff_exists.mp hm
    rw [handle_typed hm] at h
    exact ⟨hfd, hc, m, hm, (Option.some.inj h).symm⟩
  · rintro ⟨hfd, hc, m, hm, rfl⟩
    rw [if_pos ⟨hfd, hc, Option.isSome_iff_exists.mpr ⟨m, hm⟩⟩, handle_typed hm]
    rfl

/-! ## The ways a request is handled -/

/-- What both tables hold is open. -/
structure TablesOpen (b : Broker κ) : Prop where
  registered : ∀ id f, b.server.serverMap.lookup id = some f → ∃ r, b.fds f = some r
  pending : ∀ s ∈ b.server.pendingConnections, ∃ (f : Fd) (k : κ), s = f.toString ∧ b.fds f = some k

/-- The state a request leaves: its tables, its descriptors, and its entry. -/
def after (b : Broker κ) (c : κ) (fd : Fd) (m : Message) (server : Server) (fds : Int → Option κ)
    (events : List (Event κ)) : Broker κ :=
  ⟨server, fds, ⟨c, fd, some m, events⟩ :: b.history⟩

/-- The tables of a server without one registration, or without one pending client. -/
def unlist (s : Server) (id : Bytes) : Server := { s with serverMap := s.serverMap.erase id }
def settle (s : Server) (clientID : Bytes) : Server :=
  { s with pendingConnections := s.pendingConnections.erase clientID }

/-- A report settles a pending client: `success` splices or sends the error, in a
child when the fork made one; the parent closes its own copy either way. -/
def reportEvents (client c : κ) (success forked : Bool) : List (Event κ) :=
  match success, forked with
  | true, true => [.sent client okResponse, .spliced client c, .closed client, .closed c]
  | false, true => [.sent client couldNotConnect, .closed client, .closed c, .closed client, .closed c]
  | _, false => [.closed client, .closed c]

def reportKind (success : Bool) : Kind := if success then .connectionCreated else .connectionFailed

/-- The handling of one request by a broker whose tables name open descriptors. -/
inductive Handling (b : Broker κ) (c : κ) (fd : Fd) (forked : Bool) : Message → Broker κ → Prop
  | registered {id} (hid : b.server.serverMap.lookup id = none) : Handling b c fd forked ⟨some .register, id⟩
      (b.after c fd ⟨some .register, id⟩ { b.server with serverMap := b.server.serverMap.insert id fd }
        (update b.fds fd (some c)) [.sent c okResponse])
  | taken {id f r} (hid : b.server.serverMap.lookup id = some f) (hr : b.fds f = some r) :
      Handling b c fd forked ⟨some .register, id⟩
        (b.after c fd ⟨some .register, id⟩ b.server (update b.fds fd (some c)) [.sent c idTaken])
  | unregistered {id f r} (hid : b.server.serverMap.lookup id = some f) (hr : b.fds f = some r) :
      Handling b c fd forked ⟨some .unregister, id⟩
        (b.after c fd ⟨some .unregister, id⟩ (unlist b.server id) (update b.fds f none)
          [.closed r, .sent c okResponse, .closed c])
  | unlisted {id} (hid : b.server.serverMap.lookup id = none) : Handling b c fd forked ⟨some .unregister, id⟩
      (b.after c fd ⟨some .unregister, id⟩ b.server b.fds [.sent c okResponse, .closed c])
  | forwarded {id f r} (hid : b.server.serverMap.lookup id = some f) (hr : b.fds f = some r) :
      Handling b c fd forked ⟨some .connect, id⟩
        (b.after c fd ⟨some .connect, id⟩
          { b.server with pendingConnections := insert fd.toString b.server.pendingConnections }
          (update b.fds fd (some c)) [.sent r (makeProxyConnectRequest fd.toString)])
  | refused {id} (hid : b.server.serverMap.lookup id = none) : Handling b c fd forked ⟨some .connect, id⟩
      (b.after c fd ⟨some .connect, id⟩ b.server b.fds [.sent c idNotRegistered, .closed c])
  | reported {f : Fd} {client} (success : Bool) (hp : f.toString ∈ b.server.pendingConnections)
      (hr : b.fds f = some client) : Handling b c fd forked ⟨some (reportKind success), f.toString⟩
        (b.after c fd ⟨some (reportKind success), f.toString⟩ (settle b.server f.toString)
          (update b.fds f none) (reportEvents client c success forked))
  | stray {s} (success : Bool) (hp : s ∉ b.server.pendingConnections) :
      Handling b c fd forked ⟨some (reportKind success), s⟩
        (b.after c fd ⟨some (reportKind success), s⟩ b.server b.fds [.sent c idNotRegistered, .closed c])
  | unexpected {id} : Handling b c fd forked ⟨none, id⟩
      (b.after c fd ⟨none, id⟩ b.server b.fds [.sent c unexpectedRequest, .closed c])

/-- An open descriptor is not the one about to be given out. -/
theorem fd_ne {fds : Int → Option κ} {fd f : Int} {r : κ} (h : fds fd = none) (hr : fds f = some r) :
    fd ≠ f := by
  rintro rfl
  rw [h] at hr
  cases hr

theorem update_close_other {fds : Int → Option κ} {fd f : Int} {r : κ} (c : κ) (h : fds fd = none)
    (hr : fds f = some r) : update (update (update fds fd (some c)) f none) fd none = update fds f none := by
  rw [update_comm (fd_ne h hr).symm, update_idem, ← h, update_eq_self]

/-- The tables' own descriptors are not the one just accepted. -/
theorem update_old {fds : Int → Option κ} {fd f : Int} {r : κ} (c : κ) (h : fds fd = none)
    (hr : fds f = some r) : update fds fd (some c) f = some r := by
  rw [update_of_ne (fd_ne h hr).symm, hr]

theorem next_eq {b : Broker κ} {c : κ} {fd : Fd} {m : Message} {forked : Bool} {server : Server}
    {effects : List Effect} (fds : Int → Option κ) (events : List (Event κ))
    (hd : b.server.dispatch fd m forked = (server, effects))
    (hr : Effect.runAll (update b.fds fd (some c)) effects = (fds, events)) :
    b.next c fd m forked = b.after c fd m server fds events := by
  simp only [next, hd, hr, after]

/-- The sender's last words: it is answered and its descriptor closed. -/
theorem runAll_answer {fds : Int → Option κ} {fd : Int} (c : κ) (h : fds fd = none) (msg : Bytes) :
    Effect.runAll (update fds fd (some c)) [.call (.send fd msg), .call (.close fd)] =
      (fds, [.sent c msg, .closed c]) := by
  simp [Effect.runAll, Call.run, ← h]

theorem dispatch_report (s : Server) (fd : Fd) (success : Bool) (id : Bytes) (forked : Bool) :
    s.dispatch fd ⟨some (reportKind success), id⟩ forked =
      ((s.updateConnectionStatus id fd success forked).1,
        (s.updateConnectionStatus id fd success forked).2 ++ [.call (.close fd)]) := by
  cases success <;> rfl

/-- The calls of a report on a client whose descriptor `f` is open. -/
theorem runAll_report {fds : Int → Option κ} {f fd : Int} {client c : κ} (hf : fds f = some client)
    (hfd : fds fd = some c) (hne : fd ≠ f) (success forked : Bool) :
    Effect.runAll fds
        (((if forked then [.fork (notifyClient f fd success)] else []) ++ [.call (.close f)]) ++
          [.call (.close fd)]) =
      (update (update fds f none) fd none, reportEvents client c success forked) := by
  have hclosed : update fds f none fd = some c := by rw [update_of_ne hne, hfd]
  cases forked <;> cases success <;>
    simp [Effect.runAll, Call.runAll, notifyClient, reportEvents, Call.run_send hf, Call.run_close hf,
      Call.run_facilitate hf hfd, Call.run_close hclosed]

theorem next_report {b : Broker κ} {fd : Fd} (hok : TablesOpen b) (hfd : b.fds fd = none) (c : κ)
    (success : Bool) (s : Bytes) (forked : Bool) :
    Handling b c fd forked ⟨some (reportKind success), s⟩
      (b.next c fd ⟨some (reportKind success), s⟩ forked) := by
  by_cases hp : s ∈ b.server.pendingConnections
  · -- the text is that of an open descriptor, which `atoi` reads back
    obtain ⟨f, client, rfl, hr⟩ := hok.pending s hp
    have hd := dispatch_report b.server fd success f.toString forked
    rw [updateConnectionStatus, if_pos hp, atoi_toString] at hd
    have hrun := runAll_report (update_old c hfd hr) (update_self (fd : Int) (some c) b.fds)
      (fd_ne hfd hr) success forked
    rw [update_close_other c hfd hr] at hrun
    rw [next_eq _ _ hd hrun]
    exact .reported success hp hr
  · have hd := dispatch_report b.server fd success s forked
    rw [updateConnectionStatus, if_neg hp] at hd
    rw [next_eq _ _ hd (runAll_answer c hfd _)]
    exact .stray success hp

/-- Every handling of a typed request is one of the nine kinds. -/
theorem next_cases {b : Broker κ} {fd : Fd} (hok : TablesOpen b) (hfd : b.fds fd = none) (c : κ)
    (m : Message) (forked : Bool) : Handling b c fd forked m (b.next c fd m forked) := by
  obtain ⟨kind, id⟩ := m
  have hsend : update b.fds fd (some c) fd = some c := update_self ..
  match kind with
  | none => rw [next_eq _ _ rfl (runAll_answer c hfd _)]; exact .unexpected
  | some .connectionCreated => exact next_report hok hfd c true id forked
  | some .connectionFailed => exact next_report hok hfd c false id forked
  | some .register =>
    cases hid : b.server.serverMap.lookup id with
    | none =>
      have hnot : id ∉ b.server.serverMap := Finmap.lookup_eq_none.mp hid
      rw [next_eq (update b.fds fd (some c)) [.sent c okResponse]
        (by simp only [dispatch, if_neg hnot]; rfl)]
      · exact .registered hid
      · simp [Effect.runAll, Call.run]
    | some f =>
      obtain ⟨r, hr⟩ := hok.registered id f hid
      have hin : id ∈ b.server.serverMap := Finmap.mem_iff.mpr ⟨f, hid⟩
      rw [next_eq (update b.fds fd (some c)) [.sent c idTaken]
        (by simp only [dispatch, if_pos hin]; rfl)]
      · exact .taken hid hr
      · simp [Effect.runAll, Call.run]
  | some .unregister =>
    cases hid : b.server.serverMap.lookup id with
    | none =>
      rw [next_eq _ _ (by simp only [dispatch, hid]; rfl) (runAll_answer c hfd _)]
      exact .unlisted hid
    | some f =>
      obtain ⟨r, hr⟩ := hok.registered id f hid
      rw [next_eq (update b.fds f none) [.closed r, .sent c okResponse, .closed c]
        (by simp only [dispatch, hid]; rfl)]
      · exact .unregistered hid hr
      · simp [Effect.runAll, Call.run, update_old c hfd hr, update_close_other c hfd hr,
          update_of_ne (fd_ne hfd hr)]
  | some .connect =>
    cases hid : b.server.serverMap.lookup id with
    | none =>
      rw [next_eq _ _ (by simp only [dispatch, hid]; rfl) (runAll_answer c hfd _)]
      exact .refused hid
    | some f =>
      obtain ⟨r, hr⟩ := hok.registered id f hid
      rw [next_eq (update b.fds fd (some c)) [.sent r (makeProxyConnectRequest fd.toString)]
        (by simp only [dispatch, hid]; rfl)]
      · exact .forwarded hid hr
      · simp [Effect.runAll, Call.run, update_old c hfd hr]

/-! ## The same, by the kind of the request -/

namespace Handling

variable {b b' : Broker κ} {c : κ} {fd : Fd} {forked : Bool} {id : Bytes}

theorem of_register (h : Handling b c fd forked ⟨some .register, id⟩ b') :
    (b.server.serverMap.lookup id = none ∧
      b' = b.after c fd ⟨some .register, id⟩ { b.server with serverMap := b.server.serverMap.insert id fd }
        (update b.fds fd (some c)) [.sent c okResponse]) ∨
    ∃ f r, b.server.serverMap.lookup id = some f ∧ b.fds f = some r ∧
      b' = b.after c fd ⟨some .register, id⟩ b.server (update b.fds fd (some c)) [.sent c idTaken] := by
  generalize hm : (⟨some .register, id⟩ : Message) = m at h
  cases h with
  | registered hid => cases hm; exact Or.inl ⟨hid, rfl⟩
  | taken hid hr => cases hm; exact Or.inr ⟨_, _, hid, hr, rfl⟩
  | reported success | stray success => cases success <;> cases hm
  | _ => cases hm

theorem of_unregister (h : Handling b c fd forked ⟨some .unregister, id⟩ b') :
    (b.server.serverMap.lookup id = none ∧
      b' = b.after c fd ⟨some .unregister, id⟩ b.server b.fds [.sent c okResponse, .closed c]) ∨
    ∃ f r, b.server.serverMap.lookup id = some f ∧ b.fds f = some r ∧
      b' = b.after c fd ⟨some .unregister, id⟩ (unlist b.server id) (update b.fds f none)
        [.closed r, .sent c okResponse, .closed c] := by
  generalize hm : (⟨some .unregister, id⟩ : Message) = m at h
  cases h with
  | unlisted hid => cases hm; exact Or.inl ⟨hid, rfl⟩
  | unregistered hid hr => cases hm; exact Or.inr ⟨_, _, hid, hr, rfl⟩
  | reported success | stray success => cases success <;> cases hm
  | _ => cases hm

theorem of_connect (h : Handling b c fd forked ⟨some .connect, id⟩ b') :
    (b.server.serverMap.lookup id = none ∧
      b' = b.after c fd ⟨some .connect, id⟩ b.server b.fds [.sent c idNotRegistered, .closed c]) ∨
    ∃ f r, b.server.serverMap.lookup id = some f ∧ b.fds f = some r ∧
      b' = b.after c fd ⟨some .connect, id⟩
        { b.server with pendingConnections := insert fd.toString b.server.pendingConnections }
        (update b.fds fd (some c)) [.sent r (makeProxyConnectRequest fd.toString)] := by
  generalize hm : (⟨some .connect, id⟩ : Message) = m at h
  cases h with
  | refused hid => cases hm; exact Or.inl ⟨hid, rfl⟩
  | forwarded hid hr => cases hm; exact Or.inr ⟨_, _, hid, hr, rfl⟩
  | reported success | stray success => cases success <;> cases hm
  | _ => cases hm

theorem reportKind_inj {success success' : Bool} (h : reportKind success = reportKind success') :
    success = success' := by
  cases success <;> cases success' <;> cases h <;> rfl

theorem of_report {success : Bool} (h : Handling b c fd forked ⟨some (reportKind success), id⟩ b') :
    (id ∉ b.server.pendingConnections ∧
      b' = b.after c fd ⟨some (reportKind success), id⟩ b.server b.fds
        [.sent c idNotRegistered, .closed c]) ∨
    ∃ (f : Fd) (client : κ), id = f.toString ∧ id ∈ b.server.pendingConnections ∧ b.fds f = some client ∧
      b' = b.after c fd ⟨some (reportKind success), id⟩ (settle b.server id) (update b.fds f none)
        (reportEvents client c success forked) := by
  generalize hm : (⟨some (reportKind success), id⟩ : Message) = m at h
  cases h with
  | reported success' hp hr =>
    obtain ⟨hk, rfl⟩ := Message.mk.inj hm
    obtain rfl := reportKind_inj (Option.some.inj hk)
    exact Or.inr ⟨_, _, rfl, hp, hr, rfl⟩
  | stray success' hp =>
    obtain ⟨hk, rfl⟩ := Message.mk.inj hm
    obtain rfl := reportKind_inj (Option.some.inj hk)
    exact Or.inl ⟨hp, rfl⟩
  | _ => cases success <;> cases hm

end Handling

end Broker
end VirtualSocket
