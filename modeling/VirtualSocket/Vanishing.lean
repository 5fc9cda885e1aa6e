import VirtualSocket.BrokerTables

/- The parent of the broker and peers that go away. A peer may close or reset its
   connection at any moment, also between the `recv` of a request and the answer to
   it; the parent reads nothing more from a service that has registered or a client
   that waits, so it does not notice. What a peer that has closed is still sent only
   makes it reset the connection, at some later moment; a `send` on a connection that
   has been reset raises SIGPIPE, which nothing blocks or handles, and the process is
   gone. In one handling the parent sends on one connection at most (`answered`), so
   it survives a run exactly when no such connection had been reset (`survives_vanishing_iff`). -/
namespace VirtualSocket
open Json Protocol Server Function

variable {κ : Type}

/-- What a peer has done with its connection. -/
inductive Presence where
  | present
  | closed
  | reset
  deriving DecidableEq

/-- The parent: in `accept`, or with a connection accepted and its request read. -/
structure Daemon (κ : Type) where
  broker : Broker κ
  serving : Option (Input κ)
  peer : κ → Presence
  alive : Bool

inductive Occurrence (κ : Type) where
  | accepts (i : Input κ)
  | handles
  | closes (c : κ)
  | resets (c : κ)

/-- The connections the parent sends on, in order; what its children send is their own. -/
def Effect.sendsOn (fds : Int → Option κ) : List Effect → List κ
  | [] => []
  | .call (.send fd _) :: es => (fds fd).toList ++ sendsOn fds es
  | .call c :: es => sendsOn (c.run fds).1 es
  | .fork _ :: es => sendsOn fds es

namespace Broker

/-- The connections the parent sends on when it handles a request. -/
def sendsOn (b : Broker κ) (i : Input κ) : List κ :=
  match b.server.handleRequest i.fd (.bytes i.buf) i.forked with
  | .error _ => []
  | .ok h => Effect.sendsOn (update b.fds i.fd (some i.conn)) h.effects

/-- What is registered under an ID: the descriptor, and the connection it stands for. -/
def registration (b : Broker κ) (id : Bytes) : Option (Fd × κ) := do
  let fd ← b.server.serverMap.lookup id
  let c ← b.fds fd
  pure (fd, c)

end Broker

namespace Daemon

def init : Daemon κ := ⟨Broker.init, none, fun _ => .present, true⟩

def step [DecidableEq κ] (s : Daemon κ) : Occurrence κ → Option (Daemon κ)
  | .accepts i =>
    -- a request that could be read was sent before its connection was reset
    if s.alive ∧ s.serving.isNone ∧ s.broker.fds i.fd = none ∧ i.conn ∉ s.broker.history.map Entry.conn ∧
        (messageOf i.buf).isSome ∧ s.peer i.conn ≠ .reset then
      some { s with serving := some i }
    else none
  | .handles =>
    match s.alive, s.serving with
    | true, some i =>
      match s.broker.handle i.conn i.fd (.bytes i.buf) i.forked with
      -- an exception nobody catches ends the process, and so does SIGPIPE
      | .error _ => some { s with serving := none, alive := false }
      | .ok b =>
        if ∃ c ∈ s.broker.sendsOn i, s.peer c = .reset then some { s with serving := none, alive := false }
        else some { s with broker := b, serving := none }
    | _, _ => none
  | .closes c =>
    if s.alive ∧ s.peer c = .present then some { s with peer := update s.peer c .closed } else none
  | .resets c => if s.alive then some { s with peer := update s.peer c .reset } else none

/-- The request being handled registers or unregisters the ID. -/
def Changes (s : Daemon κ) (a : Occurrence κ) (id : Bytes) : Prop :=
  match a, s.serving with
  | .handles, some i =>
    messageOf i.buf = some ⟨some .register, id⟩ ∨ messageOf i.buf = some ⟨some .unregister, id⟩
  | _, _ => False

/-- Whatever happens, the process is still there, back in `accept` if it was handling a
request, and with the other registrations as they were. -/
def Survives [DecidableEq κ] (s : Daemon κ) (a : Occurrence κ) : Prop :=
  ∀ s', s.step a = some s' → s'.alive = true ∧ (a = .handles → s'.serving = none) ∧
    ∀ id, ¬ s.Changes a id → s'.broker.registration id = s.broker.registration id

end Daemon

/-- The connection a request is answered on: that of the service for a connect to a registered
ID, none for a report on a waiting client, and else the sender's. -/
def answered [DecidableEq κ] (h : List (Entry κ)) (c : κ) (m : Message) : Option κ :=
  match m.kind with
  | some .connect =>
    match registrant h m.nodeId with
    | some service => some service.conn
    | none => some c
  | some .connectionCreated | some .connectionFailed =>
    if (waiting h m.nodeId).isSome then none else some c
  | _ => some c

/-- The connection that the request being handled is answered on has not been reset. -/
def Daemon.Unreset [DecidableEq κ] (s : Daemon κ) (a : Occurrence κ) : Prop :=
  match a, s.serving with
  | .handles, some i =>
    ∀ m ∈ messageOf i.buf, ∀ c ∈ answered s.broker.history i.conn m, s.peer c ≠ .reset
  | _, _ => True

variable [DecidableEq κ]

/-! ## What the parent sends on -/

namespace Broker

omit [DecidableEq κ] in
/-- The sender's last words are sent on its own connection. -/
theorem sendsOn_answer {fds : Int → Option κ} {fd : Int} {c : κ} (h : fds fd = some c) (msg : Bytes) :
    Effect.sendsOn fds [.call (.send fd msg), .call (.close fd)] = [c] := by
  simp [Effect.sendsOn, h]

theorem sendsOn_report {b : Broker κ} (h : Kept b) (fd : Fd) (c : κ) (success : Bool) (id : Bytes)
    (forked : Bool) :
    Effect.sendsOn (update b.fds fd (some c)) (b.server.dispatch fd ⟨some (reportKind success), id⟩ forked).2 =
      (if (waiting b.history id).isSome then none else some c : Option κ).toList := by
  rw [dispatch_report, updateConnectionStatus]
  by_cases hp : id ∈ b.server.pendingConnections
  · -- the child tells the client
    rw [if_pos hp, if_pos ((h.pending id).mp hp)]
    cases forked <;> rfl
  · rw [if_neg hp, h.not_waiting hp]
    exact sendsOn_answer (update_self ..) _

theorem sendsOn_dispatch {b : Broker κ} (h : Kept b) {fd : Fd} (hfd : b.fds fd = none) (c : κ) (m : Message)
    (forked : Bool) : Effect.sendsOn (update b.fds fd (some c)) (b.server.dispatch fd m forked).2 =
      (answered b.history c m).toList := by
  obtain ⟨kind, id⟩ := m
  have hself : update b.fds fd (some c) fd = some c := update_self ..
  match kind with
  | none => exact sendsOn_answer hself _
  | some .connectionCreated => exact sendsOn_report h fd c true id forked
  | some .connectionFailed => exact sendsOn_report h fd c false id forked
  | some .register =>
    by_cases hid : id ∈ b.server.serverMap <;> simp [dispatch, hid, Effect.sendsOn, answered]
  | some .unregister =>
    simp only [dispatch]
    cases hid : b.server.serverMap.lookup id with
    | none => exact sendsOn_answer hself _
    | some f =>
      obtain ⟨r, hr⟩ := h.tablesOpen.registered id f hid
      have hopen : update (update b.fds fd (some c)) f none fd = some c := by
        rw [update_of_ne (fd_ne hfd hr), hself]
      show Effect.sendsOn ((Call.close f).run (update b.fds fd (some c))).1 _ = _
      rw [Call.run_close (update_old c hfd hr)]
      exact sendsOn_answer hopen _
  | some .connect =>
    simp only [dispatch]
    cases hid : b.server.serverMap.lookup id with
    | none =>
      simp only [answered, h.not_registrant hid]
      exact sendsOn_answer hself _
    | some f =>
      obtain ⟨r, hr⟩ := h.tablesOpen.registered id f hid
      obtain ⟨o, ho, -, rfl⟩ := h.registrant_of_lookup hid hr
      simp [answered, ho, Effect.sendsOn, update_old c hfd hr]

/-- The parent sends on one connection at most. -/
theorem sendsOn_eq {b : Broker κ} (h : Kept b) {i : Input κ} (hfd : b.fds i.fd = none) {m : Message}
    (hm : messageOf i.buf = some m) : b.sendsOn i = (answered b.history i.conn m).toList := by
  unfold sendsOn
  rw [handleRequest_typed hm]
  exact sendsOn_dispatch h hfd i.conn m i.forked

/-! ## Registrations -/

theorem Kept.registration_eq {b : Broker κ} (h : Kept b) (id : Bytes) :
    b.registration id = (registrant b.history id).map fun e => (e.fd, e.conn) := by
  unfold registration
  rw [h.registered id]
  cases hr : registrant b.history id with
  | none => rfl
  | some e =>
    have ho := h.registered_open id e hr
    simp [ho]

/-- A request leaves the registrations of other IDs alone. -/
theorem next_registration {b : Broker κ} (h : Sound b) {c : κ} {fd : Fd} (hfd : b.fds fd = none)
    (hc : c ∉ b.history.map Entry.conn) {m : Message} {forked : Bool} {id : Bytes} (hr : m ≠ ⟨some .register, id⟩)
    (hu : m ≠ ⟨some .unregister, id⟩) : (b.next c fd m forked).registration id = b.registration id := by
  rw [(next_sound h hfd hc m forked).kept.registration_eq, h.kept.registration_eq, next]
  have hreg : ∀ ev, ¬ (Entry.mk c fd (some m) ev).registers id := fun ev hreg => hr (Option.some.inj hreg.1)
  have hunreg : ∀ ev, ¬ (Entry.mk c fd (some m) ev).unregisters id := fun ev hun => hu (Option.some.inj hun)
  rw [registrant, if_neg (hreg _), if_neg (hunreg _)]

end Broker

/-! ## Runs -/

namespace Daemon

/-- What every step keeps. -/
structure Ready (s : Daemon κ) : Prop where
  sound : Broker.Sound s.broker
  serving : ∀ i, s.serving = some i → s.alive = true ∧ s.broker.fds i.fd = none ∧
    i.conn ∉ s.broker.history.map Entry.conn ∧ ∃ m, messageOf i.buf = some m

theorem ready_init : Ready (init : Daemon κ) := ⟨Broker.sound_init, fun _ h => nomatch h⟩

/-- What becomes of a request: the process dies, or the request is handled as ever. -/
theorem step_handles {s : Daemon κ} (h : Ready s) {i : Input κ} (hi : s.serving = some i) : ∃ m,
    messageOf i.buf = some m ∧ s.step .handles =
      if ∃ c ∈ answered s.broker.history i.conn m, s.peer c = .reset then
        some { s with serving := none, alive := false }
      else some { s with broker := s.broker.next i.conn i.fd m i.forked, serving := none } := by
  obtain ⟨ha, hfd, -, m, hm⟩ := h.serving i hi
  refine ⟨m, hm, ?_⟩
  simp only [step, ha, hi, Broker.handle_typed hm, Broker.sendsOn_eq h.sound.kept hfd hm, Option.mem_toList,
    Option.mem_def]

theorem step_ready {s s' : Daemon κ} {a : Occurrence κ} (h : Ready s) (hs : s.step a = some s') : Ready s' := by
  cases a with
  | accepts i =>
    simp only [step] at hs
    split_ifs at hs with hg
    obtain ⟨ha, -, hfd, hc, hm, -⟩ := hg
    cases hs
    refine ⟨h.sound, ?_⟩
    intro i' hi'
    obtain rfl := Option.some.inj hi'
    exact ⟨ha, hfd, hc, Option.isSome_iff_exists.mp hm⟩
  | closes c =>
    simp only [step] at hs
    split_ifs at hs
    cases hs
    exact ⟨h.sound, h.serving⟩
  | resets c =>
    simp only [step] at hs
    split_ifs at hs
    cases hs
    exact ⟨h.sound, h.serving⟩
  | handles =>
    cases hi : s.serving with
    | none => simp [step, hi] at hs
    | some i =>
      obtain ⟨m, -, hstep⟩ := step_handles h hi
      obtain ⟨-, hfd, hc, -⟩ := h.serving i hi
      rw [hstep] at hs
      split_ifs at hs <;> cases hs
      · exact ⟨h.sound, fun _ hnone => nomatch hnone⟩
      · exact ⟨Broker.next_sound h.sound hfd hc m i.forked, fun _ hnone => nomatch hnone⟩

/-- A handling is survived exactly when it sends on no connection that has been reset. -/
theorem survives_handles_iff {s : Daemon κ} (h : Ready s) {i : Input κ} (hi : s.serving = some i) :
    s.Survives .handles ↔ s.Unreset .handles := by
  obtain ⟨ha, hfd, hc, m, hm⟩ := h.serving i hi
  obtain ⟨m', hm', hstep⟩ := step_handles h hi
  obtain rfl := Option.some.inj (hm.symm.trans hm')
  unfold Survives Unreset Changes
  rw [hstep]
  simp only [hi, hm, Option.mem_def, Option.some.injEq, forall_eq']
  by_cases hreset : ∃ c, answered s.broker.history i.conn m = some c ∧ s.peer c = .reset
  · rw [if_pos hreset]
    obtain ⟨c, hc, hp⟩ := hreset
    constructor
    · intro hs
      cases (hs _ rfl).1
    · intro hun
      exact absurd hp (hun c hc)
  · rw [if_neg hreset]
    constructor
    · intro _ c hans hp
      exact hreset ⟨c, hans, hp⟩
    · intro _ s' hs'
      obtain rfl := Option.some.inj hs'
      refine ⟨ha, fun _ => rfl, ?_⟩
      intro id hid
      rw [not_or] at hid
      exact Broker.next_registration h.sound hfd hc hid.1 hid.2

theorem survives_step_iff {s : Daemon κ} (h : Ready s) (a : Occurrence κ) : s.Survives a ↔ s.Unreset a := by
  cases a with
  | handles =>
    cases hi : s.serving with
    | none =>
      have hstep : s.step .handles = none := by simp [step, hi]
      constructor
      · intro _
        simp only [Unreset, hi]
      · intro _ s' hs
        rw [hstep] at hs
        cases hs
    | some i => exact survives_handles_iff h hi
  | accepts | closes | resets =>
    -- the parent sends nothing and its tables stay
    refine ⟨fun _ => trivial, ?_⟩
    intro _ s' hs
    simp only [step] at hs
    split_ifs at hs with hg
    cases hs
    exact ⟨by simp_all, fun heq => (nomatch heq), fun _ _ => rfl⟩

/-- In every run, whenever and however peers go away. -/
theorem survives_vanishing_iff (as : List (Occurrence κ)) :
    Transition.Along step Survives init as ↔ Transition.Along step Unreset (init : Daemon κ) as :=
  Transition.along_congr (fun _ _ _ => step_ready) (fun _ a h => survives_step_iff h a) ready_init as

/-- A run whose every step is survived ends with the process alive. -/
theorem alive_of_survives {as : List (Occurrence κ)} {s : Daemon κ} (h : Transition.exec step init as = some s)
    (hsurv : Transition.Along step Survives init as) : s.alive = true := by
  have hstep : ∀ (s : Daemon κ) (a : Occurrence κ) (s' : Daemon κ), s.alive = true → s.Survives a →
      s.step a = some s' → s'.alive = true := fun _ _ s' _ hs hs' => (hs s' hs').1
  exact Transition.exec_invariant_along hstep rfl hsurv h

/-- A service registers and goes away. The first client to ask for it is passed along to
the closed connection, which makes it a reset one; then a second client asks. -/
def serviceGone : List (Occurrence Nat) :=
  [.accepts ⟨0, 4, makeRegisterRequest (str "a"), true⟩, .handles, .closes 0,
    .accepts ⟨1, 5, makeConnectRequest (str "a"), true⟩, .handles, .resets 0,
    .accepts ⟨2, 6, makeConnectRequest (str "a"), true⟩, .handles]

theorem survives_fails_on_serviceGone : ¬ Transition.Along step Survives init serviceGone := by
  have hs : (Transition.exec step init serviceGone).map Daemon.alive = some false := by decide +kernel
  obtain ⟨s, hs, hdead⟩ := Option.map_eq_some_iff.mp hs
  intro hsurv
  rw [alive_of_survives hs hsurv] at hdead
  cases hdead

end Daemon

end VirtualSocket
