import VirtualSocket.Broker
import VirtualSocket.Lib.Tables

/- The broker's tables against its history. `registrant` reads off the history
   which registration of an ID stands, and `waiting` which connect request a
   client ID was handed out for and is still unanswered. `Agrees` ties the two
   containers and the descriptor table to them: each container holds exactly the
   descriptors of those requests, each is open and stands for the connection
   that sent the request, and no two coincide. Since a close and an erase always
   go together, every handling keeps it (`Handling.kept`), whatever descriptor
   number `accept` gives out next; so a descriptor taken from a container never
   acts on a connection other than the intended one (`tables_match_history`). -/
namespace VirtualSocket
open Json Protocol Server Function Tables

variable {κ : Type}

/-- The event sends `msg`, on whatever connection. -/
def Event.isSent (msg : Bytes) : Event κ → Bool
  | .sent _ m => m = msg
  | _ => false

namespace Entry

/-- The entry registered `id`: its sender was told OK. -/
def registers (e : Entry κ) (id : Bytes) : Prop :=
  e.message = some ⟨some .register, id⟩ ∧ .sent e.conn okResponse ∈ e.events

def unregisters (e : Entry κ) (id : Bytes) : Prop := e.message = some ⟨some .unregister, id⟩

def connects (e : Entry κ) (id : Bytes) : Prop := e.message = some ⟨some .connect, id⟩

/-- The entry is a report on a client ID, of a connection created or failed. -/
def reports (e : Entry κ) (clientID : Bytes) : Prop :=
  e.message = some ⟨some .connectionCreated, clientID⟩ ∨ e.message = some ⟨some .connectionFailed, clientID⟩

/-- The entry is a connect request that was passed along under the client ID. -/
def forwards (e : Entry κ) (clientID : Bytes) : Prop :=
  e.message.map Message.kind = some (some .connect) ∧ clientID = e.fd.toString ∧
    e.events.any (Event.isSent (makeProxyConnectRequest clientID)) = true

instance [DecidableEq κ] (e : Entry κ) (id : Bytes) : Decidable (e.registers id) :=
  inferInstanceAs (Decidable (_ ∧ _))
instance (e : Entry κ) (id : Bytes) : Decidable (e.unregisters id) := inferInstanceAs (Decidable (_ = _))
instance (e : Entry κ) (s : Bytes) : Decidable (e.reports s) := inferInstanceAs (Decidable (_ ∨ _))
instance (e : Entry κ) (s : Bytes) : Decidable (e.forwards s) := inferInstanceAs (Decidable (_ ∧ _ ∧ _))

end Entry

variable [DecidableEq κ]

/-- The request that registered `id` last, unless `id` has been unregistered since. -/
def registrant : List (Entry κ) → Bytes → Option (Entry κ)
  | [], _ => none
  | e :: h, id =>
    if e.registers id then some e
    else if e.unregisters id then none
    else registrant h id

/-- The connect request last passed along under a client ID, unless it has been reported on since. -/
def waiting : List (Entry κ) → Bytes → Option (Entry κ)
  | [], _ => none
  | e :: h, s =>
    if e.forwards s then some e
    else if e.reports s then none
    else waiting h s

/-- No client ID is handed out while an earlier request under it is unanswered. -/
def FreshClients (h : List (Entry κ)) : Prop :=
  ∀ e h', e :: h' <:+ h → ∀ s, e.forwards s → waiting h' s = none

omit [DecidableEq κ] in
theorem waiting_some {h : List (Entry κ)} {s : Bytes} {e : Entry κ} (hw : waiting h s = some e) :
    e ∈ h ∧ e.forwards s := by
  induction h with
  | nil => cases hw
  | cons x h ih =>
    unfold waiting at hw
    split_ifs at hw with hf hr
    · obtain rfl := Option.some.inj hw
      exact ⟨List.mem_cons_self .., hf⟩
    · exact ⟨List.mem_cons_of_mem _ (ih hw).1, (ih hw).2⟩

theorem registrant_some {h : List (Entry κ)} {id : Bytes} {e : Entry κ} (hr : registrant h id = some e) :
    e ∈ h ∧ e.registers id := by
  induction h with
  | nil => cases hr
  | cons x h ih =>
    unfold registrant at hr
    split_ifs at hr with hf hu
    · obtain rfl := Option.some.inj hr
      exact ⟨List.mem_cons_self .., hf⟩
    · exact ⟨List.mem_cons_of_mem _ (ih hr).1, (ih hr).2⟩

omit [DecidableEq κ] in
theorem Entry.forwards.connects {e : Entry κ} {s : Bytes} (h : e.forwards s) : ∃ id, e.connects id := by
  obtain ⟨hm, -, -⟩ := h
  obtain ⟨⟨k, id⟩, hm, hk⟩ := Option.map_eq_some_iff.mp hm
  cases hk
  exact ⟨id, hm⟩

omit [DecidableEq κ] in
theorem connects_not_registers {e : Entry κ} {id id' : Bytes} (hc : e.connects id) (hr : e.registers id') :
    False := by
  have hc' : e.message = some ⟨some .connect, id⟩ := hc
  rw [hr.1] at hc'
  cases hc'

omit [DecidableEq κ] in
/-- Connections are told apart by the one request each has sent. -/
theorem conn_inj {h : List (Entry κ)} (hn : (h.map Entry.conn).Nodup) {e e' : Entry κ} (he : e ∈ h)
    (he' : e' ∈ h) (hc : e.conn = e'.conn) : e = e' :=
  List.inj_on_of_nodup_map hn he he' hc

/-! ## How one entry moves them -/

theorem registrant_register (h : List (Entry κ)) (c : κ) (fd : Fd) (id : Bytes) :
    registrant (⟨c, fd, some ⟨some .register, id⟩, [.sent c okResponse]⟩ :: h) =
      update (registrant h) id (some ⟨c, fd, some ⟨some .register, id⟩, [.sent c okResponse]⟩) := by
  funext id'
  by_cases hid : id' = id
  · subst hid; simp [registrant, Entry.registers]
  · have hne : id ≠ id' := fun h => hid h.symm
    simp [registrant, Entry.registers, Entry.unregisters, hid, hne]

theorem registrant_taken (h : List (Entry κ)) (c : κ) (fd : Fd) (id : Bytes) :
    registrant (⟨c, fd, some ⟨some .register, id⟩, [.sent c idTaken]⟩ :: h) = registrant h := by
  funext id'
  have hne : okResponse ≠ idTaken := by decide +kernel
  simp [registrant, Entry.registers, Entry.unregisters, hne]

theorem registrant_unregister (h : List (Entry κ)) (c : κ) (fd : Fd) (id : Bytes) (ev : List (Event κ)) :
    registrant (⟨c, fd, some ⟨some .unregister, id⟩, ev⟩ :: h) = update (registrant h) id none := by
  funext id'
  by_cases hid : id' = id
  · subst hid; simp [registrant, Entry.registers, Entry.unregisters]
  · have hne : id ≠ id' := fun h => hid h.symm
    simp [registrant, Entry.registers, Entry.unregisters, hid, hne]

theorem registrant_other {k : Option Kind} (hr : k ≠ some .register) (hu : k ≠ some .unregister)
    (h : List (Entry κ)) (c : κ) (fd : Fd) (id : Bytes) (ev : List (Event κ)) :
    registrant (⟨c, fd, some ⟨k, id⟩, ev⟩ :: h) = registrant h := by
  funext id'
  simp_all [registrant, Entry.registers, Entry.unregisters]

omit [DecidableEq κ] in
theorem waiting_forward (h : List (Entry κ)) (c r : κ) (fd : Fd) (id : Bytes) :
    waiting (⟨c, fd, some ⟨some .connect, id⟩, [.sent r (makeProxyConnectRequest fd.toString)]⟩ :: h) =
      update (waiting h) fd.toString
        (some ⟨c, fd, some ⟨some .connect, id⟩, [.sent r (makeProxyConnectRequest fd.toString)]⟩) := by
  funext s
  by_cases hs : s = fd.toString
  · subst hs; simp [waiting, Entry.forwards, Event.isSent]
  · simp [waiting, Entry.forwards, Entry.reports, hs]

omit [DecidableEq κ] in
theorem waiting_refused (h : List (Entry κ)) (c : κ) (fd : Fd) (id : Bytes) :
    waiting (⟨c, fd, some ⟨some .connect, id⟩, [.sent c idNotRegistered, .closed c]⟩ :: h) = waiting h := by
  funext s
  have hne : idNotRegistered ≠ makeProxyConnectRequest s  := makeResponse_ne_makeRequest false _ _ _
  simp [waiting, Entry.forwards, Entry.reports, Event.isSent, hne]

omit [DecidableEq κ] in
theorem waiting_report (h : List (Entry κ)) (c : κ) (fd : Fd) (success : Bool) (s : Bytes)
    (ev : List (Event κ)) :
    waiting (⟨c, fd, some ⟨some (Broker.reportKind success), s⟩, ev⟩ :: h) = update (waiting h) s none := by
  funext s'
  by_cases hs : s' = s
  · subst hs; cases success <;> simp [waiting, Entry.forwards, Entry.reports, Broker.reportKind]
  · have hne : s ≠ s' := fun h => hs h.symm
    cases success <;> simp [waiting, Entry.forwards, Entry.reports, Broker.reportKind, hs, hne]

omit [DecidableEq κ] in
theorem waiting_other {k : Option Kind} (hc : k ≠ some .connect)
    (hs : ∀ success, k ≠ some (Broker.reportKind success)) (h : List (Entry κ)) (c : κ) (fd : Fd)
    (id : Bytes) (ev : List (Event κ)) : waiting (⟨c, fd, some ⟨k, id⟩, ev⟩ :: h) = waiting h := by
  have h1 : k ≠ some .connectionCreated := hs true
  have h2 : k ≠ some .connectionFailed := hs false
  funext s
  simp_all [waiting, Entry.forwards, Entry.reports]

/-! ## The invariant -/

omit [DecidableEq κ] in
theorem update_fd_ne {fds : Int → Option κ} {f g : Fd} (v : Option κ) (h : g ≠ f) :
    update fds f v g = fds g :=
  update_of_ne (fun hf => h (Int.ofNat.inj hf)) ..

/-- The containers and the descriptors hold exactly the requests `R` (by ID) and `W` (by client ID). -/
structure Agrees (R W : Bytes → Option (Entry κ)) (s : Server) (fds : Int → Option κ) : Prop where
  registered : ∀ id, s.serverMap.lookup id = (R id).map Entry.fd
  pending : ∀ x, x ∈ s.pendingConnections ↔ (W x).isSome
  registered_open : ∀ id e, R id = some e → fds e.fd = some e.conn
  pending_open : ∀ x e, W x = some e → x = e.fd.toString ∧ fds e.fd = some e.conn
  distinct : ∀ id id' e e', R id = some e → R id' = some e' → e.fd = e'.fd → id = id'
  apart : ∀ id x e e', R id = some e → W x = some e' → e.fd ≠ e'.fd

namespace Agrees

omit [DecidableEq κ]

variable {R W : Bytes → Option (Entry κ)} {s : Server} {fds : Int → Option κ}

theorem init : Agrees (fun _ => none) (fun _ => none) Server.init (fun _ => none : Int → Option κ) where
  registered _ := rfl
  pending x := by simp [Server.init]
  registered_open _ _ h := nomatch h
  pending_open _ _ h := nomatch h
  distinct _ _ _ _ h := nomatch h
  apart _ _ _ _ h := nomatch h

/-- A descriptor given out that enters no container. -/
theorem opened (h : Agrees R W s fds) {fd : Fd} (hfd : fds fd = none) (c : κ) :
    Agrees R W s (update fds fd (some c)) :=
  { h with
    registered_open := fun id e he => Broker.update_old c hfd (h.registered_open id e he)
    pending_open := fun x e he =>
      ⟨(h.pending_open x e he).1, Broker.update_old c hfd (h.pending_open x e he).2⟩ }

/-- A descriptor not open is in neither container. -/
theorem fresh (h : Agrees R W s fds) {fd : Fd} (hfd : fds fd = none) :
    (∀ id e, R id = some e → e.fd ≠ fd) ∧ (∀ x e, W x = some e → e.fd ≠ fd) := by
  constructor
  · rintro id e he rfl
    have := h.registered_open id e he
    rw [hfd] at this
    cases this
  · rintro x e he rfl
    have := (h.pending_open x e he).2
    rw [hfd] at this
    cases this

theorem register (h : Agrees R W s fds) {e : Entry κ} (hfd : fds e.fd = none) (id : Bytes) :
    Agrees (update R id (some e)) W { s with serverMap := s.serverMap.insert id e.fd }
      (update fds e.fd (some e.conn)) := by
  obtain ⟨hR, hW⟩ := h.fresh hfd
  have ho := h.opened hfd e.conn
  refine ⟨?_, h.pending, ?_, ho.pending_open, ?_, ?_⟩
  · intro id'
    by_cases hid : id' = id
    · subst hid; simp
    · rw [Finmap.lookup_insert_of_ne _ hid, update_of_ne hid]
      exact h.registered id'
  · intro id' e' he'
    by_cases hid : id' = id
    · subst hid
      rw [update_self] at he'
      cases he'
      exact update_self ..
    · rw [update_of_ne hid] at he'
      exact ho.registered_open id' e' he'
  · intro id1 id2 e1 e2 h1 h2 hf
    -- the new descriptor was not open, so no older registration has it
    by_cases hid1 : id1 = id <;> by_cases hid2 : id2 = id
    · rw [hid1, hid2]
    · rw [hid1, update_self] at h1
      rw [update_of_ne hid2] at h2
      cases h1
      exact absurd hf.symm (hR id2 e2 h2)
    · rw [hid2, update_self] at h2
      rw [update_of_ne hid1] at h1
      cases h2
      exact absurd hf (hR id1 e1 h1)
    · rw [update_of_ne hid1] at h1
      rw [update_of_ne hid2] at h2
      exact h.distinct id1 id2 e1 e2 h1 h2 hf
  · intro id' x e1 e2 h1 h2
    by_cases hid : id' = id
    · rw [hid, update_self] at h1
      cases h1
      exact (hW x e2 h2).symm
    · rw [update_of_ne hid] at h1
      exact h.apart id' x e1 e2 h1 h2

theorem unregister (h : Agrees R W s fds) {id : Bytes} {e : Entry κ} (he : R id = some e) :
    Agrees (update R id none) W (Broker.unlist s id) (update fds e.fd none) := by
  refine ⟨?_, h.pending, ?_, ?_,
    fun id1 id2 e1 e2 h1 h2 => h.distinct id1 id2 e1 e2 (update_none_some h1).2 (update_none_some h2).2,
    fun id' x e1 e2 h1 => h.apart id' x e1 e2 (update_none_some h1).2⟩
  · intro id'
    by_cases hid : id' = id
    · subst hid
      rw [update_self]
      exact Finmap.lookup_erase _ _
    · rw [update_of_ne hid, ← h.registered id']
      exact Finmap.lookup_erase_ne hid
  · intro id' e' he'
    obtain ⟨hid, h'⟩ := update_none_some he'
    rw [update_fd_ne none fun hf => hid (h.distinct id' id e' e h' he hf)]
    exact h.registered_open id' e' h'
  · intro x e' he'
    obtain ⟨hx, hopen⟩ := h.pending_open x e' he'
    rw [update_fd_ne none (h.apart id x e e' he he').symm]
    exact ⟨hx, hopen⟩

theorem forward (h : Agrees R W s fds) {e : Entry κ} (hfd : fds e.fd = none) :
    Agrees R (update W e.fd.toString (some e))
      { s with pendingConnections := insert e.fd.toString s.pendingConnections }
      (update fds e.fd (some e.conn)) := by
  obtain ⟨hR, -⟩ := h.fresh hfd
  have ho := h.opened hfd e.conn
  refine ⟨h.registered, ?_, ho.registered_open, ?_, h.distinct, ?_⟩
  · intro x
    by_cases hx : x = e.fd.toString
    · subst hx; simp
    · simp [hx, h.pending]
  · intro x e' he'
    by_cases hx : x = e.fd.toString
    · rw [hx, update_self] at he'
      cases he'
      exact ⟨hx, update_self ..⟩
    · rw [update_of_ne hx] at he'
      exact ho.pending_open x e' he'
  · intro id x e1 e2 h1 h2
    by_cases hx : x = e.fd.toString
    · rw [hx, update_self] at h2
      cases h2
      exact hR id e1 h1
    · rw [update_of_ne hx] at h2
      exact h.apart id x e1 e2 h1 h2

theorem settle (h : Agrees R W s fds) {x : Bytes} {e : Entry κ} (he : W x = some e) :
    Agrees R (update W x none) (Broker.settle s x) (update fds e.fd none) := by
  refine ⟨h.registered, ?_, ?_, ?_, h.distinct,
    fun id x' e1 e2 h1 h2 => h.apart id x' e1 e2 h1 (update_none_some h2).2⟩
  · intro x'
    by_cases hx : x' = x
    · subst hx; simp [Broker.settle]
    · simp [Broker.settle, hx, h.pending]
  · intro id e' he'
    rw [update_fd_ne none (h.apart id x e' e he' he)]
    exact h.registered_open id e' he'
  · intro x' e' he'
    obtain ⟨hx, hW⟩ := update_none_some he'
    obtain ⟨hx', hopen⟩ := h.pending_open x' e' hW
    -- two client IDs are texts of two descriptors
    have hne : e'.fd ≠ e.fd := fun hf => hx (by rw [hx', (h.pending_open x e he).1, hf])
    rw [update_fd_ne none hne]
    exact ⟨hx', hopen⟩

end Agrees

namespace Broker

/-- The invariant of a run: the tables are those of the history. -/
def Kept (b : Broker κ) : Prop := Agrees (registrant b.history) (waiting b.history) b.server b.fds

theorem Kept.tablesOpen {b : Broker κ} (h : Kept b) : TablesOpen b where
  registered id f hl := by
    rw [h.registered id] at hl
    obtain ⟨e, he, rfl⟩ := Option.map_eq_some_iff.mp hl
    exact ⟨e.conn, h.registered_open id e he⟩
  pending s hs := by
    obtain ⟨e, he⟩ := Option.isSome_iff_exists.mp ((h.pending s).mp hs)
    obtain ⟨hx, ho⟩ := h.pending_open s e he
    exact ⟨e.fd, e.conn, hx, ho⟩

/-- The request behind a registered descriptor. -/
theorem Kept.registrant_of_lookup {b : Broker κ} (h : Kept b) {id : Bytes} {f : Fd} {r : κ}
    (hl : b.server.serverMap.lookup id = some f) (hr : b.fds f = some r) :
    ∃ e, registrant b.history id = some e ∧ e.fd = f ∧ e.conn = r := by
  rw [h.registered id] at hl
  obtain ⟨e, he, rfl⟩ := Option.map_eq_some_iff.mp hl
  refine ⟨e, he, rfl, ?_⟩
  rw [h.registered_open id e he] at hr
  exact Option.some.inj hr

/-- The connect request behind a pending client. -/
theorem Kept.waiting_of_pending {b : Broker κ} (h : Kept b) {f : Fd} {r : κ}
    (hp : f.toString ∈ b.server.pendingConnections) (hr : b.fds f = some r) :
    ∃ e, waiting b.history f.toString = some e ∧ e.fd = f ∧ e.conn = r := by
  obtain ⟨e, he⟩ := Option.isSome_iff_exists.mp ((h.pending _).mp hp)
  obtain ⟨hx, ho⟩ := h.pending_open _ e he
  have hf : e.fd = f := (toString_inj.mp hx).symm
  rw [hf, hr] at ho
  exact ⟨e, he, hf, (Option.some.inj ho).symm⟩

theorem Kept.not_waiting {b : Broker κ} (h : Kept b) {s : Bytes} (hp : s ∉ b.server.pendingConnections) :
    waiting b.history s = none :=
  Option.not_isSome_iff_eq_none.mp fun hw => hp ((h.pending s).mpr hw)

theorem Kept.not_registrant {b : Broker κ} (h : Kept b) {id : Bytes}
    (hl : b.server.serverMap.lookup id = none) : registrant b.history id = none := by
  rw [h.registered id] at hl
  exact Option.map_eq_none_iff.mp hl

theorem reportKind_ne (success : Bool) :
    some (reportKind success) ≠ some Kind.register ∧ some (reportKind success) ≠ some Kind.unregister := by
  cases success <;> decide

/-- One handling keeps the invariant. -/
theorem Handling.kept {b b' : Broker κ} {c : κ} {fd : Fd} {m : Message} {forked : Bool}
    (hh : Handling b c fd forked m b') (h : Kept b) (hfd : b.fds fd = none) : Kept b' := by
  unfold Kept
  cases hh with
  | registered hid =>
    simp only [after, registrant_register,
      waiting_other (k := some .register) (by decide) (by decide)]
    exact h.register (e := ⟨c, fd, _, _⟩) hfd _
  | taken hid hr =>
    -- the sender's descriptor stays open, in neither container
    simp only [after, registrant_taken,
      waiting_other (k := some .register) (by decide) (by decide)]
    exact h.opened hfd c
  | unregistered hid hr =>
    obtain ⟨e, he, rfl, -⟩ := h.registrant_of_lookup hid hr
    simp only [after, registrant_unregister,
      waiting_other (k := some .unregister) (by decide) (by decide)]
    exact h.unregister he
  | unlisted hid =>
    simp only [after, registrant_unregister, update_none_self (h.not_registrant hid),
      waiting_other (k := some .unregister) (by decide) (by decide)]
    exact h
  | forwarded hid hr =>
    simp only [after, waiting_forward,
      registrant_other (k := some .connect) (by decide) (by decide)]
    exact h.forward (e := ⟨c, fd, _, _⟩) hfd
  | refused hid =>
    simp only [after, waiting_refused,
      registrant_other (k := some .connect) (by decide) (by decide)]
    exact h
  | reported success hp hr =>
    obtain ⟨e, he, rfl, -⟩ := h.waiting_of_pending hp hr
    simp only [after, waiting_report, registrant_other (reportKind_ne success).1 (reportKind_ne success).2]
    exact h.settle he
  | stray success hp =>
    simp only [after, waiting_report, update_none_self (h.not_waiting hp),
      registrant_other (reportKind_ne success).1 (reportKind_ne success).2]
    exact h
  | unexpected =>
    simp only [after, registrant_other (k := none) (by decide) (by decide),
      waiting_other (k := none) (by decide) (by decide)]
    exact h

theorem kept_init : Kept (Broker.init : Broker κ) := Agrees.init

/-! ## Calls act on the intended connections -/

/-- What came of an entry touched its own connection, the registration its ID names
in the history `h` before it, or the client its client ID names there. -/
def ActsAsIntended (h : List (Entry κ)) (e : Entry κ) : Prop :=
  ∀ v ∈ e.events, match v with
    | .closed r => r = e.conn ∨
        (∃ id o, e.unregisters id ∧ registrant h id = some o ∧ r = o.conn) ∨
        ∃ s o, e.reports s ∧ waiting h s = some o ∧ r = o.conn
    | .sent r msg => r = e.conn ∨
        (∃ id o, e.connects id ∧ registrant h id = some o ∧ r = o.conn ∧
          msg = makeProxyConnectRequest e.fd.toString) ∨
        ∃ s o, e.reports s ∧ waiting h s = some o ∧ r = o.conn
    | .spliced client service => service = e.conn ∧
        ∃ s o, e.message = some ⟨some .connectionCreated, s⟩ ∧ waiting h s = some o ∧ client = o.conn

/-- Only the handling's own connection is touched. -/
theorem acts_answer (h : List (Entry κ)) (c : κ) (fd : Fd) (m : Message) (msg : Bytes) :
    ActsAsIntended h ⟨c, fd, some m, [.sent c msg, .closed c]⟩ := by
  intro v hv
  rcases List.mem_pair.mp hv with rfl | rfl <;> exact Or.inl rfl

omit [DecidableEq κ] in
theorem mem_reportEvents {client c : κ} {success forked : Bool} {v : Event κ}
    (hv : v ∈ reportEvents client c success forked) :
    v = .closed c ∨ (∃ msg, v = .sent client msg) ∨ v = .closed client ∨
      (success = true ∧ v = .spliced client c) := by
  cases success <;> cases forked <;> simp only [reportEvents, List.mem_cons, List.not_mem_nil, or_false] at hv <;>
    grind

theorem Handling.acts {b b' : Broker κ} {c : κ} {fd : Fd} {m : Message} {forked : Bool}
    (hh : Handling b c fd forked m b') (h : Kept b) :
    ∃ e, b'.history = e :: b.history ∧ e.conn = c ∧ e.fd = fd ∧ e.message = some m ∧
      ActsAsIntended b.history e := by
  cases hh with
  | registered hid =>
    refine ⟨_, rfl, rfl, rfl, rfl, ?_⟩
    intro v hv
    obtain rfl := List.mem_singleton.mp hv
    exact Or.inl rfl
  | taken hid hr =>
    refine ⟨_, rfl, rfl, rfl, rfl, ?_⟩
    intro v hv
    obtain rfl := List.mem_singleton.mp hv
    exact Or.inl rfl
  | unregistered hid hr =>
    obtain ⟨o, ho, -, rfl⟩ := h.registrant_of_lookup hid hr
    refine ⟨_, rfl, rfl, rfl, rfl, ?_⟩
    intro v hv
    rcases List.mem_cons.mp hv with rfl | hv
    · exact Or.inr (Or.inl ⟨_, o, rfl, ho, rfl⟩)
    · rcases List.mem_pair.mp hv with rfl | rfl <;> exact Or.inl rfl
  | forwarded hid hr =>
    obtain ⟨o, ho, -, rfl⟩ := h.registrant_of_lookup hid hr
    refine ⟨_, rfl, rfl, rfl, rfl, ?_⟩
    intro v hv
    obtain rfl := List.mem_singleton.mp hv
    exact Or.inr (Or.inl ⟨_, o, rfl, ho, rfl, rfl⟩)
  | unlisted | refused | stray | unexpected => exact ⟨_, rfl, rfl, rfl, rfl, acts_answer _ _ _ _ _⟩
  | @reported f client success hp hr =>
    obtain ⟨o, ho, -, rfl⟩ := h.waiting_of_pending hp hr
    refine ⟨_, rfl, rfl, rfl, rfl, ?_⟩
    intro v hv
    have hrep : (Entry.mk c fd (some ⟨some (reportKind success), f.toString⟩)
        (reportEvents o.conn c success forked)).reports f.toString := by
      cases success
      · exact Or.inr rfl
      · exact Or.inl rfl
    rcases mem_reportEvents hv with rfl | ⟨msg, rfl⟩ | rfl | ⟨rfl, rfl⟩
    · exact Or.inl rfl
    · exact Or.inr (Or.inr ⟨_, o, hrep, ho, rfl⟩)
    · exact Or.inr (Or.inr ⟨_, o, hrep, ho, rfl⟩)
    · exact ⟨rfl, _, o, rfl, ho, rfl⟩

/-! ## Runs -/

/-- Every handling so far acted as intended. -/
def ActedAsIntended (b : Broker κ) : Prop := ∀ e h, e :: h <:+ b.history → ActsAsIntended h e

/-- What each step of a run keeps. -/
structure Sound (b : Broker κ) : Prop where
  kept : Kept b
  acted : ActedAsIntended b
  conns_nodup : (b.history.map Entry.conn).Nodup
  conns_met : ∀ f c, b.fds f = some c → c ∈ b.history.map Entry.conn
  clients_fresh : FreshClients b.history

theorem sound_init : Sound (Broker.init : Broker κ) where
  kept := kept_init
  acted _ _ hs := absurd (List.suffix_nil.mp hs) (List.cons_ne_nil _ _)
  conns_nodup := List.nodup_nil
  conns_met _ _ h := nomatch h
  clients_fresh _ _ hs := absurd (List.suffix_nil.mp hs) (List.cons_ne_nil _ _)

omit [DecidableEq κ] in
/-- A handling opens its own connection at most, on its own descriptor. -/
theorem Handling.fds_some {b b' : Broker κ} {c : κ} {fd : Fd} {m : Message} {forked : Bool}
    (hh : Handling b c fd forked m b') {f : Int} {c' : κ} (h : b'.fds f = some c') :
    f = fd ∧ c' = c ∨ b.fds f = some c' := by
  cases hh with
  | registered | taken | forwarded =>
    exact (update_some h).imp (fun h => ⟨h.1, (Option.some.inj h.2).symm⟩) id
  | unregistered | reported => exact Or.inr (update_none_some h).2
  | _ => exact Or.inr h

/-- No request waits under the text of a descriptor that is not open. -/
theorem Kept.fresh_text {b : Broker κ} (h : Kept b) {fd : Fd} (hfd : b.fds fd = none) :
    waiting b.history fd.toString = none := by
  cases hw : waiting b.history fd.toString with
  | none => rfl
  | some e' =>
    obtain ⟨hx, ho⟩ := h.pending_open _ e' hw
    rw [← toString_inj.mp hx, hfd] at ho
    cases ho

theorem next_sound {b : Broker κ} (h : Sound b) {fd : Fd} (hfd : b.fds fd = none) {c : κ}
    (hc : c ∉ b.history.map Entry.conn) (m : Message) (forked : Bool) : Sound (b.next c fd m forked) := by
  have hh := next_cases h.kept.tablesOpen hfd c m forked
  obtain ⟨e, he, rfl, rfl, -, hacts⟩ := hh.acts h.kept
  refine ⟨hh.kept h.kept hfd, ?_, ?_, ?_, ?_⟩
  · intro e' h' hs
    rw [he] at hs
    rcases List.suffix_cons_iff.mp hs with heq | hs
    · obtain ⟨rfl, rfl⟩ := List.cons.inj heq
      exact hacts
    · exact h.acted e' h' hs
  · rw [he, List.map_cons, List.nodup_cons]
    exact ⟨hc, h.conns_nodup⟩
  · intro f c' hf
    rw [he, List.map_cons, List.mem_cons]
    exact (hh.fds_some hf).imp And.right (h.conns_met f c')
  · intro e' h' hs s hfor
    rw [he] at hs
    rcases List.suffix_cons_iff.mp hs with heq | hs
    · obtain ⟨rfl, rfl⟩ := List.cons.inj heq
      exact hfor.2.1 ▸ h.kept.fresh_text hfd
    · exact h.clients_fresh e' h' hs s hfor

theorem step_sound (b : Broker κ) (i : Input κ) (b' : Broker κ) (h : Sound b) (hs : b.step i = some b') :
    Sound b' := by
  obtain ⟨hfd, hc, m, -, rfl⟩ := step_some.mp hs
  exact next_sound h hfd hc m i.forked

/-- The tables hold what the history says, on open and distinct descriptors, and
what was ever done through them reached the connections intended. -/
structure TablesMatch (b : Broker κ) : Prop where
  serverMap_iff : ∀ id f, b.server.serverMap.lookup id = some f ↔
    ∃ e, registrant b.history id = some e ∧ e.fd = f ∧ b.fds f = some e.conn
  pending_iff : ∀ s, s ∈ b.server.pendingConnections ↔
    ∃ e, waiting b.history s = some e ∧ s = e.fd.toString ∧ b.fds e.fd = some e.conn
  registered_distinct : ∀ id id' f, b.server.serverMap.lookup id = some f →
    b.server.serverMap.lookup id' = some f → id = id'
  pending_apart : ∀ id f, b.server.serverMap.lookup id = some f → f.toString ∉ b.server.pendingConnections
  acted : ActedAsIntended b

theorem Kept.tablesMatch {b : Broker κ} (h : Kept b) (ha : ActedAsIntended b) : TablesMatch b where
  serverMap_iff id f := by
    rw [h.registered id, Option.map_eq_some_iff]
    constructor
    · rintro ⟨e, he, rfl⟩
      exact ⟨e, he, rfl, h.registered_open id e he⟩
    · rintro ⟨e, he, hf, -⟩
      exact ⟨e, he, hf⟩
  pending_iff s := by
    rw [h.pending s, Option.isSome_iff_exists]
    constructor
    · rintro ⟨e, he⟩
      exact ⟨e, he, h.pending_open s e he⟩
    · rintro ⟨e, he, -⟩
      exact ⟨e, he⟩
  registered_distinct id id' f hl hl' := by
    rw [h.registered, Option.map_eq_some_iff] at hl hl'
    obtain ⟨e, he, rfl⟩ := hl
    obtain ⟨e', he', hf⟩ := hl'
    exact h.distinct id id' e e' he he' hf.symm
  pending_apart id f hl hp := by
    obtain ⟨r, hr⟩ := h.tablesOpen.registered id f hl
    obtain ⟨e, he, rfl, -⟩ := h.registrant_of_lookup hl hr
    obtain ⟨e', he', hf, -⟩ := h.waiting_of_pending hp hr
    exact h.apart id _ e e' he he' hf.symm
  acted := ha

/-- On every sequence of typed requests, whatever closed descriptors `accept` gives
out and whichever forks fail. -/
theorem tables_match_history {inputs : List (Input κ)} {b : Broker κ}
    (h : Transition.exec step init inputs = some b) : TablesMatch b := by
  have hs : Sound b := Transition.exec_invariant step_sound sound_init h
  exact hs.kept.tablesMatch hs.acted

/-- A service registers on descriptor 4, a client asks for it on 5, the report
comes in on 6, and a second client is given 5 again. -/
def session : List (Input Nat) :=
  [⟨0, 4, makeRegisterRequest (str "a"), true⟩, ⟨1, 5, makeConnectRequest (str "a"), true⟩,
    ⟨2, 6, makeConnectionCreatedRequest (str "5"), true⟩, ⟨3, 5, makeConnectRequest (str "a"), true⟩]

theorem tables_match_session : ∃ b, Transition.exec step init session = some b ∧ TablesMatch b := by
  have hs : (Transition.exec step init session).isSome = true := by decide +kernel
  obtain ⟨b, hb⟩ := Option.isSome_iff_exists.mp hs
  exact ⟨b, hb, tables_match_history hb⟩

end Broker

end VirtualSocket
