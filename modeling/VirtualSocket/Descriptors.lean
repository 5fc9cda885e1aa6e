import VirtualSocket.BrokerTables
import VirtualSocket.Malformed

/- The broker's descriptors over every run of the accept loop, whatever is received on
   the accepted connections, as long as no exception is thrown. A turn of the loop
   is the handling of a typed request, the answer to one that is no request, or a
   `recv` that fails (`accept_turn`), and the last two leave both tables alone.
   `Filed` with `Held` says which descriptors are open: those of the registrants,
   those of the waiting clients, and those of the entries that `handleRequest`
   neither closed nor recorded. -/
namespace VirtualSocket
open Json Protocol Server Function Tables

variable {κ : Type}

/-- A connection as the accept loop meets it, whatever its first `recv` gives. -/
structure Accepted (κ : Type) where
  conn : κ
  fd : Fd
  received : Recv
  forked : Bool

namespace Server

/-- What parses and is no typed request takes the last branch. -/
theorem handleRequest_untyped {buf : Bytes} (hm : messageOf buf = none) {s : Server} {requestFd : Fd}
    {forked : Bool} {h : Handled} (hh : s.handleRequest requestFd (.bytes buf) forked = .ok h) :
    h = ⟨s, [.call (.send requestFd unexpectedRequest), .call (.close requestFd)], 0⟩ := by
  have hans := ((handleRequest_returns_iff s requestFd (.bytes buf) forked).mp ⟨h, hh⟩).resolve_left nofun
  obtain ⟨j, hp, hj⟩ := hans
  have hunknown : j = .null ∨ ∃ ms, j = .object ms ∧ ∀ k : Kind, member ms Protocol.type ≠ .string k.text := by
    cases j with
    | null => exact Or.inl rfl
    | object ms =>
      refine Or.inr ⟨ms, rfl, ?_⟩
      intro k hk
      have ht := member_string.mp hk
      obtain ⟨id, hid⟩ := hj ⟨k, ht⟩
      simp [messageOf, hp, ht, hid] at hm
    | _ => exact hj.elim
  rw [handleRequest_unknown hp hunknown] at hh
  exact (Except.ok.inj hh).symm

end Server

namespace Broker

variable [DecidableEq κ]

/-- One turn of the accept loop, on a descriptor that is not open and a connection
not met before. -/
def accept (b : Broker κ) (a : Accepted κ) : Option (Broker κ) :=
  if b.fds a.fd = none ∧ a.conn ∉ b.history.map Entry.conn then
    (b.handle a.conn a.fd a.received a.forked).toOption
  else none

omit [DecidableEq κ]

/-- What a turn of the loop can be, when nothing is thrown. -/
inductive Turn (b : Broker κ) (a : Accepted κ) : Broker κ → Prop
  | unread (hr : a.received = .error) : Turn b a
      ⟨b.server, update b.fds a.fd (some a.conn), ⟨a.conn, a.fd, none, []⟩ :: b.history⟩
  | untyped {buf} (hr : a.received = .bytes buf) (hm : messageOf buf = none) : Turn b a
      ⟨b.server, b.fds,
        ⟨a.conn, a.fd, none, [.sent a.conn unexpectedRequest, .closed a.conn]⟩ :: b.history⟩
  | typed {buf m} (hr : a.received = .bytes buf) (hm : messageOf buf = some m) :
      Turn b a (b.next a.conn a.fd m a.forked)

theorem accept_turn [DecidableEq κ] {b b' : Broker κ} {a : Accepted κ} (h : b.accept a = some b') :
    b.fds a.fd = none ∧ a.conn ∉ b.history.map Entry.conn ∧ Turn b a b' := by
  unfold accept at h
  split_ifs at h with hg
  obtain ⟨hfd, hc⟩ := hg
  refine ⟨hfd, hc, ?_⟩
  cases hr : a.received with
  | error =>
    rw [hr] at h
    cases h
    exact .unread hr
  | bytes buf =>
    cases hm : messageOf buf with
    | some m =>
      rw [hr, handle_typed hm] at h
      cases h
      exact .typed hr hm
    | none =>
      rw [hr] at h
      cases hh : b.server.handleRequest a.fd (.bytes buf) a.forked with
      | error e =>
        simp only [handle, hh, bind, Except.bind] at h
        cases h
      | ok r =>
        obtain rfl := handleRequest_untyped hm hh
        simp only [handle, hh, bind, Except.bind, runAll_answer a.conn hfd, hm] at h
        cases h
        exact .untyped hr hm

/-! ## Entries without a message -/

variable [DecidableEq κ]

theorem registrant_silent {e : Entry κ} (h : e.message = none) (hist : List (Entry κ)) :
    registrant (e :: hist) = registrant hist := by
  funext id
  simp [registrant, Entry.registers, Entry.unregisters, h]

omit [DecidableEq κ] in
theorem waiting_silent {e : Entry κ} (h : e.message = none) (hist : List (Entry κ)) :
    waiting (e :: hist) = waiting hist := by
  funext s
  simp [waiting, Entry.forwards, Entry.reports, h]

/-- An entry without a message that touched its own connection only. -/
theorem sound_silent {b : Broker κ} (h : Sound b) {e : Entry κ} {fds : Int → Option κ} (hm : e.message = none)
    (hc : e.conn ∉ b.history.map Entry.conn) (hacts : ActsAsIntended b.history e)
    (hk : Agrees (registrant b.history) (waiting b.history) b.server fds)
    (hfds : ∀ f c, fds f = some c → c = e.conn ∨ b.fds f = some c) : Sound ⟨b.server, fds, e :: b.history⟩ := by
  refine ⟨?_, ?_, ?_, ?_, ?_⟩
  · show Agrees (registrant (e :: b.history)) (waiting (e :: b.history)) b.server fds
    rw [registrant_silent hm, waiting_silent hm]
    exact hk
  · intro e' h' hs
    rcases List.suffix_cons_iff.mp hs with heq | hs
    · obtain ⟨rfl, rfl⟩ := List.cons.inj heq
      exact hacts
    · exact h.acted e' h' hs
  · show ((e :: b.history).map Entry.conn).Nodup
    rw [List.map_cons, List.nodup_cons]
    exact ⟨hc, h.conns_nodup⟩
  · intro f c hf
    show c ∈ (e :: b.history).map Entry.conn
    rw [List.map_cons, List.mem_cons]
    exact (hfds f c hf).imp id (h.conns_met f c)
  · intro e' h' hs s hfor
    rcases List.suffix_cons_iff.mp hs with heq | hs
    · obtain ⟨rfl, rfl⟩ := List.cons.inj heq
      obtain ⟨hm', -⟩ := hfor
      rw [hm] at hm'
      cases hm'
    · exact h.clients_fresh e' h' hs s hfor

theorem turn_sound {b b' : Broker κ} {a : Accepted κ} (h : Sound b) (hfd : b.fds a.fd = none)
    (hc : a.conn ∉ b.history.map Entry.conn) (ht : Turn b a b') : Sound b' := by
  cases ht with
  | unread hr =>
    exact sound_silent h rfl hc (fun v hv => nomatch hv) (h.kept.opened hfd a.conn)
      fun f c hf => (update_some hf).imp (fun heq => (Option.some.inj heq.2).symm) id
  | untyped hr hm =>
    refine sound_silent h rfl hc ?_ h.kept fun f c hf => Or.inr hf
    intro v hv
    rcases List.mem_pair.mp hv with rfl | rfl <;> exact Or.inl rfl
  | typed hr hm => exact next_sound h hfd hc _ a.forked

/-! ## Which descriptors are open -/

end Broker

/-- The handling neither closed the sender's descriptor nor recorded it: the `recv`
failed, or the ID was taken. -/
def Entry.forgotten (e : Entry κ) : Prop :=
  e.message = none ∧ e.events = [] ∨
    ∃ id, e.message = some ⟨some .register, id⟩ ∧ e.events = [.sent e.conn idTaken]

/-- The connections of the registrants, of the waiting clients, and the forgotten ones. -/
def Held [DecidableEq κ] (h : List (Entry κ)) (e : Entry κ) : Prop :=
  (∃ id, registrant h id = some e) ∨ (∃ s, waiting h s = some e) ∨ e ∈ h ∧ e.forgotten

/-- The open descriptors are those of the entries that meet `P`. -/
def Filed (P : Entry κ → Prop) (fds : Int → Option κ) : Prop :=
  ∀ f c, fds f = some c ↔ ∃ e, P e ∧ e.conn = c ∧ (e.fd : Int) = f

theorem Filed.opened {P P' : Entry κ → Prop} {fds : Int → Option κ} (h : Filed P fds) {e : Entry κ}
    (hfd : fds e.fd = none) (hP : ∀ e', P' e' ↔ e' = e ∨ P e') : Filed P' (update fds e.fd (some e.conn)) := by
  intro f c
  constructor
  · intro hf
    by_cases hfe : f = e.fd
    · rw [hfe, update_self] at hf
      exact ⟨e, (hP e).mpr (Or.inl rfl), Option.some.inj hf, hfe.symm⟩
    · rw [update_of_ne hfe] at hf
      obtain ⟨e', he', hc, hf'⟩ := (h f c).mp hf
      exact ⟨e', (hP e').mpr (Or.inr he'), hc, hf'⟩
  · intro ⟨e', he', hc, hf⟩
    rcases (hP e').mp he' with rfl | he'
    · rw [← hf, update_self, hc]
    · exact Broker.update_old e.conn hfd ((h f c).mpr ⟨e', he', hc, hf⟩)

theorem Filed.closed {P P' : Entry κ → Prop} {fds : Int → Option κ} (h : Filed P fds) {e : Entry κ} (he : P e)
    (hinj : ∀ e', P e' → e'.conn = e.conn → e' = e) (hP : ∀ e', P' e' ↔ e' ≠ e ∧ P e') :
    Filed P' (update fds e.fd none) := by
  intro f c
  constructor
  · intro hf
    by_cases hfe : f = e.fd
    · rw [hfe, update_self] at hf
      cases hf
    · rw [update_of_ne hfe] at hf
      obtain ⟨e', he', hc, hf'⟩ := (h f c).mp hf
      have hne : e' ≠ e := fun heq => hfe (by rw [← hf', heq])
      exact ⟨e', (hP e').mpr ⟨hne, he'⟩, hc, hf'⟩
  · intro ⟨e', he', hc, hf⟩
    obtain ⟨hne, he'⟩ := (hP e').mp he'
    -- a descriptor stands for one connection, and a connection has sent one request
    have hfe : f ≠ e.fd := by
      intro heq
      have ho := (h f c).mpr ⟨e', he', hc, hf⟩
      have ho' := (h f e.conn).mpr ⟨e, he, rfl, heq.symm⟩
      rw [ho] at ho'
      exact hne (hinj e' he' (hc.trans (Option.some.inj ho')))
    rw [update_of_ne hfe]
    exact (h f c).mpr ⟨e', he', hc, hf⟩

theorem Filed.congr {P P' : Entry κ → Prop} {fds : Int → Option κ} (h : Filed P fds) (hP : ∀ e, P' e ↔ P e) :
    Filed P' fds := by
  intro f c
  rw [h f c]
  simp only [hP]

namespace Broker

variable [DecidableEq κ]

theorem Held.mem {h : List (Entry κ)} {e : Entry κ} (he : Held h e) : e ∈ h := by
  rcases he with ⟨_, hr⟩ | ⟨_, hw⟩ | ⟨hin, -⟩
  · exact (registrant_some hr).1
  · exact (waiting_some hw).1
  · exact hin

theorem held_cons {h : List (Entry κ)} {e0 e : Entry κ} : Held (e0 :: h) e ↔
    (∃ id, registrant (e0 :: h) id = some e) ∨ (∃ s, waiting (e0 :: h) s = some e) ∨
      e = e0 ∧ e0.forgotten ∨ e ∈ h ∧ e.forgotten := by
  unfold Held
  rw [List.mem_cons]
  grind

/-- An entry that changes no table and is not forgotten. -/
theorem held_same {h : List (Entry κ)} {e0 : Entry κ} (hR : registrant (e0 :: h) = registrant h)
    (hW : waiting (e0 :: h) = waiting h) (hn : ¬ e0.forgotten) (e : Entry κ) : Held (e0 :: h) e ↔ Held h e := by
  rw [held_cons, hR, hW]
  unfold Held
  grind

theorem held_forgotten {h : List (Entry κ)} {e0 : Entry κ} (hR : registrant (e0 :: h) = registrant h)
    (hW : waiting (e0 :: h) = waiting h) (hf : e0.forgotten) (e : Entry κ) :
    Held (e0 :: h) e ↔ e = e0 ∨ Held h e := by
  rw [held_cons, hR, hW]
  unfold Held
  grind

omit [DecidableEq κ] in
/-- A register that was told OK was recorded. -/
theorem registers_not_forgotten {e : Entry κ} {id : Bytes} (h : e.registers id) : ¬ e.forgotten := by
  obtain ⟨hm, hok⟩ := h
  have hne : okResponse ≠ idTaken := by decide +kernel
  intro hf
  cases hf with
  | inl hf =>
    rw [hm] at hf
    cases hf.1
  | inr hf =>
    obtain ⟨id', -, hev⟩ := hf
    rw [hev, List.mem_singleton] at hok
    exact hne (Event.sent.inj hok).2

omit [DecidableEq κ] in
/-- An answer to what is no typed request is not forgotten. -/
theorem not_forgotten_of_events {e : Entry κ} (hm : e.message = none) (hev : e.events ≠ []) : ¬ e.forgotten := by
  intro hf
  cases hf with
  | inl hf => exact hev hf.2
  | inr hf =>
    obtain ⟨id, hm', -⟩ := hf
    rw [hm] at hm'
    cases hm'

omit [DecidableEq κ] in
/-- Of typed requests only registers are forgotten. -/
theorem not_forgotten_of_kind {e : Entry κ} {k : Option Kind} {id : Bytes} (hm : e.message = some ⟨k, id⟩)
    (hk : k ≠ some .register) : ¬ e.forgotten := by
  intro hf
  cases hf with
  | inl hf =>
    rw [hm] at hf
    cases hf.1
  | inr hf =>
    obtain ⟨id', hm', -⟩ := hf
    rw [hm] at hm'
    cases hm'
    exact hk rfl

theorem registrant_not_forgotten {h : List (Entry κ)} {id : Bytes} {e : Entry κ} (hr : registrant h id = some e) :
    ¬ e.forgotten :=
  registers_not_forgotten (registrant_some hr).2

omit [DecidableEq κ] in
theorem waiting_not_forgotten {h : List (Entry κ)} {s : Bytes} {e : Entry κ} (hw : waiting h s = some e) :
    ¬ e.forgotten := by
  obtain ⟨id, hm⟩ := (waiting_some hw).2.connects
  exact not_forgotten_of_kind hm (by decide)

theorem handling_filed {b b' : Broker κ} {c : κ} {fd : Fd} {m : Message} {forked : Bool} (h : Sound b)
    (hf : Filed (Held b.history) b.fds) (hfd : b.fds fd = none) (hh : Handling b c fd forked m b') :
    Filed (Held b'.history) b'.fds := by
  have hinj : ∀ {e : Entry κ}, Held b.history e → ∀ e', Held b.history e' → e'.conn = e.conn → e' = e :=
    fun he e' he' hc => conn_inj h.conns_nodup (Held.mem he') (Held.mem he) hc
  cases hh with
  | @registered id hid =>
    let e0 : Entry κ := ⟨c, fd, some ⟨some .register, id⟩, [.sent c okResponse]⟩
    have hn : ¬ e0.forgotten := registers_not_forgotten ⟨rfl, List.mem_singleton_self _⟩
    refine hf.opened (e := e0) hfd ?_
    intro e
    rw [after, held_cons, registrant_register, update_exists_some (h.kept.not_registrant hid),
      waiting_other (k := some .register) (by decide) (by decide)]
    unfold Held
    grind
  | @taken id f r hid hr =>
    refine hf.opened (e := ⟨c, fd, some ⟨some .register, id⟩, [.sent c idTaken]⟩) hfd ?_
    exact held_forgotten (registrant_taken ..) (waiting_other (by decide) (by decide) ..) (Or.inr ⟨_, rfl, rfl⟩)
  | @unregistered id f r hid hr =>
    obtain ⟨o, ho, rfl, -⟩ := h.kept.registrant_of_lookup hid hr
    have hheld : Held b.history o := Or.inl ⟨id, ho⟩
    have honly : ∀ id', registrant b.history id' = some o → id' = id :=
      fun id' ho' => h.kept.distinct id' id o o ho' ho rfl
    have hwait : ∀ s, waiting b.history s ≠ some o := fun s hw => h.kept.apart id s o o ho hw rfl
    have hnot := registrant_not_forgotten ho
    let e0 : Entry κ := ⟨c, fd, some ⟨some .unregister, id⟩, [.closed r, .sent c okResponse, .closed c]⟩
    have hn : ¬ e0.forgotten := not_forgotten_of_kind rfl (by decide)
    refine hf.closed hheld (hinj hheld) ?_
    intro e
    rw [after, held_cons, registrant_unregister, update_exists_none ho honly,
      waiting_other (k := some .unregister) (by decide) (by decide)]
    unfold Held
    grind
  | unlisted hid =>
    refine hf.congr (held_same ?_ (waiting_other (by decide) (by decide) ..) (not_forgotten_of_kind rfl (by decide)))
    rw [registrant_unregister, update_none_self (h.kept.not_registrant hid)]
  | @forwarded id f r hid hr =>
    let e0 : Entry κ := ⟨c, fd, some ⟨some .connect, id⟩, [.sent r (makeProxyConnectRequest fd.toString)]⟩
    have hn : ¬ e0.forgotten := not_forgotten_of_kind rfl (by decide)
    refine hf.opened (e := e0) hfd ?_
    intro e
    rw [after, held_cons, waiting_forward, update_exists_some (h.kept.fresh_text hfd),
      registrant_other (k := some .connect) (by decide) (by decide)]
    unfold Held
    grind
  | refused hid =>
    exact hf.congr (held_same (registrant_other (by decide) (by decide) ..) (waiting_refused ..)
      (not_forgotten_of_kind rfl (by decide)))
  | @reported f client success hp hr =>
    obtain ⟨o, ho, rfl, -⟩ := h.kept.waiting_of_pending hp hr
    have hheld : Held b.history o := Or.inr (Or.inl ⟨_, ho⟩)
    have honly : ∀ s, waiting b.history s = some o → s = o.fd.toString := fun s hw => (h.kept.pending_open s o hw).1
    have hreg : ∀ id, registrant b.history id ≠ some o := fun id ho' => h.kept.apart id _ o o ho' ho rfl
    have hnot := waiting_not_forgotten ho
    let e0 : Entry κ :=
      ⟨c, fd, some ⟨some (reportKind success), o.fd.toString⟩, reportEvents client c success forked⟩
    have hn : ¬ e0.forgotten := not_forgotten_of_kind rfl (reportKind_ne success).1
    refine hf.closed hheld (hinj hheld) ?_
    intro e
    rw [after, held_cons, waiting_report, update_exists_none ho honly,
      registrant_other (reportKind_ne success).1 (reportKind_ne success).2]
    unfold Held
    grind
  | stray success hp =>
    refine hf.congr (held_same (registrant_other (reportKind_ne success).1 (reportKind_ne success).2 ..) ?_
      (not_forgotten_of_kind rfl (reportKind_ne success).1))
    rw [waiting_report, update_none_self (h.kept.not_waiting hp)]
  | unexpected =>
    exact hf.congr (held_same (registrant_other (by decide) (by decide) ..)
      (waiting_other (by decide) (by decide) ..) (not_forgotten_of_kind rfl (by decide)))

theorem turn_filed {b b' : Broker κ} {a : Accepted κ} (h : Sound b) (hf : Filed (Held b.history) b.fds)
    (hfd : b.fds a.fd = none) (ht : Turn b a b') : Filed (Held b'.history) b'.fds := by
  cases ht with
  | unread hr =>
    exact hf.opened (e := ⟨a.conn, a.fd, none, []⟩) hfd
      (held_forgotten (registrant_silent rfl _) (waiting_silent rfl _) (Or.inl ⟨rfl, rfl⟩))
  | untyped hr hm =>
    apply hf.congr
    apply held_same (registrant_silent rfl _) (waiting_silent rfl _)
    exact not_forgotten_of_events rfl (List.cons_ne_nil _ _)
  | typed hr hm => exact handling_filed h hf hfd (next_cases h.kept.tablesOpen hfd a.conn _ a.forked)

/-! ## Runs -/

/-- What each turn of the accept loop keeps. -/
structure Tracked (b : Broker κ) : Prop where
  sound : Sound b
  filed : Filed (Held b.history) b.fds

theorem tracked_init : Tracked (Broker.init : Broker κ) where
  sound := sound_init
  filed f c := by
    constructor
    · exact fun h => nomatch h
    · intro ⟨e, he, _⟩
      exact absurd (Held.mem he) (List.not_mem_nil)

theorem turn_tracked {b b' : Broker κ} {a : Accepted κ} (h : Tracked b)
    (hs : b.accept a = some b') : Tracked b' := by
  obtain ⟨hfd, hc, ht⟩ := accept_turn hs
  exact ⟨turn_sound h.sound hfd hc ht, turn_filed h.sound h.filed hfd ht⟩

/-- In every run of the accept loop. -/
theorem tracked_run {as : List (Accepted κ)} {b : Broker κ} (h : Transition.exec accept init as = some b) :
    Tracked b :=
  Transition.exec_invariant (fun _ _ _ => turn_tracked) tracked_init h

end Broker
end VirtualSocket
