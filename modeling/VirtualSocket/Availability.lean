import VirtualSocket.Progress
import VirtualSocket.Unregister
import VirtualSocket.Vanishing

/- Who keeps being served, when connections break as well. A connection is broken
   when a `send` on it raises SIGPIPE: on Linux, when its peer has closed it and then
   reset it, or when an earlier call has had the error of a reset. The broker blocks
   and handles no SIGPIPE, so it is gone, with what it was about to do. `Exposed` is
   the system of `Rendezvous` where connections break, any of them at any time. The
   broker lives exactly as long as each connection it takes up brings a request that
   it can answer, or pass along, on a connection that is not broken. And while it does,
   the service proxies with an ID keep what they have, as long as no interrupt reaches
   one of them and no control connection breaks under one: with no interrupt there is
   no process in `shutdown`, so no unregister request for the ID, so the registration
   stands and no control connection is closed; and what they read there they can read,
   so they never leave their loops (`available`). Other services may come, go and fail
   as they like.

   Correspondence (C++ ↔ Lean):
     `send` in `Server::handleRequest`, `updateConnectionStatus` ↔ `Broker.sendsOn`, `Exposed.raises` -/
namespace VirtualSocket.Rendezvous
open Json Protocol Server Broker ServiceProxy Function

/-- The system, and the connections on which a `send` of the broker raises SIGPIPE. -/
structure Exposed where
  system : System
  broken : Conn → Bool

inductive Incident where
  | act (action : Action)
  | breaks (c : Conn)
  deriving DecidableEq

/-- No interrupt reaches a service proxy with the ID. -/
def Spared (id : Bytes) (s : System) : Action → Prop
  | .proxy i .interrupt => ∀ p ∈ s.proxies[i]?, p.id ≠ id
  | _ => True

instance (id : Bytes) (s : System) : (action : Action) → Decidable (Spared id s action)
  | .proxy i .interrupt => inferInstanceAs (Decidable (∀ p ∈ s.proxies[i]?, _))
  | .proxy _ .recv | .proxy _ .eof | .proxy _ (.create _) | .proxy _ (.fork _) | .proxy _ (.service ..)
  | .proxy _ (.childExit _) | .proxy _ (.stop _) | .proxy _ (.childStop ..) => inferInstanceAs (Decidable True)
  | .clientStart _ | .clientAbort | .proxyStart _ | .brokerHandle .. => inferInstanceAs (Decidable True)

/-- The broker is gone before it is done with an arrival. -/
def System.killed (s : System) (i : Nat) : System :=
  { s with arrivals := s.arrivals.eraseIdx i, alive := false }

namespace Exposed

def init : Exposed := ⟨System.init, fun _ => false⟩

/-- Handling the arrival, the broker sends on a broken connection. -/
def raises (e : Exposed) (i : Nat) (fd : Fd) (forked : Bool) : Bool :=
  match e.system.arrivals[i]? with
  | none => false
  | some a => (e.system.broker.sendsOn ⟨a.conn, fd, a.line, forked⟩).any e.broken

def step (e : Exposed) : Incident → Option Exposed
  | .act (.brokerHandle i fd forked) =>
    (e.system.step (.brokerHandle i fd forked)).map fun s =>
      if e.raises i fd forked then { e with system := e.system.killed i } else { e with system := s }
  | .act action => (e.system.step action).map fun s => { e with system := s }
  | .breaks c =>
    if c < e.system.next then some { e with broken := update e.broken c true } else none

/-- A connection that the broker takes up brings a request, and the one it is answered on, or passed
along on, is not broken. -/
def Unbroken (e : Exposed) : Incident → Prop
  | .act (.brokerHandle i _ _) => ∀ a ∈ e.system.arrivals[i]?, ∃ m, messageOf a.line = some m ∧
      ∀ c ∈ answered e.system.broker.history a.conn m, e.broken c = false
  | _ => True

/-- No interrupt reaches a service proxy with the ID, and no control connection breaks under one: its
`recv` would have the error. -/
def Spared (id : Bytes) (e : Exposed) : Incident → Prop
  | .act action => Rendezvous.Spared id e.system action
  | .breaks c => ∀ p ∈ e.system.proxies, p.id = id → p.control = c → p.phase = .ended

instance (id : Bytes) (e : Exposed) : (incident : Incident) → Decidable (e.Spared id incident)
  | .act action => inferInstanceAs (Decidable (Rendezvous.Spared id e.system action))
  | .breaks c => inferInstanceAs
    (Decidable (∀ p ∈ e.system.proxies, p.id = id → p.control = c → p.phase = .ended))

/-- The proxy's register request is still to be taken up. -/
def Awaits (e : Exposed) (p : Proxy) : Prop :=
  p.phase = .starting ∧ p.control ∈ e.system.arrivals.map Arrival.conn

/-- It has been told that the ID is taken, and reads no more than that. -/
def Refused (e : Exposed) (p : Proxy) : Prop :=
  (p.phase = .starting ∨ p.phase = .ended) ∧ messagesOn p.control e.system.broker.history = [idTaken]

/-- It has not ended, its registration stands, and each connect request for its ID that the broker takes up
is passed to it, which the broker survives. -/
def Serves (e : Exposed) (p : Proxy) : Prop :=
  p.phase.gone = false ∧ (∃ o, registrant e.system.broker.history p.id = some o ∧ o.conn = p.control) ∧
    ∀ i a (fd : Fd) forked, e.system.arrivals[i]? = some a → a.request = some (.connect, p.id) →
      e.system.broker.fds fd = none →
        ∃ e', e.step (.act (.brokerHandle i fd forked)) = some e' ∧ e'.system.alive = true ∧
          System.latest e'.system.broker = [.sent p.control (makeProxyConnectRequest fd.toString)]

end Exposed

theorem okResponse_ne_idTaken : okResponse ≠ idTaken := by decide +kernel

/-! ## The invariant -/

/-- What is kept for the service proxies with an ID that no interrupt has reached. -/
structure Serving (id : Bytes) (s : System) : Prop where
  quiet : ¬ Unregistering s id
  holds : ∀ p ∈ s.proxies, p.id = id → okResponse ∈ messagesOn p.control s.broker.history →
    ∃ o, registrant s.broker.history id = some o ∧ o.conn = p.control
  opened : ∀ p ∈ s.proxies, p.id = id → .closed p.control ∉ eventsOn p.control s.broker.history
  answered : ∀ p ∈ s.proxies, p.id = id → p.control ∈ s.broker.history.map Entry.conn →
    messagesOn p.control s.broker.history ≠ []
  ended : s.alive = true → ∀ p ∈ s.proxies, p.id = id → p.phase = .ended →
    idTaken ∈ messagesOn p.control s.broker.history

theorem serving_init (id : Bytes) : Serving id System.init where
  quiet h := h.elim (fun ⟨_, hp, _⟩ => nomatch hp) (fun ⟨_, ha, _⟩ => nomatch ha)
  holds _ hp := nomatch hp
  opened _ hp := nomatch hp
  answered _ hp := nomatch hp
  ended _ _ hp := nomatch hp

section
variable {id : Bytes} {s : System}

theorem Serving.not_leaving (h : Serving id s) {p : Proxy} (hp : p ∈ s.proxies) (hid : p.id = id) :
    ¬ p.Leaving :=
  fun hl => h.quiet (Or.inl ⟨p, hp, hid, hl⟩)

theorem mem_eventsOn {c : Conn} {v : Event Conn} {hist : List (Entry Conn)} :
    v ∈ eventsOn c hist ↔ v.touches c = true ∧ ∃ e ∈ hist, v ∈ e.events := by
  induction hist with
  | nil => simp [eventsOn]
  | cons e hist ih =>
    rw [eventsOn, List.mem_append, ih, List.mem_filter]
    simp only [List.exists_mem_cons_iff]
    grind

/-- While the broker lives, the control connection is not closed. -/
theorem Serving.not_closed (h : Serving id s) (hlive : s.alive = true) {p : Proxy} (hp : p ∈ s.proxies)
    (hid : p.id = id) : s.closed p.control = false := by
  unfold System.closed
  rw [hlive, Bool.not_true, Bool.false_or, List.any_eq_false]
  intro e he hany
  obtain ⟨v, hv, hclosed⟩ := List.any_eq_true.mp hany
  have hcv : v = .closed p.control := of_decide_eq_true hclosed
  exact h.opened p hp hid (mem_eventsOn.mpr ⟨by simp [Event.touches], e, he, hcv ▸ hv⟩)

/-! ## New connections and proxies -/

theorem serving_arrive (h : Serving id s) (opener : Option Conn) {r : Request}
    (hr : r ≠ some (.unregister, id)) :
    Serving id (s.arrive opener r) := by
  refine ⟨?_, h.holds, h.opened, h.answered, h.ended⟩
  intro hun
  apply h.quiet
  rcases hun with hun | ⟨a, ha, hreq⟩
  · exact Or.inl hun
  · rcases mem_arrive.mp ha with ha | rfl
    · exact Or.inr ⟨a, ha, hreq⟩
    · exact absurd hreq hr

theorem serving_arrivals (h : Serving id s) (k : Conn) {rs : List Request} (hr : some (.unregister, id) ∉ rs) :
    Serving id (rs.foldl (fun s r => s.arrive (some k) r) s) := by
  induction rs generalizing s with
  | nil => exact h
  | cons r rs ih =>
    obtain ⟨hne, hrest⟩ := not_or.mp (mt List.mem_cons.mpr hr)
    exact ih (serving_arrive h (some k) (Ne.symm hne)) hrest

theorem serving_joined (hc : Consistent s) (h : Serving id s) (id' : Bytes) : Serving id (s.joined id') := by
  have hnext : s.next ∉ s.broker.history.map Entry.conn := fun hin => Nat.lt_irrefl _ (hc.named.met_lt _ hin)
  have hnil : messagesOn s.next s.broker.history = [] := messages_unmet hc.inv.sound hnext
  have hold : ∀ {p}, p ∈ (s.joined id').proxies → p ∈ s.proxies ∨ p = ⟨id', s.next, .starting, [], []⟩ := by
    intro p hp
    exact (List.mem_append.mp hp).imp_right List.mem_singleton.mp
  refine ⟨?_, ?_, ?_, ?_, ?_⟩
  · intro hun
    apply h.quiet
    rcases hun with ⟨p, hp, hid, hl⟩ | ⟨a, ha, hreq⟩
    · rcases hold hp with hp | rfl
      · exact Or.inl ⟨p, hp, hid, hl⟩
      · rcases hl with hl | ⟨_, hin, -⟩
        · cases hl
        · cases hin
    · rcases mem_joined.mp ha with ha | rfl
      · exact Or.inr ⟨a, ha, hreq⟩
      · cases hreq
  · intro p hp hid hok
    rcases hold hp with hp | rfl
    · exact h.holds p hp hid hok
    · change okResponse ∈ messagesOn s.next s.broker.history at hok
      rw [hnil] at hok
      cases hok
  · intro p hp hid
    rcases hold hp with hp | rfl
    · exact h.opened p hp hid
    · show .closed s.next ∉ eventsOn s.next s.broker.history
      rw [eventsOn_unmet hc.inv.sound.acted hnext]
      exact List.not_mem_nil
  · intro p hp hid hmet
    rcases hold hp with hp | rfl
    · exact h.answered p hp hid hmet
    · exact absurd hmet hnext
  · intro hlive p hp hid hend
    rcases hold hp with hp | rfl
    · exact h.ended hlive p hp hid hend
    · cases hend

/-! ## A proxy takes a step -/

/-- Without an interrupt, no process of the proxy enters `shutdown`. -/
theorem leaving_moves {p p' : Proxy} {closed : Bool} {action : ProxyAction} {requests : List Request}
    (hm : Proxy.Moves p closed action p' requests) (hl : ¬ p.Leaving) (ha : action ≠ .interrupt) :
    ¬ p'.Leaving := by
  have hchild : ∀ c ∈ p.children, ¬ c.stage.inShutdown = true := fun c hc hst => hl (Or.inr ⟨c, hc, hst⟩)
  have hkeep : ∀ {ph : Phase} {cs : List Child}, ph.inShutdown = false →
      (∀ c ∈ cs, ¬ c.stage.inShutdown = true) →
        ¬ (ph.inShutdown = true ∨ ∃ c ∈ cs, c.stage.inShutdown = true) := by
    intro ph cs hph hcs hor
    rcases hor with hph' | ⟨c, hc, hst⟩
    · exact absurd (hph.symm.trans hph') Bool.false_ne_true
    · exact hcs c hc hst
  have hphase : p.phase.inShutdown = false := Bool.eq_false_iff.mpr fun hph => hl (Or.inl hph)
  cases hm with
  | @response line rest hp hi =>
    cases hok : registered line
    · exact hkeep rfl hchild
    · exact hkeep rfl hchild
  | created ok hp =>
    cases ok
    · exact hkeep rfl hchild
    · exact hkeep rfl hchild
  | request | garbled | hangup | unforked => exact hkeep rfl hchild
  | forked hp =>
    apply hkeep rfl
    intro c hc
    rcases List.mem_append.mp hc with hc | hc
    · exact hchild c hc
    · rw [List.mem_singleton.mp hc]
      exact Bool.false_ne_true
  | connected hk =>
    apply hkeep hphase
    intro c hc
    rcases List.mem_or_eq_of_mem_set hc with hc | rfl
    · exact hchild c hc
    · exact Bool.false_ne_true
  | failed | exited | childStopped => exact hkeep hphase fun c hc => hchild c (List.eraseIdx_subset hc)
  | killed | interrupted => exact absurd rfl ha
  | stopped ok hp =>
    rw [hp] at hphase
    cases hphase

/-- A proxy that no interrupt reaches ends only when it is refused, or when the broker has closed
its connection. -/
theorem ended_moves {hist : List (Entry Conn)} {p p' : Proxy} {closed : Bool} {action : ProxyAction}
    {requests : List Request} (hr : ReadsAll hist p) (ht : RegisterTraffic (messagesOn p.control hist))
    (hm : Proxy.Moves p closed action p' requests) (hl : ¬ p.Leaving) (ha : action ≠ .interrupt)
    (he : p'.phase = .ended) :
    p.phase = .ended ∨ closed = true ∨ idTaken ∈ messagesOn p.control hist := by
  cases hm with
  | @response line rest hp hi =>
    rcases hr.response ht hp hi with ⟨rfl, -⟩ | ⟨rfl, -⟩
    · rw [registered_ok] at he
      cases he
    · right; right
      rw [← hr.starting hp, hi]
      exact List.mem_cons_self ..
  | @garbled line rest hp hi hc =>
    -- in its loop it finds connect lines only
    obtain ⟨clientID, rfl⟩ := hr.next_line ht (by rw [hp]; nofun) (by rw [hp]; nofun)
      (hi ▸ List.mem_cons_self ..)
    rw [clientOf_connect] at hc
    cases hc
  | hangup hc => exact Or.inr (Or.inl hc)
  | created ok hp => cases ok <;> cases he
  | request | forked | unforked => cases he
  | connected | failed | exited | childStopped => exact Or.inl he
  | killed | interrupted => exact absurd rfl ha
  | stopped ok hp => exact absurd (Or.inl (by rw [hp]; rfl)) hl

theorem serving_moved (hc : Consistent s) (h : Serving id s) {i : Nat} {p p' : Proxy} {action : ProxyAction}
    {requests : List Request} (hp : s.proxies[i]? = some p) (hspared : p.id = id → action ≠ .interrupt)
    (hm : Proxy.Moves p (s.closed p.control) action p' requests) : Serving id (s.moved i p p' requests) := by
  obtain ⟨hcontrol, hpid, -⟩ := moves_names hm
  have hin : p ∈ s.proxies := List.mem_of_getElem? hp
  have hset : ∀ {q : Proxy}, q ∈ s.proxies.set i p' → q ∈ s.proxies ∨ q = p' := List.mem_or_eq_of_mem_set
  apply serving_arrivals (s := { s with proxies := s.proxies.set i p' })
  · refine ⟨?_, ?_, ?_, ?_, ?_⟩
    · intro hun
      rcases hun with ⟨q, hq, hid, hl⟩ | harr
      · rcases hset hq with hq | rfl
        · exact h.not_leaving hq hid hl
        · rw [hpid] at hid
          exact leaving_moves hm (h.not_leaving hin hid) (hspared hid) hl
      · exact h.quiet (Or.inr harr)
    · intro q hq hid hok
      rcases hset hq with hq | rfl
      · exact h.holds q hq hid hok
      · rw [hcontrol] at hok ⊢
        exact h.holds p hin (hpid ▸ hid) hok
    · intro q hq hid
      rcases hset hq with hq | rfl
      · exact h.opened q hq hid
      · rw [hcontrol]
        exact h.opened p hin (hpid ▸ hid)
    · intro q hq hid hmet
      rcases hset hq with hq | rfl
      · exact h.answered q hq hid hmet
      · rw [hcontrol] at hmet ⊢
        exact h.answered p hin (hpid ▸ hid) hmet
    · intro hlive q hq hid hend
      rcases hset hq with hq | rfl
      · exact h.ended hlive q hq hid hend
      · rw [hpid] at hid
        rw [hcontrol]
        rcases ended_moves (hc.registration.reads p hin) (hc.registration.control hin)
          hm (h.not_leaving hin hid)
          (hspared hid) hend with hend | hclosed | htaken
        · exact h.ended hlive p hin hid hend
        · rw [h.not_closed hlive hin hid] at hclosed
          cases hclosed
        · exact htaken
  · intro hreq
    obtain ⟨rfl, hl⟩ := unregister_moves hm hreq
    exact h.not_leaving hin rfl hl

/-! ## The broker takes up an arrival -/

/-- All that comes of a register request is the response to it, and it is OK only for an ID not in the table. -/
theorem register_latest {b b' : Broker Conn} {c : Conn} {fd : Fd} {forked : Bool} {id : Bytes}
    (hh : Handling b c fd forked ⟨some .register, id⟩ b') :
    System.latest b' = [.sent c okResponse] ∧ b.server.serverMap.lookup id = none ∨
      System.latest b' = [.sent c idTaken] := by
  rcases hh.of_register with ⟨hid, rfl⟩ | ⟨_, _, -, -, rfl⟩
  · exact Or.inl ⟨rfl, hid⟩
  · exact Or.inr rfl

/-- An ID is registered only where it is not in the table. -/
theorem registers_unlisted {b b' : Broker Conn} {c : Conn} {fd : Fd} {forked : Bool} {m : Message}
    (hh : Handling b c fd forked m b') {e : Entry Conn} (he : b'.history = e :: b.history)
    (hm : e.message = some m)
    {id : Bytes} (hr : e.registers id) : b.server.serverMap.lookup id = none := by
  obtain ⟨hmsg, hok⟩ := hr
  obtain rfl := Option.some.inj (hm.symm.trans hmsg)
  have hlatest : System.latest b' = e.events := by rw [System.latest, he]
  rcases register_latest hh with ⟨-, hid⟩ | htaken
  · exact hid
  · rw [← hlatest, htaken, List.mem_singleton] at hok
    exact absurd (Event.sent.inj hok).2 okResponse_ne_idTaken

/-- A connect request for a registered ID is passed to its registrant. -/
theorem connect_latest {b : Broker Conn} (hk : Kept b) {id : Bytes} {o : Entry Conn}
    (ho : registrant b.history id = some o) (c : Conn) {fd : Fd} (hfd : b.fds fd = none) (forked : Bool) :
    System.latest (b.next c fd ⟨some .connect, id⟩ forked) =
      [.sent o.conn (makeProxyConnectRequest fd.toString)] := by
  have hid : b.server.serverMap.lookup id = some o.fd := by
    rw [hk.registered id, ho]
    rfl
  rcases (next_cases hk.tablesOpen hfd c ⟨some .connect, id⟩ forked).of_connect
    with ⟨hnone, -⟩ | ⟨f, r, hf, hr, hb⟩
  · rw [hid] at hnone
    cases hnone
  · obtain rfl := Option.some.inj (hid.symm.trans hf)
    obtain rfl := Option.some.inj ((hk.registered_open id o ho).symm.trans hr)
    rw [hb]
    rfl

theorem serving_handled (hc : Consistent s) (h : Serving id s) {i : Nat} {a : Arrival}
    (ha : s.arrivals[i]? = some a) {fd : Fd} (hfd : s.broker.fds fd = none) {k : Kind} {id' : Bytes}
    (hr : a.request = some (k, id')) (hlive : s.alive = true) (forked : Bool) :
    Serving id (s.handled i (s.broker.next a.conn fd ⟨some k, id'⟩ forked)) := by
  have hin : a ∈ s.arrivals := List.mem_of_getElem? ha
  have hs := hc.inv.sound
  have hh := next_cases hs.kept.tablesOpen hfd a.conn ⟨some k, id'⟩ forked
  obtain ⟨e, he, hec, -, hem, hacts⟩ := hh.acts hs.kept
  have hun : ¬ e.unregisters id := by
    intro hu
    obtain ⟨hk, rfl⟩ := Message.mk.inj (Option.some.inj (hem.symm.trans hu))
    exact h.quiet (Or.inr ⟨a, hin, by rw [hr, Option.some.inj hk]⟩)
  have hname : ∀ {p}, p ∈ s.proxies → (p.control, p.id) ∈ s.names :=
    fun hp => List.mem_map_of_mem (f := fun p => (p.control, p.id)) hp
  have hsent := fun {p} (hp : p ∈ s.proxies) => sent_control hc.named hs hin hr hh (hname hp)
  have hlatest : System.latest (s.broker.next a.conn fd ⟨some k, id'⟩ forked) = e.events := by
    rw [System.latest, he]
  have hmessages : ∀ c, messagesOn c (s.broker.next a.conn fd ⟨some k, id'⟩ forked).history =
      messagesOn c s.broker.history ++ sentOn c e.events := by
    intro c
    rw [he, messagesOn_cons]
  refine ⟨?_, ?_, ?_, ?_, ?_⟩
  · intro hunreg
    apply h.quiet
    rcases hunreg with ⟨q, hq, hid, hl⟩ | ⟨a', ha', hreq⟩
    · obtain ⟨p, hp, rfl⟩ := mem_deliver hq
      exact Or.inl ⟨p, hp, hid, hl⟩
    · exact Or.inr ⟨a', List.eraseIdx_subset ha', hreq⟩
  · intro q hq hid hok
    obtain ⟨p, hp, rfl⟩ := mem_deliver hq
    change p.id = id at hid
    change okResponse ∈ messagesOn p.control (s.broker.next a.conn fd ⟨some k, id'⟩ forked).history at hok
    show ∃ o, registrant (s.broker.next a.conn fd ⟨some k, id'⟩ forked).history id = some o ∧ o.conn = p.control
    have hold : okResponse ∈ messagesOn p.control s.broker.history →
        ∃ o, registrant (s.broker.next a.conn fd ⟨some k, id'⟩ forked).history id = some o ∧
          o.conn = p.control := by
      intro hok
      obtain ⟨o, ho, hoc⟩ := h.holds p hp hid hok
      have hreg : ¬ e.registers id := by
        intro hreg
        have hnone := registers_unlisted hh he hem hreg
        rw [hs.kept.registered id, ho] at hnone
        cases hnone
      exact ⟨o, by rw [he, registrant, if_neg hreg, if_neg hun, ho], hoc⟩
    rw [hmessages, List.mem_append, ← hlatest] at hok
    rcases hok with hok | hok
    · exact hold hok
    · rcases hsent hp with hnil | ⟨hac, hres | hres⟩ | ⟨_, _, -, -, -, hcon⟩
      · rw [hnil] at hok
        cases hok
      · -- this is the response to its own register request
        have hreq := hc.named.control_arrival _ (hname hp) a hin hac
        rw [hr] at hreq
        cases hreq
        have hsent : .sent p.control okResponse ∈ e.events := by
          rw [← mem_sentOn, ← hlatest, hres]
          exact List.mem_singleton_self _
        have hreg : e.registers p.id := ⟨hem, by rw [hec, hac]; exact hsent⟩
        refine ⟨e, ?_, hec.trans hac⟩
        rw [he, registrant, if_pos (hid ▸ hreg)]
      · rw [hres, List.mem_singleton] at hok
        exact absurd hok okResponse_ne_idTaken
      · rw [hcon, List.mem_singleton] at hok
        have hnone : clientOf okResponse = none := clientOf_response true []
        rw [hok, clientOf_connect] at hnone
        cases hnone
  · intro q hq hid
    obtain ⟨p, hp, rfl⟩ := mem_deliver hq
    change p.id = id at hid
    show .closed p.control ∉ eventsOn p.control (s.broker.next a.conn fd ⟨some k, id'⟩ forked).history
    rw [he, eventsOn, List.mem_append]
    intro hor
    rcases hor with hclosed | hclosed
    · exact h.opened p hp hid hclosed
    · have hclosed := List.mem_of_mem_filter hclosed
      rcases hacts _ hclosed with hown | ⟨id'', o, hu, ho, hoc⟩ | ⟨x, o, -, hw, hoc⟩
      · have hreq := hc.named.control_arrival _ (hname hp) a hin (hec.symm.trans hown.symm)
        rw [hr] at hreq
        cases hreq
        rcases register_latest hh with ⟨hmsg, -⟩ | hmsg <;>
        · rw [← hlatest, hmsg, List.mem_singleton] at hclosed
          cases hclosed
      · obtain ⟨hoin, hreg, -⟩ := registrant_some ho
        have hmsg := hc.named.control_entry _ (hname hp) o hoin hoc.symm
        obtain rfl := (Message.mk.inj (Option.some.inj (hreg.symm.trans hmsg))).2
        exact hun (hid ▸ hu)
      · obtain ⟨hoin, hf⟩ := waiting_some hw
        have hmsg := hc.named.control_entry _ (hname hp) o hoin hoc.symm
        obtain ⟨id'', hcon⟩ := hf.connects
        cases hcon.symm.trans hmsg
  · intro q hq hid hmet
    obtain ⟨p, hp, rfl⟩ := mem_deliver hq
    change p.control ∈ (s.broker.next a.conn fd ⟨some k, id'⟩ forked).history.map Entry.conn at hmet
    show messagesOn p.control (s.broker.next a.conn fd ⟨some k, id'⟩ forked).history ≠ []
    rw [he, List.map_cons, List.mem_cons] at hmet
    rw [hmessages]
    intro hnil
    obtain ⟨hbefore, hnow⟩ := List.append_eq_nil_iff.mp hnil
    rcases hmet with hown | hmet
    · have hreq := hc.named.control_arrival _ (hname hp) a hin (hec.symm.trans hown.symm)
      rw [hr] at hreq
      cases hreq
      have hsent : ∃ msg, .sent p.control msg ∈ e.events := by
        rw [← hlatest, hown, hec]
        rcases register_latest hh with ⟨hmsg, -⟩ | hmsg <;>
        · rw [hmsg]
          exact ⟨_, List.mem_singleton_self _⟩
      obtain ⟨msg, hsent⟩ := hsent
      rw [← mem_sentOn, hnow] at hsent
      cases hsent
    · exact h.answered p hp hid hmet hbefore
  · intro _ q hq hid hend
    obtain ⟨p, hp, rfl⟩ := mem_deliver hq
    show idTaken ∈ messagesOn p.control (s.broker.next a.conn fd ⟨some k, id'⟩ forked).history
    rw [hmessages]
    exact List.mem_append_left _ (h.ended hlive p hp hid hend)

theorem serving_step {s' : System} {action : Action} (hc : Consistent s) (h : Serving id s)
    (hspared : Spared id s action) (hs : s.step action = some s') : Serving id s' := by
  cases System.step_moves hs with
  | clientStarted | clientAborted => exact serving_arrive h none (by simp)
  | proxyStarted => exact serving_joined hc h _
  | handled ha hlive hfd hr => exact serving_handled hc h ha hfd hr hlive _
  | died =>
    refine ⟨?_, h.holds, h.opened, h.answered, nofun⟩
    intro hun
    exact h.quiet (hun.imp_right fun ⟨a, ha, hreq⟩ => ⟨a, List.eraseIdx_subset ha, hreq⟩)
  | @proxyMoved i action p p' requests hp hm =>
    refine serving_moved hc h hp ?_ hm
    intro hid hint
    rw [hint] at hspared
    exact hspared p hp hid

end

/-! ## Connections that break -/

/-- A proxy that has ended stays so. -/
theorem ended_stays {p p' : Proxy} {closed : Bool} {action : ProxyAction} {requests : List Request}
    (hm : Proxy.Moves p closed action p' requests) (h : p.phase = .ended) : p'.phase = .ended := by
  cases hm with
  | connected | failed | exited | childStopped => exact h
  | hangup | garbled | killed | stopped => rfl
  | interrupted hp => rcases hp with ⟨hp | ⟨_, hp⟩, -⟩ | ⟨⟨_, hp⟩, -⟩ <;> (rw [hp] at h; cases h)
  | response hp | request hp | created _ hp | forked hp | unforked hp =>
    rw [hp] at h
    cases h

/-- A broker that is gone does not come back. -/
theorem alive_before {s s' : System} {action : Action} (hs : s.step action = some s') (h : s'.alive = true) :
    s.alive = true := by
  cases System.step_moves hs with
  | clientStarted | clientAborted | proxyStarted => exact h
  | handled _ hlive | died _ hlive => exact hlive
  | proxyMoved =>
    rw [(moved_frame ..).2.1] at h
    exact h

theorem next_le {s s' : System} {action : Action} (hs : s.step action = some s') : s.next ≤ s'.next := by
  cases System.step_moves hs with
  | clientStarted | clientAborted | proxyStarted => exact Nat.le_succ _
  | handled | died => exact Nat.le_refl _
  | @proxyMoved i action p p' requests =>
    have hfold : ∀ (rs : List Request) (t : System),
        t.next ≤ (rs.foldl (fun s r => s.arrive (some p.control) r) t).next := by
      intro rs
      induction rs with
      | nil => exact fun t => Nat.le_refl _
      | cons r rs ih => exact fun t => (Nat.le_succ t.next).trans (ih (t.arrive (some p.control) r))
    exact hfold requests { s with proxies := s.proxies.set i p' }

namespace Exposed

/-- What a step can be: one of the system, the end of the broker by SIGPIPE, or a connection that breaks. -/
inductive Moves (e : Exposed) : Incident → Exposed → Prop
  | acted {action s'} (hs : e.system.step action = some s')
      (hraises : ∀ i fd forked, action = .brokerHandle i fd forked → e.raises i fd forked = false) :
      Moves e (.act action) { e with system := s' }
  | killed {i fd forked s'} (hs : e.system.step (.brokerHandle i fd forked) = some s')
      (hraises : e.raises i fd forked = true) :
      Moves e (.act (.brokerHandle i fd forked)) { e with system := e.system.killed i }
  | broke {c} (hc : c < e.system.next) : Moves e (.breaks c) { e with broken := update e.broken c true }

theorem step_moves {e e' : Exposed} {incident : Incident} (h : e.step incident = some e') :
    Moves e incident e' := by
  cases incident with
  | breaks c =>
    simp only [step] at h
    split_ifs at h with hg
    cases h
    exact .broke hg
  | act action =>
    cases action with
    | brokerHandle i fd forked =>
      obtain ⟨s', hs, rfl⟩ := Option.map_eq_some_iff.mp h
      cases hr : e.raises i fd forked with
      | true => exact .killed hs hr
      | false =>
        refine .acted hs ?_
        intro i' fd' forked' heq
        cases heq
        exact hr
    | clientStart | clientAbort | proxyStart | proxy =>
      simp only [step] at h
      obtain ⟨s', hs, rfl⟩ := Option.map_eq_some_iff.mp h
      exact .acted hs nofun

/-- What every step keeps while the broker lives. -/
structure Steady (e : Exposed) : Prop where
  consistent : Consistent e.system
  heard : Heard e.system
  come : ∀ c, e.broken c = true → c < e.system.next

theorem steady_init : Steady init where
  consistent := consistent_init
  heard := heard_init
  come _ h := nomatch h

theorem steady_acted {e : Exposed} (h : Steady e) {s' : System} {action : Action}
    (hs : e.system.step action = some s') : Steady { e with system := s' } where
  consistent := consistent_step h.consistent hs
  heard := heard_step h.consistent h.heard hs
  come c hc := (h.come c hc).trans_le (next_le hs)

theorem steady_broke {e : Exposed} (h : Steady e) {c : Conn} (hc : c < e.system.next) :
    Steady { e with broken := update e.broken c true } where
  consistent := h.consistent
  heard := h.heard
  come c' hb := by
    by_cases heq : c' = c
    · exact heq ▸ hc
    · change update e.broken c true c' = true at hb
      rw [update_of_ne heq] at hb
      exact h.come c' hb

/-- A step after which the broker lives is one of the system, or breaks a connection. -/
theorem steady_step {e e' : Exposed} {incident : Incident} (h : e.system.alive = true → Steady e)
    (hs : e.step incident = some e') (halive : e'.system.alive = true) : Steady e' := by
  cases step_moves hs with
  | acted hstep => exact steady_acted (h (alive_before hstep halive)) hstep
  | killed => cases halive
  | broke hc => exact steady_broke (h halive) hc

/-! ## What the broker sends on -/

/-- Of an arrival with a request, the broker sends on the connection the request is answered on. -/
theorem raises_iff {e : Exposed} (h : Steady e) {i : Nat} {a : Arrival} (ha : e.system.arrivals[i]? = some a)
    {fd : Fd} (hfd : e.system.broker.fds fd = none) {m : Message} (hm : messageOf a.line = some m)
    (forked : Bool) :
    e.raises i fd forked = false ↔ ∀ c ∈ answered e.system.broker.history a.conn m, e.broken c = false := by
  have hsends : e.system.broker.sendsOn ⟨a.conn, fd, a.line, forked⟩ =
      (answered e.system.broker.history a.conn m).toList := sendsOn_eq h.consistent.inv.sound.kept hfd hm
  simp only [raises, ha, hsends, List.any_eq_false, Option.mem_toList, Option.mem_def, Bool.not_eq_true]

theorem alive_incident {e e' : Exposed} {incident : Incident} (h : e.system.alive = true → Steady e)
    (hs : e.step incident = some e') :
    e'.system.alive = true ↔ e.system.alive = true ∧ e.Unbroken incident := by
  have hunread : ∀ {i : Nat} {a : Arrival} {fd : Fd} {forked : Bool}, e.system.arrivals[i]? = some a →
      a.request = none → ¬ e.Unbroken (.act (.brokerHandle i fd forked)) := by
    intro i a fd forked ha hr hun
    obtain ⟨m, hm, -⟩ := hun a ha
    rw [show a.line = [] by simp only [Arrival.line, hr]] at hm
    cases hm
  cases step_moves hs with
  | acted hstep hraises =>
    cases System.step_moves hstep with
    | clientStarted | clientAborted | proxyStarted => exact (and_iff_left trivial).symm
    | handled ha hlive hfd hr =>
      refine ⟨fun _ => ⟨hlive, ?_⟩, fun _ => hlive⟩
      intro a' ha'
      obtain rfl := Option.some.inj (ha.symm.trans ha')
      have hm := messageOf_arrival hr
      exact ⟨_, hm, (raises_iff (h hlive) ha hfd hm _).mp (hraises _ _ _ rfl)⟩
    | died ha _ _ hr =>
      constructor
      · intro hdead
        cases hdead
      · intro hun
        exact absurd hun.2 (hunread ha hr)
    | proxyMoved hp hm =>
      rw [(moved_frame ..).2.1]
      exact (and_iff_left trivial).symm
  | killed hstep hraises =>
    constructor
    · intro hdead
      cases hdead
    · intro hun
      cases System.step_moves hstep with
      | handled ha hlive hfd hr =>
        obtain ⟨m, hm, hbroken⟩ := hun.2 _ ha
        rw [(raises_iff (h hlive) ha hfd hm _).mpr hbroken] at hraises
        cases hraises
      | died ha _ _ hr => exact absurd hun.2 (hunread ha hr)
  | broke => exact (and_iff_left trivial).symm

/-! ## The proxy that is spared -/

/-- The control connections of the service proxies with the ID are not broken, up to their ends. -/
def Held (id : Bytes) (e : Exposed) : Prop :=
  ∀ p ∈ e.system.proxies, p.id = id → p.phase ≠ .ended → e.broken p.control = false

theorem held_acted {id : Bytes} {e : Exposed} (h : Steady e) (hheld : Held id e) {s' : System} {action : Action}
    (hs : e.system.step action = some s') : Held id { e with system := s' } := by
  cases System.step_moves hs with
  | clientStarted | clientAborted | died => exact hheld
  | proxyStarted =>
    intro p hp hid hne
    rcases List.mem_append.mp hp with hp | hp
    · exact hheld p hp hid hne
    · -- nothing has broken the connection it starts with
      rw [List.mem_singleton.mp hp]
      exact Bool.eq_false_iff.mpr fun hb => Nat.lt_irrefl _ (h.come _ hb)
  | handled =>
    intro q hq hid hne
    obtain ⟨p, hp, rfl⟩ := mem_deliver hq
    exact hheld p hp hid hne
  | @proxyMoved i action p p' requests hp hm =>
    intro q hq hid hne
    rw [(moved_frame ..).2.2] at hq
    rcases List.mem_or_eq_of_mem_set hq with hq | rfl
    · exact hheld q hq hid hne
    · obtain ⟨hcontrol, hpid, -⟩ := moves_names hm
      rw [hcontrol]
      exact hheld p (List.mem_of_getElem? hp) (hpid ▸ hid) fun hend => hne (ended_stays hm hend)

theorem held_broke {id : Bytes} {e : Exposed} (hheld : Held id e) {c : Conn}
    (hspared : Spared id e (.breaks c)) :
    Held id { e with broken := update e.broken c true } := by
  intro p hp hid hne
  show update e.broken c true p.control = false
  rw [update_of_ne fun heq => hne (hspared p hp hid heq)]
  exact hheld p hp hid hne

theorem serving_run {id : Bytes} {as : List Incident} {e : Exposed}
    (hspared : Transition.Along step (Spared id) init as) (h : Transition.exec step init as = some e)
    (halive : e.system.alive = true) : Serving id e.system ∧ Held id e := by
  have hstep : ∀ (u : Exposed) incident u',
      (u.system.alive = true → u.Steady ∧ Serving id u.system ∧ Held id u) → Spared id u incident →
      u.step incident = some u' → u'.system.alive = true → u'.Steady ∧ Serving id u'.system ∧ Held id u' := by
    intro u incident u' hu hsp hs hlive
    refine ⟨steady_step (fun hu' => (hu hu').1) hs hlive, ?_⟩
    cases step_moves hs with
    | acted hact =>
      obtain ⟨hsteady, hserving, hheld⟩ := hu (alive_before hact hlive)
      exact ⟨serving_step hsteady.consistent hserving hsp hact, held_acted hsteady hheld hact⟩
    | killed => cases hlive
    | broke =>
      obtain ⟨-, hserving, hheld⟩ := hu hlive
      exact ⟨hserving, held_broke hheld hsp⟩
  have hinit : init.system.alive = true → init.Steady ∧ Serving id init.system ∧ Held id init :=
    fun _ => ⟨steady_init, serving_init id, fun _ _ _ _ => rfl⟩
  exact (Transition.exec_invariant_along hstep hinit hspared h halive).2

section
variable {id : Bytes} {e : Exposed} {p : Proxy}

/-- A proxy that no interrupt reaches and that was told OK serves. -/
theorem Steady.serves (h : e.Steady) (hs : Serving id e.system) (hheld : Held id e)
    (hlive : e.system.alive = true) (hp : p ∈ e.system.proxies) (hid : p.id = id) {ids : List Bytes}
    (hids : messagesOn p.control e.system.broker.history = okResponse :: ids.map makeProxyConnectRequest) :
    e.Serves p := by
  have hok : okResponse ∈ messagesOn p.control e.system.broker.history := by
    rw [hids]
    exact List.mem_cons_self ..
  obtain ⟨o, ho, hoc⟩ := hs.holds p hp hid hok
  have hend : p.phase ≠ .ended := by
    intro hph
    have htaken := hs.ended hlive p hp hid hph
    rw [hids, List.mem_cons, List.mem_map] at htaken
    rcases htaken with heq | ⟨x, -, hx⟩
    · exact absurd heq okResponse_ne_idTaken.symm
    · have hnone : clientOf idTaken = none := by decide +kernel
      rw [← hx, clientOf_connect] at hnone
      cases hnone
  have hgone : p.phase.gone = false := by
    cases hph : p.phase with
    | ended => exact absurd hph hend
    | stopping => exact absurd (Or.inl (by rw [hph]; rfl)) (hs.not_leaving hp hid)
    | _ => rfl
  refine ⟨hgone, ⟨o, hid ▸ ho, hoc⟩, ?_⟩
  intro i a fd forked ha hr hfd
  rw [hid] at hr
  have hm := messageOf_arrival hr
  have hanswered : answered e.system.broker.history a.conn ⟨some .connect, id⟩ = some p.control := by
    simp only [answered, ho, hoc]
  have hraises : e.raises i fd forked = false := by
    rw [raises_iff h ha hfd hm, hanswered]
    intro c hc
    rw [← Option.some.inj hc]
    exact hheld p hp hid hend
  have hstep : e.system.step (.brokerHandle i fd forked) =
      some (e.system.handled i (e.system.broker.next a.conn fd ⟨some .connect, id⟩ forked)) := by
    simp only [System.step, ha]
    rw [if_pos ⟨hlive, hfd⟩, handle_typed hm]
    rfl
  refine ⟨{ e with system := e.system.handled i (e.system.broker.next a.conn fd ⟨some .connect, id⟩ forked) },
    ?_, hlive, ?_⟩
  · simp only [step, hstep, Option.map_some, hraises, Bool.false_eq_true, if_false]
  · show System.latest (e.system.broker.next a.conn fd ⟨some .connect, id⟩ forked) = _
    rw [connect_latest h.consistent.inv.sound.kept ho a.conn hfd forked, hoc]

theorem Steady.attended (h : e.Steady) (hs : Serving id e.system) (hheld : Held id e)
    (hlive : e.system.alive = true) (hp : p ∈ e.system.proxies) (hid : p.id = id) :
    e.Awaits p ∨ e.Refused p ∨ e.Serves p := by
  have hreads := h.consistent.registration.reads p hp
  rcases h.consistent.registration.control hp with hnil | htaken | ⟨ids, hids⟩
  · -- nothing was sent to it: its request has not been taken up, and it waits for the response
    left
    have hstart : p.phase = .starting := by
      by_contra hne
      have hend : p.phase ≠ .ended := by
        intro hend
        have htaken := hs.ended hlive p hp hid hend
        rw [hnil] at htaken
        cases htaken
      obtain ⟨read, hread⟩ := hreads.running hne hend
      rw [hnil] at hread
      cases hread
    have hlt : p.control < e.system.next :=
      h.consistent.named.controls_lt _ (List.mem_map_of_mem (f := fun p => (p.control, p.id)) hp)
    have hunmet : p.control ∉ e.system.broker.history.map Entry.conn :=
      fun hmet => hs.answered p hp hid hmet hnil
    exact ⟨hstart, (h.heard.come hlive p.control hlt).resolve_right hunmet⟩
  · right; left
    refine ⟨?_, htaken⟩
    by_contra hne
    obtain ⟨hne, hend⟩ := not_or.mp hne
    obtain ⟨read, hread⟩ := hreads.running hne hend
    rw [htaken] at hread
    exact absurd (List.cons.inj hread).1 okResponse_ne_idTaken.symm
  · right; right
    exact h.serves hs hheld hlive hp hid hids

end
end Exposed

/-! ## Runs -/

/-- A service is interrupted and cannot connect to unregister, and its connection breaks under the first
request it is passed; the second such request ends the broker. -/
example : (Transition.exec Exposed.step Exposed.init (([.proxyStart (str "a"), .brokerHandle 0 4 true, .proxy 0 .recv,
    .proxy 0 .interrupt, .proxy 0 (.stop false), .clientStart (str "a"), .brokerHandle 0 5 true,
    .clientStart (str "a")].map .act) ++ [.breaks 0, .act (.brokerHandle 0 6 true)])).map (fun e => e.system.alive) =
      some false := by decide +kernel

end VirtualSocket.Rendezvous
