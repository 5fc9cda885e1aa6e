import VirtualSocket.Registration

/- Whose registration an unregister request ends. The request names an ID only, and
   one shutdown can send several of them: the service proxy and each of its children
   runs `shutdown`. One that is late meets whatever registration the ID has by then.
   As long as the broker registers no ID that has an unregister request outstanding
   (`Settled`), every such request meets its sender's registration or none, and
   `own_registration_ended` follows. -/
namespace VirtualSocket.Rendezvous
open Json Protocol Server Broker ServiceProxy Function

/-- Every unregister request that ended a registration came from the proxy that had made it. -/
def EndsOwn (s : System) : Prop :=
  ∀ e h, e :: h <:+ s.broker.history → ∀ id, e.unregisters id → ∀ o, registrant h id = some o →
    s.opener e.conn = some o.conn

def Phase.inShutdown : Phase → Bool
  | .stopping _ => true
  | _ => false

def Stage.inShutdown : Stage → Bool
  | .stopping _ => true
  | _ => false

/-- Some process of the proxy is in `shutdown`. -/
def Proxy.Leaving (p : Proxy) : Prop :=
  p.phase.inShutdown = true ∨ ∃ c ∈ p.children, c.stage.inShutdown = true

/-- An unregister request for the ID is on its way, or a process that may send one is in `shutdown`. -/
def Unregistering (s : System) (id : Bytes) : Prop :=
  (∃ p ∈ s.proxies, p.id = id ∧ p.Leaving) ∨ ∃ a ∈ s.arrivals, a.request = some (.unregister, id)

/-- The request does not register an ID that is being unregistered. -/
def InOrder (s : System) : Request → Prop
  | some (.register, id) => s.broker.server.serverMap.lookup id = none → ¬ Unregistering s id
  | _ => True

def Settled (s : System) : Action → Prop
  | .brokerHandle i _ _ => ∀ a ∈ s.arrivals[i]?, InOrder s a.request
  | _ => True

instance (p : Proxy) : Decidable p.Leaving := inferInstanceAs (Decidable (_ ∨ ∃ c ∈ _, _))

instance (s : System) (id : Bytes) : Decidable (Unregistering s id) :=
  inferInstanceAs (Decidable ((∃ p ∈ _, _) ∨ ∃ a ∈ _, _))

instance (s : System) : (r : Request) → Decidable (InOrder s r)
  | some (.register, id) =>
    inferInstanceAs (Decidable (s.broker.server.serverMap.lookup id = none → ¬ Unregistering s id))
  | none | some (.unregister, _) | some (.connect, _) | some (.connectionCreated, _)
  | some (.connectionFailed, _) => inferInstanceAs (Decidable True)

instance (s : System) : (action : Action) → Decidable (Settled s action)
  | .brokerHandle i _ _ => inferInstanceAs (Decidable (∀ a ∈ s.arrivals[i]?, _))
  | .clientStart _ | .clientAbort | .proxyStart _ | .proxy .. => inferInstanceAs (Decidable True)

theorem endsOwn_iff {s : System} : EndsOwn s ↔ ∀ t ∈ s.broker.history.tails, ∀ e ∈ t.head?, ∀ m ∈ e.message,
    m.kind = some .unregister → ∀ o ∈ registrant t.tail m.nodeId, s.opener e.conn = some o.conn := by
  constructor
  · rintro h (_ | ⟨e, h'⟩) ht e' he ⟨kind, id⟩ hm rfl o ho
    · cases he
    · cases he
      exact h e h' ((List.mem_tails _ _).mp ht) id hm o ho
  · exact fun h e h' hs id hu o ho => h (e :: h') ((List.mem_tails _ _).mpr hs) e rfl _ hu rfl o ho

instance (s : System) : Decidable (EndsOwn s) := decidable_of_iff _ endsOwn_iff.symm

/-! ## The invariant -/

def Phase.gone : Phase → Bool
  | .stopping _ | .ended => true
  | _ => false

/-- The proxy was told OK and is not gone. -/
def Proxy.Working (h : List (Entry Conn)) (p : Proxy) : Prop :=
  p.phase.gone = false ∧ (p.phase = .starting → okResponse ∈ messagesOn p.control h)

/-- A registration of the ID, if there is one, is that made on `k`. -/
def OnlyOn (h : List (Entry Conn)) (id : Bytes) (k : Conn) : Prop :=
  ∀ o, registrant h id = some o → o.conn = k

structure Standing (h : List (Entry Conn)) (p : Proxy) : Prop where
  holds : p.Working h → ∃ o, registrant h p.id = some o ∧ o.conn = p.control
  yields : p.Leaving → OnlyOn h p.id p.control
  children : ∀ c ∈ p.children, c.stage.inShutdown = true → p.phase.gone = true

structure Ordered (s : System) : Prop where
  standing : ∀ p ∈ s.proxies, Standing s.broker.history p
  arrivals : ∀ a ∈ s.arrivals, ∀ id, a.request = some (.unregister, id) → ∃ k,
    s.opener a.conn = some k ∧ OnlyOn s.broker.history id k ∧
      ∀ p ∈ s.proxies, p.control = k → p.phase.gone = true
  ends : EndsOwn s

theorem ordered_init : Ordered System.init where
  standing _ h := nomatch h
  arrivals _ h := nomatch h
  ends _ _ hs := absurd (List.suffix_nil.mp hs) (List.cons_ne_nil _ _)

/-! ## A proxy takes a step -/

theorem OnlyOn.of_holds {h : List (Entry Conn)} {id : Bytes} {k : Conn}
    (hh : ∃ o, registrant h id = some o ∧ o.conn = k) : OnlyOn h id k := by
  obtain ⟨o, ho, hk⟩ := hh
  intro o' ho'
  rw [ho] at ho'
  cases ho'
  exact hk

/-- A step that puts no process into `shutdown`. -/
theorem Standing.mono {h : List (Entry Conn)} {p p' : Proxy} (hs : Standing h p) (hid : p'.id = p.id)
    (hc : p'.control = p.control) (hw : p'.Working h → p.Working h)
    (hg : p.phase.gone = true → p'.phase.gone = true)
    (hp : p'.phase.inShutdown = true → p.phase.inShutdown = true)
    (hch : ∀ c ∈ p'.children, c.stage.inShutdown = true → c ∈ p.children) : Standing h p' where
  holds hw' := by
    rw [hid, hc]
    exact hs.holds (hw hw')
  yields hl := by
    rw [hid, hc]
    exact hs.yields (hl.imp hp fun ⟨c, hin, hst⟩ => ⟨c, hch c hin hst, hst⟩)
  children c hin hst := hg (hs.children c (hch c hin hst) hst)

theorem gone_moves {p p' : Proxy} {closed : Bool} {action : ProxyAction} {requests : List Request}
    (hm : Proxy.Moves p closed action p' requests) (hg : p.phase.gone = true) : p'.phase.gone = true := by
  cases hm with
  | response hp | request hp | garbled hp | created _ hp | forked hp | unforked hp | killed hp =>
    rw [hp] at hg
    cases hg
  | hangup | interrupted | stopped => rfl
  | connected | failed | exited | childStopped => exact hg

theorem standing_moves {h : List (Entry Conn)} {p p' : Proxy} {closed : Bool} {action : ProxyAction}
    {requests : List Request} (hs : Standing h p) (hr : ReadsAll h p)
    (ht : RegisterTraffic (messagesOn p.control h)) (hm : Proxy.Moves p closed action p' requests) :
    Standing h p' := by
  have hg := gone_moves hm
  cases hm with
  | @response line rest hp hi =>
    rcases hr.response ht hp hi with ⟨rfl, -⟩ | ⟨rfl, -⟩
    · refine hs.mono rfl rfl (fun _ => ⟨by rw [hp]; rfl, ?_⟩) hg (by rw [registered_ok]; nofun) fun _ hc _ => hc
      intro _
      rw [← hr.starting hp, hi]
      exact List.mem_cons_self ..
    · exact hs.mono rfl rfl (by rw [registered_taken]; exact fun hw => nomatch hw.1) hg
        (by rw [registered_taken]; nofun) fun _ hc _ => hc
  | request hp | unforked hp =>
    exact hs.mono rfl rfl (fun _ => ⟨by rw [hp]; rfl, by rw [hp]; nofun⟩) hg nofun fun _ hc _ => hc
  | created ok hp =>
    exact hs.mono rfl rfl (fun _ => ⟨by rw [hp]; rfl, by rw [hp]; nofun⟩) hg (by cases ok <;> nofun)
      fun _ hc _ => hc
  | forked hp =>
    refine hs.mono rfl rfl (fun _ => ⟨by rw [hp]; rfl, by rw [hp]; nofun⟩) hg nofun ?_
    intro c hc hst
    apply (List.mem_append.mp hc).resolve_right
    intro hc
    rw [List.mem_singleton.mp hc] at hst
    cases hst
  | garbled | hangup | killed | stopped =>
    exact hs.mono rfl rfl (fun hw => nomatch hw.1) hg nofun fun _ hc _ => hc
  | connected hk =>
    refine hs.mono rfl rfl id hg id ?_
    intro c hc hst
    apply (List.mem_or_eq_of_mem_set hc).resolve_right
    intro heq
    rw [heq] at hst
    cases hst
  | failed | exited | childStopped =>
    exact hs.mono rfl rfl id hg id fun _ hc _ => List.eraseIdx_subset hc
  | interrupted hp =>
    -- the registration it holds is the one its processes are to end
    have hw : p.Working h := by
      rcases hp with ⟨hp | ⟨_, hp⟩, -⟩ | ⟨⟨_, hp⟩, -⟩ <;> exact ⟨by rw [hp]; rfl, by rw [hp]; nofun⟩
    exact ⟨fun hw' => absurd hw'.1 nofun, fun _ => OnlyOn.of_holds (hs.holds hw), fun _ _ _ => rfl⟩

/-- An unregister request stems from a process in `shutdown`. -/
theorem unregister_moves {p p' : Proxy} {closed : Bool} {action : ProxyAction} {requests : List Request}
    (hm : Proxy.Moves p closed action p' requests) {id : Bytes}
    (hid : some (.unregister, id) ∈ requests) : id = p.id ∧ p.Leaving := by
  have hfarewell : ∀ {unsent ok}, some (.unregister, id) ∈ p.farewell unsent ok → id = p.id := by
    intro unsent ok hin
    cases unsent <;> cases ok <;> simp [Proxy.farewell] at hin <;> exact hin
  cases hm with
  | stopped ok hp => exact ⟨hfarewell hid, Or.inl (by rw [hp]; rfl)⟩
  | childStopped ok hk => exact ⟨hfarewell hid, Or.inr ⟨_, List.mem_of_getElem? hk, rfl⟩⟩
  | unforked | connected | failed => cases List.mem_singleton.mp hid
  | _ => cases hid

/-! ## The system takes a step -/

theorem EndsOwn.mono {s s' : System} (h : EndsOwn s) (hb : s'.broker.history = s.broker.history)
    (ho : ∀ c ∈ s.broker.history.map Entry.conn, s'.opener c = s.opener c) : EndsOwn s' := by
  intro e hist hs id hu o hreg
  rw [hb] at hs
  rw [ho _ (List.mem_map_of_mem (hs.subset (List.mem_cons_self ..)))]
  exact h e hist hs id hu o hreg

/-- A new connection, with an unregister request on it only if its opener has the ID to itself. -/
theorem ordered_arrive {s : System} (hn : Named s) (h : Ordered s) {opener : Option Conn} {r : Request}
    (hr : ∀ id, r = some (.unregister, id) → ∃ k, opener = some k ∧ OnlyOn s.broker.history id k ∧
      ∀ p ∈ s.proxies, p.control = k → p.phase.gone = true) : Ordered (s.arrive opener r) where
  standing := h.standing
  arrivals a ha id hreq := by
    rcases mem_arrive.mp ha with ha | rfl
    · obtain ⟨k, hk, hrest⟩ := h.arrivals a ha id hreq
      exact ⟨k, (arrive_opener opener r (hn.arrivals_lt a ha)).trans hk, hrest⟩
    · obtain ⟨k, rfl, hrest⟩ := hr id hreq
      exact ⟨k, update_self .., hrest⟩
  ends := h.ends.mono rfl fun c hc => arrive_opener opener r (hn.met_lt c hc)

theorem ordered_arrivals {s : System} (hn : Named s) (h : Ordered s) {k : Conn}
    (hk : k ∈ s.names.map Prod.fst) {rs : List Request} (hr : ∀ id, some (.register, id) ∉ rs)
    (hu : ∀ id, some (.unregister, id) ∈ rs → OnlyOn s.broker.history id k ∧
      ∀ p ∈ s.proxies, p.control = k → p.phase.gone = true) :
    Ordered (rs.foldl (fun s r => s.arrive (some k) r) s) := by
  induction rs generalizing s with
  | nil => exact h
  | cons r rs ih =>
    have hn' : Named (s.arrive (some k) r) := named_arrive hn (fun k' hk' => Option.some.inj hk' ▸ hk)
      fun id heq => hr id (heq ▸ List.mem_cons_self ..)
    have h' : Ordered (s.arrive (some k) r) :=
      ordered_arrive hn h fun id heq => ⟨k, rfl, hu id (heq ▸ List.mem_cons_self ..)⟩
    exact ih hn' h' hk (fun id hin => hr id (List.mem_cons_of_mem r hin))
      fun id hin => hu id (List.mem_cons_of_mem r hin)

theorem ordered_joined {s : System} (hc : Consistent s) (h : Ordered s) (id : Bytes) :
    Ordered (s.joined id) := by
  have hnext : s.next ∉ s.broker.history.map Entry.conn :=
    fun hin => Nat.lt_irrefl _ (hc.named.met_lt _ hin)
  refine ⟨?_, ?_,
    h.ends.mono rfl fun c hc' => arrive_opener none (some (.register, id)) (hc.named.met_lt c hc')⟩
  · intro p hp
    rcases List.mem_append.mp hp with hp | hp
    · exact h.standing p hp
    · obtain rfl := List.mem_singleton.mp hp
      refine ⟨?_, ?_, fun _ hin => nomatch hin⟩
      · intro hw
        have hok := hw.2 rfl
        change okResponse ∈ messagesOn s.next s.broker.history at hok
        rw [messages_unmet hc.inv.sound hnext] at hok
        cases hok
      · intro hl
        rcases hl with hl | ⟨_, hin, -⟩
        · cases hl
        · cases hin
  · intro a ha id' hreq
    rcases mem_joined.mp ha with ha | rfl
    · obtain ⟨k, hk, honly, hgone⟩ := h.arrivals a ha id' hreq
      refine ⟨k, (arrive_opener none (some (.register, id)) (hc.named.arrivals_lt a ha)).trans hk, honly, ?_⟩
      intro p hp hpk
      rcases List.mem_append.mp hp with hp | hp
      · exact hgone p hp hpk
      · obtain rfl := List.mem_singleton.mp hp
        obtain ⟨n, hn, rfl⟩ := List.mem_map.mp (hc.named.opener_known a.conn k hk)
        exact absurd hpk (Nat.ne_of_gt (hc.named.controls_lt n hn))
    · cases hreq

theorem ordered_moved {s : System} (hc : Consistent s) (h : Ordered s) {i : Nat} {p p' : Proxy}
    {closed : Bool} {action : ProxyAction} {requests : List Request} (hp : s.proxies[i]? = some p)
    (hm : Proxy.Moves p closed action p' requests) : Ordered (s.moved i p p' requests) := by
  obtain ⟨hcontrol, hid, hr⟩ := moves_names hm
  have hin : p ∈ s.proxies := List.mem_of_getElem? hp
  have hstanding := h.standing p hin
  have ht := hc.registration.control hin
  have hset : ∀ k, (∀ q ∈ s.proxies, q.control = k → q.phase.gone = true) →
      ∀ q ∈ s.proxies.set i p', q.control = k → q.phase.gone = true := by
    intro k hgone q hq hqk
    rcases List.mem_or_eq_of_mem_set hq with hq | rfl
    · exact hgone q hq hqk
    · exact gone_moves hm (hgone p hin (hcontrol ▸ hqk))
  have h' : Ordered { s with proxies := s.proxies.set i p' } := by
    refine ⟨?_, ?_, h.ends⟩
    · intro q hq
      rcases List.mem_or_eq_of_mem_set hq with hq | rfl
      · exact h.standing q hq
      · exact standing_moves hstanding (hc.registration.reads p hin) ht hm
    · intro a ha id hreq
      obtain ⟨k, hk, honly, hgone⟩ := h.arrivals a ha id hreq
      exact ⟨k, hk, honly, hset k hgone⟩
  have hnames : { s with proxies := s.proxies.set i p' }.names = s.names := names_set hp hcontrol hid
  refine ordered_arrivals (hc.named.mono hnames (List.Sublist.refl _) rfl rfl rfl) h' ?_ hr ?_
  · rw [hnames]
    exact List.mem_map_of_mem (f := Prod.fst) (List.mem_map_of_mem hin)
  · intro id hu
    obtain ⟨rfl, hl⟩ := unregister_moves hm hu
    refine ⟨hstanding.yields hl, hset _ ?_⟩
    intro q hq hqk
    have heq : q = p := List.inj_on_of_nodup_map hc.named.proxies_nodup hq hin hqk
    rw [heq]
    rcases hl with hl | ⟨c, hcin, hcst⟩
    · revert hl
      cases p.phase <;> simp [Phase.inShutdown, Phase.gone]
    · exact hstanding.children c hcin hcst

/-- What is not registered by the latest entry can only have been unregistered by it. -/
theorem OnlyOn.cons {h : List (Entry Conn)} {id : Bytes} {k : Conn} {e : Entry Conn} (ho : OnlyOn h id k)
    (hr : ¬ e.registers id) : OnlyOn (e :: h) id k := by
  intro o hreg
  rw [registrant, if_neg hr] at hreg
  split_ifs at hreg
  exact ho o hreg

theorem ordered_handled {s : System} (hc : Consistent s) (h : Ordered s) {i : Nat} {a : Arrival}
    (ha : s.arrivals[i]? = some a) {fd : Fd} (hfd : s.broker.fds fd = none) {k : Kind} {id : Bytes}
    (hr : a.request = some (k, id)) (forked : Bool)
    (hset : k = .register → s.broker.server.serverMap.lookup id = none → ¬ Unregistering s id) :
    Ordered (s.handled i (s.broker.next a.conn fd ⟨some k, id⟩ forked)) := by
  have hin : a ∈ s.arrivals := List.mem_of_getElem? ha
  have hs := hc.inv.sound
  have hh := next_cases hs.kept.tablesOpen hfd a.conn ⟨some k, id⟩ forked
  obtain ⟨e, he, hec, -, hem, -⟩ := hh.acts hs.kept
  have hsent := fun {n} (hn' : n ∈ s.names) => sent_control hc.named hs hin hr hh hn'
  have hfree : ∀ {id'}, e.registers id' → registrant s.broker.history id' = none ∧ ¬ Unregistering s id' := by
    intro id' hreg
    have hm := hem.symm.trans hreg.1
    cases hm
    rcases hh.of_register with ⟨hid, -⟩ | ⟨f, r, -, -, hb⟩
    · exact ⟨hs.kept.not_registrant hid, hset rfl hid⟩
    · rw [hb] at he
      obtain ⟨rfl, -⟩ := List.cons.inj he
      have hne : okResponse ≠ idTaken := by decide +kernel
      have hok := List.mem_singleton.mp hreg.2
      exact absurd (Event.sent.inj hok).2 hne
  have hended : ∀ {id'}, e.unregisters id' → ∃ k', s.opener a.conn = some k' ∧
      OnlyOn s.broker.history id' k' ∧ ∀ p ∈ s.proxies, p.control = k' → p.phase.gone = true := by
    intro id' hun
    have hm := hem.symm.trans hun
    cases hm
    exact h.arrivals a hin _ hr
  generalize s.broker.next a.conn fd ⟨some k, id⟩ forked = b at *
  have hlatest : System.latest b = e.events := by rw [System.latest, he]
  refine ⟨?_, ?_, ?_⟩
  · intro q hq
    obtain ⟨p, hp, rfl⟩ := mem_deliver hq
    have hstanding := h.standing p hp
    show Standing b.history _
    rw [he]
    refine ⟨?_, ?_, hstanding.children⟩
    · intro hw
      show ∃ o, registrant (e :: s.broker.history) p.id = some o ∧ o.conn = p.control
      by_cases hw' : p.Working s.broker.history
      · -- a registration that stands is neither replaced nor ended by somebody else
        obtain ⟨o, ho, hoc⟩ := hstanding.holds hw'
        have hr' : ¬ e.registers p.id := fun hreg => by
          rw [(hfree hreg).1] at ho
          cases ho
        have hu' : ¬ e.unregisters p.id := fun hun => by
          obtain ⟨k', -, honly, hgone⟩ := hended hun
          exact absurd (hgone p hp (hoc.symm.trans (honly o ho))) (by rw [hw'.1]; exact Bool.false_ne_true)
        exact ⟨o, by rw [registrant, if_neg hr', if_neg hu', ho], hoc⟩
      · -- it was told OK by this entry, which is then its register request
        have hp' : p.phase = .starting := by
          by_contra hne
          exact hw' ⟨hw.1, fun heq => absurd heq hne⟩
        have hok : okResponse ∈ messagesOn p.control (e :: s.broker.history) := hw.2 hp'
        rw [messagesOn_cons, ← hlatest, List.mem_append] at hok
        have hok := hok.resolve_left fun hold => hw' ⟨hw.1, fun _ => hold⟩
        have hreg : e.conn = p.control ∧ e.registers p.id := by
          have hname : (p.control, p.id) ∈ s.names := List.mem_map_of_mem (f := fun p => (p.control, p.id)) hp
          have hsentok : .sent p.control okResponse ∈ e.events := hlatest ▸ mem_sentOn.mp hok
          rcases hsent hname with hnil | ⟨hcon, -⟩ | ⟨id', o, -, -, -, hline⟩
          · rw [hnil] at hok
            cases hok
          · have hreq := hc.named.control_arrival _ hname a hin hcon
            rw [hr] at hreq
            cases hreq
            exact ⟨hec.trans hcon, hem, (hec.trans hcon) ▸ hsentok⟩
          · rw [hline, List.mem_singleton] at hok
            exact absurd hok (makeResponse_ne_makeRequest _ _ _ _)
        exact ⟨e, by rw [registrant, if_pos hreg.2], hreg.1⟩
    · intro hl
      exact (hstanding.yields hl).cons fun hreg => (hfree hreg).2 (Or.inl ⟨p, hp, rfl, hl⟩)
  · intro a' ha' id' hreq
    -- an ID with an unregister request on the way is not registered now
    have hin' : a' ∈ s.arrivals := List.eraseIdx_subset ha'
    obtain ⟨k', hk', honly, hgone⟩ := h.arrivals a' hin' id' hreq
    refine ⟨k', hk', ?_, ?_⟩
    · show OnlyOn b.history id' k'
      rw [he]
      exact honly.cons fun hreg => (hfree hreg).2 (Or.inr ⟨a', hin', hreq⟩)
    · intro q hq hqk
      obtain ⟨p, hp, rfl⟩ := mem_deliver hq
      exact hgone p hp hqk
  · intro e' h' hs' id' hun o ho
    change e' :: h' <:+ b.history at hs'
    rw [he] at hs'
    rcases List.suffix_cons_iff.mp hs' with heq | hs'
    · obtain ⟨rfl, rfl⟩ := List.cons.inj heq
      obtain ⟨k', hk', honly, -⟩ := hended hun
      show s.opener e'.conn = some o.conn
      rw [hec, hk', honly o ho]
    · exact h.ends e' h' hs' id' hun o ho

theorem ordered_step {s s' : System} {action : Action} (hc : Consistent s) (h : Ordered s)
    (hset : Settled s action) (hs : s.step action = some s') : Ordered s' := by
  cases System.step_moves hs with
  | clientStarted | clientAborted => exact ordered_arrive hc.named h nofun
  | proxyStarted => exact ordered_joined hc h _
  | handled ha _ hfd hr =>
    apply ordered_handled hc h ha hfd hr _
    intro hk hl
    subst hk
    have horder : InOrder s (some (.register, _)) := hr ▸ hset _ ha
    exact horder hl
  | died =>
    exact ⟨h.standing, fun a ha => h.arrivals a (List.eraseIdx_subset ha), h.ends⟩
  | proxyMoved hp hm => exact ordered_moved hc h hp hm

/-- In a run where no ID is registered while it is being unregistered, an unregister
request ends its sender's registration only. -/
theorem own_registration_ended {as : List Action} {s : System}
    (h : Transition.exec System.step System.init as = some s)
    (hset : Transition.Along System.step Settled System.init as) : EndsOwn s := by
  have hordered := run_along ordered_step ordered_init hset h
  exact hordered.ends

/-- A service shuts down, and another registers the ID when the broker has seen to that. -/
def restart : List Action :=
  [.proxyStart (str "a"), .brokerHandle 0 4 true, .proxy 0 .recv, .proxy 0 .interrupt, .proxy 0 (.stop true),
    .brokerHandle 0 5 true, .proxyStart (str "a"), .brokerHandle 0 4 true]

theorem own_registration_ended_restart :
    ∃ s, Transition.exec System.step System.init restart = some s ∧ EndsOwn s := by
  have hs : (Transition.exec System.step System.init restart).isSome = true := by decide +kernel
  have hset : Transition.Along System.step Settled System.init restart := by decide +kernel
  obtain ⟨s, hs⟩ := Option.isSome_iff_exists.mp hs
  exact ⟨s, hs, own_registration_ended hs hset⟩

/-- A service with one session is interrupted, so that it and the child both unregister;
another registers the ID between the two requests. -/
def lateUnregister : List Action :=
  acquaintance ++ [.proxy 0 .interrupt, .proxy 0 (.stop true), .proxy 0 (.childStop 0 true),
    .brokerHandle 0 7 true, .proxyStart (str "a"), .brokerHandle 1 4 true, .brokerHandle 0 7 true]

theorem other_registration_ended :
    ∃ s ∈ Transition.exec System.step System.init lateUnregister, ¬ EndsOwn s := by
  decide +kernel

end VirtualSocket.Rendezvous
