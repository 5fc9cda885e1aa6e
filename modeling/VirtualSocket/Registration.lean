import VirtualSocket.Agreement

/- What a service proxy reads on its control connection. The broker sends a register
   request one response, and connect lines only after it was OK; what has been read
   and what waits in the inbox make up what was sent. So a proxy that was refused has
   nothing else to read, and one that was not never meets a line it cannot take for
   a connect request. -/
namespace VirtualSocket.Rendezvous
open Json Protocol Server Broker ServiceProxy Function

/-- The messages on the connection of a register request. -/
def RegisterTraffic (msgs : List Bytes) : Prop :=
  msgs = [] ∨ msgs = [idTaken] ∨ ∃ ids : List Bytes, msgs = okResponse :: ids.map makeProxyConnectRequest

/-- A proxy has read what was sent to it, up to what is in its inbox. -/
structure ReadsAll (h : List (Entry Conn)) (p : Proxy) : Prop where
  starting : p.phase = .starting → p.inbox = messagesOn p.control h
  running : p.phase ≠ .starting → p.phase ≠ .ended →
    ∃ read, messagesOn p.control h = okResponse :: (read ++ p.inbox)

structure Registration (s : System) : Prop where
  traffic : ∀ n ∈ s.names, RegisterTraffic (messagesOn n.1 s.broker.history)
  reads : ∀ p ∈ s.proxies, ReadsAll s.broker.history p

/-! ## The lines of a control connection -/

theorem messagesOn_cons (c : Conn) (e : Entry Conn) (h : List (Entry Conn)) :
    messagesOn c (e :: h) = messagesOn c h ++ sentOn c e.events := by
  have hev : ∀ events : List (Event Conn),
      (events.filter (Event.touches c)).filterMap Event.message = sentOn c events := by
    intro events
    rw [sentOn, List.filterMap_filter]
    congr 1
    funext v
    cases v <;> simp [Event.touches, Event.message]
  rw [messagesOn, eventsOn, List.filterMap_append, hev]
  rfl

theorem messages_unmet {b : Broker Conn} (hs : Sound b) {c : Conn} (hc : c ∉ b.history.map Entry.conn) :
    messagesOn c b.history = [] := by
  rw [messagesOn, eventsOn_unmet hs.acted hc]
  rfl

/-- Who registered was told so. -/
theorem ok_mem_messages {h : List (Entry Conn)} {o : Entry Conn} {id : Bytes} (ho : o ∈ h)
    (hr : o.registers id) : okResponse ∈ messagesOn o.conn h := by
  induction h with
  | nil => cases ho
  | cons e h ih =>
    rw [messagesOn_cons, List.mem_append]
    rcases List.mem_cons.mp ho with rfl | ho
    · exact Or.inr (mem_sentOn.mpr hr.2)
    · exact Or.inl (ih ho)

/-- A registrant's connection carries connect lines after the OK response. -/
theorem RegisterTraffic.accepted {msgs : List Bytes} (h : RegisterTraffic msgs) (hok : okResponse ∈ msgs) :
    ∃ ids : List Bytes, msgs = okResponse :: ids.map makeProxyConnectRequest := by
  rcases h with rfl | rfl | h
  · cases hok
  · have hne : okResponse ≠ idTaken := by decide +kernel
    exact absurd (List.mem_singleton.mp hok) hne
  · exact h

/-- On the connection of a register request, a handling sends the response to it or
a connect line to the registrant, and nothing else. -/
theorem sent_registered {b b' : Broker Conn} {c : Conn} {fd : Fd} {forked : Bool} {m : Message}
    (hh : Handling b c fd forked m b') (hs : Sound b) {k : Conn} {id : Bytes}
    (hown : c = k → m = ⟨some .register, id⟩)
    (hold : ∀ e ∈ b.history, e.conn = k → e.message = some ⟨some .register, id⟩) :
    sentOn k (System.latest b') = [] ∨
      (c = k ∧ (sentOn k (System.latest b') = [okResponse] ∨ sentOn k (System.latest b') = [idTaken])) ∨
      ∃ id' o, m = ⟨some .connect, id'⟩ ∧ registrant b.history id' = some o ∧ o.conn = k ∧
        sentOn k (System.latest b') = [makeProxyConnectRequest fd.toString] := by
  have hother : ∀ {m' : Message}, (c = k → m' = ⟨some .register, id⟩) → m'.kind ≠ some Kind.register → c ≠ k :=
    fun h hk hc => hk (by rw [h hc])
  cases hh with
  | registered | taken =>
    by_cases hc : c = k
    · simp [sentOn, System.latest, after, hc]
    · simp [sentOn, System.latest, after, hc]
  | unregistered | unlisted | refused | unexpected =>
    left
    simp [sentOn, System.latest, after, hother hown (by simp)]
  | @forwarded id' f r hid hr =>
    by_cases hk : r = k
    · obtain ⟨o, ho, -, hor⟩ := hs.kept.registrant_of_lookup hid hr
      exact Or.inr (Or.inr ⟨_, o, rfl, ho, hor.trans hk, by simp [sentOn, System.latest, after, hk]⟩)
    · left
      simp [sentOn, System.latest, after, hk]
  | @reported f client success hp hr =>
    left
    obtain ⟨w, hw, -, rfl⟩ := hs.kept.waiting_of_pending hp hr
    have hclient : w.conn ≠ k := by
      intro heq
      obtain ⟨id', hc⟩ := (waiting_some hw).2.connects
      have hm : w.message = some ⟨some .connect, id'⟩ := hc
      rw [hold w (waiting_some hw).1 heq] at hm
      cases hm
    cases success <;> cases forked <;> simp [sentOn, System.latest, after, reportEvents, hclient]
  | stray success =>
    left
    have hc : c ≠ k := hother hown (reportKind_ne success).1
    simp [sentOn, System.latest, after, hc]

/-! ## The invariant -/

theorem registration_init : Registration System.init where
  traffic _ h := nomatch h
  reads _ h := nomatch h

theorem Registration.mono {s s' : System} (h : Registration s) (hn : s'.names = s.names)
    (hb : s'.broker.history = s.broker.history) (hp : s'.proxies = s.proxies) : Registration s' where
  traffic n hin := hb ▸ h.traffic n (hn ▸ hin)
  reads p hin := hb ▸ h.reads p (hp ▸ hin)

theorem Registration.control {s : System} (h : Registration s) {p : Proxy} (hp : p ∈ s.proxies) :
    RegisterTraffic (messagesOn p.control s.broker.history) :=
  h.traffic (p.control, p.id) (List.mem_map_of_mem (f := fun p => (p.control, p.id)) hp)

theorem registration_arrivals {s : System} (h : Registration s) (k : Conn) (rs : List Request) :
    Registration (rs.foldl (fun s r => s.arrive (some k) r) s) := by
  induction rs generalizing s with
  | nil => exact h
  | cons r rs ih => exact ih (h.mono rfl rfl rfl)

theorem registration_joined {s : System} (hn : Named s) (hs : Sound s.broker) (h : Registration s)
    (id : Bytes) : Registration (s.joined id) := by
  have hnil : messagesOn s.next s.broker.history = [] :=
    messages_unmet hs fun hin => Nat.lt_irrefl _ (hn.met_lt _ hin)
  refine ⟨?_, ?_⟩
  · intro n hin
    rcases mem_joined_names.mp hin with hin | rfl
    · exact h.traffic n hin
    · exact Or.inl hnil
  · intro p hp
    rcases List.mem_append.mp hp with hp | hp
    · exact h.reads p hp
    · obtain rfl := List.mem_singleton.mp hp
      exact ⟨fun _ => hnil.symm, fun hne => absurd rfl hne⟩

/-- A line a proxy is about to read in its connect loop is a connect line. -/
theorem ReadsAll.next_line {h : List (Entry Conn)} {p : Proxy} (hr : ReadsAll h p)
    (ht : RegisterTraffic (messagesOn p.control h)) (hp : p.phase ≠ .starting) (hrun : p.phase ≠ .ended)
    {line : Bytes} (hl : line ∈ p.inbox) : ∃ clientID, line = makeProxyConnectRequest clientID := by
  obtain ⟨read, hread⟩ := hr.running hp hrun
  obtain ⟨ids, hids⟩ := ht.accepted (hread ▸ List.mem_cons_self ..)
  rw [hread] at hids
  have hin : line ∈ ids.map makeProxyConnectRequest :=
    (List.cons.inj hids).2 ▸ List.mem_append_right read hl
  obtain ⟨clientID, -, rfl⟩ := List.mem_map.mp hin
  exact ⟨clientID, rfl⟩

/-- The response a starting proxy reads is OK, with connect lines behind it, or it is all there is to read. -/
theorem ReadsAll.response {h : List (Entry Conn)} {p : Proxy} (hr : ReadsAll h p)
    (ht : RegisterTraffic (messagesOn p.control h)) (hp : p.phase = .starting) {line : Bytes}
    {rest : List Bytes} (hi : p.inbox = line :: rest) :
    line = okResponse ∧ (∃ ids : List Bytes, rest = ids.map makeProxyConnectRequest) ∨
      line = idTaken ∧ rest = [] := by
  rw [← hr.starting hp, hi] at ht
  rcases ht with ht | ht | ⟨ids, ht⟩
  · cases ht
  · exact Or.inr (List.cons.inj ht)
  · exact Or.inl ⟨(List.cons.inj ht).1, ids, (List.cons.inj ht).2⟩

theorem ReadsAll.moves {h : List (Entry Conn)} {p p' : Proxy} {closed : Bool} {action : ProxyAction}
    {requests : List Request} (hr : ReadsAll h p) (ht : RegisterTraffic (messagesOn p.control h))
    (hm : Proxy.Moves p closed action p' requests) : ReadsAll h p' := by
  cases hm with
  | @response line rest hp hi =>
    rcases hr.response ht hp hi with ⟨rfl, -⟩ | ⟨rfl, -⟩
    · rw [registered_ok]
      exact ⟨nofun, fun _ _ => ⟨[], by rw [← hr.starting hp, hi]; rfl⟩⟩
    · rw [registered_taken]
      exact ⟨nofun, fun _ hrun => absurd rfl hrun⟩
  | @request line rest _ hp hi hc =>
    obtain ⟨read, hread⟩ := hr.running (by rw [hp]; nofun) (by rw [hp]; nofun)
    refine ⟨nofun, fun _ _ => ⟨read ++ [line], ?_⟩⟩
    rw [hread, hi, List.append_assoc]
    rfl
  | garbled | hangup | killed | stopped => exact ⟨nofun, fun _ hrun => absurd rfl hrun⟩
  | created ok hp => exact ⟨by cases ok <;> nofun, fun _ _ => hr.running (by rw [hp]; nofun) (by rw [hp]; nofun)⟩
  | forked hp | unforked hp => exact ⟨nofun, fun _ _ => hr.running (by rw [hp]; nofun) (by rw [hp]; nofun)⟩
  | interrupted hp =>
    refine ⟨nofun, ?_⟩
    intro _ _
    rcases hp with ⟨hp | ⟨_, hp⟩, -⟩ | ⟨⟨_, hp⟩, -⟩ <;>
      exact hr.running (by rw [hp]; nofun) (by rw [hp]; nofun)
  | connected | failed | exited | childStopped => exact ⟨hr.starting, hr.running⟩

theorem registration_moved {s : System} (h : Registration s) {i : Nat} {p p' : Proxy} {closed : Bool}
    {action : ProxyAction} {requests : List Request} (hp : s.proxies[i]? = some p)
    (hm : Proxy.Moves p closed action p' requests) : Registration (s.moved i p p' requests) := by
  obtain ⟨hc, hid, -⟩ := moves_names hm
  have hin : p ∈ s.proxies := List.mem_of_getElem? hp
  have ht := h.control hin
  have hset : Registration { s with proxies := s.proxies.set i p' } := by
    refine ⟨fun n hn => h.traffic n ?_, ?_⟩
    · have hnames : { s with proxies := s.proxies.set i p' }.names = s.names := names_set hp hc hid
      exact hnames ▸ hn
    · intro q hq
      rcases List.mem_or_eq_of_mem_set hq with hq | rfl
      · exact h.reads q hq
      · exact (h.reads p hin).moves ht hm
  exact registration_arrivals hset _ _

/-- What a handling sends on a control connection. -/
theorem sent_control {s : System} (hn : Named s) (hs : Sound s.broker) {a : Arrival} (hin : a ∈ s.arrivals)
    {k : Kind} {id : Bytes} (hr : a.request = some (k, id)) {fd : Fd} {forked : Bool} {b : Broker Conn}
    (hh : Handling s.broker a.conn fd forked ⟨some k, id⟩ b) {n : Conn × Bytes} (hn' : n ∈ s.names) :
    sentOn n.1 (System.latest b) = [] ∨
      (a.conn = n.1 ∧ (sentOn n.1 (System.latest b) = [okResponse] ∨ sentOn n.1 (System.latest b) = [idTaken])) ∨
      ∃ id' o, (⟨some k, id⟩ : Message) = ⟨some .connect, id'⟩ ∧ registrant s.broker.history id' = some o ∧
        o.conn = n.1 ∧ sentOn n.1 (System.latest b) = [makeProxyConnectRequest fd.toString] := by
  refine sent_registered hh hs ?_ (hn.control_entry n hn')
  intro hc
  have hreq := hn.control_arrival n hn' a hin hc
  rw [hr] at hreq
  cases hreq
  rfl

theorem registration_handled {s : System} (hn : Named s) (hs : Sound s.broker) (h : Registration s) {i : Nat}
    {a : Arrival} (ha : s.arrivals[i]? = some a) {fd : Fd} (hfd : s.broker.fds fd = none) {k : Kind}
    {id : Bytes} (hr : a.request = some (k, id)) (forked : Bool) :
    Registration (s.handled i (s.broker.next a.conn fd ⟨some k, id⟩ forked)) := by
  have hin : a ∈ s.arrivals := List.mem_of_getElem? ha
  have hh := next_cases hs.kept.tablesOpen hfd a.conn ⟨some k, id⟩ forked
  obtain ⟨e, he, -, -, -, -⟩ := hh.acts hs.kept
  have hsent := fun {n} (hn' : n ∈ s.names) => sent_control hn hs hin hr hh hn'
  generalize s.broker.next a.conn fd ⟨some k, id⟩ forked = b at *
  have hlatest : System.latest b = e.events := by rw [System.latest, he]
  refine ⟨?_, ?_⟩
  · intro n hn'
    have hn' : n ∈ s.names := by
      rwa [System.names, ← names_deliver (System.latest b) s.proxies]
    show RegisterTraffic (messagesOn n.1 b.history)
    have htraffic := h.traffic n hn'
    rw [he, messagesOn_cons, ← hlatest]
    rcases hsent hn' with hnil | ⟨hc, hres⟩ | ⟨id', o, -, ho, hoc, hcon⟩
    · rw [hnil, List.append_nil]
      exact htraffic
    · rw [messages_unmet hs (hc ▸ hn.arrivals_unmet a hin)]
      rcases hres with hres | hres <;> rw [hres]
      · exact Or.inr (Or.inr ⟨[], rfl⟩)
      · exact Or.inr (Or.inl rfl)
    · -- connect lines go to registrants only, and those have been told OK
      obtain ⟨hoin, horeg⟩ := registrant_some ho
      obtain ⟨ids, hids⟩ := htraffic.accepted (hoc ▸ ok_mem_messages hoin horeg)
      rw [hcon, hids]
      exact Or.inr (Or.inr ⟨ids ++ [fd.toString], by simp⟩)
  · intro q hq
    obtain ⟨p, hp, rfl⟩ := mem_deliver hq
    obtain ⟨hstart, hrun⟩ := h.reads p hp
    have hcons : messagesOn p.control b.history =
        messagesOn p.control s.broker.history ++ sentOn p.control (System.latest b) := by
      rw [he, messagesOn_cons, hlatest]
    refine ⟨?_, ?_⟩
    · intro hph
      show p.inbox ++ _ = messagesOn p.control b.history
      rw [hcons, hstart hph]
    · intro hph hph'
      obtain ⟨read, hread⟩ := hrun hph hph'
      refine ⟨read, ?_⟩
      show messagesOn p.control b.history = okResponse :: (read ++ (p.inbox ++ _))
      rw [hcons, hread, List.cons_append, List.append_assoc]

theorem registration_step {s s' : System} {action : Action} (hn : Named s) (hs : Sound s.broker)
    (h : Registration s) (hstep : s.step action = some s') : Registration s' := by
  cases System.step_moves hstep with
  | clientStarted | clientAborted | died => exact h.mono rfl rfl rfl
  | proxyStarted => exact registration_joined hn hs h _
  | handled ha _ hfd hr => exact registration_handled hn hs h ha hfd hr _
  | proxyMoved hp hm => exact registration_moved h hp hm

/-- What holds in every run, whatever goes wrong in it. -/
structure Consistent (s : System) : Prop where
  named : Named s
  inv : Inv s
  registration : Registration s

theorem consistent_init : Consistent System.init := ⟨named_init, inv_init, registration_init⟩

theorem consistent_step {s s' : System} {action : Action} (h : Consistent s)
    (hs : s.step action = some s') : Consistent s' :=
  ⟨named_step h.named hs, inv_step h.named h.inv hs,
    registration_step h.named h.inv.sound h.registration hs⟩

theorem consistent_run {as : List Action} {s : System}
    (h : Transition.exec System.step System.init as = some s) : Consistent s :=
  Transition.exec_invariant (fun _ _ _ => consistent_step) consistent_init h

/-- The rule for the runs of this system: what a step that meets `C` keeps of a consistent state,
holds after every run of such steps. -/
theorem run_along {P : System → Prop} {C : System → Action → Prop}
    (hstep : ∀ {s s' : System} {action : Action}, Consistent s → P s → C s action →
      s.step action = some s' → P s') (hinit : P System.init) {as : List Action} {s : System}
    (hC : Transition.Along System.step C System.init as)
    (h : Transition.exec System.step System.init as = some s) : P s := by
  have hboth : ∀ s action s', Consistent s ∧ P s → C s action → System.step s action = some s' →
      Consistent s' ∧ P s' :=
    fun _ _ _ hi hc hs => ⟨consistent_step hi.1 hs, hstep hi.1 hi.2 hc hs⟩
  exact (Transition.exec_invariant_along hboth ⟨consistent_init, hinit⟩ hC h).2

/-- What every step keeps of a consistent state holds after every run. -/
theorem run_invariant {P : System → Prop}
    (hstep : ∀ {s s' : System} {action : Action}, Consistent s → P s →
      s.step action = some s' → P s') (hinit : P System.init) {as : List Action} {s : System}
    (h : Transition.exec System.step System.init as = some s) : P s :=
  run_along (C := fun _ _ => True) (fun hc hp _ hs => hstep hc hp hs) hinit
    (Transition.along_of_forall (fun _ _ => trivial) _ _) h

end VirtualSocket.Rendezvous
