import VirtualSocket.Registration

/- Accepted connect requests and who owes them an answer. A request the broker has
   passed along is either answered, or its client ID is still a token: unread or in
   hand at a service, or in a report that has not reached the broker. Six steps lose
   a token or a client for good, and these are what `Undisturbed` leaves out:
   `createConnection` or a fork failing in `handleConnectRequest`, a fork failing in
   `updateConnectionStatus`, `shutdown` with requests unread, in hand or in a child
   still connecting, a connect request passed to a service proxy that is gone, and the
   broker's death with clients pending. Without them the tokens are conserved
   (`Proxy.Moves.tokens_eq`), and nothing is dropped (`none_dropped`). -/
namespace VirtualSocket.Rendezvous
open Json Protocol Server Broker ServiceProxy Function Sums

/-! ## Owed answers -/

/-- Somebody has the client ID in hand or is still to read it, or its report is on the way. -/
def Owed (s : System) (x : Bytes) : Prop :=
  (∃ p ∈ s.proxies, (p.phase ≠ .ended ∧ ∃ line ∈ p.inbox, clientOf line = some x) ∨
      p.phase = .handling x ∨ p.phase = .opened x ∨ ⟨x, .connecting⟩ ∈ p.children) ∨
    ∃ a ∈ s.arrivals, a.request = some (.connectionCreated, x) ∨ a.request = some (.connectionFailed, x)

/-- Every connect request that was passed along has been answered, or is pending at a
broker that lives and owed by somebody. -/
def NoneDropped (s : System) : Prop :=
  ∀ w ∈ s.broker.history, w.forwards w.fd.toString →
    messagesOn w.conn s.broker.history ≠ [] ∨
      (s.alive = true ∧ waiting s.broker.history w.fd.toString = some w ∧ Owed s w.fd.toString)

instance (s : System) (x : Bytes) : Decidable (Owed s x) := inferInstanceAs (Decidable (_ ∨ _))

instance (s : System) : Decidable (NoneDropped s) := inferInstanceAs (Decidable (∀ w ∈ _, _))

theorem mem_phase_tokens {ph : Phase} {x : Bytes} : x ∈ ph.tokens ↔ ph = .handling x ∨ ph = .opened x := by
  cases ph <;> simp [Phase.tokens, eq_comm]

theorem mem_children_tokens {cs : List Child} {x : Bytes} :
    x ∈ (cs.map Child.tokens).sum ↔ ⟨x, .connecting⟩ ∈ cs := by
  rw [mem_sum_map]
  constructor
  · rintro ⟨⟨y, stage⟩, hc, hx⟩
    cases stage with
    | connecting =>
      rw [Multiset.mem_singleton.mp hx]
      exact hc
    | _ => exact absurd hx (Multiset.notMem_zero x)
  · exact fun hc => ⟨_, hc, Multiset.mem_singleton_self x⟩

theorem mem_proxy_tokens {p : Proxy} {x : Bytes} :
    x ∈ p.tokens ↔ (p.phase ≠ .ended ∧ ∃ line ∈ p.inbox, clientOf line = some x) ∨
      p.phase = .handling x ∨ p.phase = .opened x ∨ ⟨x, .connecting⟩ ∈ p.children := by
  rw [Proxy.tokens, Multiset.mem_add, Multiset.mem_add, mem_phase_tokens, mem_children_tokens, or_assoc,
    or_assoc]
  refine or_congr ?_ Iff.rfl
  by_cases hp : p.phase = .ended
  · simp [unread_ended hp, hp]
  · rw [unread_of_running hp, Multiset.mem_coe, List.mem_filterMap]
    exact ⟨fun h => ⟨hp, h⟩, fun h => h.2⟩

theorem mem_request_tokens {r : Request} {x : Bytes} :
    x ∈ Request.tokens r ↔ r = some (.connectionCreated, x) ∨ r = some (.connectionFailed, x) := by
  rcases r with _ | ⟨k, id⟩
  · simp [Request.tokens]
  · cases k <;> simp [Request.tokens, eq_comm]

/-- What is owed is what the tokens say. -/
theorem owed_iff {s : System} {x : Bytes} : Owed s x ↔ x ∈ s.tokens := by
  rw [System.tokens, Multiset.mem_add, mem_sum_map, mem_sum_map]
  simp only [mem_proxy_tokens, Arrival.tokens, mem_request_tokens, Owed]

/-! ## The steps left out -/

/-- A step of a proxy that loses no request. -/
def Proxy.Undisturbed (p : Proxy) : ProxyAction → Prop
  | .create ok | .fork ok => ok = true
  | .interrupt => p.phase = .idle ∧ ∀ c ∈ p.children, c.stage ≠ .connecting
  | .stop _ => ∀ line ∈ p.inbox, clientOf line = none
  | _ => True

/-- A request the broker does not lose: its fork for a pending client succeeds, a proxy
that it passes a connect request to is running, and where there is none and the broker
dies of it, no client is pending. -/
def Heeded (s : System) (forked : Bool) : Request → Prop
  | none => s.broker.server.pendingConnections = ∅
  | some (.connect, id) => ∀ f ∈ s.broker.server.serverMap.lookup id, ∀ r ∈ s.broker.fds f,
    ∃ p ∈ s.proxies, p.control = r ∧ p.phase ≠ .ended
  | some (.connectionCreated, x) | some (.connectionFailed, x) =>
    x ∈ s.broker.server.pendingConnections → forked = true
  | some (.register, _) | some (.unregister, _) => True

def Undisturbed (s : System) : Action → Prop
  | .proxy i action => ∀ p ∈ s.proxies[i]?, p.Undisturbed action
  | .brokerHandle i _ forked => ∀ a ∈ s.arrivals[i]?, Heeded s forked a.request
  | .clientStart _ | .clientAbort | .proxyStart _ => True

instance (p : Proxy) : (action : ProxyAction) → Decidable (p.Undisturbed action)
  | .create _ | .fork _ => inferInstanceAs (Decidable (_ = _))
  | .interrupt => inferInstanceAs (Decidable (_ ∧ _))
  | .stop _ => inferInstanceAs (Decidable (∀ line ∈ _, _))
  | .recv | .eof | .service .. | .childExit _ | .childStop .. => inferInstanceAs (Decidable True)

instance (s : System) (forked : Bool) : (r : Request) → Decidable (Heeded s forked r)
  | none => inferInstanceAs (Decidable (_ = _))
  | some (.connect, id) =>
    inferInstanceAs (Decidable (∀ f ∈ s.broker.server.serverMap.lookup id, ∀ r ∈ s.broker.fds f, _))
  | some (.connectionCreated, _) | some (.connectionFailed, _) => inferInstanceAs (Decidable (_ → _))
  | some (.register, _) | some (.unregister, _) => inferInstanceAs (Decidable True)

instance (s : System) : (action : Action) → Decidable (Undisturbed s action)
  | .proxy i _ => inferInstanceAs (Decidable (∀ p ∈ s.proxies[i]?, _))
  | .brokerHandle i _ _ => inferInstanceAs (Decidable (∀ a ∈ s.arrivals[i]?, _))
  | .clientStart _ | .clientAbort | .proxyStart _ => inferInstanceAs (Decidable True)

/-! ## Tokens conserved -/

theorem connecting_tokens {cs : List Child} (h : ∀ c ∈ cs, c.stage ≠ .connecting) :
    (cs.map Child.tokens).sum = 0 := by
  apply Multiset.eq_zero_of_forall_notMem
  intro x hx
  exact h _ (mem_children_tokens.mp hx) rfl

/-- A step that loses no request hands every token on. -/
theorem Proxy.Moves.tokens_eq {h : List (Entry Conn)} {p p' : Proxy} {closed : Bool} {action : ProxyAction}
    {requests : List Request} (hr : ReadsAll h p) (ht : RegisterTraffic (messagesOn p.control h))
    (hm : Proxy.Moves p closed action p' requests) (hu : p.Undisturbed action) :
    p'.tokens + (requests.map Request.tokens).sum = p.tokens := by
  cases hm with
  | @response line rest hp hi =>
    rw [List.map_nil, List.sum_nil, add_zero, tokens_idle (Or.inl hp), hi]
    rcases hr.response ht hp hi with ⟨rfl, -⟩ | ⟨rfl, rfl⟩
    · rw [registered_ok, List.filterMap_cons, okResponse, clientOf_response]
      exact tokens_idle (Or.inr rfl)
    · rw [registered_taken, List.filterMap_cons, idTaken, clientOf_response]
      exact (tokens_ended rfl).trans (zero_add _).symm
  | request hp hi hc =>
    rw [List.map_nil, List.sum_nil, add_zero, tokens_idle (Or.inr hp), hi, tokens_hand (Or.inl rfl),
      List.filterMap_cons, hc, ← Multiset.cons_coe, ← Multiset.singleton_add, add_comm {_}]
  | @garbled line rest hp hi hc =>
    have hline : line ∈ p.inbox := hi ▸ List.mem_cons_self ..
    obtain ⟨x, rfl⟩ := hr.next_line ht (by rw [hp]; nofun) (by rw [hp]; nofun) hline
    rw [clientOf_connect] at hc
    cases hc
  | hangup hc hi hp =>
    -- the end of the stream is read only when the inbox is empty
    rw [List.map_nil, List.sum_nil, add_zero, tokens_ended rfl, tokens_idle hp, hi]
    exact (zero_add _).symm
  | created ok hp =>
    rw [List.map_nil, List.sum_nil, add_zero, tokens_hand (Or.inl hp), show ok = true from hu]
    exact tokens_hand (Or.inr rfl)
  | forked hp =>
    rw [List.map_nil, List.sum_nil, add_zero, tokens_hand (Or.inr hp), tokens_idle (Or.inr rfl),
      List.map_append, List.sum_append, add_assoc, add_comm {_}]
    rfl
  | unforked => cases hu
  | @connected k clientID hk =>
    exact children_moved ((sum_map_set Child.tokens hk ⟨clientID, .session⟩).trans (add_zero _))
  | failed hk | exited hk => exact children_moved (sum_map_eraseIdx Child.tokens hk)
  | killed hp => exact absurd (hp.symm.trans hu.1) nofun
  | interrupted =>
    rw [List.map_nil, List.sum_nil, add_zero, tokens_stopping rfl, interrupt_tokens, add_zero,
      tokens_idle (Or.inr hu.1), connecting_tokens hu.2, add_zero]
  | stopped ok hp =>
    rw [farewell_tokens, add_zero, tokens_ended rfl, tokens_stopping hp, List.filterMap_eq_nil_iff.mpr hu]
    exact (zero_add _).symm
  | childStopped ok hk =>
    rw [farewell_tokens]
    exact children_moved (sum_map_eraseIdx Child.tokens hk)

theorem arrivals_tokens (s : System) (k : Conn) (rs : List Request) :
    (rs.foldl (fun s r => s.arrive (some k) r) s).tokens = s.tokens + (rs.map Request.tokens).sum := by
  induction rs generalizing s with
  | nil => exact (add_zero _).symm
  | cons r rs ih => rw [List.foldl_cons, ih, arrive_tokens, List.map_cons, List.sum_cons, add_assoc]

theorem moved_tokens {s : System} (h : Consistent s) {i : Nat} {p p' : Proxy} {closed : Bool}
    {action : ProxyAction} {requests : List Request} (hp : s.proxies[i]? = some p)
    (hm : Proxy.Moves p closed action p' requests) (hu : p.Undisturbed action) :
    (s.moved i p p' requests).tokens = s.tokens := by
  have hin : p ∈ s.proxies := List.mem_of_getElem? hp
  have ht := h.registration.control hin
  have heq := hm.tokens_eq (h.registration.reads p hin) ht hu
  rw [System.moved, arrivals_tokens]
  apply add_right_cancel (b := p.tokens)
  calc { s with proxies := s.proxies.set i p' }.tokens + (requests.map Request.tokens).sum + p.tokens
      = { s with proxies := s.proxies.set i p' }.tokens + p.tokens + (requests.map Request.tokens).sum :=
        add_right_comm ..
    _ = s.tokens + p'.tokens + (requests.map Request.tokens).sum := by rw [proxy_tokens_set hp p']
    _ = s.tokens + p.tokens := by rw [add_assoc, heq]

/-- A delivery takes no token away. -/
theorem deliver_tokens_le (events : List (Event Conn)) (ps : List Proxy) :
    (ps.map Proxy.tokens).sum ≤ ((deliver events ps).map Proxy.tokens).sum := by
  induction ps with
  | nil => exact le_refl _
  | cons p ps ih =>
    rw [deliver, List.map_cons, List.map_cons, List.sum_cons, List.map_cons, List.sum_cons,
      inbox_append_tokens]
    exact add_le_add (Multiset.le_add_right _ _) ih

/-! ## Nothing is dropped -/

theorem NoneDropped.mono {s s' : System} (h : NoneDropped s) (hb : s'.broker.history = s.broker.history)
    (ha : s'.alive = s.alive) (ht : s.tokens ≤ s'.tokens) : NoneDropped s' := by
  intro w hw hf
  rw [hb] at hw ⊢
  refine (h w hw hf).imp id fun ⟨halive, hwait, howed⟩ => ⟨ha.trans halive, hwait, ?_⟩
  exact owed_iff.mpr (Multiset.mem_of_le ht (owed_iff.mp howed))

/-- The report on a pending client is answered when the fork succeeds. -/
theorem report_answers {b b' : Broker Conn} (hs : Sound b) {c : Conn} {fd : Fd} {x : Bytes} (success : Bool)
    (hh : Handling b c fd true ⟨some (reportKind success), x⟩ b') {w : Entry Conn}
    (hw : waiting b.history x = some w) : messagesOn w.conn b'.history ≠ [] := by
  have hpending : x ∈ b.server.pendingConnections :=
    (hs.kept.pending x).mpr (Option.isSome_iff_exists.mpr ⟨w, hw⟩)
  rcases hh.of_report with ⟨hno, -⟩ | ⟨f, client, rfl, hp, hr, rfl⟩
  · exact absurd hpending hno
  · obtain ⟨w', hw', -, rfl⟩ := hs.kept.waiting_of_pending hp hr
    obtain rfl := Option.some.inj (hw.symm.trans hw')
    rw [after, messagesOn_cons]
    cases success <;> simp [sentOn, reportEvents]

theorem dropped_handled {s : System} (h : Consistent s) (hd : NoneDropped s) {i : Nat} {a : Arrival}
    (ha : s.arrivals[i]? = some a) (hlive : s.alive = true) {fd : Fd} (hfd : s.broker.fds fd = none)
    {k : Kind} {id : Bytes} (hr : a.request = some (k, id)) {forked : Bool}
    (hu : Heeded s forked (some (k, id))) :
    NoneDropped (s.handled i (s.broker.next a.conn fd ⟨some k, id⟩ forked)) := by
  have hs := h.inv.sound
  have hh := next_cases hs.kept.tablesOpen hfd a.conn ⟨some k, id⟩ forked
  obtain ⟨e, he, -, hefd, hem, -⟩ := hh.acts hs.kept
  have hfresh := hs.kept.fresh_text hfd
  have hsends := handling_sends hh
  have hanswers : ∀ {w : Entry Conn}, e.reports w.fd.toString → waiting s.broker.history w.fd.toString = some w →
      messagesOn w.conn (s.broker.next a.conn fd ⟨some k, id⟩ forked).history ≠ [] := by
    intro w hrep hw
    have hpending := (hs.kept.pending _).mpr (Option.isSome_iff_exists.mpr ⟨w, hw⟩)
    rcases hrep with hm | hm <;> rw [hem] at hm <;> cases hm <;> obtain rfl : forked = true := hu hpending
    · exact report_answers hs true hh hw
    · exact report_answers hs false hh hw
  generalize s.broker.next a.conn fd ⟨some k, id⟩ forked = b at *
  have hlatest : System.latest b = e.events := by rw [System.latest, he]
  intro w hw hf
  change w ∈ b.history at hw
  show messagesOn w.conn b.history ≠ [] ∨
    (s.alive = true ∧ waiting b.history w.fd.toString = some w ∧ Owed (s.handled i b) w.fd.toString)
  rw [he] at hw
  rcases List.mem_cons.mp hw with rfl | hw
  · -- the request just passed along: its line has reached a proxy that runs
    right
    obtain ⟨v, hv, hsent⟩ := List.any_eq_true.mp hf.2.2
    refine ⟨hlive, by rw [he, waiting, if_pos hf], owed_iff.mpr (Multiset.mem_add.mpr (Or.inl ?_))⟩
    rcases hsends with ⟨id', f, r, hmsg, hid, hfds, hev⟩ | hsilent
    · cases hmsg
      obtain ⟨p, hp, hpc, hrun⟩ := hu f hid r hfds
      show w.fd.toString ∈ ((deliver (System.latest b) s.proxies).map Proxy.tokens).sum
      rw [hev, (deliver_connect_tokens h.named.proxies_nodup).2 ⟨p, hp, hpc, hrun⟩, hefd]
      exact Multiset.mem_add.mpr (Or.inr (Multiset.mem_singleton_self _))
    · cases v with
      | sent r msg =>
        have hmsg : msg = makeProxyConnectRequest w.fd.toString := by simpa [Event.isSent] using hsent
        have := hsilent r msg (hlatest ▸ hv)
        rw [hmsg, clientOf_connect] at this
        cases this
      | _ => cases hsent
  · -- an older request: its report is answered, and any other leaves its token alone
    rcases hd w hw hf with hmsg | ⟨-, hwait, howed⟩
    · left
      rw [he, messagesOn_cons]
      exact List.append_ne_nil_of_left_ne_nil hmsg _
    · by_cases hrep : e.reports w.fd.toString
      · exact Or.inl (hanswers hrep hwait)
      · right
        have hnf : ¬ e.forwards w.fd.toString := by
          intro hef
          rw [hef.2.1, hefd, hfresh] at hwait
          cases hwait
        refine ⟨hlive, by rw [he, waiting, if_neg hnf, if_neg hrep, hwait], owed_iff.mpr ?_⟩
        have hnot : w.fd.toString ∉ a.tokens := by
          intro hx
          apply hrep
          rcases mem_request_tokens.mp hx with hreq | hreq <;> rw [hr] at hreq <;> cases hreq
          · exact Or.inl hem
          · exact Or.inr hem
        have hx := owed_iff.mp howed
        rw [← arrival_tokens_erase ha, Multiset.mem_add] at hx
        exact Multiset.mem_of_le (add_le_add_left (deliver_tokens_le (System.latest b) s.proxies) _)
          (hx.resolve_right hnot)

theorem dropped_joined {s : System} (hd : NoneDropped s) (id : Bytes) : NoneDropped (s.joined id) := by
  refine hd.mono rfl rfl ?_
  simp only [System.tokens, System.joined, System.arrive, List.map_append, List.sum_append]
  exact add_le_add (Multiset.le_add_right _ _) (Multiset.le_add_right _ _)

/-- A broker that dies while no client is pending has answered all. -/
theorem dropped_died {s : System} (h : Consistent s) (hd : NoneDropped s)
    (hempty : s.broker.server.pendingConnections = ∅) (i : Nat) :
    NoneDropped { s with arrivals := s.arrivals.eraseIdx i, alive := false } := by
  intro w hw hf
  rcases hd w hw hf with hmsg | ⟨-, hwait, -⟩
  · exact Or.inl hmsg
  · have hp := (h.inv.sound.kept.pending _).mpr (Option.isSome_iff_exists.mpr ⟨w, hwait⟩)
    rw [hempty] at hp
    exact absurd hp (Finset.notMem_empty _)

theorem dropped_step {s s' : System} {action : Action} (h : Consistent s) (hd : NoneDropped s)
    (hu : Undisturbed s action) (hs : s.step action = some s') : NoneDropped s' := by
  cases System.step_moves hs with
  | clientStarted | clientAborted =>
    exact hd.mono rfl rfl (le_of_le_of_eq (Multiset.le_add_right _ _) (arrive_tokens s none _).symm)
  | proxyStarted => exact dropped_joined hd _
  | handled ha hlive hfd hr => exact dropped_handled h hd ha hlive hfd hr (hr ▸ hu _ ha)
  | died ha _ _ hr =>
    have hempty : s.broker.server.pendingConnections = ∅ := by
      have hheeded := hu _ ha
      rwa [hr] at hheeded
    exact dropped_died h hd hempty _
  | proxyMoved hp hm =>
    obtain ⟨hbroker, halive, -⟩ := moved_frame s _ _ _ _
    exact hd.mono (congrArg Broker.history hbroker) halive (le_of_eq (moved_tokens h hp hm (hu _ hp)).symm)

theorem dropped_init : NoneDropped System.init := fun _ hw => nomatch hw

/-- In a run whose steps are all undisturbed, no accepted connect request is dropped. -/
theorem none_dropped {as : List Action} {s : System}
    (h : Transition.exec System.step System.init as = some s)
    (hu : Transition.Along System.step Undisturbed System.init as) : NoneDropped s := by
  exact run_along dropped_step dropped_init hu h

theorem none_dropped_acquaintance :
    ∃ s, Transition.exec System.step System.init acquaintance = some s ∧ NoneDropped s := by
  have hs : (Transition.exec System.step System.init acquaintance).isSome = true := by decide +kernel
  have hu : Transition.Along System.step Undisturbed System.init acquaintance := by decide +kernel
  obtain ⟨s, hs⟩ := Option.isSome_iff_exists.mp hs
  exact ⟨s, hs, none_dropped hs hu⟩

/-- A service registers and is passed a connect request, for which its `createConnection` fails. -/
def unconnectedRun : List Action :=
  [.proxyStart (str "a"), .brokerHandle 0 4 true, .proxy 0 .recv, .clientStart (str "a"),
    .brokerHandle 0 5 true, .proxy 0 .recv, .proxy 0 (.create false)]

theorem dropped_unconnected :
    ∃ s ∈ Transition.exec System.step System.init unconnectedRun, ¬ NoneDropped s := by
  decide +kernel

end VirtualSocket.Rendezvous
