import VirtualSocket.Connections
import VirtualSocket.Tokens

/- Rendezvous agreement. A client is known to every party by the text of a
   descriptor that is given out again once it is closed, and the report on it comes
   in on a new connection after any delay. What makes this safe is the invariant
   `Inv`: no two tokens name the same client ID, and each is granted, that is, the
   client ID is pending because of a connect request that the broker passed to
   the proxy holding the token. A report uses its token up together with the
   pending entry, so a client ID that is given out again meets no token of its
   earlier life. `agreement`: in every run, each splice joins the client whose
   request it answers with a connection opened by the proxy the request was
   passed to, and it is the only splice of either. -/
namespace VirtualSocket.Rendezvous
open Json Protocol Server Broker ServiceProxy Function Sums

/-! ## What a token stands for -/

/-- The client ID `x` is pending, and the connect request behind it was passed to the
service registered on `k`. -/
def GrantedTo (h : List (Entry Conn)) (x : Bytes) (k : Conn) : Prop :=
  ∃ w hw id o, waiting h x = some w ∧ w :: hw <:+ h ∧ w.connects id ∧ registrant hw id = some o ∧ o.conn = k

theorem GrantedTo.waiting {h : List (Entry Conn)} {x : Bytes} {k : Conn} (hg : GrantedTo h x k) :
    waiting h x ≠ none := by
  obtain ⟨w, _, _, _, hw, -⟩ := hg
  rw [hw]
  exact nofun

theorem GrantedTo.cons {h : List (Entry Conn)} {x : Bytes} {k : Conn} {e : Entry Conn}
    (hg : GrantedTo h x k) (hf : ¬ e.forwards x) (hr : ¬ e.reports x) : GrantedTo (e :: h) x k := by
  obtain ⟨w, hw, id, o, hwait, hs, hc, ho, hk⟩ := hg
  refine ⟨w, hw, id, o, ?_, hs.trans (List.suffix_cons e h), hc, ho, hk⟩
  rw [VirtualSocket.waiting, if_neg hf, if_neg hr, hwait]

/-- Every splice joins the client whose request it answers with a connection that the
proxy the request was passed to has opened. -/
def Agreed (s : System) : Prop :=
  ∀ e h, e :: h <:+ s.broker.history → ∀ c n, .spliced c n ∈ e.events →
    ∃ clientID w hw id o, e.message = some ⟨some .connectionCreated, clientID⟩ ∧
      waiting h clientID = some w ∧ w.conn = c ∧ w :: hw <:+ h ∧ w.connects id ∧
      registrant hw id = some o ∧ n = e.conn ∧ s.opener n = some o.conn

structure Inv (s : System) : Prop where
  sound : Sound s.broker
  answered : ClientsAnsweredOnce s.broker.history
  tokens_nodup : s.tokens.Nodup
  proxies_granted : ∀ p ∈ s.proxies, ∀ x ∈ p.tokens, GrantedTo s.broker.history x p.control
  arrivals_granted : ∀ a ∈ s.arrivals, ∀ x ∈ a.tokens,
    ∃ k, s.opener a.conn = some k ∧ GrantedTo s.broker.history x k
  agreed : Agreed s

theorem inv_init : Inv System.init where
  sound := sound_init
  answered _ h := nomatch h
  tokens_nodup := Multiset.nodup_zero
  proxies_granted _ h := nomatch h
  arrivals_granted _ h := nomatch h
  agreed _ _ hs := absurd (List.suffix_nil.mp hs) (List.cons_ne_nil _ _)

/-! ## A connection reaches the broker -/

theorem arrive_tokens (s : System) (opener : Option Conn) (r : Request) :
    (s.arrive opener r).tokens = s.tokens + Request.tokens r := by
  simp only [System.tokens, System.arrive, List.map_append, List.map_cons, List.map_nil, List.sum_append,
    List.sum_cons, List.sum_nil, Arrival.tokens, add_zero, add_assoc]

theorem Agreed.mono {s s' : System} (h : Agreed s) (hb : s'.broker.history = s.broker.history)
    (ho : ∀ c ∈ s.broker.history.map Entry.conn, s'.opener c = s.opener c) : Agreed s' := by
  intro e hist hs c n hv
  rw [hb] at hs
  obtain ⟨clientID, w, hw, id, o, hm, hwait, hwc, hsuf, hc, hreg, hn, hop⟩ := h e hist hs c n hv
  have hin : n ∈ s.broker.history.map Entry.conn := by
    rw [hn]
    exact List.mem_map_of_mem (hs.subset (List.mem_cons_self ..))
  exact ⟨clientID, w, hw, id, o, hm, hwait, hwc, hsuf, hc, hreg, hn, (ho n hin).trans hop⟩

/-- A new connection keeps the invariant, if what it carries is no token or one that is granted to its opener. -/
theorem inv_arrive {s : System} (hn : Named s) (h : Inv s) {opener : Option Conn} {r : Request}
    (hg : ∀ x ∈ Request.tokens r, ∃ k, opener = some k ∧ GrantedTo s.broker.history x k)
    (hnd : (s.tokens + Request.tokens r).Nodup) : Inv (s.arrive opener r) where
  sound := h.sound
  answered := h.answered
  tokens_nodup := by
    rw [arrive_tokens]
    exact hnd
  proxies_granted := h.proxies_granted
  arrivals_granted a ha x hx := by
    rcases mem_arrive.mp ha with ha | rfl
    · obtain ⟨k, hk, hgr⟩ := h.arrivals_granted a ha x hx
      exact ⟨k, (arrive_opener opener r (hn.arrivals_lt a ha)).trans hk, hgr⟩
    · obtain ⟨k, rfl, hgr⟩ := hg x hx
      exact ⟨k, update_self .., hgr⟩
  agreed := h.agreed.mono rfl fun c hc => arrive_opener opener r (hn.met_lt c hc)

theorem inv_arrive_plain {s : System} (hn : Named s) (h : Inv s) (opener : Option Conn) {r : Request}
    (hr : Request.tokens r = 0) : Inv (s.arrive opener r) := by
  refine inv_arrive hn h ?_ ?_
  · intro x hx
    rw [hr] at hx
    exact absurd hx (Multiset.notMem_zero x)
  · rw [hr, add_zero]
    exact h.tokens_nodup

/-- A proxy that has just started holds nothing. -/
theorem inv_joined {s : System} (hn : Named s) (h : Inv s) (id : Bytes) : Inv (s.joined id) := by
  have h' : Inv (s.arrive none (some (.register, id))) := inv_arrive_plain hn h none rfl
  have hnew : (⟨id, s.next, .starting, [], []⟩ : Proxy).tokens = 0 := rfl
  refine { h' with tokens_nodup := ?_, proxies_granted := ?_ }
  · have htok : (s.joined id).tokens = (s.arrive none (some (.register, id))).tokens := by
      simp only [System.tokens, System.joined, List.map_append, List.map_cons, List.map_nil, List.sum_append,
        List.sum_cons, List.sum_nil, hnew, add_zero, System.arrive]
    rw [htok]
    exact h'.tokens_nodup
  · intro p hp x hx
    rcases List.mem_append.mp hp with hp | hp
    · exact h.proxies_granted p hp x hx
    · rw [List.mem_singleton.mp hp, hnew] at hx
      exact absurd hx (Multiset.notMem_zero x)

/-- Several connections of one opener. -/
theorem inv_arrivals {s : System} (hn : Named s) (h : Inv s) {k : Conn} (hk : k ∈ s.names.map Prod.fst)
    {rs : List Request} (hr : ∀ id, some (.register, id) ∉ rs)
    (hg : ∀ r ∈ rs, ∀ x ∈ Request.tokens r, GrantedTo s.broker.history x k)
    (hnd : (s.tokens + (rs.map Request.tokens).sum).Nodup) :
    Inv (rs.foldl (fun s r => s.arrive (some k) r) s) := by
  induction rs generalizing s with
  | nil => exact h
  | cons r rs ih =>
    rw [List.map_cons, List.sum_cons, ← add_assoc] at hnd
    obtain ⟨hgr, hgrs⟩ := List.forall_mem_cons.mp hg
    have hn' : Named (s.arrive (some k) r) := named_arrive hn (fun k' hk' => Option.some.inj hk' ▸ hk)
      fun id heq => hr id (heq ▸ List.mem_cons_self ..)
    have h' : Inv (s.arrive (some k) r) := inv_arrive hn h (fun x hx => ⟨k, rfl, hgr x hx⟩)
      (Multiset.nodup_of_le (Multiset.le_add_right _ _) hnd)
    apply ih hn' h' hk (fun id hin => hr id (List.mem_cons_of_mem r hin)) hgrs
    rw [arrive_tokens]
    exact hnd

/-! ## A proxy takes a step -/

/-- What a proxy holds is part of what all hold. -/
theorem proxy_tokens_set {s : System} {i : Nat} {p : Proxy} (hp : s.proxies[i]? = some p) (p' : Proxy) :
    { s with proxies := s.proxies.set i p' }.tokens + p.tokens = s.tokens + p'.tokens := by
  have hset := sum_map_set Proxy.tokens hp p'
  calc ((s.proxies.set i p').map Proxy.tokens).sum + (s.arrivals.map Arrival.tokens).sum + p.tokens
      = ((s.proxies.set i p').map Proxy.tokens).sum + p.tokens + (s.arrivals.map Arrival.tokens).sum :=
        add_right_comm ..
    _ = (s.proxies.map Proxy.tokens).sum + p'.tokens + (s.arrivals.map Arrival.tokens).sum := by rw [hset]
    _ = s.tokens + p'.tokens := add_right_comm ..

theorem inv_moved {s : System} (hn : Named s) (h : Inv s) {i : Nat} {p p' : Proxy} {closed : Bool}
    {action : ProxyAction} {requests : List Request} (hp : s.proxies[i]? = some p)
    (hm : Proxy.Moves p closed action p' requests) : Inv (s.moved i p p' requests) := by
  have hle := hm.tokens_le
  obtain ⟨hc, hid, hr⟩ := moves_names hm
  have hin : p ∈ s.proxies := List.mem_of_getElem? hp
  have htok : { s with proxies := s.proxies.set i p' }.tokens + (requests.map Request.tokens).sum ≤ s.tokens := by
    apply le_of_add_le_add_right (a := p.tokens)
    calc { s with proxies := s.proxies.set i p' }.tokens + (requests.map Request.tokens).sum + p.tokens
        = { s with proxies := s.proxies.set i p' }.tokens + p.tokens + (requests.map Request.tokens).sum :=
          add_right_comm ..
      _ = s.tokens + p'.tokens + (requests.map Request.tokens).sum := by rw [proxy_tokens_set hp p']
      _ = s.tokens + (p'.tokens + (requests.map Request.tokens).sum) := add_assoc ..
      _ ≤ s.tokens + p.tokens := add_le_add_right hle _
  have hout : ∀ r ∈ requests, ∀ x ∈ Request.tokens r, x ∈ p.tokens := by
    intro r hr x hx
    exact Multiset.mem_of_le hle (Multiset.mem_add.mpr (Or.inr (mem_sum_map.mpr ⟨r, hr, hx⟩)))
  have hset : Inv { s with proxies := s.proxies.set i p' } :=
    { h with
      tokens_nodup := Multiset.nodup_of_le ((Multiset.le_add_right _ _).trans htok) h.tokens_nodup
      proxies_granted := fun q hq x hx => by
        rcases List.mem_or_eq_of_mem_set hq with hq | rfl
        · exact h.proxies_granted q hq x hx
        · rw [hc]
          exact h.proxies_granted p hin x (Multiset.mem_of_le hle (Multiset.mem_add.mpr (Or.inl hx))) }
  have hnames : { s with proxies := s.proxies.set i p' }.names = s.names := names_set hp hc hid
  refine inv_arrivals (hn.mono hnames (List.Sublist.refl _) rfl rfl rfl) hset ?_ hr
    (fun r hr x hx => h.proxies_granted p hin x (hout r hr x hx)) (Multiset.nodup_of_le htok h.tokens_nodup)
  rw [hnames]
  exact List.mem_map_of_mem (f := Prod.fst) (List.mem_map_of_mem hin)

/-! ## The broker takes up an arrival -/

theorem arrival_tokens_erase {s : System} {i : Nat} {a : Arrival} (ha : s.arrivals[i]? = some a) :
    { s with arrivals := s.arrivals.eraseIdx i }.tokens + a.tokens = s.tokens := by
  simp only [System.tokens]
  rw [add_assoc, sum_map_eraseIdx Arrival.tokens ha]

theorem inv_erase {s : System} (h : Inv s) {i : Nat} {a : Arrival} (ha : s.arrivals[i]? = some a)
    (alive : Bool) : Inv { s with arrivals := s.arrivals.eraseIdx i, alive := alive } :=
  { h with
    tokens_nodup := Multiset.nodup_of_le
      ((Multiset.le_add_right _ _).trans (le_of_eq (arrival_tokens_erase ha))) h.tokens_nodup
    arrivals_granted := fun a ha => h.arrivals_granted a (List.eraseIdx_subset ha) }

/-- A token is not touched by the handling of an arrival other than the report it is spent on. -/
theorem granted_next {s : System} (h : Inv s) {i : Nat} {a : Arrival} (ha : s.arrivals[i]? = some a) {fd : Fd}
    (hfd : s.broker.fds fd = none) {k : Kind} {id : Bytes} (hr : a.request = some (k, id)) {e : Entry Conn}
    (hem : e.message = some ⟨some k, id⟩) (hefd : e.fd = fd) {x : Bytes} {c : Conn}
    (hx : x ∈ { s with arrivals := s.arrivals.eraseIdx i }.tokens)
    (hg : GrantedTo s.broker.history x c) : GrantedTo (e :: s.broker.history) x c := by
  refine hg.cons ?_ ?_
  · intro hf
    -- a client ID just given out is the text of a descriptor that was not open
    rw [hf.2.1, hefd] at hg
    exact hg.waiting (h.sound.kept.fresh_text hfd)
  · intro hrep
    -- a report on it would be a second token for the same client ID
    have hax : x ∈ a.tokens := by
      rw [Arrival.tokens, hr]
      rcases hrep with hm | hm <;> rw [hem] at hm <;> cases hm <;> exact Multiset.mem_singleton_self _
    have hn := h.tokens_nodup
    rw [← arrival_tokens_erase ha, Multiset.nodup_add] at hn
    exact Multiset.disjoint_left.mp hn.2.2 hx hax

theorem mem_deliver {events : List (Event Conn)} {ps : List Proxy} {q : Proxy} (hq : q ∈ deliver events ps) :
    ∃ p ∈ ps, q = { p with inbox := p.inbox ++ sentOn p.control events } := by
  obtain ⟨p, hp, rfl⟩ := List.mem_map.mp hq
  exact ⟨p, hp, rfl⟩

/-- Where a token of a proxy comes from after a delivery. -/
theorem mem_delivered_tokens {p : Proxy} {events : List (Event Conn)} {x : Bytes}
    (hx : x ∈ ({ p with inbox := p.inbox ++ sentOn p.control events } : Proxy).tokens) :
    x ∈ p.tokens ∨ ∃ msg, .sent p.control msg ∈ events ∧ clientOf msg = some x := by
  rw [inbox_append_tokens, Multiset.mem_add] at hx
  apply hx.imp id
  intro hx
  split_ifs at hx with hp
  · exact absurd hx (Multiset.notMem_zero x)
  · obtain ⟨msg, hm, hc⟩ := List.mem_filterMap.mp (Multiset.mem_coe.mp hx)
    exact ⟨msg, mem_sentOn.mp hm, hc⟩

/-- A splice joins what its token was granted for. -/
theorem agreed_next {s : System} (h : Inv s) {a : Arrival} (hin : a ∈ s.arrivals) {k : Kind} {id : Bytes}
    (hr : a.request = some (k, id)) {e : Entry Conn} (hec : e.conn = a.conn)
    (hem : e.message = some ⟨some k, id⟩) (hacts : ActsAsIntended s.broker.history e) {s' : System}
    (hb : s'.broker.history = e :: s.broker.history) (ho : s'.opener = s.opener) : Agreed s' := by
  intro e' h' hs c n hv
  rw [hb] at hs
  rcases List.suffix_cons_iff.mp hs with heq | hs
  · obtain ⟨rfl, rfl⟩ := List.cons.inj heq
    obtain ⟨hn, clientID, w, hm, hw, hc⟩ := hacts _ hv
    have hax : clientID ∈ a.tokens := by
      rw [hem] at hm
      cases hm
      rw [Arrival.tokens, hr]
      exact Multiset.mem_singleton_self _
    obtain ⟨k', hk', w', hw', id', o, hwait, hsuf, hcon, hreg, hok⟩ := h.arrivals_granted a hin clientID hax
    obtain rfl := Option.some.inj (hw.symm.trans hwait)
    exact ⟨clientID, w, hw', id', o, hm, hw, hc.symm, hsuf, hcon, hreg, hn,
      by rw [ho, hn, hec, hk', hok]⟩
  · obtain ⟨clientID, w, hw, id', o, hm, hwait, hwc, hsuf, hc, hreg, hn, hop⟩ := h.agreed e' h' hs c n hv
    exact ⟨clientID, w, hw, id', o, hm, hwait, hwc, hsuf, hc, hreg, hn, ho ▸ hop⟩

theorem token_waiting {s : System} (h : Inv s) {x : Bytes} (hx : x ∈ s.tokens) :
    waiting s.broker.history x ≠ none := by
  rcases Multiset.mem_add.mp hx with hx | hx
  · obtain ⟨p, hp, hxp⟩ := mem_sum_map.mp hx
    exact (h.proxies_granted p hp x hxp).waiting
  · obtain ⟨a, ha, hxa⟩ := mem_sum_map.mp hx
    obtain ⟨k, -, hg⟩ := h.arrivals_granted a ha x hxa
    exact hg.waiting

/-- The token of a connect request just passed along is granted to the proxy it was sent to. -/
theorem granted_forward {b : Broker Conn} (h : Sound b) {id : Bytes} {f : Fd} {r : Conn} {e : Entry Conn}
    (hid : b.server.serverMap.lookup id = some f) (hr : b.fds f = some r)
    (hem : e.message = some ⟨some .connect, id⟩)
    (hev : e.events = [.sent r (makeProxyConnectRequest e.fd.toString)]) :
    GrantedTo (e :: b.history) e.fd.toString r := by
  obtain ⟨o, ho, -, hor⟩ := h.kept.registrant_of_lookup hid hr
  have hfor : e.forwards e.fd.toString :=
    ⟨by rw [hem]; rfl, rfl, by rw [hev]; simp [Event.isSent]⟩
  exact ⟨e, b.history, id, o, by rw [waiting, if_pos hfor], List.suffix_rfl, hem, ho, hor⟩

theorem inv_handled {s : System} (hn : Named s) (h : Inv s) {i : Nat} {a : Arrival}
    (ha : s.arrivals[i]? = some a) {fd : Fd} (hfd : s.broker.fds fd = none) {k : Kind} {id : Bytes}
    (hr : a.request = some (k, id)) (forked : Bool) :
    Inv (s.handled i (s.broker.next a.conn fd ⟨some k, id⟩ forked)) := by
  have hin : a ∈ s.arrivals := List.mem_of_getElem? ha
  have hunmet := hn.arrivals_unmet a hin
  have h0 := inv_erase h ha s.alive
  have hh := next_cases h.sound.kept.tablesOpen hfd a.conn ⟨some k, id⟩ forked
  obtain ⟨e, he, hec, hefd, hem, hacts⟩ := hh.acts h.sound.kept
  have hsound := next_sound h.sound hfd hunmet ⟨some k, id⟩ forked
  have hanswered := next_answered h.sound h.answered hfd hunmet ⟨some k, id⟩ forked
  have hgranted : ∀ {x c}, x ∈ { s with arrivals := s.arrivals.eraseIdx i }.tokens →
      GrantedTo s.broker.history x c → GrantedTo (e :: s.broker.history) x c :=
    fun hx hg => granted_next h ha hfd hr hem hefd hx hg
  have hsends := handling_sends hh
  generalize s.broker.next a.conn fd ⟨some k, id⟩ forked = b at *
  have hlatest : System.latest b = e.events := by rw [System.latest, he]
  refine ⟨hsound, hanswered, ?_, ?_, ?_, agreed_next h hin hr hec hem hacts he rfl⟩
  · show (((deliver _ s.proxies).map Proxy.tokens).sum + _).Nodup
    rcases hsends with ⟨id', f, r, -, -, -, hev⟩ | hsilent
    · -- the new token is fresh: all others wait under texts of open descriptors
      rw [hev]
      have hle := (deliver_connect_tokens (r := r) (x := fd.toString) hn.proxies_nodup).1
      apply Multiset.nodup_of_le (add_le_add_left hle _)
      rw [add_right_comm]
      refine Multiset.nodup_add.mpr ⟨h0.tokens_nodup, Multiset.nodup_singleton _, ?_⟩
      rw [Multiset.disjoint_singleton]
      exact fun hx => token_waiting h0 hx (h.sound.kept.fresh_text hfd)
    · rw [deliver_silent_tokens hsilent]
      exact h0.tokens_nodup
  · intro q hq x hx
    obtain ⟨p, hp, rfl⟩ := mem_deliver hq
    show GrantedTo b.history x p.control
    rw [he]
    rcases mem_delivered_tokens hx with hx | ⟨msg, hm, hc⟩
    · exact hgranted (Multiset.mem_add.mpr (Or.inl (mem_sum_map.mpr ⟨p, hp, hx⟩)))
        (h.proxies_granted p hp x hx)
    · rcases hsends with ⟨id', f, r, hmsg, hid, hr', hev⟩ | hsilent
      · rw [hev] at hm
        cases List.mem_singleton.mp hm
        obtain rfl := Option.some.inj ((clientOf_connect fd.toString).symm.trans hc)
        rw [← hefd] at hev ⊢
        exact granted_forward h.sound hid hr' (hmsg ▸ hem) (hlatest ▸ hev)
      · rw [hsilent _ _ hm] at hc
        cases hc
  · intro a' ha' x hx
    show ∃ k, s.opener a'.conn = some k ∧ GrantedTo b.history x k
    obtain ⟨c, hc, hg⟩ := h0.arrivals_granted a' ha' x hx
    refine ⟨c, hc, ?_⟩
    rw [he]
    exact hgranted (Multiset.mem_add.mpr (Or.inr (mem_sum_map.mpr ⟨a', ha', hx⟩))) hg

/-! ## Runs -/

theorem inv_step {s s' : System} {action : Action} (hn : Named s) (h : Inv s)
    (hs : s.step action = some s') : Inv s' := by
  cases System.step_moves hs with
  | clientStarted | clientAborted => exact inv_arrive_plain hn h none rfl
  | proxyStarted => exact inv_joined hn h _
  | handled ha _ hfd hr => exact inv_handled hn h ha hfd hr _
  | died ha => exact inv_erase h ha false
  | proxyMoved hp hm => exact inv_moved hn h hp hm

theorem named_inv {as : List Action} {s : System}
    (h : Transition.exec System.step System.init as = some s) : Named s ∧ Inv s := by
  have hstep : ∀ s a s', Named s ∧ Inv s → System.step s a = some s' → Named s' ∧ Inv s' :=
    fun s a s' hi hs => ⟨named_step hi.1 hs, inv_step hi.1 hi.2 hs⟩
  have hrun := Transition.exec_invariant hstep ⟨named_init, inv_init⟩ h
  exact hrun

/-- What the parties agree on in a state: behind every splice stands the request that
it answers, and the service proxy that the request was passed to. -/
structure RendezvousAgreement (s : System) : Prop where
  splices : ∀ e h, e :: h <:+ s.broker.history → ∀ c n, .spliced c n ∈ e.events →
    ∃ clientID w hw id o, e.message = some ⟨some .connectionCreated, clientID⟩ ∧
      waiting h clientID = some w ∧ w.conn = c ∧ w :: hw <:+ h ∧ w.connects id ∧
      registrant hw id = some o ∧ n = e.conn ∧ s.opener n = some o.conn ∧ (o.conn, id) ∈ s.names
  spliced_with_one : ∀ e ∈ s.broker.history, ∀ e' ∈ s.broker.history, ∀ c c' n,
    .spliced c n ∈ e.events → .spliced c' n ∈ e'.events → c = c'
  spliced_once : ∀ w ∈ s.broker.history, ∀ id, w.connects id → (splicesOn w.conn s.broker.history).length ≤ 1
  answered_once : ∀ w ∈ s.broker.history, ∀ id, w.connects id →
    (messagesOn w.conn s.broker.history).length ≤ 1

/-- An entry stands in the history once, so what came before it is determined. -/
theorem suffix_unique {h : List (Entry Conn)} (hn : (h.map Entry.conn).Nodup) {e : Entry Conn}
    {h₁ h₂ : List (Entry Conn)} (hs₁ : e :: h₁ <:+ h) (hs₂ : e :: h₂ <:+ h) : h₁ = h₂ := by
  obtain ⟨t₁, rfl⟩ := hs₁
  obtain ⟨t₂, ht₂⟩ := hs₂
  have hnd : (t₁ ++ e :: h₁).Nodup := List.Nodup.of_map _ hn
  rw [List.nodup_middle, List.nodup_cons, List.mem_append, not_or] at hnd
  exact ((List.append_cons_inj_of_notMem hnd.1.1 hnd.1.2).mp ht₂.symm).2.2

theorem agreement_of_inv {s : System} (hn : Named s) (hi : Inv s) : RendezvousAgreement s := by
  refine ⟨?_, ?_,
    fun w hw id hid => (hi.answered w hw id hid).2.1, fun w hw id hid => (hi.answered w hw id hid).1⟩
  · intro e h hs c n hv
    obtain ⟨clientID, w, hw, id, o, hm, hwait, hwc, hsuf, hc, hreg, hnc, hop⟩ := hi.agreed e h hs c n hv
    obtain ⟨hin, hregs⟩ := registrant_some hreg
    have hin' : o ∈ s.broker.history :=
      hs.subset (List.mem_cons_of_mem e (hsuf.subset (List.mem_cons_of_mem w hin)))
    exact ⟨clientID, w, hw, id, o, hm, hwait, hwc, hsuf, hc, hreg, hnc, hop,
      hn.register_entry o hin' id hregs.1⟩
  · intro e he e' he' c c' n hv hv'
    obtain ⟨t, l, ht⟩ := List.append_of_mem he
    obtain ⟨t', l', ht'⟩ := List.append_of_mem he'
    have hs : e :: l <:+ s.broker.history := ⟨t, ht.symm⟩
    have hs' : e' :: l' <:+ s.broker.history := ⟨t', ht'.symm⟩
    obtain ⟨x, w, -, -, -, hm, hwait, hwc, -, -, -, hnc, -⟩ := hi.agreed e l hs c n hv
    obtain ⟨x', w', -, -, -, hm', hwait', hwc', -, -, -, hnc', -⟩ := hi.agreed e' l' hs' c' n hv'
    obtain rfl := conn_inj hi.sound.conns_nodup he he' (hnc.symm.trans hnc')
    obtain rfl := suffix_unique hi.sound.conns_nodup hs hs'
    rw [hm] at hm'
    cases hm'
    rw [hwait] at hwait'
    cases hwait'
    exact hwc.symm.trans hwc'

theorem agreement {as : List Action} {s : System}
    (h : Transition.exec System.step System.init as = some s) : RendezvousAgreement s := by
  obtain ⟨hn, hi⟩ := named_inv h
  exact agreement_of_inv hn hi

/-- A service registers, a client asks for it, and the service reports the connection made. -/
def acquaintance : List Action :=
  [.proxyStart (str "a"), .brokerHandle 0 4 true, .proxy 0 .recv, .clientStart (str "a"),
    .brokerHandle 0 5 true, .proxy 0 .recv, .proxy 0 (.create true), .proxy 0 (.fork true),
    .proxy 0 (.service 0 true), .brokerHandle 0 6 true]

theorem agreement_acquaintance :
    ∃ s, Transition.exec System.step System.init acquaintance = some s ∧ RendezvousAgreement s := by
  have hs : (Transition.exec System.step System.init acquaintance).isSome = true := by decide +kernel
  obtain ⟨s, hs⟩ := Option.isSome_iff_exists.mp hs
  exact ⟨s, hs, agreement hs⟩

end VirtualSocket.Rendezvous
