import VirtualSocket.Rendezvous

/- Which connection is whose. A connection gets a fresh name and carries one
   request, and the control connection of a service proxy is the one its register
   request came on (`Named`). `System.step_moves` says what a step of the system can
   be; the invariants of the system are proved by cases on it. -/
namespace VirtualSocket.Rendezvous
open Json Protocol Server Broker ServiceProxy Function

/-! ## The steps taken apart -/

theorem messageOf_arrival {a : Arrival} {k : Kind} {id : Bytes} (h : a.request = some (k, id)) :
    messageOf a.line = some ⟨some k, id⟩ := by
  simp only [Arrival.line, h, messageOf_line, kind_text_ofText]

/-- The system after the broker has handled the request of an arrival. -/
def System.handled (s : System) (i : Nat) (b : Broker Conn) : System :=
  { s with
    arrivals := s.arrivals.eraseIdx i
    broker := b
    proxies := deliver (System.latest b) s.proxies }

/-- The system after a step of a proxy. -/
def System.moved (s : System) (i : Nat) (p p' : Proxy) (requests : List Request) : System :=
  requests.foldl (fun s r => s.arrive (some p.control) r) { s with proxies := s.proxies.set i p' }

/-- A service proxy starts, on a control connection of its own. -/
def System.joined (s : System) (id : Bytes) : System :=
  { s.arrive none (some (.register, id)) with proxies := s.proxies ++ [⟨id, s.next, .starting, [], []⟩] }

/-- A step of the system. The broker dies of a connection closed without a request. -/
inductive System.Moves (s : System) : Action → System → Prop
  | clientStarted {id} : Moves s (.clientStart id) (s.arrive none (some (.connect, id)))
  | clientAborted : Moves s .clientAbort (s.arrive none none)
  | proxyStarted {id} : Moves s (.proxyStart id) (s.joined id)
  | handled {i a} {fd : Fd} {forked k id} (ha : s.arrivals[i]? = some a) (hlive : s.alive = true)
      (hfd : s.broker.fds fd = none) (hr : a.request = some (k, id)) :
      Moves s (.brokerHandle i fd forked) (s.handled i (s.broker.next a.conn fd ⟨some k, id⟩ forked))
  | died {i a} {fd : Fd} {forked} (ha : s.arrivals[i]? = some a) (hlive : s.alive = true)
      (hfd : s.broker.fds fd = none) (hr : a.request = none) :
      Moves s (.brokerHandle i fd forked) { s with arrivals := s.arrivals.eraseIdx i, alive := false }
  | proxyMoved {i action p p' requests} (hp : s.proxies[i]? = some p)
      (hm : Proxy.Moves p (s.closed p.control) action p' requests) :
      Moves s (.proxy i action) (s.moved i p p' requests)

theorem System.step_moves {s s' : System} {action : Action} (h : s.step action = some s') :
    s.Moves action s' := by
  cases action with
  | clientStart id => cases h; exact .clientStarted
  | clientAbort => cases h; exact .clientAborted
  | proxyStart id => cases h; exact .proxyStarted
  | brokerHandle i fd forked =>
    simp only [System.step] at h
    split at h
    · cases h
    · next a ha =>
      split_ifs at h with hg
      cases hr : a.request with
      | none =>
        -- `recv` gives 0 bytes, and the empty text does not parse
        have hline : a.line = [] := by simp only [Arrival.line, hr]
        have herr : s.broker.handle a.conn fd (.bytes a.line) forked = .error .invalidArgument := by
          rw [hline]
          rfl
        rw [herr] at h
        cases h
        exact .died ha hg.1 hg.2 hr
      | some req =>
        obtain ⟨k, id⟩ := req
        rw [handle_typed (messageOf_arrival hr)] at h
        cases h
        exact .handled ha hg.1 hg.2 hr
  | proxy i action =>
    simp only [System.step] at h
    split at h
    · cases h
    · next p hp =>
      split at h
      · cases h
      · next p' requests hs =>
        cases h
        exact .proxyMoved hp (Proxy.step_moves hs)

/-- New connections change nothing at the broker or at a proxy. -/
theorem moved_frame (s : System) (i : Nat) (p p' : Proxy) (requests : List Request) :
    (s.moved i p p' requests).broker = s.broker ∧ (s.moved i p p' requests).alive = s.alive ∧
      (s.moved i p p' requests).proxies = s.proxies.set i p' := by
  have hfold : ∀ (rs : List Request) (t : System),
      (rs.foldl (fun s r => s.arrive (some p.control) r) t).broker = t.broker ∧
        (rs.foldl (fun s r => s.arrive (some p.control) r) t).alive = t.alive ∧
          (rs.foldl (fun s r => s.arrive (some p.control) r) t).proxies = t.proxies := by
    intro rs
    induction rs with
    | nil => exact fun t => ⟨rfl, rfl, rfl⟩
    | cons r rs ih => exact fun t => ih (t.arrive (some p.control) r)
  exact hfold requests _

/-- A step of a proxy leaves its names alone, and registers nothing. -/
theorem moves_names {p p' : Proxy} {closed : Bool} {action : ProxyAction} {requests : List Request}
    (h : Proxy.Moves p closed action p' requests) :
    p'.control = p.control ∧ p'.id = p.id ∧ ∀ id, some (.register, id) ∉ requests := by
  cases h <;> exact ⟨rfl, rfl, fun id => by simp [Proxy.farewell]⟩

/-! ## Names -/

/-- The control connections, with the IDs the proxies on them are to register. -/
def System.names (s : System) : List (Conn × Bytes) := s.proxies.map fun p => (p.control, p.id)

/-- Replacing an entry by one that looks the same. -/
theorem map_set_same {α β : Type} {f : α → β} {l : List α} {i : Nat} {x y : α} (hx : l[i]? = some x)
    (hf : f y = f x) : (l.set i y).map f = l.map f := by
  obtain ⟨hi, rfl⟩ := List.getElem?_eq_some_iff.mp hx
  have hi' : i < (l.map f).length := by rwa [List.length_map]
  have := List.set_getElem_self hi'
  rw [List.map_set, hf]
  rwa [List.getElem_map] at this

theorem names_set {ps : List Proxy} {i : Nat} {p p' : Proxy} (hp : ps[i]? = some p)
    (hc : p'.control = p.control) (hid : p'.id = p.id) :
    ((ps.set i p').map fun p => (p.control, p.id)) = ps.map fun p => (p.control, p.id) :=
  map_set_same hp (by rw [hc, hid])

theorem names_deliver (events : List (Event Conn)) (ps : List Proxy) :
    ((deliver events ps).map fun p => (p.control, p.id)) = ps.map fun p => (p.control, p.id) := by
  rw [deliver, List.map_map]
  rfl

structure Named (s : System) : Prop where
  arrivals_nodup : (s.arrivals.map Arrival.conn).Nodup
  arrivals_unmet : ∀ a ∈ s.arrivals, a.conn ∉ s.broker.history.map Entry.conn
  arrivals_lt : ∀ a ∈ s.arrivals, a.conn < s.next
  met_lt : ∀ c ∈ s.broker.history.map Entry.conn, c < s.next
  controls_nodup : (s.names.map Prod.fst).Nodup
  controls_lt : ∀ n ∈ s.names, n.1 < s.next
  control_arrival : ∀ n ∈ s.names, ∀ a ∈ s.arrivals, a.conn = n.1 → a.request = some (.register, n.2)
  control_entry : ∀ n ∈ s.names, ∀ e ∈ s.broker.history, e.conn = n.1 →
    e.message = some ⟨some .register, n.2⟩
  register_arrival : ∀ a ∈ s.arrivals, ∀ id, a.request = some (.register, id) → (a.conn, id) ∈ s.names
  register_entry : ∀ e ∈ s.broker.history, ∀ id, e.message = some ⟨some .register, id⟩ →
    (e.conn, id) ∈ s.names
  opener_known : ∀ c k, s.opener c = some k → k ∈ s.names.map Prod.fst

theorem Named.proxies_nodup {s : System} (h : Named s) : (s.proxies.map Proxy.control).Nodup := by
  have hc : s.names.map Prod.fst = s.proxies.map Proxy.control := by
    rw [System.names, List.map_map]
    rfl
  exact hc ▸ h.controls_nodup

theorem named_init : Named System.init where
  arrivals_nodup := List.nodup_nil
  arrivals_unmet _ h := nomatch h
  arrivals_lt _ h := nomatch h
  met_lt _ h := nomatch h
  controls_nodup := List.nodup_nil
  controls_lt _ h := nomatch h
  control_arrival _ h := nomatch h
  control_entry _ h := nomatch h
  register_arrival _ h := nomatch h
  register_entry _ h := nomatch h
  opener_known _ _ h := nomatch h

theorem mem_arrive {s : System} {opener : Option Conn} {r : Request} {a : Arrival} :
    a ∈ (s.arrive opener r).arrivals ↔ a ∈ s.arrivals ∨ a = ⟨s.next, r⟩ := by
  simp [System.arrive]

theorem arrive_opener {s : System} (opener : Option Conn) (r : Request) {c : Conn} (hc : c < s.next) :
    (s.arrive opener r).opener c = s.opener c :=
  update_of_ne (Nat.ne_of_lt hc) ..

/-- What names depend on has not changed, but for arrivals taken away. -/
theorem Named.mono {s s' : System} (h : Named s) (hn : s'.names = s.names)
    (ha : s'.arrivals.Sublist s.arrivals) (hb : s'.broker.history = s.broker.history)
    (ho : s'.opener = s.opener) (hx : s'.next = s.next) : Named s' where
  arrivals_nodup := (ha.map Arrival.conn).nodup h.arrivals_nodup
  arrivals_unmet a hin := hb ▸ h.arrivals_unmet a (ha.subset hin)
  arrivals_lt a hin := hx ▸ h.arrivals_lt a (ha.subset hin)
  met_lt := by
    rw [hb, hx]
    exact h.met_lt
  controls_nodup := hn ▸ h.controls_nodup
  controls_lt := by
    rw [hn, hx]
    exact h.controls_lt
  control_arrival n hin a hain := h.control_arrival n (hn ▸ hin) a (ha.subset hain)
  control_entry n hin e he := h.control_entry n (hn ▸ hin) e (hb ▸ he)
  register_arrival a hain id hr := hn ▸ h.register_arrival a (ha.subset hain) id hr
  register_entry e he id hm := hn ▸ h.register_entry e (hb ▸ he) id hm
  opener_known c k hk := hn ▸ h.opener_known c k (ho ▸ hk)

theorem Named.arrive_nodup {s : System} (h : Named s) (opener : Option Conn) (r : Request) :
    ((s.arrive opener r).arrivals.map Arrival.conn).Nodup := by
  rw [System.arrive, List.map_append, List.map_singleton, List.nodup_append]
  refine ⟨h.arrivals_nodup, List.nodup_singleton _, ?_⟩
  intro c hc c' hc' heq
  obtain ⟨a, ha, rfl⟩ := List.mem_map.mp hc
  rw [List.mem_singleton.mp hc'] at heq
  exact absurd heq (Nat.ne_of_lt (h.arrivals_lt a ha))

theorem Named.arrive_unmet {s : System} (h : Named s) (opener : Option Conn) (r : Request) :
    ∀ a ∈ (s.arrive opener r).arrivals, a.conn ∉ s.broker.history.map Entry.conn := by
  intro a ha
  rcases mem_arrive.mp ha with ha | rfl
  · exact h.arrivals_unmet a ha
  · exact fun hin => Nat.lt_irrefl _ (h.met_lt _ hin)

theorem Named.arrive_lt {s : System} (h : Named s) (opener : Option Conn) (r : Request) :
    ∀ a ∈ (s.arrive opener r).arrivals, a.conn < s.next + 1 := by
  intro a ha
  rcases mem_arrive.mp ha with ha | rfl
  · exact Nat.lt_succ_of_lt (h.arrivals_lt a ha)
  · exact Nat.lt_succ_self _

/-- The opener of the new connection, or of an older one. -/
theorem arrive_opener_some {s : System} {opener : Option Conn} {r : Request} {c k : Conn}
    (hk : (s.arrive opener r).opener c = some k) : opener = some k ∨ s.opener c = some k := by
  by_cases hc : c = s.next
  · left
    have hself : (s.arrive opener r).opener s.next = opener := update_self ..
    exact hself.symm.trans (hc ▸ hk)
  · right
    have hold : (s.arrive opener r).opener c = s.opener c := update_of_ne hc ..
    exact hold.symm.trans hk

/-- A connection with no register request on it. -/
theorem named_arrive {s : System} (h : Named s) {opener : Option Conn} {r : Request}
    (ho : ∀ k, opener = some k → k ∈ s.names.map Prod.fst) (hr : ∀ id, r ≠ some (.register, id)) :
    Named (s.arrive opener r) where
  arrivals_nodup := h.arrive_nodup opener r
  arrivals_unmet := h.arrive_unmet opener r
  arrivals_lt := h.arrive_lt opener r
  met_lt c hc := Nat.lt_succ_of_lt (h.met_lt c hc)
  controls_nodup := h.controls_nodup
  controls_lt n hn := Nat.lt_succ_of_lt (h.controls_lt n hn)
  control_arrival n hn a ha heq := by
    rcases mem_arrive.mp ha with ha | rfl
    · exact h.control_arrival n hn a ha heq
    · exact absurd heq (Nat.ne_of_gt (h.controls_lt n hn))
  control_entry := h.control_entry
  register_arrival a ha id hreq := by
    rcases mem_arrive.mp ha with ha | rfl
    · exact h.register_arrival a ha id hreq
    · exact absurd hreq (hr id)
  register_entry := h.register_entry
  opener_known c k hk := (arrive_opener_some hk).elim (ho k) (h.opener_known c k)

theorem named_arrivals {s : System} (h : Named s) {k : Conn} (hk : k ∈ s.names.map Prod.fst)
    {rs : List Request} (hr : ∀ id, some (.register, id) ∉ rs) :
    Named (rs.foldl (fun s r => s.arrive (some k) r) s) := by
  -- one connection at a time, all of the same opener
  induction rs generalizing s with
  | nil => exact h
  | cons r rs ih =>
    refine ih (named_arrive h ?_ fun id heq => hr id (heq ▸ List.mem_cons_self ..)) hk
      fun id hin => hr id (List.mem_cons_of_mem r hin)
    intro k' hk'
    cases hk'
    exact hk

theorem joined_names (s : System) (id : Bytes) : (s.joined id).names = s.names ++ [(s.next, id)] :=
  List.map_append ..

theorem mem_joined_names {s : System} {id : Bytes} {n : Conn × Bytes} :
    n ∈ (s.joined id).names ↔ n ∈ s.names ∨ n = (s.next, id) := by
  rw [joined_names, List.mem_append, List.mem_singleton]

theorem mem_joined {s : System} {id : Bytes} {a : Arrival} :
    a ∈ (s.joined id).arrivals ↔ a ∈ s.arrivals ∨ a = ⟨s.next, some (.register, id)⟩ := by
  simp [System.joined, System.arrive]

theorem named_joined {s : System} (h : Named s) (id : Bytes) : Named (s.joined id) where
  arrivals_nodup := h.arrive_nodup none _
  arrivals_unmet := h.arrive_unmet none _
  arrivals_lt := h.arrive_lt none _
  met_lt c hc := Nat.lt_succ_of_lt (h.met_lt c hc)
  controls_nodup := by
    rw [joined_names, List.map_append, List.map_singleton, List.nodup_append]
    refine ⟨h.controls_nodup, List.nodup_singleton _, ?_⟩
    intro c hc c' hc' heq
    obtain ⟨n, hn, rfl⟩ := List.mem_map.mp hc
    rw [List.mem_singleton.mp hc'] at heq
    exact absurd heq (Nat.ne_of_lt (h.controls_lt n hn))
  controls_lt n hn := by
    rcases mem_joined_names.mp hn with hn | rfl
    · exact Nat.lt_succ_of_lt (h.controls_lt n hn)
    · exact Nat.lt_succ_self _
  control_arrival n hn a ha heq := by
    rcases mem_joined_names.mp hn with hn | rfl <;> rcases mem_joined.mp ha with ha | rfl
    · exact h.control_arrival n hn a ha heq
    · exact absurd heq (Nat.ne_of_gt (h.controls_lt n hn))
    · exact absurd heq (Nat.ne_of_lt (h.arrivals_lt a ha))
    · rfl
  control_entry n hn e he heq := by
    rcases mem_joined_names.mp hn with hn | rfl
    · exact h.control_entry n hn e he heq
    · exact absurd heq (Nat.ne_of_lt (h.met_lt _ (List.mem_map_of_mem he)))
  register_arrival a ha id' hreq := by
    rw [mem_joined_names]
    rcases mem_joined.mp ha with ha | rfl
    · exact Or.inl (h.register_arrival a ha id' hreq)
    · cases hreq
      exact Or.inr rfl
  register_entry e he id' hm := mem_joined_names.mpr (Or.inl (h.register_entry e he id' hm))
  opener_known c k hk := by
    have hk' : s.opener c = some k :=
      (arrive_opener_some (r := some (.register, id)) hk).resolve_left nofun
    obtain ⟨n, hn, rfl⟩ := List.mem_map.mp (h.opener_known c k hk')
    exact List.mem_map_of_mem (mem_joined_names.mpr (Or.inl hn))

theorem named_moved {s : System} (h : Named s) {i : Nat} {p p' : Proxy} {requests : List Request}
    (hp : s.proxies[i]? = some p) (hc : p'.control = p.control) (hid : p'.id = p.id)
    (hr : ∀ id, some (.register, id) ∉ requests) : Named (s.moved i p p' requests) := by
  have hn : { s with proxies := s.proxies.set i p' }.names = s.names := names_set hp hc hid
  refine named_arrivals (h.mono hn (List.Sublist.refl _) rfl rfl rfl) ?_ hr
  rw [hn]
  exact List.mem_map_of_mem (f := Prod.fst) (List.mem_map_of_mem (List.mem_of_getElem? hp))

/-- The connection taken up is not among those left. -/
theorem Named.conn_not_left {s : System} (h : Named s) {i : Nat} {a a' : Arrival}
    (ha : s.arrivals[i]? = some a) (ha' : a' ∈ s.arrivals.eraseIdx i) : a'.conn ≠ a.conn := by
  obtain ⟨hi, rfl⟩ := List.getElem?_eq_some_iff.mp ha
  have hperm := (List.getElem_cons_eraseIdx_perm hi).map Arrival.conn
  have hn := hperm.nodup_iff.mpr h.arrivals_nodup
  rw [List.map_cons, List.nodup_cons] at hn
  exact fun heq => hn.1 (heq ▸ List.mem_map_of_mem ha')

theorem named_handled {s : System} (h : Named s) {i : Nat} {a : Arrival} (ha : s.arrivals[i]? = some a)
    {k : Kind} {id : Bytes} (hr : a.request = some (k, id)) (fd : Fd) (forked : Bool) :
    Named (s.handled i (s.broker.next a.conn fd ⟨some k, id⟩ forked)) := by
  obtain ⟨e, hb, hec, hem⟩ : ∃ e, (s.broker.next a.conn fd ⟨some k, id⟩ forked).history =
      e :: s.broker.history ∧ e.conn = a.conn ∧ e.message = some ⟨some k, id⟩ := ⟨_, rfl, rfl, rfl⟩
  generalize s.broker.next a.conn fd ⟨some k, id⟩ forked = b at *
  have hin : a ∈ s.arrivals := List.mem_of_getElem? ha
  have hsub : (s.arrivals.eraseIdx i).Sublist s.arrivals := List.eraseIdx_sublist ..
  have hn : (s.handled i b).names = s.names := names_deliver _ _
  have hmet : ∀ c ∈ b.history.map Entry.conn, c = a.conn ∨ c ∈ s.broker.history.map Entry.conn := by
    intro c hc
    rwa [hb, List.map_cons, List.mem_cons, hec] at hc
  refine ⟨(hsub.map Arrival.conn).nodup h.arrivals_nodup, ?_,
    fun a' ha' => h.arrivals_lt a' (hsub.subset ha'), ?_, hn ▸ h.controls_nodup,
    fun n hn' => h.controls_lt n (hn ▸ hn'),
    fun n hn' a' ha' => h.control_arrival n (hn ▸ hn') a' (hsub.subset ha'),
    ?_, ?_, ?_, ?_⟩
  · intro a' ha' hc
    rcases hmet _ hc with heq | hc
    · exact h.conn_not_left ha ha' heq
    · exact h.arrivals_unmet a' (hsub.subset ha') hc
  · intro c hc
    rcases hmet c hc with rfl | hc
    · exact h.arrivals_lt a hin
    · exact h.met_lt c hc
  · intro n hn' e' he' heq
    change e' ∈ b.history at he'
    rw [hn] at hn'
    rw [hb] at he'
    rcases List.mem_cons.mp he' with rfl | he'
    · have := h.control_arrival n hn' a hin (hec ▸ heq)
      rw [hr] at this
      cases this
      exact hem
    · exact h.control_entry n hn' e' he' heq
  · intro a' ha' id' hr'
    rw [hn]
    exact h.register_arrival a' (hsub.subset ha') id' hr'
  · intro e' he' id' hm
    change e' ∈ b.history at he'
    rw [hn]
    rw [hb] at he'
    rcases List.mem_cons.mp he' with rfl | he'
    · rw [hem] at hm
      cases hm
      rw [hec]
      exact h.register_arrival a hin _ hr
    · exact h.register_entry e' he' _ hm
  · intro c k hk
    rw [hn]
    exact h.opener_known c k hk

theorem named_step {s s' : System} {action : Action} (h : Named s) (hs : s.step action = some s') :
    Named s' := by
  cases System.step_moves hs with
  | clientStarted | clientAborted => exact named_arrive h nofun (by simp)
  | proxyStarted => exact named_joined h _
  | handled ha _ _ hr => exact named_handled h ha hr _ _
  | died => exact h.mono rfl (List.eraseIdx_sublist ..) rfl rfl rfl
  | proxyMoved hp hm =>
    obtain ⟨hc, hid, hr⟩ := moves_names hm
    exact named_moved h hp hc hid hr

end VirtualSocket.Rendezvous
