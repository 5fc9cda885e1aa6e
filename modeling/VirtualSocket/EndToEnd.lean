import VirtualSocket.Sessions

/- The data of a session, end to end. No two relays take from one stream or write into
   one, because a connection is spliced once and the three kinds of relays meet only
   where they should (`Joined`); each relay writes out what it takes in, less what
   it holds, whatever fails (`Relay.Flow`); so three of them in a row deliver a prefix
   of what was written at the other end, and connections that no session joins
   carry nothing (`end_to_end`). -/
namespace VirtualSocket.Rendezvous
open Json Protocol Server Broker Function Sums

/-! ## What a connection was opened for -/

/-- The connection carries a request of the kind, which is on its way or has been handled. -/
def Sends (s : System) (c : Conn) (k : Kind) : Prop :=
  (∃ a ∈ s.arrivals, a.conn = c ∧ ∃ id, a.request = some (k, id)) ∨
    ∃ e ∈ s.broker.history, e.conn = c ∧ ∃ id, e.message = some ⟨some k, id⟩

theorem Sends.unique {s : System} (hn : Named s) (hs : Sound s.broker) {c : Conn} {k k' : Kind}
    (h : Sends s c k) (h' : Sends s c k') : k = k' := by
  have hnot : ∀ {a e}, a ∈ s.arrivals → e ∈ s.broker.history → a.conn = c → e.conn ≠ c := by
    intro a e ha he hac hec
    exact hn.arrivals_unmet a ha (hac.trans hec.symm ▸ List.mem_map_of_mem he)
  rcases h with ⟨a, ha, hac, id, hr⟩ | ⟨e, he, hec, id, hm⟩ <;>
    rcases h' with ⟨a', ha', hac', id', hr'⟩ | ⟨e', he', hec', id', hm'⟩
  · obtain rfl := List.inj_on_of_nodup_map hn.arrivals_nodup ha ha' (hac.trans hac'.symm)
    rw [hr] at hr'
    cases hr'
    rfl
  · exact absurd hec' (hnot ha he' hac)
  · exact absurd hec (hnot ha' he hac')
  · obtain rfl := conn_inj hs.conns_nodup he he' (hec.trans hec'.symm)
    rw [hm] at hm'
    cases hm'
    rfl

theorem Sends.lt {s : System} (hn : Named s) {c : Conn} {k : Kind} (h : Sends s c k) : c < s.next := by
  rcases h with ⟨a, ha, rfl, -⟩ | ⟨e, he, rfl, -⟩
  · exact hn.arrivals_lt a ha
  · exact hn.met_lt _ (List.mem_map_of_mem he)

theorem mem_moved {s : System} {i : Nat} {p p' : Proxy} {requests : List Request} {a : Arrival}
    (ha : a ∈ s.arrivals) : a ∈ (s.moved i p p' requests).arrivals := by
  have hfold : ∀ (rs : List Request) (t : System), a ∈ t.arrivals →
      a ∈ (rs.foldl (fun s r => s.arrive (some p.control) r) t).arrivals := by
    intro rs
    induction rs with
    | nil => exact fun _ h => h
    | cons r rs ih => exact fun t h => ih _ (mem_arrive.mpr (Or.inl h))
  exact hfold requests _ ha

theorem Sends.step {s s' : System} {action : Action} {c : Conn} {k : Kind} (h : Sends s c k)
    (hs : s.step action = some s') : Sends s' c k := by
  cases System.step_moves hs with
  | clientStarted | clientAborted =>
    exact h.imp (fun ⟨a, ha, hrest⟩ => ⟨a, mem_arrive.mpr (Or.inl ha), hrest⟩) id
  | proxyStarted => exact h.imp (fun ⟨a, ha, hrest⟩ => ⟨a, mem_joined.mpr (Or.inl ha), hrest⟩) id
  | @handled i a fd forked k' id' ha _ _ hr =>
    rcases h with ⟨a', ha', hc, id, hr'⟩ | ⟨e, he, hrest⟩
    · rcases mem_eraseIdx_or ha ha' with rfl | hin
      · rw [hr] at hr'
        cases hr'
        exact Or.inr ⟨_, List.mem_cons_self .., hc, _, rfl⟩
      · exact Or.inl ⟨a', hin, hc, id, hr'⟩
    · exact Or.inr ⟨e, List.mem_cons_of_mem _ he, hrest⟩
  | died ha _ _ hr =>
    refine h.imp (fun ⟨a', ha', hc, id, hr'⟩ => ?_) id
    rcases mem_eraseIdx_or ha ha' with rfl | hin
    · rw [hr] at hr'
      cases hr'
    · exact ⟨a', hin, hc, id, hr'⟩
  | proxyMoved =>
    apply h.imp (fun ⟨a, ha, hrest⟩ => ⟨a, mem_moved ha, hrest⟩)
    intro he
    rw [(moved_frame ..).1]
    exact he

/-- The broker has joined the two connections. -/
def Spliced (s : System) (c n : Conn) : Prop := ∃ e ∈ s.broker.history, .spliced c n ∈ e.events

theorem Spliced.step {s s' : System} {action : Action} {c n : Conn} (h : Spliced s c n)
    (hs : s.step action = some s') : Spliced s' c n := by
  obtain ⟨e, he, hv⟩ := h
  refine ⟨e, ?_, hv⟩
  cases System.step_moves hs with
  | handled => exact List.mem_cons_of_mem _ he
  | proxyMoved =>
    rw [(moved_frame ..).1]
    exact he
  | _ => exact he

theorem mem_splicesOn {h : List (Entry Conn)} {e : Entry Conn} {c n : Conn} (he : e ∈ h)
    (hv : .spliced c n ∈ e.events) : (c, n) ∈ splicesOn c h := by
  induction h with
  | nil => cases he
  | cons e' h ih =>
    rw [splicesOn, eventsOn, List.filterMap_append, List.mem_append]
    rcases List.mem_cons.mp he with rfl | he
    · exact Or.inr (List.mem_filterMap.mpr ⟨_, List.mem_filter.mpr ⟨hv, by simp [Event.touches]⟩, rfl⟩)
    · exact Or.inl (ih he)

/-- The client of a splice asked to connect, and the other side reported the connection made. -/
theorem Spliced.requests {s : System} (hc : Consistent s) {c n : Conn} (h : Spliced s c n) :
    (∃ w ∈ s.broker.history, w.conn = c ∧ ∃ id, w.connects id) ∧
      ∃ e ∈ s.broker.history, e.conn = n ∧ ∃ id, e.message = some ⟨some .connectionCreated, id⟩ := by
  obtain ⟨e, he, hv⟩ := h
  obtain ⟨t, l, ht⟩ := List.append_of_mem he
  obtain ⟨clientID, w, hw, id, -, hm, -, hwc, hsuf, hcon, -, hn, -⟩ :=
    (agreement_of_inv hc.named hc.inv).splices e l ⟨t, ht.symm⟩ c n hv
  have hin : w ∈ s.broker.history := by
    rw [ht]
    exact List.mem_append_right t (List.mem_cons_of_mem e (hsuf.subset (List.mem_cons_self ..)))
  exact ⟨⟨w, hin, hwc, id, hcon⟩, e, he, hn.symm, clientID, hm⟩

theorem Spliced.client {s : System} (hc : Consistent s) {c n : Conn} (h : Spliced s c n) : Sends s c .connect :=
  Or.inr (h.requests hc).1

theorem Spliced.report {s : System} (hc : Consistent s) {c n : Conn} (h : Spliced s c n) :
    Sends s n .connectionCreated :=
  Or.inr (h.requests hc).2

/-- A connection is in one session only. -/
theorem Spliced.one_to_one {s : System} (hc : Consistent s) {c c' n n' : Conn} (h : Spliced s c n)
    (h' : Spliced s c' n') : c = c' ↔ n = n' := by
  have hagree := agreement_of_inv hc.named hc.inv
  obtain ⟨w, hw, hwc, id, hcon⟩ := (h.requests hc).1
  obtain ⟨e, he, hv⟩ := h
  obtain ⟨e', he', hv'⟩ := h'
  constructor
  · rintro rfl
    have hone := hagree.spliced_once w hw id hcon
    have hin := mem_splicesOn he hv
    have hin' := mem_splicesOn he' hv'
    rw [hwc] at hone
    generalize splicesOn c s.broker.history = l at *
    match l, hone with
    | [x], _ => exact (Prod.mk.inj ((List.mem_singleton.mp hin).trans (List.mem_singleton.mp hin').symm)).2
  · rintro rfl
    exact hagree.spliced_with_one e he e' he' c c' n hv hv'

/-! ## Which connections a relay joins -/

/-- The three kinds of relays: of a client that asked to connect, of the broker, and of a
service that has reported the connection. -/
def Joined (s : System) : Wire → Wire → Prop
  | .app c, .broker c' => c = c' ∧ Sends s c .connect
  | .broker c, .broker n => Spliced s c n
  | .broker n, .service n' => n = n' ∧ Sends s n .connectionCreated
  | _, _ => False

theorem Joined.step {s s' : System} {action : Action} {x y : Wire} (h : Joined s x y)
    (hs : s.step action = some s') : Joined s' x y := by
  match x, y with
  | .app c, .broker c' => exact ⟨h.1, h.2.step hs⟩
  | .broker c, .broker n => exact Spliced.step h hs
  | .broker n, .service n' => exact ⟨h.1, h.2.step hs⟩
  | .app _, .app _ | .app _, .service _ | .broker _, .app _ | .service _, .broker _ | .service _, .app _
  | .service _, .service _ => exact h

/-- What feeds a connection to the broker, seen from its right. -/
theorem Joined.of_server {s : System} {x : Wire} {c : Conn} (h : Joined s x (.broker c)) :
    (x = .app c ∧ Sends s c .connect) ∨ ∃ c', x = .broker c' ∧ Spliced s c' c := by
  match x with
  | .app c' => exact Or.inl ⟨congrArg Wire.app h.1, h.1 ▸ h.2⟩
  | .broker c' => exact Or.inr ⟨c', rfl, h⟩

theorem Joined.of_client {s : System} {y : Wire} {c : Conn} (h : Joined s (.broker c) y) :
    (y = .service c ∧ Sends s c .connectionCreated) ∨ ∃ n, y = .broker n ∧ Spliced s c n := by
  match y with
  | .service n => exact Or.inl ⟨congrArg Wire.service h.1.symm, h.2⟩
  | .broker n => exact Or.inr ⟨n, rfl, h⟩

theorem Joined.app {s : System} {x y : Wire} (h : Joined s x y) {c : Conn} :
    (x = .app c → y = .broker c) ∧ y ≠ .app c := by
  match x, y with
  | .app c', .broker c'' => exact ⟨fun heq => by cases heq; rw [h.1], nofun⟩
  | .broker c', .broker n => exact ⟨nofun, nofun⟩
  | .broker n, .service n' => exact ⟨nofun, nofun⟩

theorem Joined.service {s : System} {x y : Wire} (h : Joined s x y) {n : Conn} :
    (y = .service n → x = .broker n) ∧ x ≠ .service n := by
  match x, y with
  | .app c', .broker c'' => exact ⟨nofun, nofun⟩
  | .broker c', .broker n => exact ⟨nofun, nofun⟩
  | .broker n, .service n' => exact ⟨fun heq => by cases heq; rw [h.1], nofun⟩

/-! ## The invariant -/

/-- The relays of a world share no ends, each is of one of the three kinds, and each writes
out what it takes in. On an end no relay is attached to, nothing has happened. -/
structure Integrity (w : World) : Prop where
  consistent : Consistent w.system
  bound : ∀ r ∈ w.relays, r.Bound
  flow : ∀ r ∈ w.relays, ∀ d, r.Flow w.net d
  joined : ∀ r ∈ w.relays, Joined w.system r.client r.server
  clients_nodup : (w.relays.map Relay.client).Nodup
  servers_nodup : (w.relays.map Relay.server).Nodup
  no_client : ∀ x, x ∉ w.relays.map Relay.client → (∀ n, x ≠ .service n) →
    (w.net x .toServer).taken = [] ∧ (w.net x .toClient).written = []
  no_server : ∀ y, y ∉ w.relays.map Relay.server → (∀ c, y ≠ .app c) →
    (w.net y .toServer).written = [] ∧ (w.net y .toClient).taken = []

theorem integrity_init : Integrity World.init where
  consistent := consistent_init
  bound _ h := nomatch h
  flow _ h := nomatch h
  joined _ h := nomatch h
  clients_nodup := List.nodup_nil
  servers_nodup := List.nodup_nil
  no_client _ _ _ := ⟨rfl, rfl⟩
  no_server _ _ _ := ⟨rfl, rfl⟩

/-- A relay between two ends that no relay is attached to. -/
theorem integrity_attach {w : World} (h : Integrity w) {r : Relay Wire} (hb : r.Bound)
    (ht : ∀ d, r.thread d = .receiving) (hj : Joined w.system r.client r.server)
    (hclient : ∀ q ∈ w.relays, q.client ≠ r.client) (hserver : ∀ q ∈ w.relays, q.server ≠ r.server) :
    Integrity { w with relays := w.relays ++ [r] } := by
  have hfree : ∀ {f : Relay Wire → Wire}, (∀ q ∈ w.relays, f q ≠ f r) → f r ∉ w.relays.map f := by
    intro f hne hin
    obtain ⟨q, hq, heq⟩ := List.mem_map.mp hin
    exact hne q hq heq
  replace hclient := hfree hclient
  replace hserver := hfree hserver
  have hclient' : ∀ n, r.client ≠ .service n := fun n => hj.service.2
  have hserver' : ∀ c, r.server ≠ .app c := fun c => hj.app.2
  obtain ⟨htaken, hwritten⟩ := h.no_client r.client hclient hclient'
  obtain ⟨hwritten', htaken'⟩ := h.no_server r.server hserver hserver'
  have hin : ∀ q ∈ w.relays ++ [r], q ∈ w.relays ∨ q = r :=
    fun q hq => (List.mem_append.mp hq).imp id List.mem_singleton.mp
  have hnodup : ∀ f : Relay Wire → Wire, (w.relays.map f).Nodup → f r ∉ w.relays.map f →
      ((w.relays ++ [r]).map f).Nodup := by
    intro f hn hf
    rw [List.map_append, List.map_singleton]
    exact List.Nodup.append hn (List.nodup_singleton _) (List.disjoint_singleton.mpr hf)
  have hless : ∀ (f : Relay Wire → Wire) x, x ∉ (w.relays ++ [r]).map f → x ∉ w.relays.map f := by
    intro f x hx hin
    rw [List.map_append] at hx
    exact hx (List.mem_append_left _ hin)
  refine ⟨h.consistent, ?_, ?_, ?_, hnodup _ h.clients_nodup hclient,
    hnodup _ h.servers_nodup hserver, fun x hx => h.no_client x (hless _ x hx),
    fun y hy => h.no_server y (hless _ y hy)⟩
  · intro q hq
    rcases hin q hq with hq | rfl
    · exact h.bound q hq
    · exact hb
  · intro q hq d
    rcases hin q hq with hq | rfl
    · exact h.flow q hq d
    · -- nothing has been taken or written at its ends so far
      unfold Relay.Flow
      rw [ht d]
      cases d
      · exact hwritten'.trans htaken.symm
      · exact hwritten.trans htaken'.symm
  · intro q hq
    rcases hin q hq with hq | rfl
    · exact h.joined q hq
    · exact hj

/-- A thread of one relay takes a step. -/
theorem integrity_thread {w : World} (h : Integrity w) {j : Nat} {r r' : Relay Wire} {net' : Net Wire} {d : Dir}
    {a : ThreadStep} (hj : w.relays[j]? = some r) (hm : Relay.Moves r w.net d a r' net') :
    Integrity { w with relays := w.relays.set j r', net := net' } := by
  have hin : r ∈ w.relays := List.mem_of_getElem? hj
  obtain ⟨hends, -, -⟩ := hm.frame
  obtain ⟨htaken, hwritten, -⟩ := hm.net (h.bound r hin)
  have hclients : (w.relays.set j r').map Relay.client = w.relays.map Relay.client := map_set_same hj hends.client
  have hservers : (w.relays.set j r').map Relay.server = w.relays.map Relay.server := map_set_same hj hends.server
  refine ⟨h.consistent, ?_, ?_, ?_, hclients ▸ h.clients_nodup, hservers ▸ h.servers_nodup, ?_, ?_⟩
  · intro q hq
    rcases List.mem_or_eq_of_mem_set hq with hq | rfl
    · exact h.bound q hq
    · exact hm.bound (h.bound r hin)
  · intro q hq d'
    obtain ⟨i, hi⟩ := List.mem_iff_getElem?.mp hq
    by_cases hij : j = i
    · subst hij
      have hlen : j < w.relays.length := (List.getElem?_eq_some_iff.mp hj).1
      rw [List.getElem?_set_self hlen] at hi
      cases hi
      exact hm.flow (h.bound r hin) (h.flow r hin) d'
    · -- another relay shares neither of this one's streams
      rw [List.getElem?_set_ne hij] at hi
      have hq := List.mem_of_getElem? hi
      have hother : ∀ {f : Relay Wire → Wire}, (w.relays.map f).Nodup → f q ≠ f r := by
        intro f hn heq
        have hlen : j < (w.relays.map f).length := by
          rw [List.length_map]
          exact (List.getElem?_eq_some_iff.mp hj).1
        refine hij ((List.getElem?_inj hlen hn).mp ?_)
        rw [List.getElem?_map, List.getElem?_map, hi, hj, Option.map_some, Option.map_some, heq]
      have hclient := hother h.clients_nodup
      have hserver := hother h.servers_nodup
      refine (h.flow q hq d').congr (Relay.SameEnds.refl q) rfl (htaken _ _ ?_) (hwritten _ _ ?_)
      · rintro ⟨heq, rfl⟩
        cases d'
        · exact hclient heq
        · exact hserver heq
      · rintro ⟨heq, rfl⟩
        cases d'
        · exact hserver heq
        · exact hclient heq
  · intro q hq
    rcases List.mem_or_eq_of_mem_set hq with hq | rfl
    · exact h.joined q hq
    · rw [hends.client, hends.server]
      exact h.joined r hin
  · intro x hx hs
    have hx : x ∉ w.relays.map Relay.client := hclients ▸ hx
    have hne : x ≠ r.client := fun heq => hx (heq ▸ List.mem_map_of_mem hin)
    obtain ⟨h1, h2⟩ := h.no_client x hx hs
    refine ⟨(htaken x _ ?_).trans h1, (hwritten x _ ?_).trans h2⟩
    · rintro ⟨heq, rfl⟩
      exact hne heq
    · rintro ⟨heq, rfl⟩
      exact hne heq
  · intro y hy ha
    have hy : y ∉ w.relays.map Relay.server := hservers ▸ hy
    have hne : y ≠ r.server := fun heq => hy (heq ▸ List.mem_map_of_mem hin)
    obtain ⟨h1, h2⟩ := h.no_server y hy ha
    refine ⟨(hwritten y _ ?_).trans h1, (htaken y _ ?_).trans h2⟩
    · rintro ⟨heq, rfl⟩
      exact hne heq
    · rintro ⟨heq, rfl⟩
      exact hne heq

/-- An application or a service reads or writes at its own end. -/
theorem integrity_net {w : World} (h : Integrity w) {net' : Net Wire}
    (htaken : ∀ x d, (∀ c, x = .app c → d = .toServer) → (∀ n, x = .service n → d = .toClient) →
      (net' x d).taken = (w.net x d).taken)
    (hwritten : ∀ x d, (∀ c, x = .app c → d = .toClient) → (∀ n, x = .service n → d = .toServer) →
      (net' x d).written = (w.net x d).written) : Integrity { w with net := net' } := by
  refine ⟨h.consistent, h.bound, ?_, h.joined, h.clients_nodup, h.servers_nodup, ?_, ?_⟩
  · intro r hr d
    have hclient : ∀ n, r.client ≠ .service n := fun n => (h.joined r hr).service.2
    have hserver : ∀ c, r.server ≠ .app c := fun c => (h.joined r hr).app.2
    refine (h.flow r hr d).congr (Relay.SameEnds.refl r) rfl (htaken _ _ ?_ ?_) (hwritten _ _ ?_ ?_)
    · intro c hc
      cases d
      · rfl
      · exact absurd hc (hserver c)
    · intro n hn
      cases d
      · exact absurd hn (hclient n)
      · rfl
    · intro c hc
      cases d
      · exact absurd hc (hserver c)
      · rfl
    · intro n hn
      cases d
      · rfl
      · exact absurd hn (hclient n)
  · intro x hx hs
    obtain ⟨h1, h2⟩ := h.no_client x hx hs
    exact ⟨(htaken x _ (fun _ _ => rfl) fun n hn => absurd hn (hs n)).trans h1,
      (hwritten x _ (fun _ _ => rfl) fun n hn => absurd hn (hs n)).trans h2⟩
  · intro y hy ha
    obtain ⟨h1, h2⟩ := h.no_server y hy ha
    exact ⟨(hwritten y _ (fun c hc => absurd hc (ha c)) fun _ _ => rfl).trans h1,
      (htaken y _ (fun c hc => absurd hc (ha c)) fun _ _ => rfl).trans h2⟩

/-- The system takes a step. -/
theorem integrity_system {w : World} (h : Integrity w) {action : Action} {s : System}
    (hs : w.system.step action = some s) : Integrity { w with system := s } :=
  { h with
    consistent := consistent_step h.consistent hs
    joined := fun r hr => (h.joined r hr).step hs }

/-! ## Relays start -/

/-- What the broker forks for a request: nothing, or one relay, between the connections
it splices, on the descriptors they have. -/
theorem spawned_cases {s s' : System} (hc : Consistent s) {action : Action} (hs : s.step action = some s') :
    s.spawned action = [] ∨ ∃ (fds : Int → Option Conn) (f g : Int) (c n : Conn),
      s.spawned action = [Relay.facilitateConnection (fun fd => (fds fd).map .broker) f g (.broker c) (.broker n)] ∧
        fds f = some c ∧ fds g = some n ∧ Spliced s' c n ∧ ∀ c', ¬ Spliced s c' n := by
  cases System.step_moves hs with
  | @handled i a fd forked k id ha hlive hfd hr =>
    have hhandle := handleRequest_typed (messageOf_arrival hr) s.broker.server fd forked
    have hle := relayed_dispatch s.broker.server (update s.broker.fds fd (some a.conn)) fd ⟨some k, id⟩ forked
    have hmem : ∀ x ∈ Effect.relayed (update s.broker.fds fd (some a.conn))
        (s.broker.server.dispatch fd ⟨some k, id⟩ forked).2, ∀ c n, x.1 x.2.1 = some c → x.1 x.2.2 = some n →
        Spliced (s.handled i (s.broker.next a.conn fd ⟨some k, id⟩ forked)) c n ∧ n = a.conn := by
      rintro ⟨t, f, g⟩ hx c n hf hg
      have hv := Effect.spliced_of_relayed hx hf hg
      obtain ⟨e, he, hec, -, -, hacts⟩ :=
        (next_cases hc.inv.sound.kept.tablesOpen hfd a.conn ⟨some k, id⟩ forked).acts hc.inv.sound.kept
      obtain ⟨rfl, -⟩ := List.cons.inj he
      exact ⟨⟨_, List.mem_cons_self .., hv⟩, (hacts _ hv).1⟩
    simp only [System.spawned, ha, hhandle]
    generalize Effect.relayed (update s.broker.fds fd (some a.conn))
      (s.broker.server.dispatch fd ⟨some k, id⟩ forked).2 = l at *
    match l, hle with
    | [], _ => exact Or.inl rfl
    | [(t, f, g)], _ =>
      rw [List.flatMap_cons, List.flatMap_nil, List.append_nil]
      cases hf : t f with
      | none => exact Or.inl (by simp [spawn, hf])
      | some c =>
        cases hg : t g with
        | none => exact Or.inl (by simp [spawn, hf, hg])
        | some n =>
          obtain ⟨hsp, rfl⟩ := hmem _ (List.mem_singleton_self _) c n hf hg
          refine Or.inr ⟨t, f, g, c, a.conn, by simp [spawn, hf, hg], hf, hg, hsp, ?_⟩
          intro c' h'
          obtain ⟨e, he, hec, -⟩ := (h'.requests hc).2
          exact hc.named.arrivals_unmet a (List.mem_of_getElem? ha) (hec ▸ List.mem_map_of_mem he)
  | died ha _ _ hr =>
    left
    have hline : ∀ a : Arrival, a.request = none → a.line = [] := fun a h => by simp only [Arrival.line, h]
    simp only [System.spawned, ha, hline _ hr]
    rfl
  | _ => exact Or.inl rfl

theorem integrity_spawned {w : World} (h : Integrity w) {action : Action} {s : System}
    (hs : w.system.step action = some s) :
    Integrity { w with system := s, relays := w.relays ++ w.system.spawned action } := by
  have hsys := integrity_system h hs
  rcases spawned_cases h.consistent hs with hnil | ⟨fds, f, g, c, n, hr, hf, hg, hsp, hnew⟩
  · rw [hnil, List.append_nil]
    exact hsys
  · rw [hr]
    have hc := hsys.consistent
    refine integrity_attach hsys (Relay.bound_facilitate (by rw [hf]; rfl) (by rw [hg]; rfl)) (fun _ => rfl)
      hsp ?_ ?_
    · intro r hr (hrc : r.client = .broker c)
      have hj : Joined w.system (.broker c) r.server := hrc ▸ h.joined r hr
      rcases hj.of_client with ⟨-, hsends⟩ | ⟨n', -, hsp'⟩
      · cases (hsp.client hc).unique hc.named hc.inv.sound (hsends.step hs)
      · obtain rfl := (hsp.one_to_one hc (hsp'.step hs)).mp rfl
        exact hnew c hsp'
    · intro r hr (hrs : r.server = .broker n)
      have hj : Joined w.system r.client (.broker n) := hrs ▸ h.joined r hr
      rcases hj.of_server with ⟨-, hsends⟩ | ⟨c', -, hsp'⟩
      · cases (hsp.report hc).unique hc.named hc.inv.sound (hsends.step hs)
      · exact hnew c' hsp'

theorem bound_pairTable {f g : Fd} (hfg : f ≠ g) (x y : Wire) :
    (Relay.facilitateConnection (pairTable f g x y) f g x y).Bound := by
  have hne : (f : Int) ≠ g := fun heq => hfg (Int.ofNat.inj heq)
  exact Relay.bound_facilitate ((update_of_ne hne ..).trans (update_self ..)) (update_self ..)

/-- A client that was told OK. -/
theorem sends_of_accepted {s : System} {c : Conn} (h : s.accepted c = true) : Sends s c .connect := by
  simp only [System.accepted, Bool.and_eq_true, List.any_eq_true, decide_eq_true_eq] at h
  obtain ⟨⟨e, he, hec, hm⟩, -⟩ := h
  obtain ⟨⟨k, id⟩, hm, hk⟩ := Option.map_eq_some_iff.mp hm
  cases hk
  exact Or.inr ⟨e, he, hec, id, hm⟩

theorem integrity_clientSession {w : World} (h : Integrity w) {c : Conn} {f g : Fd} (hfg : f ≠ g)
    (hacc : w.system.accepted c = true) (hnew : Wire.app c ∉ w.relays.map Relay.client) :
    Integrity { w with relays := w.relays ++ [Relay.facilitateConnection
      (pairTable f g (.app c) (.broker c)) f g (.app c) (.broker c)] } := by
  have hc := h.consistent
  have hsends := sends_of_accepted hacc
  refine integrity_attach h (bound_pairTable hfg _ _) (fun _ => rfl) ⟨rfl, hsends⟩
    (fun r hr hrc => hnew (List.mem_map.mpr ⟨r, hr, hrc⟩)) ?_
  intro r hr (hrs : r.server = .broker c)
  have hj : Joined w.system r.client (.broker c) := hrs ▸ h.joined r hr
  rcases hj.of_server with ⟨hclient, -⟩ | ⟨c', -, hsp⟩
  · exact hnew (List.mem_map.mpr ⟨r, hr, hclient⟩)
  · cases hsends.unique hc.named hc.inv.sound (hsp.report hc)

theorem integrity_serviceSession {w : World} (h : Integrity w) {i k : Nat} {f g : Fd} (hfg : f ≠ g) {s : System}
    (hs : w.system.step (.proxy i (.service k true)) = some s) :
    Integrity { w with
      system := s
      relays := w.relays ++ [Relay.facilitateConnection
        (pairTable f g (.broker w.system.next) (.service w.system.next)) f g
        (.broker w.system.next) (.service w.system.next)] } := by
  have hsys := integrity_system h hs
  have hold : ∀ {kind}, ¬ Sends w.system w.system.next kind :=
    fun hsends => Nat.lt_irrefl _ (hsends.lt h.consistent.named)
  have hsends : Sends s w.system.next .connectionCreated := by
    cases System.step_moves hs with
    | proxyMoved hp hm =>
      cases hm with
      | connected => exact Or.inl ⟨_, mem_arrive.mpr (Or.inr rfl), rfl, _, rfl⟩
  refine integrity_attach hsys (bound_pairTable hfg _ _) (fun _ => rfl) ⟨rfl, hsends⟩ ?_ ?_
  · intro r hr (hrc : r.client = .broker w.system.next)
    have hj : Joined w.system (.broker w.system.next) r.server := hrc ▸ h.joined r hr
    rcases hj.of_client with ⟨-, hsends⟩ | ⟨n, -, hsp⟩
    · exact hold hsends
    · exact hold (hsp.client h.consistent)
  · intro r hr (hrs : r.server = .service w.system.next)
    have hj := h.joined r hr
    have hclient := hj.service.1 hrs
    rw [hclient] at hj
    rcases hj.of_client with ⟨-, hsends⟩ | ⟨n, -, hsp⟩
    · exact hold hsends
    · exact hold (hsp.client h.consistent)

/-- Away from where an application or a service is active, its step changes nothing. -/
theorem set_elsewhere {net : Net Wire} {x y : Wire} {d e : Dir} {p : Pipe UInt8} (h : x = y → d = e.other) :
    net.set y e p x d = net x d := by
  refine Net.set_of_ne net ?_ p
  by_cases hx : x = y
  · right
    rw [h hx]
    cases e <;> nofun
  · exact Or.inl hx

theorem integrity_step {w w' : World} {a : Happening} (h : Integrity w) (hs : w.step a = some w') :
    Integrity w' := by
  cases a with
  | system a =>
    simp only [World.step] at hs
    split_ifs at hs
    obtain ⟨s, hs', rfl⟩ := Option.map_eq_some_iff.mp hs
    exact integrity_spawned h hs'
  | clientSession c f g =>
    simp only [World.step] at hs
    split_ifs at hs with hg
    cases hs
    exact integrity_clientSession h hg.1 hg.2.1 hg.2.2
  | serviceSession i k f g =>
    simp only [World.step] at hs
    split_ifs at hs with hfg
    obtain ⟨s, hs', rfl⟩ := Option.map_eq_some_iff.mp hs
    exact integrity_serviceSession h hfg hs'
  | thread j d a =>
    simp only [World.step] at hs
    split at hs
    · cases hs
    · next r hj =>
      obtain ⟨⟨r', net⟩, hstep, rfl⟩ := Option.map_eq_some_iff.mp hs
      exact integrity_thread h hj (Relay.step_moves hstep)
  | appWrites c bytes =>
    cases hs
    apply integrity_net h (fun _ _ _ _ => Net.push_taken ..)
    intro x d happ _
    exact congrArg Pipe.written (set_elsewhere (happ c))
  | appReads c n =>
    cases hs
    refine integrity_net h ?_ fun _ _ _ _ => Net.take_written ..
    intro x d happ _
    exact congrArg Pipe.taken (set_elsewhere (happ c))
  | serviceWrites n bytes =>
    cases hs
    apply integrity_net h (fun _ _ _ _ => Net.push_taken ..)
    intro x d _ hserv
    exact congrArg Pipe.written (set_elsewhere (hserv n))
  | serviceReads n k =>
    cases hs
    refine integrity_net h ?_ fun _ _ _ _ => Net.take_written ..
    intro x d _ hserv
    exact congrArg Pipe.taken (set_elsewhere (hserv n))

/-! ## End to end -/

/-- What a session delivers at either end is a prefix of what was written at the other,
a connection is in one session at most, and outside sessions nothing is delivered. -/
structure RelayIntegrity (w : World) : Prop where
  to_service : ∀ c n, Spliced w.system c n →
    (w.net (.service n) .toServer).taken <+: (w.net (.app c) .toServer).written
  to_client : ∀ c n, Spliced w.system c n →
    (w.net (.app c) .toClient).taken <+: (w.net (.service n) .toClient).written
  one_to_one : ∀ c c' n n', Spliced w.system c n → Spliced w.system c' n' → (c = c' ↔ n = n')
  no_other_service : ∀ n, (∀ c, ¬ Spliced w.system c n) → (w.net (.service n) .toServer).taken = []
  no_other_client : ∀ c, (∀ n, ¬ Spliced w.system c n) → (w.net (.app c) .toClient).taken = []

/-- What flows to the server on a connection comes through a relay from another. -/
theorem fed_to_server {w : World} (h : Integrity w) {y : Wire} (hy : ∀ c, y ≠ .app c) :
    (w.net y .toServer).written = [] ∨
      ∃ x, Joined w.system x y ∧ (w.net x .toServer).Feeds (w.net y .toServer) := by
  by_cases hin : y ∈ w.relays.map Relay.server
  · obtain ⟨r, hr, rfl⟩ := List.mem_map.mp hin
    exact Or.inr ⟨r.client, h.joined r hr, (h.flow r hr .toServer).feeds⟩
  · exact Or.inl (h.no_server y hin hy).1

theorem fed_to_client {w : World} (h : Integrity w) {x : Wire} (hx : ∀ n, x ≠ .service n) :
    (w.net x .toClient).written = [] ∨
      ∃ y, Joined w.system x y ∧ (w.net y .toClient).Feeds (w.net x .toClient) := by
  by_cases hin : x ∈ w.relays.map Relay.client
  · obtain ⟨r, hr, rfl⟩ := List.mem_map.mp hin
    exact Or.inr ⟨r.server, h.joined r hr, (h.flow r hr .toClient).feeds⟩
  · exact Or.inl (h.no_client x hin hx).2

/-- Data reaches a service only through a chain of three relays. -/
theorem to_service_cases {w : World} (h : Integrity w) (n : Conn) :
    (w.net (.service n) .toServer).taken = [] ∨ ∃ c, Spliced w.system c n ∧
      (w.net (.service n) .toServer).taken <+: (w.net (.app c) .toServer).written := by
  have hc := h.consistent
  rcases fed_to_server h (y := .service n) nofun with hnil | ⟨x, hj, hf⟩
  · exact Or.inl (Pipe.taken_of_unwritten hnil)
  obtain rfl := hj.service.1 rfl
  -- back from the service: its proxy's child, the broker's child, the client proxy
  rcases fed_to_server h (y := .broker n) nofun with hnil | ⟨x, hj', hf'⟩
  · exact Or.inl (Pipe.taken_of_unwritten (hf.unwritten hnil))
  rcases hj'.of_server with ⟨-, hsends⟩ | ⟨c, rfl, hsp⟩
  · cases hsends.unique hc.named hc.inv.sound hj.2
  rcases fed_to_server h (y := .broker c) nofun with hnil | ⟨x, hj'', hf''⟩
  · exact Or.inl (Pipe.taken_of_unwritten (hf.unwritten (hf'.unwritten hnil)))
  rcases hj''.of_server with ⟨rfl, -⟩ | ⟨c', rfl, hsp'⟩
  · have hchain : [w.net (.app c) .toServer, w.net (.broker c) .toServer, w.net (.broker n) .toServer,
        w.net (.service n) .toServer].IsChain Pipe.Feeds :=
      .cons_cons hf'' (.cons_cons hf' (.cons_cons hf (.singleton _)))
    exact Or.inr ⟨c, hsp, Pipe.delivered_prefix hchain rfl⟩
  · cases (hsp.client hc).unique hc.named hc.inv.sound (hsp'.report hc)

/-- Data reaches the application of a client in the same way. -/
theorem to_client_cases {w : World} (h : Integrity w) (c : Conn) :
    (w.net (.app c) .toClient).taken = [] ∨ ∃ n, Spliced w.system c n ∧
      (w.net (.app c) .toClient).taken <+: (w.net (.service n) .toClient).written := by
  have hc := h.consistent
  rcases fed_to_client h (x := .app c) nofun with hnil | ⟨y, hj, hf⟩
  · exact Or.inl (Pipe.taken_of_unwritten hnil)
  obtain rfl := hj.app.1 rfl
  rcases fed_to_client h (x := .broker c) nofun with hnil | ⟨y, hj', hf'⟩
  · exact Or.inl (Pipe.taken_of_unwritten (hf.unwritten hnil))
  rcases hj'.of_client with ⟨-, hsends⟩ | ⟨n, rfl, hsp⟩
  · cases hsends.unique hc.named hc.inv.sound hj.2
  rcases fed_to_client h (x := .broker n) nofun with hnil | ⟨y, hj'', hf''⟩
  · exact Or.inl (Pipe.taken_of_unwritten (hf.unwritten (hf'.unwritten hnil)))
  rcases hj''.of_client with ⟨rfl, -⟩ | ⟨n', rfl, hsp'⟩
  · have hchain : [w.net (.service n) .toClient, w.net (.broker n) .toClient, w.net (.broker c) .toClient,
        w.net (.app c) .toClient].IsChain Pipe.Feeds :=
      .cons_cons hf'' (.cons_cons hf' (.cons_cons hf (.singleton _)))
    exact Or.inr ⟨n, hsp, Pipe.delivered_prefix hchain rfl⟩
  · cases (hsp.report hc).unique hc.named hc.inv.sound (hsp'.client hc)

theorem end_to_end {as : List Happening} {w : World}
    (h : Transition.exec World.step World.init as = some w) : RelayIntegrity w := by
  have hi : Integrity w := Transition.exec_invariant (fun _ _ _ => integrity_step) integrity_init h
  have hone : ∀ c c' n n', Spliced w.system c n → Spliced w.system c' n' → (c = c' ↔ n = n') :=
    fun c c' n n' hs hs' => hs.one_to_one hi.consistent hs'
  refine ⟨?_, ?_, hone, ?_, ?_⟩
  · intro c n hs
    rcases to_service_cases hi n with hnil | ⟨c', hs', hp⟩
    · rw [hnil]
      exact List.nil_prefix
    · obtain rfl := (hone c c' n n hs hs').mpr rfl
      exact hp
  · intro c n hs
    rcases to_client_cases hi c with hnil | ⟨n', hs', hp⟩
    · rw [hnil]
      exact List.nil_prefix
    · obtain rfl := (hone c c n n' hs hs').mp rfl
      exact hp
  · intro n hn
    exact (to_service_cases hi n).resolve_right fun ⟨c, hs, _⟩ => hn c hs
  · intro c hc
    exact (to_client_cases hi c).resolve_right fun ⟨n, hs, _⟩ => hc n hs

/-- One session, in which the client says hello. -/
def hello : List Happening :=
  [.system (.proxyStart (str "a")), .system (.brokerHandle 0 4 true), .system (.proxy 0 .recv),
    .system (.clientStart (str "a")), .system (.brokerHandle 0 5 true), .system (.proxy 0 .recv),
    .system (.proxy 0 (.create true)), .system (.proxy 0 (.fork true)), .serviceSession 0 0 6 7,
    .system (.brokerHandle 0 6 true), .clientSession 1 8 9, .appWrites 1 (str "hello"),
    .thread 2 .toServer .recv, .thread 2 .toServer (.chunk 5), .thread 2 .toServer (.send true),
    .thread 1 .toServer .recv, .thread 1 .toServer (.chunk 3), .thread 1 .toServer (.send true),
    .thread 0 .toServer .recv, .thread 0 .toServer (.chunk 3), .thread 0 .toServer (.send true),
    .serviceReads 2 3]

theorem end_to_end_hello : ∃ w, Transition.exec World.step World.init hello = some w ∧
    (w.net (.service 2) .toServer).taken = str "hel" ∧ RelayIntegrity w := by
  have hw : ∃ w ∈ Transition.exec World.step World.init hello,
      (w.net (.service 2) .toServer).taken = str "hel" := by
    decide +kernel
  obtain ⟨w, hw, hread⟩ := hw
  exact ⟨w, hw, hread, end_to_end hw⟩

end VirtualSocket.Rendezvous
