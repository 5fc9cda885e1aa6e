import VirtualSocket.Children

/- When the connections of a finished session are closed. The parent has let go of both,
   and so has the child that relayed or refused the session; but a child forked for
   another session while the client was still waiting got a copy of the client's
   descriptor too, and keeps it until it exits. So the client's connection is closed
   exactly when none of those is left (`released_iff`), and the service's always is. -/
namespace VirtualSocket
open Json Protocol Server Broker Function

variable {κ : Type} [DecidableEq κ]

/-! ## A report ends a client's wait -/

omit [DecidableEq κ] in
theorem Entry.reports.message {e : Entry κ} {s : Bytes} (h : e.reports s) :
    ∃ success, e.message = some ⟨some (reportKind success), s⟩ := by
  rcases h with h | h
  · exact ⟨true, h⟩
  · exact ⟨false, h⟩

omit [DecidableEq κ] in
theorem Entry.reports.not_forwards {e : Entry κ} {s s' : Bytes} (h : e.reports s) : ¬ e.forwards s' := by
  intro hf
  obtain ⟨id, hc⟩ := hf.connects
  obtain ⟨success, hm⟩ := h.message
  have hc' : e.message = some ⟨some .connect, id⟩ := hc
  rw [hm] at hc'
  cases success <;> cases hc'

omit [DecidableEq κ] in
/-- A client that has been reported on does not wait again. -/
theorem reported_not_waiting {e w : Entry κ} {h H : List (Entry κ)} {s s' : Bytes} (hn : (H.map Entry.conn).Nodup)
    (hs : e :: h <:+ H) (hrep : e.reports s) (hw : waiting h s = some w) : waiting H s' ≠ some w := by
  intro hw'
  have hss : s' = s := (waiting_some hw').2.2.1.trans (waiting_some hw).2.2.1.symm
  subst hss
  obtain ⟨t, rfl⟩ := hs
  induction t with
  | nil =>
    rw [List.nil_append] at hw'
    unfold waiting at hw'
    rw [if_neg hrep.not_forwards, if_pos hrep] at hw'
    cases hw'
  | cons x t ih =>
    rw [List.cons_append, List.map_cons, List.nodup_cons] at hn
    rw [List.cons_append] at hw'
    unfold waiting at hw'
    split_ifs at hw' with hx hr
    · -- the client's one request is behind the report
      obtain rfl := Option.some.inj hw'
      exact hn.1 (List.mem_map_of_mem (List.mem_append_right t (List.mem_cons_of_mem e (waiting_some hw).1)))
    · exact ih hn.2 hw'

omit [DecidableEq κ] in
/-- So it is reported on once. -/
theorem reported_once {e e' w : Entry κ} {h h' H : List (Entry κ)} {s s' : Bytes} (hn : (H.map Entry.conn).Nodup)
    (hs : e :: h <:+ H) (hrep : e.reports s) (hw : waiting h s = some w)
    (hs' : e' :: h' <:+ H) (hrep' : e'.reports s') (hw' : waiting h' s' = some w) : e = e' := by
  have hnodup : ∀ {l : List (Entry κ)}, l <:+ H → (l.map Entry.conn).Nodup :=
    fun hl => hn.sublist (hl.sublist.map Entry.conn)
  rcases List.suffix_or_suffix_of_suffix hs hs' with hsuf | hsuf
  · rcases List.suffix_cons_iff.mp hsuf with heq | hsuf
    · exact (List.cons.inj heq).1
    · exact absurd hw' (reported_not_waiting (hnodup ((List.suffix_cons _ _).trans hs')) hsuf hrep hw)
  · rcases List.suffix_cons_iff.mp hsuf with heq | hsuf
    · exact (List.cons.inj heq).1.symm
    · exact absurd hw (reported_not_waiting (hnodup ((List.suffix_cons _ _).trans hs)) hsuf hrep' hw')

/-- The sender of a report is in no table. -/
theorem Entry.reports.not_held {e : Entry κ} {s : Bytes} (h : e.reports s)
    (hist : List (Entry κ)) : ¬ Held hist e := by
  obtain ⟨success, hm⟩ := h.message
  intro hheld
  rcases hheld with ⟨id, hr⟩ | ⟨s', hw⟩ | ⟨-, hfor⟩
  · have hreg := (registrant_some hr).2.1
    rw [hm] at hreg
    cases success <;> cases hreg
  · exact h.not_forwards (waiting_some hw).2
  · exact not_forgotten_of_kind hm (reportKind_ne success).1 hfor

/-- A client that has connected is held only while it waits. -/
theorem Entry.forwards.waits {w : Entry κ} {s : Bytes} (h : w.forwards s)
    {hist : List (Entry κ)} (hh : Held hist w) :
    ∃ s', waiting hist s' = some w := by
  obtain ⟨id, hc⟩ := h.connects
  rcases hh with ⟨id', hr⟩ | hw | ⟨-, hfor⟩
  · exact (connects_not_registers hc (registrant_some hr).2).elim
  · exact hw
  · exact absurd hfor (not_forgotten_of_kind hc (by decide))

namespace Processes

/-- The session of the client `w` is over: the parent has handled the report `e` on it, and
the child it forked for that has exited. -/
structure Finished (p : Processes κ) (w e : Entry κ) : Prop where
  settled : ∃ h s, e :: h <:+ p.parent.history ∧ e.reports s ∧ waiting h s = some w
  exited : ∀ k ∈ p.children, k.conn = e.conn → k.stage = .exited

/-! ## Who holds what -/

/-- The parent holds what its history says. -/
theorem Inherited.parent_held {p : Processes κ} (h : Inherited p) {o : Entry κ} (ho : o ∈ p.parent.history) {f : Int}
    (hf : p.parent.fds f = some o.conn) : Held p.parent.history o := by
  obtain ⟨o', hheld, hc, -⟩ := (h.tracked.filed f o.conn).mp hf
  obtain rfl := conn_inj h.tracked.sound.conns_nodup (Held.mem hheld) ho hc
  exact hheld

/-- A child holds its own report's connection and those the parent held at the fork. -/
theorem Inherited.child_held {p : Processes κ} (h : Inherited p) {o : Entry κ} (ho : o ∈ p.parent.history)
    {k : Child κ} (hk : k ∈ p.children) {f : Int} (hf : k.stage.fds f = some o.conn) :
    k.conn = o.conn ∨ Held k.born o := by
  obtain ⟨e, w, s, fds, hsuf, hc, -, -, hfiled, hinh⟩ := h.descends k hk
  obtain ⟨o', hor, hconn, -⟩ := (hfiled f o.conn).mp (hinh.some hf)
  rcases hor with rfl | hheld
  · exact Or.inl (hc.symm.trans hconn)
  · have hin := hsuf.subset (List.mem_cons_of_mem e (Held.mem hheld))
    obtain rfl := conn_inj h.tracked.sound.conns_nodup hin ho hconn
    exact Or.inr hheld

/-- And of those it lets go of the client it was forked for only, as long as it runs. -/
theorem Inherited.child_keeps {p : Processes κ} (h : Inherited p) {k : Child κ} (hk : k ∈ p.children)
    (hrun : k.stage ≠ .exited) {o : Entry κ} (ho : Held k.born o) :
    k.stage.fds o.fd = some o.conn ∨ ∃ e s, e :: k.born <:+ p.parent.history ∧ e.conn = k.conn ∧ e.reports s ∧
      waiting k.born s = some o := by
  obtain ⟨e, w, s, fds, hsuf, hc, hrep, hw, hfiled, hinh⟩ := h.descends k hk
  by_cases how : o = w
  · exact Or.inr ⟨e, s, hsuf, hc, hrep, how ▸ hw⟩
  left
  have hin : ∀ {o'}, Held k.born o' → o' ∈ p.parent.history :=
    fun ho' => hsuf.subset (List.mem_cons_of_mem e (Held.mem ho'))
  have hopen : fds o.fd = some o.conn := (hfiled ..).mpr ⟨o, Or.inr ho, rfl, rfl⟩
  have hwheld : Held k.born w := Or.inr (Or.inl ⟨s, hw⟩)
  have hwopen : fds w.fd = some w.conn := (hfiled ..).mpr ⟨w, Or.inr hwheld, rfl, rfl⟩
  have heopen : fds e.fd = some e.conn := (hfiled ..).mpr ⟨e, Or.inl rfl, rfl, rfl⟩
  have hnw : (o.fd : Int) ≠ w.fd := by
    intro heq
    rw [heq, hwopen] at hopen
    exact how (conn_inj h.tracked.sound.conns_nodup (hin ho) (hin hwheld) (Option.some.inj hopen).symm)
  have hne : (o.fd : Int) ≠ e.fd := by
    intro heq
    rw [heq, heopen] at hopen
    have hoe : o = e := conn_inj h.tracked.sound.conns_nodup (hin ho) (hsuf.subset (List.mem_cons_self ..))
      (Option.some.inj hopen).symm
    exact hrep.not_held k.born (hoe ▸ ho)
  rw [hinh.of_ne hrun hnw hne, hopen]

/-- The service's connection is closed when its session is over. -/
theorem Finished.service_closed {p : Processes κ} (h : Inherited p) {w e : Entry κ} (hf : Finished p w e) :
    p.Closed e.conn := by
  obtain ⟨hist, s, hs, hrep, -⟩ := hf.settled
  have he : e ∈ p.parent.history := hs.subset (List.mem_cons_self ..)
  refine ⟨fun f hf => hrep.not_held _ (h.parent_held he hf), ?_⟩
  intro k hk f hfd
  rcases h.child_held he hk hfd with hc | hheld
  · rw [hf.exited k hk hc] at hfd
    cases hfd
  · exact hrep.not_held _ hheld

/-- The client's is when no child has it from before. -/
theorem Finished.client_closed_iff {p : Processes κ} (h : Inherited p) {w e : Entry κ} (hf : Finished p w e) :
    p.Closed w.conn ↔ ∀ k ∈ p.children, (∃ s, waiting k.born s = some w) → k.stage = .exited := by
  obtain ⟨hist, s, hs, hrep, hw⟩ := hf.settled
  have hn := h.tracked.sound.conns_nodup
  obtain ⟨hwin, hfor⟩ := waiting_some hw
  have hwin : w ∈ p.parent.history := hs.subset (List.mem_cons_of_mem e hwin)
  constructor
  · intro ⟨_, hclosed⟩ k hk ⟨s', hw'⟩
    by_contra hrun
    rcases h.child_keeps hk hrun (Or.inr (Or.inl ⟨s', hw'⟩)) with hopen | ⟨e', s'', hs', hc', hrep', hw''⟩
    · exact hclosed k hk w.fd hopen
    · obtain rfl := reported_once hn hs hrep hw hs' hrep' hw''
      exact hrun (hf.exited k hk hc'.symm)
  · intro hall
    refine ⟨?_, ?_⟩
    · intro f hfd
      obtain ⟨s', hw'⟩ := hfor.waits (h.parent_held hwin hfd)
      exact reported_not_waiting hn hs hrep hw hw'
    · intro k hk f hfd
      rcases h.child_held hwin hk hfd with hc | hheld
      · -- a child's own report is no connect request
        obtain ⟨e', -, s', -, hs', hc', hrep', -⟩ := h.descends k hk
        obtain rfl := conn_inj hn (hs'.subset (List.mem_cons_self ..)) hwin (hc'.trans hc)
        exact hrep'.not_forwards hfor
      · rw [hall k hk (hfor.waits hheld)] at hfd
        cases hfd

/-- In every run, for every session that is over. -/
theorem released_iff {as : List (ProcessStep κ)} {p : Processes κ} (h : Transition.exec step init as = some p)
    {w e : Entry κ} (hf : Finished p w e) : (p.Closed w.conn ∧ p.Closed e.conn) ↔
      ∀ k ∈ p.children, (∃ s, waiting k.born s = some w) → k.stage = .exited := by
  have hinh := inherited_run h
  rw [and_iff_left (hf.service_closed hinh), hf.client_closed_iff hinh]

/-- The turns of the parent on a connection of its own, in a run that forks whenever it should. -/
def request (c : Nat) (fd : Fd) (line : Bytes) : ProcessStep Nat := .parent ⟨c, fd, .bytes line, true⟩

/-- A client's connect request under client ID "5", passed along to the service `a`. -/
def firstClient : Entry Nat :=
  ⟨1, 5, some ⟨some .connect, str "a"⟩, [.sent 0 (makeProxyConnectRequest (str "5"))]⟩

theorem waiting_firstClient (h : List (Entry Nat)) : waiting (firstClient :: h) (str "5") = some firstClient := by
  have hfor : firstClient.forwards (str "5") := by decide +kernel
  rw [waiting, if_pos hfor]

/-- One session: both threads see their stream end, the child joins them and exits. -/
def oneSession : List (ProcessStep Nat) :=
  [request 0 4 (makeRegisterRequest (str "a")), request 1 5 (makeConnectRequest (str "a")),
    request 2 6 (makeConnectionCreatedRequest (str "5")), .child 0 .call, .child 0 .call,
    .child 0 (.thread .toServer .recv), .child 0 (.thread .toClient .recv), .child 0 (.thread .toServer .stop),
    .child 0 (.thread .toServer .close), .child 0 (.thread .toServer .close), .child 0 (.thread .toClient .stop),
    .child 0 (.thread .toClient .close), .child 0 (.thread .toClient .close), .child 0 .join, .child 0 .call]

def created : Entry Nat :=
  ⟨2, 6, some ⟨some .connectionCreated, str "5"⟩, [.sent 1 okResponse, .spliced 1 2, .closed 1, .closed 2]⟩

theorem released_oneSession : ∃ p, Transition.exec step init oneSession = some p ∧
    Finished p firstClient created ∧ p.Closed 1 ∧ p.Closed 2 := by
  have hs : (Transition.exec step init oneSession).any (fun p => decide
      (p.parent.history.take 2 = [created, firstClient] ∧ ∀ k ∈ p.children, k.stage = .exited)) = true := by
    decide +kernel
  obtain ⟨p, hp, hdec⟩ := (Option.any_eq_true _ _).mp hs
  obtain ⟨htake, hall⟩ := of_decide_eq_true hdec
  have hsuf : created :: firstClient :: p.parent.history.drop 2 <:+ p.parent.history := by
    have heq := List.take_append_drop 2 p.parent.history
    rw [htake] at heq
    exact ⟨[], heq⟩
  have hf : Finished p firstClient created :=
    ⟨⟨_, str "5", hsuf, Or.inl rfl, waiting_firstClient _⟩, fun k hk _ => hall k hk⟩
  exact ⟨p, hp, hf, (released_iff hp hf).mpr fun k hk _ => hall k hk⟩

/-- Two clients wait. The second one's session starts; the first one's is refused, and the
child for that exits while the other still runs. -/
def twoClients : List (ProcessStep Nat) :=
  [request 0 4 (makeRegisterRequest (str "a")), request 1 5 (makeConnectRequest (str "a")),
    request 2 6 (makeConnectRequest (str "a")), request 3 7 (makeConnectionCreatedRequest (str "6")),
    request 4 6 (makeConnectionFailedRequest (str "5")), .child 1 .call, .child 1 .call, .child 1 .call,
    .child 1 .call]

def refused : Entry Nat :=
  ⟨4, 6, some ⟨some .connectionFailed, str "5"⟩,
    [.sent 1 couldNotConnect, .closed 1, .closed 4, .closed 1, .closed 4]⟩

/-- The first client sees no end of stream: the second one's child has its descriptor. -/
theorem released_fails_on_twoClients : ∃ p, Transition.exec step init twoClients = some p ∧
    Finished p firstClient refused ∧ ¬ p.Closed 1 := by
  have hs : (Transition.exec step init twoClients).any (fun p => decide
      (p.parent.history.head? = some refused ∧
        (∀ k ∈ p.children, k.conn = refused.conn → k.stage = .exited) ∧
        waiting p.parent.history.tail (str "5") = some firstClient ∧
        ∃ k ∈ p.children, k.stage.fds 5 = some 1)) = true := by
    decide +kernel
  obtain ⟨p, hp, hdec⟩ := (Option.any_eq_true _ _).mp hs
  obtain ⟨hhead, hexited, hwait, k, hk, hopen⟩ := of_decide_eq_true hdec
  have hsuf : refused :: p.parent.history.tail <:+ p.parent.history := ⟨[], List.cons_head?_tail hhead⟩
  refine ⟨p, hp, ⟨⟨_, str "5", hsuf, Or.inr rfl, hwait⟩, hexited⟩, ?_⟩
  intro ⟨_, hclosed⟩
  exact hclosed k hk 5 hopen

end Processes
end VirtualSocket
