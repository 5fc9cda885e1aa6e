import VirtualSocket.Lib.Measure
import VirtualSocket.Owed

/- Progress of the rendezvous. Every step but the arrival of a newcomer brings the
   work of a state down: a client that starts is good for nine steps of all the
   parties together, a service proxy for six, a connection closed without a request
   for one (`work_bound`). So the broker and the proxies always come to rest
   (`comes_to_rest`), and when they do while the broker lives, no request is left
   anywhere: in a run that lost none, each connect request passed along has then
   been answered, once (`resting_answered`).

   The work pays for interrupts and for the ends of sessions too, but to come to rest
   is a matter of the other steps: nobody has to interrupt a proxy. The broker's
   `accept` never lacks a descriptor here; `Capacity` is about what happens when it
   does. -/
namespace VirtualSocket.Rendezvous
open Json Protocol Server Broker ServiceProxy Function Sums

/-! ## The work of a state -/

def Phase.work : Phase → Nat
  | .starting => 5
  | .idle => 4
  | .handling _ => 11
  | .opened _ => 10
  | .stopping _ => 3
  | .ended => 0

def Child.work (c : Child) : Nat :=
  match c.stage with
  | .connecting => 5
  | .session | .stopping _ => 3

/-- A line that a proxy takes a request from. -/
def lineWork (line : Bytes) : Nat := if (clientOf line).isSome then 8 else 0

def Proxy.work (p : Proxy) : Nat :=
  p.phase.work + (p.inbox.map lineWork).sum + (p.children.map Child.work).sum

def Request.work : Request → Nat
  | some (.connect, _) => 9
  | _ => 1

def System.work (s : System) : Nat :=
  (s.proxies.map Proxy.work).sum + (s.arrivals.map fun a => Request.work a.request).sum

/-- What a newcomer brings. -/
def Action.gain : Action → Nat
  | .clientStart _ => 9
  | .clientAbort => 1
  | .proxyStart _ => 6
  | .brokerHandle .. | .proxy .. => 0

/-- A step of the broker or of a proxy. -/
def Action.spend : Action → Nat
  | .clientStart _ | .clientAbort | .proxyStart _ => 0
  | .brokerHandle .. | .proxy .. => 1

/-! ## A step of a proxy -/

theorem interrupt_work (cs : List Child) :
    ((cs.map Proxy.interruptChild).map Child.work).sum ≤ (cs.map Child.work).sum := by
  induction cs with
  | nil => exact Nat.le_refl _
  | cons c cs ih =>
    obtain ⟨clientID, stage⟩ := c
    have hc : (Proxy.interruptChild ⟨clientID, stage⟩).work ≤ Child.work ⟨clientID, stage⟩ := by
      cases stage <;> simp [Proxy.interruptChild, Child.work]
    rw [List.map_cons, List.map_cons, List.sum_cons, List.map_cons, List.sum_cons]
    exact Nat.add_le_add hc ih

theorem farewell_work (p : Proxy) (unsent ok : Bool) : ((p.farewell unsent ok).map Request.work).sum ≤ 2 := by
  cases unsent <;> cases ok <;> simp [Proxy.farewell, Request.work]

theorem Proxy.Moves.work_lt {p p' : Proxy} {closed : Bool} {action : ProxyAction} {requests : List Request}
    (hm : Proxy.Moves p closed action p' requests) : p'.work + (requests.map Request.work).sum < p.work := by
  cases hm with
  | @response line rest hp hi =>
    cases registered line <;>
      simp only [Proxy.work, Phase.work, hp, hi, List.map_cons, List.sum_cons, List.map_nil, List.sum_nil,
        Bool.false_eq_true, if_false, if_true] <;> omega
  | request hp hi hc =>
    have hline : lineWork _ = 8 := if_pos (Option.isSome_iff_exists.mpr ⟨_, hc⟩)
    simp only [Proxy.work, Phase.work, hp, hi, hline, List.map_cons, List.sum_cons, List.map_nil, List.sum_nil]
    omega
  | garbled hp hi hc =>
    simp only [Proxy.work, Phase.work, hp, hi, List.map_cons, List.sum_cons, List.map_nil, List.sum_nil]
    omega
  | hangup hc hi hp =>
    rcases hp with hp | hp <;> simp only [Proxy.work, Phase.work, hp, List.map_nil, List.sum_nil] <;> omega
  | created ok hp =>
    cases ok <;>
      simp only [Proxy.work, Phase.work, hp, List.map_nil, List.sum_nil, Bool.false_eq_true, if_false, if_true] <;>
      omega
  | forked hp =>
    simp only [Proxy.work, Phase.work, Child.work, hp, List.map_append, List.sum_append, List.map_cons,
      List.sum_cons, List.map_nil, List.sum_nil]
    omega
  | unforked hp =>
    simp only [Proxy.work, Phase.work, Request.work, hp, List.map_cons, List.sum_cons, List.map_nil, List.sum_nil]
    omega
  | @connected k clientID hk =>
    have hset := sum_map_set Child.work hk ⟨clientID, .session⟩
    simp only [Proxy.work, Request.work, Child.work, List.map_cons, List.sum_cons, List.map_nil,
      List.sum_nil] at hset ⊢
    omega
  | failed hk =>
    have herase := sum_map_eraseIdx Child.work hk
    simp only [Proxy.work, Request.work, Child.work, List.map_cons, List.sum_cons, List.map_nil,
      List.sum_nil] at herase ⊢
    omega
  | exited hk =>
    have herase := sum_map_eraseIdx Child.work hk
    simp only [Proxy.work, Child.work, List.map_nil, List.sum_nil] at herase ⊢
    omega
  | killed hp =>
    simp only [Proxy.work, Phase.work, hp, List.map_nil, List.sum_nil]
    omega
  | interrupted hp =>
    have hcs := interrupt_work p.children
    rcases hp with ⟨hp | ⟨_, hp⟩, -⟩ | ⟨⟨_, hp⟩, -⟩ <;>
      simp only [Proxy.work, Phase.work, hp, List.map_nil, List.sum_nil] <;> omega
  | @stopped unsent ok hp =>
    have hf := farewell_work p unsent ok
    simp only [Proxy.work, Phase.work, hp]
    omega
  | @childStopped k clientID unsent ok hk =>
    have herase := sum_map_eraseIdx Child.work hk
    have hf := farewell_work p unsent ok
    simp only [Proxy.work, Child.work] at herase ⊢
    omega

/-! ## The broker takes up an arrival -/

theorem inbox_append_work (p : Proxy) (ls : List Bytes) :
    ({ p with inbox := p.inbox ++ ls } : Proxy).work = p.work + (ls.map lineWork).sum := by
  simp only [Proxy.work, List.map_append, List.sum_append]
  omega

theorem deliver_silent_work {events : List (Event Conn)} (h : Silent events) (ps : List Proxy) :
    ((deliver events ps).map Proxy.work).sum = (ps.map Proxy.work).sum := by
  have hzero : ∀ c, ((sentOn c events).map lineWork).sum = 0 := by
    intro c
    apply List.sum_eq_zero
    intro n hn
    obtain ⟨line, hline, rfl⟩ := List.mem_map.mp hn
    have hnone : clientOf line = none := h c line (mem_sentOn.mp hline)
    simp [lineWork, hnone]
  rw [deliver, List.map_map]
  congr 1
  apply List.map_congr_left
  intro p _
  show ({ p with inbox := p.inbox ++ sentOn p.control events } : Proxy).work = p.work
  rw [inbox_append_work, hzero]
  rfl

/-- One line reaches one inbox at most. -/
theorem deliver_line_work {r : Conn} {ps : List Proxy} (hn : (ps.map Proxy.control).Nodup) (msg : Bytes) :
    ((deliver [.sent r msg] ps).map Proxy.work).sum ≤ (ps.map Proxy.work).sum + lineWork msg := by
  induction ps with
  | nil => exact Nat.zero_le _
  | cons p ps ih =>
    rw [List.map_cons, List.nodup_cons] at hn
    have ih := ih hn.2
    rw [deliver_cons, List.map_cons, List.sum_cons, List.map_cons, List.sum_cons, inbox_append_work]
    by_cases hr : r = p.control
    · rw [deliver_elsewhere (hr ▸ hn.1), if_pos hr, List.map_cons, List.sum_cons, List.map_nil, List.sum_nil]
      omega
    · rw [if_neg hr, List.map_nil, List.sum_nil]
      omega

theorem arrival_work_erase {arrivals : List Arrival} {i : Nat} {a : Arrival} (ha : arrivals[i]? = some a) :
    ((arrivals.eraseIdx i).map fun a => Request.work a.request).sum + Request.work a.request =
      (arrivals.map fun a => Request.work a.request).sum :=
  sum_map_eraseIdx (fun a => Request.work a.request) ha

theorem request_work_pos (r : Request) : 1 ≤ Request.work r := by
  rcases r with _ | ⟨k, id⟩
  · exact Nat.le_refl _
  · cases k <;> simp [Request.work]

theorem handled_work {s : System} (h : Consistent s) {i : Nat} {a : Arrival} (ha : s.arrivals[i]? = some a)
    {fd : Fd} (hfd : s.broker.fds fd = none) {k : Kind} {id : Bytes} (hr : a.request = some (k, id))
    (forked : Bool) :
    (s.handled i (s.broker.next a.conn fd ⟨some k, id⟩ forked)).work < s.work := by
  have hh := next_cases h.inv.sound.kept.tablesOpen hfd a.conn ⟨some k, id⟩ forked
  have hsends := handling_sends hh
  generalize s.broker.next a.conn fd ⟨some k, id⟩ forked = b at *
  have herase := arrival_work_erase ha
  have hpos := request_work_pos a.request
  simp only [System.work, System.handled]
  rcases hsends with ⟨id', f, r, hm, -, -, hev⟩ | hsilent
  · -- a connect request becomes a line in the inbox of its service
    cases hm
    have hline : lineWork (makeProxyConnectRequest fd.toString) = 8 := by
      simp [lineWork, clientOf_connect]
    have hle := deliver_line_work (r := r) h.named.proxies_nodup (makeProxyConnectRequest fd.toString)
    have hwork : Request.work a.request = 9 := by rw [hr]; rfl
    rw [hev]
    omega
  · rw [deliver_silent_work hsilent]
    omega

/-! ## Runs -/

theorem arrive_work (s : System) (opener : Option Conn) (r : Request) :
    (s.arrive opener r).work = s.work + Request.work r := by
  simp only [System.work, System.arrive, List.map_append, List.sum_append, List.map_cons, List.map_nil,
    List.sum_cons, List.sum_nil]
  omega

theorem arrivals_work (s : System) (k : Conn) (rs : List Request) :
    (rs.foldl (fun s r => s.arrive (some k) r) s).work = s.work + (rs.map Request.work).sum := by
  induction rs generalizing s with
  | nil => rfl
  | cons r rs ih =>
    rw [List.foldl_cons, ih, arrive_work, List.map_cons, List.sum_cons]
    omega

theorem moved_work {s : System} {i : Nat} {p p' : Proxy} {closed : Bool} {action : ProxyAction}
    {requests : List Request} (hp : s.proxies[i]? = some p) (hm : Proxy.Moves p closed action p' requests) :
    (s.moved i p p' requests).work < s.work := by
  have hlt := hm.work_lt
  have hset := sum_map_set Proxy.work hp p'
  rw [System.moved, arrivals_work]
  simp only [System.work]
  omega

/-- Every step spends, and only newcomers bring anything. -/
theorem step_work {s s' : System} {action : Action} (h : Consistent s) (hs : s.step action = some s') :
    s'.work + action.spend ≤ s.work + action.gain := by
  cases System.step_moves hs with
  | clientStarted | clientAborted =>
    rw [arrive_work]
    exact Nat.le_refl _
  | @proxyStarted id =>
    have hwork : (s.joined id).work = s.work + 6 := by
      simp only [System.joined, System.work, System.arrive, List.map_append, List.sum_append, List.map_cons,
        List.map_nil, List.sum_cons, List.sum_nil, Proxy.work, Phase.work, Request.work]
      omega
    rw [hwork]
    exact Nat.le_refl _
  | handled ha hlive hfd hr => exact handled_work h ha hfd hr _
  | @died i a _ _ ha =>
    have herase := arrival_work_erase ha
    have hpos := request_work_pos a.request
    simp only [System.work, Action.spend, Action.gain]
    omega
  | proxyMoved hp hm => exact moved_work hp hm

/-- A step that its party takes as soon as it can: no newcomer, no interrupt and no end of a session. -/
def Action.drives : Action → Prop
  | .clientStart _ | .clientAbort | .proxyStart _ | .proxy _ .interrupt | .proxy _ (.childExit _) => False
  | .brokerHandle .. | .proxy _ _ => True

/-- Everybody waits. -/
def Resting (s : System) : Prop := ∀ action, action.drives → s.step action = none

theorem Action.spend_drives (a : Action) (h : a.drives) : a.spend = 1 ∧ a.gain = 0 := by
  cases a with
  | brokerHandle | proxy => exact ⟨rfl, rfl⟩
  | _ => exact absurd h id

/-- Whoever has come is waiting to be taken up or has been, and a connect request that was taken
    up was passed along or answered. -/
structure Heard (s : System) : Prop where
  finite : {f | s.broker.fds f ≠ none}.Finite
  come : s.alive = true → ∀ c < s.next, c ∈ s.arrivals.map Arrival.conn ∨ c ∈ s.broker.history.map Entry.conn
  refused : ∀ w ∈ s.broker.history, ∀ id, w.connects id →
    w.forwards w.fd.toString ∨ messagesOn w.conn s.broker.history ≠ []

theorem heard_init : Heard System.init where
  finite := by simp [System.init, Broker.init]
  come _ c hc := absurd hc (Nat.not_lt_zero c)
  refused _ h := nomatch h

theorem heard_arrive {s : System} (h : Heard s) (opener : Option Conn) (r : Request) :
    Heard (s.arrive opener r) where
  finite := h.finite
  come halive c hc := by
    simp only [System.arrive, List.map_append, List.mem_append, List.map_cons, List.map_nil, List.mem_singleton]
    rcases Nat.lt_succ_iff_lt_or_eq.mp hc with hc | hc
    · exact (h.come halive c hc).imp Or.inl id
    · exact Or.inl (Or.inr hc)
  refused := h.refused

theorem heard_arrivals {s : System} (h : Heard s) (k : Conn) (rs : List Request) :
    Heard (rs.foldl (fun s r => s.arrive (some k) r) s) := by
  induction rs generalizing s with
  | nil => exact h
  | cons r rs ih => exact ih (heard_arrive h (some k) r)

theorem heard_handled {s : System} (hc : Consistent s) (h : Heard s) {i : Nat} {a : Arrival}
    (ha : s.arrivals[i]? = some a) {fd : Fd} (hfd : s.broker.fds fd = none) {k : Kind} {id : Bytes}
    (forked : Bool) : Heard (s.handled i (s.broker.next a.conn fd ⟨some k, id⟩ forked)) := by
  have hs := hc.inv.sound
  have hunmet := hc.named.arrivals_unmet a (List.mem_of_getElem? ha)
  have hh := next_cases hs.kept.tablesOpen hfd a.conn ⟨some k, id⟩ forked
  obtain ⟨e, he, hec, hefd, hem, -⟩ := hh.acts hs.kept
  generalize s.broker.next a.conn fd ⟨some k, id⟩ forked = b at *
  refine ⟨?_, ?_, ?_⟩
  · apply (h.finite.insert (fd : Int)).subset
    intro f hf
    obtain ⟨c', hc'⟩ := Option.ne_none_iff_exists'.mp hf
    refine (hh.fds_some hc').imp And.left fun hold => ?_
    show s.broker.fds f ≠ none
    rw [hold]
    exact Option.some_ne_none c'
  · intro halive c hlt
    show c ∈ (s.arrivals.eraseIdx i).map Arrival.conn ∨ c ∈ b.history.map Entry.conn
    rw [he, List.map_cons, List.mem_cons, hec]
    rcases h.come halive c hlt with hin | hin
    · obtain ⟨a', ha', rfl⟩ := List.mem_map.mp hin
      rcases mem_eraseIdx_or ha ha' with rfl | hrest
      · exact Or.inr (Or.inl rfl)
      · exact Or.inl (List.mem_map_of_mem hrest)
    · exact Or.inr (Or.inr hin)
  · intro w hw id' hid
    change w ∈ b.history at hw
    show w.forwards w.fd.toString ∨ messagesOn w.conn b.history ≠ []
    rw [he] at hw
    rcases List.mem_cons.mp hw with rfl | hw
    · -- a connect request just taken up is passed along, or refused at once
      obtain ⟨hk, rfl⟩ : k = .connect ∧ id = id' := by
        rw [Entry.connects, hem] at hid
        cases hid
        exact ⟨rfl, rfl⟩
      subst hk
      rcases hh.of_connect with ⟨-, rfl⟩ | ⟨f, r, -, -, rfl⟩
      · obtain ⟨rfl, -⟩ := List.cons.inj he
        right
        rw [after, messagesOn_cons]
        simp [sentOn]
      · obtain ⟨rfl, -⟩ := List.cons.inj he
        exact Or.inl ⟨rfl, rfl, by simp [Event.isSent]⟩
    · refine (h.refused w hw id' hid).imp (fun hf => hf) fun hm => ?_
      rw [he, messagesOn_cons]
      exact List.append_ne_nil_of_left_ne_nil hm _

theorem heard_step {s s' : System} {action : Action} (hc : Consistent s) (h : Heard s)
    (hs : s.step action = some s') : Heard s' := by
  cases System.step_moves hs with
  | clientStarted | clientAborted => exact heard_arrive h none _
  | proxyStarted => exact { heard_arrive h none _ with }
  | handled ha _ hfd _ => exact heard_handled hc h ha hfd _
  | died => exact ⟨h.finite, nofun, h.refused⟩
  | @proxyMoved i _ p p' requests hp hm =>
    have hset : Heard { s with proxies := s.proxies.set i p' } := { h with }
    exact heard_arrivals hset p.control requests

theorem heard_run {as : List Action} {s : System} (h : Transition.exec System.step System.init as = some s) :
    Heard s :=
  run_invariant heard_step heard_init h

/-- At rest, a live broker has taken up every request. -/
theorem Resting.no_arrivals {s : System} (hs : Resting s) (hh : Heard s) (halive : s.alive = true) :
    s.arrivals = [] := by
  cases harr : s.arrivals with
  | nil => rfl
  | cons a rest =>
    exfalso
    -- among infinitely many descriptors one is free
    obtain ⟨fd, hfd⟩ : ∃ fd : Fd, s.broker.fds fd = none := by
      by_contra hno
      simp only [not_exists] at hno
      have hsub : Set.range (fun n : Nat => (n : Int)) ⊆ {f | s.broker.fds f ≠ none} := by
        rintro f ⟨n, rfl⟩
        exact hno n
      exact Set.infinite_range_of_injective (fun a b h => Int.ofNat_inj.mp h) (hh.finite.subset hsub)
    have hnone := hs (.brokerHandle 0 fd true) trivial
    have hi : s.arrivals[0]? = some a := by rw [harr]; rfl
    simp only [System.step, hi, halive, hfd, and_self, if_true] at hnone
    split at hnone <;> cases hnone

/-- A proxy that waits in a `recv` for a line, or is gone, and whose children relay. -/
def Proxy.Rests (p : Proxy) (closed : Bool) : Prop :=
  (p.phase = .ended ∨ (p.phase = .starting ∨ p.phase = .idle) ∧ p.inbox = [] ∧ closed = false) ∧
    ∀ c ∈ p.children, c.stage = .session

instance (p : Proxy) (closed : Bool) : Decidable (p.Rests closed) := inferInstanceAs (Decidable (_ ∧ _))

/-- A proxy at rest takes no step of its own. -/
theorem Proxy.Rests.stuck {p : Proxy} {closed : Bool} (h : p.Rests closed) {action : ProxyAction}
    (hi : action ≠ .interrupt) (he : ∀ k, action ≠ .childExit k) : p.step closed action = none := by
  obtain ⟨hphase, hchildren⟩ := h
  have hchild : ∀ {k : Nat} {c : Child}, p.children[k]? = some c → c.stage = .session :=
    fun hk => hchildren _ (List.mem_of_getElem? hk)
  cases hstep : p.step closed action with
  | none => rfl
  | some q =>
    exfalso
    obtain ⟨p', requests⟩ := q
    cases step_moves hstep with
    | response hp hin | request hp hin | garbled hp hin =>
      rcases hphase with hphase | ⟨-, hempty, -⟩
      · rw [hp] at hphase; cases hphase
      · rw [hin] at hempty; cases hempty
    | hangup hc _ hp =>
      rcases hphase with hphase | ⟨-, -, hopen⟩
      · rcases hp with hp | hp <;> (rw [hp] at hphase; cases hphase)
      · rw [hc] at hopen; cases hopen
    | created _ hp | forked hp | unforked hp | stopped _ hp =>
      rw [hp] at hphase
      rcases hphase with hphase | ⟨hphase | hphase, -⟩ <;> cases hphase
    | connected hk | failed hk | childStopped _ hk => cases hchild hk
    | exited => exact he _ rfl
    | killed | interrupted => exact hi rfl

/-- A proxy without a step of its own is at rest. -/
theorem Proxy.rests_of_stuck {p : Proxy} {closed : Bool}
    (h : ∀ action, action ≠ .interrupt → (∀ k, action ≠ .childExit k) → p.step closed action = none) :
    p.Rests closed := by
  have hrecv := h .recv (by simp) (by simp)
  have heof := h .eof (by simp) (by simp)
  have hcreate := h (.create true) (by simp) (by simp)
  have hfork := h (.fork true) (by simp) (by simp)
  have hstop := h (.stop true) (by simp) (by simp)
  refine ⟨?_, ?_⟩
  · -- every phase but the two reads and the end has a step, and a read has one on a line or at the end
    have hread : p.phase = .starting ∨ p.phase = .idle → p.inbox = [] ∧ closed = false := by
      intro hphase
      have hin : p.inbox = [] := by
        cases hin : p.inbox with
        | nil => rfl
        | cons line rest =>
          rcases hphase with hphase | hphase <;> (simp only [step, hphase, hin] at hrecv; cases hrecv)
      refine ⟨hin, ?_⟩
      by_contra hclosed
      rw [Bool.not_eq_false] at hclosed
      simp only [step, hclosed, hin, hphase, and_self, if_true] at heof
      cases heof
    cases hphase : p.phase with
    | starting => exact Or.inr ⟨Or.inl rfl, hread (Or.inl hphase)⟩
    | idle => exact Or.inr ⟨Or.inr rfl, hread (Or.inr hphase)⟩
    | handling clientID => simp only [step, hphase] at hcreate; cases hcreate
    | opened clientID => simp only [step, hphase, if_true] at hfork; cases hfork
    | stopping unsent => simp only [step, hphase] at hstop; cases hstop
    | ended => exact Or.inl rfl
  · intro c hc
    obtain ⟨k, hk⟩ := List.mem_iff_getElem?.mp hc
    obtain ⟨clientID, stage⟩ := c
    have hservice := h (.service k true) (by simp) (by simp)
    have hchildStop := h (.childStop k true) (by simp) (by simp)
    cases stage with
    | connecting => simp only [step, hk] at hservice; cases hservice
    | session => rfl
    | stopping unsent => simp only [step, hk] at hchildStop; cases hchildStop

theorem Proxy.Rests.tokens {p : Proxy} {closed : Bool} (h : p.Rests closed) : p.tokens = 0 := by
  obtain ⟨hphase, hchildren⟩ := h
  have hsum : (p.children.map Child.tokens).sum = 0 := by
    apply connecting_tokens
    intro c hc hstage
    rw [hchildren c hc] at hstage
    cases hstage
  rcases hphase with hphase | ⟨hphase, hin, -⟩
  · rw [tokens_ended hphase, hsum]
  · rw [tokens_idle hphase, hin, hsum]
    rfl

/-- What rest is: no request is left at a broker that lives, and every proxy rests. -/
theorem resting_iff {s : System} (hh : Heard s) (halive : s.alive = true) :
    Resting s ↔ s.arrivals = [] ∧ ∀ p ∈ s.proxies, p.Rests (s.closed p.control) := by
  constructor
  · intro hs
    refine ⟨hs.no_arrivals hh halive, ?_⟩
    intro p hp
    obtain ⟨i, hi⟩ := List.mem_iff_getElem?.mp hp
    apply Proxy.rests_of_stuck
    intro action hint hexit
    have hdrives : (Action.proxy i action).drives := by
      cases action with
      | interrupt => exact absurd rfl hint
      | childExit k => exact absurd rfl (hexit k)
      | _ => exact trivial
    have hnone := hs (.proxy i action) hdrives
    simp only [System.step, hi] at hnone
    cases hstep : p.step (s.closed p.control) action with
    | none => rfl
    | some q =>
      rw [hstep] at hnone
      cases hnone
  · rintro ⟨harr, hrests⟩ action hd
    cases action with
    | brokerHandle i fd forked => simp only [System.step, harr, List.getElem?_nil]
    | proxy i action =>
      have hne : action ≠ .interrupt ∧ ∀ k, action ≠ .childExit k := by
        refine ⟨?_, fun k => ?_⟩ <;> (rintro rfl; exact hd)
      simp only [System.step]
      split
      · rfl
      · next p hp => rw [(hrests p (List.mem_of_getElem? hp)).stuck hne.1 hne.2]
    | _ => exact absurd hd id

/-- When all have come to rest and the broker lives, in a run that lost no request, everybody who
    has come was taken up, and each connect request has been answered, once. -/
theorem resting_answered {as : List Action} {s : System}
    (h : Transition.exec System.step System.init as = some s)
    (hu : Transition.Along System.step Undisturbed System.init as) (halive : s.alive = true) (hs : Resting s) :
    (∀ c < s.next, c ∈ s.broker.history.map Entry.conn) ∧
      ∀ w ∈ s.broker.history, ∀ id, w.connects id → (messagesOn w.conn s.broker.history).length = 1 := by
  have hc := consistent_run h
  have hh := heard_run h
  have hd : NoneDropped s := run_along dropped_step dropped_init hu h
  obtain ⟨harr, hrests⟩ := (resting_iff hh halive).mp hs
  have htokens : s.tokens = 0 := by
    have hproxies : (s.proxies.map Proxy.tokens).sum = 0 := by
      apply List.sum_eq_zero
      intro m hm
      obtain ⟨p, hp, rfl⟩ := List.mem_map.mp hm
      exact (hrests p hp).tokens
    rw [System.tokens, hproxies, harr]
    rfl
  refine ⟨?_, ?_⟩
  · intro c hlt
    have hcome := hh.come halive c hlt
    rw [harr] at hcome
    exact hcome.resolve_left List.not_mem_nil
  · intro w hw id hid
    have honce := (hc.inv.answered w hw id hid).1
    have hne : messagesOn w.conn s.broker.history ≠ [] := by
      rcases hh.refused w hw id hid with hf | hm
      · rcases hd w hw hf with hm | ⟨-, -, howed⟩
        · exact hm
        · rw [owed_iff, htokens] at howed
          exact absurd howed (Multiset.notMem_zero _)
      · exact hm
    have hpos := List.length_pos_iff.mpr hne
    omega

theorem resting_answered_acquaintance : ∃ s, Transition.exec System.step System.init acquaintance = some s ∧
    (∀ c < s.next, c ∈ s.broker.history.map Entry.conn) ∧
      ∀ w ∈ s.broker.history, ∀ id, w.connects id → (messagesOn w.conn s.broker.history).length = 1 := by
  have hs : (Transition.exec System.step System.init acquaintance).any (fun s => decide (s.alive = true ∧
      s.arrivals = [] ∧ ∀ p ∈ s.proxies, p.Rests (s.closed p.control))) = true := by decide +kernel
  have hu : Transition.Along System.step Undisturbed System.init acquaintance := by decide +kernel
  obtain ⟨s, hs, hrests⟩ := (Option.any_eq_true _ _).mp hs
  obtain ⟨halive, hrests⟩ := of_decide_eq_true hrests
  exact ⟨s, hs, resting_answered hs hu halive ((resting_iff (heard_run hs) halive).mpr hrests)⟩

end VirtualSocket.Rendezvous
