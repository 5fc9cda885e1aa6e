import Mathlib.Data.Set.Card
import VirtualSocket.Descriptors

/- What becomes of the connections the broker has accepted. Each handling should
   close its descriptor or enter it in a table; two exits of `handleRequest` do
   neither. An entry that took one of them is never closed later, since a close
   goes through a table, so a run has lost nothing exactly when no turn of it
   took either exit (`accounted_iff`). -/
namespace VirtualSocket
open Json Protocol Server Function

variable {κ : Type}

/-- The request received, when it is a typed one. -/
def Accepted.message (a : Accepted κ) : Option Message :=
  match a.received with
  | .error => none
  | .bytes buf => messageOf buf

namespace Broker

variable [DecidableEq κ]

/-- Every open descriptor is a registered service's or a waiting client's, and there are
as many of them as the two tables have entries. -/
structure Accounted (b : Broker κ) : Prop where
  recorded : ∀ f c, b.fds f = some c → ∃ fd : Fd, f = fd ∧
    ((∃ id, b.server.serverMap.lookup id = some fd) ∨ fd.toString ∈ b.server.pendingConnections)
  count : {f | b.fds f ≠ none}.ncard = b.server.serverMap.keys.card + b.server.pendingConnections.card

/-- The turn neither meets a `recv` that fails nor a register for an ID that is taken. -/
def Tidy (b : Broker κ) (a : Accepted κ) : Prop :=
  a.received ≠ .error ∧ ∀ m ∈ a.message, m.kind = some .register → m.nodeId ∉ b.server.serverMap

instance (b : Broker κ) (a : Accepted κ) : Decidable (Tidy b a) := inferInstanceAs (Decidable (_ ∧ _))

/-- No entry of the history was forgotten. -/
def NoneForgotten (b : Broker κ) : Prop := ∀ e ∈ b.history, ¬ e.forgotten

/-! ## The exits that forget -/

omit [DecidableEq κ] in
/-- Only a register for an ID that is taken leaves its descriptor open and unrecorded. -/
theorem handling_forgotten {b b' : Broker κ} {c : κ} {fd : Fd} {m : Message} {forked : Bool}
    (hh : Handling b c fd forked m b') : ∃ e, b'.history = e :: b.history ∧
      (e.forgotten ↔ ∃ id, m = ⟨some .register, id⟩ ∧ id ∈ b.server.serverMap) := by
  have hother : ∀ {k : Option Kind}, k ≠ some .register → ∀ s events,
      (Entry.mk c fd (some ⟨k, s⟩) events).forgotten ↔
        ∃ id, (⟨k, s⟩ : Message) = ⟨some .register, id⟩ ∧ id ∈ b.server.serverMap := by
    intro k hk s events
    refine ⟨fun hf => absurd hf (not_forgotten_of_kind rfl hk), ?_⟩
    intro ⟨id, hm, _⟩
    exact absurd (Message.mk.inj hm).1 hk
  cases hh with
  | @registered id hid =>
    refine ⟨_, rfl, ?_, ?_⟩
    · intro hf
      exact absurd hf (registers_not_forgotten ⟨rfl, List.mem_singleton_self _⟩)
    · intro ⟨id', hm, hin⟩
      obtain rfl := (Message.mk.inj hm).2
      exact absurd hin (Finmap.lookup_eq_none.mp hid)
  | taken hid hr =>
    refine ⟨_, rfl, ?_, ?_⟩
    · exact fun _ => ⟨_, rfl, Finmap.mem_iff.mpr ⟨_, hid⟩⟩
    · exact fun _ => Or.inr ⟨_, rfl, rfl⟩
  | reported success | stray success => exact ⟨_, rfl, hother (reportKind_ne success).1 _ _⟩
  | _ => exact ⟨_, rfl, hother (by decide) _ _⟩

/-- A turn's entry is forgotten exactly when the turn is not tidy. -/
theorem turn_forgotten {b b' : Broker κ} {a : Accepted κ} (hk : Kept b) (hfd : b.fds a.fd = none)
    (ht : Turn b a b') : ∃ e, b'.history = e :: b.history ∧ (e.forgotten ↔ ¬ Tidy b a) := by
  unfold Tidy Accepted.message
  cases ht with
  | unread hr =>
    refine ⟨_, rfl, ?_, ?_⟩
    · exact fun _ htidy => htidy.1 hr
    · exact fun _ => Or.inl ⟨rfl, rfl⟩
  | untyped hr hm =>
    refine ⟨_, rfl, ?_, ?_⟩
    · intro hf
      exact absurd hf (not_forgotten_of_events rfl (List.cons_ne_nil _ _))
    · intro hnot
      rw [hr] at hnot
      refine absurd ⟨Recv.noConfusion, ?_⟩ hnot
      intro m' hm'
      cases hm.symm.trans hm'
  | @typed buf m hr hm =>
    obtain ⟨e, he, hf⟩ := handling_forgotten (next_cases hk.tablesOpen hfd a.conn m a.forked)
    refine ⟨e, he, hf.trans ?_⟩
    rw [hr]
    constructor
    · intro ⟨id, hmid, hin⟩ ⟨_, htidy⟩
      exact htidy m hm (by rw [hmid]) (by rw [hmid]; exact hin)
    · intro hnot
      by_contra hno
      refine hnot ⟨Recv.noConfusion, ?_⟩
      intro m' hm' hk' hin
      obtain rfl := Option.some.inj (hm.symm.trans hm')
      exact hno ⟨m.nodeId, by rw [← hk'], hin⟩

/-! ## Nothing forgotten, nothing lost -/

/-- The descriptor an entry of either table stands for. -/
def descriptorOf (s : Server) : Bytes ⊕ Bytes → Int
  | .inl id => (s.serverMap.lookup id).elim 0 fun f => f
  | .inr clientID => atoi clientID

theorem open_recorded {b : Broker κ} (h : Tracked b) (hn : NoneForgotten b) {f : Int} {c : κ}
    (hf : b.fds f = some c) :
    ∃ fd : Fd, f = fd ∧
      ((∃ id, b.server.serverMap.lookup id = some fd) ∨ fd.toString ∈ b.server.pendingConnections) := by
  obtain ⟨e, he, -, rfl⟩ := (h.filed f c).mp hf
  refine ⟨e.fd, rfl, ?_⟩
  rcases he with ⟨id, hr⟩ | ⟨s, hw⟩ | ⟨hin, hfor⟩
  · exact Or.inl ⟨id, by rw [h.sound.kept.registered id, hr]; rfl⟩
  · right
    rw [h.sound.kept.pending, ← (h.sound.kept.pending_open s e hw).1, hw]
    rfl
  · exact absurd hfor (hn e hin)

/-- An entry of either table stands for the descriptor of the request behind it. -/
theorem descriptorOf_held {b : Broker κ} (hk : Kept b) {x : Bytes ⊕ Bytes}
    (hx : x ∈ b.server.serverMap.keys.disjSum b.server.pendingConnections) :
    ∃ e : Entry κ, descriptorOf b.server x = e.fd ∧ b.fds e.fd = some e.conn ∧
      match x with
      | .inl id => registrant b.history id = some e
      | .inr s => waiting b.history s = some e := by
  cases x with
  | inl id =>
    rw [Finset.inl_mem_disjSum, Finmap.mem_keys, Finmap.mem_iff] at hx
    obtain ⟨f, hf⟩ := hx
    obtain ⟨e, he, rfl⟩ := Option.map_eq_some_iff.mp ((hk.registered id).symm.trans hf)
    exact ⟨e, by simp [descriptorOf, hf], hk.registered_open id e he, he⟩
  | inr s =>
    rw [Finset.inr_mem_disjSum, hk.pending, Option.isSome_iff_exists] at hx
    obtain ⟨e, he⟩ := hx
    obtain ⟨hs, ho⟩ := hk.pending_open s e he
    exact ⟨e, by rw [descriptorOf, hs, atoi_toString], ho, he⟩

/-- No two entries of the tables stand for one descriptor. -/
theorem descriptorOf_injOn {b : Broker κ} (hk : Kept b) :
    Set.InjOn (descriptorOf b.server) (b.server.serverMap.keys.disjSum b.server.pendingConnections) := by
  intro x hx y hy hxy
  obtain ⟨e, he, -, hex⟩ := descriptorOf_held hk hx
  obtain ⟨e', he', -, hey⟩ := descriptorOf_held hk hy
  have hfd : e.fd = e'.fd := Int.ofNat.inj (he.symm.trans (hxy.trans he'))
  cases x <;> cases y
  · exact congrArg _ (hk.distinct _ _ e e' hex hey hfd)
  · exact absurd hfd (hk.apart _ _ e e' hex hey)
  · exact absurd hfd.symm (hk.apart _ _ e' e hey hex)
  · exact congrArg _ ((hk.pending_open _ e hex).1.trans (hfd ▸ (hk.pending_open _ e' hey).1.symm))

theorem open_eq_image {b : Broker κ} (h : Tracked b) (hn : NoneForgotten b) : {f | b.fds f ≠ none} =
    (b.server.serverMap.keys.disjSum b.server.pendingConnections).image (descriptorOf b.server) := by
  ext f
  rw [Finset.mem_coe, Finset.mem_image]
  constructor
  · intro hf
    obtain ⟨c, hf⟩ := Option.ne_none_iff_exists'.mp hf
    obtain ⟨fd, rfl, ⟨id, hid⟩ | hp⟩ := open_recorded h hn hf
    · refine ⟨.inl id, ?_, by simp [descriptorOf, hid]⟩
      rw [Finset.inl_mem_disjSum, Finmap.mem_keys, Finmap.mem_iff]
      exact ⟨fd, hid⟩
    · exact ⟨.inr fd.toString, Finset.inr_mem_disjSum.mpr hp, atoi_toString fd⟩
  · intro ⟨x, hx, hfx⟩
    obtain ⟨e, he, ho, -⟩ := descriptorOf_held h.sound.kept hx
    rw [← hfx, Set.mem_ofPred_eq, he, ho]
    exact Option.some_ne_none _

theorem noneForgotten_accounted {b : Broker κ} (h : Tracked b) (hn : NoneForgotten b) : Accounted b where
  recorded _ _ hf := open_recorded h hn hf
  count := by
    rw [open_eq_image h hn, Set.ncard_coe_finset, Finset.card_image_of_injOn (descriptorOf_injOn h.sound.kept),
      Finset.card_disjSum]

/-- A forgotten entry's descriptor stays open, and no table has it. -/
theorem accounted_noneForgotten {b : Broker κ} (h : Tracked b) (ha : Accounted b) : NoneForgotten b := by
  intro e hin hfor
  have ho : b.fds e.fd = some e.conn := (h.filed e.fd e.conn).mpr ⟨e, Or.inr (Or.inr ⟨hin, hfor⟩), rfl, rfl⟩
  have hown : ∀ o ∈ b.history, b.fds o.fd = some o.conn → o.fd = e.fd → o = e := by
    intro o hom hoo hfd
    rw [hfd, ho] at hoo
    exact conn_inj h.sound.conns_nodup hom hin (Option.some.inj hoo).symm
  obtain ⟨fd, hfd, ⟨id, hid⟩ | hp⟩ := ha.recorded _ _ ho
  · rw [h.sound.kept.registered id] at hid
    obtain ⟨o, hr, hof⟩ := Option.map_eq_some_iff.mp hid
    have heq : o = e :=
      hown o (registrant_some hr).1 (h.sound.kept.registered_open id o hr) (hof.trans (Int.ofNat.inj hfd.symm))
    exact registrant_not_forgotten hr (heq ▸ hfor)
  · obtain ⟨o, hw⟩ := Option.isSome_iff_exists.mp ((h.sound.kept.pending _).mp hp)
    obtain ⟨hof, hoo⟩ := h.sound.kept.pending_open _ o hw
    have heq : o = e :=
      hown o (waiting_some hw).1 hoo ((toString_inj.mp hof).symm.trans (Int.ofNat.inj hfd.symm))
    exact waiting_not_forgotten hw (heq ▸ hfor)

/-! ## Runs -/

theorem turn_noneForgotten {b b' : Broker κ} {a : Accepted κ} (h : Tracked b) (hs : b.accept a = some b') :
    NoneForgotten b' ↔ NoneForgotten b ∧ Tidy b a := by
  obtain ⟨hfd, -, ht⟩ := accept_turn hs
  obtain ⟨e, he, hf⟩ := turn_forgotten h.sound.kept hfd ht
  unfold NoneForgotten
  rw [he, List.forall_mem_cons, hf, not_not]
  exact and_comm

omit [DecidableEq κ] in
theorem noneForgotten_init : NoneForgotten (init : Broker κ) := fun _ he => absurd he List.not_mem_nil

/-- In every run of the accept loop. -/
theorem accounted_iff {as : List (Accepted κ)} {b : Broker κ} (h : Transition.exec accept init as = some b) :
    Accounted b ↔ Transition.Along accept Tidy init as := by
  have ht := tracked_run h
  have hn := Transition.exec_iff_along (fun _ _ _ => turn_tracked) (fun _ _ _ => turn_noneForgotten) tracked_init h
  calc Accounted b ↔ NoneForgotten b := ⟨accounted_noneForgotten ht, noneForgotten_accounted ht⟩
    _ ↔ NoneForgotten (init : Broker κ) ∧ Transition.Along accept Tidy init as := hn
    _ ↔ Transition.Along accept Tidy init as := and_iff_right noneForgotten_init

/-- A service registers, a client asks for it, a peer sends an object of no known
type, and the report on the client comes in. -/
def visits : List (Accepted Nat) :=
  [⟨0, 4, .bytes (makeRegisterRequest (str "a")), true⟩, ⟨1, 5, .bytes (makeConnectRequest (str "a")), true⟩,
    ⟨2, 6, .bytes (str "\x7b\x7d"), true⟩, ⟨3, 6, .bytes (makeConnectionCreatedRequest (str "5")), true⟩]

theorem accounted_visits : ∃ b, Transition.exec accept init visits = some b ∧ Accounted b := by
  have hs : (Transition.exec accept init visits).isSome = true := by decide +kernel
  obtain ⟨b, hb⟩ := Option.isSome_iff_exists.mp hs
  exact ⟨b, hb, (accounted_iff hb).mpr (by decide +kernel)⟩

/-- A second service registers the ID of the first. -/
def registerTwice : List (Accepted Nat) :=
  [⟨0, 4, .bytes (makeRegisterRequest (str "a")), true⟩, ⟨1, 5, .bytes (makeRegisterRequest (str "a")), true⟩]

/-- Its descriptor stays open, in neither table. -/
theorem accounted_fails_on_taken : ∃ b, Transition.exec accept init registerTwice = some b ∧ ¬ Accounted b := by
  let taken : Entry Nat := ⟨1, 5, some ⟨some .register, str "a"⟩, [.sent 1 idTaken]⟩
  have hs : (Transition.exec accept init registerTwice).any (fun b => decide (taken ∈ b.history)) = true := by
    decide +kernel
  obtain ⟨b, hb, hin⟩ := (Option.any_eq_true _ _).mp hs
  refine ⟨b, hb, ?_⟩
  intro ha
  exact accounted_noneForgotten (tracked_run hb) ha taken (of_decide_eq_true hin) (Or.inr ⟨_, rfl, rfl⟩)

end Broker
end VirtualSocket
