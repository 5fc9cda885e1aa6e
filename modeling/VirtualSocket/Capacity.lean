import VirtualSocket.Accounting

/- How many parties the broker can serve. A process gets a limited set of descriptors;
   when all of them are open, `accept` fails and the loop goes on. What a turn
   forgets stays open for good, so of the descriptors there are, the services and
   the clients waiting share those not yet lost (`capacity`), and once all are lost
   no connection is accepted any more, whoever leaves (`exhausted`).

   Correspondence (C++ ↔ Lean):
     `accept` in `SimpleServer::acceptConnections` ↔ `Broker.turn`; `none` is a return of -1 -/
namespace VirtualSocket
open Json Protocol Server Function Tables

variable {κ : Type} [DecidableEq κ]

instance (e : Entry κ) : Decidable e.forgotten :=
  decidable_of_iff (e.message = none ∧ e.events = [] ∨
      e.message.map Message.kind = some (some .register) ∧ e.events = [.sent e.conn idTaken]) (by
    unfold Entry.forgotten
    cases e.message with
    | none => simp
    | some m =>
      obtain ⟨kind, id⟩ := m
      simp)

namespace Broker

/-- One turn of the accept loop, on descriptors out of `free`. -/
def turn (free : Finset Fd) (b : Broker κ) : Option (Accepted κ) → Option (Broker κ)
  | none => some b
  | some a => if a.fd ∈ free then b.accept a else none

/-- The connections forgotten so far. -/
def lost (b : Broker κ) : Nat := b.history.countP fun e => e.forgotten

/-- The parties served: the services registered and the clients waiting. -/
def served (b : Broker κ) : Nat := b.server.serverMap.keys.card + b.server.pendingConnections.card

def openFds (b : Broker κ) : Set Int := {f | b.fds f ≠ none}

/-! ## Opening and closing one -/

omit [DecidableEq κ] in
theorem open_opened {fds : Int → Option κ} {fd : Int} (h : fds fd = none) (c : κ)
    (hfin : {f | fds f ≠ none}.Finite) : {f | update fds fd (some c) f ≠ none}.Finite ∧
      {f | update fds fd (some c) f ≠ none}.ncard = {f | fds f ≠ none}.ncard + 1 := by
  have hins : {f | update fds fd (some c) f ≠ none} = insert fd {f | fds f ≠ none} := by
    ext f
    by_cases hf : f = fd <;> simp [hf]
  rw [hins]
  exact ⟨hfin.insert fd, Set.ncard_insert_of_notMem (fun hin => hin h) hfin⟩

omit [DecidableEq κ] in
theorem open_closed {fds : Int → Option κ} {fd : Int} {c : κ} (h : fds fd = some c)
    (hfin : {f | fds f ≠ none}.Finite) : {f | update fds fd none f ≠ none}.Finite ∧
      {f | update fds fd none f ≠ none}.ncard + 1 = {f | fds f ≠ none}.ncard := by
  have hdiff : {f | update fds fd none f ≠ none} = {f | fds f ≠ none} \ {fd} := by
    ext f
    by_cases hf : f = fd <;> simp [hf]
  have hin : fd ∈ {f | fds f ≠ none} := by simp [h]
  rw [hdiff]
  exact ⟨hfin.sdiff, Set.ncard_sdiff_singleton_add_one hin hfin⟩

theorem keys_insert (m : Finmap fun _ : Bytes => Fd) (id : Bytes) (fd : Fd) :
    (m.insert id fd).keys = insert id m.keys := by
  ext x
  rw [Finmap.mem_keys, Finmap.mem_insert, Finset.mem_insert, Finmap.mem_keys]

/-! ## Every open descriptor counted -/

/-- The open descriptors are as many as the parties served and the connections lost. -/
structure Counted (b : Broker κ) : Prop where
  finite : b.openFds.Finite
  count : b.openFds.ncard = b.served + b.lost

theorem counted_init : Counted (init : Broker κ) := by
  have hopen : (init : Broker κ).openFds = ∅ := by
    ext f
    simp [openFds, init]
  refine ⟨by rw [hopen]; exact Set.finite_empty, ?_⟩
  rw [hopen, Set.ncard_empty]
  rfl

theorem lost_cons {b b' : Broker κ} {e : Entry κ} (h : b'.history = e :: b.history) :
    b'.lost = b.lost + if e.forgotten then 1 else 0 := by
  simp only [lost, h, List.countP_cons, decide_eq_true_eq]

theorem handling_counted {b b' : Broker κ} {c : κ} {fd : Fd} {m : Message} {forked : Bool} (hk : Kept b)
    (hfd : b.fds fd = none) (hcount : Counted b) (hh : Handling b c fd forked m b') : Counted b' := by
  obtain ⟨e, he, hforgotten⟩ := handling_forgotten hh
  have hlost := lost_cons he
  obtain ⟨hfin, hn⟩ := hcount
  have hsame : ¬ e.forgotten → b'.openFds = b.openFds → b'.server = b.server → Counted b' := by
    intro hnot hopen hserver
    refine ⟨by rw [hopen]; exact hfin, ?_⟩
    rw [hopen, hn, hlost, if_neg hnot]
    simp only [served, hserver, Nat.add_zero]
  have hkind : (∀ id, m ≠ ⟨some .register, id⟩) → ¬ e.forgotten := by
    intro hm hf
    obtain ⟨id, heq, -⟩ := hforgotten.mp hf
    exact hm id heq
  cases hh with
  | @registered id hid =>
    have hnotin : id ∉ b.server.serverMap.keys := by
      rw [Finmap.mem_keys]
      exact Finmap.lookup_eq_none.mp hid
    have hnot : ¬ e.forgotten := by
      intro hf
      obtain ⟨id', heq, hin⟩ := hforgotten.mp hf
      obtain rfl := (Message.mk.inj heq).2
      exact hnotin (Finmap.mem_keys.mpr hin)
    obtain ⟨hfin', hn'⟩ := open_opened hfd c hfin
    refine ⟨hfin', ?_⟩
    rw [hlost, if_neg hnot]
    show {f | update b.fds fd (some c) f ≠ none}.ncard =
      (b.server.serverMap.insert id fd).keys.card + b.server.pendingConnections.card + _
    rw [hn', keys_insert, Finset.card_insert_of_notMem hnotin]
    simp only [openFds, served] at hn
    omega
  | @taken id f r hid hr =>
    have hf : e.forgotten := hforgotten.mpr ⟨id, rfl, Finmap.mem_iff.mpr ⟨f, hid⟩⟩
    obtain ⟨hfin', hn'⟩ := open_opened hfd c hfin
    refine ⟨hfin', ?_⟩
    rw [hlost, if_pos hf]
    show {f | update b.fds fd (some c) f ≠ none}.ncard = b.served + _
    rw [hn']
    simp only [openFds] at hn
    omega
  | @unregistered id f r hid hr =>
    have hin : id ∈ b.server.serverMap.keys := by
      rw [Finmap.mem_keys]
      exact Finmap.mem_iff.mpr ⟨f, hid⟩
    obtain ⟨hfin', hn'⟩ := open_closed hr hfin
    refine ⟨hfin', ?_⟩
    rw [hlost, if_neg (hkind fun _ heq => by cases heq)]
    show {f' | update b.fds f none f' ≠ none}.ncard =
      (b.server.serverMap.erase id).keys.card + b.server.pendingConnections.card + _
    have hcard := Finset.card_erase_add_one hin
    rw [Finmap.keys_erase]
    simp only [openFds, served] at hn
    omega
  | @forwarded id f r hid hr =>
    have hnotin : fd.toString ∉ b.server.pendingConnections := by
      rw [hk.pending, hk.fresh_text hfd]
      exact Bool.false_ne_true
    obtain ⟨hfin', hn'⟩ := open_opened hfd c hfin
    refine ⟨hfin', ?_⟩
    rw [hlost, if_neg (hkind fun _ heq => by cases heq)]
    show {f | update b.fds fd (some c) f ≠ none}.ncard =
      b.server.serverMap.keys.card + (insert fd.toString b.server.pendingConnections).card + _
    rw [hn', Finset.card_insert_of_notMem hnotin]
    simp only [openFds, served] at hn
    omega
  | @reported f client success hp hr =>
    obtain ⟨hfin', hn'⟩ := open_closed hr hfin
    refine ⟨hfin', ?_⟩
    rw [hlost, if_neg (hkind fun _ heq => by cases success <;> cases heq)]
    show {f' | update b.fds f none f' ≠ none}.ncard =
      b.server.serverMap.keys.card + (b.server.pendingConnections.erase f.toString).card + _
    have hcard := Finset.card_erase_add_one hp
    simp only [openFds, served] at hn
    omega
  | stray success => exact hsame (hkind fun _ heq => by cases success <;> cases heq) rfl rfl
  | _ => exact hsame (hkind fun _ heq => by cases heq) rfl rfl

theorem accept_counted {b b' : Broker κ} {a : Accepted κ} (hs : Sound b) (hcount : Counted b)
    (h : b.accept a = some b') : Counted b' := by
  obtain ⟨hfd, -, ht⟩ := accept_turn h
  cases ht with
  | unread hr =>
    obtain ⟨hfin, hn⟩ := open_opened hfd a.conn hcount.finite
    refine ⟨hfin, ?_⟩
    have hf : (Entry.mk a.conn a.fd none [] : Entry κ).forgotten := Or.inl ⟨rfl, rfl⟩
    rw [lost_cons (b := b) rfl, if_pos hf]
    show {f | update b.fds a.fd (some a.conn) f ≠ none}.ncard = b.served + _
    have hold := hcount.count
    simp only [openFds] at hold
    omega
  | untyped hr hm =>
    have hf : ¬ (Entry.mk a.conn a.fd none [.sent a.conn unexpectedRequest, .closed a.conn]).forgotten :=
      not_forgotten_of_events rfl (List.cons_ne_nil _ _)
    refine ⟨hcount.finite, ?_⟩
    rw [lost_cons (b := b) rfl, if_neg hf]
    exact hcount.count
  | typed hr hm => exact handling_counted hs.kept hfd hcount (next_cases hs.kept.tablesOpen hfd a.conn _ a.forked)

/-! ## Runs -/

/-- What each turn keeps, on the descriptors out of `free`. -/
structure Limited (free : Finset Fd) (b : Broker κ) : Prop where
  sound : Sound b
  counted : Counted b
  within : ∀ f c, b.fds f = some c → ∃ fd ∈ free, f = (fd : Int)

theorem limited_init (free : Finset Fd) : Limited free (init : Broker κ) :=
  ⟨sound_init, counted_init, fun _ _ h => nomatch h⟩

/-- A turn opens no descriptor but its own. -/
theorem accept_opens {b b' : Broker κ} {a : Accepted κ} (hs : Sound b) (h : b.accept a = some b') {f : Int} {c : κ}
    (hf : b'.fds f = some c) : f = a.fd ∨ b.fds f = some c := by
  obtain ⟨hfd, -, ht⟩ := accept_turn h
  cases ht with
  | unread hr => exact (update_some hf).imp And.left id
  | untyped hr hm => exact Or.inr hf
  | typed hr hm => exact ((next_cases hs.kept.tablesOpen hfd a.conn _ a.forked).fds_some hf).imp And.left id

theorem turn_limited {free : Finset Fd} {b b' : Broker κ} {a : Option (Accepted κ)} (h : Limited free b)
    (hs : b.turn free a = some b') : Limited free b' := by
  cases a with
  | none =>
    cases hs
    exact h
  | some a =>
    simp only [turn] at hs
    split_ifs at hs with hin
    obtain ⟨hfd, hc, ht⟩ := accept_turn hs
    refine ⟨turn_sound h.sound hfd hc ht, accept_counted h.sound h.counted hs, ?_⟩
    intro f c hf
    rcases accept_opens h.sound hs hf with rfl | hold
    · exact ⟨a.fd, hin, rfl⟩
    · exact h.within f c hold

/-- The descriptors that may be given out, as the table has them. -/
def numbers (free : Finset Fd) : Finset Int := free.image fun fd : Fd => (fd : Int)

theorem Limited.open_subset {free : Finset Fd} {b : Broker κ} (h : Limited free b) :
    b.openFds ⊆ (numbers free : Set Int) := by
  intro f hf
  obtain ⟨c, hc⟩ := Option.ne_none_iff_exists'.mp hf
  obtain ⟨fd, hin, rfl⟩ := h.within f c hc
  exact Finset.mem_coe.mpr (Finset.mem_image_of_mem _ hin)

theorem Limited.open_le {free : Finset Fd} {b : Broker κ} (h : Limited free b) : b.served + b.lost ≤ free.card :=
  calc b.served + b.lost = b.openFds.ncard := h.counted.count.symm
    _ ≤ (numbers free : Set Int).ncard := Set.ncard_le_ncard h.open_subset (Finset.finite_toSet _)
    _ = (numbers free).card := Set.ncard_coe_finset _
    _ ≤ free.card := Finset.card_image_le

/-- What is lost stays lost. -/
theorem turn_lost_le {free : Finset Fd} {b b' : Broker κ} {a : Option (Accepted κ)} (h : b.turn free a = some b') :
    b.lost ≤ b'.lost := by
  cases a with
  | none =>
    cases h
    exact Nat.le_refl _
  | some a =>
    simp only [turn] at h
    split_ifs at h
    obtain ⟨-, -, ht⟩ := accept_turn h
    have hcons : ∃ e, b'.history = e :: b.history := by
      cases ht <;> exact ⟨_, rfl⟩
    obtain ⟨e, he⟩ := hcons
    rw [lost_cons he]
    exact Nat.le_add_right _ _

/-- With every descriptor lost, `accept` has none to give out. -/
theorem turn_exhausted {free : Finset Fd} {b b' : Broker κ} {a : Option (Accepted κ)} (h : Limited free b)
    (hlost : b.lost = free.card) (hs : b.turn free a = some b') : b' = b := by
  cases a with
  | none =>
    cases hs
    rfl
  | some a =>
    simp only [turn] at hs
    split_ifs at hs with hin
    obtain ⟨hfd, -, -⟩ := accept_turn hs
    -- the descriptor it would get is open already
    have hcard : (numbers free : Set Int).ncard ≤ b.openFds.ncard := by
      rw [Set.ncard_coe_finset, h.counted.count, hlost]
      exact Finset.card_image_le.trans (Nat.le_add_left _ _)
    have hall := Set.eq_of_subset_of_ncard_le h.open_subset hcard (Finset.finite_toSet _)
    have hopen : (a.fd : Int) ∈ b.openFds := hall ▸ Finset.mem_coe.mpr (Finset.mem_image_of_mem _ hin)
    exact absurd hfd hopen

theorem limited_run {free : Finset Fd} {as : List (Option (Accepted κ))} {b b' : Broker κ} (hb : Limited free b)
    (h : Transition.exec (turn free) b as = some b') : Limited free b' :=
  Transition.exec_invariant (fun _ _ _ => turn_limited) hb h

theorem lost_le_run {free : Finset Fd} {as : List (Option (Accepted κ))} {b b' : Broker κ}
    (h : Transition.exec (turn free) b as = some b') : b.lost ≤ b'.lost := by
  have hstep : ∀ (s : Broker κ) a s', b.lost ≤ s.lost → turn free s a = some s' → b.lost ≤ s'.lost :=
    fun s a s' hle hs => Nat.le_trans hle (turn_lost_le hs)
  exact Transition.exec_invariant hstep (Nat.le_refl _) h

theorem exhausted_run {free : Finset Fd} {as : List (Option (Accepted κ))} {b b' : Broker κ} (hb : Limited free b)
    (hlost : b.lost = free.card) (h : Transition.exec (turn free) b as = some b') : b' = b := by
  have hstep : ∀ s a s', s = b → turn free s a = some s' → s' = b := by
    intro s a s' hs hstep
    subst hs
    exact turn_exhausted hb hlost hstep
  exact Transition.exec_invariant hstep rfl h

/-- In every run, whatever is received: the open descriptors are those of the parties served
and the connections lost; of the descriptors there are, whatever has been lost by some time
serves nobody later; and when all are lost, the broker stays as it is. -/
theorem capacity {free : Finset Fd} {before later : List (Option (Accepted κ))} {b b' : Broker κ}
    (h : Transition.exec (turn free) init before = some b) (h' : Transition.exec (turn free) b later = some b') :
    b'.openFds.ncard = b'.served + b'.lost ∧ b'.served + b.lost ≤ free.card ∧ (b.lost = free.card → b' = b) := by
  have hb := limited_run (limited_init free) h
  have hb' := limited_run hb h'
  refine ⟨hb'.counted.count, ?_, fun hlost => exhausted_run hb hlost h'⟩
  calc b'.served + b.lost ≤ b'.served + b'.lost := Nat.add_le_add_left (lost_le_run h') _
    _ ≤ free.card := hb'.open_le

/-- Of two descriptors, one is lost to a second register and the other is the service's. -/
theorem capacity_registerTwice : ∃ b b', Transition.exec (turn {4, 5}) init (registerTwice.map some) = some b ∧
    Transition.exec (turn {4, 5}) b [none] = some b' ∧ b'.openFds.ncard = b'.served + b'.lost ∧
      b'.served + b.lost ≤ Finset.card {4, 5} ∧ (b.lost = Finset.card {4, 5} → b' = b) := by
  have hs : (Transition.exec (turn {4, 5}) init (registerTwice.map some)).isSome = true := by decide +kernel
  obtain ⟨b, hb⟩ := Option.isSome_iff_exists.mp hs
  have hlater : Transition.exec (turn {4, 5}) b [none] = some b := rfl
  exact ⟨b, b, hb, hlater, capacity hb hlater⟩

end Broker
end VirtualSocket
