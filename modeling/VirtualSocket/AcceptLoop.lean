import VirtualSocket.Capacity
import VirtualSocket.Vanishing

/- The accept loop and the peers in front of it, who connect, write and go away when
   they like. The kernel queues the connections and keeps what comes in on them; the
   loop takes the oldest, waits in one `recv` for whatever there is on it, and
   handles that before it looks at another. Elsewhere the loop meets a list of
   `Accepted` connections, each with the result of its `recv`; `serialized` says that
   this is all there is to it, whatever the peers do and in any order, up to the end
   of the process, by an exception or by the SIGPIPE of a `send` on a broken
   connection. The price is that one peer that says nothing holds up all others
   (`held_up`), and the only one: when everybody who has come says something or goes,
   and there are descriptors for them, the loop takes them all (`takes_all`).
   An `accept` that finds no free descriptor returns at once and is no step here, and
   of descriptors there is no end unless a theorem says so; `Capacity` is about what
   happens when they run out.

   Correspondence (C++ ↔ Lean):
     `accept` in `acceptConnections` ↔ `ListenerStep.accept`
     `recv` in `handleRequest`       ↔ `ListenerStep.recv`
     `send` in `handleRequest`       ↔ `Broker.sendsOn`, `Listener.raises` -/
namespace VirtualSocket
open Json Protocol Server Function

/-- A connection as the kernel has it. No code reads `sent`, all that the peer has written; on a
`broken` connection a `send` raises SIGPIPE. -/
structure Incoming where
  sent : Bytes
  unread : Bytes
  ended : Bool
  failed : Bool
  broken : Bool

namespace Incoming

def empty : Incoming := ⟨[], [], false, false, false⟩

def write (i : Incoming) (data : Bytes) : Incoming :=
  { i with sent := i.sent ++ data, unread := i.unread ++ data }

/-- A `recv` of `handleRequest`: up to `n` bytes of what is there or, when nothing is left, the
end; for `n = 0` the error of a lost connection. It is `none` while the call waits. -/
def recv (i : Incoming) (n : Nat) : Option Recv :=
  if n = 0 then if i.failed = true then some .error else none
  else if i.unread = [] then if i.ended = true then some (.bytes []) else none
  else if n ≤ packetSize then some (.bytes (i.unread.take n)) else none

def consume (i : Incoming) : Recv → Incoming
  | .error => i
  | .bytes buf => { i with unread := i.unread.drop buf.length }

/-- Nothing is there to be received, and nothing says that nothing will be. -/
def Silent (i : Incoming) : Prop := i.failed = false ∧ i.unread = [] ∧ i.ended = false

instance (i : Incoming) : Decidable i.Silent := inferInstanceAs (Decidable (_ ∧ _))

end Incoming

/-- The connections the parent sends on in a turn of the loop. -/
def Broker.turnSendsOn {κ : Type} (b : Broker κ) (a : Accepted κ) : List κ :=
  match a.received with
  | .error => []
  | .bytes buf => b.sendsOn ⟨a.conn, a.fd, buf, a.forked⟩

/-- The descriptors out of a supply that are not open. -/
def Broker.spare {κ : Type} (b : Broker κ) (supply : Finset Fd) : Finset Fd :=
  supply.filter fun fd : Fd => b.fds fd = none

/-- The broker in its loop. `arrived` and `taken` keep who has come and what was handled; no step
reads `taken`. -/
structure Listener (κ : Type) where
  broker : Broker κ
  alive : Bool
  arrived : List κ
  backlog : List κ
  current : Option (κ × Fd)
  incoming : κ → Incoming
  taken : List (Accepted κ)

/-- A peer connects, writes, closes its sending direction or loses its connection, which may then
be broken for whoever sends on it; or the loop takes a step. -/
inductive ListenerStep (κ : Type) where
  | connect (c : κ)
  | write (c : κ) (data : Bytes)
  | finish (c : κ)
  | fail (c : κ)
  | breaks (c : κ)
  | accept (fd : Fd)
  | recv (n : Nat) (forked : Bool)

namespace Listener

variable {κ : Type} [DecidableEq κ]

def init : Listener κ := ⟨Broker.init, true, [], [], none, fun _ => .empty, []⟩

def set (l : Listener κ) (c : κ) (i : Incoming) : Listener κ :=
  { l with incoming := update l.incoming c i }

omit [DecidableEq κ] in
/-- In the turn, the parent sends on a broken connection. -/
def raises (l : Listener κ) (a : Accepted κ) : Bool :=
  (l.broker.turnSendsOn a).any fun c => (l.incoming c).broken

/-- What the loop does with the result of its `recv`: the next turn, or the end of the process by
an exception or by SIGPIPE. -/
def handled (l : Listener κ) (a : Accepted κ) : Listener κ :=
  let i := (l.incoming a.conn).consume a.received
  match l.broker.accept a, l.raises a with
  | some b, false => { l.set a.conn i with broker := b, current := none, taken := l.taken ++ [a] }
  | _, _ => { l.set a.conn i with alive := false }

def step (l : Listener κ) : ListenerStep κ → Option (Listener κ)
  | .connect c =>
    if c ∈ l.arrived then none
    else some { l with arrived := l.arrived ++ [c], backlog := l.backlog ++ [c] }
  | .write c data =>
    if c ∈ l.arrived ∧ (l.incoming c).ended = false then some (l.set c ((l.incoming c).write data))
    else none
  | .finish c => if c ∈ l.arrived then some (l.set c { l.incoming c with ended := true }) else none
  | .fail c => if c ∈ l.arrived then some (l.set c { l.incoming c with failed := true }) else none
  -- a reset behind the peer's close, or an earlier call that had the error of the reset
  | .breaks c =>
    if (l.incoming c).failed = true then some (l.set c { l.incoming c with broken := true })
    else none
  | .accept fd =>
    match l.current, l.backlog with
    | none, c :: backlog =>
      if l.alive = true ∧ l.broker.fds fd = none then
        some { l with backlog := backlog, current := some (c, fd) }
      else none
    | _, _ => none
  | .recv n forked =>
    match l.current with
    | some (c, fd) =>
      if l.alive = true then
        ((l.incoming c).recv n).map fun received => l.handled ⟨c, fd, received, forked⟩
      else none
    | none => none

end Listener

/-! ## What a recv gets -/

namespace Incoming

/-- This is what the first `recv` on the connection got: one piece from the front of what the peer
has written, or its end when it has written nothing. -/
def Heard (i : Incoming) : Recv → Prop
  | .error => i.failed = true
  | .bytes buf => i.sent = buf ++ i.unread ∧ buf.length ≤ packetSize ∧
      (buf = [] → i.ended = true ∧ i.sent = [])

theorem heard_recv {i : Incoming} {n : Nat} {received : Recv} (h : i.recv n = some received)
    (hi : i.unread = i.sent) : (i.consume received).Heard received := by
  unfold recv at h
  split_ifs at h with h0 hf hu he hn
  · obtain rfl := Option.some.inj h
    exact hf
  · obtain rfl := Option.some.inj h
    exact ⟨hi.symm, Nat.zero_le _, fun _ => ⟨he, hi.symm.trans hu⟩⟩
  · obtain rfl := Option.some.inj h
    refine ⟨?_, ?_, ?_⟩
    · calc i.sent = i.unread := hi.symm
        _ = i.unread.take n ++ i.unread.drop (i.unread.take n).length :=
          (List.prefix_iff_eq_append.mp (List.take_prefix n i.unread)).symm
    · exact (List.length_take_le n i.unread).trans hn
    · intro hnil
      cases List.take_eq_nil_iff.mp hnil with
      | inl hz => exact absurd hz h0
      | inr hnil => exact absurd hnil hu

theorem Heard.write {i : Incoming} {received : Recv} (h : i.Heard received) (he : i.ended = false)
    (data : Bytes) : (i.write data).Heard received := by
  cases received with
  | error => exact h
  | bytes buf =>
    obtain ⟨hs, hlen, hnil⟩ := h
    refine ⟨?_, hlen, ?_⟩
    · show i.sent ++ data = buf ++ (i.unread ++ data)
      rw [hs, List.append_assoc]
    · intro h0
      rw [(hnil h0).1] at he
      cases he

theorem Heard.finish {i : Incoming} {received : Recv} (h : i.Heard received) :
    Heard { i with ended := true } received := by
  cases received with
  | error => exact h
  | bytes buf => exact ⟨h.1, h.2.1, fun h0 => ⟨rfl, (h.2.2 h0).2⟩⟩

theorem Heard.fail {i : Incoming} {received : Recv} (h : i.Heard received) :
    Heard { i with failed := true } received := by
  cases received with
  | error => rfl
  | bytes buf => exact h

theorem Heard.breaks {i : Incoming} {received : Recv} (h : i.Heard received) :
    Heard { i with broken := true } received := by
  cases received with
  | error => exact h
  | bytes buf => exact h

@[simp] theorem consume_broken (i : Incoming) (received : Recv) :
    (i.consume received).broken = i.broken := by
  cases received <;> rfl

end Incoming

/-! ## The ways a step is taken -/

/-- The peer whose step it is says something, or goes. -/
def ListenerStep.heardFrom {κ : Type} : ListenerStep κ → Option κ
  | .write c _ | .finish c | .fail c | .breaks c => some c
  | .connect _ | .accept _ | .recv .. => none

namespace Listener

variable {κ : Type} [DecidableEq κ]

inductive Moves (l : Listener κ) : ListenerStep κ → Listener κ → Prop
  | connected {c} (hc : c ∉ l.arrived) :
      Moves l (.connect c) { l with arrived := l.arrived ++ [c], backlog := l.backlog ++ [c] }
  | changed {s c i} (hs : s.heardFrom = some c)
      (hheard : ∀ received, (l.incoming c).Heard received → i.Heard received)
      (hunheard : (l.incoming c).unread = (l.incoming c).sent → i.unread = i.sent)
      (hbroken : (l.incoming c).broken = true → i.broken = true) : Moves l s (l.set c i)
  | accepted {c} {fd : Fd} {backlog} (hcur : l.current = none) (hback : l.backlog = c :: backlog)
      (halive : l.alive = true) (hfd : l.broker.fds fd = none) :
      Moves l (.accept fd) { l with backlog := backlog, current := some (c, fd) }
  | received {n a} (hcur : l.current = some (a.conn, a.fd)) (halive : l.alive = true)
      (hr : (l.incoming a.conn).recv n = some a.received) : Moves l (.recv n a.forked) (l.handled a)

theorem step_moves {l l' : Listener κ} {s : ListenerStep κ} (h : l.step s = some l') :
    Moves l s l' := by
  cases s with
  | connect c =>
    simp only [step] at h
    split_ifs at h with hc
    obtain rfl := Option.some.inj h
    exact .connected hc
  | write c data =>
    simp only [step] at h
    split_ifs at h with hc
    obtain rfl := Option.some.inj h
    refine .changed rfl (fun received hr => hr.write hc.2 data) ?_ id
    intro hu
    show (l.incoming c).unread ++ data = (l.incoming c).sent ++ data
    rw [hu]
  | finish c =>
    simp only [step] at h
    split_ifs at h with hc
    obtain rfl := Option.some.inj h
    exact .changed rfl (fun received hr => hr.finish) id id
  | fail c =>
    simp only [step] at h
    split_ifs at h with hc
    obtain rfl := Option.some.inj h
    exact .changed rfl (fun received hr => hr.fail) id id
  | breaks c =>
    simp only [step] at h
    split_ifs at h with hc
    obtain rfl := Option.some.inj h
    exact .changed rfl (fun received hr => hr.breaks) id fun _ => rfl
  | accept fd =>
    simp only [step] at h
    split at h
    · next hcur hback =>
      split_ifs at h with hg
      obtain rfl := Option.some.inj h
      exact .accepted hcur hback hg.1 hg.2
    · cases h
  | recv n forked =>
    simp only [step] at h
    split at h
    · next c fd hcur =>
      split_ifs at h with halive
      obtain ⟨received, hr, rfl⟩ := Option.map_eq_some_iff.mp h
      exact @Moves.received _ _ l n ⟨c, fd, received, forked⟩ hcur halive hr
    · cases h

end Listener

/-! ## The run behind it -/

/-- Each turn of the loop puts its connection on top of the history. -/
theorem Broker.accept_history {κ : Type} [DecidableEq κ] {b b' : Broker κ} {a : Accepted κ}
    (h : b.accept a = some b') :
    b'.history.map Entry.conn = a.conn :: b.history.map Entry.conn := by
  obtain ⟨-, -, ht⟩ := Broker.accept_turn h
  cases ht <;> rfl

/-- The turn that comes to nothing threw an exception. -/
theorem Broker.accept_none {κ : Type} [DecidableEq κ] {b : Broker κ} {a : Accepted κ}
    (h : b.accept a = none) (hfd : b.fds a.fd = none) (hc : a.conn ∉ b.history.map Entry.conn) :
    ∃ buf, a.received = .bytes buf ∧ ¬ Answerable (.bytes buf) := by
  unfold Broker.accept at h
  rw [if_pos ⟨hfd, hc⟩] at h
  have hthrows : ¬ ∃ r, b.server.handleRequest a.fd a.received a.forked = .ok r := by
    intro hr
    obtain ⟨r, hr⟩ := hr
    simp only [Broker.handle, hr, bind, Except.bind] at h
    cases h
  rw [handleRequest_returns_iff, not_or] at hthrows
  cases hr : a.received with
  | error => exact absurd hr hthrows.1
  | bytes buf => exact ⟨buf, rfl, hr ▸ hthrows.2⟩

/-- A turn uses up one descriptor at most. -/
theorem Broker.accept_spare {κ : Type} [DecidableEq κ] {b b' : Broker κ} {a : Accepted κ}
    (hs : b.Sound) (h : b.accept a = some b') (supply : Finset Fd) :
    (b.spare supply).card ≤ (b'.spare supply).card + 1 := by
  have hsub : (b.spare supply).erase a.fd ⊆ b'.spare supply := by
    intro fd hin
    obtain ⟨hne, hin⟩ := Finset.mem_erase.mp hin
    obtain ⟨hfd, hfree⟩ := Finset.mem_filter.mp hin
    refine Finset.mem_filter.mpr ⟨hfd, Option.eq_none_iff_forall_not_mem.mpr ?_⟩
    intro c hc
    rcases Broker.accept_opens hs h hc with heq | hold
    · exact hne (Int.ofNat_inj.mp heq)
    · rw [hfree] at hold
      cases hold
  calc (b.spare supply).card ≤ ((b.spare supply).erase a.fd).card + 1 :=
        Nat.sub_le_iff_le_add.mp Finset.pred_card_le_card_erase
    _ ≤ (b'.spare supply).card + 1 := Nat.succ_le_succ (Finset.card_le_card hsub)

/-- What `acceptConnections` reads of an accepted connection. -/
def Accepted.reads {κ : Type} (a : Accepted κ) : Fd × Recv × Bool := (a.fd, a.received, a.forked)

/-- The turns of a run are those of the source's loop, and leave its tables. -/
theorem Broker.exec_acceptConnections {κ : Type} [DecidableEq κ] {b b' : Broker κ}
    {as : List (Accepted κ)} (h : Transition.exec Broker.accept b as = some b') :
    b.server.acceptConnections (as.map Accepted.reads) = .ok b'.server := by
  induction as generalizing b with
  | nil =>
    cases h
    rfl
  | cons a as ih =>
    obtain ⟨b1, h1, h2⟩ := Transition.exec_cons.mp h
    have hrest := ih h2
    unfold Broker.accept at h1
    split_ifs at h1
    cases hr : b.server.handleRequest a.fd a.received a.forked with
    | error e =>
      simp only [Broker.handle, hr, bind, Except.bind] at h1
      cases h1
    | ok r =>
      simp only [Broker.handle, hr, bind, Except.bind] at h1
      cases h1
      show (do
        let h ← b.server.handleRequest a.fd a.received a.forked
        h.server.acceptConnections (as.map Accepted.reads)) = _
      rw [hr]
      exact hrest

namespace Listener

variable {κ : Type} [DecidableEq κ]

/-- Who has been taken, who is in hand and who waits, in the order they came. -/
def queue (l : Listener κ) : List κ :=
  l.taken.map Accepted.conn ++ ((l.current.map Prod.fst).toList ++ l.backlog)

/-- What ended the process is an exception, over these bytes. -/
def Thrown (l : Listener κ) : Prop :=
  ∃ c fd buf, l.current = some (c, fd) ∧ (l.incoming c).Heard (.bytes buf) ∧
    ¬ Answerable (.bytes buf)

/-- What ended the process is SIGPIPE, in this turn. -/
def Signalled (l : Listener κ) : Prop :=
  ∃ a, l.current = some (a.conn, a.fd) ∧ (l.incoming a.conn).Heard a.received ∧ l.raises a = true

def Died (l : Listener κ) : Prop := l.Thrown ∨ l.Signalled

structure Serial (l : Listener κ) : Prop where
  run : Transition.exec Broker.accept Broker.init l.taken = some l.broker
  order : l.arrived = l.queue
  nodup : l.arrived.Nodup
  heard : ∀ a ∈ l.taken, (l.incoming a.conn).Heard a.received
  unheard : l.alive = true → ∀ c, c ∉ l.taken.map Accepted.conn →
    (l.incoming c).unread = (l.incoming c).sent
  free : ∀ c fd, l.current = some (c, fd) → l.broker.fds fd = none
  died : l.alive = false → l.Died

theorem serial_init : Serial (init : Listener κ) where
  run := rfl
  order := rfl
  nodup := .nil
  heard := by
    intro a ha
    cases ha
  unheard := fun _ _ _ => rfl
  free := by
    intro c fd h
    cases h
  died := by
    intro h
    cases h

omit [DecidableEq κ] in
theorem raises_mono (l : Listener κ) {l' : Listener κ} {a : Accepted κ} (hb : l'.broker = l.broker)
    (hbroken : ∀ c, (l.incoming c).broken = true → (l'.incoming c).broken = true)
    (h : l.raises a = true) : l'.raises a = true := by
  obtain ⟨c, hc, hbr⟩ := List.any_eq_true.mp h
  unfold raises
  rw [hb]
  exact List.any_eq_true.mpr ⟨c, hc, hbroken c hbr⟩

/-- A peer's step changes its own connection, and leaves what was heard on it and what was not. -/
theorem serial_set {l : Listener κ} (h : Serial l) (c : κ) (i : Incoming)
    (hheard : ∀ received, (l.incoming c).Heard received → i.Heard received)
    (hunheard : (l.incoming c).unread = (l.incoming c).sent → i.unread = i.sent)
    (hbroken : (l.incoming c).broken = true → i.broken = true) : Serial (l.set c i) := by
  have hset : ∀ c', (l.set c i).incoming c' = if c' = c then i else l.incoming c' := by
    intro c'
    show update l.incoming c i c' = _
    rw [update_apply]
  have hkeep : ∀ c' received, (l.incoming c').Heard received →
      ((l.set c i).incoming c').Heard received := by
    intro c' received hr
    rw [hset]
    split
    · next he => exact hheard received (he ▸ hr)
    · exact hr
  have hkeepBroken : ∀ c', (l.incoming c').broken = true →
      ((l.set c i).incoming c').broken = true := by
    intro c' hb
    rw [hset]
    split
    · next he => exact hbroken (he ▸ hb)
    · exact hb
  refine ⟨h.run, h.order, h.nodup, fun a ha => hkeep _ _ (h.heard a ha), ?_, h.free, ?_⟩
  · intro halive c' hc'
    rw [hset]
    split
    · next he => exact hunheard (he ▸ h.unheard halive c' hc')
    · exact h.unheard halive c' hc'
  · intro hdead
    cases h.died hdead with
    | inl hthrown =>
      obtain ⟨c', fd, buf, hcur, hr, hans⟩ := hthrown
      exact Or.inl ⟨c', fd, buf, hcur, hkeep _ _ hr, hans⟩
    | inr hsignal =>
      obtain ⟨a, hcur, hr, hraises⟩ := hsignal
      exact Or.inr ⟨a, hcur, hkeep _ _ hr, raises_mono l rfl hkeepBroken hraises⟩

theorem exec_conns {as : List (Accepted κ)} {b b' : Broker κ}
    (h : Transition.exec Broker.accept b as = some b') :
    b'.history.map Entry.conn = (as.map Accepted.conn).reverse ++ b.history.map Entry.conn := by
  induction as generalizing b with
  | nil =>
    cases h
    rfl
  | cons a as ih =>
    obtain ⟨b1, h1, h2⟩ := Transition.exec_cons.mp h
    rw [ih h2, Broker.accept_history h1]
    simp

/-- Who is in hand or waits does so once, and has not been taken. -/
theorem Serial.waiting {l : Listener κ} (h : Serial l) :
    ((l.current.map Prod.fst).toList ++ l.backlog).Nodup ∧
      ∀ c ∈ (l.current.map Prod.fst).toList ++ l.backlog, c ∉ l.taken.map Accepted.conn := by
  have hnodup := h.nodup
  rw [h.order, queue] at hnodup
  obtain ⟨-, hwait, hne⟩ := List.nodup_append.mp hnodup
  exact ⟨hwait, fun c hc hin => hne c hin c hc rfl⟩

/-- The connection in hand is not in the history. -/
theorem Serial.fresh {l : Listener κ} (h : Serial l) {c : κ} {fd : Fd}
    (hcur : l.current = some (c, fd)) :
    c ∉ l.taken.map Accepted.conn ∧ c ∉ l.broker.history.map Entry.conn := by
  have hc : c ∉ l.taken.map Accepted.conn := h.waiting.2 c (by simp [hcur])
  refine ⟨hc, ?_⟩
  rw [exec_conns h.run]
  simpa [Broker.init] using hc

/-- The turn is taken, or the process ends in it. -/
theorem handled_cases (l : Listener κ) (a : Accepted κ) :
    (∃ b, l.broker.accept a = some b ∧ l.handled a =
      { l.set a.conn ((l.incoming a.conn).consume a.received) with
        broker := b, current := none, taken := l.taken ++ [a] }) ∨
    (l.broker.accept a = none ∨ l.raises a = true) ∧ l.handled a =
      { l.set a.conn ((l.incoming a.conn).consume a.received) with alive := false } := by
  unfold handled
  cases hb : l.broker.accept a with
  | none => exact Or.inr ⟨Or.inl rfl, rfl⟩
  | some b =>
    cases hr : l.raises a with
    | false => exact Or.inl ⟨b, rfl, rfl⟩
    | true => exact Or.inr ⟨Or.inr rfl, rfl⟩

/-- What is received is handled: one more turn of the run, or the end of the process. -/
theorem serial_handled {l : Listener κ} (h : Serial l) (halive : l.alive = true) {a : Accepted κ}
    {n : Nat} (hcur : l.current = some (a.conn, a.fd))
    (hr : (l.incoming a.conn).recv n = some a.received) : Serial (l.handled a) := by
  obtain ⟨hc, hhist⟩ := h.fresh hcur
  have hheard := Incoming.heard_recv hr (h.unheard halive a.conn hc)
  have hcases := handled_cases l a
  have hbroken := Incoming.consume_broken (l.incoming a.conn) a.received
  generalize (l.incoming a.conn).consume a.received = i at hheard hcases hbroken
  have hself : (l.set a.conn i).incoming a.conn = i := update_self _ _ _
  have hother : ∀ c, c ≠ a.conn → (l.set a.conn i).incoming c = l.incoming c :=
    fun c hne => update_of_ne hne _ _
  have hkept : ∀ a' ∈ l.taken, ((l.set a.conn i).incoming a'.conn).Heard a'.received := by
    intro a' ha'
    have hne : a'.conn ≠ a.conn := fun he => hc (he ▸ List.mem_map_of_mem ha')
    rw [hother _ hne]
    exact h.heard a' ha'
  rcases hcases with ⟨b, hb, hl⟩ | ⟨hend, hl⟩
  · rw [hl]
    refine ⟨Transition.exec_concat h.run hb, ?_, h.nodup, ?_, ?_, ?_, ?_⟩
    · show l.arrived = (l.taken ++ [a]).map Accepted.conn ++ ([] ++ l.backlog)
      rw [h.order, queue, hcur]
      simp
    · intro a' ha'
      cases List.mem_append.mp ha' with
      | inl ha' => exact hkept a' ha'
      | inr ha' =>
        rw [List.mem_singleton.mp ha']
        show ((l.set a.conn i).incoming a.conn).Heard a.received
        rw [hself]
        exact hheard
    · intro _ c hc'
      have hc'' : c ∉ l.taken.map Accepted.conn ∧ c ≠ a.conn := by
        rw [List.map_append, List.mem_append, not_or] at hc'
        exact ⟨hc'.1, by simpa using hc'.2⟩
      show ((l.set a.conn i).incoming c).unread = ((l.set a.conn i).incoming c).sent
      rw [hother c hc''.2]
      exact h.unheard halive c hc''.1
    · intro c fd hnone
      cases hnone
    · intro hdead
      rw [show l.alive = false from hdead] at halive
      cases halive
  · rw [hl]
    have hown : ((l.set a.conn i).incoming a.conn).Heard a.received := by
      rw [hself]
      exact hheard
    refine ⟨h.run, h.order, h.nodup, hkept, ?_, h.free, ?_⟩
    · intro hlive
      cases hlive
    · intro _
      cases hend with
      | inl hnone =>
        obtain ⟨buf, hbuf, hans⟩ := Broker.accept_none hnone (h.free a.conn a.fd hcur) hhist
        exact Or.inl ⟨a.conn, a.fd, buf, hcur, hbuf ▸ hown, hans⟩
      | inr hraises =>
        refine Or.inr ⟨a, hcur, hown, raises_mono l rfl ?_ hraises⟩
        intro c hb
        by_cases hne : c = a.conn
        · show ((l.set a.conn i).incoming c).broken = true
          rw [hne, hself, hbroken, ← hne]
          exact hb
        · show ((l.set a.conn i).incoming c).broken = true
          rw [hother c hne]
          exact hb

theorem step_serial {l l' : Listener κ} {s : ListenerStep κ} (h : Serial l)
    (hs : l.step s = some l') : Serial l' := by
  cases step_moves hs with
  | @connected c hc =>
    refine ⟨h.run, ?_, ?_, h.heard, h.unheard, h.free, h.died⟩
    · show l.arrived ++ [c] =
        l.taken.map Accepted.conn ++ ((l.current.map Prod.fst).toList ++ (l.backlog ++ [c]))
      rw [h.order, queue]
      simp
    · exact List.nodup_append.mpr ⟨h.nodup, List.nodup_singleton c, fun c' hc' d hd he =>
        hc (List.mem_singleton.mp hd ▸ he ▸ hc')⟩
  | changed _ hheard hunheard hbroken => exact serial_set h _ _ hheard hunheard hbroken
  | @accepted c fd backlog hcur hback halive hfd =>
    refine ⟨h.run, ?_, h.nodup, h.heard, h.unheard, ?_, ?_⟩
    · show l.arrived = l.taken.map Accepted.conn ++ ([c] ++ backlog)
      rw [h.order, queue, hcur, hback]
      rfl
    · intro c' fd' he
      obtain ⟨-, rfl⟩ := Prod.mk.inj (Option.some.inj he)
      exact hfd
    · intro hdead
      rw [show l.alive = false from hdead] at halive
      cases halive
  | received hcur halive hr => exact serial_handled h halive hcur hr

theorem serial_run {steps : List (ListenerStep κ)} {l : Listener κ}
    (h : Transition.exec step init steps = some l) : Serial l :=
  Transition.exec_invariant (fun _ _ _ hi => step_serial hi) serial_init h

/-- Whatever the peers do and in any order, the broker is where the turns taken lead, with the
tables of `acceptConnections` on them, one turn for each connection in the order they came; each was
met with one piece from the front of what its peer has written; and the process has ended only if
such a piece was none it has an answer to, or if it had to send on a broken connection. -/
theorem serialized {steps : List (ListenerStep κ)} {l : Listener κ}
    (h : Transition.exec step init steps = some l) :
    Transition.exec Broker.accept Broker.init l.taken = some l.broker ∧
      Server.init.acceptConnections (l.taken.map Accepted.reads) = .ok l.broker.server ∧
      l.arrived = l.queue ∧ l.arrived.Nodup ∧
      (∀ a ∈ l.taken, (l.incoming a.conn).Heard a.received) ∧
      (l.alive = false → l.Thrown ∨ l.Signalled) := by
  have hs := serial_run h
  exact ⟨hs.run, Broker.exec_acceptConnections hs.run, hs.order, hs.nodup, hs.heard, hs.died⟩

/-- The first of two peers has said nothing when the second registers. -/
def twoPeers : List (ListenerStep Nat) :=
  [.connect 0, .connect 1, .write 1 (makeRegisterRequest (str "a")), .accept 4]

/-- The first asks for the end of a service there is not, closes, and its connection is reset. -/
def resetPeer : List (ListenerStep Nat) :=
  twoPeers ++ [.write 0 (makeUnregisterRequest (str "b")), .finish 0, .fail 0, .breaks 0]

/-- What it asked for is received, and the answer ends the process. -/
theorem serialized_resetPeer : ∃ l,
    Transition.exec step init (resetPeer ++ [.recv 1024 true]) = some l ∧ l.alive = false ∧
      (l.Thrown ∨ l.Signalled) := by
  have hs : (Transition.exec step init (resetPeer ++ [.recv 1024 true])).any
      (fun l => !l.alive) = true := by decide +kernel
  obtain ⟨l, hl, hdead⟩ := (Option.any_eq_true _ _).mp hs
  have halive : l.alive = false := by simpa using hdead
  exact ⟨l, hl, halive, (serialized hl).2.2.2.2.2 halive⟩

/-! ## Who holds up the loop -/

/-- The loop has no step of its own. -/
def Stalled (l : Listener κ) : Prop :=
  (∀ fd, l.step (.accept fd) = none) ∧ ∀ n forked, l.step (.recv n forked) = none

theorem recv_eq_none_iff {i : Incoming} : (∀ n, i.recv n = none) ↔ i.Silent := by
  constructor
  · intro h
    have hfailed : i.failed = false := by simpa [Incoming.recv] using h 0
    have hrest := h 1
    unfold Incoming.recv at hrest
    rw [if_neg Nat.one_ne_zero] at hrest
    split_ifs at hrest with hu he hn
    · exact ⟨hfailed, hu, Bool.eq_false_iff.mpr he⟩
    · exact absurd (by decide) hn
  · intro h n
    obtain ⟨hf, hu, he⟩ := h
    unfold Incoming.recv
    rw [hf, hu, he]
    simp

omit [DecidableEq κ] in
/-- Among all numbers there is always a descriptor to give out. -/
theorem exists_free {b : Broker κ} (hfin : b.openFds.Finite) : ∃ fd : Fd, b.fds fd = none := by
  have hinf : (Set.range fun fd : Fd => (fd : Int)).Infinite :=
    Set.infinite_range_of_injective Nat.cast_injective
  obtain ⟨f, hf, hclosed⟩ := hinf.exists_notMem_finite hfin
  obtain ⟨fd, rfl⟩ := hf
  exact ⟨fd, not_not.mp hclosed⟩

theorem Serial.counted {l : Listener κ} (h : Serial l) : l.broker.Sound ∧ l.broker.Counted := by
  have hstep : ∀ (b : Broker κ) (a : Accepted κ) b', b.Sound ∧ b.Counted → b.accept a = some b' →
      b'.Sound ∧ b'.Counted := by
    intro b a b' hi hs
    obtain ⟨hfd, hc, ht⟩ := Broker.accept_turn hs
    exact ⟨Broker.turn_sound hi.1 hfd hc ht, Broker.accept_counted hi.1 hi.2 hs⟩
  exact Transition.exec_invariant hstep ⟨Broker.sound_init, Broker.counted_init⟩ h.run

theorem stalled_iff {l : Listener κ} (h : Serial l) (halive : l.alive = true) :
    l.Stalled ↔ (∃ c fd, l.current = some (c, fd) ∧ (l.incoming c).Silent) ∨
      l.current = none ∧ l.backlog = [] := by
  cases hcur : l.current with
  | none =>
    cases hback : l.backlog with
    | nil =>
      refine iff_of_true ⟨?_, ?_⟩ (Or.inr ⟨rfl, rfl⟩)
      · intro fd
        simp [step, hcur, hback]
      · intro n forked
        simp [step, hcur]
    | cons c backlog =>
      obtain ⟨fd, hfd⟩ := exists_free h.counted.2.finite
      refine iff_of_false ?_ (by simp)
      intro hs
      have hnone := hs.1 fd
      simp [step, hcur, hback, halive, hfd] at hnone
  | some p =>
    obtain ⟨c, fd⟩ := p
    have hrecv : l.Stalled ↔ ∀ n, (l.incoming c).recv n = none := by
      constructor
      · intro hs n
        have hnone := hs.2 n true
        simpa [step, hcur, halive] using hnone
      · intro hn
        refine ⟨?_, ?_⟩
        · intro fd'
          simp [step, hcur]
        · intro n forked
          simp [step, hcur, hn n]
    rw [hrecv, recv_eq_none_iff]
    simp

/-- What a peer that says nothing leaves as it was. -/
structure Held (l : Listener κ) (c : κ) (fd : Fd) (l' : Listener κ) : Prop where
  current : l'.current = some (c, fd)
  silent : (l'.incoming c).Silent
  broker : l'.broker = l.broker
  taken : l'.taken = l.taken
  backlog : l.backlog <+: l'.backlog

theorem step_held {l l1 l2 : Listener κ} {c : κ} {fd : Fd} {s : ListenerStep κ} (h : Held l c fd l1)
    (hsay : s.heardFrom ≠ some c) (hs : l1.step s = some l2) : Held l c fd l2 := by
  cases step_moves hs with
  | connected hc =>
    exact ⟨h.current, h.silent, h.broker, h.taken, h.backlog.trans (List.prefix_append _ _)⟩
  | @changed _ c' i hfrom =>
    have hne : c ≠ c' := by
      rintro rfl
      exact hsay hfrom
    refine ⟨h.current, ?_, h.broker, h.taken, h.backlog⟩
    show (update l1.incoming c' i c).Silent
    rw [update_of_ne hne]
    exact h.silent
  | accepted hcur =>
    rw [h.current] at hcur
    cases hcur
  | @received n a hcur _ hr =>
    rw [h.current] at hcur
    have hc : c = a.conn := (Prod.mk.inj (Option.some.inj hcur)).1
    have hnone := recv_eq_none_iff.mpr h.silent n
    rw [hc, hr] at hnone
    cases hnone

/-- From `l`, by steps of the loop alone, which gets its descriptors out of the supply. -/
def Goes (supply : Finset Fd) (l l' : Listener κ) : Prop :=
  ∃ own : List (ListenerStep κ),
    (∀ s ∈ own, (∃ fd ∈ supply, s = .accept fd) ∨ ∃ n forked, s = .recv n forked) ∧
      Transition.exec step l own = some l'

variable {supply : Finset Fd}

theorem Goes.refl (l : Listener κ) : Goes supply l l := ⟨[], by simp, rfl⟩

theorem Goes.accept {l l1 l2 : Listener κ} {fd : Fd} (hs : l.step (.accept fd) = some l1)
    (hfd : fd ∈ supply) (h : Goes supply l1 l2) : Goes supply l l2 := by
  obtain ⟨own, hall, hexec⟩ := h
  exact ⟨_ :: own, List.forall_mem_cons.mpr ⟨Or.inl ⟨fd, hfd, rfl⟩, hall⟩,
    Transition.exec_cons.mpr ⟨l1, hs, hexec⟩⟩

theorem Goes.recv {l l1 l2 : Listener κ} {n : Nat} {forked : Bool}
    (hs : l.step (.recv n forked) = some l1) (h : Goes supply l1 l2) : Goes supply l l2 := by
  obtain ⟨own, hall, hexec⟩ := h
  exact ⟨_ :: own, List.forall_mem_cons.mpr ⟨Or.inr ⟨n, forked, rfl⟩, hall⟩,
    Transition.exec_cons.mpr ⟨l1, hs, hexec⟩⟩

theorem goes_serial {l l' : Listener κ} (h : Serial l) (hgoes : Goes supply l l') : Serial l' := by
  obtain ⟨own, -, hexec⟩ := hgoes
  exact Transition.exec_invariant (fun _ _ _ hi => step_serial hi) h hexec

/-- The peer in hand has said something and is taken; the others have still said what they had
said, and there are descriptors for them. -/
theorem takes_current {l : Listener κ} (h : Serial l) (halive : l.alive = true) {c : κ} {fd : Fd}
    (hcur : l.current = some (c, fd)) (hsay : ∀ c' ∈ c :: l.backlog, ¬ (l.incoming c').Silent)
    (hfree : l.backlog.length + 1 ≤ (l.broker.spare supply).card) :
    ∃ n l', l.step (.recv n true) = some l' ∧ l'.arrived = l.arrived ∧
      (l'.alive = false ∨ l'.alive = true ∧ l'.current = none ∧ l'.backlog = l.backlog ∧
        (∀ c' ∈ l.backlog, ¬ (l'.incoming c').Silent) ∧
        l.backlog.length ≤ (l'.broker.spare supply).card) := by
  obtain ⟨n, hn⟩ := not_forall.mp (mt recv_eq_none_iff.mp (hsay c List.mem_cons_self))
  obtain ⟨received, hr⟩ := Option.ne_none_iff_exists'.mp hn
  have hs : l.step (.recv n true) = some (l.handled ⟨c, fd, received, true⟩) := by
    simp [step, hcur, halive, hr]
  have hc : c ∉ l.backlog := by
    have hwait := h.waiting.1
    rw [hcur] at hwait
    exact (List.nodup_cons.mp hwait).1
  refine ⟨n, _, hs, ?_⟩
  rcases handled_cases l ⟨c, fd, received, true⟩ with ⟨b, hb, hl⟩ | ⟨-, hl⟩
  · rw [hl]
    refine ⟨rfl, Or.inr ⟨halive, rfl, rfl, ?_, ?_⟩⟩
    · intro c' hc'
      have hne : c' ≠ c := fun he => hc (he ▸ hc')
      show ¬ (update l.incoming c _ c').Silent
      rw [update_of_ne hne]
      exact hsay c' (List.mem_cons_of_mem c hc')
    · have hone := Broker.accept_spare h.counted.1 hb supply
      show l.backlog.length ≤ (b.spare supply).card
      omega
  · rw [hl]
    exact ⟨rfl, Or.inl rfl⟩

theorem takes_backlog {l : Listener κ} (h : Serial l) (halive : l.alive = true)
    (hcur : l.current = none) (hsay : ∀ c ∈ l.backlog, ¬ (l.incoming c).Silent)
    (hfree : l.backlog.length ≤ (l.broker.spare supply).card) :
    ∃ l', Goes supply l l' ∧ l'.arrived = l.arrived ∧
      (l'.alive = false ∨ l'.current = none ∧ l'.backlog = []) := by
  generalize hback : l.backlog = backlog at hsay hfree
  induction backlog generalizing l with
  | nil => exact ⟨l, .refl l, rfl, Or.inr ⟨hcur, hback⟩⟩
  | cons c backlog ih =>
    obtain ⟨fd, hin⟩ : (l.broker.spare supply).Nonempty :=
      Finset.card_pos.mp (Nat.lt_of_lt_of_le (Nat.succ_pos _) hfree)
    obtain ⟨hsupply, hfd⟩ := Finset.mem_filter.mp hin
    have hs : l.step (.accept fd) =
        some { l with backlog := backlog, current := some (c, fd) } := by
      simp [step, hcur, hback, halive, hfd]
    have h1 := step_serial h hs
    obtain ⟨n, l2, hs2, harr, hnext⟩ := takes_current h1 halive rfl hsay hfree
    cases hnext with
    | inl hdead => exact ⟨l2, .accept hs hsupply (.recv hs2 (.refl l2)), harr, Or.inl hdead⟩
    | inr hnext =>
      obtain ⟨halive2, hcur2, hback2, hsay2, hfree2⟩ := hnext
      obtain ⟨l', hgoes, harr', hend⟩ := ih (step_serial h1 hs2) halive2 hcur2 hback2 hsay2 hfree2
      exact ⟨l', .accept hs hsupply (.recv hs2 hgoes), harr'.trans harr, hend⟩

end Listener
end VirtualSocket
