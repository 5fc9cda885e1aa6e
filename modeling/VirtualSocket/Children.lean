import VirtualSocket.Descriptors
import VirtualSocket.Relay

/- The processes of the broker: the parent in its accept loop, and the children it has
   forked, each with a descriptor table of its own. A child starts on a copy of the
   parent's whole table as it is at the fork, makes its calls one by one, runs the
   two threads of `facilitateConnection` when it comes to that, and exits; a signal
   may end it at any time. Parent, children and threads take their steps in any
   order. What a child ever closes is its own two descriptors, so it holds all the
   others it was forked with until it exits (`Inherits`, `inherited_run`).

   Correspondence (C++ ↔ Lean):
     `fork()` in `updateConnectionStatus` ↔ `Broker.forks`
     the child's branch up to `exit(0)`    ↔ `Stage.calling`
     `pthread_create`, `pthread_join`      ↔ `Stage.relaying`, `ChildStep.join` -/
namespace VirtualSocket
open Json Protocol Server Broker Function

variable {κ : Type}

/-- The children forked in a handling, each with the table it starts on and its calls. -/
def Effect.forked (fds : Int → Option κ) : List Effect → List ((Int → Option κ) × List Call)
  | [] => []
  | .call c :: es => forked (c.run fds).1 es
  | .fork child :: es => (fds, child) :: forked fds es

/-- Where a child stands: before its next call, in `facilitateConnection` with calls
still to come, or gone. -/
inductive Stage (κ : Type) where
  | calling (fds : Int → Option κ) (calls : List Call)
  | relaying (r : Relay κ) (calls : List Call)
  | exited

instance (s : Stage κ) : Decidable (s = .exited) :=
  match s with
  | .calling .. | .relaying .. => isFalse nofun
  | .exited => isTrue rfl

/-- The descriptors of a child; one that has exited has none. -/
def Stage.fds : Stage κ → Int → Option κ
  | .calling fds _ => fds
  | .relaying r _ => r.fds
  | .exited => fun _ => none

/-- A forked child. `conn` is the connection of the report it was forked for and `born`
the history before that report; no step reads them. -/
structure Child (κ : Type) where
  conn : κ
  born : List (Entry κ)
  stage : Stage κ

structure Processes (κ : Type) where
  parent : Broker κ
  children : List (Child κ)
  net : Net κ

inductive ChildStep where
  | call
  | thread (d : Dir) (a : ThreadStep)
  | join
  | killed
  deriving DecidableEq

/-- A turn of the parent, a step of the child at a place, or bytes a peer sends. -/
inductive ProcessStep (κ : Type) where
  | parent (a : Accepted κ)
  | child (j : Nat) (a : ChildStep)
  | peer (c : κ) (d : Dir) (bytes : Bytes)

/-- The children forked in a turn of the parent. -/
def Broker.forks (b : Broker κ) (a : Accepted κ) : List (Child κ) :=
  match b.server.handleRequest a.fd a.received a.forked with
  | .error _ => []
  | .ok h => (Effect.forked (update b.fds a.fd (some a.conn)) h.effects).map
      fun child => ⟨a.conn, b.history, .calling child.1 child.2⟩

section
variable [DecidableEq κ]

def Stage.step (s : Stage κ) (net : Net κ) : ChildStep → Option (Stage κ × Net κ)
  | .call =>
    match s with
    | .calling _ (.exit :: _) => some (.exited, net)
    | .calling fds (.facilitateConnection clientFd serverFd :: calls) =>
      match fds clientFd, fds serverFd with
      | some c, some n => some (.relaying (Relay.facilitateConnection fds clientFd serverFd c n) calls, net)
      -- both threads would return at once
      | _, _ => some (.calling fds calls, net)
    | .calling fds (c :: calls) => some (.calling (c.run fds).1 calls, net)
    | _ => none
  | .thread d a =>
    match s with
    | .relaying r calls => (r.step net d a).map fun (r', net') => (.relaying r' calls, net')
    | _ => none
  | .join =>
    match s with
    | .relaying r calls =>
      if r.thread .toServer = .returned ∧ r.thread .toClient = .returned then some (.calling r.fds calls, net)
      else none
    | _ => none
  | .killed => some (.exited, net)

namespace Processes

def init : Processes κ := ⟨Broker.init, [], fun _ _ => .empty⟩

def step (p : Processes κ) : ProcessStep κ → Option (Processes κ)
  | .parent a => (p.parent.accept a).map fun b => { p with parent := b, children := p.children ++ p.parent.forks a }
  | .child j a =>
    match p.children[j]? with
    | none => none
    | some k => (k.stage.step p.net a).map fun (s, net) =>
        { p with children := p.children.set j { k with stage := s }, net := net }
  | .peer c d bytes => some { p with net := p.net.push c d bytes }

omit [DecidableEq κ] in
/-- No process holds a descriptor of the connection, so it is closed towards its peer. -/
def Closed (p : Processes κ) (c : κ) : Prop :=
  (∀ f, p.parent.fds f ≠ some c) ∧ ∀ k ∈ p.children, ∀ f, k.stage.fds f ≠ some c

end Processes

end

/-! ## What a child closes -/

/-- The table is `fds` with at most the descriptors `f` and `g` closed. -/
def Pruned (fds : Int → Option κ) (f g : Int) (t : Int → Option κ) : Prop :=
  ∀ x, t x = fds x ∨ (x = f ∨ x = g) ∧ t x = none

theorem Pruned.refl (fds : Int → Option κ) (f g : Int) : Pruned fds f g fds := fun _ => Or.inl rfl

theorem Pruned.close {fds t : Int → Option κ} {f g x : Int} (h : Pruned fds f g t) (hx : x = f ∨ x = g) :
    Pruned fds f g (update t x none) := by
  intro y
  by_cases hy : y = x
  · rw [hy, update_self]
    exact Or.inr ⟨hx, rfl⟩
  · rw [update_of_ne hy]
    exact h y

theorem Pruned.some {fds t : Int → Option κ} {f g x : Int} {c : κ} (h : Pruned fds f g t) (hx : t x = some c) :
    fds x = some c := by
  rcases h x with heq | ⟨-, hnone⟩
  · rw [← heq, hx]
  · rw [hnone] at hx
    cases hx

theorem Pruned.of_ne {fds t : Int → Option κ} {f g x : Int} (h : Pruned fds f g t) (hf : x ≠ f) (hg : x ≠ g) :
    t x = fds x := by
  rcases h x with heq | ⟨rfl | rfl, -⟩
  · exact heq
  · exact absurd rfl hf
  · exact absurd rfl hg

/-- The call closes no descriptor but `f` and `g`, and relays between these. -/
def Call.Within (f g : Int) : Call → Prop
  | .close fd => fd = f ∨ fd = g
  | .facilitateConnection clientFd serverFd => clientFd = f ∧ serverFd = g
  | _ => True

theorem Call.Within.pruned {c : Call} {fds t : Int → Option κ} {f g : Int} (hc : c.Within f g)
    (h : Pruned fds f g t) : Pruned fds f g (c.run t).1 := by
  cases c with
  | close fd =>
    simp only [Call.run]
    split
    · exact h.close hc
    · exact h
  | send fd msg =>
    simp only [Call.run]
    split <;> exact h
  | facilitateConnection clientFd serverFd =>
    simp only [Call.run]
    split <;> exact h
  | exit => exact h

theorem Relay.srcFd_or (r : Relay κ) (d : Dir) : r.srcFd d = r.clientFd ∨ r.srcFd d = r.serverFd := by
  cases d
  · exact Or.inl rfl
  · exact Or.inr rfl

theorem Relay.Moves.pruned [DecidableEq κ] {r r' : Relay κ} {net net' : Net κ} {d : Dir} {a : ThreadStep}
    {fds : Int → Option κ} (hm : Relay.Moves r net d a r' net') (h : Pruned fds r.clientFd r.serverFd r.fds) :
    Pruned fds r.clientFd r.serverFd r'.fds := by
  cases hm with
  | shutSrc => exact h.close (r.srcFd_or d)
  | shutDst => exact h.close (r.dstFd_eq d ▸ r.srcFd_or d.other)
  | _ => exact h

/-- A child forked with the table `fds` for a session between `f` and `g` still has the rest
of the table, and no call to come closes any of it. -/
def Stage.Inherits (fds : Int → Option κ) (f g : Int) : Stage κ → Prop
  | .calling t calls => (∀ c ∈ calls, c.Within f g) ∧ Pruned fds f g t
  | .relaying r calls => (∀ c ∈ calls, c.Within f g) ∧ r.clientFd = f ∧ r.serverFd = g ∧ Pruned fds f g r.fds
  | .exited => True

theorem Stage.Inherits.some {s : Stage κ} {fds : Int → Option κ} {f g x : Int} {c : κ} (h : s.Inherits fds f g)
    (hx : s.fds x = some c) : fds x = some c := by
  cases s with
  | calling t calls => exact h.2.some hx
  | relaying r calls => exact h.2.2.2.some hx
  | exited => cases hx

theorem Stage.Inherits.of_ne {s : Stage κ} {fds : Int → Option κ} {f g x : Int} (h : s.Inherits fds f g)
    (hs : s ≠ .exited) (hf : x ≠ f) (hg : x ≠ g) : s.fds x = fds x := by
  cases s with
  | calling t calls => exact h.2.of_ne hf hg
  | relaying r calls => exact h.2.2.2.of_ne hf hg
  | exited => exact absurd rfl hs

theorem Stage.Inherits.step [DecidableEq κ] {s s' : Stage κ} {net net' : Net κ} {a : ChildStep}
    {fds : Int → Option κ} {f g : Int} (h : s.Inherits fds f g) (hs : s.step net a = Option.some (s', net')) :
    s'.Inherits fds f g := by
  cases a with
  | killed =>
    cases hs
    trivial
  | join =>
    cases s with
    | relaying r calls =>
      simp only [Stage.step] at hs
      split_ifs at hs
      cases hs
      exact ⟨h.1, h.2.2.2⟩
    | _ => cases hs
  | thread d a =>
    cases s with
    | relaying r calls =>
      obtain ⟨⟨r', net''⟩, hr, heq⟩ := Option.map_eq_some_iff.mp hs
      cases heq
      have hm := Relay.step_moves hr
      obtain ⟨hends, -, -⟩ := hm.frame
      obtain ⟨hcalls, rfl, rfl, hp⟩ := h
      exact ⟨hcalls, hends.clientFd, hends.serverFd, hm.pruned hp⟩
    | _ => cases hs
  | call =>
    cases s with
    | calling t calls =>
      cases calls with
      | nil => cases hs
      | cons c calls =>
        obtain ⟨⟨hc, hcalls⟩, hp⟩ := h.imp List.forall_mem_cons.mp id
        cases c with
        | exit =>
          cases hs
          trivial
        | facilitateConnection clientFd serverFd =>
          simp only [Stage.step] at hs
          split at hs <;> cases hs
          · exact ⟨hcalls, hc.1, hc.2, hp⟩
          · exact ⟨hcalls, hp⟩
        | send fd msg =>
          cases hs
          exact ⟨hcalls, hc.pruned hp⟩
        | close fd =>
          cases hs
          exact ⟨hcalls, hc.pruned hp⟩
    | _ => cases hs

/-! ## What a fork copies -/

/-- The child was forked for a report `e` on a waiting client `w`, with a copy of the table
of then, and it spares all of it but their two descriptors. -/
def Child.Descends [DecidableEq κ] (h : List (Entry κ)) (k : Child κ) : Prop :=
  ∃ (e w : Entry κ) (s : Bytes) (fds : Int → Option κ), e :: k.born <:+ h ∧ e.conn = k.conn ∧ e.reports s ∧
    waiting k.born s = some w ∧ Filed (fun o => o = e ∨ Held k.born o) fds ∧ k.stage.Inherits fds w.fd e.fd

theorem Child.Descends.mono [DecidableEq κ] {h h' : List (Entry κ)} {k : Child κ} (hk : k.Descends h)
    (hs : h <:+ h') : k.Descends h' := by
  obtain ⟨e, w, s, fds, hsuf, hrest⟩ := hk
  exact ⟨e, w, s, fds, hsuf.trans hs, hrest⟩

/-- Only a report on a waiting client forks, and one child. -/
theorem forked_dispatch {s : Server} {fd : Fd} {m : Message} {forked : Bool} {fds t : Int → Option κ}
    {calls : List Call} (h : (t, calls) ∈ Effect.forked fds (s.dispatch fd m forked).2) :
    m.nodeId ∈ s.pendingConnections ∧ t = fds ∧ ∃ success, m.kind = some (Broker.reportKind success) ∧
      calls = notifyClient (atoi m.nodeId) fd success := by
  obtain ⟨kind, id⟩ := m
  have hreport : ∀ success, (t, calls) ∈ Effect.forked fds
      ((s.updateConnectionStatus id fd success forked).2 ++ [.call (.close fd)]) →
      id ∈ s.pendingConnections ∧ t = fds ∧ calls = notifyClient (atoi id) fd success := by
    intro success h
    by_cases hp : id ∈ s.pendingConnections
    · cases forked <;> simp [updateConnectionStatus, hp, Effect.forked] at h
      exact ⟨hp, h⟩
    · simp [updateConnectionStatus, hp, Effect.forked] at h
  rcases kind with _ | _ | _ | _ | _ | _
  case some.connectionCreated =>
    obtain ⟨hp, ht, hc⟩ := hreport true h
    exact ⟨hp, ht, true, rfl, hc⟩
  case some.connectionFailed =>
    obtain ⟨hp, ht, hc⟩ := hreport false h
    exact ⟨hp, ht, false, rfl, hc⟩
  case none => simp [dispatch, Effect.forked] at h
  all_goals
    simp only [dispatch] at h
    split at h <;> simp [Effect.forked] at h

theorem notifyClient_within (f g : Int) (success : Bool) : ∀ c ∈ notifyClient f g success, c.Within f g := by
  cases success <;> simp [notifyClient, Call.Within]

variable [DecidableEq κ]

theorem forks_descend {b b' : Broker κ} {a : Accepted κ} (h : Tracked b) (hs : b.accept a = some b') :
    ∀ k ∈ b.forks a, k.Descends b'.history := by
  intro k hk
  obtain ⟨hfd, -, ht⟩ := accept_turn hs
  unfold forks at hk
  cases ht with
  | unread hr =>
    rw [hr] at hk
    cases hk
  | @untyped buf hr hm =>
    rw [hr] at hk
    cases hh : b.server.handleRequest a.fd (.bytes buf) a.forked with
    | error e =>
      rw [hh] at hk
      cases hk
    | ok r =>
      obtain rfl := handleRequest_untyped hm hh
      rw [hh] at hk
      cases hk
  | @typed buf m hr hm =>
    rw [hr, handleRequest_typed hm] at hk
    obtain ⟨⟨t, calls⟩, hin, rfl⟩ := List.mem_map.mp hk
    obtain ⟨hp, rfl, success, hkind, rfl⟩ := forked_dispatch hin
    obtain ⟨f, c, hf, ho⟩ := h.sound.kept.tablesOpen.pending _ hp
    rw [hf] at hp
    obtain ⟨w, hw, rfl, -⟩ := h.sound.kept.waiting_of_pending hp ho
    have hrep : ∀ ev, (Entry.mk a.conn a.fd (some m) ev).reports w.fd.toString := by
      intro ev
      obtain ⟨kind, id⟩ := m
      cases hkind
      cases hf
      cases success
      · exact Or.inr rfl
      · exact Or.inl rfl
    refine ⟨_, w, w.fd.toString, update b.fds a.fd (some a.conn), List.suffix_rfl, rfl, hrep _, hw, ?_, ?_⟩
    · exact h.filed.opened (e := ⟨a.conn, a.fd, some m, _⟩) hfd fun _ => Iff.rfl
    · show (∀ c ∈ notifyClient (atoi m.nodeId) a.fd success, c.Within w.fd a.fd) ∧ _
      rw [hf, atoi_toString]
      exact ⟨notifyClient_within _ _ success, Pruned.refl _ _ _⟩

namespace Processes

/-- What each step of the processes keeps. -/
structure Inherited (p : Processes κ) : Prop where
  tracked : Tracked p.parent
  descends : ∀ k ∈ p.children, k.Descends p.parent.history

theorem inherited_init : Inherited (init : Processes κ) := ⟨tracked_init, fun _ hk => absurd hk List.not_mem_nil⟩

theorem step_inherited {p p' : Processes κ} {a : ProcessStep κ} (h : Inherited p) (hs : p.step a = some p') :
    Inherited p' := by
  cases a with
  | peer c d bytes =>
    cases hs
    exact ⟨h.tracked, h.descends⟩
  | parent a =>
    obtain ⟨b, hb, rfl⟩ := Option.map_eq_some_iff.mp hs
    refine ⟨turn_tracked h.tracked hb, ?_⟩
    intro k hk
    rcases List.mem_append.mp hk with hk | hk
    · obtain ⟨-, -, ht⟩ := accept_turn hb
      have hsuf : p.parent.history <:+ b.history := by cases ht <;> exact List.suffix_cons ..
      exact (h.descends k hk).mono hsuf
    · exact forks_descend h.tracked hb k hk
  | child j a =>
    simp only [step] at hs
    split at hs
    · cases hs
    · next k hj =>
      obtain ⟨⟨s, net⟩, hstep, rfl⟩ := Option.map_eq_some_iff.mp hs
      refine ⟨h.tracked, ?_⟩
      intro k' hk'
      rcases List.mem_or_eq_of_mem_set hk' with hk' | rfl
      · exact h.descends k' hk'
      · obtain ⟨e, w, x, fds, hsuf, hc, hrep, hw, hf, hinh⟩ := h.descends k (List.mem_of_getElem? hj)
        exact ⟨e, w, x, fds, hsuf, hc, hrep, hw, hf, hinh.step hstep⟩

/-- In every run. -/
theorem inherited_run {as : List (ProcessStep κ)} {p : Processes κ} (h : Transition.exec step init as = some p) :
    Inherited p :=
  Transition.exec_invariant (fun _ _ _ => step_inherited) inherited_init h

end Processes

end VirtualSocket
