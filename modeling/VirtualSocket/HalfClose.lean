import VirtualSocket.Relay

/- Two finite streams through `facilitateConnection`, each ended by a peer that still
   reads, and nothing failing. `relay_complete_iff`: both get through whole exactly
   when each thread that starts closing finds the other direction drained. A thread
   whose stream has ended closes both descriptors at once, so the other stream is cut
   off wherever it stands. -/
namespace VirtualSocket
open Function

/-- The two connections of a relay. -/
inductive Peer where
  | client
  | server
  deriving DecidableEq

namespace Relay

/-- The streams that come in. -/
def stream (fromClient fromServer : Bytes) : Dir → Bytes
  | .toServer => fromClient
  | .toClient => fromServer

/-- The relay and the streams as the threads start: what will come in is in flight. -/
def started (clientFd serverFd : Int) (fromClient fromServer : Bytes) : Relay Peer × Net Peer :=
  (facilitateConnection (update (update (fun _ => none) clientFd (some .client)) serverFd (some .server))
      clientFd serverFd .client .server,
    fun
      | .client, .toServer => ⟨[], fromClient⟩
      | .server, .toClient => ⟨[], fromServer⟩
      | _, _ => .empty)

/-- No socket fails: `recv` ends only with the stream, and `send` takes the chunk. -/
def Faultless (r : Relay Peer) (net : Net Peer) (d : Dir) : ThreadStep → Prop
  | .stop => ∀ c ∈ (r.thread d).socket, (net c d).inFlight = []
  | .send ok => ok = true
  | .recv | .chunk _ | .close => True

instance (r : Relay Peer) (net : Net Peer) (d : Dir) : (a : ThreadStep) → Decidable (Faultless r net d a)
  | .stop => inferInstanceAs (Decidable (∀ c ∈ (r.thread d).socket, _))
  | .send _ => inferInstanceAs (Decidable (_ = _))
  | .recv | .chunk _ | .close => inferInstanceAs (Decidable True)

def faultlessStep (s : Relay Peer × Net Peer) (a : Dir × ThreadStep) : Option (Relay Peer × Net Peer) :=
  if Faultless s.1 s.2 a.1 a.2 then s.1.step s.2 a.1 a.2 else none

def Returned (r : Relay Peer) : Prop := r.thread .toServer = .returned ∧ r.thread .toClient = .returned

instance (r : Relay Peer) : Decidable (Returned r) := inferInstanceAs (Decidable (_ ∧ _))

/-- Every byte of both streams has been sent on. -/
def Complete (fromClient fromServer : Bytes) (net : Net Peer) : Prop :=
  (net .server .toServer).written = fromClient ∧ (net .client .toClient).written = fromServer

instance (fromClient fromServer : Bytes) (net : Net Peer) : Decidable (Complete fromClient fromServer net) :=
  inferInstanceAs (Decidable (_ ∧ _))

/-- All of a direction's stream has been received, and no chunk of it is in hand. -/
def Drained (r : Relay Peer) (net : Net Peer) (d : Dir) : Prop :=
  (net (r.src d) d).inFlight = [] ∧ (r.thread d).inHand = none

/-- A thread that starts closing finds the other direction drained. -/
def LastOut (s : Relay Peer × Net Peer) (a : Dir × ThreadStep) : Prop :=
  a.2 = .close → s.1.thread a.1 = .closingSrc → Drained s.1 s.2 a.1.other

/-! ## In every run -/

section
variable {clientFd serverFd : Int} {fromClient fromServer : Bytes} {r r' : Relay Peer} {net net' : Net Peer}
  {d : Dir} {a : ThreadStep}

/-- What no step changes, and the flow of both directions. -/
structure Started (fromClient fromServer : Bytes) (r : Relay Peer) (net : Net Peer) : Prop where
  client : r.client = .client
  server : r.server = .server
  bound : r.Bound
  flow : ∀ d, r.Flow net d
  source : ∀ d, (net (r.src d) d).written = stream fromClient fromServer d

theorem started_fds (hfd : clientFd ≠ serverFd) (d : Dir) :
    (started clientFd serverFd fromClient fromServer).1.fds
        ((started clientFd serverFd fromClient fromServer).1.srcFd d) =
      some ((started clientFd serverFd fromClient fromServer).1.src d) := by
  cases d
  · exact (update_of_ne hfd ..).trans (update_self ..)
  · exact update_self ..

theorem started_init (hfd : clientFd ≠ serverFd) :
    Started fromClient fromServer (started clientFd serverFd fromClient fromServer).1
      (started clientFd serverFd fromClient fromServer).2 where
  client := rfl
  server := rfl
  bound := bound_facilitate ((update_of_ne hfd ..).trans (update_self ..)) (update_self ..)
  flow d := by cases d <;> rfl
  source d := by cases d <;> rfl

theorem faultlessStep_some {s s' : Relay Peer × Net Peer} {a : Dir × ThreadStep}
    (h : faultlessStep s a = some s') :
    Faultless s.1 s.2 a.1 a.2 ∧ Moves s.1 s.2 a.1 a.2 s'.1 s'.2 := by
  unfold faultlessStep at h
  split_ifs at h with hf
  exact ⟨hf, step_moves h⟩

theorem Started.src_ne_dst (h : Started fromClient fromServer r net) (d : Dir) : r.src d ≠ r.dst d := by
  cases d <;> simp [src, dst, h.client, h.server]

theorem started_moves (h : Started fromClient fromServer r net) (hm : Moves r net d a r' net') :
    Started fromClient fromServer r' net' := by
  obtain ⟨hends, -, -⟩ := hm.frame
  refine ⟨hends.client.trans h.client, hends.server.trans h.server, hm.bound h.bound,
    hm.flow h.bound h.flow, ?_⟩
  intro d'
  rw [(hends.ends d').1, (hm.net h.bound).2.1 _ _ ?_]
  · exact h.source d'
  · rintro ⟨hc, rfl⟩
    exact h.src_ne_dst _ hc

/-! ## When every thread that closes is the last out -/

/-- A thread leaves its loop when its stream is through, and the descriptors are closed
when both are. -/
structure Orderly (r : Relay Peer) (net : Net Peer) : Prop where
  through : ∀ d, (r.thread d).Left →
    (net (r.src d) d).inFlight = [] ∧ (net (r.dst d) d).written = (net (r.src d) d).taken
  shut : ∀ d, r.thread d = .closingDst ∨ r.thread d = .returned → r.fds (r.srcFd d) = none
  drained : ∀ d, r.fds (r.srcFd d) = none → ∀ d', Drained r net d'

/-- Nothing happens on a drained direction. -/
theorem drained_moves (hb : r.Bound) (hm : Moves r net d a r' net') {d' : Dir} (h : Drained r net d') :
    Drained r' net' d' := by
  obtain ⟨hends, hthread, -⟩ := hm.frame
  obtain ⟨hflight, hhand⟩ := h
  unfold Drained
  rw [(hends.ends d').1]
  by_cases hd : d' = d
  · subst hd
    cases hm with
    | took ht hn =>
      obtain rfl := hb.blocked d' _ ht
      rw [hflight, List.length_nil] at hn
      omega
    | sent ht => simp [ht, Thread.inHand] at hhand
    | _ => exact ⟨hflight, by simp [Thread.inHand]⟩
  · rw [(hm.net hb).2.2 _ _ hd, hthread d' hd]
    exact ⟨hflight, hhand⟩

/-- The descriptors a step leaves closed were closed before, or the thread closes its own source. -/
theorem shut_moves (hm : Moves r net d a r' net') {d' : Dir} (hnone : r'.fds (r'.srcFd d') = none) :
    (∃ e, r.fds (r.srcFd e) = none) ∨ r.thread d = .closingSrc ∧ a = .close ∨ r.thread d = .closingDst := by
  obtain ⟨hends, -, -⟩ := hm.frame
  rw [(hends.fds d').1] at hnone
  cases hm with
  | shutSrc ht => exact Or.inr (Or.inl ⟨ht, rfl⟩)
  | shutDst ht => exact Or.inr (Or.inr ht)
  | _ => exact Or.inl ⟨d', hnone⟩

theorem orderly_moves (h : Started fromClient fromServer r net) (ho : Orderly r net)
    (hl : LastOut (r, net) (d, a)) (hf : Faultless r net d a) (hm : Moves r net d a r' net') :
    Orderly r' net' := by
  obtain ⟨hends, hthread, hfds⟩ := hm.frame
  have hnet := (hm.net h.bound).2.2
  have hflow := h.flow d
  have hnone : ∀ fd, r.fds fd = none → r'.fds fd = none := by
    intro fd hfd
    cases hfd' : r'.fds fd with
    | none => rfl
    | some c => exact absurd (hfd.symm.trans (hfds fd c hfd')) nofun
  refine ⟨?_, ?_, fun d' hshut e => drained_moves h.bound hm ?_⟩
  · intro d' hleft
    rw [(hends.ends d').1, (hends.ends d').2]
    by_cases hd : d' = d
    · subst hd
      cases hm with
      | entered | took | sent => simp [Thread.Left] at hleft
      | srcShut ht hc => exact ⟨(ho.drained d' hc d').1, hflow.of_looping (Or.inl ht)⟩
      | ended ht =>
        obtain rfl := h.bound.blocked d' _ ht
        exact ⟨hf _ (by rw [ht]; rfl), hflow.of_looping (Or.inr ⟨_, ht⟩)⟩
      | unsent ht hc =>
        -- the destination is still open, since this direction is not drained
        have hhand := (ho.drained _ (dstFd_eq r d' ▸ hc hf) d').2
        rw [ht] at hhand
        cases hhand
      | shutSrc ht | shutDst ht => exact ho.through d' (by rw [ht]; trivial)
    · rw [hnet _ _ hd, hnet _ _ hd]
      rw [hthread d' hd] at hleft
      exact ho.through d' hleft
  · intro d' ht
    rw [(hends.fds d').1]
    by_cases hd : d' = d
    · subst hd
      cases hm with
      | shutSrc => exact update_self ..
      | shutDst hc => exact hnone _ (ho.shut d' (Or.inl hc))
      | _ => simp at ht
    · exact hnone _ (ho.shut d' (hthread d' hd ▸ ht))
  · rcases shut_moves hm hshut with ⟨e', he'⟩ | ⟨ht, rfl⟩ | ht
    · exact ho.drained e' he' e
    · -- its own stream is through, and the condition says the other is
      by_cases he : e = d
      · subst he
        exact ⟨(ho.through e (by rw [ht]; trivial)).1, by rw [ht]; rfl⟩
      · have hother : e = d.other := by cases e <;> cases d <;> first | rfl | exact absurd rfl he
        exact hother ▸ hl rfl ht
    · exact ho.drained d (ho.shut d (Or.inl ht)) e

/-! ## When one is not -/

/-- Some of a direction's stream is not sent on, and its destination is closed. -/
structure CutOff (fromClient fromServer : Bytes) (d : Dir) (r : Relay Peer) (net : Net Peer) : Prop where
  closed : r.fds (r.dstFd d) = none
  short : (net (r.dst d) d).written.length < (stream fromClient fromServer d).length

theorem cutOff_moves {e : Dir} (h : Started fromClient fromServer r net)
    (hc : CutOff fromClient fromServer e r net) (hm : Moves r net d a r' net') :
    CutOff fromClient fromServer e r' net' := by
  obtain ⟨hends, -, hfds⟩ := hm.frame
  refine ⟨?_, ?_⟩
  · rw [(hends.fds e).2]
    cases hfd : r'.fds (r.dstFd e) with
    | none => rfl
    | some c => exact absurd (hc.closed.symm.trans (hfds _ c hfd)) nofun
  · rw [(hends.ends e).2]
    by_cases he : e = d
    · subst he
      cases hm with
      | sent ht hopen => exact absurd (hc.closed.symm.trans hopen) nofun
      | took => rw [Net.take_written]; exact hc.short
      | _ => exact hc.short
    · rw [(hm.net h.bound).2.2 _ _ he]
      exact hc.short

/-- A direction that is not drained has something left to send. -/
theorem Started.short (h : Started fromClient fromServer r net) (hd : ¬ Drained r net d) :
    (net (r.dst d) d).written.length < (stream fromClient fromServer d).length := by
  have hlen : (stream fromClient fromServer d).length =
      (net (r.src d) d).taken.length + (net (r.src d) d).inFlight.length := by
    rw [← h.source d, Pipe.written, List.length_append]
  have hle := (h.flow d).feeds.length_le
  by_cases hflight : (net (r.src d) d).inFlight = []
  · have hhand : (r.thread d).inHand ≠ none := fun hnone => hd ⟨hflight, hnone⟩
    cases ht : r.thread d with
    | sending chunk =>
      obtain ⟨hne, heq⟩ := (h.flow d).of_sending ht
      have hchunk := List.length_pos_of_ne_nil hne
      have := congrArg List.length heq
      rw [List.length_append] at this
      omega
    | _ => simp [ht, Thread.inHand] at hhand
  · have := List.length_pos_of_ne_nil hflight
    omega

theorem cutOff_of_not_lastOut (h : Started fromClient fromServer r net) (hl : ¬ LastOut (r, net) (d, a))
    (hm : Moves r net d a r' net') : CutOff fromClient fromServer d.other r' net' := by
  simp only [LastOut, Classical.not_imp] at hl
  obtain ⟨rfl, ht, hd⟩ := hl
  have hshort := h.short hd
  cases hm with
  | shutSrc =>
    refine ⟨?_, hshort⟩
    have hdst : ((r.shut (r.srcFd d)).goto d .closingDst).dstFd d.other = r.srcFd d := by cases d <;> rfl
    rw [hdst]
    exact update_self ..
  | shutDst ht' => exact absurd (ht.symm.trans ht') nofun

end

/-! ## Runs -/

section
variable {clientFd serverFd : Int} {fromClient fromServer : Bytes} {as : List (Dir × ThreadStep)}
  {s t : Relay Peer × Net Peer}

theorem complete_iff (h : Started fromClient fromServer s.1 s.2) : Complete fromClient fromServer s.2 ↔
    ∀ d, (s.2 (s.1.dst d) d).written = stream fromClient fromServer d := by
  have hserver : s.1.dst .toServer = .server := h.server
  have hclient : s.1.dst .toClient = .client := h.client
  constructor
  · rintro ⟨h1, h2⟩ (_ | _)
    · rw [hserver, h1]
      rfl
    · rw [hclient, h2]
      rfl
  · exact fun hall => ⟨hserver ▸ hall .toServer, hclient ▸ hall .toClient⟩

/-- What is cut off stays cut off. -/
theorem incomplete_of_cutOff {e : Dir} (hs : Started fromClient fromServer s.1 s.2)
    (hc : CutOff fromClient fromServer e s.1 s.2) (h : Transition.exec faultlessStep s as = some t) :
    ¬ Complete fromClient fromServer t.2 := by
  have hstep : ∀ (u : Relay Peer × Net Peer) a u', Started fromClient fromServer u.1 u.2 ∧
      CutOff fromClient fromServer e u.1 u.2 → faultlessStep u a = some u' →
      Started fromClient fromServer u'.1 u'.2 ∧ CutOff fromClient fromServer e u'.1 u'.2 :=
    fun u a u' hu hu' => ⟨started_moves hu.1 (faultlessStep_some hu').2,
      cutOff_moves hu.1 hu.2 (faultlessStep_some hu').2⟩
  obtain ⟨hstarted, hcut⟩ := Transition.exec_invariant hstep ⟨hs, hc⟩ h
  intro hcomplete
  have hwhole := (complete_iff hstarted).mp hcomplete e
  exact absurd (congrArg List.length hwhole) (Nat.ne_of_lt hcut.short)

/-- A run that ends with both streams sent on has had no thread cut the other off. -/
theorem along_of_complete (hs : Started fromClient fromServer s.1 s.2)
    (h : Transition.exec faultlessStep s as = some t) (hc : Complete fromClient fromServer t.2) :
    Transition.Along faultlessStep LastOut s as := by
  induction as generalizing s with
  | nil => trivial
  | cons a as ih =>
    obtain ⟨s', h1, h2⟩ := Transition.exec_cons.mp h
    have hm := (faultlessStep_some h1).2
    have hs' := started_moves hs hm
    refine ⟨?_, ?_⟩
    · by_contra hl
      exact incomplete_of_cutOff hs' (cutOff_of_not_lastOut hs hl hm) h2 hc
    · intro s'' h''
      obtain rfl := Option.some.inj (h1.symm.trans h'')
      exact ih hs' h2

theorem orderly_init (hfd : clientFd ≠ serverFd) : Orderly (started clientFd serverFd fromClient fromServer).1
    (started clientFd serverFd fromClient fromServer).2 where
  through _ hleft := nomatch hleft
  shut _ ht := ht.elim nofun nofun
  drained d hnone := absurd ((started_fds hfd d).symm.trans hnone) nofun

/-- Of complete runs without a fault, both streams get through in those, and only
those, in which each thread that closes is the last out. -/
theorem relay_complete_iff (hfd : clientFd ≠ serverFd)
    (h : Transition.exec faultlessStep (started clientFd serverFd fromClient fromServer) as = some s)
    (hdone : Returned s.1) : Complete fromClient fromServer s.2 ↔
      Transition.Along faultlessStep LastOut (started clientFd serverFd fromClient fromServer) as := by
  refine ⟨along_of_complete (started_init hfd) h, ?_⟩
  intro hl
  have hstep : ∀ (u : Relay Peer × Net Peer) a u', Started fromClient fromServer u.1 u.2 ∧ Orderly u.1 u.2 →
      LastOut u a → faultlessStep u a = some u' →
      Started fromClient fromServer u'.1 u'.2 ∧ Orderly u'.1 u'.2 := by
    intro u a u' hu hl hu'
    obtain ⟨hf, hm⟩ := faultlessStep_some hu'
    exact ⟨started_moves hu.1 hm, orderly_moves hu.1 hu.2 hl hf hm⟩
  obtain ⟨hstarted, horderly⟩ :=
    Transition.exec_invariant_along hstep ⟨started_init hfd, orderly_init hfd⟩ hl h
  apply (complete_iff hstarted).mpr
  intro d
  have hleft : (s.1.thread d).Left := by
    cases d
    · rw [hdone.1]; trivial
    · rw [hdone.2]; trivial
  obtain ⟨hflight, heq⟩ := horderly.through d hleft
  rw [heq, Pipe.taken_of_empty hflight, hstarted.source d]

end

/-- Either thread passes its stream on and finds it ended before one of them closes. -/
def inTurn : List (Dir × ThreadStep) :=
  [(.toServer, .recv), (.toClient, .recv), (.toServer, .chunk 2), (.toServer, .send true),
    (.toClient, .chunk 3), (.toClient, .send true), (.toServer, .recv), (.toClient, .recv),
    (.toServer, .stop), (.toClient, .stop), (.toServer, .close), (.toServer, .close),
    (.toClient, .close), (.toClient, .close)]

theorem relay_complete_inTurn :
    ∃ s, Transition.exec faultlessStep (started 4 5 (str "hi") (str "you")) inTurn = some s ∧ Returned s.1 ∧
      (Complete (str "hi") (str "you") s.2 ↔
        Transition.Along faultlessStep LastOut (started 4 5 (str "hi") (str "you")) inTurn) := by
  have hs : ∃ s ∈ Transition.exec faultlessStep (started 4 5 (str "hi") (str "you")) inTurn, Returned s.1 := by
    decide +kernel
  obtain ⟨s, hs, hdone⟩ := hs
  exact ⟨s, hs, hdone, relay_complete_iff (by decide) hs hdone⟩

/-- The client sends nothing and is done; the thread of its direction closes both
descriptors while the answer is still to come. -/
def oneSided : List (Dir × ThreadStep) :=
  [(.toServer, .recv), (.toServer, .stop), (.toServer, .close), (.toServer, .close), (.toClient, .recv),
    (.toClient, .close), (.toClient, .close)]

theorem relay_incomplete_oneSided :
    ∃ s ∈ Transition.exec faultlessStep (started 4 5 [] (str "you")) oneSided,
      Returned s.1 ∧ ¬ Complete [] (str "you") s.2 := by
  decide +kernel

end Relay

end VirtualSocket
