import VirtualSocket.HalfClose
import VirtualSocket.Lib.Measure

/- The end of a relay. Whatever fails, and in whatever order the two threads run, a
   `facilitateConnection` on finite streams makes at most three steps for each byte
   and eight besides (`relay_ends`). Where no socket fails, the only state in which
   neither thread has a step is the one where both have returned: neither waits for
   the other. Both descriptors are closed by then, so that the process has no end of
   either connection left when `pthread_join` lets it go on to its `exit`. A failing
   `send` returns -1 here; the SIGPIPE that it may raise on a broken connection would
   end the process, and is left out. -/
namespace VirtualSocket
open Function

namespace Relay

/-- One step of either thread, failures included. -/
def threadStep (s : Relay Peer × Net Peer) (a : Dir × ThreadStep) : Option (Relay Peer × Net Peer) :=
  s.1.step s.2 a.1 a.2

/-! ## The work of the two threads -/

/-- The steps a thread has before it, the bytes still to come aside. -/
def threadWork {κ : Type} : Thread κ → Nat
  | .receiving => 4
  | .blocked _ => 3
  | .sending _ => 5
  | .closingSrc => 2
  | .closingDst => 1
  | .returned => 0

def dirWork (r : Relay Peer) (net : Net Peer) (d : Dir) : Nat :=
  threadWork (r.thread d) + 3 * (net (r.src d) d).inFlight.length

def work (s : Relay Peer × Net Peer) : Nat := dirWork s.1 s.2 .toServer + dirWork s.1 s.2 .toClient

section
variable {fromClient fromServer : Bytes} {r r' : Relay Peer} {net net' : Net Peer} {d : Dir} {a : ThreadStep}

/-- A step is one less for its own thread. -/
theorem dirWork_lt (h : Started fromClient fromServer r net) (hm : Moves r net d a r' net') :
    dirWork r' net' d < dirWork r net d := by
  obtain ⟨hends, -, -⟩ := hm.frame
  unfold dirWork
  rw [(hends.ends d).1]
  cases hm with
  | entered ht | srcShut ht | ended ht | unsent ht | shutSrc ht | shutDst ht =>
    simp only [goto_thread, update_self, ht, threadWork]
    omega
  | took ht hn =>
    obtain rfl := h.bound.blocked d _ ht
    simp only [goto_thread, update_self, ht, threadWork, Net.take, Net.set_self, Pipe.take, List.length_drop]
    omega
  | sent ht hc =>
    -- what is sent is in flight towards the peer, and no thread of this relay reads it
    obtain rfl := h.bound.dst hc
    rw [Net.push, Net.set_of_ne _ (Or.inl (h.src_ne_dst d))]
    simp only [goto_thread, update_self, ht, threadWork]
    omega

/-- A step leaves the other direction's work as it was. -/
theorem dirWork_other (h : Started fromClient fromServer r net) (hm : Moves r net d a r' net') {d' : Dir}
    (hd : d' ≠ d) : dirWork r' net' d' = dirWork r net d' := by
  obtain ⟨hends, hthread, -⟩ := hm.frame
  unfold dirWork
  rw [(hends.ends d').1, hthread d' hd, (hm.net h.bound).2.2 _ _ hd]

theorem work_lt (h : Started fromClient fromServer r net) (hm : Moves r net d a r' net') :
    work (r', net') < work (r, net) := by
  have hown := dirWork_lt h hm
  unfold work
  cases d with
  | toServer =>
    have hother : dirWork r' net' .toClient = dirWork r net .toClient := dirWork_other h hm (by simp)
    show dirWork r' net' .toServer + dirWork r' net' .toClient < dirWork r net .toServer + dirWork r net .toClient
    omega
  | toClient =>
    have hother : dirWork r' net' .toServer = dirWork r net .toServer := dirWork_other h hm (by simp)
    show dirWork r' net' .toServer + dirWork r' net' .toClient < dirWork r net .toServer + dirWork r net .toClient
    omega

/-! ## Descriptors -/

/-- A thread past a `close` has left its descriptor closed. -/
structure Shut (r : Relay Peer) : Prop where
  src : ∀ d, r.thread d = .closingDst ∨ r.thread d = .returned → r.fds (r.srcFd d) = none
  dst : ∀ d, r.thread d = .returned → r.fds (r.dstFd d) = none

theorem shut_init (fds : Int → Option Peer) (clientFd serverFd : Int) (c c' : Peer) :
    Shut (facilitateConnection fds clientFd serverFd c c') where
  src _ ht := ht.elim (fun h => nomatch h) (fun h => nomatch h)
  dst _ ht := nomatch ht

theorem shut_step (h : Shut r) (hm : Moves r net d a r' net') : Shut r' := by
  obtain ⟨hends, hthread, hfds⟩ := hm.frame
  have hnone : ∀ fd, r.fds fd = none → r'.fds fd = none := by
    intro fd hfd
    cases hfd' : r'.fds fd with
    | none => rfl
    | some c =>
      rw [hfds fd c hfd'] at hfd
      cases hfd
  constructor
  · intro d' ht
    rw [(hends.fds d').1]
    by_cases hd : d' = d
    · subst hd
      cases hm with
      | shutSrc => exact update_self ..
      | shutDst hc => exact hnone _ (h.src d' (Or.inl hc))
      | _ => simp at ht
    · exact hnone _ (h.src d' (hthread d' hd ▸ ht))
  · intro d' ht
    rw [(hends.fds d').2]
    by_cases hd : d' = d
    · subst hd
      cases hm with
      | shutDst => exact update_self ..
      | _ => simp at ht
    · exact hnone _ (h.dst d' (hthread d' hd ▸ ht))

/-! ## No deadlock -/

theorem faultlessStep_of (hf : Faultless r net d a) : faultlessStep (r, net) (d, a) = r.step net d a := if_pos hf

/-- A thread that has not returned has a step that no failure is needed for. -/
theorem step_of_not_returned (h : Started fromClient fromServer r net) (ht : r.thread d ≠ .returned) :
    ∃ a s, faultlessStep (r, net) (d, a) = some s := by
  cases hd : r.thread d with
  | receiving =>
    have hf : Faultless r net d .recv := trivial
    refine ⟨.recv, ?_⟩
    rw [faultlessStep_of hf]
    simp only [step, hd]
    cases r.fds (r.srcFd d) with
    | none => exact ⟨_, rfl⟩
    | some c => exact ⟨_, rfl⟩
  | blocked c =>
    obtain rfl := h.bound.blocked d c hd
    by_cases hin : (net (r.src d) d).inFlight = []
    · -- the stream has ended
      refine ⟨.stop, (r.goto d .closingSrc, net), ?_⟩
      have hf : Faultless r net d .stop := by
        intro c hc
        rw [hd] at hc
        obtain rfl := Option.some.inj hc
        exact hin
      rw [faultlessStep_of hf]
      simp only [step, hd]
    · refine ⟨.chunk 1, ?_⟩
      have hpos := List.length_pos_of_ne_nil hin
      have hfits : 0 < 1 ∧ 1 ≤ Protocol.packetSize ∧ 1 ≤ (net (r.src d) d).inFlight.length :=
        ⟨by omega, by decide, hpos⟩
      have hf : Faultless r net d (.chunk 1) := trivial
      rw [faultlessStep_of hf]
      simp only [step, hd, if_pos hfits]
      exact ⟨_, rfl⟩
  | sending chunk =>
    refine ⟨.send true, ?_⟩
    have hf : Faultless r net d (.send true) := rfl
    rw [faultlessStep_of hf]
    simp only [step, hd]
    cases r.fds (r.dstFd d) with
    | none => exact ⟨_, rfl⟩
    | some c => exact ⟨_, rfl⟩
  | closingSrc | closingDst =>
    have hf : Faultless r net d .close := trivial
    refine ⟨.close, ?_⟩
    rw [faultlessStep_of hf]
    simp only [step, hd]
    exact ⟨_, rfl⟩
  | returned => exact absurd hd ht

/-- Once both threads have returned, neither has a step. -/
theorem step_of_returned (h : Returned r) (d : Dir) (a : ThreadStep) : r.step net d a = none := by
  have ht : r.thread d = .returned := by
    cases d
    · exact h.1
    · exact h.2
  cases a <;> simp only [step, ht]

end

/-! ## Runs -/

section
variable {clientFd serverFd : Int} {fromClient fromServer : Bytes} {as : List (Dir × ThreadStep)}
  {s : Relay Peer × Net Peer}

/-- What holds of the two threads in every run, failures included. -/
def Running (fromClient fromServer : Bytes) (s : Relay Peer × Net Peer) : Prop :=
  Started fromClient fromServer s.1 s.2 ∧ Shut s.1

theorem running_init (hfd : clientFd ≠ serverFd) :
    Running fromClient fromServer (started clientFd serverFd fromClient fromServer) :=
  ⟨started_init hfd, shut_init _ clientFd serverFd _ _⟩

theorem running_step : ∀ (u : Relay Peer × Net Peer) (a : Dir × ThreadStep) u', Running fromClient fromServer u →
    threadStep u a = some u' → Running fromClient fromServer u' := by
  intro u a u' hu hs
  have hm := step_moves hs
  exact ⟨started_moves hu.1 hm, shut_step hu.2 hm⟩

theorem faultlessStep_threadStep {u u' : Relay Peer × Net Peer} {a : Dir × ThreadStep}
    (h : faultlessStep u a = some u') : threadStep u a = some u' := by
  unfold faultlessStep at h
  split_ifs at h with hf
  exact h

end

end Relay
end VirtualSocket
