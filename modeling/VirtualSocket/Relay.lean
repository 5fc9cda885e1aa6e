import Mathlib.Logic.Function.Basic
import VirtualSocket.Lib.Pipe
import VirtualSocket.Lib.Transition
import VirtualSocket.NetworkUtil

/- `facilitateConnection`: the two threads that run `exchangeData`, each on its own
   direction, and the descriptor table they share. A thread in `recv` stays on the
   socket it found even when the other thread closes the descriptor; a descriptor
   that has been closed makes the next `recv` or `send` on it fail, since the
   process opens no other. `exchangeData_turns` ties the steps of one thread to the
   function `exchangeData`; `Moves.flow` is what the steps of both keep, whatever
   fails: a direction writes out what it takes in, less the chunk in hand.

   Correspondence (C++ ↔ Lean):
     `recv` in the loop's condition ↔ `Thread.receiving`, `Thread.blocked`
     `send` in its body             ↔ `Thread.sending`
     `close(srcFd)`, `close(dstFd)` ↔ `Thread.closingSrc`, `Thread.closingDst` -/
namespace VirtualSocket
open Function Protocol

/-- The direction of a stream, and the thread that relays it. -/
inductive Dir where
  | toServer
  | toClient
  deriving DecidableEq

def Dir.other : Dir → Dir
  | toServer => toClient
  | toClient => toServer

/-- The streams of the connections, one for each direction. -/
abbrev Net (κ : Type) := κ → Dir → Pipe UInt8

/-- Where a thread stands in `exchangeData`: at `recv`, inside it, at `send`, at either
`close`, or done. -/
inductive Thread (κ : Type) where
  | receiving
  | blocked (c : κ)
  | sending (chunk : Bytes)
  | closingSrc
  | closingDst
  | returned
  deriving DecidableEq

/-- The socket a thread is in `recv` on. -/
def Thread.socket {κ : Type} : Thread κ → Option κ
  | .blocked c => some c
  | _ => none

/-- The thread has left its loop. -/
def Thread.Left {κ : Type} : Thread κ → Prop
  | .closingSrc | .closingDst | .returned => True
  | _ => False

/-- What a thread has received and not sent. -/
def Thread.inHand {κ : Type} : Thread κ → Option Bytes
  | .sending chunk => some chunk
  | _ => none

/-- A process in `facilitateConnection`. `client` and `server` are the connections its two
descriptors stood for when it started; no step reads them. -/
structure Relay (κ : Type) where
  fds : Int → Option κ
  clientFd : Int
  serverFd : Int
  client : κ
  server : κ
  thread : Dir → Thread κ

/-- A step of a thread. `stop` is a `recv` that gives 0 or -1, and `ok` says whether
`send` takes the chunk. -/
inductive ThreadStep where
  | recv
  | chunk (n : Nat)
  | stop
  | send (ok : Bool)
  | close
  deriving DecidableEq

namespace Relay

variable {κ : Type}

def srcFd (r : Relay κ) : Dir → Int
  | .toServer => r.clientFd
  | .toClient => r.serverFd

def dstFd (r : Relay κ) : Dir → Int
  | .toServer => r.serverFd
  | .toClient => r.clientFd

def src (r : Relay κ) : Dir → κ
  | .toServer => r.client
  | .toClient => r.server

def dst (r : Relay κ) : Dir → κ
  | .toServer => r.server
  | .toClient => r.client

def facilitateConnection (fds : Int → Option κ) (clientFd serverFd : Int) (client server : κ) : Relay κ :=
  ⟨fds, clientFd, serverFd, client, server, fun _ => .receiving⟩

def goto (r : Relay κ) (d : Dir) (t : Thread κ) : Relay κ := { r with thread := update r.thread d t }

def shut (r : Relay κ) (fd : Int) : Relay κ := { r with fds := update r.fds fd none }

@[simp] theorem goto_thread (r : Relay κ) (d : Dir) (t : Thread κ) :
    (r.goto d t).thread = update r.thread d t := rfl

@[simp] theorem goto_fds (r : Relay κ) (d : Dir) (t : Thread κ) : (r.goto d t).fds = r.fds := rfl

@[simp] theorem goto_goto (r : Relay κ) (d : Dir) (t t' : Thread κ) : (r.goto d t).goto d t' = r.goto d t' := by
  simp only [goto, update_idem]

@[simp] theorem shut_thread (r : Relay κ) (fd : Int) : (r.shut fd).thread = r.thread := rfl

@[simp] theorem shut_fds (r : Relay κ) (fd : Int) : (r.shut fd).fds = update r.fds fd none := rfl

/-- Both relays are between the same descriptors, standing for the same connections. -/
structure SameEnds (r r' : Relay κ) : Prop where
  clientFd : r'.clientFd = r.clientFd
  serverFd : r'.serverFd = r.serverFd
  client : r'.client = r.client
  server : r'.server = r.server

theorem SameEnds.refl (r : Relay κ) : SameEnds r r := ⟨rfl, rfl, rfl, rfl⟩

theorem SameEnds.fds {r r' : Relay κ} (h : SameEnds r r') (d : Dir) :
    r'.srcFd d = r.srcFd d ∧ r'.dstFd d = r.dstFd d := by
  cases d <;> exact ⟨by simp [srcFd, h.clientFd, h.serverFd], by simp [dstFd, h.clientFd, h.serverFd]⟩

theorem SameEnds.ends {r r' : Relay κ} (h : SameEnds r r') (d : Dir) : r'.src d = r.src d ∧ r'.dst d = r.dst d := by
  cases d <;> exact ⟨by simp [src, h.client, h.server], by simp [dst, h.client, h.server]⟩

end Relay

variable {κ : Type} [DecidableEq κ]

/-- One stream of a connection changes. -/
def Net.set (net : Net κ) (c : κ) (d : Dir) (p : Pipe UInt8) : Net κ := update net c (update (net c) d p)

def Net.take (net : Net κ) (c : κ) (d : Dir) (n : Nat) : Net κ := net.set c d ((net c d).take n)

def Net.push (net : Net κ) (c : κ) (d : Dir) (chunk : Bytes) : Net κ := net.set c d ((net c d).push chunk)

theorem Net.set_self (net : Net κ) (c : κ) (d : Dir) (p : Pipe UInt8) : net.set c d p c d = p := by
  simp [Net.set]

theorem Net.set_of_ne (net : Net κ) {c c' : κ} {d d' : Dir} (h : c' ≠ c ∨ d' ≠ d) (p : Pipe UInt8) :
    net.set c d p c' d' = net c' d' := by
  by_cases hc : c' = c
  · subst hc
    simp [Net.set, h.resolve_left fun hne => hne rfl]
  · simp [Net.set, hc]

@[simp] theorem Net.take_written (net : Net κ) (c c' : κ) (d d' : Dir) (n : Nat) :
    (net.take c d n c' d').written = (net c' d').written := by
  by_cases h : c' = c ∧ d' = d
  · obtain ⟨rfl, rfl⟩ := h
    rw [Net.take, Net.set_self, Pipe.take_written]
  · rw [Net.take, Net.set_of_ne net (by grind)]

@[simp] theorem Net.push_taken (net : Net κ) (c c' : κ) (d d' : Dir) (chunk : Bytes) :
    (net.push c d chunk c' d').taken = (net c' d').taken := by
  by_cases h : c' = c ∧ d' = d
  · obtain ⟨rfl, rfl⟩ := h
    rw [Net.push, Net.set_self, Pipe.push_taken]
  · rw [Net.push, Net.set_of_ne net (by grind)]

@[simp] theorem Net.take_taken (net : Net κ) (c : κ) (d : Dir) (n : Nat) :
    (net.take c d n c d).taken = (net c d).taken ++ (net c d).inFlight.take n := by
  rw [Net.take, Net.set_self, Pipe.take_taken]

@[simp] theorem Net.push_written (net : Net κ) (c : κ) (d : Dir) (chunk : Bytes) :
    (net.push c d chunk c d).written = (net c d).written ++ chunk := by
  rw [Net.push, Net.set_self, Pipe.push_written]

namespace Relay

/-- One step of the thread of a direction. -/
def step (r : Relay κ) (net : Net κ) (d : Dir) : ThreadStep → Option (Relay κ × Net κ)
  | .recv =>
    match r.thread d with
    | .receiving =>
      -- the descriptor is looked up as `recv` is entered, and not again
      match r.fds (r.srcFd d) with
      | some c => some (r.goto d (.blocked c), net)
      | none => some (r.goto d .closingSrc, net)
    | _ => none
  | .chunk n =>
    match r.thread d with
    | .blocked c =>
      if 0 < n ∧ n ≤ packetSize ∧ n ≤ (net c d).inFlight.length then
        some (r.goto d (.sending ((net c d).inFlight.take n)), net.take c d n)
      else none
    | _ => none
  | .stop =>
    match r.thread d with
    | .blocked _ => some (r.goto d .closingSrc, net)
    | _ => none
  | .send ok =>
    match r.thread d with
    | .sending chunk =>
      match r.fds (r.dstFd d), ok with
      | some c, true => some (r.goto d .receiving, net.push c d chunk)
      -- the chunk in hand is lost
      | _, _ => some (r.goto d .closingSrc, net)
    | _ => none
  | .close =>
    match r.thread d with
    | .closingSrc => some ((r.shut (r.srcFd d)).goto d .closingDst, net)
    | .closingDst => some ((r.shut (r.dstFd d)).goto d .returned, net)
    | _ => none

/-- What a step of a thread needs and leaves. -/
inductive Moves (r : Relay κ) (net : Net κ) (d : Dir) : ThreadStep → Relay κ → Net κ → Prop
  | entered {c} (ht : r.thread d = .receiving) (hc : r.fds (r.srcFd d) = some c) :
      Moves r net d .recv (r.goto d (.blocked c)) net
  | srcShut (ht : r.thread d = .receiving) (hc : r.fds (r.srcFd d) = none) :
      Moves r net d .recv (r.goto d .closingSrc) net
  | took {c n} (ht : r.thread d = .blocked c) (hn : 0 < n ∧ n ≤ packetSize ∧ n ≤ (net c d).inFlight.length) :
      Moves r net d (.chunk n) (r.goto d (.sending ((net c d).inFlight.take n)))
        (net.take c d n)
  | ended {c} (ht : r.thread d = .blocked c) : Moves r net d .stop (r.goto d .closingSrc) net
  | sent {chunk c} (ht : r.thread d = .sending chunk) (hc : r.fds (r.dstFd d) = some c) :
      Moves r net d (.send true) (r.goto d .receiving) (net.push c d chunk)
  | unsent {chunk ok} (ht : r.thread d = .sending chunk) (hc : ok = true → r.fds (r.dstFd d) = none) :
      Moves r net d (.send ok) (r.goto d .closingSrc) net
  | shutSrc (ht : r.thread d = .closingSrc) :
      Moves r net d .close ((r.shut (r.srcFd d)).goto d .closingDst) net
  | shutDst (ht : r.thread d = .closingDst) :
      Moves r net d .close ((r.shut (r.dstFd d)).goto d .returned) net

theorem step_moves {r r' : Relay κ} {net net' : Net κ} {d : Dir} {a : ThreadStep}
    (h : r.step net d a = some (r', net')) : Moves r net d a r' net' := by
  cases a with
  | recv =>
    simp only [step] at h
    split at h
    · next ht =>
      split at h <;> cases h
      · next hc => exact .entered ht hc
      · next hc => exact .srcShut ht hc
    · cases h
  | chunk n =>
    simp only [step] at h
    split at h
    · next ht =>
      split_ifs at h with hn
      cases h
      exact .took ht hn
    · cases h
  | stop =>
    simp only [step] at h
    split at h <;> cases h
    next ht => exact .ended ht
  | send ok =>
    simp only [step] at h
    split at h
    · next ht =>
      split at h <;> cases h
      · next hc => exact .sent ht hc
      · next hno =>
        refine .unsent ht ?_
        intro hok
        cases hfd : r.fds (r.dstFd d) with
        | none => rfl
        | some c => exact absurd hok (hno c hfd)
    · cases h
  | close =>
    simp only [step] at h
    split at h <;> cases h
    · next ht => exact .shutSrc ht
    · next ht => exact .shutDst ht

/-! ## One thread by itself -/

/-- The steps of a thread, given what each `recv` returns and whether the `send` after it succeeds. -/
def turns : List (Bytes × Bool) → List ThreadStep
  | [] => []
  | (buf, ok) :: rest => .recv :: .chunk buf.length :: .send ok :: if ok then turns rest else []

/-- A thread by itself sends on what `exchangeData` says. -/
theorem exchangeData_turns {d : Dir} {c c' : κ} (hne : c ≠ c') {results : List (Bytes × Bool)}
    (hsized : ∀ p ∈ results, p.1 ≠ [] ∧ p.1.length ≤ packetSize) {r : Relay κ} {net : Net κ} {tail : Bytes}
    (ht : r.thread d = .receiving) (hsrc : r.fds (r.srcFd d) = some c) (hdst : r.fds (r.dstFd d) = some c')
    (hflight : (net c d).inFlight = (results.map Prod.fst).flatten ++ tail) :
    ∃ s, Transition.exec (fun s a => step s.1 s.2 d a) (r, net) (turns results) = some s ∧
      (s.2 c' d).written = (net c' d).written ++
        (NetworkUtil.exchangeData (results.map fun p => (.bytes p.1, p.2))).flatten := by
  induction results generalizing r net with
  | nil => exact ⟨(r, net), rfl, (List.append_nil _).symm⟩
  | cons p rest ih =>
    obtain ⟨buf, ok⟩ := p
    obtain ⟨⟨hbuf, hlen⟩, hrest⟩ := List.forall_mem_cons.mp hsized
    change buf ≠ [] at hbuf
    change buf.length ≤ packetSize at hlen
    have hin : (net c d).inFlight = buf ++ ((rest.map Prod.fst).flatten ++ tail) := by
      rw [hflight, List.map_cons, List.flatten_cons, List.append_assoc]
    have htake : (net c d).inFlight.take buf.length = buf := by rw [hin, List.take_left]
    have hfits : 0 < buf.length ∧ buf.length ≤ packetSize ∧ buf.length ≤ (net c d).inFlight.length := by
      refine ⟨List.length_pos_of_ne_nil hbuf, hlen, ?_⟩
      rw [hin, List.length_append]
      omega
    have hrecv : r.step net d .recv = some (r.goto d (.blocked c), net) := by
      simp only [step, ht, hsrc]
    have hchunk : (r.goto d (.blocked c)).step net d (.chunk buf.length) =
        some (r.goto d (.sending buf), net.take c d buf.length) := by
      simp only [step, goto_thread, update_self, if_pos hfits, htake, goto_goto]
    rw [turns, Transition.exec, hrecv, Option.bind_some, Transition.exec, hchunk, Option.bind_some,
      List.map_cons, NetworkUtil.exchangeData, if_neg hbuf]
    cases ok with
    | false =>
      have hsend : (r.goto d (.sending buf)).step (net.take c d buf.length) d (.send false) =
          some (r.goto d .closingSrc, net.take c d buf.length) := by
        simp [step]
      refine ⟨(r.goto d .closingSrc, net.take c d buf.length), ?_, by simp⟩
      rw [Transition.exec, hsend]
      rfl
    | true =>
      have hsend : (r.goto d (.sending buf)).step (net.take c d buf.length) d (.send true) =
          some (r.goto d .receiving, (net.take c d buf.length).push c' d buf) := by
        have hdst' : (r.goto d (.sending buf)).fds ((r.goto d (.sending buf)).dstFd d) = some c' := hdst
        simp only [step, goto_thread, update_self, hdst', goto_goto]
      have hleft : ((net.take c d buf.length).push c' d buf c d).inFlight =
          (rest.map Prod.fst).flatten ++ tail := by
        rw [Net.push, Net.set_of_ne _ (Or.inl hne), Net.take, Net.set_self, Pipe.take, hin,
          List.drop_left]
      obtain ⟨s, hs, hw⟩ := @ih hrest (r.goto d .receiving) _ (update_self ..) hsrc hdst hleft
      refine ⟨s, ?_, ?_⟩
      · rw [Transition.exec, hsend]
        exact hs
      · rw [hw, Net.push_written, Net.take_written, if_pos rfl, List.flatten_cons, List.append_assoc]

/-! ## What a relay has passed on -/

/-- Of what was taken on the way in, all but the chunk in hand is written on the way
out, until the thread leaves its loop. -/
def Flow (r : Relay κ) (net : Net κ) (d : Dir) : Prop :=
  match r.thread d with
  | .receiving | .blocked _ => (net (r.dst d) d).written = (net (r.src d) d).taken
  | .sending chunk => chunk ≠ [] ∧ (net (r.dst d) d).written ++ chunk = (net (r.src d) d).taken
  | _ => (net (r.src d) d).Feeds (net (r.dst d) d)

omit [DecidableEq κ] in
theorem Flow.of_looping {r : Relay κ} {net : Net κ} {d : Dir} (h : r.Flow net d)
    (ht : r.thread d = .receiving ∨ ∃ c, r.thread d = .blocked c) :
    (net (r.dst d) d).written = (net (r.src d) d).taken := by
  unfold Flow at h
  rcases ht with ht | ⟨c, ht⟩ <;> rw [ht] at h <;> exact h

omit [DecidableEq κ] in
theorem Flow.of_sending {r : Relay κ} {net : Net κ} {d : Dir} {chunk : Bytes} (h : r.Flow net d)
    (ht : r.thread d = .sending chunk) :
    chunk ≠ [] ∧ (net (r.dst d) d).written ++ chunk = (net (r.src d) d).taken := by
  unfold Flow at h
  rw [ht] at h
  exact h

omit [DecidableEq κ] in
theorem Flow.feeds {r : Relay κ} {net : Net κ} {d : Dir} (h : r.Flow net d) :
    (net (r.src d) d).Feeds (net (r.dst d) d) := by
  cases ht : r.thread d with
  | receiving => exact Pipe.Feeds.of_eq (h.of_looping (Or.inl ht))
  | blocked c => exact Pipe.Feeds.of_eq (h.of_looping (Or.inr ⟨c, ht⟩))
  | sending chunk => exact ⟨chunk, (h.of_sending ht).2⟩
  | _ =>
    unfold Flow at h
    rw [ht] at h
    exact h

/-- The descriptors still stand for the connections they stood for at the start. -/
structure Bound (r : Relay κ) : Prop where
  fds : ∀ d c, r.fds (r.srcFd d) = some c → c = r.src d
  blocked : ∀ d c, r.thread d = .blocked c → c = r.src d

omit [DecidableEq κ] in
theorem dstFd_eq (r : Relay κ) (d : Dir) : r.dstFd d = r.srcFd d.other := by cases d <;> rfl

omit [DecidableEq κ] in
theorem dst_eq (r : Relay κ) (d : Dir) : r.dst d = r.src d.other := by cases d <;> rfl

omit [DecidableEq κ] in
theorem Bound.dst {r : Relay κ} (h : r.Bound) {d : Dir} {c : κ} (hc : r.fds (r.dstFd d) = some c) :
    c = r.dst d := by
  rw [dstFd_eq] at hc
  rw [dst_eq]
  exact h.fds _ c hc

omit [DecidableEq κ] in
theorem bound_facilitate {fds : Int → Option κ} {f g : Int} {x y : κ} (hf : fds f = some x) (hg : fds g = some y) :
    (facilitateConnection fds f g x y).Bound := by
  refine ⟨?_, fun _ _ ht => nomatch ht⟩
  intro d c hc
  cases d
  · exact Option.some.inj (hc.symm.trans hf)
  · exact Option.some.inj (hc.symm.trans hg)

/-- A step is between the same ends, moves one thread, and opens no descriptor. -/
theorem Moves.frame {r r' : Relay κ} {net net' : Net κ} {d : Dir} {a : ThreadStep}
    (hm : Moves r net d a r' net') : SameEnds r r' ∧ (∀ d', d' ≠ d → r'.thread d' = r.thread d') ∧
      ∀ fd c, r'.fds fd = some c → r.fds fd = some c := by
  have hgoto : ∀ t d', d' ≠ d → update r.thread d t d' = r.thread d' := fun t d' hd => update_of_ne hd ..
  have hshut : ∀ fd fd' c, update r.fds fd none fd' = some c → r.fds fd' = some c := by
    intro fd fd' c hc
    by_cases hfd : fd' = fd
    · rw [hfd, update_self] at hc
      cases hc
    · rwa [update_of_ne hfd] at hc
  cases hm with
  | shutSrc | shutDst => exact ⟨⟨rfl, rfl, rfl, rfl⟩, hgoto _, hshut _⟩
  | _ => exact ⟨⟨rfl, rfl, rfl, rfl⟩, hgoto _, fun _ _ h => h⟩

/-- A step takes only from the thread's source, writes only to its destination, and
leaves the other direction alone. -/
theorem Moves.net {r r' : Relay κ} {net net' : Net κ} {d : Dir} {a : ThreadStep} (hb : r.Bound)
    (hm : Moves r net d a r' net') :
    (∀ c d', ¬ (c = r.src d ∧ d' = d) → (net' c d').taken = (net c d').taken) ∧
      (∀ c d', ¬ (c = r.dst d ∧ d' = d) → (net' c d').written = (net c d').written) ∧
      ∀ c d', d' ≠ d → net' c d' = net c d' := by
  cases hm with
  | took ht hn =>
    obtain rfl := hb.blocked d _ ht
    refine ⟨?_, fun c d' _ => Net.take_written .., fun c d' hd => Net.set_of_ne net (Or.inr hd) _⟩
    intro c d' hne
    rw [Net.take, Net.set_of_ne net (by grind)]
  | sent ht hc =>
    obtain rfl := hb.dst hc
    refine ⟨fun c d' _ => Net.push_taken .., ?_, fun c d' hd => Net.set_of_ne net (Or.inr hd) _⟩
    intro c d' hne
    rw [Net.push, Net.set_of_ne net (by grind)]
  | _ => exact ⟨fun _ _ _ => rfl, fun _ _ _ => rfl, fun _ _ _ => rfl⟩

theorem Moves.bound {r r' : Relay κ} {net net' : Net κ} {d : Dir} {a : ThreadStep} (hb : r.Bound)
    (hm : Moves r net d a r' net') : r'.Bound := by
  obtain ⟨hends, hthread, hfds⟩ := hm.frame
  refine ⟨?_, ?_⟩
  · intro d' c hc
    rw [(hends.fds d').1] at hc
    rw [(hends.ends d').1]
    exact hb.fds d' c (hfds _ c hc)
  · intro d' c hc
    rw [(hends.ends d').1]
    by_cases hd : d' = d
    · subst hd
      cases hm <;> simp at hc
      next hfd =>
        subst hc
        exact hb.fds d' _ hfd
    · rw [hthread d' hd] at hc
      exact hb.blocked d' c hc

omit [DecidableEq κ] in
/-- A direction's flow depends on its thread and its two streams only. -/
theorem Flow.congr {r r' : Relay κ} {net net' : Net κ} {d : Dir} (h : r.Flow net d) (hends : SameEnds r r')
    (ht : r'.thread d = r.thread d) (htaken : (net' (r.src d) d).taken = (net (r.src d) d).taken)
    (hwritten : (net' (r.dst d) d).written = (net (r.dst d) d).written) : r'.Flow net' d := by
  unfold Flow Pipe.Feeds at *
  rw [ht, (hends.ends d).1, (hends.ends d).2, htaken, hwritten]
  exact h

theorem Moves.flow {r r' : Relay κ} {net net' : Net κ} {d : Dir} {a : ThreadStep} (hb : r.Bound)
    (hf : ∀ d, r.Flow net d) (hm : Moves r net d a r' net') (d' : Dir) : r'.Flow net' d' := by
  obtain ⟨hends, hthread, -⟩ := hm.frame
  obtain ⟨htaken, hwritten, -⟩ := hm.net hb
  by_cases hd : d' = d
  · subst hd
    have hflow := hf d'
    unfold Flow
    rw [(hends.ends d').1, (hends.ends d').2]
    cases hm with
    | entered ht => simpa only [goto_thread, update_self] using hflow.of_looping (Or.inl ht)
    | srcShut | ended | unsent | shutSrc | shutDst => simpa only [goto_thread, update_self] using hflow.feeds
    | took ht hn =>
      obtain rfl := hb.blocked d' _ ht
      simp only [goto_thread, update_self, Net.take_written, Net.take_taken]
      refine ⟨?_, by rw [hflow.of_looping (Or.inr ⟨_, ht⟩)]⟩
      intro hnil
      have hlen := congrArg List.length hnil
      rw [List.length_take, List.length_nil] at hlen
      omega
    | sent ht hc =>
      obtain rfl := hb.dst hc
      simp only [goto_thread, update_self, Net.push_written, Net.push_taken]
      exact (hflow.of_sending ht).2
  · exact (hf d').congr hends (hthread d' hd) (htaken _ _ (by grind)) (hwritten _ _ (by grind))

end Relay

end VirtualSocket
