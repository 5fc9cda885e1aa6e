import VirtualSocket.Children
import VirtualSocket.Lib.Measure

/- The broker waits for its children in `sigchld_handler`. A child that has exited is
   a zombie until `waitpid` returns it, and its SIGCHLD is lost if another is
   pending. The signal is blocked while its handler runs, so a child may exit after
   the last `waitpid` and before the handler returns. Still no zombie is ever
   without a signal that is pending or a loop that has not come to its end
   (`Reaping.notified`), since each run of the handler waits until nobody is left.
   `children_reaped`: in every run each child that has exited is waited for at most
   once, and by the time no signal is left exactly once; and the program never sees
   the `errno` of the handler.

   Correspondence (C++ ↔ Lean):
     `int saved_errno = errno`       ↔ `ReaperStep.deliver`
     `waitpid(-1, NULL, WNOHANG)`    ↔ `ReaperStep.waitpid`
     `errno = saved_errno`, returned ↔ `ReaperStep.restore` -/
namespace VirtualSocket
open Json Protocol

variable {κ : Type}

/-- Where `sigchld_handler` stands: not called, in its loop, or behind it. -/
inductive HandlerStage where
  | idle
  | waiting (saved_errno : Int)
  | restoring (saved_errno : Int)
  deriving DecidableEq

/-- The processes of the broker, and what the kernel keeps for the parent. Children are named by their
place, and `reaped` holds those that `waitpid` has returned. `program` is the `errno` the parent's own
calls left; no step reads it. -/
structure Reaper (κ : Type) where
  processes : Processes κ
  zombies : List Nat
  reaped : List Nat
  pending : Bool
  handler : HandlerStage
  errno : Int
  program : Int

/-- A step of a process or a peer, a call of the parent that sets `errno`, or one of the handler. -/
inductive ReaperStep (κ : Type) where
  | process (a : ProcessStep κ)
  | call (errno : Int)
  | deliver
  | waitpid (k : Nat) (errno : Int)
  | restore

/-- The child at a place has exited. -/
def Processes.exited (p : Processes κ) (j : Nat) : Bool := p.children[j]?.any fun k => decide (k.stage = .exited)

/-- The child that exits in a step. -/
def Processes.exits (p p' : Processes κ) : ProcessStep κ → List Nat
  | .child j _ => if p.exited j = false ∧ p'.exited j = true then [j] else []
  | .parent _ | .peer .. => []

/-- The step is one of the parent's own. -/
def ProcessStep.ofParent : ProcessStep κ → Bool
  | .parent _ => true
  | .child .. | .peer .. => false

namespace Reaper

variable [DecidableEq κ]

/-- No child is forked before `startListening` has installed the handler. -/
def init : Reaper κ := ⟨Processes.init, [], [], false, .idle, 0, 0⟩

def step (r : Reaper κ) : ReaperStep κ → Option (Reaper κ)
  | .process a =>
    -- the parent does nothing else while its handler runs
    if a.ofParent = true ∧ r.handler ≠ .idle then none
    else (r.processes.step a).map fun p =>
      { r with
        processes := p
        zombies := r.zombies ++ r.processes.exits p a
        pending := r.pending || !(r.processes.exits p a).isEmpty }
  | .call errno => if r.handler = .idle then some { r with errno := errno, program := errno } else none
  | .deliver =>
    if r.pending = true ∧ r.handler = .idle then some { r with pending := false, handler := .waiting r.errno }
    else none
  | .waitpid k errno =>
    match r.handler with
    | .waiting saved =>
      -- 0 when the children left are all alive, -1 when there are none
      if r.zombies = [] then some { r with handler := .restoring saved, errno := errno }
      else r.zombies[k]?.map fun j =>
        { r with zombies := r.zombies.eraseIdx k, reaped := r.reaped ++ [j], errno := errno }
    | _ => none
  | .restore =>
    match r.handler with
    | .restoring saved => some { r with handler := .idle, errno := saved }
    | _ => none

end Reaper

/-! ## Who has exited -/

/-- The children a turn of the parent forks are running. -/
theorem Broker.forks_running {b : Broker κ} {a : Accepted κ} : ∀ k ∈ b.forks a, k.stage ≠ .exited := by
  intro k hk
  unfold Broker.forks at hk
  split at hk
  · cases hk
  · obtain ⟨child, -, rfl⟩ := List.mem_map.mp hk
    simp

theorem Processes.exited_eq {p : Processes κ} {j : Nat} {k : Child κ} (hk : p.children[j]? = some k) :
    p.exited j = true ↔ k.stage = .exited := by
  rw [exited, hk, Option.any_some, decide_eq_true_eq]

/-- Who exits in a step had not exited, and has after it. -/
theorem Processes.mem_exits {p p' : Processes κ} {a : ProcessStep κ} {j : Nat} :
    j ∈ p.exits p' a ↔ ∃ b, a = .child j b ∧ p.exited j = false ∧ p'.exited j = true := by
  cases a with
  | child i b =>
    show j ∈ (if p.exited i = false ∧ p'.exited i = true then [i] else []) ↔ _
    split_ifs with hb
    · rw [List.mem_singleton]
      constructor
      · intro hj
        exact ⟨b, by rw [hj], by rw [hj]; exact hb.1, by rw [hj]; exact hb.2⟩
      · intro ⟨_, heq, _⟩
        exact (ProcessStep.child.inj heq).1.symm
    · refine iff_of_false List.not_mem_nil ?_
      intro ⟨_, heq, hboth⟩
      obtain rfl := (ProcessStep.child.inj heq).1
      exact hb hboth
  | parent b =>
    refine iff_of_false List.not_mem_nil ?_
    intro ⟨_, heq, _⟩
    cases heq
  | peer c d bytes =>
    refine iff_of_false List.not_mem_nil ?_
    intro ⟨_, heq, _⟩
    cases heq

theorem Processes.exits_nodup (p p' : Processes κ) (a : ProcessStep κ) : (p.exits p' a).Nodup := by
  cases a with
  | child i b =>
    show (if p.exited i = false ∧ p'.exited i = true then [i] else []).Nodup
    split_ifs
    · exact List.nodup_singleton i
    · exact List.nodup_nil
  | parent | peer => exact List.nodup_nil

section
variable [DecidableEq κ]

theorem Stage.step_exited {s : Stage κ} {net net' : Net κ} {a : ChildStep}
    (h : Stage.step .exited net a = some (s, net')) : s = .exited := by
  cases a with
  | killed =>
    cases h
    rfl
  | call | thread | join => cases h

/-- After a step those have exited that had before, and the one that exits in it. -/
theorem Processes.exited_step {p p' : Processes κ} {a : ProcessStep κ} (h : p.step a = some p') (j : Nat) :
    p'.exited j = true ↔ p.exited j = true ∨ j ∈ p.exits p' a := by
  cases a with
  | peer c d bytes =>
    cases h
    exact (or_iff_left List.not_mem_nil).symm
  | parent a =>
    obtain ⟨b, -, rfl⟩ := Option.map_eq_some_iff.mp h
    have hnot : j ∉ p.exits { p with parent := b, children := p.children ++ p.parent.forks a } (.parent a) :=
      List.not_mem_nil
    rw [or_iff_left hnot]
    by_cases hj : j < p.children.length
    · rw [exited, exited, List.getElem?_append_left hj]
    · have hnone : p.children[j]? = none := List.getElem?_eq_none (Nat.le_of_not_lt hj)
      rw [exited, exited, List.getElem?_append_right (Nat.le_of_not_lt hj), hnone]
      constructor
      · intro hany
        obtain ⟨k, hk, hstage⟩ := (Option.any_eq_true _ _).mp hany
        exact absurd (of_decide_eq_true hstage) (Broker.forks_running k (List.mem_of_getElem? hk))
      · intro hany
        cases hany
  | child i a =>
    simp only [step] at h
    split at h
    · cases h
    · next k hi =>
      obtain ⟨⟨st, net⟩, hst, rfl⟩ := Option.map_eq_some_iff.mp h
      have hlt : i < p.children.length := (List.getElem?_eq_some_iff.mp hi).1
      by_cases hj : j = i
      · subst hj
        have hnew : (p.children.set j { k with stage := st })[j]? = some { k with stage := st } :=
          List.getElem?_set_self hlt
        rw [mem_exits, ← Bool.not_eq_true, exited_eq hnew, exited_eq hi]
        constructor
        · intro hex
          by_cases hold : k.stage = .exited
          · exact Or.inl hold
          · exact Or.inr ⟨a, rfl, hold, hex⟩
        · intro hor
          rcases hor with hold | ⟨_, -, -, hex⟩
          · rw [hold] at hst
            exact Stage.step_exited hst
          · exact hex
      · have hsame : { p with children := p.children.set i { k with stage := st }, net := net }.exited j =
          p.exited j := by
          rw [exited, exited, List.getElem?_set_ne (Ne.symm hj)]
        rw [hsame]
        have hnot : j ∉ p.exits { p with children := p.children.set i { k with stage := st }, net := net }
            (.child i a) := by
          intro hin
          obtain ⟨_, heq, -⟩ := mem_exits.mp hin
          exact hj (ProcessStep.child.inj heq).1.symm
        exact (or_iff_left hnot).symm

end

/-! ## The invariant -/

namespace Reaper

variable [DecidableEq κ]

/-- The `errno` of the program: the handler has saved it, or it stands. -/
def errnoKept (r : Reaper κ) : Prop :=
  match r.handler with
  | .idle => r.errno = r.program
  | .waiting saved | .restoring saved => saved = r.program

structure Reaping (r : Reaper κ) : Prop where
  once : (r.zombies ++ r.reaped).Nodup
  all : ∀ j, j ∈ r.zombies ++ r.reaped ↔ r.processes.exited j = true
  notified : r.zombies ≠ [] → r.pending = true ∨ ∃ saved, r.handler = .waiting saved
  kept : r.errnoKept

omit [DecidableEq κ] in
theorem reaping_init : Reaping (init : Reaper κ) where
  once := List.nodup_nil
  all j := by simp [init, Processes.exited, Processes.init]
  notified h := absurd rfl h
  kept := rfl

omit [DecidableEq κ] in
/-- The zombie that `waitpid` returns goes over to the reaped. -/
theorem perm_reap {zombies reaped : List Nat} {k j : Nat} (hk : zombies[k]? = some j) :
    (zombies.eraseIdx k ++ (reaped ++ [j])).Perm (zombies ++ reaped) := by
  obtain ⟨hlt, rfl⟩ := List.getElem?_eq_some_iff.mp hk
  calc (zombies.eraseIdx k ++ (reaped ++ [zombies[k]])).Perm (zombies.eraseIdx k ++ (zombies[k] :: reaped)) :=
        (List.perm_append_singleton _ _).append_left _
    _ |>.Perm (zombies[k] :: zombies.eraseIdx k ++ reaped) := List.perm_middle
    _ |>.Perm (zombies ++ reaped) := (List.getElem_cons_eraseIdx_perm hlt).append_right _

/-- Children exit, or a peer or the parent takes a step. -/
theorem reaping_process {r : Reaper κ} {a : ProcessStep κ} {p : Processes κ} (h : Reaping r)
    (hs : r.processes.step a = some p) : Reaping { r with
      processes := p
      zombies := r.zombies ++ r.processes.exits p a
      pending := r.pending || !(r.processes.exits p a).isEmpty } := by
  have hperm : (r.zombies ++ r.processes.exits p a ++ r.reaped).Perm
      (r.processes.exits p a ++ (r.zombies ++ r.reaped)) := by
    rw [← List.append_assoc]
    exact List.perm_append_comm.append_right _
  refine ⟨?_, ?_, ?_, h.kept⟩
  · apply hperm.nodup_iff.mpr
    refine (r.processes.exits_nodup p a).append h.once ?_
    intro j hj hold
    obtain ⟨_, -, hnot, -⟩ := Processes.mem_exits.mp hj
    rw [(h.all j).mp hold] at hnot
    cases hnot
  · intro j
    show j ∈ r.zombies ++ r.processes.exits p a ++ r.reaped ↔ p.exited j = true
    rw [hperm.mem_iff, List.mem_append, h.all, Processes.exited_step hs]
    exact or_comm
  · intro hz
    cases hex : r.processes.exits p a with
    | nil =>
      have hold : r.zombies ≠ [] := by
        intro hnil
        exact hz (by rw [hnil, hex, List.append_nil])
      exact (h.notified hold).imp (fun hpend => by rw [hpend]; rfl) id
    | cons j js => exact Or.inl (Bool.or_true _)

theorem reaping_step {r r' : Reaper κ} {a : ReaperStep κ} (h : Reaping r)
    (hs : r.step a = some r') : Reaping r' := by
  cases a with
  | process a =>
    simp only [step] at hs
    split_ifs at hs
    obtain ⟨p, hp, rfl⟩ := Option.map_eq_some_iff.mp hs
    exact reaping_process h hp
  | call errno =>
    simp only [step] at hs
    split_ifs at hs with hidle
    cases hs
    refine ⟨h.once, h.all, h.notified, ?_⟩
    show errnoKept { r with errno := errno, program := errno }
    unfold errnoKept
    rw [hidle]
  | deliver =>
    simp only [step] at hs
    split_ifs at hs with hg
    cases hs
    refine ⟨h.once, h.all, fun _ => Or.inr ⟨_, rfl⟩, ?_⟩
    have hkept := h.kept
    unfold errnoKept at hkept
    rw [hg.2] at hkept
    exact hkept
  | waitpid k errno =>
    simp only [step] at hs
    split at hs
    · next saved hw =>
      have hkept : saved = r.program := by
        have hkept := h.kept
        unfold errnoKept at hkept
        rwa [hw] at hkept
      split_ifs at hs with hz
      · -- the loop ends with nobody left to wait for
        cases hs
        exact ⟨h.once, h.all, fun hne => absurd hz hne, hkept⟩
      · obtain ⟨j, hj, rfl⟩ := Option.map_eq_some_iff.mp hs
        have hperm : (r.zombies.eraseIdx k ++ (r.reaped ++ [j])).Perm (r.zombies ++ r.reaped) := perm_reap hj
        refine ⟨hperm.nodup_iff.mpr h.once, ?_, fun _ => Or.inr ⟨saved, hw⟩, ?_⟩
        · intro j'
          rw [← h.all j']
          exact hperm.mem_iff
        · show errnoKept { r with zombies := _, reaped := _, errno := errno }
          unfold errnoKept
          rw [hw]
          exact hkept
    · cases hs
  | restore =>
    simp only [step] at hs
    split at hs
    · next saved hw =>
      cases hs
      have hkept := h.kept
      unfold errnoKept at hkept
      rw [hw] at hkept
      refine ⟨h.once, h.all, ?_, hkept⟩
      intro hz
      rcases h.notified hz with hpend | ⟨_, hwait⟩
      · exact Or.inl hpend
      · rw [hw] at hwait
        cases hwait
    · cases hs

/-! ## The handler comes to its end -/

end Reaper

/-- The step is the delivery of the signal, or one of its handler. -/
def ReaperStep.handles : ReaperStep κ → Prop
  | .deliver | .waitpid .. | .restore => True
  | .process _ | .call _ => False

def HandlerStage.work : HandlerStage → Nat
  | .idle => 0
  | .waiting _ => 2
  | .restoring _ => 1

namespace Reaper

/-- The steps the handler has before it, if nobody else exits. -/
def work (r : Reaper κ) : Nat := r.zombies.length + r.handler.work + if r.pending then 3 else 0

variable [DecidableEq κ]

theorem work_lt {r r' : Reaper κ} {a : ReaperStep κ} (ha : a.handles) (hs : r.step a = some r') :
    r'.work < r.work := by
  cases a with
  | deliver =>
    simp only [step] at hs
    split_ifs at hs with hg
    cases hs
    simp [work, HandlerStage.work, hg]
  | waitpid k errno =>
    simp only [step] at hs
    split at hs
    · next saved hw =>
      split_ifs at hs with hz
      · cases hs
        simp only [work, hw, HandlerStage.work]
        omega
      · obtain ⟨j, hj, rfl⟩ := Option.map_eq_some_iff.mp hs
        obtain ⟨hlt, -⟩ := List.getElem?_eq_some_iff.mp hj
        simp only [work, List.length_eraseIdx_of_lt hlt]
        omega
    · cases hs
  | restore =>
    simp only [step] at hs
    split at hs
    · next saved hw =>
      cases hs
      simp only [work, hw, HandlerStage.work]
      omega
    · cases hs
  | process | call => cases ha

/-- The handler has a step as long as the signal is pending or it has not returned. -/
theorem quiet_of_stuck {r : Reaper κ} (h : ∀ a, ReaperStep.handles a → r.step a = none) :
    r.pending = false ∧ r.handler = .idle := by
  have hidle : r.handler = .idle := by
    cases hh : r.handler with
    | idle => rfl
    | waiting saved =>
      have hstuck := h (.waitpid 0 0) trivial
      simp only [step, hh] at hstuck
      split_ifs at hstuck with hz
      rw [Option.map_eq_none_iff, List.getElem?_eq_none_iff] at hstuck
      exact absurd (List.length_eq_zero_iff.mp (Nat.le_zero.mp hstuck)) hz
    | restoring saved =>
      have hstuck := h .restore trivial
      simp only [step, hh] at hstuck
      cases hstuck
  refine ⟨?_, hidle⟩
  by_contra hpend
  have hstuck := h .deliver trivial
  simp only [step] at hstuck
  rw [if_pos ⟨Bool.eq_true_of_not_eq_false hpend, hidle⟩] at hstuck
  cases hstuck

omit [DecidableEq κ] in
theorem Reaping.no_zombies {r : Reaper κ} (h : Reaping r) (hpend : r.pending = false) (hidle : r.handler = .idle) :
    r.zombies = [] := by
  by_contra hz
  rcases h.notified hz with hp | ⟨_, hw⟩
  · rw [hpend] at hp
    cases hp
  · rw [hidle] at hw
    cases hw

/-- In every run of the broker's processes, its peers and its signals: a child is waited for at most once, and
only after it has exited; once no SIGCHLD is pending and no handler runs, each child that has exited has been
waited for; `errno` is then as the program left it. And without further exits the handler gets there, in no
more steps than `work` says. -/
theorem children_reaped {as : List (ReaperStep κ)} {r : Reaper κ} (h : Transition.exec step init as = some r) :
    r.reaped.Nodup ∧ (∀ j ∈ r.reaped, r.processes.exited j = true) ∧
      (r.pending = false → r.handler = .idle →
        (∀ j, r.processes.exited j = true → j ∈ r.reaped) ∧ r.errno = r.program) ∧
      (∀ bs t, (∀ b ∈ bs, ReaperStep.handles b) → Transition.exec step r bs = some t →
        t.work + bs.length ≤ r.work) ∧
      ∃ bs t, (∀ b ∈ bs, ReaperStep.handles b) ∧ Transition.exec step r bs = some t ∧ t.pending = false ∧
        t.handler = .idle := by
  have hr := Transition.exec_invariant (fun _ _ _ => reaping_step) reaping_init h
  have hdown : ∀ u a u', Reaping u → ReaperStep.handles a → step u a = some u' → u'.work < (u : Reaper κ).work :=
    fun _ _ _ _ ha hs => work_lt ha hs
  refine ⟨(List.nodup_append.mp hr.once).2.1, ?_, ?_, ?_, ?_⟩
  · intro j hj
    exact (hr.all j).mp (List.mem_append_right _ hj)
  · intro hpend hidle
    refine ⟨?_, ?_⟩
    · intro j hj
      have hin := (hr.all j).mpr hj
      rwa [hr.no_zombies hpend hidle, List.nil_append] at hin
    · have hkept := hr.kept
      unfold errnoKept at hkept
      rwa [hidle] at hkept
  · intro bs t hbs ht
    exact Transition.exec_length (fun _ _ _ => reaping_step) hdown hr hbs ht
  · obtain ⟨bs, t, hbs, ht, hstuck⟩ := Transition.exec_exhausted (fun _ _ _ => reaping_step) hdown hr
    exact ⟨bs, t, hbs, ht, quiet_of_stuck hstuck⟩

/-- Two clients wait and are refused. Both children exit before the signal is delivered, and one run of the
handler waits for both. -/
def coalesced : List (ReaperStep Nat) :=
  [.process (.parent ⟨0, 4, .bytes (makeRegisterRequest (str "a")), true⟩),
    .process (.parent ⟨1, 5, .bytes (makeConnectRequest (str "a")), true⟩),
    .process (.parent ⟨2, 6, .bytes (makeConnectRequest (str "a")), true⟩),
    .process (.parent ⟨3, 7, .bytes (makeConnectionFailedRequest (str "5")), true⟩),
    .process (.parent ⟨4, 5, .bytes (makeConnectionFailedRequest (str "6")), true⟩), .call 4,
    .process (.child 0 .killed), .process (.child 1 .killed), .deliver, .waitpid 1 0, .waitpid 0 0, .waitpid 0 10,
    .restore]

theorem children_reaped_coalesced : ∃ r, Transition.exec step init coalesced = some r ∧
    (∀ j, r.processes.exited j = true → j ∈ r.reaped) ∧ r.errno = r.program := by
  have hs : (Transition.exec step init coalesced).any
      (fun r => decide (r.pending = false ∧ r.handler = .idle)) = true := by
    decide +kernel
  obtain ⟨r, hr, hdec⟩ := (Option.any_eq_true _ _).mp hs
  obtain ⟨hpend, hidle⟩ := of_decide_eq_true hdec
  obtain ⟨-, -, hquiet, -⟩ := children_reaped hr
  exact ⟨r, hr, hquiet hpend hidle⟩

end Reaper
end VirtualSocket
