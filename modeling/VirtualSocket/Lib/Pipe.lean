import Mathlib.Data.List.Basic
import Mathlib.Data.List.Chain
import Mathlib.Data.List.Infix

/- One direction of a connection: what its receiver has taken and what is still in
   flight, which together are what its sender has written. Data can be taken in
   pieces of any size, and only in the order written. `delivered_prefix` is the
   rule for relaying: if each pipe is fed no more than what was taken from the one
   before it, the last delivers a prefix of what was written into the first. -/
namespace VirtualSocket

structure Pipe (α : Type*) where
  taken : List α
  inFlight : List α
  deriving DecidableEq

namespace Pipe

variable {α : Type*}

def empty : Pipe α := ⟨[], []⟩

def written (p : Pipe α) : List α := p.taken ++ p.inFlight

def take (p : Pipe α) (n : Nat) : Pipe α := ⟨p.taken ++ p.inFlight.take n, p.inFlight.drop n⟩

def push (p : Pipe α) (xs : List α) : Pipe α := ⟨p.taken, p.inFlight ++ xs⟩

@[simp] theorem take_taken (p : Pipe α) (n : Nat) : (p.take n).taken = p.taken ++ p.inFlight.take n := rfl

@[simp] theorem push_taken (p : Pipe α) (xs : List α) : (p.push xs).taken = p.taken := rfl

@[simp] theorem take_written (p : Pipe α) (n : Nat) : (p.take n).written = p.written := by
  simp only [written, take, List.append_assoc, List.take_append_drop]

@[simp] theorem push_written (p : Pipe α) (xs : List α) : (p.push xs).written = p.written ++ xs :=
  (List.append_assoc ..).symm

theorem taken_prefix (p : Pipe α) : p.taken <+: p.written := List.prefix_append _ _

/-- Once nothing is in flight, all that was written has been taken. -/
theorem taken_of_empty {p : Pipe α} (h : p.inFlight = []) : p.taken = p.written := by
  rw [written, h, List.append_nil]

theorem taken_of_unwritten {p : Pipe α} (h : p.written = []) : p.taken = [] :=
  List.prefix_nil.mp (h ▸ p.taken_prefix)

/-- Whoever writes into `q` writes what it takes from `p`. -/
def Feeds (p q : Pipe α) : Prop := q.written <+: p.taken

theorem Feeds.of_eq {p q : Pipe α} (h : q.written = p.taken) : Feeds p q :=
  ⟨[], (List.append_nil _).trans h⟩

theorem Feeds.unwritten {p q : Pipe α} (hf : Feeds p q) (h : p.written = []) : q.written = [] := by
  rw [Feeds, taken_of_unwritten h] at hf
  exact List.prefix_nil.mp hf

/-- A chain of pipes, each feeding the next, delivers a prefix of what is written into the first. -/
theorem delivered_prefix {p q : Pipe α} {ps : List (Pipe α)} (h : (p :: ps).IsChain Feeds)
    (hq : (p :: ps).getLast? = some q) : q.taken <+: p.written := by
  induction ps generalizing p with
  | nil =>
    cases hq
    exact p.taken_prefix
  | cons r ps ih =>
    rw [List.isChain_cons_cons] at h
    rw [List.getLast?_cons_cons] at hq
    calc q.taken <+: r.written := ih h.2 hq
      _ <+: p.taken := h.1
      _ <+: p.written := p.taken_prefix

end Pipe

end VirtualSocket
