import Mathlib.Algebra.BigOperators.Group.Multiset.Basic
import Mathlib.Algebra.Order.Group.Multiset

/- Resources that are acquired and released. `Transfers C as B` says of a list of acts
   that, from `C` and whatever is held besides, they release only what is held and
   leave `B` and the rest as it was. So a function can be judged by itself and its
   acts framed (`Transfers.frame`) and put in a row (`Transfers.append`,
   `Transfers.more`). -/
namespace VirtualSocket.Ledger

inductive Act (ρ : Type*) where
  | acquire (r : ρ)
  | release (r : ρ)
  deriving DecidableEq

variable {ρ : Type*} [DecidableEq ρ]

/-- What is held after some acts. Releasing what is not held changes nothing. -/
def after (held : Multiset ρ) : List (Act ρ) → Multiset ρ
  | [] => held
  | .acquire r :: as => after (r ::ₘ held) as
  | .release r :: as => after (held.erase r) as

/-- Each release is of something held. -/
def Owned (held : Multiset ρ) : List (Act ρ) → Prop
  | [] => True
  | .acquire r :: as => Owned (r ::ₘ held) as
  | .release r :: as => r ∈ held ∧ Owned (held.erase r) as

instance Owned.decidable : (held : Multiset ρ) → (as : List (Act ρ)) → Decidable (Owned held as)
  | _, [] => inferInstanceAs (Decidable True)
  | held, .acquire r :: as => Owned.decidable (r ::ₘ held) as
  | held, .release r :: as =>
    have := Owned.decidable (held.erase r) as
    inferInstanceAs (Decidable (r ∈ held ∧ Owned (held.erase r) as))

/-- The acts turn `C` into `B`, whatever is held besides. -/
def Transfers (C : Multiset ρ) (as : List (Act ρ)) (B : Multiset ρ) : Prop :=
  ∀ held, Owned (C + held) as ∧ after (C + held) as = B + held

theorem after_append (held : Multiset ρ) (as bs : List (Act ρ)) :
    after held (as ++ bs) = after (after held as) bs := by
  induction as generalizing held with
  | nil => rfl
  | cons a as ih =>
    cases a with
    | acquire r => exact ih (r ::ₘ held)
    | release r => exact ih (held.erase r)

theorem owned_append (held : Multiset ρ) (as bs : List (Act ρ)) :
    Owned held (as ++ bs) ↔ Owned held as ∧ Owned (after held as) bs := by
  induction as generalizing held with
  | nil => exact (iff_of_eq (true_and _)).symm
  | cons a as ih =>
    cases a with
    | acquire r => exact ih (r ::ₘ held)
    | release r =>
      show r ∈ held ∧ Owned (held.erase r) (as ++ bs) ↔
        (r ∈ held ∧ Owned (held.erase r) as) ∧ Owned (after (held.erase r) as) bs
      rw [ih, and_assoc]

namespace Transfers

variable {B C D : Multiset ρ} {as bs : List (Act ρ)}

theorem nil (C : Multiset ρ) : Transfers C [] C := fun _ => ⟨trivial, rfl⟩

theorem acquire (r : ρ) : Transfers 0 [.acquire r] {r} := by
  intro held
  refine ⟨trivial, ?_⟩
  show r ::ₘ (0 + held) = {r} + held
  rw [zero_add, Multiset.singleton_add]

theorem release (r : ρ) : Transfers {r} [.release r] 0 := by
  intro held
  rw [Multiset.singleton_add]
  refine ⟨⟨Multiset.mem_cons_self .., trivial⟩, ?_⟩
  show (r ::ₘ held).erase r = 0 + held
  rw [Multiset.erase_cons_head, zero_add]

theorem append (h : Transfers C as B) (h' : Transfers B bs D) : Transfers C (as ++ bs) D := by
  intro held
  obtain ⟨howned, hafter⟩ := h held
  rw [owned_append, after_append, hafter]
  exact ⟨⟨howned, (h' held).1⟩, (h' held).2⟩

/-- What the acts do not need stays as it is. -/
theorem frame (h : Transfers C as B) (F : Multiset ρ) : Transfers (C + F) as (B + F) := by
  intro held
  rw [add_assoc, add_assoc]
  exact h (F + held)

/-- Acts that need nothing add what they leave. -/
theorem more (h : Transfers C as B) (h' : Transfers 0 bs D) : Transfers C (as ++ bs) (B + D) := by
  have hframe := h'.frame B
  rw [zero_add, add_comm] at hframe
  exact h.append hframe

/-- What is acquired first and released last is not there in the end. -/
theorem bracket (r : ρ) (h : Transfers 0 as B) : Transfers 0 (.acquire r :: (as ++ [.release r])) B := by
  have hend := (release r).frame B
  rw [zero_add] at hend
  exact ((acquire r).more h).append hend

/-- From nothing, what the acts leave is all that is held. -/
theorem whole (h : Transfers 0 as B) : Owned 0 as ∧ after 0 as = B := by
  have hz := h 0
  rwa [add_zero, add_zero] at hz

end Transfers
end VirtualSocket.Ledger
