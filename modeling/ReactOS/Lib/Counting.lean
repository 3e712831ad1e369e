import Mathlib.Data.List.Count
import Mathlib.Data.List.Perm.Basic
import Mathlib.Algebra.BigOperators.Group.Finset.Basic
import Mathlib.Algebra.Order.BigOperators.Group.Finset

/-! # Counting members

    How the number of members of a list with a property changes as one member
    gains or loses it, and how a sum of weights changes as one member gets
    another weight. -/

namespace Counting

variable {α : Type*} [DecidableEq α] {l : List α} {a : α} {p p' : α → Bool}

theorem countP_erase (ha : a ∈ l) (p : α → Bool) :
    l.countP p = (l.erase a).countP p + if p a then 1 else 0 := by
  rw [(List.perm_cons_erase ha).countP_eq p, List.countP_cons]

/-- One member gains the property. -/
theorem countP_gain (hl : l.Nodup) (ha : a ∈ l) (hp : p a = false) (hp' : p' a = true)
    (hother : ∀ x ∈ l, x ≠ a → p' x = p x) : l.countP p' = l.countP p + 1 := by
  have hrest : (l.erase a).countP p' = (l.erase a).countP p := by
    refine List.countP_congr fun x hx => ?_
    rw [hl.mem_erase_iff] at hx
    rw [hother x hx.2 hx.1]
  rw [countP_erase ha p', countP_erase ha p, hrest, hp, hp']
  rfl

/-! ## Sums of weights -/

section Weights

variable {β : Type*} {U : Finset α}

open Finset

/-- One member gets a new value; the others keep their weights. -/
theorem sum_update_add (ha : a ∈ U) (f : α → β) (b : β) (w : β → ℕ) :
    ∑ x ∈ U, w (Function.update f a b x) + w (f a) = ∑ x ∈ U, w (f x) + w b := by
  have hrest : ∑ x ∈ U.erase a, w (Function.update f a b x) = ∑ x ∈ U.erase a, w (f x) :=
    sum_congr rfl fun x hx => by rw [Function.update_of_ne (ne_of_mem_erase hx)]
  rw [← add_sum_erase U _ ha, ← add_sum_erase U (fun x => w (f x)) ha, hrest,
    Function.update_self]
  omega

/-- Two members are within the sum. -/
theorem add_le_sum {x y : α} (hx : x ∈ U) (hy : y ∈ U) (hne : x ≠ y) (w : α → ℕ) :
    w x + w y ≤ ∑ z ∈ U, w z := by
  rw [← add_sum_erase U w hx]
  exact Nat.add_le_add_left (single_le_sum (f := w) (fun _ _ => Nat.zero_le _)
    (mem_erase.2 ⟨hne.symm, hy⟩)) _

end Weights

end Counting
