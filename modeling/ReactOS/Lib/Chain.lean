import Mathlib.Data.List.Basic

/-! # Linked lists threaded through nodes

    The list `l` of nodes that a head word `v` reaches when `addr` is the
    address of a node, `link` the word stored in it and `nil` the end mark.

    * `chain_transport`: a chain depends on its own nodes only.
    * `chain_unlink`: storing the link of a node into the word that points to
      it removes the node. -/

namespace Threaded

variable {α : Type} {addr link link' : α → Nat} {nil v : Nat} {l l₁ l₂ : List α} {x : α}

/-- The nodes reached from the word `v` are those of the list. -/
def Chain (addr link : α → Nat) (nil : Nat) : Nat → List α → Prop
  | v, [] => v = nil
  | v, x :: l => v = addr x ∧ Chain addr link nil (link x) l

/-- A chain depends on the addresses and links of its own nodes only. -/
theorem chain_transport {addr' : α → Nat} (hc : Chain addr link nil v l)
    (h : ∀ x ∈ l, addr' x = addr x ∧ link' x = link x) : Chain addr' link' nil v l := by
  induction l generalizing v with
  | nil => exact hc
  | cons x l ih =>
    obtain ⟨ha, hlk⟩ := h x (by simp)
    refine ⟨hc.1.trans ha.symm, ?_⟩
    rw [hlk]
    exact ih hc.2 (fun y hy => h y (by simp [hy]))

theorem chain_congr (h : ∀ x ∈ l, link' x = link x) :
    Chain addr link' nil v l ↔ Chain addr link nil v l :=
  ⟨fun hc => chain_transport hc (fun x hx => ⟨rfl, (h x hx).symm⟩),
   fun hc => chain_transport hc (fun x hx => ⟨rfl, h x hx⟩)⟩

/-- Storing the link of `x` into the node before it removes `x`. -/
theorem chain_unlink {y : α} (h : Chain addr link nil v (l₁ ++ [y] ++ x :: l₂))
    (hy : link' y = link x) (hne : ∀ z ∈ l₁ ++ l₂, link' z = link z) :
    Chain addr link' nil v (l₁ ++ [y] ++ l₂) := by
  induction l₁ generalizing v with
  | nil =>
    simp only [List.nil_append, List.singleton_append, Chain] at h ⊢
    refine ⟨h.1, ?_⟩
    rw [hy, chain_congr (fun z hz => hne z (by simp [hz]))]
    exact h.2.2
  | cons w l₁ ih =>
    refine ⟨h.1, ?_⟩
    rw [hne w (by simp)]
    exact ih h.2 (fun z hz => hne z (by simp only [List.cons_append, List.mem_cons]; exact .inr hz))

end Threaded
