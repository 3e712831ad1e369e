import Mathlib.Data.List.Basic
import Mathlib.Logic.Basic

/-! # Rules decided by the first match

    A list of rules, each of which allows or denies a set of rights.  A right is decided by the
    first rule that has it.

    Two evaluations work on whole sets instead of single rights.  `shrink` takes what is allowed
    out of the rights that are asked for and stops at a rule that denies any of what is left.
    `collect` adds up all that is allowed and all that is denied.  Both agree with the first match
    right by right. -/

namespace FirstMatch

open BitVec

variable {w : Nat}

/-- The rights are the bits of a mask. -/
structure Rule (w : Nat) where
  allow : Bool
  mask : BitVec w
  deriving DecidableEq, Repr

/-- What the first rule that has the right `r` says about it. -/
def verdict : List (Rule w) → Nat → Option Bool
  | [], _ => none
  | rule :: rules, r => if rule.mask.getLsbD r then some rule.allow else verdict rules r

def shrink : List (Rule w) → BitVec w → BitVec w
  | [], remaining => remaining
  | rule :: rules, remaining =>
    if rule.allow then shrink rules (remaining &&& ~~~rule.mask)
    else if remaining &&& rule.mask ≠ 0#w then remaining
    else shrink rules remaining

/-- The pair has the rights that are granted and those that are denied. -/
def collect : List (Rule w) → BitVec w × BitVec w → BitVec w × BitVec w
  | [], acc => acc
  | rule :: rules, (granted, denied) =>
    if rule.allow then collect rules (granted ||| (rule.mask &&& ~~~denied), denied)
    else collect rules (granted, denied ||| (rule.mask &&& ~~~granted))

theorem verdict_append (rules rules' : List (Rule w)) (r : Nat) :
    verdict (rules ++ rules') r = (verdict rules r).or (verdict rules' r) := by
  induction rules with
  | nil => rfl
  | cons rule rules ih =>
    by_cases h : rule.mask.getLsbD r = true
    · simp [verdict, h]
    · simp [verdict, h, ih]

/-! ## Section 1: Masks -/

variable {x y : BitVec w}

theorem eq_zero_iff : x = 0#w ↔ ∀ r, x.getLsbD r = false := by
  constructor
  · intro h r
    rw [h, getLsbD_zero]
  · intro h
    apply eq_of_getLsbD_eq
    intro r _
    rw [h r, getLsbD_zero]

theorem and_ne_zero_iff : x &&& y ≠ 0#w ↔ ∃ r, x.getLsbD r = true ∧ y.getLsbD r = true := by
  rw [ne_eq, eq_zero_iff, not_forall]
  simp only [getLsbD_and, Bool.not_eq_false, Bool.and_eq_true]

theorem getLsbD_and_not {r : Nat} : (x &&& ~~~y).getLsbD r = (x.getLsbD r && !y.getLsbD r) := by
  rw [getLsbD_and, getLsbD_not]
  by_cases hr : r < w
  · simp [hr]
  · simp [getLsbD_of_ge x r (by omega)]

theorem and_not_eq_zero_iff : x &&& ~~~y = 0#w ↔ ∀ r, x.getLsbD r = true → y.getLsbD r = true := by
  rw [eq_zero_iff]
  apply forall_congr'
  intro r
  rw [getLsbD_and_not]
  cases x.getLsbD r <;> simp

theorem getLsbD_twoPow_iff {r j : Nat} (hr : r < w) : (twoPow w r).getLsbD j = true ↔ j = r := by
  rw [getLsbD_twoPow]
  simp [hr, eq_comm]

/-! ## Section 2: The evaluations -/

theorem collect_append (rules rules' : List (Rule w)) (acc : BitVec w × BitVec w) :
    collect (rules ++ rules') acc = collect rules' (collect rules acc) := by
  induction rules generalizing acc with
  | nil => rfl
  | cons rule rules ih =>
    rw [List.cons_append, collect, collect]
    split
    · exact ih _
    · exact ih _

theorem shrink_eq_zero_iff (rules : List (Rule w)) (remaining : BitVec w) :
    shrink rules remaining = 0#w ↔
      ∀ r, remaining.getLsbD r = true → verdict rules r = some true := by
  induction rules generalizing remaining with
  | nil =>
    show remaining = 0#w ↔ _
    rw [eq_zero_iff]
    constructor
    · intro h r hr
      rw [h r] at hr
      cases hr
    · intro h r
      cases hr : remaining.getLsbD r with
      | false => rfl
      | true => cases h r hr
  | cons rule rules ih =>
    by_cases hallow : rule.allow = true
    · -- What the rule allows is decided; the rest is left to the other rules.
      rw [shrink, if_pos hallow, ih]
      constructor
      · intro h r hr
        by_cases hmask : rule.mask.getLsbD r = true
        · simp [verdict, hmask, hallow]
        rw [verdict, if_neg hmask]
        apply h r
        rw [getLsbD_and_not, hr]
        simpa using hmask
      · intro h r hr
        rw [getLsbD_and_not, Bool.and_eq_true] at hr
        have hv := h r hr.1
        rw [verdict, if_neg (by simpa using hr.2)] at hv
        exact hv
    · by_cases hdeny : remaining &&& rule.mask ≠ 0#w
      · rw [shrink, if_neg hallow, if_pos hdeny]
        obtain ⟨r, hr, hmask⟩ := and_ne_zero_iff.1 hdeny
        constructor
        · intro h
          rw [h, getLsbD_zero] at hr
          cases hr
        · intro h
          have hv := h r hr
          rw [verdict, if_pos hmask] at hv
          exact absurd (Option.some.inj hv) hallow
      · rw [shrink, if_neg hallow, if_neg hdeny, ih]
        have hskip : ∀ r, remaining.getLsbD r = true →
            verdict (rule :: rules) r = verdict rules r := by
          intro r hr
          rw [verdict, if_neg]
          intro hmask
          exact hdeny (and_ne_zero_iff.2 ⟨r, hr, hmask⟩)
        constructor
        · intro h r hr
          rw [hskip r hr]
          exact h r hr
        · intro h r hr
          rw [← hskip r hr]
          exact h r hr

/-- A right is granted in the end if it was before, or if it was not denied before and the first
    match allows it. -/
theorem collect_granted (rules : List (Rule w)) (acc : BitVec w × BitVec w) (r : Nat) :
    (collect rules acc).1.getLsbD r = true ↔
      acc.1.getLsbD r = true ∨ acc.2.getLsbD r = false ∧ verdict rules r = some true := by
  induction rules generalizing acc with
  | nil => simp [collect, verdict]
  | cons rule rules ih =>
    obtain ⟨granted, denied⟩ := acc
    by_cases hallow : rule.allow = true
    · rw [collect, if_pos hallow, ih, getLsbD_or, getLsbD_and_not]
      by_cases hmask : rule.mask.getLsbD r = true
      · simp [verdict, hmask, hallow]
        tauto
      · simp [verdict, hmask]
    rw [collect, if_neg hallow, ih, getLsbD_or, getLsbD_and_not]
    by_cases hmask : rule.mask.getLsbD r = true
    · simp only [verdict, hmask, hallow, if_true, Bool.true_and]
      cases granted.getLsbD r <;> simp
    · simp [verdict, hmask]

end FirstMatch
