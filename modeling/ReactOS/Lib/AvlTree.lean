import ReactOS.Lib.LinkedTree
import Mathlib.Logic.Function.Basic
import Mathlib.Tactic.Tauto

/-! # Height balance of linked trees

    The balance a node stores is the height of its right subtree minus that of its left one.
    `HeightBalanced` says so of every node of a tree, `CtxBalanced` of every node of a context whose
    hole is filled by a tree of a given height. -/

namespace LinkedTree

open BinTree

universe u

variable {ν : Type u}

/-- `-1` for the left and `1` for the right side. -/
def Side.sign : Side → Int
  | left => -1
  | right => 1

@[simp] theorem Side.sign_other (s : Side) : s.other.sign = -s.sign := by cases s <;> rfl

theorem Side.sign_cases (s : Side) : s.sign = 1 ∨ s.sign = -1 := by cases s <;> simp [sign]

/-! ## Section 1: Heights -/

namespace BinTree

def height : BinTree ν → Nat
  | nil => 0
  | node l _ r => max l.height r.height + 1

@[simp] theorem height_nil : (nil : BinTree ν).height = 0 := rfl

@[simp] theorem height_node (l : BinTree ν) (n : ν) (r : BinTree ν) :
    (node l n r).height = max l.height r.height + 1 := rfl

@[simp] theorem height_join (s : Side) (a : BinTree ν) (n : ν) (b : BinTree ν) :
    (join s a n b).height = max a.height b.height + 1 := by
  cases s
  · rfl
  · simp [join, Nat.max_comm]

end BinTree

/-- The height of the whole tree when a tree of height `h` fills the hole. -/
def Ctx.height : Ctx ν → Nat → Nat
  | [], h => h
  | f :: c, h => Ctx.height c (max h f.sib.height + 1)

theorem height_plug (c : Ctx ν) (t : BinTree ν) : (plug c t).height = c.height t.height := by
  induction c generalizing t with
  | nil => rfl
  | cons f c ih => rw [plug_cons, ih, height_join, Ctx.height]

/-! ## Section 2: Balance -/

variable {bal bal' : ν → Int} {t : BinTree ν}

/-- Every node stores its balance, and none is off by more than one. -/
def HeightBalanced (bal : ν → Int) : BinTree ν → Prop
  | .nil => True
  | .node l n r => bal n = (r.height : Int) - l.height ∧ -1 ≤ bal n ∧ bal n ≤ 1 ∧
      HeightBalanced bal l ∧ HeightBalanced bal r

/-- The same for the nodes of a context with a tree of height `h` in its hole. -/
def CtxBalanced (bal : ν → Int) : Ctx ν → Nat → Prop
  | [], _ => True
  | f :: c, h => bal f.node = f.side.sign * ((h : Int) - f.sib.height) ∧ -1 ≤ bal f.node ∧
      bal f.node ≤ 1 ∧ HeightBalanced bal f.sib ∧ CtxBalanced bal c (max h f.sib.height + 1)

theorem balanced_join {s : Side} {a b : BinTree ν} {n : ν} :
    HeightBalanced bal (.join s a n b) ↔ bal n = s.sign * ((a.height : Int) - b.height) ∧
      -1 ≤ bal n ∧ bal n ≤ 1 ∧ HeightBalanced bal a ∧ HeightBalanced bal b := by
  cases s with
  | left =>
    simp only [join, HeightBalanced, Side.sign]
    constructor
    · rintro ⟨h, h1, h2, ha, hb⟩
      exact ⟨by omega, h1, h2, ha, hb⟩
    · rintro ⟨h, h1, h2, ha, hb⟩
      exact ⟨by omega, h1, h2, ha, hb⟩
  | right =>
    simp only [join, HeightBalanced, Side.sign]
    constructor
    · rintro ⟨h, h1, h2, hb, ha⟩
      exact ⟨by omega, h1, h2, ha, hb⟩
    · rintro ⟨h, h1, h2, ha, hb⟩
      exact ⟨by omega, h1, h2, hb, ha⟩

theorem balanced_plug {c : Ctx ν} :
    HeightBalanced bal (plug c t) ↔ HeightBalanced bal t ∧ CtxBalanced bal c t.height := by
  induction c generalizing t with
  | nil => simp [CtxBalanced]
  | cons f c ih =>
    rw [plug_cons, ih, balanced_join, height_join, CtxBalanced]
    tauto

theorem HeightBalanced.congr (h : HeightBalanced bal t)
    (he : ∀ x ∈ t.toList, bal' x = bal x) : HeightBalanced bal' t := by
  induction t with
  | nil => trivial
  | node l n r ihl ihr =>
    obtain ⟨hn, h1, h2, hl, hr⟩ := h
    have hen : bal' n = bal n := he n (by simp)
    refine ⟨by rw [hen, hn], by rw [hen]; exact h1, by rw [hen]; exact h2, ihl hl ?_, ihr hr ?_⟩
    · intro x hx
      exact he x (by simp [hx])
    · intro x hx
      exact he x (by simp [hx])

theorem CtxBalanced.congr {c : Ctx ν} {h : Nat} (hc : CtxBalanced bal c h)
    (he : ∀ x ∈ c.nodes, bal' x = bal x) : CtxBalanced bal' c h := by
  induction c generalizing h with
  | nil => trivial
  | cons f c ih =>
    obtain ⟨hn, h1, h2, hs, hr⟩ := hc
    have hen : bal' f.node = bal f.node := he _ (by simp [Ctx.nodes])
    refine ⟨by rw [hen, hn], by rw [hen]; exact h1, by rw [hen]; exact h2, hs.congr ?_, ih hr ?_⟩
    · intro x hx
      exact he x (by simp [Ctx.nodes, hx])
    · intro x hx
      exact he x (by simp [Ctx.nodes, hx])

theorem BinTree.height_map (φ : ν → ν) (t : BinTree ν) : (t.map φ).height = t.height := by
  induction t with
  | nil => rfl
  | node l n r ihl ihr => simp [map, ihl, ihr]

/-- Balances move with the addresses. -/
theorem HeightBalanced.map {φ : ν → ν} (h : HeightBalanced bal t)
    (he : ∀ x ∈ t.toList, bal' (φ x) = bal x) : HeightBalanced bal' (t.map φ) := by
  induction t with
  | nil => trivial
  | node l n r ihl ihr =>
    obtain ⟨hn, h1, h2, hl, hr⟩ := h
    have hen : bal' (φ n) = bal n := he n (by simp)
    refine ⟨?_, by rw [hen]; exact h1, by rw [hen]; exact h2, ihl hl ?_, ihr hr ?_⟩
    · rw [hen, hn, height_map, height_map]
    · intro x hx
      exact he x (by simp [hx])
    · intro x hx
      exact he x (by simp [hx])

/-! ## Section 3: Rotations of a tree that is off by two

    The child `n` of `p` on side `s` is two higher than the other child `d`.  The new balances
    `bal'` differ from the old ones at the nodes that take part only. -/

section Rotations

variable {bal bal' : ν → Int} {s : Side} {a b d : BinTree ν} {n p : ν}

/-- `n` leans to the side it is on, or is even: then the tree stays as high as it was. -/
theorem balanced_rotate (hn : HeightBalanced bal (.join s a n b)) (hd : HeightBalanced bal d)
    (hh : (join s a n b).height = d.height + 2)
    (he : ∀ z, z ∈ a.toList ∨ z ∈ b.toList ∨ z ∈ d.toList → bal' z = bal z)
    (hnp : bal n = s.sign ∧ bal' n = 0 ∧ bal' p = 0 ∨
      bal n = 0 ∧ bal' n = -s.sign ∧ bal' p = s.sign) :
    HeightBalanced bal' (.join s a n (.join s b p d)) ∧
      (join s a n (.join s b p d)).height =
        if bal n = 0 then d.height + 3 else d.height + 2 := by
  obtain ⟨hbn, -, -, ha, hb⟩ := balanced_join.mp hn
  simp only [balanced_join, height_join] at hh ⊢
  have ha' := ha.congr fun z hz => he z (.inl hz)
  have hb' := hb.congr fun z hz => he z (.inr (.inl hz))
  have hd' := hd.congr fun z hz => he z (.inr (.inr hz))
  cases s with
  | left =>
    simp only [Side.sign] at hbn hnp ⊢
    refine ⟨⟨?_, ?_, ?_, ha', ?_, ?_, ?_, hb', hd'⟩, by split <;> omega⟩ <;> omega
  | right =>
    simp only [Side.sign] at hbn hnp ⊢
    refine ⟨⟨?_, ?_, ?_, ha', ?_, ?_, ?_, hb', hd'⟩, by split <;> omega⟩ <;> omega

/-- `n` leans to the other side, where its child `q` comes up over both. -/
theorem balanced_rotate_double {b1 b2 : BinTree ν} {q : ν}
    (hn : HeightBalanced bal (.join s a n (.join s b1 q b2))) (hd : HeightBalanced bal d)
    (hh : (join s a n (.join s b1 q b2)).height = d.height + 2) (hl : bal n = -s.sign)
    (he : ∀ z, z ∈ a.toList ∨ z ∈ b1.toList ∨ z ∈ b2.toList ∨ z ∈ d.toList → bal' z = bal z)
    (hq' : bal' q = 0)
    (hnp : bal q = s.sign ∧ bal' n = 0 ∧ bal' p = -s.sign ∨
      bal q = -s.sign ∧ bal' n = s.sign ∧ bal' p = 0 ∨ bal q = 0 ∧ bal' n = 0 ∧ bal' p = 0) :
    HeightBalanced bal' (.join s (.join s a n b1) q (.join s b2 p d)) ∧
      (join s (.join s a n b1) q (.join s b2 p d)).height = d.height + 2 := by
  obtain ⟨hbn, -, -, ha, hb⟩ := balanced_join.mp hn
  obtain ⟨hbq, -, -, hb1, hb2⟩ := balanced_join.mp hb
  simp only [balanced_join, height_join, hq'] at hh hbn ⊢
  have ha' := ha.congr fun z hz => he z (.inl hz)
  have hb1' := hb1.congr fun z hz => he z (.inr (.inl hz))
  have hb2' := hb2.congr fun z hz => he z (.inr (.inr (.inl hz)))
  have hd' := hd.congr fun z hz => he z (.inr (.inr (.inr hz)))
  rw [hl] at hbn
  cases s with
  | left =>
    simp only [Side.sign] at hbn hbq hnp ⊢
    refine ⟨⟨?_, ?_, ?_, ⟨?_, ?_, ?_, ha', hb1'⟩, ?_, ?_, ?_, hb2', hd'⟩, ?_⟩ <;> omega
  | right =>
    simp only [Side.sign] at hbn hbq hnp ⊢
    refine ⟨⟨?_, ?_, ?_, ⟨?_, ?_, ?_, ha', hb1'⟩, ?_, ?_, ?_, hb2', hd'⟩, ?_⟩ <;> omega

end Rotations

end LinkedTree
