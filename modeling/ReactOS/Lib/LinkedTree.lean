import Mathlib.Data.List.Nodup
import Mathlib.Logic.Equiv.Defs

/-! # Binary trees linked by parent and child pointers

    Nodes are addresses.  A `Store` gives every address a parent link and a child link on each
    side; `Linked` relates the links below an address to an abstract tree of addresses, and
    `WellLinked` says that a store holds a whole tree, whose root is its own parent.

    Rewriting a tree in place changes a few links around one node.  The node is brought into
    focus by a context (`Frame`s from the node up to the root), and the lemmas below say what a
    store has to satisfy around the focus, so that a rewriting has to be justified only there. -/

namespace LinkedTree

open List Option

universe u

/-! ## Section 1: Sides, trees, contexts -/

inductive Side where
  | left
  | right
  deriving DecidableEq, Repr

variable {s : Side}

namespace Side

def other : Side → Side
  | left => right
  | right => left

@[simp, grind =] theorem other_other (s : Side) : s.other.other = s := by cases s <;> rfl

@[simp, grind .] theorem other_ne (s : Side) : s.other ≠ s := by cases s <;> decide

@[simp] theorem ne_other (s : Side) : s ≠ s.other := by cases s <;> decide

theorem eq_other {t : Side} (h : t ≠ s) : t = s.other := by
  cases s <;> cases t <;> simp_all [other]

end Side

/-- The list that has `y` at its end on side `s`. -/
def sideCons {α : Type u} (s : Side) (y : α) (l : List α) : List α :=
  match s with
  | .left => y :: l
  | .right => l ++ [y]

inductive BinTree (ν : Type u) where
  | nil
  | node (l : BinTree ν) (n : ν) (r : BinTree ν)

variable {ν : Type u}

namespace BinTree

/-- The nodes from left to right. -/
def toList : BinTree ν → List ν
  | nil => []
  | node l n r => l.toList ++ n :: r.toList

def root? : BinTree ν → Option ν
  | nil => none
  | node _ n _ => some n

/-- The tree whose root `n` has `a` on side `s` and `b` on the other side. -/
def join : Side → BinTree ν → ν → BinTree ν → BinTree ν
  | .left, a, n, b => node a n b
  | .right, a, n, b => node b n a

@[simp] theorem toList_nil : (nil : BinTree ν).toList = [] := rfl

@[simp] theorem toList_node (l : BinTree ν) (n : ν) (r : BinTree ν) :
    (node l n r).toList = l.toList ++ n :: r.toList := rfl

theorem toList_eq_nil {t : BinTree ν} (h : t.toList = []) : t = nil := by
  cases t with
  | nil => rfl
  | node => simp at h

section Join

variable (s) (a : BinTree ν) (n : ν) (b : BinTree ν)

@[simp] theorem root?_join : (join s a n b).root? = some n := by cases s <;> rfl

/-- A tree with root `n` can be written with either side first. -/
theorem node_eq_join : ∃ a' b', node a n b = join s a' n b' := by
  cases s
  · exact ⟨a, b, rfl⟩
  · exact ⟨b, a, rfl⟩

theorem join_eq_node : ∃ a' b', join s a n b = node a' n b' := by
  cases s
  · exact ⟨a, b, rfl⟩
  · exact ⟨b, a, rfl⟩

theorem join_other : join s.other a n b = join s b n a := by
  cases s <;> rfl

theorem perm_join : (join s a n b).toList.Perm (n :: (a.toList ++ b.toList)) := by
  cases s
  · exact perm_middle
  · exact perm_middle.trans (perm_append_comm.cons n)

@[simp] theorem mem_join (x : ν) :
    x ∈ (join s a n b).toList ↔ x = n ∨ x ∈ a.toList ∨ x ∈ b.toList := by
  rw [(perm_join s a n b).mem_iff, mem_cons, mem_append]

theorem length_lt_join : a.toList.length < (join s a n b).toList.length := by
  rw [(perm_join s a n b).length_eq, length_cons, length_append]
  omega

theorem nodup_join :
    (join s a n b).toList.Nodup ↔ a.toList.Nodup ∧ b.toList.Nodup ∧
      n ∉ a.toList ∧ n ∉ b.toList ∧ ∀ x ∈ a.toList, x ∉ b.toList := by
  rw [(perm_join s a n b).nodup_iff, nodup_cons, nodup_append', mem_append, not_or]
  simp only [List.Disjoint]
  tauto

end Join

end BinTree

/-- One step up from a subtree: it is the `side` child of `node`, whose other child is `sib`. -/
structure Frame (ν : Type u) where
  side : Side
  node : ν
  sib : BinTree ν

/-- The frames from a subtree up to the root of the whole tree. -/
abbrev Ctx (ν : Type u) := List (Frame ν)

/-- The whole tree that has `t` in the hole of the context. -/
def plug : Ctx ν → BinTree ν → BinTree ν
  | [], t => t
  | f :: c, t => plug c (BinTree.join f.side t f.node f.sib)

/-- The nodes of a context. -/
def Ctx.nodes : Ctx ν → List ν
  | [] => []
  | f :: c => f.node :: (f.sib.toList ++ Ctx.nodes c)

/-- What precedes the hole from left to right. -/
def Ctx.before : Ctx ν → List ν
  | [] => []
  | f :: c => Ctx.before c ++ match f.side with
    | .left => []
    | .right => f.sib.toList ++ [f.node]

/-- What follows the hole from left to right. -/
def Ctx.after : Ctx ν → List ν
  | [] => []
  | f :: c => (match f.side with
    | .left => f.node :: f.sib.toList
    | .right => []) ++ Ctx.after c

open BinTree Ctx

@[simp] theorem plug_nil (t : BinTree ν) : plug [] t = t := rfl

@[simp] theorem plug_cons (f : Frame ν) (c : Ctx ν) (t : BinTree ν) :
    plug (f :: c) t = plug c (BinTree.join f.side t f.node f.sib) := rfl

variable (c d : Ctx ν) (t : BinTree ν)

theorem plug_append : plug (c ++ d) t = plug d (plug c t) := by
  induction c generalizing t with
  | nil => rfl
  | cons f c ih => exact ih _

theorem Ctx.nodes_append : nodes (c ++ d) = c.nodes ++ d.nodes := by
  induction c with
  | nil => rfl
  | cons f c ih => simp [nodes, ih]

theorem Ctx.before_append : before (c ++ d) = d.before ++ c.before := by
  induction c with
  | nil => simp [before]
  | cons f c ih => simp [before, ih]

theorem Ctx.after_append : Ctx.after (c ++ d) = c.after ++ d.after := by
  induction c with
  | nil => simp [Ctx.after]
  | cons f c ih => simp [Ctx.after, ih]

theorem toList_plug : (plug c t).toList = c.before ++ t.toList ++ c.after := by
  induction c generalizing t with
  | nil => simp [before, Ctx.after]
  | cons f c ih =>
    obtain ⟨s, n, sib⟩ := f
    rw [plug_cons, ih]
    cases s <;> simp [BinTree.join, before, Ctx.after]

/-- A tree in a context has the nodes of both. -/
theorem perm_plug : (plug c t).toList.Perm (t.toList ++ c.nodes) := by
  induction c generalizing t with
  | nil => simp [nodes]
  | cons f c ih =>
    refine (ih _).trans (((perm_join ..).append_right _).trans ?_)
    rw [nodes, cons_append, append_assoc]
    exact perm_middle.symm

theorem mem_plug (x : ν) : x ∈ (plug c t).toList ↔ x ∈ t.toList ∨ x ∈ c.nodes := by
  rw [(perm_plug c t).mem_iff, mem_append]

theorem nodup_plug : (plug c t).toList.Nodup ↔
    t.toList.Nodup ∧ c.nodes.Nodup ∧ ∀ x ∈ t.toList, x ∉ c.nodes := by
  rw [(perm_plug c t).nodup_iff, nodup_append']
  rfl

theorem length_plug : (plug c t).toList.length = t.toList.length + c.nodes.length := by
  rw [(perm_plug c t).length_eq, length_append]

theorem Ctx.length_le_nodes : c.length ≤ c.nodes.length := by
  induction c with
  | nil => simp
  | cons f c ih =>
    simp only [nodes, length_cons, length_append]
    omega

theorem root?_plug_cons (f : Frame ν) (c : Ctx ν) (t t' : BinTree ν) :
    (plug (f :: c) t).root? = (plug (f :: c) t').root? := by
  induction c generalizing f t t' with
  | nil => simp
  | cons g c ih =>
    rw [plug_cons, plug_cons]
    exact ih g _ _

variable {c t} {a b : BinTree ν} {n : ν}

/-- Trees with the same sequence of nodes give whole trees with the same sequence. -/
theorem toList_plug_congr {t' : BinTree ν} (h : t'.toList = t.toList) :
    (plug c t').toList = (plug c t).toList := by
  rw [toList_plug, toList_plug, h]

/-- The root is the focus or belongs to the context. -/
theorem root?_plug_node {r : ν}
    (h : (plug c (.node a n b)).root? = some r) : r = n ∨ r ∈ c.nodes := by
  induction c generalizing a b n with
  | nil => exact .inl (some.inj h).symm
  | cons f c ih =>
    obtain ⟨a', b', hj⟩ := join_eq_node f.side (.node a n b) f.node f.sib
    rw [plug_cons, hj] at h
    rcases ih h with rfl | hr
    · exact .inr (by simp [nodes])
    · exact .inr (by simp [nodes, hr])

variable {x : ν}

/-- Every node of a tree can be brought into focus. -/
theorem exists_plug (h : x ∈ t.toList) : ∃ c a b, t = plug c (.node a x b) := by
  suffices H : ∀ (t : BinTree ν) (c0 : Ctx ν), x ∈ t.toList →
      ∃ c a b, plug c0 t = plug c (.node a x b) from H t [] h
  intro t
  induction t with
  | nil => intro c0 h; simp at h
  | node l n r ihl ihr =>
    intro c0 h
    simp only [toList_node, mem_append, mem_cons] at h
    rcases h with h | rfl | h
    · exact ihl (⟨.left, n, r⟩ :: c0) h
    · exact ⟨c0, l, r, rfl⟩
    · exact ihr (⟨.right, n, l⟩ :: c0) h

theorem exists_join (s : Side) (h : x ∈ t.toList) : ∃ c a b, t = plug c (.join s a x b) := by
  obtain ⟨c, a, b, rfl⟩ := exists_plug h
  obtain ⟨a', b', hj⟩ := node_eq_join s a x b
  exact ⟨c, a', b', by rw [hj]⟩

/-! ## Section 2: Stores of links -/

/-- The links of every address. -/
@[ext] structure Store (ν : Type u) where
  parent : ν → ν
  child : Side → ν → Option ν

namespace Store

variable [DecidableEq ν]

def setParent (m : Store ν) (n p : ν) : Store ν :=
  { m with parent := fun x => if x = n then p else m.parent x }

def setChild (m : Store ν) (s : Side) (n : ν) (o : Option ν) : Store ν :=
  { m with child := fun t x => if t = s ∧ x = n then o else m.child t x }

/-- The node behind a link, if there is one, gets a new parent. -/
def adopt (m : Store ν) (o : Option ν) (p : ν) : Store ν :=
  match o with
  | none => m
  | some c => m.setParent c p

/-- All links of a node at once. -/
def setLinks (m : Store ν) (n p : ν) (k : Side → Option ν) : Store ν where
  parent x := if x = n then p else m.parent x
  child s x := if x = n then k s else m.child s x

variable (m : Store ν)

@[simp, grind =] theorem setLinks_parent (n p : ν) (k : Side → Option ν) (x : ν) :
    (m.setLinks n p k).parent x = if x = n then p else m.parent x := rfl

@[simp, grind =] theorem setLinks_child (n p : ν) (k : Side → Option ν) (s : Side) (x : ν) :
    (m.setLinks n p k).child s x = if x = n then k s else m.child s x := rfl

@[simp, grind =] theorem setParent_parent (n p x : ν) :
    (m.setParent n p).parent x = if x = n then p else m.parent x := rfl

@[simp, grind =] theorem setParent_child (n p : ν) (s : Side) (x : ν) :
    (m.setParent n p).child s x = m.child s x := rfl

@[simp, grind =] theorem setChild_parent (s : Side) (n : ν) (o : Option ν) (x : ν) :
    (m.setChild s n o).parent x = m.parent x := rfl

@[simp, grind =] theorem setChild_child (s : Side) (n : ν) (o : Option ν) (t : Side) (x : ν) :
    (m.setChild s n o).child t x = if t = s ∧ x = n then o else m.child t x := rfl

@[simp, grind =] theorem adopt_parent (o : Option ν) (p x : ν) :
    (m.adopt o p).parent x = if o = some x then p else m.parent x := by
  cases o with
  | none => rfl
  | some c => simp only [adopt, setParent_parent, some.injEq, eq_comm]

@[simp, grind =] theorem adopt_child (o : Option ν) (p : ν) (s : Side) (x : ν) :
    (m.adopt o p).child s x = m.child s x := by
  cases o <;> rfl

end Store

/-! ## Section 3: A store holds a tree -/

variable {m m' : Store ν} {p : ν} {o : Option ν} {f : Frame ν}

/-- Behind the link `o` of the address `p` the store holds the tree `t`. -/
def Linked (m : Store ν) : ν → Option ν → BinTree ν → Prop
  | _, o, .nil => o = none
  | p, o, .node l n r =>
    o = some n ∧ m.parent n = p ∧ Linked m n (m.child .left n) l ∧ Linked m n (m.child .right n) r

@[simp] theorem linked_nil : Linked m p o .nil ↔ o = none := Iff.rfl

theorem linked_join : Linked m p o (.join s a n b) ↔ o = some n ∧ m.parent n = p ∧
      Linked m n (m.child s n) a ∧ Linked m n (m.child s.other n) b := by
  cases s
  · rfl
  · simp only [BinTree.join, Linked, Side.other]
    tauto

theorem Linked.root?_eq (h : Linked m p o t) : t.root? = o := by
  cases t with
  | nil => exact h.symm
  | node l n r => exact h.1.symm

theorem Linked.mem (h : Linked m p (some x) t) : x ∈ t.toList := by
  cases t with
  | nil => simp at h
  | node l n r =>
    obtain rfl : x = n := some.inj h.1
    simp

theorem Linked.eq_nil (h : Linked m p none t) : t = .nil := by
  cases t with
  | nil => rfl
  | node l n r => simp [Linked] at h

theorem Linked.eq_none (h : Linked m p o t) (ht : t.toList = []) : o = none := by
  rwa [toList_eq_nil ht] at h

theorem Linked.eq_node (h : Linked m p (some x) t) : ∃ a b, t = .node a x b := by
  cases t with
  | nil => simp at h
  | node l n r =>
    obtain rfl : x = n := some.inj h.1
    exact ⟨l, r, rfl⟩

theorem Linked.parent_eq (h : Linked m p (some x) t) : m.parent x = p := by
  obtain ⟨a, b, rfl⟩ := h.eq_node
  exact h.2.1

namespace Linked

variable (h : Linked m p o t) (hd : t.toList.Nodup)
  (hc : ∀ x ∈ t.toList, ∀ s, m'.child s x = m.child s x)

include h hd hc

/-- A tree moves to another store, and under another parent, if the child links of its nodes and
the parent links below its root are the same there. -/
theorem transfer {p' : ν} (hp : ∀ x ∈ t.toList, o ≠ some x → m'.parent x = m.parent x)
    (hr : ∀ x, o = some x → m'.parent x = p') : Linked m' p' o t := by
  induction t generalizing p p' o with
  | nil => exact h
  | node l n r ihl ihr =>
    obtain ⟨rfl, -, hl, hr'⟩ := h
    have hd' : l.toList.Nodup ∧ r.toList.Nodup ∧ n ∉ l.toList ∧ n ∉ r.toList ∧
        ∀ x ∈ l.toList, x ∉ r.toList := (nodup_join .left l n r).mp hd
    obtain ⟨hdl, hdr, hnl, hnr, -⟩ := hd'
    have hml : ∀ x ∈ l.toList, x ∈ (node l n r).toList := fun x hx => by simp [hx]
    have hmr : ∀ x ∈ r.toList, x ∈ (node l n r).toList := fun x hx => by simp [hx]
    have hkl : ∀ x ∈ l.toList, m'.parent x = m.parent x := by
      intro x hx
      apply hp x (hml x hx)
      rintro ⟨⟩
      exact hnl hx
    have hkr : ∀ x ∈ r.toList, m'.parent x = m.parent x := by
      intro x hx
      apply hp x (hmr x hx)
      rintro ⟨⟩
      exact hnr hx
    have hcn : ∀ s, m'.child s n = m.child s n := hc n (by simp)
    refine ⟨rfl, hr n rfl, ?_, ?_⟩
    · rw [hcn]
      apply ihl hl hdl (fun x hx => hc x (hml x hx)) (fun x hx _ => hkl x hx)
      intro x hx
      rw [hx] at hl
      rw [hkl x hl.mem, hl.parent_eq]
    · rw [hcn]
      apply ihr hr' hdr (fun x hx => hc x (hmr x hx)) (fun x hx _ => hkr x hx)
      intro x hx
      rw [hx] at hr'
      rw [hkr x hr'.mem, hr'.parent_eq]

/-- A tree stays where it is if the links of its nodes are unchanged. -/
theorem congr (hp : ∀ x ∈ t.toList, m'.parent x = m.parent x) : Linked m' p o t := by
  apply h.transfer hd hc (fun x hx _ => hp x hx)
  rintro x rfl
  rw [hp x h.mem, h.parent_eq]

end Linked

/-- The address `x` stands in the hole of the context: its parent links to it and it to its
parent, or it is the root. -/
def Hangs (m : Store ν) : Ctx ν → ν → Prop
  | [], x => m.parent x = x
  | f :: _, x => m.parent x = f.node ∧ m.child f.side f.node = some x

/-- The store holds everything of the context except the link into its hole. -/
def Surround (m : Store ν) : Ctx ν → Prop
  | [] => True
  | f :: c => Linked m f.node (m.child f.side.other f.node) f.sib ∧ Hangs m c f.node ∧ Surround m c

/-- A store holds a whole tree: no address occurs twice, and the root is its own parent. -/
structure WellLinked (m : Store ν) (t : BinTree ν) : Prop where
  nodup : t.toList.Nodup
  linked : ∀ r, t.root? = some r → Linked m r (some r) t

theorem wellLinked_join : WellLinked m (.join s a x b) ↔ (BinTree.join s a x b).toList.Nodup ∧
      m.parent x = x ∧ Linked m x (m.child s x) a ∧ Linked m x (m.child s.other x) b := by
  constructor
  · rintro ⟨hd, hl⟩
    exact ⟨hd, (linked_join.mp (hl x (root?_join ..))).2⟩
  · rintro ⟨hd, hl⟩
    refine ⟨hd, fun r hr => ?_⟩
    obtain rfl : x = r := by simpa using hr
    exact linked_join.mpr ⟨rfl, hl⟩

/-- A tree in a context that is not empty, seen at the hole. -/
theorem wellLinked_plug_cons :
    WellLinked m (plug (f :: c) t) ↔ (plug (f :: c) t).toList.Nodup ∧ Surround m (f :: c) ∧
      Linked m f.node (m.child f.side f.node) t := by
  induction c generalizing f t with
  | nil =>
    rw [plug_cons, plug_nil, wellLinked_join]
    simp only [Surround, Hangs]
    tauto
  | cons g c ih =>
    rw [plug_cons, ih, linked_join]
    simp only [Surround, Hangs]
    tauto

/-- A whole tree seen at one of its nodes. -/
theorem wellLinked_plug :
    WellLinked m (plug c (.join s a x b)) ↔ (plug c (.join s a x b)).toList.Nodup ∧
      Surround m c ∧ Hangs m c x ∧ Linked m x (m.child s x) a ∧ Linked m x (m.child s.other x) b := by
  cases c with
  | nil =>
    rw [plug_nil, wellLinked_join]
    simp only [Surround, Hangs, true_and]
  | cons f c =>
    rw [wellLinked_plug_cons, linked_join]
    simp only [Hangs]
    tauto

theorem Hangs.congr (h : Hangs m c x) (hx : m'.parent x = m.parent x)
    (hc : ∀ f ∈ c.head?, m'.child f.side f.node = m.child f.side f.node) : Hangs m' c x := by
  cases c with
  | nil => exact hx.trans h
  | cons f c => exact ⟨hx.trans h.1, (hc f rfl).trans h.2⟩

/-- A context stays where it is if the links of its nodes are unchanged, the link into its hole
apart. -/
theorem Surround.congr (h : Surround m c) (hd : c.nodes.Nodup)
    (hp : ∀ x ∈ c.nodes, m'.parent x = m.parent x)
    (hc : ∀ x ∈ c.nodes, ∀ s, (∀ f ∈ c.head?, x = f.node → s ≠ f.side) →
      m'.child s x = m.child s x) : Surround m' c := by
  induction c with
  | nil => trivial
  | cons f c ih =>
    obtain ⟨hs, hh, hr⟩ := h
    simp only [nodes, nodup_cons, nodup_append, mem_append, not_or] at hd
    obtain ⟨⟨hfs, hfc⟩, hds, hdc, hsc⟩ := hd
    simp only [nodes, mem_cons, mem_append, head?_cons, mem_def,
      some.injEq, forall_eq'] at hp hc
    -- below the first frame all links of the context are unchanged
    have hcc : ∀ x ∈ nodes c, ∀ s, m'.child s x = m.child s x := by grind
    refine ⟨?_, ?_, ih hr hdc (fun x hx => hp x (.inr (.inr hx))) (fun x hx s _ => hcc x hx s)⟩
    · rw [hc f.node (.inl rfl) f.side.other (fun _ => Side.other_ne _)]
      apply hs.congr hds
      · grind
      · exact fun x hx => hp x (.inr (.inl hx))
    · apply hh.congr (hp _ (.inl rfl))
      intro g hg
      apply hcc
      cases c with
      | nil => simp at hg
      | cons g' c =>
        obtain rfl : g' = g := by simpa using hg
        simp [nodes]

/-! ## Section 4: Rotations -/

theorem Linked.ne_some (h : Linked m p o t) (hx : x ∉ t.toList) : o ≠ some x := by
  rintro rfl
  exact hx h.mem

theorem Ctx.mem_nodes_of_head (h : f ∈ c.head?) : f.node ∈ c.nodes := by
  cases c with
  | nil => simp at h
  | cons g c =>
    obtain rfl : g = f := by simpa using h
    simp [nodes]

/-- The node above a focus has one link to it. -/
theorem Surround.child_other_ne {g : ν} (hs : Surround m c)
    (hg : g ∉ c.nodes) : ∀ f ∈ c.head?, m.child f.side.other f.node ≠ some g := by
  intro f hf
  cases c with
  | nil => simp at hf
  | cons f' c =>
    obtain rfl : f' = f := by simpa using hf
    apply hs.1.ne_some
    intro hx
    simp [nodes, hx] at hg

theorem toList_rotate (s : Side) (a b d : BinTree ν) (n p : ν) :
    (BinTree.join s a n (.join s b p d)).toList = (BinTree.join s (.join s a n b) p d).toList := by
  cases s <;> simp [BinTree.join]

section Rotate

variable [DecidableEq ν]

/-- The node `n` is put into the hole of a context. -/
def Store.attach (m : Store ν) (c : Ctx ν) (n : ν) : Store ν :=
  match c with
  | [] => m.setParent n n
  | f :: _ => (m.setParent n f.node).setChild f.side f.node (some n)

theorem Store.attach_parent (m : Store ν) (c : Ctx ν) (h : x ≠ n) :
    (m.attach c n).parent x = m.parent x := by
  cases c <;> simp [attach, h]

theorem Store.attach_child (m : Store ν) (c : Ctx ν) (n : ν) {t : Side}
    (h : ∀ f ∈ c.head?, x = f.node → t ≠ f.side) : (m.attach c n).child t x = m.child t x := by
  cases c with
  | nil => rfl
  | cons f c =>
    have hf := h f rfl
    have hne : ¬ (t = f.side ∧ x = f.node) := fun e => hf e.2 e.1
    simp [attach, hne]

theorem Store.attach_child_of_not_mem (m : Store ν) (n : ν) (t : Side)
    (h : x ∉ c.nodes) : (m.attach c n).child t x = m.child t x := by
  apply attach_child
  rintro f hf rfl
  exact absurd (mem_nodes_of_head hf) h

theorem Store.attach_hangs (m : Store ν) (c : Ctx ν) (n : ν) : Hangs (m.attach c n) c n := by
  cases c <;> simp [attach, Hangs]

/-- In the context `c` the node `n`, which is the child of `p` on side `s`, changes places with
`p`: it takes over the hole, and `p` takes the child that stood between them. -/
def rotate (m : Store ν) (c : Ctx ν) (s : Side) (n p : ν) : Store ν :=
  let m := m.setChild s p (m.child s.other n)
  let m := m.adopt (m.child s p) p
  let m := m.attach c n
  (m.setChild s.other n (some p)).setParent p n

theorem rotate_wellLinked {d : BinTree ν}
    (h : WellLinked m (plug c (.join s (.join s a n b) p d))) :
    WellLinked (rotate m c s n p) (plug c (.join s a n (.join s b p d))) := by
  have hd := h.nodup
  have hd' : (plug c (.join s a n (.join s b p d))).toList.Nodup := by
    rw [toList_plug_congr (toList_rotate s a b d n p)]
    exact hd
  rw [wellLinked_plug] at h ⊢
  obtain ⟨-, hs, -, hl, hdl⟩ := h
  obtain ⟨-, -, ha, hb⟩ := linked_join.mp hl
  simp only [nodup_plug, nodup_join, mem_join] at hd
  obtain ⟨⟨⟨da, db, hna, hnb, hab⟩, dd, hp, hpd, hnd⟩, hc, hdc⟩ := hd
  have hpn : p ≠ n := fun e => hp (.inl e)
  have hbc := fun x => hb.ne_some (x := x)
  -- the links of the new store, away from the hole of the context
  have hpar : ∀ x, x ≠ n → x ≠ p → x ∉ b.toList → (rotate m c s n p).parent x = m.parent x := by
    intro x h1 h2 h3
    simp [rotate, Store.attach_parent, h1, h2, hbc x h3]
  have hpb : ∀ x ∈ b.toList, m.child s.other n ≠ some x →
      (rotate m c s n p).parent x = m.parent x := by
    intro x hx h1
    have h2 : x ≠ n := fun e => hnb (e ▸ hx)
    have h3 : x ≠ p := fun e => hp (.inr (.inr (e ▸ hx)))
    simp [rotate, Store.attach_parent, h1, h2, h3]
  have hchild : ∀ t x, x ≠ n → x ≠ p → (∀ f ∈ c.head?, x = f.node → t ≠ f.side) →
      (rotate m c s n p).child t x = m.child t x := by
    intro t x h1 h2 h3
    simp [rotate, Store.attach_child _ _ _ h3, h1, h2]
  have hchild' : ∀ t x, x ≠ n → x ≠ p → x ∉ c.nodes →
      (rotate m c s n p).child t x = m.child t x := by
    intro t x h1 h2 h3
    exact hchild t x h1 h2 fun f hf e => absurd (mem_nodes_of_head hf) (e ▸ h3)
  have hnc : n ∉ c.nodes := hdc n (.inr (.inl (.inl rfl)))
  have hpc : p ∉ c.nodes := hdc p (.inl rfl)
  refine ⟨hd', ?_, ?_, ?_, ?_⟩
  · -- the context
    apply hs.congr hc
    · grind
    · intro x hx t ht
      exact hchild t x (fun e => hnc (e ▸ hx)) (fun e => hpc (e ▸ hx)) ht
  · -- `n` in its hole
    apply Hangs.congr (Store.attach_hangs
      ((m.setChild s p (m.child s.other n)).adopt (m.child s.other n) p) c n)
    · simp [rotate, hpn.symm]
    · intro f hf
      have hfn : f.node ≠ n := fun e => hnc (e ▸ mem_nodes_of_head hf)
      simp [rotate, hfn]
  · have hcn : (rotate m c s n p).child s n = m.child s n := by
      simp [rotate, Store.attach_child_of_not_mem _ _ _ hnc, hpn.symm]
    rw [hcn]
    apply ha.congr da
    · intro x hx t
      refine hchild' t x ?_ ?_ (hdc x (.inr (.inl (.inr (.inl hx)))))
      · exact fun e => hna (e ▸ hx)
      · exact fun e => hp (.inr (.inl (e ▸ hx)))
    · intro x hx
      refine hpar x ?_ ?_ (hab x hx)
      · exact fun e => hna (e ▸ hx)
      · exact fun e => hp (.inr (.inl (e ▸ hx)))
  · rw [linked_join]
    refine ⟨by simp [rotate], by simp [rotate], ?_, ?_⟩
    · have hcp : (rotate m c s n p).child s p = m.child s.other n := by
        simp [rotate, Store.attach_child_of_not_mem _ _ _ hpc]
      rw [hcp]
      apply hb.transfer db
      · intro x hx t
        refine hchild' t x ?_ ?_ (hdc x (.inr (.inl (.inr (.inr hx)))))
        · exact fun e => hnb (e ▸ hx)
        · exact fun e => hp (.inr (.inr (e ▸ hx)))
      · exact hpb
      · intro x hx
        have hxb : x ∈ b.toList := by
          rw [hx] at hb
          exact hb.mem
        have h2 : x ≠ n := fun e => hnb (e ▸ hxb)
        have h3 : x ≠ p := fun e => hp (.inr (.inr (e ▸ hxb)))
        simp [rotate, Store.attach_parent, h2, h3, hx]
    · have hcp : (rotate m c s n p).child s.other p = m.child s.other p := by
        simp [rotate, Store.attach_child_of_not_mem _ _ _ hpc, hpn]
      rw [hcp]
      apply hdl.congr dd
      · grind
      · grind

/-- A new node without children is hung into an empty hole. -/
theorem graft_wellLinked
    (h : WellLinked m (plug (f :: c) .nil)) (hn : n ∉ (plug (f :: c) .nil).toList) :
    WellLinked ((((m.setChild .left n none).setChild .right n none).setChild f.side f.node
      (some n)).setParent n f.node) (plug (f :: c) (.node .nil n .nil)) := by
  obtain ⟨hd, hs, -⟩ := wellLinked_plug_cons.mp h
  rw [nodup_plug] at hd
  rw [mem_plug] at hn
  simp only [toList_nil, not_mem_nil, false_or] at hn
  have hfn : f.node ≠ n := by
    rintro rfl
    exact hn (by simp [nodes])
  have hd' : (plug (f :: c) (.node .nil n .nil)).toList.Nodup := by
    rw [nodup_plug]
    refine ⟨by simp, hd.2.1, ?_⟩
    intro x hx
    obtain rfl : x = n := by simpa using hx
    exact hn
  rw [wellLinked_plug_cons]
  refine ⟨hd', ?_, ?_⟩
  · apply hs.congr hd.2.1
    · intro x hx
      have hxn : x ≠ n := fun e => hn (e ▸ hx)
      simp [hxn]
    · grind
  · simp [Linked, hfn.symm]

/-- The subtree behind the link `o` takes the place of the tree in the hole. -/
def Store.splice (m : Store ν) (c : Ctx ν) (o : Option ν) : Store ν :=
  match c with
  | [] => match o with
    | none => m
    | some x => m.setParent x x
  | f :: _ => (m.setChild f.side f.node o).adopt o f.node

/-- A node that has one child at most is replaced by that child. -/
theorem splice_wellLinked (h : WellLinked m (plug c (.join s a n .nil))) :
    WellLinked (m.splice c (m.child s n)) (plug c a) := by
  obtain ⟨hd, hs, -, ha, -⟩ := wellLinked_plug.mp h
  simp only [nodup_plug, nodup_join, mem_join] at hd
  obtain ⟨⟨da, -, hna, -, -⟩, hc, hdc⟩ := hd
  have hac : ∀ x ∈ a.toList, x ∉ c.nodes := fun x hx => hdc x (.inr (.inl hx))
  have hd' : (plug c a).toList.Nodup := (nodup_plug c a).mpr ⟨da, hc, hac⟩
  cases c with
  | nil =>
    -- the child becomes the root, which is its own parent
    cases ho : m.child s n with
    | none =>
      rw [ho] at ha
      obtain rfl := ha.eq_nil
      exact ⟨hd', fun r hr => by simp [plug, root?] at hr⟩
    | some x =>
      rw [ho] at ha
      refine ⟨hd', ?_⟩
      intro r hr
      have hr' : some x = some r := ha.root?_eq.symm.trans hr
      obtain rfl : x = r := some.inj hr'
      apply ha.transfer da
      · intro y _ t
        rfl
      · intro y _ hy
        have hne : y ≠ x := fun e => hy (congrArg some e.symm)
        simp [Store.splice, hne]
      · rintro y ⟨⟩
        simp [Store.splice]
  | cons f c =>
    rw [wellLinked_plug_cons]
    have hroot : ∀ x, m.child s n = some x → x ∈ a.toList := fun x hx => (hx ▸ ha).mem
    have hfa : f.node ∉ a.toList := fun hx => hac _ hx (by simp [nodes])
    refine ⟨hd', ?_, ?_⟩
    · apply hs.congr hc
      · intro x hx
        have hne : m.child s n ≠ some x := fun e => hac x (hroot x e) hx
        simp [Store.splice, hne]
      · intro x _ t ht
        have hne : ¬ (t = f.side ∧ x = f.node) := fun e => ht f rfl e.2 e.1
        simp [Store.splice, hne]
    · have hlink : (m.splice (f :: c) (m.child s n)).child f.side f.node = m.child s n := by
        simp [Store.splice]
      rw [hlink]
      apply ha.transfer da
      · intro x hx t
        have hne : x ≠ f.node := fun e => hfa (e ▸ hx)
        simp [Store.splice, hne]
      · intro x _ hne
        simp [Store.splice, hne]
      · intro x hx
        simp [Store.splice, hx]

end Rotate

/-! ## Section 5: Local facts and renaming -/

variable {y : ν}

namespace WellLinked

variable (h : WellLinked m t)

include h

/-- A child links back to its parent and belongs to the tree. -/
theorem parent_of_child (hy : y ∈ t.toList) (hx : m.child s y = some x) :
    m.parent x = y ∧ x ∈ t.toList := by
  obtain ⟨c, a, b, rfl⟩ := exists_join s hy
  obtain ⟨-, -, -, ha, -⟩ := wellLinked_plug.mp h
  rw [hx] at ha
  exact ⟨ha.parent_eq, by simp [mem_plug, ha.mem]⟩

/-- A node that is not its own parent is a child of its parent. -/
theorem child_of_parent (hx : x ∈ t.toList) (hr : m.parent x ≠ x) :
    m.parent x ∈ t.toList ∧ ∃ s, m.child s (m.parent x) = some x := by
  obtain ⟨c, a, b, rfl⟩ := exists_join .left hx
  obtain ⟨-, -, hh, -, -⟩ := wellLinked_plug.mp h
  cases c with
  | nil => exact absurd hh hr
  | cons f c =>
    obtain ⟨hp, hc⟩ := hh
    rw [hp]
    exact ⟨by simp [mem_plug], f.side, hc⟩

theorem side_unique {s' : Side} (hy : y ∈ t.toList) (hx : m.child s y = some x)
    (hx' : m.child s' y = some x) : s = s' := by
  by_contra hne
  obtain rfl := Side.eq_other (Ne.symm hne)
  obtain ⟨c, a, b, rfl⟩ := exists_join s hy
  obtain ⟨hd, -, -, ha, hb⟩ := wellLinked_plug.mp h
  rw [nodup_plug, nodup_join] at hd
  rw [hx] at ha
  rw [hx'] at hb
  exact hd.1.2.2.2.2 x ha.mem hb.mem

/-- The root is the one node that is its own parent. -/
theorem root?_of_parent (hx : x ∈ t.toList) (hr : m.parent x = x) : t.root? = some x := by
  obtain ⟨c, a, b, rfl⟩ := exists_plug hx
  obtain ⟨hd, -, hh, -, -⟩ := (wellLinked_plug (s := .left)).mp h
  cases c with
  | nil => rfl
  | cons f c =>
    have hne : f.node ≠ x := by
      rintro rfl
      exact ((nodup_plug _ _).mp hd).2.2 f.node (by simp) (by simp [nodes])
    exact absurd (hh.1.symm.trans hr) hne

/-- A node is not the grandparent of itself, unless it is the root. -/
theorem parent_parent_ne (hx : x ∈ t.toList) (hr : m.parent x ≠ x) : m.parent (m.parent x) ≠ x := by
  obtain ⟨c, a, b, rfl⟩ := exists_plug hx
  obtain ⟨hd, hs, hh, -, -⟩ := (wellLinked_plug (s := .left)).mp h
  have hn : x ∉ c.nodes := ((nodup_plug _ _).mp hd).2.2 x (by simp)
  cases c with
  | nil => exact absurd hh hr
  | cons f c =>
    rw [hh.1] at hr ⊢
    have hf := hs.2.1
    cases c with
    | nil =>
      have hf' : m.parent f.node = f.node := hf
      rwa [hf']
    | cons g c =>
      rw [hf.1]
      rintro rfl
      simp [nodes] at hn

theorem child_ne_self (hy : y ∈ t.toList) (s : Side) : m.child s y ≠ some y := by
  obtain ⟨c, a, b, rfl⟩ := exists_join s hy
  obtain ⟨hd, -, -, ha, -⟩ := wellLinked_plug.mp h
  rw [nodup_plug, nodup_join] at hd
  exact ha.ne_some hd.1.2.2.1

/-- Only the links of the nodes of the tree matter. -/
theorem congr (hp : ∀ x ∈ t.toList, m'.parent x = m.parent x)
    (hc : ∀ x ∈ t.toList, ∀ s, m'.child s x = m.child s x) : WellLinked m' t :=
  ⟨h.nodup, fun r hr => (h.linked r hr).congr h.nodup hc hp⟩

end WellLinked

def BinTree.map {μ : Type u} (φ : ν → μ) : BinTree ν → BinTree μ
  | nil => nil
  | node l n r => node (l.map φ) (φ n) (r.map φ)

theorem BinTree.toList_map {μ : Type u} (φ : ν → μ) (t : BinTree ν) :
    (t.map φ).toList = t.toList.map φ := by
  induction t with
  | nil => rfl
  | node l n r ihl ihr => simp [BinTree.map, ihl, ihr]

theorem BinTree.root?_map {μ : Type u} (φ : ν → μ) (t : BinTree ν) :
    (t.map φ).root? = t.root?.map φ := by
  cases t <;> rfl

/-- The store in which every address is replaced by another one. -/
def Store.rename (σ : Equiv.Perm ν) (m : Store ν) : Store ν where
  parent x := σ (m.parent (σ.symm x))
  child s x := (m.child s (σ.symm x)).map σ

theorem Linked.rename (σ : Equiv.Perm ν)
    (h : Linked m p o t) : Linked (m.rename σ) (σ p) (o.map σ) (t.map σ) := by
  induction t generalizing p o with
  | nil => simpa [BinTree.map] using h
  | node l n r ihl ihr =>
    obtain ⟨rfl, hp, hl, hr⟩ := h
    refine ⟨rfl, by simp [Store.rename, hp], ?_, ?_⟩
    · simpa [Store.rename] using ihl hl
    · simpa [Store.rename] using ihr hr

theorem WellLinked.rename (σ : Equiv.Perm ν) (h : WellLinked m t) :
    WellLinked (m.rename σ) (t.map σ) := by
  constructor
  · rw [BinTree.toList_map]
    exact h.nodup.map σ.injective
  · intro r hr
    rw [root?_map, map_eq_some_iff] at hr
    obtain ⟨q, hq, rfl⟩ := hr
    exact (h.linked q hq).rename σ

end LinkedTree
