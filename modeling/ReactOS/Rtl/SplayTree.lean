import ReactOS.Lib.LinkedTree
import Mathlib.Logic.Equiv.Basic

/-! # Splay links

    The functions of `splaytree.c` over a store of `RTL_SPLAY_LINKS`.  A link that is `NULL` is
    `none`; the root of a tree is the node that is its own parent.  The loops take fuel, and the
    theorems below say that on a well-linked tree some amount of it is enough. -/

namespace Rtl

open LinkedTree BinTree Ctx Equiv
open List hiding rotate map swap after

universe u

variable {ν : Type u} [DecidableEq ν]

/-! ## Section 1: The link macros -/

def rtlIsRoot (m : Store ν) (n : ν) : Bool := m.parent n = n

/-- `RtlIsLeftChild` and `RtlIsRightChild`. -/
def rtlIsChild (s : Side) (m : Store ν) (n : ν) : Bool := m.child s (m.parent n) = some n

abbrev rtlIsLeftChild (m : Store ν) (n : ν) : Bool := rtlIsChild .left m n

abbrev rtlIsRightChild (m : Store ν) (n : ν) : Bool := rtlIsChild .right m n

/-- `RtlInsertAsLeftChild` and `RtlInsertAsRightChild`. -/
def rtlInsertAsChild (s : Side) (m : Store ν) (p n : ν) : Store ν :=
  (m.setChild s p (some n)).setParent n p

/-! ## Section 2: RtlSplay -/

/-- The part common to the four double rotations: `n` takes the place of `g`, as the root or
below the parent of `g`. -/
def takePlace (m : Store ν) (g n : ν) : Store ν :=
  if rtlIsRoot m g then m.setParent n n
  else
    let m := m.setParent n (m.parent g)
    if rtlIsLeftChild m g then m.setChild .left (m.parent g) (some n)
    else m.setChild .right (m.parent g) (some n)

/-- Cases 1 and 2: `n` and its parent `p` are children on the same side.  (The second case
makes the first two assignments, and the two after them, in the opposite order.) -/
def zigZig (s : Side) (m : Store ν) (n p g : ν) : Store ν :=
  let m := m.setChild s p (m.child s.other n)
  let m := m.setChild s g (m.child s.other p)
  let m := m.adopt (m.child s p) p
  let m := m.adopt (m.child s g) g
  let m := takePlace m g n
  let m := (m.setChild s.other n (some p)).setParent p n
  (m.setChild s.other p (some g)).setParent g p

/-- Cases 3 and 4: `n` is the child of `p` on side `s` and `p` that of `g` on the other side. -/
def zigZag (s : Side) (m : Store ν) (n p g : ν) : Store ν :=
  let m := m.setChild s.other g (m.child s n)
  let m := m.setChild s p (m.child s.other n)
  let m := m.adopt (m.child s.other g) g
  let m := m.adopt (m.child s p) p
  let m := takePlace m g n
  let m := (m.setChild s n (some g)).setParent g n
  (m.setChild s.other n (some p)).setParent p n

/-- The last case on each side: `p` is the root. -/
def zig (s : Side) (m : Store ν) (n p : ν) : Store ν :=
  let m := m.setChild s p (m.child s.other n)
  let m := m.adopt (m.child s p) p
  let m := m.setParent n n
  (m.setChild s.other n (some p)).setParent p n

/-- The body of the loop of `RtlSplay`. -/
def rtlSplayStep (m : Store ν) (n : ν) : Store ν :=
  let p := m.parent n
  let g := m.parent p
  if rtlIsLeftChild m n then
    if rtlIsLeftChild m p then zigZig .left m n p g
    else if rtlIsRightChild m p then zigZag .left m n p g
    else zig .left m n p
  else
    if rtlIsRightChild m p then zigZig .right m n p g
    else if rtlIsLeftChild m p then zigZag .right m n p g
    else zig .right m n p

/-- `RtlSplay`, which returns `n`. -/
def rtlSplay : Nat → Store ν → ν → Option (Store ν)
  | 0, m, n => if rtlIsRoot m n then some m else none
  | k + 1, m, n => if rtlIsRoot m n then some m else rtlSplay k (rtlSplayStep m n) n

/-! ### What the macros read at a focus -/

variable {m : Store ν} {n : ν} {f : Frame ν} {c : Ctx ν}

theorem isRoot_of_hangs_nil (h : Hangs m [] n) : rtlIsRoot m n = true := by
  simpa [rtlIsRoot, Hangs] using h

theorem isRoot_of_hangs_cons
    (h : Hangs m (f :: c) n) (hn : n ∉ nodes (f :: c)) : rtlIsRoot m n = false := by
  have hne : f.node ≠ n := by
    rintro rfl
    exact hn (by simp [nodes])
  simpa [rtlIsRoot, h.1] using hne

/-- Below a parent a node is the child on the side its frame says, and on no other. -/
theorem isChild_of_hangs (s : Side) (h : Hangs m (f :: c) n) (hs : Surround m (f :: c))
    (hn : n ∉ nodes (f :: c)) : rtlIsChild s m n = decide (s = f.side) := by
  obtain ⟨hp, hc⟩ := h
  by_cases e : s = f.side
  · subst e
    simp [rtlIsChild, hp, hc]
  obtain rfl := Side.eq_other e
  have hne : m.child f.side.other f.node ≠ some n := by
    intro hx
    have hl := hs.1
    rw [hx] at hl
    exact hn (by simp [nodes, hl.mem])
  simpa [rtlIsChild, hp] using hne

variable {g p : ν} {s : Side} {e a b : BinTree ν}

/-- What a node reads off its links to its parent. -/
theorem parent_facts (h : WellLinked m (plug (f :: c) (.node a n b))) :
    m.parent n = f.node ∧ rtlIsRoot m n = false ∧ ∀ s, rtlIsChild s m n = decide (s = f.side) := by
  obtain ⟨hd, hs, hh, -, -⟩ := (wellLinked_plug (s := .left)).mp h
  have hn : n ∉ nodes (f :: c) := ((nodup_plug _ _).mp hd).2.2 n (by simp)
  exact ⟨hh.1, isRoot_of_hangs_cons hh hn, fun s => isChild_of_hangs s hh hs hn⟩

/-! ### A double rotation is two single ones -/

/-- What tells apart the addresses of a double rotation: the three nodes, the node above them,
and the roots of the two subtrees that change hands. -/
structure Apart (m : Store ν) (c : Ctx ν) (n p g : ν) (o₁ o₂ : Option ν) : Prop where
  pn : p ≠ n
  gp : g ≠ p
  gn : g ≠ n
  first : ∀ x, o₁ = some x → x ≠ n ∧ x ≠ p ∧ x ≠ g ∧ o₂ ≠ some x
  second : ∀ x, o₂ = some x → x ≠ n ∧ x ≠ p ∧ x ≠ g
  above : ∀ f ∈ c.head?, f.node ≠ n ∧ f.node ≠ p ∧ f.node ≠ g ∧
    m.child f.side.other f.node ≠ some g
  hangs : Hangs m c g

/-- After the children have changed hands `n` takes the place of `g`. -/
theorem Apart.takePlace {o₁ o₂ : Option ν} {m' : Store ν} (h : Apart m c n p g o₁ o₂)
    (hparent : m'.parent g = m.parent g)
    (hchild : ∀ s x, x ≠ p → x ≠ g → m'.child s x = m.child s x) :
    takePlace m' g n = m'.attach c n := by
  obtain ⟨-, -, hgn, -, -, ha, hh⟩ := h
  cases c with
  | nil =>
    have hr : m'.parent g = g := hparent.trans hh
    simp [Rtl.takePlace, rtlIsRoot, hr, Store.attach]
  | cons f c =>
    obtain ⟨hp, hc⟩ := hh
    cases f with
    | mk side node sib =>
      cases side <;> simp_all [Rtl.takePlace, rtlIsRoot, rtlIsChild, Store.attach, Side.other]

theorem zigZig_eq (h : Apart m c n p g (m.child s.other n) (m.child s.other p)) :
    zigZig s m n p g = rotate (rotate m c s p g) c s n p := by
  have ⟨hpn, hgp, hgn, h1, h2, ha, _⟩ := h
  let m1 := (m.setChild s p (m.child s.other n)).setChild s g (m.child s.other p)
  let m2 := (m1.adopt (m.child s.other n) p).adopt (m.child s.other p) g
  have ht : takePlace m2 g n = m2.attach c n :=
    h.takePlace (by grind) fun s x hxp hxg => by simp [m2, m1, hxp, hxg]
  have hz : zigZig s m n p g =
      (((((takePlace m2 g n).setChild s.other n (some p)).setParent p n).setChild s.other p
        (some g)).setParent g p) := by
    simp [zigZig, m2, m1, hgp.symm]
  rw [hz, ht]
  cases c with
  | nil =>
    ext x
    · simp [rotate, Store.attach, m2, m1]
      grind
    · simp [rotate, Store.attach, m2, m1]
      grind
  | cons f c =>
    ext x
    · simp [rotate, Store.attach, m2, m1]
      grind
    · simp [rotate, Store.attach, m2, m1]
      grind

theorem zigZag_eq (h : Apart m c n p g (m.child s n) (m.child s.other n)) :
    zigZag s m n p g = rotate (rotate m (⟨s.other, g, e⟩ :: c) s n p) c s.other n g := by
  have ⟨hpn, hgp, hgn, h1, h2, ha, _⟩ := h
  let m1 := (m.setChild s.other g (m.child s n)).setChild s p (m.child s.other n)
  let m2 := (m1.adopt (m.child s n) g).adopt (m.child s.other n) p
  have ht : takePlace m2 g n = m2.attach c n :=
    h.takePlace (by grind) fun s x hxp hxg => by simp [m2, m1, hxp, hxg]
  have hz : zigZag s m n p g =
      (((((takePlace m2 g n).setChild s n (some g)).setParent g n).setChild s.other n
        (some p)).setParent p n) := by
    simp [zigZag, m2, m1, hgp, hgn.symm]
  rw [hz, ht]
  cases c with
  | nil =>
    ext x
    · simp [rotate, Store.attach, m2, m1]
      grind
    · simp [rotate, Store.attach, m2, m1]
      grind
  | cons f c =>
    ext x
    · simp [rotate, Store.attach, m2, m1]
      grind
    · simp [rotate, Store.attach, m2, m1]
      grind

theorem zigZig_wellLinked {d : BinTree ν}
    (h : WellLinked m (plug c (.join s (.join s (.join s a n b) p d) g e))) :
    WellLinked (zigZig s m n p g) (plug c (.join s a n (.join s b p (.join s d g e)))) := by
  have hap : Apart m c n p g (m.child s.other n) (m.child s.other p) := by
    obtain ⟨hd, hs, hh, hl, -⟩ := wellLinked_plug.mp h
    obtain ⟨-, -, hl, hdl⟩ := linked_join.mp hl
    obtain ⟨-, -, -, hb⟩ := linked_join.mp hl
    simp only [nodup_plug, nodup_join, mem_join] at hd
    have hbm : ∀ x, m.child s.other n = some x → x ∈ b.toList := fun x hx => (hx ▸ hb).mem
    have hdm : ∀ x, m.child s.other p = some x → x ∈ d.toList := fun x hx => (hx ▸ hdl).mem
    have hgc : g ∉ c.nodes := hd.2.2 g (.inl rfl)
    have hab := hs.child_other_ne hgc
    have hmem := fun f => mem_nodes_of_head (c := c) (f := f)
    constructor <;> grind
  rw [zigZig_eq hap]
  -- first `p` over `g`, then `n` over `p`
  have h1 := rotate_wellLinked h
  exact rotate_wellLinked h1

theorem zigZag_wellLinked {d : BinTree ν}
    (h : WellLinked m (plug c (.join s.other (.join s (.join s a n b) p d) g e))) :
    WellLinked (zigZag s m n p g) (plug c (.join s (.join s e g a) n (.join s b p d))) := by
  have hap : Apart m c n p g (m.child s n) (m.child s.other n) := by
    obtain ⟨hd, hs, hh, hl, -⟩ := wellLinked_plug.mp h
    obtain ⟨-, -, hl, -⟩ := linked_join.mp hl
    obtain ⟨-, -, ha, hb⟩ := linked_join.mp hl
    simp only [nodup_plug, nodup_join, mem_join] at hd
    have ham : ∀ x, m.child s n = some x → x ∈ a.toList := fun x hx => (hx ▸ ha).mem
    have hbm : ∀ x, m.child s.other n = some x → x ∈ b.toList := fun x hx => (hx ▸ hb).mem
    have hgc : g ∉ c.nodes := hd.2.2 g (.inl rfl)
    have hab := hs.child_other_ne hgc
    have hmem := fun f => mem_nodes_of_head (c := c) (f := f)
    constructor <;> grind
  rw [zigZag_eq (e := e) hap]
  -- first `n` over `p`, below `g`, then `n` over `g`
  have h1 := rotate_wellLinked (c := ⟨s.other, g, e⟩ :: c) h
  rw [plug_cons, ← join_other s] at h1
  have h2 := rotate_wellLinked h1
  rwa [join_other, join_other] at h2

omit [DecidableEq ν] in
theorem toList_zigZag (s : Side) (a b d e : BinTree ν) (n p g : ν) :
    (join s (.join s e g a) n (.join s b p d)).toList =
      (join s.other (.join s (.join s a n b) p d) g e).toList := by
  cases s <;> simp [join, Side.other]

/-! ### The loop -/

/-- The root of a tree is nobody's child. -/
theorem isChild_of_root
    (h : WellLinked m (plug [] (.join s a p b))) (t : Side) : rtlIsChild t m p = false := by
  obtain ⟨hd, -, hp, ha, hb⟩ := wellLinked_plug.mp h
  rw [nodup_plug, nodup_join] at hd
  have hp' : m.parent p = p := hp
  have hne : m.child t p ≠ some p := by
    by_cases e : t = s
    · subst e
      exact ha.ne_some hd.1.2.2.1
    · obtain rfl := Side.eq_other e
      exact hb.ne_some hd.1.2.2.2.1
  simpa [rtlIsChild, hp'] using hne

/-- One turn of the loop keeps the sequence of nodes and brings `n` nearer to the root. -/
theorem rtlSplayStep_spec (h : WellLinked m (plug (f :: c) (.node a n b))) :
    ∃ c' a' b', c'.length ≤ c.length ∧
      WellLinked (rtlSplayStep m n) (plug c' (.node a' n b')) ∧
      (plug c' (.node a' n b')).toList = (plug (f :: c) (.node a n b)).toList := by
  obtain ⟨s, p, d⟩ := f
  obtain ⟨hpar, -, hside⟩ := parent_facts h
  obtain ⟨a1, b1, hab⟩ := node_eq_join s a n b
  rw [hab] at h ⊢
  rw [plug_cons] at h ⊢
  cases c with
  | nil =>
    have hroot := isChild_of_root h
    have hstep : rtlSplayStep m n = zig s m n p := by
      cases s <;> simp [rtlSplayStep, hpar, hside, hroot]
    obtain ⟨a', b', hj⟩ := join_eq_node s a1 n (.join s b1 p d)
    refine ⟨[], a', b', by simp, ?_, ?_⟩
    · rw [hstep, ← hj]
      exact rotate_wellLinked h
    · rw [← hj]
      exact toList_plug_congr (toList_rotate ..)
  | cons g c =>
    obtain ⟨t, q, e⟩ := g
    obtain ⟨a2, b2, hab'⟩ := join_eq_node s (.join s a1 n b1) p d
    obtain ⟨hpar', -, hside'⟩ := parent_facts (hab' ▸ h)
    by_cases e' : t = s
    · -- both on the same side
      subst e'
      have hstep : rtlSplayStep m n = zigZig t m n p q := by
        cases t <;> simp [rtlSplayStep, hpar, hpar', hside, hside']
      obtain ⟨a', b', hj⟩ := join_eq_node t a1 n (.join t b1 p (.join t d q e))
      refine ⟨c, a', b', by simp, ?_, ?_⟩
      · rw [hstep, ← hj]
        exact zigZig_wellLinked h
      · rw [← hj]
        exact toList_plug_congr ((toList_rotate ..).trans (toList_rotate ..))
    · obtain rfl := Side.eq_other e'
      have hstep : rtlSplayStep m n = zigZag s m n p q := by
        cases s <;> simp [rtlSplayStep, hpar, hpar', hside, hside', Side.other]
      obtain ⟨a', b', hj⟩ := join_eq_node s (.join s e q a1) n (.join s b1 p d)
      refine ⟨c, a', b', by simp, ?_, ?_⟩
      · rw [hstep, ← hj]
        exact zigZag_wellLinked h
      · rw [← hj]
        exact toList_plug_congr (toList_zigZag ..)

/-- `RtlSplay` ends with `n` as the root and the same sequence of nodes. -/
theorem rtlSplay_plug (h : WellLinked m (plug c (.node a n b))) :
    ∃ m' a' b', (∀ k, c.length ≤ k → rtlSplay k m n = some m') ∧ WellLinked m' (.node a' n b') ∧
      (node a' n b').toList = (plug c (.node a n b)).toList := by
  -- induction on the depth of `n`, which every turn of the loop lowers
  induction hk : c.length using Nat.strongRecOn generalizing m c a b with
  | _ j ih =>
    subst hk
    cases c with
    | nil =>
      have hr : rtlIsRoot m n = true :=
        isRoot_of_hangs_nil (wellLinked_plug (s := .left) (c := []) |>.mp h).2.2.1
      refine ⟨m, a, b, ?_, h, rfl⟩
      intro k _
      cases k <;> simp [rtlSplay, hr]
    | cons f c =>
      have hr := (parent_facts h).2.1
      obtain ⟨c', a', b', hlen, hw, hl⟩ := rtlSplayStep_spec h
      obtain ⟨m', a'', b'', hrun, hw', hl'⟩ := ih c'.length (by simp; omega) hw rfl
      refine ⟨m', a'', b'', ?_, hw', hl'.trans hl⟩
      intro k hk
      simp only [length_cons] at hk
      obtain _ | k := k
      · omega
      rw [rtlSplay, hr]
      exact hrun k (by omega)

/-! ## Section 3: SwapSplayLinks -/

variable {x : ν} {t : BinTree ν}

def sideOf (leftChild : Bool) : Side := if leftChild then .left else .right

/-- A child, if there is one, is inserted where it stands. -/
def relink (s : Side) (m : Store ν) (n : ν) : Store ν :=
  match m.child s n with
  | some x => rtlInsertAsChild s m n x
  | none => m

def fixupChildLinks (m : Store ν) (n : ν) (root leftChild : Bool) : Store ν :=
  let m := relink .left m n
  let m := relink .right m n
  if root then m else rtlInsertAsChild (sideOf leftChild) m (m.parent n) n

/-- The first half of `SwapSplayLinks`: the links of `a` and `b` are exchanged, and if `a` was
the parent of `b`, then `b` becomes that of `a`. -/
def exchangeLinks (m : Store ν) (a b : ν) : Store ν :=
  let pa := m.parent a
  let pb := m.parent b
  let m₁ := (m.setLinks b pa fun s => m.child s a).setLinks a pb fun s => m.child s b
  if pb = a then
    let m₂ := if rtlIsRoot m a then m₁
      else rtlInsertAsChild (sideOf (rtlIsLeftChild m a)) m₁ pa b
    rtlInsertAsChild (sideOf (rtlIsLeftChild m b)) m₂ b a
  else m₁

/-- `SwapSplayLinks` once `a` is the one that may be the root or the parent of the other. -/
def swapLinks (m : Store ν) (a b : ν) : Store ν :=
  let rootA := rtlIsRoot m a
  let leftA := rtlIsLeftChild m a
  let leftB := rtlIsLeftChild m b
  let m := exchangeLinks m a b
  let m := fixupChildLinks m a false leftB
  let m := fixupChildLinks m b rootA leftA
  if rootA then m.setParent b b else m

def swapSplayLinks (m : Store ν) (a b : ν) : Store ν :=
  if m.parent a = b || rtlIsRoot m b then swapLinks m b a else swapLinks m a b

@[grind =] theorem insertAsChild_parent (s : Side) (m : Store ν) (p n x : ν) :
    (rtlInsertAsChild s m p n).parent x = if x = n then p else m.parent x := rfl

@[grind =] theorem insertAsChild_child (s t : Side) (m : Store ν) (p n x : ν) :
    (rtlInsertAsChild s m p n).child t x = if t = s ∧ x = p then some n else m.child t x := rfl

theorem relink_eq (s : Side) (m : Store ν) (n : ν) : relink s m n = m.adopt (m.child s n) n := by
  cases h : m.child s n with
  | none => simp [relink, h, Store.adopt]
  | some x =>
    ext y
    · simp [relink, h, rtlInsertAsChild, eq_comm]
    · simp only [relink, h, rtlInsertAsChild, Store.setParent_child, Store.adopt_child]
      grind

/-- What `FixupChildLinks` does for `n`. -/
structure FixedUp (m m' : Store ν) (n : ν) (root left : Bool) : Prop where
  child : ∀ s x, m'.child s x =
    if root = false ∧ s = sideOf left ∧ x = m.parent n then some n else m.child s x
  kids : ∀ s x, m.child s n = some x → m'.parent x = n
  parent : ∀ x, (∀ s, m.child s n ≠ some x) → m'.parent x = m.parent x

theorem fixupChildLinks_spec (root left : Bool) (hl : ∀ s, m.child s n ≠ some n) :
    FixedUp m (fixupChildLinks m n root left) n root left := by
  simp only [fixupChildLinks, relink_eq]
  constructor
  · cases root <;> grind
  · intro s x hx
    cases root <;> cases s <;> grind
  · cases root <;> grind

theorem sideOf_isLeftChild (h : WellLinked m t) (hx : m.parent x ∈ t.toList)
    (hs : m.child s (m.parent x) = some x) : sideOf (rtlIsLeftChild m x) = s := by
  by_cases e : m.child .left (m.parent x) = some x
  · obtain rfl := h.side_unique hx e hs
    simp [sideOf, rtlIsChild, e]
  have hne : s ≠ .left := by
    rintro rfl
    exact e hs
  obtain rfl := Side.eq_other hne
  simp [sideOf, rtlIsChild, e, Side.other]

theorem map_swap_of_ne {a b : ν} {o : Option ν} (ha : o ≠ some a) (hb : o ≠ some b) :
    o.map (swap a b) = o := by
  cases o with
  | none => rfl
  | some x =>
    simp only [ne_eq, Option.some.injEq] at ha hb
    simp [swap_apply_of_ne_of_ne ha hb]

/-- The links of `a` and `b` have changed places, with the link between them turned round; the
rest of the tree still points to the old places.  `up` is the side of `a` below its parent. -/
structure Exchanged (m m' : Store ν) (a b : ν) (up : Option Side) : Prop where
  childA : ∀ s, m'.child s a = m.child s b
  childB : ∀ s, m'.child s b = (m.child s a).map (Equiv.swap a b)
  child : ∀ s x, x ≠ a → x ≠ b → ¬ (up = some s ∧ x = m.parent a) → m'.child s x = m.child s x
  parentA : m'.parent a = Equiv.swap a b (m.parent b)
  parentB : up ≠ none → m'.parent b = m.parent a
  parent : ∀ x, x ≠ a → x ≠ b → m'.parent x = m.parent x

/-- The side of a node below its parent, if it is not the root. -/
def upSide (m : Store ν) (a : ν) : Option Side :=
  if m.parent a = a then none else some (sideOf (rtlIsLeftChild m a))

section Swap

variable {m : Store ν} {t : BinTree ν} {a b : ν} (h : WellLinked m t) (ha : a ∈ t.toList) (hb : b ∈ t.toList)
  (hab : a ≠ b) (hpa : m.parent a ≠ b) (hrb : m.parent b ≠ b)

include h ha hb hab hpa hrb

theorem exchangeLinks_spec : Exchanged m (exchangeLinks m a b) a b (upSide m a) := by
  obtain ⟨hqt, sB, hsB⟩ := h.child_of_parent hb hrb
  have hleftB : sideOf (rtlIsLeftChild m b) = sB := sideOf_isLeftChild h hqt hsB
  have hla := h.child_ne_self ha
  by_cases hq : m.parent b = a
  · -- `a` is the parent of `b`
    rw [hq] at hsB
    have hkeep : ∀ s, s ≠ sB → (m.child s a).map (swap a b) = m.child s a := by
      intro s hs
      exact map_swap_of_ne (hla s) fun e => hs (h.side_unique ha e hsB)
    obtain ⟨m1, hm1⟩ : ∃ m1, m1 = if rtlIsRoot m a then
        (m.setLinks b (m.parent a) fun s => m.child s a).setLinks a a fun s => m.child s b
      else rtlInsertAsChild (sideOf (rtlIsLeftChild m a))
        ((m.setLinks b (m.parent a) fun s => m.child s a).setLinks a a fun s => m.child s b)
        (m.parent a) b := ⟨_, rfl⟩
    have e : exchangeLinks m a b = rtlInsertAsChild sB m1 b a := by
      simp [exchangeLinks, hq, hm1, hleftB]
    have hroot : rtlIsRoot m a = decide (m.parent a = a) := rfl
    rw [e]
    constructor
    · grind
    · grind
    · grind [upSide]
    · simp [rtlInsertAsChild, hq]
    · grind [upSide]
    · grind
  · have hne : ∀ s, m.child s a ≠ some b := fun s e => hq (h.parent_of_child ha e).1
    have e : exchangeLinks m a b = (m.setLinks b (m.parent a) fun s => m.child s a).setLinks a
        (m.parent b) fun s => m.child s b := by
      simp [exchangeLinks, hq]
    rw [e]
    constructor
    · grind
    · intro s
      rw [map_swap_of_ne (hla s) (hne s)]
      grind
    · grind
    · rw [swap_apply_of_ne_of_ne hq hrb]
      simp
    · grind
    · grind

/-- The links after both calls of `FixupChildLinks`. -/
structure Settled (m m' : Store ν) (t : BinTree ν) (a b : ν) : Prop where
  child : ∀ s, ∀ x ∈ t.toList, x ≠ a → x ≠ b → m'.child s x = (m.child s x).map (Equiv.swap a b)
  childA : ∀ s, m'.child s a = m.child s b
  childB : ∀ s, m'.child s b = (m.child s a).map (Equiv.swap a b)
  parentA : m'.parent a = Equiv.swap a b (m.parent b)
  parentB : m.parent a ≠ a → m'.parent b = m.parent a
  kidsA : ∀ s x, x ≠ b → m.child s a = some x → m'.parent x = b
  kidsB : ∀ s x, m.child s b = some x → m'.parent x = a
  parent : ∀ x, x ≠ a → x ≠ b → (∀ s, m.child s a ≠ some x) → (∀ s, m.child s b ≠ some x) →
    m'.parent x = m.parent x

section Fixups

variable {m₂ m₃ m₄ : Store ν} (hE : Exchanged m m₂ a b (upSide m a))
  (h₃ : FixedUp m₂ m₃ a false (rtlIsLeftChild m b))

include hE h₃

omit ha hpa in
/-- The children `b` has after the first call are those `a` had. -/
theorem fixup_childB (s : Side) : m₃.child s b = (m.child s a).map (swap a b) := by
  obtain ⟨hqt, sB, hsB⟩ := h.child_of_parent hb hrb
  have hleftB : sideOf (rtlIsLeftChild m b) = sB := sideOf_isLeftChild h hqt hsB
  have hswx : ∀ x, x ≠ a → x ≠ b → swap a b x = x := fun x => swap_apply_of_ne_of_ne
  rw [h₃.child, hE.parentA, hE.childB]
  split_ifs with e
  · grind
  · rfl

omit ha hpa in
theorem child_of_fixup {s : Side} {y : ν} (e : m₃.child s b = some y) :
    m.child s a = some (swap a b y) := by
  rw [fixup_childB h hb hab hrb hE h₃, Option.map_eq_some_iff] at e
  obtain ⟨z, hz, rfl⟩ := e
  rwa [swap_apply_self]

variable (h₄ : FixedUp m₃ m₄ b (rtlIsRoot m a) (rtlIsLeftChild m a))

include h₄

omit hpa in
/-- The children of the other nodes: whoever had `a` or `b` has the other one now. -/
theorem fixups_child (s : Side) (x : ν) (hx : x ∈ t.toList) (hxa : x ≠ a) (hxb : x ≠ b) :
    m₄.child s x = (m.child s x).map (swap a b) := by
  obtain ⟨hqt, sB, hsB⟩ := h.child_of_parent hb hrb
  have hleftB : sideOf (rtlIsLeftChild m b) = sB := sideOf_isLeftChild h hqt hsB
  have hsA : m.parent a ≠ a → m.child (sideOf (rtlIsLeftChild m a)) (m.parent a) = some a := by
    intro e
    obtain ⟨hp, s', hs'⟩ := h.child_of_parent ha e
    rw [sideOf_isLeftChild h hp hs']
    exact hs'
  have hpar : ∀ y, m.child s x = some y → m.parent y = x :=
    fun y e => (h.parent_of_child hx e).1
  have hun := fun (s s' : Side) (y : ν) (e : m.child s x = some y)
    (e' : m.child s' x = some y) => h.side_unique hx e e'
  have hroot : rtlIsRoot m a = decide (m.parent a = a) := rfl
  have hp3b : m₃.parent b = m₂.parent b :=
    h₃.parent b fun s => hE.childA s ▸ h.child_ne_self hb s
  have hb2 : m.parent a ≠ a → m₂.parent b = m.parent a :=
    fun e => hE.parentB (by simp [upSide, e])
  have hpA := hE.parentA
  have hc2 := hE.child s x hxa hxb
  simp only [upSide] at hc2
  rw [h₄.child, h₃.child]
  by_cases h1 : m.child s x = some a
  · grind
  by_cases h2 : m.child s x = some b
  · grind
  · rw [map_swap_of_ne h1 h2]
    grind

end Fixups

theorem fixups_spec {m₂ : Store ν} (hE : Exchanged m m₂ a b (upSide m a)) :
    Settled m (fixupChildLinks (fixupChildLinks m₂ a false (rtlIsLeftChild m b)) b
      (rtlIsRoot m a) (rtlIsLeftChild m a)) t a b := by
  have hla := h.child_ne_self ha
  have hlb := h.child_ne_self hb
  have hkb : ∀ s x, m.child s b = some x → m.parent x = b :=
    fun s x e => (h.parent_of_child hb e).1
  have hka : ∀ s x, m.child s a = some x → m.parent x = a :=
    fun s x e => (h.parent_of_child ha e).1
  have hroot : rtlIsRoot m a = decide (m.parent a = a) := rfl
  have hswa : swap a b a = b := swap_apply_left a b
  have hswb : swap a b b = a := swap_apply_right a b
  have hswx : ∀ x, x ≠ a → x ≠ b → swap a b x = x := fun x => swap_apply_of_ne_of_ne
  -- neither call finds its node among the node's own children
  have h₃ := fixupChildLinks_spec false (rtlIsLeftChild m b) (n := a) (m := m₂)
    fun s e => hpa (hkb s a (hE.childA s ▸ e))
  generalize fixupChildLinks m₂ a false _ = m₃ at h₃ ⊢
  have hc3 := fun s x => child_of_fixup h hb hab hrb hE h₃ (s := s) (y := x)
  have h₄ := fixupChildLinks_spec (rtlIsRoot m a) (rtlIsLeftChild m a) (n := b) (m := m₃)
    fun s e => hla s ((hc3 s b e).trans (congrArg some hswb))
  generalize fixupChildLinks m₃ b _ _ = m₄ at h₄ ⊢
  have hp3 : ∀ x, (∀ s, m.child s b ≠ some x) → m₃.parent x = m₂.parent x :=
    fun x e => h₃.parent x fun s => hE.childA s ▸ e s
  have hp3b := hp3 b hlb
  have hb2 : m.parent a ≠ a → m₂.parent b = m.parent a :=
    fun e => hE.parentB (by simp [upSide, e])
  have hpA := hE.parentA
  have hcB := fixup_childB h hb hab hrb hE h₃
  have hc4 := h₄.child
  have hp4 : ∀ x, (∀ s, m.child s a ≠ some (swap a b x)) → m₄.parent x = m₃.parent x :=
    fun x e => h₄.parent x fun s e' => e s (hc3 s x e')
  constructor
  · exact fixups_child h ha hb hab hrb hE h₃ h₄
  · intro s
    rw [h₄.child, h₃.child, hE.childA]
    grind
  · intro s
    grind
  · -- `a` is now below the old parent of `b`, or below `b`
    by_cases hq : m.parent b = a
    · obtain ⟨-, sB, hsB⟩ := h.child_of_parent hb hrb
      rw [hq] at hsB ⊢
      rw [hswa]
      apply h₄.kids sB
      rw [hcB, hsB]
      simp
    rw [← hpA, hp4 a, hp3 a fun s e => hpa (hkb s a e)]
    intro s e
    exact hq (hka s b (hswa ▸ e))
  · intro e
    rw [hp4 b (by grind), hp3b, hb2 e]
  · intro s x hx e
    apply h₄.kids s
    rw [hcB, e, Option.map_some, hswx x (fun e' => hla s (e' ▸ e)) hx]
  · intro s x e
    have hxa : x ≠ a := fun e' => hpa (hkb s a (e' ▸ e))
    have hxb : x ≠ b := fun e' => hlb s (e' ▸ e)
    rw [hp4 x, h₃.kids s x ((hE.childA s).trans e)]
    intro s' e'
    have h1 := hka s' _ e'
    grind
  · intro x hxa hxb h1 h2
    rw [hp4 x, hp3 x h2, hE.parent x hxa hxb]
    intro s e
    grind

theorem swapLinks_wellLinked : WellLinked (swapLinks m a b) (t.map (swap a b)) := by
  have hS := fixups_spec h ha hb hab hpa hrb (exchangeLinks_spec h ha hb hab hpa hrb)
  obtain ⟨m4, hm4⟩ : ∃ m4, m4 = fixupChildLinks (fixupChildLinks (exchangeLinks m a b) a false
    (rtlIsLeftChild m b)) b (rtlIsRoot m a) (rtlIsLeftChild m a) := ⟨_, rfl⟩
  have hsw : swapLinks m a b = if rtlIsRoot m a then m4.setParent b b else m4 := by
    rw [hm4]
    rfl
  have hroot : rtlIsRoot m a = decide (m.parent a = a) := rfl
  rw [← hm4] at hS
  have hswa : swap a b a = b := swap_apply_left a b
  have hswb : swap a b b = a := swap_apply_right a b
  have hswx : ∀ x, x ≠ a → x ≠ b → swap a b x = x := fun x => swap_apply_of_ne_of_ne
  -- the nodes are the same, so it is enough to compare the links with the renamed ones
  have hmem : ∀ x ∈ (t.map (swap a b)).toList, x ∈ t.toList := by
    intro x hx
    rw [toList_map, mem_map] at hx
    obtain ⟨y, hy, rfl⟩ := hx
    grind
  apply (h.rename (swap a b)).congr
  · intro x hx
    have hcp := fun e => (h.child_of_parent (hmem x hx) e).2
    have hka : ∀ s, m.child s a = some x → m.parent x = a :=
      fun s e => (h.parent_of_child ha e).1
    have hkb : ∀ s, m.child s b = some x → m.parent x = b :=
      fun s e => (h.parent_of_child hb e).1
    simp only [Store.rename, symm_swap]
    by_cases hxa : x = a
    · subst hxa
      rw [hswa, ← hS.parentA, hsw]
      grind
    by_cases hxb : x = b
    · subst hxb
      have hpb := hS.parentB
      rw [hswb, hsw]
      grind
    have h4 : (swapLinks m a b).parent x = m4.parent x := by
      rw [hsw]
      grind
    have hkidA := fun s => hS.kidsA s x hxb
    have hkidB := fun s => hS.kidsB s x
    have hrest := hS.parent x hxa hxb
    rw [h4, hswx x hxa hxb]
    grind
  · intro x hx s
    have h4 : (swapLinks m a b).child s x = m4.child s x := by
      rw [hsw]
      split <;> rfl
    rw [h4]
    simp only [Store.rename, symm_swap]
    by_cases hxa : x = a
    · subst hxa
      rw [hswa, hS.childA, map_swap_of_ne]
      · exact fun e => hpa (h.parent_of_child hb e).1
      · exact h.child_ne_self hb s
    by_cases hxb : x = b
    · subst hxb
      rw [hswb, hS.childB]
    · rw [hswx x hxa hxb]
      exact hS.child s x (hmem x hx) hxa hxb

end Swap

/-- `SwapSplayLinks` exchanges the places of two nodes and nothing else. -/
theorem swapSplayLinks_wellLinked {a b : ν} (h : WellLinked m t)
    (ha : a ∈ t.toList) (hb : b ∈ t.toList) (hab : a ≠ b) :
    WellLinked (swapSplayLinks m a b) (t.map (swap a b)) := by
  by_cases hc : m.parent a = b ∨ m.parent b = b
  · have e : swapSplayLinks m a b = swapLinks m b a := by
      rcases hc with hc | hc <;> simp [swapSplayLinks, rtlIsRoot, hc]
    rw [e, Equiv.swap_comm]
    have hra : m.parent a ≠ a := by
      rcases hc with hc | hc
      · rw [hc]
        exact hab.symm
      intro hr
      have h1 := h.root?_of_parent ha hr
      rw [h.root?_of_parent hb hc] at h1
      exact hab (Option.some.inj h1).symm
    refine swapLinks_wellLinked h hb ha hab.symm ?_ hra
    rcases hc with rfl | hc
    · exact h.parent_parent_ne ha hra
    · rw [hc]
      exact hab.symm
  · simp only [not_or] at hc
    have e : swapSplayLinks m a b = swapLinks m a b := by
      simp [swapSplayLinks, rtlIsRoot, hc.1, hc.2]
    rw [e]
    exact swapLinks_wellLinked h ha hb hab hc.1 hc.2

/-! ## Section 4: RtlDelete and RtlDeleteNoSplay -/

/-- The loops `while (RtlRightChild(Child)) Child = RtlRightChild(Child)`, on either side. -/
def lastChild (s : Side) : Nat → Store ν → ν → Option ν
  | 0, m, x => if m.child s x = none then some x else none
  | k + 1, m, x => match m.child s x with
    | none => some x
    | some y => lastChild s k m y

def rtlSubtreePredecessor (k : Nat) (m : Store ν) (n : ν) : Option (Option ν) :=
  match m.child .left n with
  | none => some none
  | some x => (lastChild .right k m x).map some

/-- The first step of both functions: a node with two children is exchanged with its
predecessor, which is returned. -/
def swapWithPredecessor (k : Nat) (m : Store ν) (n : ν) : Option (Store ν × Option ν) :=
  if (m.child .left n).isSome && (m.child .right n).isSome then
    match rtlSubtreePredecessor k m n with
    | some (some sp) => some (swapSplayLinks m sp n, some sp)
    | _ => none
  else some (m, none)

/-- The child of a node that has one at most. -/
def onlyChild (m : Store ν) (n : ν) : Option ν :=
  match m.child .left n with
  | some x => some x
  | none => m.child .right n

/-- Whoever refers to `n` now refers to `o`. -/
def replaceReference (m : Store ν) (n : ν) (o : Option ν) : Store ν :=
  if rtlIsLeftChild m n then m.setChild .left (m.parent n) o
  else m.setChild .right (m.parent n) o

/-- `RtlDelete` with the root it returns. -/
def rtlDelete (k : Nat) (m : Store ν) (n : ν) : Option (Store ν × Option ν) := do
  let (m, _) ← swapWithPredecessor k m n
  match onlyChild m n with
  | none =>
    if rtlIsRoot m n then return (m, none)
    let p := m.parent n
    let m := replaceReference m n none
    let m ← rtlSplay k m p
    return (m, some p)
  | some c =>
    if rtlIsRoot m n then return (m.setParent c c, some c)
    let p := m.parent n
    let m := (replaceReference m n (some c)).setParent c p
    let m ← rtlSplay k m p
    return (m, some p)

/-- `RtlDeleteNoSplay` with the value of `*Root` it leaves. -/
def rtlDeleteNoSplay (k : Nat) (m : Store ν) (n : ν) (root : Option ν) :
    Option (Store ν × Option ν) := do
  let (m', sp) ← swapWithPredecessor k m n
  -- if `n` was the root, its predecessor is
  let root := if sp.isSome && rtlIsRoot m n then sp else root
  match onlyChild m' n with
  | none =>
    if rtlIsRoot m' n then return (m', none)
    return (replaceReference m' n none, root)
  | some c =>
    if rtlIsRoot m' n then return (m'.setParent c c, some c)
    return ((replaceReference m' n (some c)).setParent c (m'.parent n), root)

/-! ### The predecessor -/

/-- The loop on side `s` ends at the last node of the subtree on that side. -/
theorem lastChild_spec (s : Side) (h : Linked m p (some x) t) :
    ∃ y l, t.toList = sideCons s y l ∧ m.child s y = none ∧
      ∀ k, t.toList.length ≤ k → lastChild s k m x = some y := by
  induction hn : t.toList.length using Nat.strongRecOn generalizing t p x with
  | _ j ih =>
    subst hn
    obtain ⟨a', b', rfl⟩ := h.eq_node
    obtain ⟨a, b, hj⟩ := node_eq_join s a' x b'
    rw [hj] at h ih ⊢
    obtain ⟨-, -, ha, -⟩ := linked_join.mp h
    cases hc : m.child s x with
    | none =>
      rw [hc] at ha
      obtain rfl := ha.eq_nil
      refine ⟨x, b.toList, ?_, hc, ?_⟩
      · cases s <;> simp [join, sideCons]
      · intro k _
        cases k <;> simp [lastChild, hc]
    | some z =>
      rw [hc] at ha
      have hlen := length_lt_join s a x b
      obtain ⟨y, l, hl, hy, hrun⟩ := ih _ hlen ha rfl
      obtain ⟨l', hl'⟩ : ∃ l', (join s a x b).toList = sideCons s y l' := by
        cases s
        · exact ⟨l ++ x :: b.toList, by simp [join, hl, sideCons]⟩
        · exact ⟨b.toList ++ x :: l, by simp [join, hl, sideCons]⟩
      refine ⟨y, l', hl', hy, ?_⟩
      intro k hk
      obtain _ | k := k
      · omega
      rw [lastChild, hc]
      exact hrun k (by omega)

theorem map_swap_of_not_mem {a b : ν} {l : List ν} (ha : a ∉ l) (hb : b ∉ l) :
    l.map (swap a b) = l := by
  conv_rhs => rw [← map_id l]
  apply map_congr_left
  intro x hx
  exact swap_apply_of_ne_of_ne (fun e => ha (e ▸ hx)) fun e => hb (e ▸ hx)

/-- Where two neighbours of a sequence are exchanged, it is the same once one of them is gone. -/
theorem erase_map_swap {sp : ν} {l1 l2 : List ν} (hd : (l1 ++ sp :: n :: l2).Nodup) :
    ((l1 ++ sp :: n :: l2).map (swap sp n)).erase n = (l1 ++ sp :: n :: l2).erase n := by
  simp only [nodup_append, nodup_cons, mem_cons, not_or] at hd
  obtain ⟨-, ⟨⟨hne, hs2⟩, hn2, -⟩, h1⟩ := hd
  have hs1 : sp ∉ l1 := fun h => h1 sp h sp (.inl rfl) rfl
  have hn1 : n ∉ l1 := fun h => h1 n h n (.inr (.inl rfl)) rfl
  simp only [map_append, map_cons, map_swap_of_not_mem hs1 hn1, map_swap_of_not_mem hs2 hn2,
    swap_apply_left, swap_apply_right, erase_append_right _ hn1,
    erase_cons_head]
  simp [hne]

/-- After the first step `n` has one child at most, on the side `s`; up to the place of `n` the
sequence of nodes is the old one, and the root is what `RtlDeleteNoSplay` takes it to be. -/
structure OneChild (m : Store ν) (t : BinTree ν) (n : ν) (m' : Store ν) (sp : Option ν)
    (c : Ctx ν) (s : Side) (a : BinTree ν) : Prop where
  wellLinked : WellLinked m' (plug c (.join s a n .nil))
  toList : (plug c (.join s a n .nil)).toList.erase n = t.toList.erase n
  length : (plug c (.join s a n .nil)).toList.length = t.toList.length
  root : (if sp.isSome && rtlIsRoot m n then sp else t.root?) = (plug c (.join s a n .nil)).root?

theorem swapWithPredecessor_spec (h : WellLinked m t)
    (hn : n ∈ t.toList) : ∃ m' sp c s a, OneChild m t n m' sp c s a ∧
      ∀ k, t.toList.length ≤ k → swapWithPredecessor k m n = some (m', sp) := by
  obtain ⟨c, a, b, rfl⟩ := exists_plug hn
  obtain ⟨hd, -, -, ha, hb⟩ := (wellLinked_plug (s := .left)).mp h
  simp only [Side.other] at hb
  cases hca : m.child .left n with
  | none =>
    rw [hca] at ha
    obtain rfl := ha.eq_nil
    refine ⟨m, none, c, .right, b, ⟨h, rfl, rfl, by simp [join]⟩, ?_⟩
    intro k _
    simp [swapWithPredecessor, hca]
  | some x =>
    cases hcb : m.child .right n with
    | none =>
      rw [hcb] at hb
      obtain rfl := hb.eq_nil
      refine ⟨m, none, c, .left, a, ⟨h, rfl, rfl, by simp [join]⟩, ?_⟩
      intro k _
      simp [swapWithPredecessor, hcb]
    | some z =>
      -- two children: the predecessor is the last node of the left subtree
      rw [hca] at ha
      obtain ⟨sp, l, hl, hsp, hrun⟩ := lastChild_spec .right ha
      simp only [sideCons] at hl
      have hspa : sp ∈ a.toList := by simp [hl]
      have hspt : sp ∈ (plug c (.node a n b)).toList := by simp [mem_plug, hspa]
      have hd' := ((nodup_join .left a n b).mp ((nodup_plug _ _).mp hd).1)
      have hne : sp ≠ n := fun e => hd'.2.2.1 (e ▸ hspa)
      have hw := swapSplayLinks_wellLinked h hspt hn hne
      have hlist : (plug c (.node a n b)).toList =
          (c.before ++ l) ++ sp :: n :: (b.toList ++ c.after) := by
        rw [toList_plug]
        simp [hl]
      have hn' : n ∈ ((plug c (.node a n b)).map (swap sp n)).toList := by
        rw [toList_map, mem_map]
        exact ⟨sp, hspt, by simp⟩
      obtain ⟨c', a', b', hplug⟩ := exists_plug hn'
      -- `n` has no right child, because the predecessor had none
      obtain rfl : b' = .nil := by
        have hr := h.rename (swap sp n)
        rw [hplug] at hr
        obtain ⟨-, -, -, -, hb'⟩ := (wellLinked_plug (s := .left)).mp hr
        simp only [Store.rename, Side.other, symm_swap, swap_apply_right, hsp] at hb'
        exact hb'.eq_nil
      have hsproot : (plug c (.node a n b)).root? ≠ some sp := by
        intro e
        rcases root?_plug_node e with e | e
        · exact hne e
        · exact ((nodup_plug _ _).mp hd).2.2 sp (by simp [hspa]) e
      have hswapped : (plug c' (.join .left a' n .nil)).toList =
          (plug c (.node a n b)).toList.map (swap sp n) := by
        rw [← toList_map, hplug]
        rfl
      rw [hplug] at hw
      refine ⟨swapSplayLinks m sp n, some sp, c', .left, a', ⟨hw, ?_, ?_, ?_⟩, ?_⟩
      · rw [hswapped, hlist]
        exact erase_map_swap (hlist ▸ hd)
      · rw [hswapped, length_map]
      · have e : (plug c' (.join .left a' n .nil)).root? =
            (plug c (.node a n b)).root?.map (swap sp n) := by
          rw [← root?_map, hplug]
          rfl
        rw [e]
        by_cases hr : m.parent n = n
        · simp [rtlIsRoot, hr, h.root?_of_parent hn hr]
        · have hnroot : (plug c (.node a n b)).root? ≠ some n :=
            fun e' => hr (h.linked n e').parent_eq
          simp [rtlIsRoot, hr, map_swap_of_ne hsproot hnroot]
      · intro k hk
        have hlen : a.toList.length ≤ k := by
          refine Nat.le_trans ?_ hk
          rw [length_plug]
          simp
          omega
        simp [swapWithPredecessor, rtlSubtreePredecessor, hca, hcb, hrun k hlen]

/-! ### Taking the node out -/

omit [DecidableEq ν] in
theorem onlyChild_eq
    (h : WellLinked m (plug c (.join s a n .nil))) : onlyChild m n = m.child s n := by
  obtain ⟨-, -, -, -, hb⟩ := wellLinked_plug.mp h
  rw [linked_nil] at hb
  cases s with
  | left =>
    simp only [Side.other] at hb
    unfold onlyChild
    split
    · next e => exact e.symm
    · next e => rw [e, hb]
  | right =>
    simp only [Side.other] at hb
    simp [onlyChild, hb]

/-- The sequence without the node in focus. -/
theorem erase_plug (hd : (plug c (.join s a n .nil)).toList.Nodup) :
    (plug c (.join s a n .nil)).toList.erase n = (plug c a).toList := by
  -- whatever side `a` is on, the nodes around `n` are those of the context and of `a`
  obtain ⟨l1, l2, hj, ha⟩ : ∃ l1 l2, (join s a n .nil).toList = l1 ++ n :: l2 ∧
      a.toList = l1 ++ l2 := by
    cases s with
    | left => exact ⟨a.toList, [], by simp [join], by simp⟩
    | right => exact ⟨[], a.toList, by simp [join], by simp⟩
  rw [toList_plug, hj] at hd
  rw [toList_plug, toList_plug, hj, ha]
  simp only [append_assoc, cons_append, nodup_append, mem_append,
    mem_cons] at hd ⊢
  have h1 : n ∉ c.before := fun e => hd.2.2 n e n (by simp) rfl
  have h2 : n ∉ l1 := fun e => hd.2.1.2.2 n e n (by simp) rfl
  rw [erase_append_right _ h1, erase_append_right _ h2, erase_cons_head]

theorem replaceReference_eq (o : Option ν) (hh : Hangs m (f :: c) n) (hs : Surround m (f :: c))
    (hn : n ∉ nodes (f :: c)) : replaceReference m n o = m.setChild f.side f.node o := by
  simp only [replaceReference, isChild_of_hangs .left hh hs hn, hh.1]
  cases f with
  | mk side node sib => cases side <;> simp

/-- The end of both functions below a parent: what they do with the links. -/
theorem splice_eq (h : WellLinked m (plug (f :: c) (.join s a n .nil))) :
    rtlIsRoot m n = false ∧ m.parent n = f.node ∧
    replaceReference m n none = m.splice (f :: c) none ∧
    ∀ x, (replaceReference m n (some x)).setParent x f.node = m.splice (f :: c) (some x) := by
  obtain ⟨hd, hs, hh, -, -⟩ := wellLinked_plug.mp h
  have hn : n ∉ nodes (f :: c) := ((nodup_plug _ _).mp hd).2.2 n (by simp)
  refine ⟨isRoot_of_hangs_cons hh hn, hh.1, ?_, ?_⟩
  · rw [replaceReference_eq _ hh hs hn]
    rfl
  · intro x
    rw [replaceReference_eq _ hh hs hn]
    rfl

theorem rtlDelete_spec (h : WellLinked m t)
    (hn : n ∈ t.toList) : ∃ m' t', WellLinked m' t' ∧ t'.toList = t.toList.erase n ∧
      ∀ k, t.toList.length ≤ k → rtlDelete k m n = some (m', t'.root?) := by
  obtain ⟨m1, sp, c, s, a, h1, hswap⟩ := swapWithPredecessor_spec h hn
  have hw := h1.wellLinked
  have hchild := onlyChild_eq hw
  have hlist := (erase_plug hw.nodup).symm.trans h1.toList
  have hw' := splice_wellLinked hw
  cases c with
  | nil =>
    obtain ⟨-, -, hh, ha, -⟩ := wellLinked_plug.mp hw
    have hr : rtlIsRoot m1 n = true := isRoot_of_hangs_nil hh
    refine ⟨_, a, hw', hlist, ?_⟩
    intro k hk
    rw [ha.root?_eq]
    simp only [rtlDelete, hswap k hk, Option.bind_eq_bind, Option.bind_some, hchild, hr]
    cases m1.child s n <;> rfl
  | cons f c =>
    obtain ⟨hr, hp, hnone, hsome⟩ := splice_eq hw
    -- the parent is splayed in the tree that `n` has left
    obtain ⟨a', b', hj⟩ := join_eq_node f.side a f.node f.sib
    rw [plug_cons, hj] at hw'
    obtain ⟨m2, a2, b2, hrun, hw2, hl2⟩ := rtlSplay_plug hw'
    refine ⟨m2, .node a2 f.node b2, hw2, ?_, ?_⟩
    · rw [hl2, ← hj]
      exact hlist
    intro k hk
    have hlen : c.length ≤ k := by
      have h2 := h1.length
      rw [length_plug] at h2
      have h3 := length_le_nodes (f :: c)
      simp only [length_cons] at h3
      omega
    have hsplay := hrun k hlen
    simp only [rtlDelete, hswap k hk, Option.bind_eq_bind, Option.bind_some, hchild, hr, hp]
    cases hc : m1.child s n with
    | none =>
      rw [hc, ← hnone] at hsplay
      simp [hsplay, root?]
    | some x =>
      rw [hc, ← hsome x] at hsplay
      simp [hsplay, root?]

theorem rtlDeleteNoSplay_spec (h : WellLinked m t)
    (hn : n ∈ t.toList) : ∃ m' t', WellLinked m' t' ∧ t'.toList = t.toList.erase n ∧
      ∀ k, t.toList.length ≤ k → rtlDeleteNoSplay k m n t.root? = some (m', t'.root?) := by
  obtain ⟨m1, sp, c, s, a, h1, hswap⟩ := swapWithPredecessor_spec h hn
  have hw := h1.wellLinked
  have hchild := onlyChild_eq hw
  have hlist := (erase_plug hw.nodup).symm.trans h1.toList
  have hw' := splice_wellLinked hw
  refine ⟨_, plug c a, hw', hlist, ?_⟩
  intro k hk
  simp only [rtlDeleteNoSplay, hswap k hk, Option.bind_eq_bind, Option.bind_some, hchild, h1.root]
  cases c with
  | nil =>
    obtain ⟨-, -, hh, ha, -⟩ := wellLinked_plug.mp hw
    have hr : rtlIsRoot m1 n = true := isRoot_of_hangs_nil hh
    have hroot : (plug [] a).root? = m1.child s n := ha.root?_eq
    simp only [hr, hroot]
    cases m1.child s n <;> rfl
  | cons f c =>
    obtain ⟨hr, hp, hnone, hsome⟩ := splice_eq hw
    simp only [hr, hp, root?_plug_cons f c (.join s a n .nil) a]
    cases m1.child s n with
    | none => simp [← hnone]
    | some x => simp [← hsome x]

/-! ## Section 5: The neighbours of a node -/

/-- The loop that goes up while the node is a child on side `s`. -/
def climb (s : Side) : Nat → Store ν → ν → Option ν
  | 0, m, x => if rtlIsChild s m x then none else some x
  | k + 1, m, x => if rtlIsChild s m x then climb s k m (m.parent x) else some x

/-- `RtlRealPredecessor` and `RtlRealSuccessor`: the next node on side `s`. -/
def rtlRealNeighbour (s : Side) (k : Nat) (m : Store ν) (n : ν) : Option (Option ν) :=
  match m.child s n with
  | some x => (lastChild s.other k m x).map some
  | none =>
    (climb s k m n).map fun x => if rtlIsChild s.other m x then some (m.parent x) else none

def rtlRealPredecessor (k : Nat) (m : Store ν) (n : ν) : Option (Option ν) :=
  rtlRealNeighbour .left k m n

def rtlRealSuccessor (k : Nat) (m : Store ν) (n : ν) : Option (Option ν) :=
  rtlRealNeighbour .right k m n

/-- The next node on side `s` of the hole. -/
def nextAbove (s : Side) : Ctx ν → Option ν
  | [] => none
  | f :: c => if f.side = s then nextAbove s c else some f.node

omit [DecidableEq ν] in
theorem nextAbove_left (c : Ctx ν) : nextAbove .left c = c.before.getLast? := by
  induction c with
  | nil => rfl
  | cons f c ih =>
    simp only [nextAbove, before]
    cases f.side with
    | left => simpa using ih
    | right => simp

omit [DecidableEq ν] in
theorem nextAbove_right (c : Ctx ν) : nextAbove .right c = c.after.head? := by
  induction c with
  | nil => rfl
  | cons f c ih =>
    simp only [nextAbove, after]
    cases f.side with
    | left => simp
    | right => simpa using ih

theorem climb_spec (s : Side) {k : Nat}
    (h : WellLinked m (plug c (.node a n b))) (hk : c.length ≤ k) :
    ((climb s k m n).map fun x => if rtlIsChild s.other m x then some (m.parent x) else none) =
      some (nextAbove s c) := by
  induction c generalizing a b n k with
  | nil =>
    have hroot := isChild_of_root (s := .left) h
    cases k <;> simp [climb, hroot, nextAbove]
  | cons f c ih =>
    obtain ⟨hpar, -, hside⟩ := parent_facts h
    simp only [length_cons] at hk
    obtain _ | k := k
    · omega
    by_cases e : s = f.side
    · -- still on the way up
      obtain ⟨a', b', hj⟩ := join_eq_node f.side (.node a n b) f.node f.sib
      have h' : WellLinked m (plug c (.node a' f.node b')) := hj ▸ h
      simp only [climb, hside, e, decide_true, if_true, hpar, nextAbove]
      rw [← e]
      exact ih h' (by omega)
    · have hoth : s.other = f.side := (Side.eq_other (Ne.symm e)).symm
      simp [climb, hside, e, hoth, hpar, nextAbove, Ne.symm e]

/-- The two neighbours of a node in the sequence of the tree. -/
theorem rtlRealNeighbour_spec (h : WellLinked m t)
    (hn : n ∈ t.toList) : ∃ l1 l2, t.toList = l1 ++ n :: l2 ∧ ∀ k, t.toList.length ≤ k →
      rtlRealPredecessor k m n = some l1.getLast? ∧ rtlRealSuccessor k m n = some l2.head? := by
  obtain ⟨c, a, b, rfl⟩ := exists_plug hn
  refine ⟨c.before ++ a.toList, b.toList ++ c.after, by simp [toList_plug], ?_⟩
  intro k hk
  rw [length_plug] at hk
  have hcl := length_le_nodes c
  simp only [toList_node, length_append, length_cons] at hk
  obtain ⟨-, -, -, ha, hb⟩ := (wellLinked_plug (s := .left)).mp h
  simp only [Side.other] at hb
  constructor
  -- Without a child on the side the walk climbs, otherwise it goes down once and across.
  · cases hc : m.child .left n with
    | none =>
      rw [hc] at ha
      obtain rfl := ha.eq_nil
      simp only [rtlRealPredecessor, rtlRealNeighbour, hc]
      rw [climb_spec .left h (by omega), nextAbove_left]
      simp
    | some x =>
      rw [hc] at ha
      obtain ⟨y, l, hl, -, hrun⟩ := lastChild_spec .right ha
      simp only [sideCons] at hl
      simp only [rtlRealPredecessor, rtlRealNeighbour, hc, Side.other]
      rw [hrun k (by omega)]
      simp [hl]
  · cases hc : m.child .right n with
    | none =>
      rw [hc] at hb
      obtain rfl := hb.eq_nil
      simp only [rtlRealSuccessor, rtlRealNeighbour, hc]
      rw [climb_spec .right h (by omega), nextAbove_right]
      simp
    | some x =>
      rw [hc] at hb
      obtain ⟨y, l, hl, -, hrun⟩ := lastChild_spec .left hb
      simp only [sideCons] at hl
      simp only [rtlRealSuccessor, rtlRealNeighbour, hc, Side.other]
      rw [hrun k (by omega)]
      simp [hl]

/-! ## Section 6: The sequence is kept -/

/-- On every well-linked tree and for every node of it the three functions return, given fuel
for as many turns as there are nodes: `RtlSplay` with `n` as the root and the old sequence of
nodes, the two functions that delete with the old sequence without `n`, all with every link in
order. -/
theorem splay_operations {m : Store ν} {t : BinTree ν} {n : ν} (h : WellLinked m t)
    (hn : n ∈ t.toList) :
    (∃ m' t', (∀ k, t.toList.length ≤ k → rtlSplay k m n = some m') ∧ WellLinked m' t' ∧
      t'.root? = some n ∧ t'.toList = t.toList) ∧
    (∃ m' t', (∀ k, t.toList.length ≤ k → rtlDelete k m n = some (m', t'.root?)) ∧
      WellLinked m' t' ∧ t'.toList = t.toList.erase n) ∧
    (∃ m' t', (∀ k, t.toList.length ≤ k →
        rtlDeleteNoSplay k m n t.root? = some (m', t'.root?)) ∧
      WellLinked m' t' ∧ t'.toList = t.toList.erase n) := by
  refine ⟨?_, ?_, ?_⟩
  · obtain ⟨c, a, b, rfl⟩ := exists_plug hn
    obtain ⟨m', a', b', hrun, hw, hl⟩ := rtlSplay_plug h
    refine ⟨m', _, ?_, hw, rfl, hl⟩
    intro k hk
    apply hrun
    rw [length_plug] at hk
    have := Ctx.length_le_nodes c
    omega
  · obtain ⟨m', t', hw, hl, hrun⟩ := rtlDelete_spec h hn
    exact ⟨m', t', hrun, hw, hl⟩
  · obtain ⟨m', t', hw, hl, hrun⟩ := rtlDeleteNoSplay_spec h hn
    exact ⟨m', t', hrun, hw, hl⟩

/-- A root with two children. -/
def sampleTree : BinTree Nat := .node (.node .nil 1 .nil) 2 (.node .nil 3 .nil)

def sampleLinks : Store Nat where
  parent _ := 2
  child
    | .left, 2 => some 1
    | .right, 2 => some 3
    | _, _ => none

theorem sampleLinks_wellLinked : WellLinked sampleLinks sampleTree := by
  refine ⟨by decide, ?_⟩
  intro r hr
  obtain rfl : 2 = r := Option.some.inj hr
  simp [sampleTree, sampleLinks, Linked]

theorem splay_operations_root : WellLinked sampleLinks sampleTree ∧ 2 ∈ sampleTree.toList ∧
    ∃ m' t', (∀ k, 3 ≤ k → rtlDelete k sampleLinks 2 = some (m', t'.root?)) ∧
      WellLinked m' t' ∧ t'.toList = [1, 3] :=
  ⟨sampleLinks_wellLinked, by decide,
    (splay_operations sampleLinks_wellLinked (n := 2) (by decide)).2.1⟩

end Rtl
