import ReactOS.Lib.AvlTree
import ReactOS.Rtl.SplayTree
import Mathlib.Data.List.Basic

/-! # The AVL support routines

    `avlsupp.c`, which the runtime library and the memory manager both compile in: the search,
    the promotion of a node over its parent, the rebalancing of a node, and the insertion and
    deletion of a node in a table.

    The tree hangs as the right child below `BalancedRoot`, a node of its own that is its own
    parent, so that the routines never have to ask whether a node has a parent.  The search, and
    the loops that walk up, are given one turn for each element and one for the root; `none`
    stands for a walk that ends in `NULL` or takes more turns than that. -/

namespace Rtl

open LinkedTree BinTree Ctx Function Equiv
open List hiding rotate map after

universe u

variable {ν : Type u} [DecidableEq ν]

/-! ## Section 1: Tables -/

/-- What `RTL_AVL_TABLE` and `MM_AVL_TABLE` have in common, with the nodes the table links. -/
structure AvlTable (ν : Type u) where
  balancedRoot : ν
  links : Store ν
  balance : ν → Int
  numberGenericTableElements : Nat
  depthOfTree : Nat

inductive TableSearchResult where
  | tableEmptyTree
  | tableFoundNode
  | tableInsertAsLeft
  | tableInsertAsRight
  deriving DecidableEq, Repr

namespace AvlTable

/-- The number of turns given to a loop. -/
def fuel (t : AvlTable ν) : Nat := t.numberGenericTableElements + 1

def rtlSetBalance (t : AvlTable ν) (n : ν) (b : Int) : AvlTable ν :=
  { t with balance := Function.update t.balance n b }

end AvlTable

/-! ## Section 2: The routines -/

/-- The loop of `RtlpFindAvlTableNodeOrParent`; `cmp x` compares what is looked for with `x`. -/
def findLoop (m : Store ν) (cmp : ν → Ordering) : Nat → ν → Option (TableSearchResult × ν)
  | 0, _ => none
  | k + 1, x => match cmp x with
    | .lt => match m.child .left x with
      | some y => findLoop m cmp k y
      | none => some (.tableInsertAsLeft, x)
    | .gt => match m.child .right x with
      | some y => findLoop m cmp k y
      | none => some (.tableInsertAsRight, x)
    | .eq => some (.tableFoundNode, x)

/-- In an empty table `NodeOrParent` is left as the caller had it. -/
def rtlpFindAvlTableNodeOrParent (t : AvlTable ν) (cmp : ν → Ordering) :
    Option (TableSearchResult × Option ν) :=
  if t.numberGenericTableElements = 0 then some (.tableEmptyTree, none)
  else
    match t.links.child .right t.balancedRoot with
    | none => none
    | some x => (findLoop t.links cmp t.fuel x).map fun r => (r.1, some r.2)

def rtlpPromoteAvlTreeNode (m : Store ν) (n : ν) : Store ν :=
  let p := m.parent n
  let sp := m.parent p
  let s := sideOf (rtlIsLeftChild m n)
  let m := m.setChild s p (m.child s.other n)
  let m := m.adopt (m.child s p) p
  let m := m.setChild s.other n (some p)
  let m := m.setParent p n
  let m := m.setChild (if m.child .left sp = some p then .left else .right) sp (some n)
  m.setParent n sp

/-- `RtlpRebalanceAvlTreeNode` with its result. -/
def rtlpRebalanceAvlTreeNode (t : AvlTable ν) (n : ν) : Option (AvlTable ν × Bool) :=
  let balance := t.balance n
  match t.links.child (if balance = 1 then .right else .left) n with
  | none => none
  | some child =>
    if t.balance child = balance then
      let t := { t with links := rtlpPromoteAvlTreeNode t.links child }
      some ((t.rtlSetBalance child 0).rtlSetBalance n 0, false)
    else if t.balance child = -balance then
      match t.links.child (if balance = 1 then .left else .right) child with
      | none => none
      | some sub =>
        let t := { t with links := rtlpPromoteAvlTreeNode t.links sub }
        let t := { t with links := rtlpPromoteAvlTreeNode t.links sub }
        let t :=
          if t.balance sub = balance then (t.rtlSetBalance child 0).rtlSetBalance n (-balance)
          else if t.balance sub = -balance then (t.rtlSetBalance child balance).rtlSetBalance n 0
          else (t.rtlSetBalance child 0).rtlSetBalance n 0
        some (t.rtlSetBalance sub 0, false)
    else
      let t := { t with links := rtlpPromoteAvlTreeNode t.links child }
      some (t.rtlSetBalance child (-balance), true)

/-- The loop of `RtlpInsertAvlTreeNode`, with `n` the node that got higher and `p` its parent. -/
def insertLoop : Nat → AvlTable ν → ν → ν → Option (AvlTable ν)
  | 0, _, _, _ => none
  | k + 1, t, n, p =>
    let balance := if rtlIsLeftChild t.links n then -1 else 1
    if t.balance p = 0 then insertLoop k (t.rtlSetBalance p balance) p (t.links.parent p)
    else if t.balance p ≠ balance then
      let t := t.rtlSetBalance p 0
      if t.balance t.balancedRoot = 0 then some { t with depthOfTree := t.depthOfTree + 1 }
      else some t
    else (rtlpRebalanceAvlTreeNode t p).map Prod.fst

def rtlpInsertAvlTreeNode (t : AvlTable ν) (new : ν) (nodeOrParent : Option ν)
    (searchResult : TableSearchResult) : Option (AvlTable ν) :=
  let t := { t with links := (t.links.setChild .left new none).setChild .right new none }
  let t := t.rtlSetBalance new 0
  let t := { t with numberGenericTableElements := t.numberGenericTableElements + 1 }
  if searchResult = .tableEmptyTree then
    some { t with
      links := rtlInsertAsChild .right t.links t.balancedRoot new
      depthOfTree := 1 }
  else
    match nodeOrParent with
    | none => none
    | some p =>
      let s := if searchResult = .tableInsertAsLeft then .left else .right
      let t := { t with links := rtlInsertAsChild s t.links p new }
      -- the sentinel is made to look heavy on the side the tree is not
      let t := t.rtlSetBalance t.balancedRoot (-1)
      insertLoop t.fuel t new p

/-- The loop of `RtlpDeleteAvlTreeNode`: below `p`, on the side of `balance`, the tree got lower. -/
def deleteLoop : Nat → AvlTable ν → ν → Int → Option (AvlTable ν)
  | 0, _, _, _ => none
  | k + 1, t, p, balance =>
    if t.balance p = balance then
      let t := t.rtlSetBalance p 0
      deleteLoop k t (t.links.parent p) (if rtlIsRightChild t.links p then 1 else -1)
    else if t.balance p = 0 then
      let t := t.rtlSetBalance p (-balance)
      if t.balance t.balancedRoot ≠ 0 then some { t with depthOfTree := t.depthOfTree - 1 }
      else some t
    else
      match rtlpRebalanceAvlTreeNode t p with
      | none => none
      | some (t, true) => some t
      | some (t, false) =>
        let p := t.links.parent p
        deleteLoop k t (t.links.parent p) (if rtlIsRightChild t.links p then 1 else -1)

/-- The node that is taken out in place of `n`: itself if it lacks a child, else its neighbour on
the longer side. -/
def deleteNode (t : AvlTable ν) (n : ν) : Option ν :=
  match t.links.child .left n, t.links.child .right n with
  | some l, some r =>
    if 0 ≤ t.balance n then lastChild .left t.fuel t.links r
    else lastChild .right t.fuel t.links l
  | _, _ => some n

/-- The one child of `d`, if any, takes its place. -/
def unlinkNode (m : Store ν) (d : ν) : Store ν :=
  let p := m.parent d
  let s := if (m.child .left d).isSome then Side.left else .right
  let m := m.setChild (sideOf (rtlIsLeftChild m d)) p (m.child s d)
  m.adopt (m.child s d) p

/-- The links of `n` are copied to `d`, which takes its place. -/
def takeOver (m : Store ν) (n d : ν) : Store ν :=
  let m := m.setLinks d (m.parent n) fun s => m.child s n
  let m := m.setChild (sideOf (rtlIsLeftChild m n)) (m.parent d) (some d)
  let m := m.adopt (m.child .left d) d
  m.adopt (m.child .right d) d

def rtlpDeleteAvlTreeNode (t : AvlTable ν) (n : ν) : Option (AvlTable ν) :=
  match deleteNode t n with
  | none => none
  | some d =>
    let p := t.links.parent d
    let balance := if rtlIsLeftChild t.links d then -1 else 1
    let t := { t with links := unlinkNode t.links d }
    let t := t.rtlSetBalance t.balancedRoot 0
    match deleteLoop t.fuel t p balance with
    | none => none
    | some t =>
      if n = d then some t
      else some { t.rtlSetBalance d (t.balance n) with links := takeOver t.links n d }

/-! ## Section 3: Promotion and rebalancing -/

variable {m : Store ν} {f : Frame ν} {c : Ctx ν} {s : Side} {a b : BinTree ν} {n p : ν}

/-- A promotion is a rotation below the parent's parent. -/
theorem promote_eq {d : BinTree ν}
    (h : WellLinked m (plug (f :: c) (.join s (.join s a n b) p d))) :
    rtlpPromoteAvlTreeNode m n = rotate m (f :: c) s n p := by
  have hd := h.nodup
  obtain ⟨-, hs, hh, hl, hdl⟩ := wellLinked_plug.mp h
  obtain ⟨hcp, hpn, -, hb⟩ := linked_join.mp hl
  simp only [nodup_plug, nodup_join, mem_join] at hd
  have hpc : p ∉ nodes (f :: c) := hd.2.2 p (.inl rfl)
  have hoth := hs.child_other_ne hpc f rfl
  obtain ⟨hpf, hfp⟩ := hh
  have hfm : f.node ∈ nodes (f :: c) := by simp [nodes]
  have hbm : ∀ x, m.child s.other n = some x → x ∈ b.toList := fun x hx => (hx ▸ hb).mem
  have hfn : f.node ≠ n := by grind
  have hfp' : f.node ≠ p := by grind
  have hdn : m.child s.other p ≠ some n := hdl.ne_some (by grind)
  have hside : sideOf (rtlIsLeftChild m n) = s := by
    cases s <;> simp_all [sideOf, rtlIsChild, Side.other]
  have hup : (if m.child .left f.node = some p then Side.left else .right) = f.side := by
    cases hf : f.side <;> simp_all [Side.other]
  ext x
  · simp only [rtlpPromoteAvlTreeNode, hpn, hpf, hside, rotate, Store.attach]
    simp
    grind
  · simp only [rtlpPromoteAvlTreeNode, hpn, hpf, hside, rotate, Store.attach]
    simp [hfn, hfp', hup]
    grind

/-- A table in which the links and balances of a subtree have been rewritten. -/
structure Rewritten (t t' : AvlTable ν) (c : Ctx ν) (old new : BinTree ν) : Prop where
  wellLinked : WellLinked t'.links (plug c new)
  balanced : HeightBalanced t'.balance new
  toList : new.toList = old.toList
  outside : ∀ z, z ∉ old.toList → t'.balance z = t.balance z
  root : t'.balancedRoot = t.balancedRoot
  count : t'.numberGenericTableElements = t.numberGenericTableElements
  depth : t'.depthOfTree = t.depthOfTree

section Balance

variable (t : AvlTable ν) (n : ν) (b : Int)

@[simp] theorem rtlSetBalance_links : (t.rtlSetBalance n b).links = t.links := rfl

@[simp, grind =] theorem rtlSetBalance_balance (x : ν) :
    (t.rtlSetBalance n b).balance x = if x = n then b else t.balance x := by
  simp [AvlTable.rtlSetBalance, update_apply]

@[simp] theorem rtlSetBalance_root : (t.rtlSetBalance n b).balancedRoot = t.balancedRoot := rfl

@[simp] theorem rtlSetBalance_count :
    (t.rtlSetBalance n b).numberGenericTableElements = t.numberGenericTableElements := rfl

@[simp] theorem rtlSetBalance_depth : (t.rtlSetBalance n b).depthOfTree = t.depthOfTree := rfl

end Balance

/-- The heavier child is one side's, by the balance of its parent. -/
theorem heavy_side (s : Side) : (if s.sign = 1 then Side.right else .left) = s := by
  cases s <;> decide

theorem light_side (s : Side) : (if s.sign = 1 then Side.left else .right) = s.other := by
  cases s <;> decide

theorem Side.sign_ne_zero (s : Side) : s.sign ≠ 0 := by cases s <;> decide

/-- A node leans to a side, is even or leans away. -/
theorem lean_cases (s : Side) {v : Int} {x y : Nat} (h : v = s.sign * ((x : Int) - y)) :
    (v = s.sign ↔ x = y + 1) ∧ (v = 0 ↔ x = y) ∧ (v = -s.sign ↔ y = x + 1) := by
  rcases Side.sign_cases s with e | e <;> rw [e] at h ⊢ <;> omega

section Rebalance

variable {t : AvlTable ν} {f : Frame ν} {c : Ctx ν} {s : Side} {a b d : BinTree ν} {n p : ν}

/-- The child of `p` on side `s` is two higher than the other one. -/
structure TooHigh (t : AvlTable ν) (c : Ctx ν) (s : Side) (a : BinTree ν) (n : ν) (b : BinTree ν) (p : ν)
    (d : BinTree ν) : Prop where
  wellLinked : WellLinked t.links (plug c (.join s (.join s a n b) p d))
  leans : t.balance p = s.sign
  heavy : HeightBalanced t.balance (.join s a n b)
  light : HeightBalanced t.balance d
  height : (BinTree.join s a n b).height = d.height + 2

/-- The heavier child leans to its own side, or is even: one promotion. -/
theorem rebalance_single (hh : TooHigh t (f :: c) s a n b p d)
    (hl : t.balance n = s.sign ∨ t.balance n = 0) :
    ∃ t', rtlpRebalanceAvlTreeNode t p = some (t', decide (t.balance n = 0)) ∧
      Rewritten t t' (f :: c) (.join s (.join s a n b) p d) (.join s a n (.join s b p d)) ∧
      (join s a n (.join s b p d)).height =
        (if t.balance n = 0 then d.height + 3 else d.height + 2) ∧ t'.links.parent p = n := by
  obtain ⟨h, hp, hn, hd, hh⟩ := hh
  have hnd := h.nodup
  obtain ⟨-, -, -, hl1, -⟩ := wellLinked_plug.mp h
  have hchild : t.links.child s p = some n := (linked_join.mp hl1).1
  simp only [nodup_plug, nodup_join, mem_join] at hnd
  have hpn : p ≠ n := fun e => hnd.1.2.2.1 (.inl e)
  have hrun : ∃ t', rtlpRebalanceAvlTreeNode t p = some (t', decide (t.balance n = 0)) ∧
      t'.links = rtlpPromoteAvlTreeNode t.links n ∧
      (∀ z, z ≠ n → z ≠ p → t'.balance z = t.balance z) ∧
      (t.balance n = s.sign ∧ t'.balance n = 0 ∧ t'.balance p = 0 ∨
        t.balance n = 0 ∧ t'.balance n = -s.sign ∧ t'.balance p = s.sign) ∧
      t'.balancedRoot = t.balancedRoot ∧
      t'.numberGenericTableElements = t.numberGenericTableElements ∧
      t'.depthOfTree = t.depthOfTree := by
    have hz1 : s.sign ≠ 0 := Side.sign_ne_zero s
    rcases hl with hl | hl
    · refine ⟨(({ t with links := rtlpPromoteAvlTreeNode t.links n }).rtlSetBalance n 0).rtlSetBalance
        p 0, ?_, rfl, ?_, .inl ⟨hl, by simp [hpn.symm], by simp⟩, rfl, rfl, rfl⟩
      · simp [rtlpRebalanceAvlTreeNode, hp, heavy_side, hchild, hl, hz1]
      · intro z h1 h2
        simp [h1, h2]
    refine ⟨({ t with links := rtlpPromoteAvlTreeNode t.links n }).rtlSetBalance n (-s.sign), ?_,
      rfl, ?_, .inr ⟨hl, by simp, by simp [hpn, hp]⟩, rfl, rfl, rfl⟩
    · cases s <;> simp_all [rtlpRebalanceAvlTreeNode, Side.sign]
    · intro z h1 h2
      simp [h1]
  obtain ⟨t', hrun, hlinks, hkeep, hcases, hr, hc, hdep⟩ := hrun
  have hkeep' : ∀ z, z ∈ a.toList ∨ z ∈ b.toList ∨ z ∈ d.toList →
      t'.balance z = t.balance z := by
    intro z hz
    apply hkeep z
    · rintro rfl
      grind
    · rintro rfl
      grind
  obtain ⟨hb', hh'⟩ := balanced_rotate hn hd hh hkeep' hcases
  refine ⟨t', hrun, ⟨?_, hb', toList_rotate .., ?_, hr, hc, hdep⟩, hh', ?_⟩
  · rw [hlinks, promote_eq h]
    exact rotate_wellLinked h
  · intro z hz
    rw [mem_join, mem_join] at hz
    grind
  · rw [hlinks, promote_eq h]
    simp [rotate]

/-- Two promotions bring the inner grandchild over its parent and its grandparent. -/
theorem promote_twice {b1 b2 : BinTree ν} {q : ν}
    (h : WellLinked m (plug (f :: c) (.join s (.join s a n (.join s b1 q b2)) p d))) :
    WellLinked (rtlpPromoteAvlTreeNode (rtlpPromoteAvlTreeNode m q) q)
        (plug (f :: c) (.join s (.join s a n b1) q (.join s b2 p d))) ∧
      (rtlpPromoteAvlTreeNode (rtlpPromoteAvlTreeNode m q) q).parent p = q := by
  -- seen from the other side of `n`, its child `q` comes first
  have h1 : WellLinked m (plug (⟨s, p, d⟩ :: f :: c)
      (.join s.other (.join s.other b2 q b1) n a)) := by
    rw [join_other, join_other]
    exact h
  have h2 := rotate_wellLinked h1
  rw [← promote_eq h1, join_other, join_other] at h2
  have h3 : WellLinked (rtlpPromoteAvlTreeNode m q)
      (plug (f :: c) (.join s (.join s (.join s a n b1) q b2) p d)) := h2
  constructor
  · rw [promote_eq h3]
    exact rotate_wellLinked h3
  · rw [promote_eq h3]
    simp [rotate]

omit [DecidableEq ν] in
theorem toList_double (s : Side) (a b1 b2 d : BinTree ν) (n p q : ν) :
    (join s (.join s a n b1) q (.join s b2 p d)).toList =
      (join s (.join s a n (.join s b1 q b2)) p d).toList := by
  cases s <;> simp [join]

/-- The heavier child leans to the other side: two promotions of its child there. -/
theorem rebalance_double {b1 b2 : BinTree ν} {q : ν}
    (hh : TooHigh t (f :: c) s a n (.join s b1 q b2) p d) (hl : t.balance n = -s.sign) :
    ∃ t', rtlpRebalanceAvlTreeNode t p = some (t', false) ∧
      Rewritten t t' (f :: c) (.join s (.join s a n (.join s b1 q b2)) p d)
        (.join s (.join s a n b1) q (.join s b2 p d)) ∧
      (join s (.join s a n b1) q (.join s b2 p d)).height = d.height + 2 ∧
      t'.links.parent p = q := by
  obtain ⟨h, hp, hn, hd, hh⟩ := hh
  have hnd := h.nodup
  obtain ⟨-, -, -, hl1, -⟩ := wellLinked_plug.mp h
  obtain ⟨hchild, -, -, hl2⟩ := linked_join.mp hl1
  have hsub : t.links.child s.other n = some q := (linked_join.mp hl2).1
  simp only [nodup_plug, nodup_join, mem_join] at hnd
  have hpn : p ≠ n := by grind
  have hpq : p ≠ q := by grind
  have hnq : n ≠ q := by grind
  obtain ⟨hw, hpar⟩ := promote_twice h
  obtain ⟨-, hq1, hq2, -, -⟩ := balanced_join.mp (balanced_join.mp hn).2.2.2.2
  obtain ⟨t1, ht1⟩ : ∃ t1 : AvlTable ν, t1 = { t with
    links := rtlpPromoteAvlTreeNode (rtlpPromoteAvlTreeNode t.links q) q } := ⟨_, rfl⟩
  have hne : -s.sign ≠ s.sign := by cases s <;> decide
  -- what the balances of `n` and `p` are set to depends on how `q` leans
  obtain ⟨u, v, hrun, huv⟩ : ∃ u v, rtlpRebalanceAvlTreeNode t p =
        some (((t1.rtlSetBalance n u).rtlSetBalance p v).rtlSetBalance q 0, false) ∧
      (t.balance q = s.sign ∧ u = 0 ∧ v = -s.sign ∨ t.balance q = -s.sign ∧ u = s.sign ∧ v = 0 ∨
        t.balance q = 0 ∧ u = 0 ∧ v = 0) := by
    have hs := Side.sign_cases s
    have hrun : rtlpRebalanceAvlTreeNode t p = some ((
        if t.balance q = s.sign then (t1.rtlSetBalance n 0).rtlSetBalance p (-s.sign)
        else if t.balance q = -s.sign then (t1.rtlSetBalance n s.sign).rtlSetBalance p 0
        else (t1.rtlSetBalance n 0).rtlSetBalance p 0).rtlSetBalance q 0, false) := by
      simp only [rtlpRebalanceAvlTreeNode, hp, heavy_side, light_side, hchild, hne, if_false, hl,
        if_true, hsub, ht1]
    by_cases e1 : t.balance q = s.sign
    · exact ⟨0, -s.sign, by rw [hrun, if_pos e1], .inl ⟨e1, rfl, rfl⟩⟩
    · grind
  generalize ht' : ((t1.rtlSetBalance n u).rtlSetBalance p v).rtlSetBalance q 0 = t' at hrun
  have hkeep : ∀ z, z ≠ n → z ≠ p → z ≠ q → t'.balance z = t.balance z := by
    intro z h1 h2 h3
    simp [← ht', ht1, h1, h2, h3]
  have hq' : t'.balance q = 0 := by simp [← ht']
  have hn' : t'.balance n = u := by simp [← ht', hpn.symm, hnq]
  have hp' : t'.balance p = v := by simp [← ht', hpq]
  have hkeep' : ∀ z, z ∈ a.toList ∨ z ∈ b1.toList ∨ z ∈ b2.toList ∨ z ∈ d.toList →
      t'.balance z = t.balance z := by
    intro z hz
    apply hkeep z
    · rintro rfl
      grind
    · rintro rfl
      grind
    · rintro rfl
      grind
  rw [← hn', ← hp'] at huv
  obtain ⟨hb', hh'⟩ := balanced_rotate_double hn hd hh hl hkeep' hq' huv
  have hlinks : t'.links = rtlpPromoteAvlTreeNode (rtlpPromoteAvlTreeNode t.links q) q := by
    simp [← ht', ht1]
  refine ⟨t', hrun, ⟨?_, hb', toList_double .., ?_, by simp [← ht', ht1], by simp [← ht', ht1],
    by simp [← ht', ht1]⟩, hh', ?_⟩
  · rw [hlinks]
    exact hw
  · intro z hz
    simp only [mem_join] at hz
    grind
  · rw [hlinks]
    exact hpar

/-- What `RtlpRebalanceAvlTreeNode` does to a node whose child on side `s` is two higher than the
other one.  It returns `TRUE` if the tree below keeps its height. -/
theorem rebalance_spec (hh : TooHigh t (f :: c) s a n b p d) :
    ∃ t' r x q y, rtlpRebalanceAvlTreeNode t p = some (t', r) ∧
      Rewritten t t' (f :: c) (.join s (.join s a n b) p d) (.node x q y) ∧
      (node x q y).height = (if r then d.height + 3 else d.height + 2) ∧
      (r = true → t.balance n = 0) ∧ (r = false → t'.links.parent p = q) := by
  obtain ⟨hbn, h1, h2, -, -⟩ := balanced_join.mp hh.heavy
  have hs := Side.sign_cases s
  by_cases e2 : t.balance n = -s.sign
  · -- the inner grandchild exists, because it is higher than its sibling
    have hb0 : b.height ≠ 0 := by
      rcases hs with hs | hs <;> rw [hs] at hbn e2 <;> omega
    obtain ⟨b1, q, b2, rfl⟩ : ∃ b1 q b2, b = .join s b1 q b2 := by
      cases b with
      | nil => simp at hb0
      | node l q r =>
        obtain ⟨b1, b2, hj⟩ := node_eq_join s l q r
        exact ⟨b1, q, b2, hj⟩
    obtain ⟨t', hrun, hw, hht, hpar⟩ := rebalance_double hh e2
    obtain ⟨x, y, hj⟩ := join_eq_node s (.join s a n b1) q (.join s b2 p d)
    rw [hj] at hw hht
    exact ⟨t', false, x, q, y, hrun, hw, hht, by simp, fun _ => hpar⟩
  · obtain ⟨t', hrun, hw, hht, hpar⟩ := rebalance_single hh (by omega)
    obtain ⟨x, y, hj⟩ := join_eq_node s a n (.join s b p d)
    rw [hj] at hw hht
    exact ⟨t', _, x, n, y, hrun, hw, by simpa using hht, of_decide_eq_true, fun _ => hpar⟩

end Rebalance

/-! ## Section 4: Insertion -/

variable {x T : BinTree ν} {g : Frame ν} {k : Nat}

/-- The frame of the sentinel: the tree is its right child. -/
def sentinel (r : ν) : Ctx ν := [⟨.right, r, .nil⟩]

omit [DecidableEq ν] in
theorem exists_frame (c : Ctx ν) (r : ν) : ∃ g c₀, c ++ sentinel r = g :: c₀ := by
  cases c <;> exact ⟨_, _, rfl⟩

/-- The table holds the tree `T` of elements below its sentinel. -/
structure Holds (t : AvlTable ν) (T : BinTree ν) : Prop where
  wellLinked : WellLinked t.links (plug (sentinel t.balancedRoot) T)
  balanced : HeightBalanced t.balance T

/-- A tree whose subtree in the hole of `c` is no longer the one the balances of `c` are for:
those are for one of height `h`. -/
structure Uneven (t : AvlTable ν) (c : Ctx ν) (x : BinTree ν) (h : Nat) : Prop where
  wellLinked : WellLinked t.links (plug (c ++ sentinel t.balancedRoot) x)
  balanced : HeightBalanced t.balance x
  ctx : CtxBalanced t.balance c h

omit [DecidableEq ν] in
theorem Holds.nodup {t : AvlTable ν} (h : Holds t T) : T.toList.Nodup :=
  ((nodup_plug _ _).mp h.wellLinked.nodup).1

omit [DecidableEq ν] in
theorem Uneven.holds {t : AvlTable ν} {h : Nat} (hu : Uneven t c x h)
    (hh : x.height = h) : Holds t (plug c x) := by
  constructor
  · rw [← plug_append]
    exact hu.wellLinked
  · rw [balanced_plug, hh]
    exact ⟨hu.balanced, hu.ctx⟩

section Insert

variable {t : AvlTable ν} {c : Ctx ν} {h : Nat}

omit [DecidableEq ν] in
theorem Uneven.root_not_mem (hu : Uneven t c x h) :
    t.balancedRoot ∉ x.toList ∧ t.balancedRoot ∉ c.nodes := by
  have hd := (nodup_plug _ _).mp hu.wellLinked.nodup
  rw [nodes_append] at hd
  have hr : t.balancedRoot ∈ (sentinel t.balancedRoot).nodes := by simp [sentinel, nodes]
  constructor
  · intro hx
    exact hd.2.2 _ hx (mem_append.mpr (.inr hr))
  · intro hx
    exact (nodup_append.mp hd.2.1).2.2 _ hx _ hr rfl

omit [DecidableEq ν] in
theorem Uneven.root_ne (hu : Uneven t (f :: c) x h) : t.balancedRoot ≠ f.node :=
  fun e => hu.root_not_mem.2 (by simp [Ctx.nodes, e])

/-- The balance of one node of the context is set so that it fits the tree in the hole. -/
theorem Uneven.setBalance (hu : Uneven t (f :: c) x h) {b : Int}
    (hb : b = f.side.sign * ((x.height : Int) - f.sib.height)) (h1 : -1 ≤ b) (h2 : b ≤ 1) :
    Uneven (t.rtlSetBalance f.node b) c (.join f.side x f.node f.sib) (max h f.sib.height + 1) := by
  obtain ⟨hw, hx, -, -, -, hs, hc⟩ := hu
  have hd := (nodup_plug _ _).mp hw.nodup
  rw [nodes_append] at hd
  simp only [nodes, cons_append, nodup_cons, mem_append, nodup_append,
    mem_cons] at hd
  have hkeep : ∀ z, z ≠ f.node → (t.rtlSetBalance f.node b).balance z = t.balance z := by
    intro z hz
    simp [hz]
  refine ⟨hw, ?_, ?_⟩
  · rw [balanced_join]
    refine ⟨by simpa using hb, by simpa using h1, by simpa using h2, hx.congr ?_, hs.congr ?_⟩
    · intro z hz
      apply hkeep
      rintro rfl
      exact hd.2.2 _ hz (by simp)
    · intro z hz
      apply hkeep
      rintro rfl
      exact hd.2.1.1 (by simp [hz])
  · apply hc.congr
    intro z hz
    apply hkeep
    rintro rfl
    exact hd.2.1.1 (by simp [hz])

/-- How the loops write down the side that a node is on. -/
theorem sign_of_side (h : ∀ s, rtlIsChild s m n = decide (s = g.side)) :
    (if rtlIsLeftChild m n then (-1 : Int) else 1) = g.side.sign ∧
      (if rtlIsRightChild m n then (1 : Int) else -1) = g.side.sign := by
  simp only [h]
  cases g.side <;> simp [Side.sign]

/-- The balance of the sentinel and the depth say nothing of the tree. -/
theorem Uneven.holds_sentinel (hu : Uneven t [] x h) (v : Int) (depth : Nat) :
    Holds { t.rtlSetBalance t.balancedRoot v with depthOfTree := depth } x := by
  refine ⟨hu.wellLinked, hu.balanced.congr fun z hz => ?_⟩
  have hne : z ≠ t.balancedRoot := fun e => hu.root_not_mem.1 (e ▸ hz)
  simp [AvlTable.rtlSetBalance, hne]

/-- A subtree below the sentinel or a node of the context is rebalanced. -/
theorem Uneven.rebalance {d : BinTree ν}
    (hc : CtxBalanced t.balance c h) (hh : TooHigh t (c ++ sentinel t.balancedRoot) s a n b p d) :
    ∃ t' r x q y, rtlpRebalanceAvlTreeNode t p = some (t', r) ∧ Uneven t' c (.node x q y) h ∧
      Rewritten t t' (c ++ sentinel t.balancedRoot) (.join s (.join s a n b) p d) (.node x q y) ∧
      (node x q y).height = (if r then d.height + 3 else d.height + 2) ∧
      (r = true → t.balance n = 0) ∧ (r = false → t'.links.parent p = q) := by
  obtain ⟨g, c₀, e⟩ := exists_frame c t.balancedRoot
  have hdisj := ((nodup_plug _ _).mp hh.wellLinked.nodup).2.2
  rw [nodes_append] at hdisj
  rw [e] at hh
  obtain ⟨t', r, x, q, y, hrun, hR, hht, h1, h2⟩ := rebalance_spec hh
  rw [← e] at hR
  refine ⟨t', r, x, q, y, hrun, ⟨?_, hR.balanced, hc.congr ?_⟩, hR, hht, h1, h2⟩
  · rw [hR.root]
    exact hR.wellLinked
  · intro z hz
    apply hR.outside
    intro hz'
    exact hdisj z hz' (mem_append.mpr (.inl hz))

/-- Walking up from a subtree that has grown by one. -/
theorem insertLoop_spec (hu : Uneven t c (.node a n b) h)
    (hh : (node a n b).height = h + 1) (hn : t.balance n ≠ 0 ∨ h = 0)
    (hr : t.balance t.balancedRoot = -1) (hk : c.length < k) :
    ∃ t' T', insertLoop k t n (t.links.parent n) = some t' ∧ Holds t' T' ∧
      T'.toList = (plug c (.node a n b)).toList ∧ t'.balancedRoot = t.balancedRoot ∧
      t'.numberGenericTableElements = t.numberGenericTableElements ∧
      t'.depthOfTree + c.height h = t.depthOfTree + T'.height := by
  induction c generalizing t a b n h k with
  | nil =>
    -- the sentinel was made to lean away, so that the walk ends here and the depth grows
    obtain ⟨hpar, -, hside⟩ := parent_facts hu.wellLinked
    obtain _ | k := k
    · omega
    have hrun : insertLoop (k + 1) t n (t.links.parent n) = some { t.rtlSetBalance
        t.balancedRoot 0 with depthOfTree := t.depthOfTree + 1 } := by
      simp [insertLoop, hpar, hside, hr]
    refine ⟨_, .node a n b, hrun, hu.holds_sentinel _ _, rfl, rfl, rfl, ?_⟩
    simp only [Ctx.height]
    omega
  | cons f c ih =>
    obtain ⟨hpar, -, hside⟩ := parent_facts hu.wellLinked
    have hfr := hu.root_ne
    have hbal := (sign_of_side hside).1
    obtain ⟨hbf, hf1, hf2, hbs, hbc⟩ := hu.ctx
    obtain ⟨htoward, heven, haway⟩ := lean_cases f.side hbf
    have hsign := Side.sign_cases f.side
    simp only [length_cons] at hk
    obtain _ | k := k
    · omega
    rw [hpar]
    by_cases e0 : t.balance f.node = 0
    · -- the parent was even: it now leans to this side and has grown
      have hsib := (heven.1 e0).symm
      have hval : f.side.sign =
          f.side.sign * (((node a n b).height : Int) - f.sib.height) := by
        rcases hsign with e | e <;> rw [e] <;> omega
      have hu' := hu.setBalance hval (by omega) (by omega)
      obtain ⟨x, y, hj⟩ := join_eq_node f.side (.node a n b) f.node f.sib
      rw [hj] at hu'
      have hht : (node x f.node y).height = max h f.sib.height + 1 + 1 := by
        rw [← hj, height_join]
        omega
      obtain ⟨t', T', hrun, hT, hl, h1, h2, h3⟩ := ih hu' hht
        (.inl (by simp; omega)) (by simp [hfr, hr]) (k := k) (by omega)
      refine ⟨t', T', ?_, hT, ?_, h1, h2, h3⟩
      · rw [insertLoop]
        simp only [e0, if_true, hbal]
        exact hrun
      · rw [hl, ← hj]
        rfl
    by_cases e1 : t.balance f.node = f.side.sign
    · -- it leaned to this side already and is rebalanced
      have hsib := htoward.1 e1
      obtain ⟨x, y, hj⟩ := node_eq_join f.side a n b
      have hw := hu.wellLinked
      have hb := hu.balanced
      rw [hj] at hw hb hh
      obtain ⟨t', r, u, q, v, hrun, hu', hR, hht, hr1, -⟩ :=
        Uneven.rebalance hbc ⟨hw, e1, hb, hbs, by omega⟩
      have hr0 : r = false := by
        by_contra hne
        have := hr1 (by simpa using hne)
        omega
      subst hr0
      have hht' : (node u q v).height = max h f.sib.height + 1 := by
        rw [hht]
        simp only [Bool.false_eq_true, if_false]
        omega
      refine ⟨t', _, ?_, hu'.holds hht', ?_, hR.root, hR.count, ?_⟩
      · rw [insertLoop]
        simp only [hbal, e1, Side.sign_ne_zero, if_false, ne_eq, not_true_eq_false, hrun,
          Option.map_some]
      · rw [hj]
        exact toList_plug_congr hR.toList
      · rw [height_plug, hht', hR.depth]
        rfl
    · -- it leaned to the other side and is now even
      have hsib := haway.1 (by omega)
      have hval : (0 : Int) =
          f.side.sign * (((node a n b).height : Int) - f.sib.height) := by
        rw [hh, hsib]
        simp
      have hu' := hu.setBalance hval (by omega) (by omega)
      have hht : (join f.side (.node a n b) f.node f.sib).height =
          max h f.sib.height + 1 := by
        rw [height_join]
        omega
      refine ⟨_, _, ?_, hu'.holds hht, rfl, rfl, rfl, ?_⟩
      · rw [insertLoop]
        simp [e0, hbal, e1, hfr, hr]
      · rw [height_plug, hht]
        rfl

/-- The table holds `T`, and its counters say how many elements there are and how high the tree
is. -/
structure AvlInv (t : AvlTable ν) (T : BinTree ν) : Prop extends Holds t T where
  count : t.numberGenericTableElements = T.toList.length
  depth : t.depthOfTree = T.height

/-- A new node is put where the search ended: into an empty hole below `f.node`. -/
theorem rtlpInsertAvlTreeNode_spec {new : ν} {r : TableSearchResult}
    (hi : AvlInv t (plug (f :: c) .nil)) (hnew : new ∉ (plug (f :: c) .nil).toList)
    (hne : new ≠ t.balancedRoot)
    (hr : r = if f.side = .left then .tableInsertAsLeft else .tableInsertAsRight) :
    ∃ t' T', rtlpInsertAvlTreeNode t new (some f.node) r = some t' ∧ AvlInv t' T' ∧
      T'.toList = (plug (f :: c) (.node .nil new .nil)).toList ∧
      t'.balancedRoot = t.balancedRoot := by
  have hw : WellLinked t.links (plug (f :: (c ++ sentinel t.balancedRoot)) .nil) := by
    have h := hi.wellLinked
    rw [← plug_append] at h
    exact h
  have e : f :: (c ++ sentinel t.balancedRoot) = (f :: c) ++ sentinel t.balancedRoot := rfl
  have hnodes : new ∉ nodes (f :: (c ++ sentinel t.balancedRoot)) := by
    rw [mem_plug] at hnew
    simp only [toList_nil, not_mem_nil, false_or] at hnew
    rw [e, nodes_append, mem_append]
    rintro (h | h)
    · exact hnew h
    · simp [sentinel, nodes, hne] at h
  have hw' := graft_wellLinked (n := new) hw (by
    rw [mem_plug]
    simpa only [toList_nil, not_mem_nil, false_or] using hnodes)
  obtain ⟨t1, ht1⟩ : ∃ t1 : AvlTable ν, t1 = {
    balancedRoot := t.balancedRoot
    links := (((t.links.setChild .left new none).setChild .right new none).setChild f.side
      f.node (some new)).setParent new f.node
    balance := update (update t.balance new 0) t.balancedRoot (-1)
    numberGenericTableElements := t.numberGenericTableElements + 1
    depthOfTree := t.depthOfTree } := ⟨_, rfl⟩
  have hrun : rtlpInsertAvlTreeNode t new (some f.node) r =
      insertLoop t1.fuel t1 new (t1.links.parent new) := by
    subst hr ht1
    cases f.side <;> simp [rtlpInsertAvlTreeNode, rtlInsertAsChild, AvlTable.rtlSetBalance]
  have hroot : t.balancedRoot ∉ nodes (f :: c) := by
    have hd := (nodup_plug _ _).mp hw.nodup
    rw [e, nodes_append] at hd
    intro hx
    exact (nodup_append.mp hd.2.1).2.2 _ hx _ (by simp [sentinel, nodes]) rfl
  -- the new node is a subtree of height one where the balances are for an empty one
  have hu : Uneven t1 (f :: c) (.node .nil new .nil) 0 := by
    constructor
    · rw [ht1]
      exact hw'
    · simp [HeightBalanced, ht1, hne]
    have hc : CtxBalanced t.balance (f :: c) 0 := (balanced_plug.mp hi.balanced).2
    apply hc.congr
    intro z hz
    have h1 : z ≠ t.balancedRoot := fun heq => hroot (heq ▸ hz)
    have h2 : z ≠ new := by
      rintro rfl
      apply hnodes
      rw [e, nodes_append]
      exact mem_append.mpr (.inl hz)
    simp [ht1, h1, h2]
  have hcount := hi.count
  rw [length_plug] at hcount
  have hlen := length_le_nodes (f :: c)
  obtain ⟨t', T', hrun', hT, hl, h1, h2, h3⟩ := insertLoop_spec hu rfl (.inr rfl)
    (by simp [ht1]) (k := t1.fuel) (by simp [AvlTable.fuel, ht1, hcount]; simp at hlen; omega)
  refine ⟨t', T', hrun.trans hrun', ⟨hT, ?_, ?_⟩, hl, ?_⟩
  · rw [h2, hl, length_plug, ht1]
    simp [hcount]
    omega
  · have hdep := hi.depth
    rw [height_plug] at hdep
    simp only [height_nil] at hdep
    have hdep1 : t1.depthOfTree = t.depthOfTree := by rw [ht1]
    omega
  · rw [h1, ht1]

theorem rtlpInsertAvlTreeNode_empty {new : ν} (hi : AvlInv t .nil) (hne : new ≠ t.balancedRoot)
    (o : Option ν) :
    ∃ t', rtlpInsertAvlTreeNode t new o .tableEmptyTree = some t' ∧
      AvlInv t' (.node .nil new .nil) ∧ t'.balancedRoot = t.balancedRoot := by
  have hw := graft_wellLinked (n := new) hi.wellLinked (by simp [join, hne])
  obtain ⟨t', ht'⟩ : ∃ t' : AvlTable ν, t' = {
    balancedRoot := t.balancedRoot
    links := rtlInsertAsChild .right ((t.links.setChild .left new none).setChild .right new none)
      t.balancedRoot new
    balance := update t.balance new 0
    numberGenericTableElements := t.numberGenericTableElements + 1
    depthOfTree := 1 } := ⟨_, rfl⟩
  refine ⟨t', ?_, ⟨⟨?_, ?_⟩, ?_, ?_⟩, ?_⟩
  · simp [rtlpInsertAvlTreeNode, AvlTable.rtlSetBalance, ht']
  · rw [ht']
    exact hw
  · simp [HeightBalanced, ht']
  · simp [ht', hi.count]
  · simp [ht']
  · rw [ht']

end Insert

/-! ## Section 5: Deletion -/

section Delete

variable {t : AvlTable ν} {c : Ctx ν} {h : Nat}

/-- Where the walk goes on above a subtree. -/
theorem next_frame {c₀ : Ctx ν} (hg : c ++ sentinel t.balancedRoot = g :: c₀)
    (hw : WellLinked t.links (plug (c ++ sentinel t.balancedRoot) (.node a n b))) :
    t.links.parent n = g.node ∧
      (if rtlIsRightChild t.links n then (1 : Int) else -1) = g.side.sign := by
  rw [hg] at hw
  obtain ⟨hpar, -, hside⟩ := parent_facts hw
  exact ⟨hpar, (sign_of_side hside).2⟩

/-- A step at a node that leaned away already: it is rebalanced, and the walk goes on above it
unless the height is kept. -/
theorem deleteLoop_away (hu : Uneven t (f :: c) x h) (hh : h = x.height + 1)
    (haway : t.balance f.node = f.side.other.sign) :
    ∃ t' u q v, ∃ r : Bool, Uneven t' c (.node u q v) (max h f.sib.height + 1) ∧
      Rewritten t t' (c ++ sentinel t.balancedRoot) (.join f.side x f.node f.sib) (.node u q v) ∧
      (node u q v).height + (if r then 0 else 1) = max h f.sib.height + 1 ∧
      ∀ k, deleteLoop (k + 1) t f.node f.side.sign =
        if r then some t' else deleteLoop k t' (t'.links.parent q)
          (if rtlIsRightChild t'.links q then 1 else -1) := by
  obtain ⟨hbf, hf1, hf2, hbs, hbc⟩ := hu.ctx
  have hsign := Side.sign_cases f.side
  rw [Side.sign_other] at haway
  -- the sibling is two higher, so there is one
  have hsib : f.sib.height = x.height + 2 := by
    have := (lean_cases f.side hbf).2.2.1 haway
    omega
  obtain ⟨a, n, b, hj⟩ : ∃ a n b, f.sib = .join f.side.other a n b := by
    cases hs : f.sib with
    | nil => simp [hs] at hsib
    | node l n r =>
      obtain ⟨a, b, hj⟩ := node_eq_join f.side.other l n r
      exact ⟨a, n, b, hj⟩
  have hw := hu.wellLinked
  rw [List.cons_append, plug_cons, hj, ← join_other] at hw
  rw [hj] at hbs hsib
  obtain ⟨t', r, u, q, v, hrun, hu', hR, hht, -, hq⟩ := Uneven.rebalance hbc
    ⟨hw, haway.trans (Side.sign_other _).symm, hbs, hu.balanced, hsib⟩
  rw [join_other, ← hj] at hR
  rw [← hj] at hsib
  refine ⟨t', u, q, v, r, hu', hR, ?_, fun k => ?_⟩
  · cases r <;> simp only [if_true, Bool.false_eq_true, if_false] at hht ⊢ <;> omega
  · rw [deleteLoop, if_neg (by omega), if_neg (by omega), hrun]
    cases r with
    | true => rfl
    | false => rw [← hq rfl]; rfl

/-- Walking up from a subtree that has shrunk by one. -/
theorem deleteLoop_spec {c₀ : Ctx ν} (hu : Uneven t c x h)
    (hh : h = x.height + 1) (hg : c ++ sentinel t.balancedRoot = g :: c₀)
    (hr : t.balance t.balancedRoot = 0) (hdep : t.depthOfTree = c.height h) (hk : c.length < k) :
    ∃ t' T', deleteLoop k t g.node g.side.sign = some t' ∧ Holds t' T' ∧
      T'.toList = (plug c x).toList ∧ t'.balancedRoot = t.balancedRoot ∧
      t'.numberGenericTableElements = t.numberGenericTableElements ∧
      t'.depthOfTree = T'.height := by
  induction c generalizing t x g c₀ h k with
  | nil =>
    -- at the sentinel, which stands for even: the whole tree has lost a level
    obtain ⟨rfl, -⟩ := hg
    obtain _ | k := k
    · omega
    have hrun : deleteLoop (k + 1) t t.balancedRoot 1 = some { t.rtlSetBalance
        t.balancedRoot (-1) with depthOfTree := t.depthOfTree - 1 } := by
      simp [deleteLoop, hr]
    refine ⟨_, x, hrun, hu.holds_sentinel _ _, rfl, rfl, rfl, ?_⟩
    simp only [Ctx.height] at hdep
    simp only
    omega
  | cons f c ih =>
    obtain ⟨rfl, rfl⟩ := hg
    have hfr := hu.root_ne
    obtain ⟨hbf, hf1, hf2, hbs, hbc⟩ := hu.ctx
    obtain ⟨htoward, heven, haway⟩ := lean_cases f.side hbf
    have hsign := Side.sign_cases f.side
    simp only [length_cons] at hk
    simp only [Ctx.height] at hdep
    obtain ⟨g', c', hg'⟩ := exists_frame c t.balancedRoot
    obtain _ | k := k
    · omega
    by_cases e1 : t.balance f.node = f.side.sign
    · -- the parent leaned to this side: it is even now and has shrunk as well
      have hsib : f.sib.height = x.height := by
        omega
      have hval : (0 : Int) = f.side.sign * ((x.height : Int) - f.sib.height) := by
        rw [hsib]
        simp
      have hu' := hu.setBalance hval (by omega) (by omega)
      obtain ⟨u, v, hj⟩ := join_eq_node f.side x f.node f.sib
      have hht : max h f.sib.height + 1 = (join f.side x f.node f.sib).height + 1 := by
        rw [height_join]
        omega
      obtain ⟨t', T', hrun, hT, hl, h1, h2, h3⟩ := ih hu' hht hg' (by simp [hfr, hr])
        (by simpa using hdep) (k := k) (by omega)
      have hw := hu.wellLinked
      rw [List.cons_append, plug_cons, hj] at hw
      obtain ⟨hpar, hside⟩ := next_frame hg' hw
      refine ⟨t', T', ?_, hT, hl, h1, h2, h3⟩
      have hstep : deleteLoop (k + 1) t f.node f.side.sign =
          deleteLoop k (t.rtlSetBalance f.node 0) (t.links.parent f.node)
            (if rtlIsRightChild t.links f.node then 1 else -1) := by
        rw [deleteLoop, if_pos e1]
        rfl
      rw [hstep, hpar, hside]
      exact hrun
    by_cases e0 : t.balance f.node = 0
    · -- it was even: it leans away now and keeps its height
      have hsib := (heven.1 e0).symm.trans hh
      have hval : -f.side.sign = f.side.sign * ((x.height : Int) - f.sib.height) := by
        rcases hsign with e | e <;> rw [e] <;> omega
      have hu' := hu.setBalance hval (by omega) (by omega)
      have hht : (join f.side x f.node f.sib).height = max h f.sib.height + 1 := by
        rw [height_join]
        omega
      have hne : (0 : Int) ≠ f.side.sign := (Side.sign_ne_zero _).symm
      refine ⟨_, _, ?_, hu'.holds hht, rfl, rfl, rfl, ?_⟩
      · rw [deleteLoop]
        simp [e0, hne, hfr, hr]
      · rw [height_plug, hht]
        exact hdep
    -- it leaned away already and is rebalanced
    obtain ⟨t', u, q, v, r, hu', hR, hht, hstep⟩ := deleteLoop_away hu hh (by
      rw [Side.sign_other]
      omega)
    have hl : (plug c (.node u q v)).toList = (plug (f :: c) x).toList :=
      toList_plug_congr hR.toList
    rw [hstep]
    cases r with
    | true =>
      -- the sibling was even, and the height is kept
      refine ⟨t', _, rfl, hu'.holds hht, hl, hR.root, hR.count, ?_⟩
      rw [height_plug, hR.depth, hdep, ← hht]
      rfl
    | false =>
      have hroot' : t'.balance t'.balancedRoot = 0 := by
        rw [hR.root, hR.outside, hr]
        rw [← hR.toList, ← hR.root]
        exact hu'.root_not_mem.1
      rw [← hR.root] at hg'
      obtain ⟨hpar, hside⟩ := next_frame hg' hu'.wellLinked
      obtain ⟨t'', T', hrun', hT, hl', h1, h2, h3⟩ := ih hu' hht.symm hg' hroot'
        (by rw [hR.depth, hdep]) (k := k) (by omega)
      refine ⟨t'', T', ?_, hT, hl'.trans hl, h1.trans hR.root, h2.trans hR.count, h3⟩
      rw [hpar, hside]
      exact hrun'

/-! ### The node that is taken out -/

variable {d : ν}

/-- The node `d` that is taken out for `n` lacks a child on one side, and if it is not `n` itself,
then it is the next one on one side. -/
structure TakenOut (t : AvlTable ν) (T : BinTree ν) (n d : ν) (c : Ctx ν) (x : BinTree ν) : Prop where
  focus : T = plug c (.join (if (t.links.child .left d).isSome then .left else .right) x d .nil)
  next : n ≠ d → ∃ l₁ l₂, T.toList = l₁ ++ n :: d :: l₂ ∨ T.toList = l₁ ++ d :: n :: l₂

omit [DecidableEq ν] in
theorem focus_of_child_none (h : WellLinked m (plug c (.node a d b)))
    (hn : m.child .left d = none ∨ m.child .right d = none) :
    ∃ x, node a d b = .join (if (m.child .left d).isSome then .left else .right) x d .nil := by
  obtain ⟨-, -, -, ha, hb⟩ := (wellLinked_plug (s := .left)).mp h
  simp only [Side.other] at hb
  cases hl : m.child .left d with
  | none =>
    rw [hl] at ha
    obtain rfl := ha.eq_nil
    exact ⟨b, by simp [join]⟩
  | some z =>
    rw [hl] at hn
    have hr : m.child .right d = none := by simpa using hn
    rw [hr] at hb
    obtain rfl := hb.eq_nil
    exact ⟨a, by simp [join]⟩

theorem deleteNode_spec (hi : AvlInv t T) (hn : n ∈ T.toList) :
    ∃ d c x, deleteNode t n = some d ∧ TakenOut t T n d c x := by
  have hfocus : ∀ d ∈ T.toList, t.links.child .left d = none ∨ t.links.child .right d = none →
      ∃ c x, T = plug c (.join (if (t.links.child .left d).isSome then .left else .right)
        x d .nil) := by
    intro d hd hnone
    obtain ⟨c, a, b, hT⟩ := exists_plug hd
    have hw := hi.wellLinked
    rw [hT, ← plug_append] at hw
    obtain ⟨x, hx⟩ := focus_of_child_none hw hnone
    exact ⟨c, x, hx ▸ hT⟩
  obtain ⟨c, a, b, hT⟩ := exists_plug hn
  have hw := hi.wellLinked
  rw [hT, ← plug_append] at hw
  obtain ⟨-, -, -, ha, hb⟩ := (wellLinked_plug (s := .left)).mp hw
  simp only [Side.other] at hb
  have hlist := congrArg toList hT
  rw [toList_plug, toList_node] at hlist
  have hfuel : a.toList.length ≤ t.fuel ∧ b.toList.length ≤ t.fuel := by
    have hlen := congrArg length hlist
    rw [← hi.count] at hlen
    simp only [length_append, length_cons] at hlen
    constructor <;> simp only [AvlTable.fuel] <;> omega
  cases hl : t.links.child .left n with
  | none =>
    obtain ⟨c', x, hx⟩ := hfocus n hn (.inl hl)
    exact ⟨n, c', x, by simp [deleteNode, hl], hx, fun h => absurd rfl h⟩
  | some l =>
    cases hr : t.links.child .right n with
    | none =>
      obtain ⟨c', x, hx⟩ := hfocus n hn (.inr hr)
      exact ⟨n, c', x, by simp [deleteNode, hl, hr], hx, fun h => absurd rfl h⟩
    | some r =>
      rw [hl] at ha
      rw [hr] at hb
      by_cases hbal : 0 ≤ t.balance n
      · -- the right side is not lower: the successor
        obtain ⟨d, l', hd, hdn, hrun⟩ := lastChild_spec .left hb
        simp only [sideCons] at hd
        obtain ⟨c', x, hx⟩ := hfocus d (by simp [hlist, hd]) (.inl hdn)
        refine ⟨d, c', x, ?_, hx, fun _ => ⟨c.before ++ a.toList, l' ++ c.after, .inl ?_⟩⟩
        · simp only [deleteNode, hl, hr, if_pos hbal]
          exact hrun _ hfuel.2
        · simp [hlist, hd]
      -- the left side is higher: the predecessor
      obtain ⟨d, l', hd, hdn, hrun⟩ := lastChild_spec .right ha
      simp only [sideCons] at hd
      obtain ⟨c', x, hx⟩ := hfocus d (by simp [hlist, hd]) (.inr hdn)
      refine ⟨d, c', x, ?_, hx, fun _ => ⟨c.before ++ l', b.toList ++ c.after, .inr ?_⟩⟩
      · simp only [deleteNode, hl, hr, if_neg hbal]
        exact hrun _ hfuel.1
      · simp [hlist, hd]

/-- Copying the links of `n` to a node outside the tree renames `n` in the tree. -/
theorem takeOver_wellLinked (hw : WellLinked m T) (hn : n ∈ T.toList) (hr : m.parent n ≠ n)
    (hd : d ∉ T.toList) : WellLinked (takeOver m n d) (T.map (swap n d)) := by
  obtain ⟨hpm, s, hs⟩ := hw.child_of_parent hn hr
  have hself := hw.child_ne_self hn
  have hside : sideOf (rtlIsLeftChild (m.setLinks d (m.parent n) fun s => m.child s n) n) = s := by
    have e : rtlIsLeftChild (m.setLinks d (m.parent n) fun s => m.child s n) n =
        rtlIsLeftChild m n := by
      have h1 : n ≠ d := fun e => hd (e ▸ hn)
      have h2 : m.parent n ≠ d := fun e => hd (e ▸ hpm)
      simp [rtlIsChild, h1, h2]
    simp only [e]
    exact sideOf_isLeftChild hw hpm hs
  have hpd : m.parent n ≠ d := fun e => hd (e ▸ hpm)
  have hkid : ∀ s' x, m.child s' n = some x → x ≠ n ∧ x ≠ d ∧ m.parent x = n := by
    intro s' x hx
    obtain ⟨h1, h2⟩ := hw.parent_of_child hn hx
    refine ⟨?_, fun e => hd (e ▸ h2), h1⟩
    rintro rfl
    exact hself s' hx
  have hfix : ∀ s', (m.child s' n).map (swap n d) = m.child s' n := by
    intro s'
    apply map_swap_of_ne (hself s')
    intro e
    exact (hkid s' d e).2.1 rfl
  have hparent : ∀ x, (takeOver m n d).parent x =
      if m.child .right n = some x ∨ m.child .left n = some x then d
      else if x = d then m.parent n else m.parent x := by
    intro x
    simp only [takeOver, hside]
    grind
  have hchild : ∀ s' x, (takeOver m n d).child s' x =
      if s' = s ∧ x = m.parent n then some d
      else if x = d then m.child s' n else m.child s' x := by
    intro s' x
    simp only [takeOver, hside]
    grind
  have hsplit : ∀ x ∈ (T.map (swap n d)).toList, x = d ∨ x ∈ T.toList ∧ x ≠ n ∧ x ≠ d := by
    intro x hx
    rw [toList_map, mem_map] at hx
    obtain ⟨y, hy, rfl⟩ := hx
    by_cases e : y = n
    · left
      rw [e, swap_apply_left]
    right
    have hyd : y ≠ d := fun e' => hd (e' ▸ hy)
    rw [swap_apply_of_ne_of_ne e hyd]
    exact ⟨hy, e, hyd⟩
  apply (hw.rename (swap n d)).congr
  · intro x hx
    simp only [hparent, Store.rename, symm_swap]
    rcases hsplit x hx with rfl | ⟨hxT, hxn, hxd⟩
    · rw [swap_apply_right]
      grind
    rw [swap_apply_of_ne_of_ne hxn hxd]
    by_cases e : m.parent x = n
    · -- a child of `n` becomes one of `d`
      obtain ⟨-, s', hs'⟩ := hw.child_of_parent hxT (by rw [e]; exact hxn.symm)
      rw [e] at hs'
      rw [e]
      cases s' <;> simp [hs']
    have hno : ∀ s', m.child s' n ≠ some x := fun s' hs' => e (hkid s' x hs').2.2
    by_cases e' : m.parent x = x
    · simp [hno, hxd, e', swap_apply_of_ne_of_ne hxn hxd]
    · have hpx : m.parent x ≠ d := fun e'' => hd (e'' ▸ (hw.child_of_parent hxT e').1)
      simp [hno, hxd, swap_apply_of_ne_of_ne e hpx]
  · intro x hx s'
    simp only [hchild, Store.rename, symm_swap]
    rcases hsplit x hx with rfl | ⟨hxT, hxn, hxd⟩
    · rw [swap_apply_right, hfix]
      simp [hpd.symm]
    rw [swap_apply_of_ne_of_ne hxn hxd]
    by_cases e : m.child s' x = some n
    · -- the link to `n` becomes one to `d`
      obtain ⟨hpx, -⟩ := hw.parent_of_child hxT e
      rw [← hpx] at e
      have hss : s' = s := hw.side_unique hpm e hs
      rw [← hpx, e]
      simp [hss]
    have hno : ¬ (s' = s ∧ x = m.parent n) := by
      rintro ⟨rfl, rfl⟩
      exact e hs
    have hxd' : m.child s' x ≠ some d := fun e' => hd (hw.parent_of_child hxT e').2
    rw [map_swap_of_ne e hxd']
    simp [hno, hxd]

omit [DecidableEq ν] in
theorem AvlInv.root_not_mem (hi : AvlInv t T) : t.balancedRoot ∉ T.toList := by
  have hd := hi.wellLinked.nodup
  rw [nodup_plug] at hd
  intro h
  exact hd.2.2 _ h (by simp [sentinel, nodes])

/-- Only the sentinel is its own parent. -/
theorem Holds.parent_ne (hi : Holds t T) (hn : n ∈ T.toList) : t.links.parent n ≠ n := by
  obtain ⟨c, a, b, rfl⟩ := exists_plug hn
  have hw := hi.wellLinked
  rw [← plug_append] at hw
  obtain ⟨g, c₀, hg⟩ := exists_frame c t.balancedRoot
  rw [hg] at hw
  simpa [rtlIsRoot] using (parent_facts hw).2.1

/-- The node that is taken out is replaced by its child. -/
theorem TakenOut.unlink (hi : AvlInv t T) (hd : TakenOut t T n d c x) :
    ∃ g c₀, c ++ sentinel t.balancedRoot = g :: c₀ ∧ t.links.parent d = g.node ∧
      (if rtlIsLeftChild t.links d then (-1 : Int) else 1) = g.side.sign ∧
      WellLinked (unlinkNode t.links d) (plug (c ++ sentinel t.balancedRoot) x) := by
  obtain ⟨g, c₀, hg⟩ := exists_frame c t.balancedRoot
  obtain ⟨s, hs⟩ : ∃ s, s = if (t.links.child .left d).isSome then Side.left else .right := ⟨_, rfl⟩
  have hf := hd.focus
  rw [← hs] at hf
  have hw := hi.wellLinked
  rw [hf, ← plug_append, hg] at hw
  obtain ⟨a, b, hj⟩ := join_eq_node s x d .nil
  obtain ⟨hpar, hroot, hside⟩ := parent_facts (hj ▸ hw)
  have hne : d ≠ g.node := by
    rw [rtlIsRoot, hpar] at hroot
    exact Ne.symm (of_decide_eq_false hroot)
  have hsp : unlinkNode t.links d = t.links.splice (g :: c₀) (t.links.child s d) := by
    have hgs : sideOf (rtlIsLeftChild t.links d) = g.side := by
      simp only [hside]
      cases g.side <;> rfl
    simp only [unlinkNode, ← hs, hpar, hgs, Store.splice, Store.setChild_child, hne, and_false,
      if_false]
  refine ⟨g, c₀, hg, hpar, (sign_of_side hside).1, ?_⟩
  rw [hsp, hg]
  exact splice_wellLinked hw

/-- The sequence without `n`, once its neighbour `d` has gone and then taken its place. -/
theorem erase_neighbour {l : List ν} (hnd : l.Nodup)
    (h : ∃ l₁ l₂, l = l₁ ++ n :: d :: l₂ ∨ l = l₁ ++ d :: n :: l₂) :
    (l.erase d).map (swap n d) = l.erase n := by
  obtain ⟨l₁, l₂, rfl | rfl⟩ := h
  all_goals
    simp only [nodup_append, nodup_cons, mem_cons, not_or] at hnd
    obtain ⟨-, ⟨⟨hne, h2⟩, h3, -⟩, h1⟩ := hnd
    have hn1 : n ∉ l₁ := fun h => h1 n h n (by simp) rfl
    have hd1 : d ∉ l₁ := fun h => h1 d h d (by simp) rfl
    simp [erase_append_right, erase_cons_tail, hn1, hd1, hne, map_swap_of_not_mem, h2, h3]

/-- `RtlpDeleteAvlTreeNode` takes one node out of the tree; the caller counts it off. -/
theorem rtlpDeleteAvlTreeNode_spec (hi : AvlInv t T) (hn : n ∈ T.toList) :
    ∃ t' T', rtlpDeleteAvlTreeNode t n = some t' ∧
      AvlInv { t' with numberGenericTableElements := t'.numberGenericTableElements - 1 } T' ∧
      T'.toList = T.toList.erase n ∧ t'.balancedRoot = t.balancedRoot := by
  obtain ⟨d, c, x, hdel, hto⟩ := deleteNode_spec hi hn
  obtain ⟨g, c₀, hg, hpar, hbal, hw⟩ := hto.unlink hi
  have hf := hto.focus
  have hroot := hi.root_not_mem
  have hTnd := hi.toHolds.nodup
  have hlist : (plug c x).toList = T.toList.erase d := by
    rw [hf] at hTnd ⊢
    exact (erase_plug hTnd).symm
  -- the tree without `d`, lower by one where that was
  obtain ⟨t1, ht1⟩ : ∃ t1 : AvlTable ν, t1 = { t with
    links := unlinkNode t.links d }.rtlSetBalance t.balancedRoot 0 := ⟨_, rfl⟩
  have hroot1 : t1.balancedRoot = t.balancedRoot := by rw [ht1]; rfl
  have hu : Uneven t1 c x (x.height + 1) := by
    have hb := hi.balanced
    rw [hf] at hb hroot
    obtain ⟨hbx, hbc⟩ := balanced_plug.mp hb
    obtain ⟨-, -, -, hbx, -⟩ := balanced_join.mp hbx
    rw [height_join, height_nil, Nat.max_zero] at hbc
    rw [mem_plug, mem_join] at hroot
    have hkeep : ∀ z, z ≠ t.balancedRoot → t1.balance z = t.balance z := by
      intro z hz
      simp [ht1, hz]
    refine ⟨?_, hbx.congr ?_, hbc.congr ?_⟩
    · rw [ht1]
      exact hw
    · intro z hz
      apply hkeep
      rintro rfl
      exact hroot (.inl (.inr (.inl hz)))
    · intro z hz
      apply hkeep
      rintro rfl
      exact hroot (.inr hz)
  have hfuel : c.length < t1.fuel := by
    have hlen := congrArg (length ∘ toList) hf
    have hcl := length_le_nodes c
    simp only [comp, length_plug, ← hi.count] at hlen
    simp only [ht1, AvlTable.fuel, rtlSetBalance_count]
    omega
  have hdep : t1.depthOfTree = c.height (x.height + 1) := by
    have hdt := hi.depth
    rw [hf, height_plug, height_join, height_nil, Nat.max_zero] at hdt
    rw [ht1]
    exact hdt
  -- the walk up restores the balances
  obtain ⟨t2, T2, hrun, hT2, hl2, hr2, hc2, hd2⟩ := deleteLoop_spec hu rfl (hroot1 ▸ hg)
    (by simp [ht1]) hdep hfuel
  rw [hlist] at hl2
  have hcount : t2.numberGenericTableElements - 1 = (T.toList.erase n).length := by
    rw [length_erase_of_mem hn, ← hi.count, hc2, ht1]
    rfl
  have hr : t2.balancedRoot = t.balancedRoot := hr2.trans hroot1
  by_cases e : n = d
  · subst e
    refine ⟨t2, T2, ?_, ⟨⟨hT2.wellLinked, hT2.balanced⟩, hl2 ▸ hcount, hd2⟩, hl2, hr⟩
    simp only [rtlpDeleteAvlTreeNode, hdel, hpar, hbal, ← ht1, hrun, if_true]
  -- `d` takes the place of its neighbour `n`
  have hnT : n ∈ T2.toList := by
    rw [hl2]
    exact (mem_erase_of_ne e).mpr hn
  have hdT : d ∉ T2.toList := by
    rw [hl2]
    exact hTnd.not_mem_erase
  have hdm : d ∈ T.toList := by
    rw [hf, mem_plug]
    simp
  have hrn : t.balancedRoot ≠ n := fun e' => hroot (e' ▸ hn)
  have hrd : t.balancedRoot ≠ d := fun e' => hroot (e' ▸ hdm)
  have hnpar : t2.links.parent n ≠ n := hT2.parent_ne hnT
  have hw2 := takeOver_wellLinked (d := d) hT2.wellLinked
    ((mem_plug _ _ _).mpr (.inl hnT)) hnpar (by
      rw [hr]
      simp [sentinel, hdT, hrd.symm])
  have hl : (T2.map (swap n d)).toList = T.toList.erase n := by
    rw [toList_map, hl2]
    exact erase_neighbour hTnd (hto.next e)
  refine ⟨{ t2.rtlSetBalance d (t2.balance n) with links := takeOver t2.links n d },
    T2.map (swap n d), ?_, ⟨⟨?_, ?_⟩, hl ▸ hcount, ?_⟩, hl, hr⟩
  · simp only [rtlpDeleteAvlTreeNode, hdel, hpar, hbal, ← ht1, hrun, e, if_false]
  · -- the sentinel is neither of the two nodes
    have hmap : (plug (sentinel t2.balancedRoot) T2).map (swap n d) =
        plug (sentinel t2.balancedRoot) (T2.map (swap n d)) := by
      simp [sentinel, join, map, hr, swap_apply_of_ne_of_ne hrn hrd]
    rw [hmap] at hw2
    exact hw2
  · -- `d` has got the balance of `n`
    apply hT2.balanced.map
    intro z hz
    have hzd : z ≠ d := fun e' => hdT (e' ▸ hz)
    by_cases hzn : z = n
    · simp [hzn]
    · simp [swap_apply_of_ne_of_ne hzn hzd, hzd]
  · rw [height_map]
    exact hd2

end Delete

/-! ## Section 6: Search -/

section Find

/-- What is looked for cuts the sequence: greater than each node before the cut and less than each
one after it. -/
def Cut (cmp : ν → Ordering) (l : List ν) : Prop :=
  l.Pairwise fun x y => (cmp x = .lt → cmp y = .lt) ∧ (cmp y = .gt → cmp x = .gt)

/-- The empty place in the context `c` is where the cut is. -/
structure CutAt (cmp : ν → Ordering) (c : Ctx ν) : Prop where
  before : ∀ z ∈ c.before, cmp z = .gt
  after : ∀ z ∈ c.after, cmp z = .lt

/-- How what is looked for compares with a node if its place is on side `s` of it. -/
def sideOrdering : Side → Ordering
  | .left => .lt
  | .right => .gt

/-- The result that says on which side of the parent the place is. -/
def insertAs (s : Side) : TableSearchResult :=
  if s = .left then .tableInsertAsLeft else .tableInsertAsRight

variable {t : AvlTable ν} {cmp : ν → Ordering}

omit [DecidableEq ν]

theorem CutAt.cons {x : ν} (hc : CutAt cmp c) (hcut : Cut cmp (plug c (.join s a x b)).toList)
    (hx : cmp x = sideOrdering s) : CutAt cmp (⟨s, x, b⟩ :: c) := by
  rw [toList_plug] at hcut
  simp only [Cut, append_assoc, pairwise_append] at hcut
  obtain ⟨-, ⟨hj, -, -⟩, -⟩ := hcut
  cases s with
  | left =>
    simp only [join, toList_node, pairwise_append, pairwise_cons] at hj
    constructor
    · simpa [Ctx.before] using hc.before
    intro z hz
    simp only [Ctx.after, cons_append, mem_cons, mem_append] at hz
    rcases hz with rfl | hz | hz
    · exact hx
    · exact (hj.2.1.1 z hz).1 hx
    · exact hc.after z hz
  | right =>
    simp only [join, toList_node, pairwise_append, pairwise_cons] at hj
    constructor
    · intro z hz
      simp only [Ctx.before, mem_append, mem_cons, not_mem_nil, or_false] at hz
      rcases hz with hz | hz | rfl
      · exact hc.before z hz
      · exact (hj.2.2 z hz x (by simp)).2 hx
      · exact hx
    · simpa [Ctx.after] using hc.after

/-- The loop goes down to the node or to the empty place. -/
theorem findLoop_spec {x : ν}
    (hl : Linked m p (some x) T) (hc : CutAt cmp c) (hcut : Cut cmp (plug c T).toList)
    (hk : T.toList.length ≤ k) :
    (∃ y ∈ T.toList, cmp y = .eq ∧ findLoop m cmp k x = some (.tableFoundNode, y)) ∨
      ∃ f c', plug c T = plug (f :: c') .nil ∧ CutAt cmp (f :: c') ∧
        findLoop m cmp k x = some (insertAs f.side, f.node) := by
  induction hn : T.toList.length using Nat.strongRecOn generalizing T c p x k with
  | _ j ih =>
    subst hn
    obtain ⟨a', b', rfl⟩ := hl.eq_node
    obtain _ | k := k
    · simp at hk
    by_cases he : cmp x = .eq
    · left
      exact ⟨x, by simp, he, by simp [findLoop, he]⟩
    -- one step down, on the side the comparison says
    obtain ⟨s, hx⟩ : ∃ s, cmp x = sideOrdering s := by
      cases h : cmp x with
      | lt => exact ⟨.left, rfl⟩
      | gt => exact ⟨.right, rfl⟩
      | eq => exact absurd h he
    obtain ⟨a, b, hj⟩ := node_eq_join s a' x b'
    rw [hj] at hl hcut hk ih ⊢
    obtain ⟨-, -, ha, -⟩ := linked_join.mp hl
    have hc' := hc.cons hcut hx
    have hstep : findLoop m cmp (k + 1) x = match m.child s x with
        | some y => findLoop m cmp k y
        | none => some (insertAs s, x) := by
      cases s
      all_goals
        simp only [findLoop, hx, sideOrdering]
        rfl
    cases hs : m.child s x with
    | none =>
      right
      rw [hs] at ha
      obtain rfl := ha.eq_nil
      refine ⟨⟨s, x, b⟩, c, rfl, hc', ?_⟩
      rw [hstep, hs]
    | some y =>
      rw [hs] at ha
      have hlen := length_lt_join s a x b
      rw [hstep, hs]
      rcases ih _ hlen ha hc' hcut (k := k) (by omega) rfl with ⟨z, hz, h1, h2⟩ | h
      · exact .inl ⟨z, by simp [hz], h1, h2⟩
      · exact .inr h

/-- `RtlpFindAvlTableNodeOrParent` finds the node, or the place where it would have to be. -/
theorem rtlpFindAvlTableNodeOrParent_spec (hi : AvlInv t T) (hcut : Cut cmp T.toList) :
    (T = .nil ∧ rtlpFindAvlTableNodeOrParent t cmp = some (.tableEmptyTree, none)) ∨
      (∃ y ∈ T.toList, cmp y = .eq ∧
        rtlpFindAvlTableNodeOrParent t cmp = some (.tableFoundNode, some y)) ∨
      ∃ f c, T = plug (f :: c) .nil ∧ CutAt cmp (f :: c) ∧
        rtlpFindAvlTableNodeOrParent t cmp = some (insertAs f.side, some f.node) := by
  have hl := (wellLinked_plug_cons.mp hi.wellLinked).2.2
  cases T with
  | nil => exact .inl ⟨rfl, by simp [rtlpFindAvlTableNodeOrParent, hi.count]⟩
  | node a x b =>
    right
    have hne : t.numberGenericTableElements ≠ 0 := by simp [hi.count]
    have hroot : t.links.child .right t.balancedRoot = some x := hl.1
    rw [hl.1] at hl
    have h0 : CutAt cmp ([] : Ctx ν) := ⟨by simp [before], by simp [after]⟩
    have hfuel : (node a x b).toList.length ≤ t.fuel := by
      simp only [AvlTable.fuel, hi.count]
      omega
    simp only [rtlpFindAvlTableNodeOrParent, hne, if_false, hroot]
    rcases findLoop_spec hl h0 hcut hfuel with ⟨y, hy, he, hrun⟩ | ⟨f, c, hT, hc, hrun⟩
    · exact .inl ⟨y, hy, he, by rw [hrun]; rfl⟩
    · exact .inr ⟨f, c, hT, hc, by rw [hrun]; rfl⟩

/-- Where the search ends without the element, no element compares equal. -/
theorem CutAt.ne_eq {f : ν → Ordering} (h : CutAt f c) {z : ν}
    (hz : z ∈ (plug c .nil).toList) : f z ≠ .eq := by
  rw [toList_plug, toList_nil, append_nil, mem_append] at hz
  rcases hz with hz | hz
  · simp [h.before z hz]
  · simp [h.after z hz]

end Find

/-! ## Section 7: Empty places in the sequence -/

section Places

variable {m : Store ν} {c₀ : Ctx ν} {T : BinTree ν} {l₁ l₂ : List ν} {n p : ν}

omit [DecidableEq ν]

theorem split_unique {l1' l2' : List ν} (hnd : (l₁ ++ n :: l₂).Nodup)
    (h : l₁ ++ n :: l₂ = l1' ++ n :: l2') : l₁ = l1' ∧ l₂ = l2' := by
  rw [nodup_append, nodup_cons] at hnd
  have h1 : n ∉ l₁ := fun hn => hnd.2.2 n hn n (by simp) rfl
  obtain ⟨e1, -, e2⟩ := (append_cons_inj_of_notMem h1 hnd.2.1.1).mp h
  exact ⟨e1, e2⟩

section Focus

variable (hw : WellLinked m (plug c₀ T))

include hw

/-- A node of the tree, with what comes before and after it. -/
theorem exists_focus (hl : T.toList = l₁ ++ n :: l₂) :
    ∃ c a b, T = plug c (.node a n b) ∧ l₁ = c.before ++ a.toList ∧ l₂ = b.toList ++ c.after ∧
      Linked m n (m.child .left n) a ∧ Linked m n (m.child .right n) b := by
  obtain ⟨c, a, b, rfl⟩ := exists_plug (t := T) (x := n) (by rw [hl]; simp)
  have hnd := ((nodup_plug _ _).mp hw.nodup).1
  rw [hl] at hnd
  rw [← plug_append] at hw
  obtain ⟨-, -, -, ha, hb⟩ := (wellLinked_plug (s := .left)).mp hw
  have hlist : l₁ ++ n :: l₂ = (c.before ++ a.toList) ++ n :: (b.toList ++ c.after) := by
    rw [← hl, toList_plug]
    simp
  obtain ⟨e1, e2⟩ := split_unique hnd hlist
  exact ⟨c, a, b, rfl, e1, e2, ha, hb⟩

theorem child_left_none_of_first (hl : T.toList = n :: l₂) : m.child .left n = none := by
  obtain ⟨c, a, b, rfl, h1, -, ha, -⟩ := exists_focus hw (show T.toList = [] ++ n :: l₂ from hl)
  exact ha.eq_none (append_eq_nil_iff.mp h1.symm).2

theorem child_right_none_of_last (hl : T.toList = l₁ ++ [p]) : m.child .right p = none := by
  obtain ⟨c, a, b, rfl, -, h2, -, hb⟩ := exists_focus hw hl
  exact hb.eq_none (append_eq_nil_iff.mp h2.symm).1

/-- Of two neighbours one has an empty place on the side of the other. -/
theorem child_none_of_neighbours [DecidableEq ν]
    (hl : T.toList = l₁ ++ p :: n :: l₂) : m.child .right p = none ∨ m.child .left n = none := by
  cases hc : m.child .left n with
  | none => exact .inr rfl
  | some x =>
    -- the last node of the left subtree of `n` is `p`
    have hl' : T.toList = (l₁ ++ [p]) ++ n :: l₂ := by rw [hl]; simp
    obtain ⟨c, a, b, rfl, h1, -, ha, -⟩ := exists_focus hw hl'
    rw [hc] at ha
    obtain ⟨y, l, hy, hyc, -⟩ := lastChild_spec .right ha
    rw [hy] at h1
    simp only [sideCons, ← append_assoc] at h1
    obtain ⟨-, rfl⟩ := append_singleton_inj.mp h1
    exact .inl hyc

end Focus

end Places

end Rtl
