import Mathlib.Algebra.Group.Int.Defs
import Mathlib.Algebra.Group.Nat.Defs
import Mathlib.Data.List.Find
import Mathlib.Data.List.InsertIdx

/-! # Hints and hashes of subkey leaves

    An entry of a fast leaf has the first four characters of the name of its
    key, and one of a hash leaf has a hash of it (`cmindex.c`, `cmname.c`).
    Both are looked at before the name itself.

    Characters are numbers, and `table` is what `NlsUnicodeUpcaseTable` makes
    of those behind `z`.  The cell of a key is the key node itself. -/

namespace Cm

/-! ## Section 1: Comparisons and hashes -/

/-- A key node, with `KEY_COMP_NAME`: the characters of a compressed name are
    bytes.  No key has an empty name. -/
structure KeyNode where
  compressed : Bool
  name : List Nat
  bytes : compressed = true → ∀ c ∈ name, c < 256
  named : name ≠ []

inductive Signature where
  | indexLeaf
  | fastLeaf
  | hashLeaf
  deriving DecidableEq

/-- `CM_INDEX`.  The hint and the hash share their place in the source: a leaf
    has one of them. -/
structure CmIndex where
  cell : KeyNode
  nameHint : List Nat := [0, 0, 0, 0]
  hashKey : Nat := 0

section Code

variable (table : Nat → Nat)

def rtlUpcaseUnicodeChar (c : Nat) : Nat :=
  if c < 97 then c else if c ≤ 122 then c - (97 - 65) else table c

/-- What two characters differ by in upper case. -/
def difference (c d : Nat) : Int :=
  (rtlUpcaseUnicodeChar table c : Int) - rtlUpcaseUnicodeChar table d

/-- `RtlCompareUnicodeString`, with `CaseInSensitive`. -/
def rtlCompareUnicodeString : List Nat → List Nat → Int
  | c :: s, d :: n =>
    if difference table c d ≠ 0 then difference table c d else rtlCompareUnicodeString s n
  | s, n => 2 * (s.length : Int) - 2 * n.length

def cmpCompareCompressedName : List Nat → List Nat → Int
  | c :: s, d :: n =>
    if c ≠ d ∧ difference table c d ≠ 0 then difference table c d
    else cmpCompareCompressedName s n
  | s, n => (s.length : Int) - n.length

def cmpDoCompareKeyName (searchName : List Nat) (node : KeyNode) : Int :=
  (if node.compressed then cmpCompareCompressedName table searchName node.name
    else rtlCompareUnicodeString table searchName node.name).sign

/-- The loop of `CmpCompareInIndex` over the characters of the hint. -/
def compareHint : List Nat → List Nat → Int
  | c :: s, d :: hint =>
    if difference table c d ≠ 0 then (difference table c d).sign else compareHint s hint
  | _, _ => 0

/-- `CmpCompareInIndex`, with the cell it finds.  The hint ends at a zero. -/
def cmpCompareInIndex (signature : Signature) (searchName : List Nat) (entry : CmIndex) :
    Int × Option KeyNode :=
  let hint := if signature = .fastLeaf then entry.nameHint.takeWhile (· ≠ 0) else []
  let result := compareHint table searchName hint
  if result ≠ 0 then (result, none)
  else
    let result := cmpDoCompareKeyName table searchName entry.cell
    (result, if result = 0 then some entry.cell else none)

def cmpComputeHashKey (hash : Nat) : List Nat → Nat
  | [] => hash
  | c :: name =>
    let value := if 97 ≤ c then if c < 122 then c - 97 + 65 else rtlUpcaseUnicodeChar table c else c
    cmpComputeHashKey ((hash * 37 + value) % 2 ^ 32) name

def cmpFindSubKeyByHash (searchName : List Nat) (leaf : List CmIndex) : Option KeyNode :=
  (leaf.find? fun entry => entry.hashKey = cmpComputeHashKey table 0 searchName ∧
    cmpDoCompareKeyName table searchName entry.cell = 0).map (·.cell)

/-- The loop of `CmpAddToLeaf` that fills the hint, from its end. -/
def fillHint (name : List Nat) : Nat → List Nat → List Nat
  | 0, hint => hint
  | j + 1, hint =>
    if 255 < name.getD j 0 then hint else fillHint name j (hint.set j (name.getD j 0 % 256))

/-- `CmpAddToLeaf`, with the insertion point `i` that `CmpFindSubKeyInLeaf` gives. -/
def cmpAddToLeaf (signature : Signature) (leaf : List CmIndex) (i : Nat) (newKey : KeyNode) :
    List CmIndex :=
  leaf.insertIdx i (match signature with
    | .indexLeaf => { cell := newKey }
    | .fastLeaf =>
      { cell := newKey, nameHint := fillHint newKey.name (min newKey.name.length 4) [0, 0, 0, 0] }
    | .hashLeaf => { cell := newKey, hashKey := cmpComputeHashKey table 0 newKey.name })

/-- The leaves that `CmpAddToLeaf` writes. -/
inductive Written (signature : Signature) : List CmIndex → Prop where
  | empty : Written signature []
  | add {leaf : List CmIndex} (i : Nat) (newKey : KeyNode) : Written signature leaf →
      Written signature (cmpAddToLeaf table signature leaf i newKey)

end Code

/-! ## Section 2: Hints -/

variable {table : Nat → Nat} {s n hint : List Nat}

/-- Each character of a hint is zero or the one of the name. -/
def Hints (hint name : List Nat) : Prop :=
  ∀ (i : Nat) v, hint[i]? = some v → v = 0 ∨ name[i]? = some v

theorem fillHint_hints {name : List Nat} (j : Nat) (h : Hints hint name) :
    Hints (fillHint name j hint) name := by
  induction j generalizing hint with
  | zero => exact h
  | succ j ih =>
    rw [fillHint]
    split
    · exact h
    rename_i hbyte
    refine ih fun i v hv => ?_
    by_cases hij : j = i
    · subst hij
      rw [Nat.mod_eq_of_lt (by omega), List.getElem?_set, if_pos rfl,
        Option.ite_none_right_eq_some] at hv
      cases hv.2
      cases hname : name[j]? <;> simp [List.getD, hname]
    · rw [List.getElem?_set_ne hij] at hv
      exact h i v hv

theorem Hints.takeWhile {name : List Nat} (h : Hints hint name) :
    hint.takeWhile (· ≠ 0) <+: name := by
  induction hint generalizing name with
  | nil => exact List.nil_prefix
  | cons v hint ih =>
    by_cases hv : v = 0
    · simp [hv]
    cases name with
    | nil => simpa [hv] using h 0 v rfl
    | cons c name =>
      obtain rfl : c = v := by simpa [hv] using h 0 v rfl
      rw [List.takeWhile_cons_of_pos (by simpa using hv)]
      exact List.cons_prefix_cons.2 ⟨rfl, ih fun i => h (i + 1)⟩

/-- A difference inside a part of the name decides as the whole name does. -/
theorem compareHint_of_prefix {name : List Nat} (hp : hint <+: name)
    (hne : compareHint table s hint ≠ 0) :
    compareHint table s hint = (rtlCompareUnicodeString table s name).sign := by
  induction hint generalizing s name with
  | nil => cases s <;> exact absurd rfl hne
  | cons d hint ih =>
    cases s with
    | nil => exact absurd rfl hne
    | cons c s =>
      obtain ⟨rest, rfl⟩ := hp
      rw [compareHint] at hne ⊢
      rw [List.cons_append, rtlCompareUnicodeString]
      split
      · rfl
      · rename_i hsame
        rw [if_neg hsame] at hne
        exact ih (List.prefix_append hint rest) hne

theorem sign_cmpCompareCompressedName :
    (cmpCompareCompressedName table s n).sign = (rtlCompareUnicodeString table s n).sign := by
  have hdouble : ∀ a b : Int, (a - b).sign = (2 * a - 2 * b).sign := fun a b => by
    rw [← Int.mul_sub, Int.sign_mul]
    exact (Int.one_mul _).symm
  induction s generalizing n with
  | nil => cases n <;> exact hdouble _ _
  | cons c s ih =>
    cases n with
    | nil => exact hdouble _ _
    | cons d n =>
      rw [cmpCompareCompressedName, rtlCompareUnicodeString]
      by_cases hd : difference table c d = 0
      · simp [hd, ih]
      · have hne : c ≠ d := by
          rintro rfl
          exact hd (Int.sub_self _)
        simp [hd, hne]

theorem cmpDoCompareKeyName_eq (node : KeyNode) :
    cmpDoCompareKeyName table s node = (rtlCompareUnicodeString table s node.name).sign := by
  unfold cmpDoCompareKeyName
  split
  · exact sign_cmpCompareCompressedName
  · rfl

/-! ## Section 3: Hashes -/

theorem cmpComputeHashKey_cons (hash c : Nat) (name : List Nat) :
    cmpComputeHashKey table hash (c :: name) =
      cmpComputeHashKey table ((hash * 37 + rtlUpcaseUnicodeChar table c) % 2 ^ 32) name := by
  rw [cmpComputeHashKey]
  congr 3
  unfold rtlUpcaseUnicodeChar
  split_ifs <;> omega

theorem cmpComputeHashKey_eq (h : rtlCompareUnicodeString table s n = 0) (hash : Nat) :
    cmpComputeHashKey table hash s = cmpComputeHashKey table hash n := by
  induction s generalizing n hash with
  | nil =>
    cases n with
    | nil => rfl
    | cons d n => simp only [rtlCompareUnicodeString, List.length_cons, List.length_nil] at h; omega
  | cons c s ih =>
    cases n with
    | nil => simp only [rtlCompareUnicodeString, List.length_cons, List.length_nil] at h; omega
    | cons d n =>
      rw [rtlCompareUnicodeString] at h
      split at h
      · contradiction
      · rename_i hd
        have hup : rtlUpcaseUnicodeChar table c = rtlUpcaseUnicodeChar table d := by
          unfold difference at hd
          omega
        rw [cmpComputeHashKey_cons, cmpComputeHashKey_cons, hup, ih h]

/-! ## Section 4: Lookups -/

variable {signature : Signature} {leaf : List CmIndex}

theorem Written.entry (hw : Written table signature leaf) {e : CmIndex} (he : e ∈ leaf) :
    Hints e.nameHint e.cell.name ∧
      (signature = .hashLeaf → e.hashKey = cmpComputeHashKey table 0 e.cell.name) := by
  induction hw with
  | empty => cases he
  | add i newKey _ ih =>
    rcases List.eq_or_mem_of_mem_insertIdx he with rfl | he
    · have hzero : Hints [0, 0, 0, 0] newKey.name := fun i v hv =>
        .inl (by simpa using List.mem_of_getElem? hv)
      cases signature with
      | indexLeaf => exact ⟨hzero, by simp⟩
      | fastLeaf => exact ⟨fillHint_hints _ hzero, by simp⟩
      | hashLeaf => exact ⟨hzero, fun _ => rfl⟩
    · exact ih he

/-- Neither the hint nor the hash changes what a comparison or a lookup gives. -/
theorem leaf_shortcuts (hw : Written table signature leaf) (searchName : List Nat) :
    (∀ e ∈ leaf, cmpCompareInIndex table signature searchName e =
      ((rtlCompareUnicodeString table searchName e.cell.name).sign,
        if rtlCompareUnicodeString table searchName e.cell.name = 0 then some e.cell else none)) ∧
    (signature = .hashLeaf → cmpFindSubKeyByHash table searchName leaf =
      (leaf.find? fun e => rtlCompareUnicodeString table searchName e.cell.name = 0).map (·.cell)) ∧
    ∀ name, rtlCompareUnicodeString table searchName name = 0 →
      cmpComputeHashKey table 0 searchName = cmpComputeHashKey table 0 name := by
  refine ⟨fun e he => ?_, fun hhash => ?_, fun name h => cmpComputeHashKey_eq h 0⟩
  · have hprefix : (if signature = .fastLeaf then e.nameHint.takeWhile (· ≠ 0) else []) <+:
        e.cell.name := by
      split
      · exact (hw.entry he).1.takeWhile
      · exact List.nil_prefix
    simp only [cmpCompareInIndex, cmpDoCompareKeyName_eq, Int.sign_eq_zero_iff_zero]
    generalize (if signature = .fastLeaf then _ else _) = hint at hprefix ⊢
    split
    · rename_i hne
      have heq := compareHint_of_prefix hprefix hne
      rw [heq, ne_eq, Int.sign_eq_zero_iff_zero] at hne
      rw [heq, if_neg hne]
    · rfl
  · refine congrArg _ (List.find?_congr fun e he => ?_)
    refine decide_eq_decide.2 ?_
    rw [(hw.entry he).2 hhash, cmpDoCompareKeyName_eq, Int.sign_eq_zero_iff_zero]
    exact ⟨And.right, fun h => ⟨(cmpComputeHashKey_eq h 0).symm, h⟩⟩

/-- The key `ab`, in a fast leaf. -/
theorem leaf_shortcuts_ab : cmpCompareInIndex id .fastLeaf [66]
    ⟨⟨true, [97, 98], by decide, by decide⟩, [97, 98, 0, 0], 0⟩ = (1, none) :=
  ((leaf_shortcuts (.add 0 _ .empty) [66]).1 _ (.head _)).trans rfl

end Cm
