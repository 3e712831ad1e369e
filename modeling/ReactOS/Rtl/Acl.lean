import Mathlib.Algebra.Group.Nat.Defs
import Mathlib.Tactic.Common

/-! # Validation of access control lists

    `RtlValidAcl` and `RtlGetAce` (`sdk/lib/rtl/acl.c`), with `RtlLengthSid` and `SepGetSidFromAce`.
    An ACL comes as a pointer to memory that nobody vouches for.  It is a map from the offsets
    behind that pointer to bytes; where it has none a read faults, and the exception handler of
    `RtlValidAcl` turns the fault into `FALSE`.

    The validation does not keep its promise.  It compares the size of an allow, deny, audit or
    alarm ACE with the ACE header and the SID, and forgets the access mask between them.  ACEs that
    the system does not support are taken as they are, also those of size 0, on which every walk
    through the list stands still. -/

namespace Acl

open Option

/-! ## Section 1: The buffer -/

/-- The memory behind the pointer to an ACL; a read where there is none faults. -/
abbrev Memory := Nat → Option UInt8

/-- A read of a `UCHAR`. -/
def Memory.uchar (acl : Memory) (offset : Nat) : Option Nat := do
  return (← acl offset).toNat

/-- A read of a `USHORT`. -/
def Memory.ushort (acl : Memory) (offset : Nat) : Option Nat := do
  return (← acl.uchar offset) + 256 * (← acl.uchar (offset + 1))

/-- A read of a `ULONG`. -/
def Memory.ulong (acl : Memory) (offset : Nat) : Option Nat := do
  return (← acl.ushort offset) + 65536 * (← acl.ushort (offset + 2))

def Memory.aclRevision (acl : Memory) : Option Nat := acl.uchar 0
def Memory.aclSize (acl : Memory) : Option Nat := acl.ushort 2
def Memory.aceCount (acl : Memory) : Option Nat := acl.ushort 4

def Memory.aceType (acl : Memory) (ace : Nat) : Option Nat := acl.uchar ace
def Memory.aceSize (acl : Memory) (ace : Nat) : Option Nat := acl.ushort (ace + 2)

/-- The `Flags` of a `KNOWN_OBJECT_ACE`. -/
def Memory.objectFlags (acl : Memory) (ace : Nat) : Option Nat := acl.ulong (ace + 8)

def sizeofAcl : Nat := 8
def sizeofAceHeader : Nat := 4
def sizeofKnownObjectAce : Nat := 16
def sizeofGuid : Nat := 16
def minAclRevision : Nat := 2
def maxAclRevision : Nat := 4
def aclRevision4 : Nat := 4
def sidRevision : Nat := 1
def sidMaxSubAuthorities : Nat := 15

def accessMaxMsV2AceType : Nat := 3
def accessAllowedCompoundAceType : Nat := 4
def accessMinMsObjectAceType : Nat := 5
def accessAllowedObjectAceType : Nat := 5
def accessDeniedObjectAceType : Nat := 6
def accessMaxMsObjectAceType : Nat := 8

/-- `ROUND_DOWN`. -/
def roundDown (n align : Nat) : Nat := n / align * align

/-- Where the SID of a `KNOWN_ACE` starts. -/
def knownSidStart (ace : Nat) : Nat := ace + 8

/-- Where the GUIDs of a `KNOWN_OBJECT_ACE`, and then its SID, start. -/
def objectSidStart (ace : Nat) : Nat := ace + 12

/-- `RtlLengthSid`. -/
def rtlLengthSid (acl : Memory) (sid : Nat) : Option Nat := do
  return 8 + 4 * (← acl.uchar (sid + 1))

/-- The bytes of the GUIDs that the flags of an object ACE announce. -/
def guidSize (flags : Nat) : Nat :=
  (if flags.testBit 0 then sizeofGuid else 0) + (if flags.testBit 1 then sizeofGuid else 0)

/-- `SepGetSidFromAce`; no result for an ACE of another type. -/
def sepGetSidFromAce (acl : Memory) (ace : Nat) : Option (Option Nat) := do
  let type ← acl.aceType ace
  if type ≤ accessMaxMsV2AceType then return some (knownSidStart ace)
  if type = accessAllowedObjectAceType ∨ type = accessDeniedObjectAceType then
    return some (objectSidStart ace + guidSize (← acl.objectFlags ace))
  return none

/-! ## Section 2: The routines -/

/-- The revision and the count of a SID are in bounds. -/
def validSidHeader (acl : Memory) (sid : Nat) : Option Bool := do
  if (← acl.uchar sid) ≠ sidRevision then return false
  if (← acl.uchar (sid + 1)) > sidMaxSubAuthorities then return false
  return true

/-- The checks of an allow, deny, audit or alarm ACE. -/
def validKnownAce (acl : Memory) (ace aceSize : Nat) : Option Bool := do
  if roundDown aceSize 4 ≠ aceSize then return false
  if aceSize < sizeofAceHeader then return false
  if !(← validSidHeader acl (knownSidStart ace)) then return false
  -- The access mask, between the header and the SID, is not counted.
  if aceSize < sizeofAceHeader + (← rtlLengthSid acl (knownSidStart ace)) then return false
  return true

/-- The checks of an allow or deny object ACE. -/
def validObjectAce (acl : Memory) (ace aceSize : Nat) : Option Bool := do
  if (← acl.aclRevision) < aclRevision4 then return false
  if roundDown aceSize 4 ≠ aceSize then return false
  if aceSize < sizeofKnownObjectAce then return false
  let guids := guidSize (← acl.objectFlags ace)
  if !(← validSidHeader acl (objectSidStart ace + guids)) then return false
  let length ← rtlLengthSid acl (objectSidStart ace + guids)
  if aceSize < (sizeofKnownObjectAce - 4 + guids + length) % 2 ^ 16 then return false
  return true

/-- The body of the loop of `RtlValidAcl`. -/
def validAce (acl : Memory) (ace : Nat) : Option Bool := do
  let aclSize ← acl.aclSize
  if ace + sizeofAceHeader ≥ aclSize then return false
  let aceSize ← acl.aceSize ace
  if roundDown aceSize 2 ≠ aceSize then return false
  if ace + aceSize > aclSize then return false
  let type ← acl.aceType ace
  if type ≤ accessMaxMsV2AceType then validKnownAce acl ace aceSize
  else if type = accessAllowedObjectAceType ∨ type = accessDeniedObjectAceType then
    validObjectAce acl ace aceSize
  else if type = accessAllowedCompoundAceType then return true
  else if accessMinMsObjectAceType ≤ type ∧ type ≤ accessMaxMsObjectAceType then return true
  else return decide (sizeofAceHeader ≤ aceSize)

/-- The loop of `RtlValidAcl`, over a number of ACEs. -/
def validLoop (acl : Memory) : Nat → Nat → Option Bool
  | 0, _ => some true
  | n + 1, ace => do
    if !(← validAce acl ace) then return false
    validLoop acl n (ace + (← acl.aceSize ace))

/-- `RtlValidAcl`. -/
def rtlValidAcl (acl : Memory) : Bool :=
  let guarded : Option Bool := do
    let revision ← acl.aclRevision
    if revision < minAclRevision ∨ revision > maxAclRevision then return false
    let size ← acl.aclSize
    if roundDown size 2 ≠ size then return false
    if size < sizeofAcl then return false
    validLoop acl (← acl.aceCount) sizeofAcl
  guarded.getD false

/-- The loop of `RtlGetAce`; no result is `STATUS_INVALID_PARAMETER`. -/
def getLoop (acl : Memory) : Nat → Nat → Option (Option Nat)
  | 0, ace => do
    if ace ≥ (← acl.aclSize) then return none
    return some ace
  | n + 1, ace => do
    if ace ≥ (← acl.aclSize) then return none
    getLoop acl n (ace + (← acl.aceSize ace))

/-- `RtlGetAce`. -/
def rtlGetAce (acl : Memory) (aceIndex : Nat) : Option (Option Nat) := do
  let revision ← acl.aclRevision
  if revision < minAclRevision ∨ revision > maxAclRevision ∨ aceIndex ≥ (← acl.aceCount) then
    return none
  getLoop acl aceIndex sizeofAcl

/-! ## Section 3: What a valid list promises -/

/-- Where a walk of a number of steps from an ACE on ends. -/
def walk (acl : Memory) : Nat → Nat → Option Nat
  | 0, ace => some ace
  | n + 1, ace => do walk acl n (ace + (← acl.aceSize ace))

/-- An ACE of the list: its position, size and type. -/
structure IsAce (acl : Memory) (index ace size type : Nat) : Prop where
  position : walk acl index sizeofAcl = some ace
  size : acl.aceSize ace = some size
  type : acl.aceType ace = some type

/-- The whole SID of an ACE, behind the fields and the GUIDs that come first, is inside. -/
def SidInside (acl : Memory) (ace size start : Nat) : Prop :=
  ∃ sid length, sepGetSidFromAce acl ace = some (some sid) ∧ rtlLengthSid acl sid = some length ∧
    ace + start ≤ sid ∧ sid + length ≤ ace + size

/-- What the users of a valid ACL rely on.  The ACEs are walked through by their sizes. -/
structure Sound (acl : Memory) : Prop where
  inside : ∀ count aclSize, acl.aceCount = some count → acl.aclSize = some aclSize →
    ∀ i < count, ∃ ace size type, IsAce acl i ace size type ∧ 0 < size ∧ ace + size ≤ aclSize
  known : ∀ count, acl.aceCount = some count → ∀ i < count, ∀ ace size type,
    IsAce acl i ace size type → type ≤ accessMaxMsV2AceType → SidInside acl ace size 8
  object : ∀ count, acl.aceCount = some count → ∀ i < count, ∀ ace size type,
    IsAce acl i ace size type →
      type = accessAllowedObjectAceType ∨ type = accessDeniedObjectAceType →
      ∃ flags, acl.objectFlags ace = some flags ∧ SidInside acl ace size (12 + guidSize flags)
  found : ∀ count, acl.aceCount = some count → ∀ i < count,
    ∃ ace, rtlGetAce acl i = some (some ace)
  distinct : ∀ count, acl.aceCount = some count → ∀ i < count, ∀ j < count, i ≠ j →
    rtlGetAce acl i ≠ rtlGetAce acl j

/-- No compound, audit object or alarm object ACE has size 0, and no allow, deny, audit or alarm
    ACE has the size of its header and SID alone. -/
def Guarded (acl : Memory) : Prop :=
  ∀ count, acl.aceCount = some count → ∀ i < count, ∀ ace size type, IsAce acl i ace size type →
    (type = 4 ∨ type = 7 ∨ type = 8 → size ≠ 0) ∧
    (type ≤ accessMaxMsV2AceType → ∀ length,
      rtlLengthSid acl (knownSidStart ace) = some length → size ≠ sizeofAceHeader + length)

/-! ## Section 4: What is checked -/

variable {aclSize : Nat}

section Checked

variable {acl : Memory} {ace size : Nat}

theorem rtlLengthSid_le {sid length : Nat} (h : rtlLengthSid acl sid = some length) :
    8 ≤ length ∧ length ≤ 1028 ∧ length % 4 = 0 := by
  simp only [rtlLengthSid, Memory.uchar, bind, bind_eq_some_iff, pure, some.injEq]
    at h
  obtain ⟨_, ⟨b, _, rfl⟩, rfl⟩ := h
  have hb := b.toNat_lt
  omega

theorem passed {c : Prop} [Decidable c] {o : Option Bool}
    (h : (if c then some false else o) = some true) : ¬ c ∧ o = some true := by
  split at h
  · cases h
  · exact ⟨‹¬ c›, h⟩

theorem validKnownAce_inv (h : validKnownAce acl ace size = some true) :
    ∃ length, rtlLengthSid acl (knownSidStart ace) = some length ∧
      sizeofAceHeader + length ≤ size ∧ size % 4 = 0 := by
  obtain ⟨halign, h⟩ := passed h
  obtain ⟨hsmall, h⟩ := passed h
  obtain ⟨header, _, h⟩ := bind_eq_some_iff.1 h
  obtain ⟨hheader, h⟩ := passed h
  obtain ⟨length, hlength, h⟩ := bind_eq_some_iff.1 h
  obtain ⟨hshort, -⟩ := passed h
  refine ⟨length, hlength, by omega, ?_⟩
  rw [roundDown] at halign
  omega

theorem validObjectAce_inv (h : validObjectAce acl ace size = some true) :
    ∃ flags length, acl.objectFlags ace = some flags ∧
      rtlLengthSid acl (objectSidStart ace + guidSize flags) = some length ∧
      12 + guidSize flags + length ≤ size := by
  obtain ⟨revision, _, h⟩ := bind_eq_some_iff.1 h
  obtain ⟨-, h⟩ := passed h
  obtain ⟨-, h⟩ := passed h
  obtain ⟨-, h⟩ := passed h
  obtain ⟨flags, hflags, h⟩ := bind_eq_some_iff.1 h
  obtain ⟨header, _, h⟩ := bind_eq_some_iff.1 h
  obtain ⟨-, h⟩ := passed h
  obtain ⟨length, hlength, h⟩ := bind_eq_some_iff.1 h
  obtain ⟨hshort, -⟩ := passed h
  refine ⟨flags, length, hflags, hlength, ?_⟩
  -- The sum is computed in a `USHORT`, which holds it.
  have hle := (rtlLengthSid_le hlength).2.1
  have hguid : guidSize flags ≤ 32 := by
    unfold guidSize sizeofGuid
    split <;> split <;> omega
  unfold sizeofKnownObjectAce at hshort
  omega

/-- What the loop has found out about an ACE that it accepts. -/
structure Checked (acl : Memory) (aclSize ace size type : Nat) : Prop where
  aceSize : acl.aceSize ace = some size
  aceType : acl.aceType ace = some type
  header : ace + sizeofAceHeader < aclSize
  inside : ace + size ≤ aclSize
  known : type ≤ accessMaxMsV2AceType → validKnownAce acl ace size = some true
  object : type = accessAllowedObjectAceType ∨ type = accessDeniedObjectAceType →
    validObjectAce acl ace size = some true
  unknown : type > accessMaxMsObjectAceType → sizeofAceHeader ≤ size

theorem validAce_inv (h : validAce acl ace = some true)
    (haclSize : acl.aclSize = some aclSize) : ∃ size type, Checked acl aclSize ace size type := by
  simp only [validAce, bind, pure, haclSize, bind_some] at h
  obtain ⟨hheader, h⟩ := passed h
  obtain ⟨size, hsize, h⟩ := bind_eq_some_iff.1 h
  obtain ⟨-, h⟩ := passed h
  obtain ⟨hinside, h⟩ := passed h
  obtain ⟨type, htype, h⟩ := bind_eq_some_iff.1 h
  refine ⟨size, type, hsize, htype, by omega, by omega, fun hknown => ?_, fun hobject => ?_,
    fun hunknown => ?_⟩
  · rwa [if_pos hknown] at h
  · have hnot : ¬ type ≤ accessMaxMsV2AceType := by
      unfold accessAllowedObjectAceType accessDeniedObjectAceType at hobject
      unfold accessMaxMsV2AceType
      omega
    rwa [if_neg hnot, if_pos hobject] at h
  · unfold accessMaxMsObjectAceType at hunknown
    rw [if_neg (by unfold accessMaxMsV2AceType; omega),
      if_neg (by unfold accessAllowedObjectAceType accessDeniedObjectAceType; omega),
      if_neg (by unfold accessAllowedCompoundAceType; omega),
      if_neg (by unfold accessMaxMsObjectAceType; omega), some.injEq, decide_eq_true_eq] at h
    exact h

/-- Every ACE that the loop passes has been checked. -/
theorem validLoop_inv (haclSize : acl.aclSize = some aclSize) (n : Nat) :
    ∀ {ace : Nat}, validLoop acl n ace = some true → ∀ i < n,
      ∃ ace' size type, walk acl i ace = some ace' ∧ Checked acl aclSize ace' size type := by
  induction n with
  | zero =>
    intro ace _ i hi
    omega
  | succ n ih =>
    intro ace h i hi
    obtain ⟨valid, hvalid, h⟩ := bind_eq_some_iff.1 h
    cases valid with
    | false => cases h
    | true =>
      obtain ⟨size, type, hchecked⟩ := validAce_inv hvalid haclSize
      simp only [Bool.not_true, Bool.false_eq_true, if_false, hchecked.aceSize] at h
      cases i with
      | zero => exact ⟨ace, size, type, rfl, hchecked⟩
      | succ i =>
        obtain ⟨ace', size', type', hwalk, hchecked'⟩ := ih h i (by omega)
        refine ⟨ace', size', type', ?_, hchecked'⟩
        rw [walk, hchecked.aceSize]
        exact hwalk

end Checked

/-! ## Section 5: Soundness -/

section Soundness

variable {acl : Memory}
variable {ace type : Nat}

/-- A valid ACL has a revision and a size, and all its ACEs have been checked. -/
theorem rtlValidAcl_inv (h : rtlValidAcl acl = true) :
    ∃ revision aclSize count, acl.aclRevision = some revision ∧ acl.aclSize = some aclSize ∧
      acl.aceCount = some count ∧ ¬ (revision < minAclRevision ∨ revision > maxAclRevision) ∧
      ∀ i < count, ∃ ace size type, walk acl i sizeofAcl = some ace ∧
        Checked acl aclSize ace size type := by
  rw [rtlValidAcl, getD_eq_iff] at h
  obtain h | h := h
  · obtain ⟨revision, hrevision, h⟩ := bind_eq_some_iff.1 h
    obtain ⟨hbad, h⟩ := passed h
    obtain ⟨aclSize, haclSize, h⟩ := bind_eq_some_iff.1 h
    obtain ⟨-, h⟩ := passed h
    obtain ⟨-, h⟩ := passed h
    obtain ⟨count, hcount, h⟩ := bind_eq_some_iff.1 h
    exact ⟨revision, aclSize, count, hrevision, haclSize, hcount, hbad, validLoop_inv haclSize count h⟩
  · cases h.2

/-- An ACE that has been checked is not of size 0, unless nothing is known of its type. -/
theorem Checked.size_pos {size : Nat} (h : Checked acl aclSize ace size type)
    (hguard : type = 4 ∨ type = 7 ∨ type = 8 → size ≠ 0) : 0 < size := by
  by_cases hknown : type ≤ accessMaxMsV2AceType
  · obtain ⟨length, _, hle, _⟩ := validKnownAce_inv (h.known hknown)
    unfold sizeofAceHeader at hle
    omega
  by_cases hobject : type = accessAllowedObjectAceType ∨ type = accessDeniedObjectAceType
  · obtain ⟨flags, length, _, _, hle⟩ := validObjectAce_inv (h.object hobject)
    omega
  by_cases hunknown : type > accessMaxMsObjectAceType
  · have hle := h.unknown hunknown
    unfold sizeofAceHeader at hle
    omega
  unfold accessMaxMsV2AceType at hknown
  unfold accessAllowedObjectAceType accessDeniedObjectAceType at hobject
  unfold accessMaxMsObjectAceType at hunknown
  omega

/-- `RtlGetAce` ends where the walk does, if the walk stays inside. -/
theorem getLoop_walk (haclSize : acl.aclSize = some aclSize) (n : Nat) :
    ∀ (ace : Nat), (∀ i ≤ n, ∃ ace', walk acl i ace = some ace' ∧ ace' < aclSize) →
      getLoop acl n ace = (walk acl n ace).map some := by
  induction n with
  | zero =>
    intro ace h
    obtain ⟨ace', hwalk, hlt⟩ := h 0 (Nat.le_refl 0)
    obtain rfl := some.inj hwalk
    simp only [getLoop, haclSize, bind, bind_some, pure]
    rw [if_neg (by omega)]
    rfl
  | succ n ih =>
    intro ace h
    obtain ⟨ace0, hwalk0, hlt⟩ := h 0 (Nat.zero_le _)
    obtain rfl := some.inj hwalk0
    obtain ⟨ace1, hwalk1, _⟩ := h 1 (by omega)
    obtain ⟨size, hsize, _⟩ := bind_eq_some_iff.1 hwalk1
    simp only [getLoop, walk, haclSize, hsize, bind, bind_some, pure]
    rw [if_neg (by omega)]
    refine ih _ fun i hi => ?_
    obtain ⟨ace', hwalk, hlt'⟩ := h (i + 1) (by omega)
    rw [walk, hsize] at hwalk
    exact ⟨ace', hwalk, hlt'⟩

/-- A walk over ACEs that have a size moves on. -/
theorem walk_lt (n : Nat) : ∀ {ace : Nat},
    (∀ i < n, ∀ ace' size, walk acl i ace = some ace' → acl.aceSize ace' = some size → 0 < size) →
    ∀ {ace' : Nat}, walk acl n ace = some ace' → ace + n ≤ ace' := by
  induction n with
  | zero =>
    intro ace _ ace' hwalk
    obtain rfl := some.inj hwalk
    exact Nat.le_refl _
  | succ n ih =>
    intro ace hpos ace' hwalk
    obtain ⟨size, hsize, hwalk⟩ := bind_eq_some_iff.1 hwalk
    have h0 := hpos 0 (by omega) ace size rfl hsize
    have hrest := ih (fun i hi x sz hx hsz => hpos (i + 1) (by omega) x sz (by rw [walk, hsize]; exact hx)
      hsz) hwalk
    omega

theorem walk_add (m n ace : Nat) : walk acl (m + n) ace = (walk acl m ace).bind (walk acl n) := by
  induction m generalizing ace with
  | zero => rw [Nat.zero_add, walk, bind_some]
  | succ m ih =>
    rw [Nat.succ_add, walk, walk]
    cases acl.aceSize ace with
    | none => rfl
    | some size => exact ih (ace + size)

theorem sepGetSidFromAce_known (htype : acl.aceType ace = some type)
    (hknown : type ≤ accessMaxMsV2AceType) :
    sepGetSidFromAce acl ace = some (some (knownSidStart ace)) := by
  simp only [sepGetSidFromAce, htype, bind, bind_some, hknown, if_true, pure]

theorem sepGetSidFromAce_object {flags : Nat} (htype : acl.aceType ace = some type)
    (hobject : type = accessAllowedObjectAceType ∨ type = accessDeniedObjectAceType)
    (hflags : acl.objectFlags ace = some flags) :
    sepGetSidFromAce acl ace = some (some (objectSidStart ace + guidSize flags)) := by
  have hnot : ¬ type ≤ accessMaxMsV2AceType := by
    unfold accessAllowedObjectAceType accessDeniedObjectAceType at hobject
    unfold accessMaxMsV2AceType
    omega
  simp only [sepGetSidFromAce, htype, hflags, bind, bind_some, hnot, hobject, if_true,
    if_false, pure]

/-- In a sound list an ACE has a size, and room for its mask. -/
theorem Sound.guarded (h : Sound acl) (haclSize : acl.aclSize = some aclSize) : Guarded acl := by
  intro count hcount i hi ace size type hace
  constructor
  · obtain ⟨ace', size', type', hace', hpos, _⟩ := h.inside count aclSize hcount haclSize i hi
    obtain rfl := some.inj (hace.position.symm.trans hace'.position)
    obtain rfl := some.inj (hace.size.symm.trans hace'.size)
    omega
  intro hknown length hlength hsize
  obtain ⟨sid, length', hsid, hlength', _, hle⟩ := h.known count hcount i hi ace size type hace hknown
  rw [sepGetSidFromAce_known hace.type hknown] at hsid
  obtain rfl := some.inj (some.inj hsid)
  obtain rfl := some.inj (hlength.symm.trans hlength')
  unfold sizeofAceHeader at hsize
  omega

end Soundness

/-- A list that is accepted is sound exactly if it is guarded. -/
theorem rtlValidAcl_sound_iff {acl : Memory} (h : rtlValidAcl acl = true) :
    Sound acl ↔ Guarded acl := by
  obtain ⟨revision, aclSize, count, hrevision, haclSize, hcount, hgood, hchecked⟩ :=
    rtlValidAcl_inv h
  refine ⟨fun hsound => hsound.guarded haclSize, fun hguarded => ?_⟩
  -- What has been checked of an ACE, whatever names its position, size and type go by.
  have hisAce : ∀ i < count, ∀ ace size type, IsAce acl i ace size type →
      Checked acl aclSize ace size type := by
    intro i hi ace size type hace
    obtain ⟨ace', size', type', hwalk, hc⟩ := hchecked i hi
    obtain rfl := Option.some.inj (hace.position.symm.trans hwalk)
    obtain rfl := Option.some.inj (hace.size.symm.trans hc.aceSize)
    obtain rfl := Option.some.inj (hace.type.symm.trans hc.aceType)
    exact hc
  have hpos : ∀ i < count, ∀ ace size, walk acl i sizeofAcl = some ace →
      acl.aceSize ace = some size → 0 < size := by
    intro i hi ace size hwalk hsize
    obtain ⟨ace', size', type, hwalk', hc⟩ := hchecked i hi
    obtain rfl := Option.some.inj (hwalk.symm.trans hwalk')
    obtain rfl := Option.some.inj (hsize.symm.trans hc.aceSize)
    exact hc.size_pos (hguarded count hcount i hi ace size type ⟨hwalk, hsize, hc.aceType⟩).1
  have hget : ∀ i < count, ∃ ace, walk acl i sizeofAcl = some ace ∧
      rtlGetAce acl i = some (some ace) := by
    intro i hi
    obtain ⟨ace, size, type, hwalk, _⟩ := hchecked i hi
    refine ⟨ace, hwalk, ?_⟩
    have hloop := getLoop_walk haclSize i sizeofAcl fun j hj => by
      obtain ⟨ace', _, _, hwalk', hc⟩ := hchecked j (by omega)
      exact ⟨ace', hwalk', by have := hc.header; omega⟩
    rw [hwalk] at hloop
    simp only [rtlGetAce, hrevision, hcount, bind, Option.bind_some, pure]
    rw [if_neg (by omega), hloop]
    rfl
  have hlater : ∀ i j, i < j → j < count → rtlGetAce acl i ≠ rtlGetAce acl j := by
    intro i j hlt hj
    obtain ⟨ace, hwalk, hgeti⟩ := hget i (by omega)
    obtain ⟨ace', hwalk', hgetj⟩ := hget j hj
    obtain ⟨k, rfl⟩ : ∃ k, j = i + k := ⟨j - i, by omega⟩
    rw [walk_add, hwalk, Option.bind_some] at hwalk'
    have hle := walk_lt k (fun m hm x size hx hsize => hpos (i + m) (by omega) x size
      (by rw [walk_add, hwalk, Option.bind_some, hx]) hsize) hwalk'
    rw [hgeti, hgetj]
    intro heq
    have hsame := Option.some.inj (Option.some.inj heq)
    omega
  constructor
  case inside =>
    intro count' aclSize' hcount' haclSize' i hi
    obtain rfl := Option.some.inj (hcount.symm.trans hcount')
    obtain rfl := Option.some.inj (haclSize.symm.trans haclSize')
    obtain ⟨ace, size, type, hwalk, hc⟩ := hchecked i hi
    exact ⟨ace, size, type, ⟨hwalk, hc.aceSize, hc.aceType⟩, hpos i hi ace size hwalk hc.aceSize,
      hc.inside⟩
  case known =>
    intro count' hcount' i hi ace size type hace hknown
    obtain rfl := Option.some.inj (hcount.symm.trans hcount')
    have hc := hisAce i hi ace size type hace
    obtain ⟨length, hlength, hle, halign⟩ := validKnownAce_inv (hc.known hknown)
    have hne := (hguarded count hcount i hi ace size type hace).2 hknown length hlength
    have hlen := rtlLengthSid_le hlength
    refine ⟨_, length, sepGetSidFromAce_known hace.type hknown, hlength, Nat.le_refl _, ?_⟩
    -- Sizes are multiples of 4: one that is not exactly too small is large enough.
    unfold sizeofAceHeader at hle hne
    unfold knownSidStart
    omega
  case object =>
    intro count' hcount' i hi ace size type hace hobject
    obtain rfl := Option.some.inj (hcount.symm.trans hcount')
    have hc := hisAce i hi ace size type hace
    obtain ⟨flags, length, hflags, hlength, hle⟩ := validObjectAce_inv (hc.object hobject)
    refine ⟨flags, hflags, _, length, sepGetSidFromAce_object hace.type hobject hflags, hlength, ?_, ?_⟩
    · unfold objectSidStart
      omega
    · unfold objectSidStart
      omega
  case found =>
    intro count' hcount' i hi
    obtain rfl := Option.some.inj (hcount.symm.trans hcount')
    obtain ⟨ace, _, hget⟩ := hget i hi
    exact ⟨ace, hget⟩
  case distinct =>
    intro count' hcount' i hi j hj hij
    obtain rfl := Option.some.inj (hcount.symm.trans hcount')
    rcases Nat.lt_or_gt_of_ne hij with hlt | hlt
    · exact hlater i j hlt hj
    · exact (hlater j i hlt hi).symm

/-- The memory that holds the given bytes. -/
def ofBytes (bytes : List UInt8) : Memory := fun offset => bytes[offset]?

/-- A deny and an allow ACE for the SID S-1-1-0. -/
def everyone : Memory := ofBytes
  [2, 0, 48, 0, 2, 0, 0, 0,
   1, 0, 20, 0, 2, 0, 0, 0, 1, 1, 0, 0, 0, 0, 0, 1, 0, 0, 0, 0,
   0, 0, 20, 0, 1, 0, 0, 0, 1, 1, 0, 0, 0, 0, 0, 1, 0, 0, 0, 0]

theorem rtlValidAcl_sound_everyone : rtlValidAcl everyone = true ∧ Sound everyone := by
  have hvalid : rtlValidAcl everyone = true := by decide
  refine ⟨hvalid, (rtlValidAcl_sound_iff hvalid).2 ?_⟩
  intro count hcount i hi ace size type hace
  obtain rfl : 2 = count := Option.some.inj hcount
  obtain rfl | rfl : i = 0 ∨ i = 1 := by omega
  · obtain rfl : 8 = ace := Option.some.inj hace.position
    obtain rfl : 20 = size := Option.some.inj hace.size
    obtain rfl : 1 = type := Option.some.inj hace.type
    refine ⟨fun h => by omega, fun _ length hlength => ?_⟩
    obtain rfl : 12 = length := Option.some.inj hlength
    decide
  · obtain rfl : 28 = ace := Option.some.inj hace.position
    obtain rfl : 20 = size := Option.some.inj hace.size
    obtain rfl : 0 = type := Option.some.inj hace.type
    refine ⟨fun h => by omega, fun _ length hlength => ?_⟩
    obtain rfl : 12 = length := Option.some.inj hlength
    decide

/-- An allow ACE without room for its mask: the SID ends behind the ACE and behind the ACL. -/
def withoutMask : Memory := ofBytes
  [2, 0, 24, 0, 1, 0, 0, 0,
   0, 0, 16, 0, 1, 0, 0, 0, 1, 1, 0, 0, 0, 0, 0, 1, 0, 0, 0, 0]

/-- Two compound ACEs of size 0, in one place. -/
def ofNoSize : Memory := ofBytes
  [2, 0, 14, 0, 2, 0, 0, 0,
   4, 0, 0, 0, 0, 0]

theorem not_sound_accepted :
    (rtlValidAcl withoutMask = true ∧ ¬ SidInside withoutMask 8 16 8 ∧ ¬ Sound withoutMask) ∧
      rtlValidAcl ofNoSize = true ∧ rtlGetAce ofNoSize 0 = rtlGetAce ofNoSize 1 ∧
      ¬ Sound ofNoSize := by
  have hmask : ¬ SidInside withoutMask 8 16 8 := by
    intro h
    obtain ⟨sid, length, hsid, hlength, _, hle⟩ := h
    obtain rfl : 16 = sid := Option.some.inj (Option.some.inj hsid)
    obtain rfl : 12 = length := Option.some.inj hlength
    omega
  have hsame : rtlGetAce ofNoSize 0 = rtlGetAce ofNoSize 1 := by decide
  refine ⟨⟨by decide, hmask, fun h => ?_⟩, by decide, hsame, fun h => ?_⟩
  · exact hmask (h.known 1 rfl 0 (by omega) 8 16 0 ⟨rfl, rfl, rfl⟩ (by decide))
  · exact h.distinct 2 rfl 0 (by omega) 1 (by omega) (by omega) hsame

end Acl
