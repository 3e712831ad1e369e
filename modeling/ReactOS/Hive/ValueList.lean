import ReactOS.Hive.Cell

/-! # The value list of a key

    `CmpValidateValueListByCount` of `cmcheck.c` walks the value list of a key
    and takes damaged values off it with `CmpRepairValueListCount` of
    `cmheal.c`.

    The key node and its value list are cells of their own.  They are kept
    beside the hive; the value cells are read from its memory.  Big values
    are only asserted against and are treated as all others. -/

namespace Hive

open Bytes Option

/-! ## Section 1: Validation -/

/-- `CM_CHECK_REGISTRY_STATUS`, for values. -/
inductive CheckStatus
  | good
  | valueCellNil
  | valueCellUnallocated
  | valueCellDataNotFound
  | valueCellSizeNotSane
  | corruptValueData
  | dataCellNotAllocated
  | badKeyValueSignature
  deriving DecidableEq

/-- `CM_KEY_VALUE_SIGNATURE` -/
def cmKeyValueSignature : Nat := 0x6B76

/-- `CM_KEY_VALUE_SPECIAL_SIZE` -/
def cmKeyValueSpecialSize : Nat := 0x80000000

/-- `FIELD_OFFSET(CM_KEY_VALUE, Name)` -/
def keyValueName : Nat := 20

/-- `HvIsCellAllocated` of a hive that is not flat. -/
def hvIsCellAllocated (h : HHive) (cellIndex : Nat) : Bool :=
  let d := h.storage (hvGetCellType cellIndex)
  let block := hvGetCellBlock cellIndex
  decide (block < d.length) && (d.blockList block).blockAddress.isSome

/-- The checks of the data of a value, which may be in the value cell itself. -/
def checkValueData (h : HHive) (dataLength dataCell : Nat) : CheckStatus :=
  if cmKeyValueSpecialSize ≤ dataLength then .good
  else if dataLength = 0 then
    if dataCell ≠ hcellNil then .corruptValueData else .good
  else if hvIsCellAllocated h dataCell then .good
  else .dataCellNotAllocated

/-- The checks of one turn of the loop. -/
def checkValue (h : HHive) (valueCell : Nat) : Option CheckStatus :=
  if valueCell = hcellNil then some .valueCellNil
  else if ¬ hvIsCellAllocated h valueCell then some .valueCellUnallocated
  else match hvpGetCellHeader h valueCell with
  | none => some .valueCellDataNotFound
  | some header => do
    let valueDataSize ← hvGetCellSize h header
    let keyValue ← h.readBytes (header.add sizeofHCell) 12
    if ofLong valueDataSize < getU16 keyValue 2 + keyValueName then some .valueCellSizeNotSane
    else match checkValueData h (getU32 keyValue 4) (getU32 keyValue 8) with
    | .good =>
      if getU16 keyValue 0 ≠ cmKeyValueSignature then some .badKeyValueSignature else some .good
    | status => some status

/-- A hive, with the value list of the current key. -/
structure ValueList where
  hive : HHive
  -- `ValueList.List` and `ValueList.Count` of the key node
  list : Nat
  count : Nat
  -- `KeyList` of the list cell
  keyList : Nat → Nat

/-- The value cells of the key. -/
def ValueList.values (s : ValueList) : List Nat := (List.range s.count).map s.keyList

/-- `CmpRemoveValueFromValueList` -/
def cmpRemoveValueFromValueList (s : ValueList) (index : Nat) : Option ValueList :=
  if index < s.count then
    let moveCount := s.count - index - 1
    some { s with
      keyList := fun i => if index ≤ i ∧ i < index + moveCount then s.keyList (i + 1) else s.keyList i
      count := s.count - 1 }
  else none

/-- `CmpRepairValueListCount`; there is no list if it returns `FALSE`. -/
def cmpRepairValueListCount (selfHeal : Bool) (currentCell : Nat) (s : ValueList)
    (listCountIndex : Nat) : Option (Option ValueList) :=
  if ¬ selfHeal then some none
  else match hvpGetCellData s.hive currentCell with
  | none => some none
  | some _ => do
    let h ← hvMarkCellDirty s.hive currentCell
    let h ← hvMarkCellDirty h s.list
    let s ← cmpRemoveValueFromValueList { s with hive := h } listCountIndex
    let b := h.baseBlock
    some (some { s with
      hive := { h with baseBlock := HBaseBlock.setBootType b (HBaseBlock.bootType b ||| 4) } })

/-- The loop of `CmpValidateValueListByCount`, with `n` values from `index` on.
    `*ValuesRemoved++` adds to the pointer, not to what it points to. -/
def validateLoop (selfHeal : Bool) (currentCell : Nat) :
    Nat → Nat → Nat → ValueList → Option (CheckStatus × Nat × ValueList)
  | 0, _, valuesRemoved, s => some (.good, valuesRemoved, s)
  | n + 1, index, valuesRemoved, s => do
    match ← checkValue s.hive (s.keyList index) with
    | .good => validateLoop selfHeal currentCell n (index + 1) valuesRemoved s
    | .valueCellDataNotFound => some (.valueCellDataNotFound, valuesRemoved, s)
    | status =>
      match ← cmpRepairValueListCount selfHeal currentCell s index with
      | none => some (status, valuesRemoved, s)
      | some s => validateLoop selfHeal currentCell n index (valuesRemoved + 1) s

/-- `CmpValidateValueListByCount`; `out` is the caller's memory, which
    `ValuesRemoved` points to. -/
def cmpValidateValueListByCount (selfHeal : Bool) (currentCell listCount : Nat) (out : Nat → Nat)
    (valuesRemoved : Nat) (s : ValueList) : Option (CheckStatus × (Nat → Nat) × ValueList) := do
  let out := fun i => if i = valuesRemoved then 0 else out i
  let (status, _, s) ← validateLoop selfHeal currentCell listCount 0 valuesRemoved s
  some (status, out, s)

/-! ## Section 2: What is left of the list -/

/-- A value cell that nothing is wrong with. -/
def ValidValue (h : HHive) (cell : Nat) : Prop :=
  cell ≠ hcellNil ∧ hvIsCellAllocated h cell = true ∧ ∃ header size keyValue,
    hvpGetCellHeader h cell = some header ∧ hvGetCellSize h header = some size ∧
    h.readBytes (header.add sizeofHCell) 12 = some keyValue ∧
    getU16 keyValue 2 + keyValueName ≤ ofLong size ∧
    (getU32 keyValue 4 < cmKeyValueSpecialSize → if getU32 keyValue 4 = 0
      then getU32 keyValue 8 = hcellNil else hvIsCellAllocated h (getU32 keyValue 8) = true) ∧
    getU16 keyValue 0 = cmKeyValueSignature

variable {h h' : HHive} {cell currentCell n index valuesRemoved : Nat} {selfHeal : Bool}
  {s s' : ValueList}

theorem checkValueData_good_iff {dataLength dataCell : Nat} :
    checkValueData h dataLength dataCell = .good ↔ (dataLength < cmKeyValueSpecialSize →
      if dataLength = 0 then dataCell = hcellNil else hvIsCellAllocated h dataCell = true) := by
  unfold checkValueData
  grind

theorem checkValue_good_iff : checkValue h cell = some .good ↔ ValidValue h cell := by
  unfold checkValue ValidValue
  simp only [← checkValueData_good_iff]
  cases hheader : hvpGetCellHeader h cell with
  | none => grind
  | some header =>
    cases hsize : hvGetCellSize h header with
    | none => grind
    | some size =>
      cases hread : h.readBytes (header.add sizeofHCell) 12 with
      | none => grind
      | some keyValue =>
        simp only [hsize, hread, bind_eq_bind, bind_some, some.injEq]
        grind

instance : DecidablePred (ValidValue h) := fun _ => decidable_of_iff _ checkValue_good_iff

/-- The checks only read the storages. -/
theorem checkValue_congr (hsame : h'.storage = h.storage) : checkValue h' = checkValue h := by
  cases h
  cases h'
  cases hsame
  rfl

theorem hvMarkCellDirty_storage (hmark : hvMarkCellDirty h cell = some h') :
    h'.storage = h.storage := by
  unfold hvMarkCellDirty at hmark
  split at hmark
  · cases hmark
    rfl
  · obtain ⟨bm, -, hmark⟩ := bind_eq_some_iff.1 hmark
    cases hmark
    rfl

/-- A repair takes one value off the list. -/
theorem cmpRepairValueListCount_spec
    (hrepair : cmpRepairValueListCount selfHeal currentCell s index = some (some s')) :
    s'.hive.storage = s.hive.storage ∧ s'.count = s.count - 1 ∧
      (∀ i, i < index → s'.keyList i = s.keyList i) ∧
      ∀ i, index ≤ i → i + 1 < s.count → s'.keyList i = s.keyList (i + 1) := by
  unfold cmpRepairValueListCount at hrepair
  split at hrepair
  · cases hrepair
  split at hrepair
  · cases hrepair
  obtain ⟨h1, hmark1, hrepair⟩ := bind_eq_some_iff.1 hrepair
  obtain ⟨h2, hmark2, hrepair⟩ := bind_eq_some_iff.1 hrepair
  obtain ⟨s1, hremove, hrepair⟩ := bind_eq_some_iff.1 hrepair
  unfold cmpRemoveValueFromValueList at hremove
  split at hremove
  · rename_i hlt
    cases hremove
    cases hrepair
    refine ⟨(hvMarkCellDirty_storage hmark2).trans (hvMarkCellDirty_storage hmark1), rfl,
      fun i hi => if_neg (by omega), fun i hi hend => if_pos ?_⟩
    simp only at hlt ⊢
    omega
  · cases hremove

/-- The loop leaves the values before `index`, and the valid ones of the others. -/
theorem validateLoop_good {removed : Nat} (hcount : s.count = index + n)
    (hrun : validateLoop selfHeal currentCell n index valuesRemoved s = some (.good, removed, s')) :
    s'.values = (List.range index).map s.keyList ++
      ((List.range' index n).map s.keyList).filter (fun cell => ValidValue s.hive cell) := by
  induction n generalizing index valuesRemoved s with
  | zero =>
    cases hrun
    simp [ValueList.values, hcount]
  | succ n ih =>
    obtain ⟨status, hstatus, hrun⟩ := bind_eq_some_iff.1 hrun
    rw [List.range'_succ, List.map_cons]
    by_cases hgood : status = .good
    · subst hgood
      have hvalid := checkValue_good_iff.1 hstatus
      rw [ih (by omega) hrun, List.filter_cons_of_pos (by simpa using hvalid), List.range_succ]
      simp
    -- only a repair goes on with the loop
    have hbad : ¬ ValidValue s.hive (s.keyList index) := fun hvalid => by
      rw [checkValue_good_iff.2 hvalid] at hstatus
      exact hgood (some.inj hstatus).symm
    obtain ⟨s1, hrepair, hrun⟩ : ∃ s1,
        cmpRepairValueListCount selfHeal currentCell s index = some (some s1) ∧
        validateLoop selfHeal currentCell n index (valuesRemoved + 1) s1 =
          some (.good, removed, s') := by
      cases hrepair : cmpRepairValueListCount selfHeal currentCell s index with
      | none => cases status <;> simp_all
      | some result => cases result <;> cases status <;> simp_all
    obtain ⟨hstorage, hcount', hbefore, hbehind⟩ := cmpRepairValueListCount_spec hrepair
    have hsame : ∀ cell, ValidValue s1.hive cell ↔ ValidValue s.hive cell := fun cell => by
      rw [← checkValue_good_iff, ← checkValue_good_iff, checkValue_congr hstorage]
    rw [ih (by omega) hrun, List.filter_cons_of_neg (by simpa using hbad)]
    simp only [hsame]
    congr 1
    · refine List.map_congr_left fun i hi => hbefore i (by simpa using hi)
    · rw [Nat.add_comm index 1, ← List.map_add_range' index n 1, List.map_map]
      refine congrArg _ (List.map_congr_left fun i hi => ?_)
      obtain ⟨hle, hlt⟩ := List.mem_range'_1.1 hi
      rw [hbehind i hle (by omega), Function.comp_apply, Nat.add_comm]

/-- The number that is reported is that of the values taken off just if none is. -/
theorem cmpValidateValueListByCount_iff {listCount : Nat} {out out' : Nat → Nat}
    (hcount : s.count = listCount)
    (hrun : cmpValidateValueListByCount selfHeal currentCell listCount out valuesRemoved s =
      some (.good, out', s')) :
    (s'.values = s.values.filter (fun cell => ValidValue s.hive cell) ∧
        out' valuesRemoved = s.values.length - s'.values.length) ↔
      ∀ cell ∈ s.values, ValidValue s.hive cell := by
  obtain ⟨⟨status, removed, s₁⟩, hloop, hrun⟩ := Option.bind_eq_some_iff.1 hrun
  cases hrun
  have hvalues : s'.values = s.values.filter (fun cell => ValidValue s.hive cell) := by
    rw [validateLoop_good (by omega) hloop, ValueList.values, hcount, ← List.range_eq_range']
    rfl
  have hle := List.length_filter_le (fun cell => decide (ValidValue s.hive cell)) s.values
  have hall : (s.values.filter (fun cell => ValidValue s.hive cell)).length = s.values.length ↔
      ∀ cell ∈ s.values, ValidValue s.hive cell := by
    rw [List.length_filter_eq_length_iff]
    simp
  rw [hvalues, ← hall]
  simp only [true_and, if_true]
  omega

/-- One bin, with a value cell at 32 that holds its data itself. -/
def oneValue (entry : Nat) : ValueList where
  hive := {
    signature := 0, baseBlock := zeroBuf, dirtyVector := ⟨32, fun _ => false⟩, dirtyCount := 0
    log := false, alternate := false, hiveFlags := 0, storageTypeCount := 1, version := 3
    storage := fun _ => ⟨1, fun _ => ⟨some ⟨.stable, 0, 0⟩, some 0⟩, fun _ => hcellNil,
      [⟨4096, putU32 (putU32 (putLong zeroBuf 32 (-32)) 36 cmKeyValueSignature) 40 0x80000004⟩]⟩ }
  list := 64
  count := 1
  keyList := fun _ => entry

theorem valid_value_kept : ∃ out' s',
    cmpValidateValueListByCount true 128 1 (fun _ => 7) 0 (oneValue 32) = some (.good, out', s') ∧
    s'.values = (oneValue 32).values.filter (fun cell => ValidValue (oneValue 32).hive cell) ∧
    out' 0 = (oneValue 32).values.length - s'.values.length := by
  have hrun : ∃ out' s', cmpValidateValueListByCount true 128 1 (fun _ => 7) 0 (oneValue 32) =
    some (.good, out', s') := ⟨_, _, rfl⟩
  obtain ⟨out', s', hrun⟩ := hrun
  exact ⟨out', s', hrun, (cmpValidateValueListByCount_iff rfl hrun).2 (by decide)⟩

/-- A value is taken off the list, and none is reported. -/
theorem removal_not_reported : ∃ out' s',
    cmpValidateValueListByCount true 128 1 (fun _ => 7) 0 (oneValue hcellNil) =
      some (.good, out', s') ∧
    (oneValue hcellNil).values = [hcellNil] ∧ s'.values = [] ∧ out' 0 = 0 :=
  ⟨_, _, rfl, rfl, rfl, rfl⟩

end Hive
