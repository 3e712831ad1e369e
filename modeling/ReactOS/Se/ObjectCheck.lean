import ReactOS.Se.Decision

/-! # Checks over an object hierarchy

    An object type list is a tree of objects, written down level by level in depth-first order.  An
    entry for an object type counts for the objects of that type and for all objects below them.

    `SepAccessCheckWorker` without a result list grants the access if no right remains on *some*
    object, where an entry is counted for the one object it names and the plain entries are counted
    apart.  That is enough for the objects of the same type and those below them, and for no other.
    A request for the maximum adds up what the objects are granted one by one. -/

namespace Se

open FirstMatch List
open BitVec hiding or_assoc not_not

/-! ## Section 1: What an entry applies to -/

/-- Object `j` of the list is object `i` or above it: all objects in between are deeper. -/
def Above (objects : List ObjectType) (j i : Nat) : Prop :=
  j ≤ i ∧ ∀ k o o', j < k → k ≤ i → objects[j]? = some o → objects[k]? = some o' →
    o.level < o'.level

/-- The type of object `i` or of one above it. -/
def TypeAbove (objects : List ObjectType) (i : Nat) (guid : Guid) : Prop :=
  ∃ j o, Above objects j i ∧ objects[j]? = some o ∧ o.guid = guid

/-- The entry applies to object `i`: it is for all objects, or for the type of one above. -/
def Applies (objects : List ObjectType) (i : Nat) (a : Ace) : Prop :=
  a.isObject = false ∨ a.objectTypePresent = false ∨ TypeAbove objects i a.objectType

/-- Every entry for an object says for which. -/
def Typed (dacl : List Ace) : Prop := ∀ a ∈ dacl, a.isObject = true → a.objectTypePresent = true

/-! ## Section 2: One pass for named rights -/

variable {r : Nat} {dacl : List Ace}

theorem mem_modify_update {f : AccessCheckRights → AccessCheckRights} {objects : List ObjectType}
    {i : Nat} {o : ObjectType} (h : o ∈ objects.modify i (·.update f)) :
    ∃ o' ∈ objects, o = o' ∨ objects[i]? = some o' ∧ o = o'.update f := by
  obtain ⟨k, hk⟩ := mem_iff_getElem?.1 h
  rw [getElem?_modify, Option.map_eq_map, Option.map_eq_some_iff] at hk
  obtain ⟨o', ho', rfl⟩ := hk
  refine ⟨o', mem_of_getElem? ho', ?_⟩
  split
  · rename_i hik
    exact .inr ⟨hik ▸ ho', rfl⟩
  · exact .inl rfl

theorem modify_update_guids (f : AccessCheckRights → AccessCheckRights) (objects : List ObjectType)
    (i : Nat) : (objects.modify i (·.update f)).map (·.guid) = objects.map (·.guid) := by
  apply ext_getElem?
  intro k
  rw [getElem?_map, getElem?_map, getElem?_modify]
  cases objects[k]? with
  | none => rfl
  | some o =>
    by_cases hik : i = k
    · simp [hik, ObjectType.update]
    · simp [hik]

theorem targetIndex_some {objects : List ObjectType} {guid : Guid} {i : Nat}
    (h : targetIndex objects (some guid) = some i) :
    ∃ o ∈ objects, objects[i]? = some o ∧ o.guid = guid := by
  obtain ⟨hi, hguid, -⟩ := findIdx?_eq_some_iff_getElem.1 h
  exact ⟨_, getElem_mem hi, getElem?_eq_getElem hi, by simpa using hguid⟩

theorem targetIndex_none {objects : List ObjectType} {guid : Guid}
    (h : targetIndex objects (some guid) = none) {o : ObjectType} (ho : o ∈ objects) :
    o.guid ≠ guid := by
  simpa using findIdx?_eq_none_iff.1 h o ho

/-- The right remains, for all objects together and for each object of the given types. -/
structure Open (types : Guid → Prop) (r : Nat) (s : CheckState) : Prop where
  rights : s.rights.remaining.getLsbD r = true
  objects : ∀ o ∈ s.objects, types o.guid → o.rights.remaining.getLsbD r = true
  present : ∀ guid, types guid → guid ∈ s.objects.map (·.guid)
  nonempty : s.objects ≠ []

namespace Analysis

variable (x : Analysis) {types : Guid → Prop} {s : CheckState}

/-- An entry for the token, and for all objects or for one of the types. -/
def Counts (types : Guid → Prop) (a : Ace) : Prop :=
  x.Held a ∧ (a.isObject = false ∨ types a.objectType)

/-- An entry of a pass over a list of objects. -/
theorem regularStep_list (hs : s.objects ≠ []) (a : Ace) : x.regularStep s a =
      if a.inheritOnly = false ∧ x.Held a then
        match a.isObject, a.isAllow with
        | false, true => (concede s (a.access x.genericMapping), false)
        | false, false => refute s (a.access x.genericMapping)
        | true, true =>
          (⟨s.rights, sepAllowAccessObjectTypeList s.objects (a.access x.genericMapping) true
            a.objectType⟩, false)
        | true, false =>
          let (objects, breakOnDeny) :=
            sepDenyAccessObjectTypeList s.objects (a.access x.genericMapping) a.objectType
          (⟨s.rights, objects⟩, breakOnDeny)
      else (s, false) := by
  cases hinherit : a.inheritOnly with
  | true => simp [regularStep, hinherit]
  | false =>
    unfold Held
    cases htype : a.aceType with
    | unsupported n => simp [regularStep, hinherit, htype, Ace.isAllow, Ace.isDeny]
    | accessAllowed =>
      by_cases hh : x.holds a false = true <;>
        simp [regularStep, hinherit, htype, hh, Ace.isAllow, Ace.isDeny, Ace.isObject]
    | accessDenied =>
      by_cases hh : x.holds a true = true <;>
        simp [regularStep, hinherit, htype, hh, Ace.isAllow, Ace.isDeny, Ace.isObject]
    | accessAllowedObject =>
      by_cases hh : x.holds a false = true <;>
        simp [regularStep, hinherit, htype, hh, Ace.isAllow, Ace.isDeny, Ace.isObject, hs,
          sepGetObjectTypeGuidFromAce]
    | accessDeniedObject =>
      by_cases hh : x.holds a true = true <;>
        simp [regularStep, hinherit, htype, hh, Ace.isAllow, Ace.isDeny, Ace.isObject, hs,
          sepGetObjectTypeGuidFromAce]

theorem regularStep_guids (hs : s.objects ≠ []) (a : Ace) :
    (x.regularStep s a).1.objects.map (·.guid) = s.objects.map (·.guid) := by
  rw [x.regularStep_list hs]
  split
  · split
    · rfl
    · unfold refute
      split
      · rfl
      · rfl
    · unfold sepAllowAccessObjectTypeList
      split
      · exact modify_update_guids _ _ _
      · rfl
    · show (sepDenyAccessObjectTypeList s.objects _ _).1.map (·.guid) = _
      unfold sepDenyAccessObjectTypeList
      split
      · exact modify_update_guids _ _ _
      · rfl
  · rfl

/-- An entry leaves an open right open, unless it is one that allows it; one that denies it ends
    the pass. -/
theorem regularStep_open (hopen : Open types r s) (a : Ace) :
    (¬ Decides (x.Counts types) x.genericMapping r a → Open types r (x.regularStep s a).1) ∧
      (Decides (x.Counts types) x.genericMapping r a → a.isAllow = true ∨
        Open types r (x.regularStep s a).1 ∧ (x.regularStep s a).2 = true) := by
  have hguids := x.regularStep_guids hopen.nonempty a
  -- Only what remains is left to see.
  have hopens : (x.regularStep s a).1.rights.remaining.getLsbD r = true →
      (∀ o ∈ (x.regularStep s a).1.objects, types o.guid → o.rights.remaining.getLsbD r = true) →
      Open types r (x.regularStep s a).1 := by
    intro hrights hobjects
    refine ⟨hrights, hobjects, ?_, ?_⟩
    · rw [hguids]
      exact hopen.present
    · intro hnil
      rw [hnil] at hguids
      exact hopen.nonempty (map_eq_nil_iff.1 hguids.symm)
  rw [x.regularStep_list hopen.nonempty] at hopens ⊢
  by_cases hcount : a.inheritOnly = false ∧ x.Held a
  swap
  · rw [if_neg hcount]
    exact ⟨fun _ => hopen, fun hdecides => absurd ⟨hdecides.active, hdecides.held.1⟩ hcount⟩
  rw [if_pos hcount] at hopens ⊢
  have hdecides : ∀ hright : (a.access x.genericMapping).getLsbD r = true,
      (a.isObject = false ∨ types a.objectType) → Decides (x.Counts types) x.genericMapping r a :=
    fun hright hfor => ⟨hcount.1, ⟨hcount.2, hfor⟩, hright⟩
  cases hobject : a.isObject with
  | false =>
    cases hallow : a.isAllow with
    | true =>
      simp only [hobject, hallow] at hopens ⊢
      refine ⟨fun hno => hopens ?_ hopen.objects, fun _ => .inl trivial⟩
      show (s.rights.remaining &&& ~~~a.access x.genericMapping).getLsbD r = true
      rw [getLsbD_and_not, hopen.rights]
      by_contra hright
      exact hno (hdecides (by simpa using hright) (.inl hobject))
    | false =>
      simp only [refute]
      by_cases hmeets : s.rights.remaining &&& a.access x.genericMapping ≠ 0
      · rw [if_pos hmeets]
        have hopen' : Open types r { s with rights := { s.rights with
            denied := s.rights.denied ||| a.access x.genericMapping } } :=
          ⟨hopen.rights, hopen.objects, hopen.present, hopen.nonempty⟩
        exact ⟨fun _ => hopen', fun _ => .inr ⟨hopen', rfl⟩⟩
      · rw [if_neg hmeets]
        exact ⟨fun _ => hopen, fun h =>
          absurd (and_ne_zero_iff.2 ⟨r, hopen.rights, h.right⟩) hmeets⟩
  | true =>
    cases hallow : a.isAllow with
    | true =>
      simp only [hobject, hallow, sepAllowAccessObjectTypeList] at hopens ⊢
      refine ⟨fun hno => hopens hopen.rights ?_, fun _ => .inl trivial⟩
      cases htarget : targetIndex s.objects (some a.objectType) with
      | none => exact hopen.objects
      | some i =>
        intro o ho htypes
        obtain ⟨o', ho', rfl | ⟨hi, rfl⟩⟩ := mem_modify_update ho
        · exact hopen.objects o ho' htypes
        -- The entry is for this object, so it does not have the right.
        show (o'.rights.remaining &&& ~~~a.access x.genericMapping).getLsbD r = true
        rw [getLsbD_and_not, hopen.objects o' ho' htypes]
        by_contra hright
        obtain ⟨o'', -, hi', hguid⟩ := targetIndex_some htarget
        obtain rfl := Option.some.inj (hi.symm.trans hi')
        exact hno (hdecides (by simpa using hright) (.inr (hguid ▸ htypes)))
    | false =>
      simp only [hobject, hallow, sepDenyAccessObjectTypeList] at hopens ⊢
      have hopen' := hopens hopen.rights (by
        intro o ho htypes
        cases htarget : targetIndex s.objects (some a.objectType) with
        | none =>
          rw [htarget] at ho
          exact hopen.objects o ho htypes
        | some i =>
          rw [htarget] at ho
          obtain ⟨o', ho', rfl | ⟨-, rfl⟩⟩ := mem_modify_update ho
          · exact hopen.objects o ho' htypes
          · exact hopen.objects o' ho' htypes)
      refine ⟨fun _ => hopen', fun h => .inr ⟨hopen', ?_⟩⟩
      -- The type is that of an object of the list, on which the right remains.
      have htypes : types a.objectType := h.held.2.resolve_left (by simp [hobject])
      obtain ⟨o, ho, hguid⟩ := mem_map.1 (hopen.present _ htypes)
      cases htarget : targetIndex s.objects (some a.objectType) with
      | none => exact absurd hguid (targetIndex_none htarget ho)
      | some i =>
        obtain ⟨o', ho', hi, hguid'⟩ := targetIndex_some htarget
        have hremains := hopen.objects o' ho' (hguid'.symm ▸ htypes)
        have hmeets := and_ne_zero_iff.2 ⟨r, hremains, h.right⟩
        simpa [hi] using hmeets

theorem regularLoop_cons (a : Ace) (dacl : List Ace) (s : CheckState) :
    x.regularLoop (a :: dacl) s =
      if (x.regularStep s a).2 then (x.regularStep s a).1
      else x.regularLoop dacl (x.regularStep s a).1 := rfl

/-- A right that was open and is not after the pass is allowed by the first entry that counts. -/
theorem regularLoop_decided (dacl : List Ace) (hopen : Open types r s)
    (hend : ∃ o ∈ (x.regularLoop dacl s).objects, types o.guid ∧
      o.rights.remaining.getLsbD r = false) :
    FirstDecided (x.Counts types) x.genericMapping dacl r true := by
  induction dacl generalizing s with
  | nil =>
    obtain ⟨o, ho, htypes, hgone⟩ := hend
    rw [hopen.objects o ho htypes] at hgone
    cases hgone
  | cons a dacl ih =>
    obtain ⟨hother, hdecided⟩ := x.regularStep_open hopen a
    rw [regularLoop_cons] at hend
    by_cases hdecides : Decides (x.Counts types) x.genericMapping r a
    · rw [firstDecided_cons_of_decides hdecides]
      rcases hdecided hdecides with hallow | ⟨hopen', hstop⟩
      · exact hallow
      -- The pass ended with the right open.
      rw [if_pos hstop] at hend
      obtain ⟨o, ho, htypes, hgone⟩ := hend
      rw [hopen'.objects o ho htypes] at hgone
      cases hgone
    · rw [firstDecided_cons_of_not hdecides]
      have hopen' := hother hdecides
      cases hstop : (x.regularStep s a).2 with
      | false =>
        simp only [hstop, Bool.false_eq_true, if_false] at hend
        exact ih hopen' hend
      | true =>
        simp only [hstop, if_true] at hend
        obtain ⟨o, ho, htypes, hgone⟩ := hend
        rw [hopen'.objects o ho htypes] at hgone
        cases hgone

theorem regularLoop_guids (dacl : List Ace) (hs : s.objects ≠ []) :
    (x.regularLoop dacl s).objects.map (·.guid) = s.objects.map (·.guid) := by
  induction dacl generalizing s with
  | nil => rfl
  | cons a dacl ih =>
    have hguids := x.regularStep_guids hs a
    rw [regularLoop_cons]
    split
    · exact hguids
    · rw [← hguids]
      apply ih
      intro hnil
      rw [hnil] at hguids
      exact hs (map_eq_nil_iff.1 hguids.symm)

theorem regular_guids (remaining : AccessMask) (dacl : List Ace) (hs : s.objects ≠ []) :
    (x.regular remaining dacl s).objects.map (·.guid) = s.objects.map (·.guid) := by
  rw [regular, regularLoop_guids _ _ (by simpa using hs), map_map]
  rfl

/-- A pass starts with all rights open. -/
theorem regular_decided {remaining : AccessMask} (hr : remaining.getLsbD r = true)
    (hs : s.objects ≠ []) (hpresent : ∀ guid, types guid → guid ∈ s.objects.map (·.guid))
    (hend : ∃ o ∈ (x.regular remaining dacl s).objects, types o.guid ∧
      o.rights.remaining.getLsbD r = false) :
    FirstDecided (x.Counts types) x.genericMapping dacl r true := by
  refine x.regularLoop_decided dacl ⟨hr, ?_, ?_, by simpa using hs⟩ hend
  · intro o ho _
    obtain ⟨o', -, rfl⟩ := mem_map.1 ho
    exact hr
  · intro guid hguid
    rw [map_map]
    exact hpresent guid hguid

end Analysis

/-! ## Section 3: Where the check keeps to the decisive entries -/

namespace AccessCheck

variable (c : AccessCheck)

/-- There is a pass with the token's own SIDs, and for a restricted token one with its restricted
    SIDs. -/
def Pass (restricted : Bool) : Prop := restricted = true → seTokenIsRestricted c.token = true

/-- The first entry that is for the token and for object `i` and has the right `r` allows it. -/
def AllowedOn (dacl : List Ace) (restricted : Bool) (i r : Nat) : Prop :=
  FirstDecided (fun a => (c.analysis restricted).Held a ∧ Applies c.objectTypeList i a)
    c.genericMapping dacl r true

def AllowedEverywhere (dacl : List Ace) (r : Nat) : Prop :=
  ∀ restricted, c.Pass restricted → ∀ i, i < c.objectTypeList.length → c.AllowedOn dacl restricted i r

/-- The right was asked for and no privilege granted it, or it is granted now and was not before. -/
def Answers (r : Nat) : Prop :=
  maximumAllowed.getLsbD r = false ∧ (c.policy.desired.getLsbD r = true ∨
    ∃ granted ∈ c.sepAccessCheckWorker.grantedAccessList, granted.getLsbD r = true ∧
      (c.previouslyGrantedAccess ||| c.policy.granted).getLsbD r = false)

/-- If the check succeeds, every right that it answers for is allowed on every object. -/
def GrantsEverywhere (dacl : List Ace) : Prop :=
  c.succeeds → ∀ r, c.Answers r → c.AllowedEverywhere dacl r

/-- A check over a list without results, with the entries of a DACL that say what they are for. -/
structure OverList (dacl : List Ace) : Prop where
  noResults : c.useResultList = false
  descriptor : c.securityDescriptor = ⟨1, some (some dacl)⟩
  typed : Typed dacl

/-- The state after a pass for named rights. -/
def passed (dacl : List Ace) (restricted : Bool) : CheckState :=
  let s := (c.analysis false).regular c.policy.desired dacl c.start
  if restricted then (c.analysis true).regular c.policy.desired dacl s else s

/-- The pass leaves no right of an object of the type. -/
def Clears (dacl : List Ace) (restricted : Bool) (guid : Guid) : Prop :=
  ∃ o ∈ (c.passed dacl restricted).objects, o.guid = guid ∧ o.rights.remaining = 0

/-- The passes for the maximum grant the right on some object. -/
def Collects (dacl : List Ace) (r : Nat) : Prop :=
  ∃ o ∈ (c.maximumPasses dacl).objects, o.rights.granted.getLsbD r = true

/-- What the entries have to be like for each way that the check takes. -/
structure KeepsTo (dacl : List Ace) : Prop where
  -- If every pass clears some object type, the objects that are not below one it clears allow all
  -- rights as well.
  named : ¬ c.genericMapping.IsEmpty → c.mappedDesired &&& maximumAllowed = 0 →
    (∀ restricted, c.Pass restricted → ∃ guid, c.Clears dacl restricted guid) →
    ∀ restricted, c.Pass restricted → ∀ i, i < c.objectTypeList.length →
      (∀ guid, c.Clears dacl restricted guid → ¬ TypeAbove c.objectTypeList i guid) →
      ∀ r, c.policy.desired.getLsbD r = true → c.AllowedOn dacl restricted i r
  -- If the named rights are granted on some object, every right that is so is allowed on all.
  maximum : ¬ c.genericMapping.IsEmpty → c.mappedDesired &&& maximumAllowed ≠ 0 →
    (∀ r, c.policy.desired.getLsbD r = true → maximumAllowed.getLsbD r = false →
      c.Collects dacl r) →
    ∀ r, c.Collects dacl r → maximumAllowed.getLsbD r = false →
      (c.policy.desired.getLsbD r = true ∨
        (c.previouslyGrantedAccess ||| c.policy.granted).getLsbD r = false) →
      c.AllowedEverywhere dacl r
  -- An administrator is granted all that is asked for.
  unmapped : c.genericMapping.IsEmpty → seTokenIsAdmin c.token = true →
    ∀ r, c.policy.desired.getLsbD r = true → maximumAllowed.getLsbD r = false →
      c.AllowedEverywhere dacl r

variable {c}

/-- Below an object type that a pass clears, the right is allowed. -/
theorem allowedOn_of_clears (htyped : Typed dacl) {restricted : Bool} {guid : Guid} {i : Nat}
    (hclears : c.Clears dacl restricted guid) (habove : TypeAbove c.objectTypeList i guid)
    (hr : c.policy.desired.getLsbD r = true) : c.AllowedOn dacl restricted i r := by
  have hne : c.objectTypeList ≠ [] := by
    intro hnil
    obtain ⟨j, o, -, hj, -⟩ := habove
    rw [hnil] at hj
    cases hj
  have hpresent : ∀ guid, TypeAbove c.objectTypeList i guid →
      guid ∈ c.objectTypeList.map (·.guid) := by
    rintro guid ⟨j, o, -, hj, rfl⟩
    exact mem_map_of_mem (mem_of_getElem? hj)
  -- An entry without a type counts everywhere only if it is a plain one.
  have hcounts : ∀ a ∈ dacl, ((c.analysis restricted).Counts (TypeAbove c.objectTypeList i) a ↔
      (c.analysis restricted).Held a ∧ Applies c.objectTypeList i a) := by
    intro a ha
    refine and_congr_right fun _ => ⟨Or.imp_right .inr, ?_⟩
    rintro (hplain | hno | htypes)
    · exact .inl hplain
    · left
      by_contra hobject
      rw [htyped a ha (by simpa using hobject)] at hno
      cases hno
    · exact .inr htypes
  obtain ⟨o, ho, rfl, hzero⟩ := hclears
  have hgone : o.rights.remaining.getLsbD r = false := by
    rw [hzero, ofNat_eq_ofNat, getLsbD_zero]
  rw [AllowedOn, ← FirstDecided.congr hcounts]
  cases restricted with
  | false => exact Analysis.regular_decided _ hr hne hpresent ⟨o, ho, habove, hgone⟩
  | true =>
    have hguids := (c.analysis false).regular_guids c.policy.desired dacl
      (s := c.start) hne
    refine Analysis.regular_decided _ hr ?_ ?_ ⟨o, ho, habove, hgone⟩
    · intro hnil
      rw [hnil] at hguids
      exact hne (map_eq_nil_iff.1 hguids.symm)
    · rw [hguids]
      exact hpresent

theorem desiredAccess_ne_zero (h : c.policy.desired.getLsbD r = true) : c.desiredAccess ≠ 0 := by
  intro hzero
  have hd := c.policy_desired_le r h
  have hmapped : c.mappedDesired = 0 := by
    rw [mappedDesired, hzero]
    exact rtlMapGenericMask_eq _ (by decide)
  rw [hmapped, ofNat_eq_ofNat, getLsbD_zero] at hd
  cases hd

/-- The worker after the privilege policy has left some rights. -/
theorem worker_left_eq (hstatus : c.policy.status = .success) (hrem : c.policy.desired ≠ 0) :
    c.sepAccessCheckWorker =
      if c.genericMapping.IsEmpty then
        if seTokenIsAdmin c.token then
          c.commonStatus .success (c.policy.granted ||| c.policy.desired)
        else c.commonStatus .accessDenied 0
      else c.daclCheck c.mappedDesired c.policy.desired c.policy.granted := by
  have hdesired : c.desiredAccess ≠ 0 := by
    by_contra hzero
    apply hrem
    rw [ofNat_eq_ofNat, eq_zero_iff]
    intro r
    by_contra hr
    exact desiredAccess_ne_zero (by simpa using hr) hzero
  rw [c.worker_eq hdesired, if_neg (not_not.2 hstatus), if_neg hrem]

theorem mem_grantedAccessList (hresults : c.useResultList = false) {status : NtStatus}
    {granted granted' : AccessMask} :
    granted' ∈ (c.commonStatus status granted).grantedAccessList ↔ granted' = granted := by
  simp [commonStatus, hresults]

/-- The check answers for no right if the privileges leave none. -/
theorem grantsEverywhere_of_no_desired (hresults : c.useResultList = false)
    (h : c.policy.status ≠ .success ∨ c.policy.desired = 0) : c.GrantsEverywhere dacl := by
  rintro hsucceeds r ⟨-, hanswers⟩
  exfalso
  by_cases hdesired : c.desiredAccess = 0
  · rw [succeeds, sepAccessCheckWorker, if_pos hdesired] at hsucceeds
    rw [sepAccessCheckWorker, if_pos hdesired] at hanswers
    rcases hanswers with hr | ⟨granted, hmem, hgranted, hbefore⟩
    · exact desiredAccess_ne_zero hr hdesired
    split at hsucceeds
    · simp at hsucceeds
    · rename_i hprev
      rw [if_neg hprev, mem_grantedAccessList hresults] at hmem
      rw [getLsbD_or, ← hmem, hgranted] at hbefore
      cases hbefore
  rw [succeeds, c.worker_eq hdesired] at hsucceeds
  rw [c.worker_eq hdesired] at hanswers
  by_cases hstatus : c.policy.status = .success
  · have hrem := h.resolve_left (not_not.2 hstatus)
    rw [if_neg (not_not.2 hstatus), if_pos hrem] at hanswers
    rcases hanswers with hr | ⟨granted, hmem, hgranted, hbefore⟩
    · simp [hrem] at hr
    rw [mem_grantedAccessList hresults] at hmem
    rw [getLsbD_or, ← hmem, hgranted, Bool.or_true] at hbefore
    cases hbefore
  · rw [if_pos hstatus, commonStatus_status] at hsucceeds
    exact hstatus hsucceeds

/-- A check for named rights grants them if every pass clears some object type. -/
theorem regularCheck_cases (hlist : c.objectTypeList ≠ []) {desired granted : AccessMask}
    (hdesired : desired ≠ 0) (dacl : List Ace) :
    (∀ restricted, c.Pass restricted → ∃ guid, c.Clears dacl restricted guid) ∧
        c.regularCheck desired c.policy.desired granted dacl =
          c.commonStatus .success (granted ||| desired) ∨
      (¬ ∀ restricted, c.Pass restricted → ∃ guid, c.Clears dacl restricted guid) ∧
        c.regularCheck desired c.policy.desired granted dacl = c.commonStatus .accessDenied 0 := by
  have hpasses : ∀ restricted, c.passes (c.passed dacl restricted) = true ↔
      ∃ guid, c.Clears dacl restricted guid := by
    intro restricted
    rw [passes, if_neg hlist]
    simp [Clears]
  have hsome : ¬ desired = 0#32 := hdesired
  simp only [← hpasses, Pass, Bool.forall_bool, Bool.false_eq_true, false_implies, true_implies]
  show (_ ∧ (if !c.passes (c.passed dacl false) then _ else
    if seTokenIsRestricted c.token && !c.passes (c.passed dacl true) then _ else _) = _) ∨ _ ∧
    (if !c.passes (c.passed dacl false) then _ else
      if seTokenIsRestricted c.token && !c.passes (c.passed dacl true) then _ else _) = _
  cases c.passes (c.passed dacl false) with
  | false => simp
  | true =>
    cases seTokenIsRestricted c.token with
    | false => simp [hsome]
    | true => cases c.passes (c.passed dacl true) <;> simp [hsome]

theorem foldl_granted (os : List ObjectType) (acc : AccessMask) (r : Nat) :
    (os.foldl (fun granted o => granted ||| o.rights.granted) acc).getLsbD r = true ↔
      acc.getLsbD r = true ∨ ∃ o ∈ os, o.rights.granted.getLsbD r = true := by
  induction os generalizing acc with
  | nil => simp
  | cons o os ih =>
    rw [foldl_cons, ih, getLsbD_or, Bool.or_eq_true, or_assoc]
    simp

/-- A request for the maximum fails, or grants the rights that are granted on some object. -/
theorem maximumCheck_cases (hlist : c.objectTypeList ≠ []) (hresults : c.useResultList = false)
    (desired remaining granted : AccessMask) (dacl : List Ace) :
    ∃ collected : AccessMask, (∀ r, collected.getLsbD r = true ↔ c.Collects dacl r) ∧
      c.maximumCheck desired remaining granted dacl = c.maximumStatus remaining granted collected := by
  refine ⟨(c.maximumPasses dacl).objects.foldl (fun granted o => granted ||| o.rights.granted) 0, ?_, ?_⟩
  · intro r
    rw [foldl_granted, ofNat_eq_ofNat, getLsbD_zero]
    simp [Collects]
  · rw [maximumCheck, if_neg hlist, hresults]
    rfl

/-- Under an empty mapping an administrator is granted everything. -/
theorem grantsEverywhere_unmapped_iff (hresults : c.useResultList = false)
    (hstatus : c.policy.status = .success) (hrem : c.policy.desired ≠ 0)
    (hmap : c.genericMapping.IsEmpty) : c.GrantsEverywhere dacl ↔
      (seTokenIsAdmin c.token = true → ∀ r, c.policy.desired.getLsbD r = true →
        maximumAllowed.getLsbD r = false → c.AllowedEverywhere dacl r) := by
  rw [GrantsEverywhere, succeeds]
  simp only [Answers, worker_left_eq hstatus hrem, if_pos hmap]
  cases seTokenIsAdmin c.token with
  | false => simp
  | true =>
    simp only [if_true, commonStatus_status, true_implies, mem_grantedAccessList hresults]
    constructor
    · intro h r hr hnotmax
      exact h r ⟨hnotmax, .inl hr⟩
    · grind

section Entries

variable (hover : c.OverList dacl) (hstatus : c.policy.status = .success)
  (hrem : c.policy.desired ≠ 0) (hmap : ¬ c.genericMapping.IsEmpty)

include hover hstatus hrem hmap

theorem worker_nil (hdacl : dacl = []) : c.sepAccessCheckWorker =
    if c.policy.desired = maximumAllowed ∧ c.policy.granted ≠ 0 then
      c.commonStatus .success c.policy.granted
    else c.commonStatus .accessDenied 0 := by
  rw [worker_left_eq hstatus hrem, if_neg hmap, daclCheck, hover.descriptor, if_neg (by simp), hdacl]

theorem worker_cons {a : Ace} {as : List Ace} (hdacl : dacl = a :: as) : c.sepAccessCheckWorker =
    if c.mappedDesired &&& maximumAllowed ≠ 0 then
      c.maximumCheck c.mappedDesired c.policy.desired c.policy.granted dacl
    else c.regularCheck c.mappedDesired c.policy.desired c.policy.granted dacl := by
  rw [worker_left_eq hstatus hrem, if_neg hmap, daclCheck, hover.descriptor, if_neg (by simp), hdacl]
  simp [hover.noResults]

variable (hlist : c.objectTypeList ≠ [])

include hlist

/-- A check for named rights: the objects below a type that is cleared need no condition. -/
theorem grantsEverywhere_named_iff (hmax : c.mappedDesired &&& maximumAllowed = 0) :
    c.GrantsEverywhere dacl ↔
      ((∀ restricted, c.Pass restricted → ∃ guid, c.Clears dacl restricted guid) →
        ∀ restricted, c.Pass restricted → ∀ i, i < c.objectTypeList.length →
          (∀ guid, c.Clears dacl restricted guid → ¬ TypeAbove c.objectTypeList i guid) →
          ∀ r, c.policy.desired.getLsbD r = true → c.AllowedOn dacl restricted i r) := by
  have hworker : c.sepAccessCheckWorker =
      c.regularCheck c.mappedDesired c.policy.desired c.policy.granted dacl := by
    cases dacl with
    | cons a dacl =>
      rw [worker_cons hover hstatus hrem hmap rfl, if_neg (not_not.2 hmax)]
    | nil =>
      -- Without an entry nothing is cleared, and `MAXIMUM_ALLOWED` is not asked for.
      have hne : c.policy.desired ≠ maximumAllowed := by
        intro heq
        have hd := c.policy_desired_le 25 (by rw [heq]; decide)
        exact and_ne_zero_iff.2 ⟨25, hd, by decide⟩ hmax
      have hpasses : c.passes ((c.analysis false).regular c.policy.desired [] c.start) = false := by
        rw [passes, if_neg hlist]
        simpa [Analysis.regular, Analysis.regularLoop, ObjectType.update] using
          fun _ _ => hrem
      rw [worker_nil hover hstatus hrem hmap rfl, if_neg fun h => hne h.1]
      simp [regularCheck, hpasses]
  have hdesired : c.mappedDesired ≠ 0 := by
    intro hzero
    apply hrem
    rw [ofNat_eq_ofNat, eq_zero_iff]
    intro r
    by_contra hr
    have hd := c.policy_desired_le r (by simpa using hr)
    rw [hzero, ofNat_eq_ofNat, getLsbD_zero] at hd
    cases hd
  rw [GrantsEverywhere, succeeds]
  simp only [Answers, hworker]
  rcases regularCheck_cases hlist hdesired dacl with ⟨hclears, hcheck⟩ | ⟨hclears, hcheck⟩
  · rw [hcheck]
    simp only [commonStatus_status, true_implies, mem_grantedAccessList hover.noResults]
    constructor
    · intro h _ restricted hpass i hi _ r hr
      refine h r ⟨?_, .inl hr⟩ restricted hpass i hi
      by_contra hmaximum
      exact and_ne_zero_iff.2 ⟨r, c.policy_desired_le r hr, by simpa using hmaximum⟩ hmax
    · rintro h r ⟨-, hanswers⟩ restricted hpass i hi
      have hr : c.policy.desired.getLsbD r = true := by
        rcases hanswers with hr | ⟨granted, rfl, hgranted, hbefore⟩
        · exact hr
        rw [getLsbD_or, Bool.or_eq_false_iff] at hbefore
        rw [getLsbD_or, hbefore.2, Bool.false_or] at hgranted
        exact (c.policy_desired_or_granted hgranted).resolve_right (by simp [hbefore.2])
      by_cases hbelow : ∃ guid, c.Clears dacl restricted guid ∧ TypeAbove c.objectTypeList i guid
      · obtain ⟨guid, hguid, habove⟩ := hbelow
        exact allowedOn_of_clears hover.typed hguid habove hr
      · exact h hclears restricted hpass i hi
          (fun guid hguid habove => hbelow ⟨guid, hguid, habove⟩) r hr
  · rw [hcheck]
    refine iff_of_true (fun hsucceeds => ?_) fun h => absurd h hclears
    simp at hsucceeds

/-- A request for the maximum grants the rights that are granted on some object. -/
theorem grantsEverywhere_maximum_iff (hmax : c.mappedDesired &&& maximumAllowed ≠ 0) :
    c.GrantsEverywhere dacl ↔
      ((∀ r, c.policy.desired.getLsbD r = true → maximumAllowed.getLsbD r = false →
        c.Collects dacl r) →
      ∀ r, c.Collects dacl r → maximumAllowed.getLsbD r = false →
        (c.policy.desired.getLsbD r = true ∨
          (c.previouslyGrantedAccess ||| c.policy.granted).getLsbD r = false) →
        c.AllowedEverywhere dacl r) := by
  rw [GrantsEverywhere, succeeds]
  simp only [Answers]
  cases dacl with
  | nil =>
    -- Without an entry nothing is granted but what was before.
    rw [worker_nil hover hstatus hrem hmap rfl]
    refine iff_of_true ?_ ?_
    · by_cases honly : c.policy.desired = maximumAllowed ∧ c.policy.granted ≠ 0
      · rw [if_pos honly]
        rintro - r ⟨hnotmax, hr | ⟨granted, hmem, hgranted, hbefore⟩⟩
        · rw [honly.1, hnotmax] at hr
          cases hr
        rw [mem_grantedAccessList hover.noResults] at hmem
        rw [getLsbD_or, ← hmem, hgranted, Bool.or_true] at hbefore
        cases hbefore
      · rw [if_neg honly]
        intro hsucceeds
        simp at hsucceeds
    · rintro - r ⟨o, ho, hgranted⟩
      have hfresh : o.rights = ⟨0, 0, 0⟩ := by
        apply c.fresh o
        revert ho
        simp [maximumPasses, Analysis.maximum, start]
      rw [hfresh] at hgranted
      simp at hgranted
  | cons a dacl =>
    obtain ⟨collected, hcollects, hcheck⟩ := maximumCheck_cases hlist hover.noResults
      c.mappedDesired c.policy.desired c.policy.granted (a :: dacl)
    rw [worker_cons hover hstatus hrem hmap rfl, if_pos hmax, hcheck, maximumStatus]
    simp only [← hcollects]
    by_cases hmissing : c.policy.desired &&& ~~~(maximumAllowed ||| collected) ≠ 0
    · rw [if_pos hmissing]
      refine iff_of_true (fun hsucceeds => ?_) fun h => ?_
      · simp at hsucceeds
      -- A named right is granted on no object.
      exfalso
      apply hmissing
      rw [ofNat_eq_ofNat, and_not_eq_zero_iff]
      intro r hr
      rw [getLsbD_or]
      cases hm : maximumAllowed.getLsbD r with
      | true => rfl
      | false => rw [h r hr hm]; rfl
    rw [if_neg hmissing]
    have hall : ∀ r, c.policy.desired.getLsbD r = true → maximumAllowed.getLsbD r = false →
        collected.getLsbD r = true := by
      intro r hr hm
      rw [not_not, ofNat_eq_ofNat, and_not_eq_zero_iff] at hmissing
      simpa [hm] using hmissing r hr
    simp only [commonStatus_status, mem_grantedAccessList hover.noResults]
    constructor
    · grind
    · grind

end Entries

end AccessCheck

/-- A check for a root of type 5 and a child of type 6. -/
def pairCheck (dacl : List Ace) (desired : AccessMask) : AccessCheck where
  securityDescriptor := ⟨1, some (some dacl)⟩
  clientAccessToken := none
  primaryAccessToken := aliceToken
  principalSelfSid := none
  desiredAccess := desired
  objectTypeList := [⟨5, 0, ⟨0, 0, 0⟩⟩, ⟨6, 1, ⟨0, 0, 0⟩⟩]
  previouslyGrantedAccess := 0
  genericMapping := fileMapping
  accessMode := .user
  useResultList := false
  privilegeSet := none
  fresh := by simp
  results := fun h => by cases h

def allowObject (guid : Guid) (mask : AccessMask) : Ace :=
  ⟨.accessAllowedObject, 0, mask, aliceSid, 1, guid⟩

def denyObject (guid : Guid) (mask : AccessMask) : Ace :=
  ⟨.accessDeniedObject, 0, mask, aliceSid, 1, guid⟩

/-- An entry for the type of the child is not for the root. -/
theorem not_applies_root (dacl : List Ace) (desired mask : AccessMask) :
    ¬ Applies (pairCheck dacl desired).objectTypeList 0 (allowObject 6 mask) := by
  rintro (hobject | hpresent | ⟨j, o, habove, ho, hguid⟩)
  · cases hobject
  · revert hpresent
    simp [Ace.objectTypePresent, allowObject]
  · have hj : j = 0 := Nat.le_zero.1 habove.1
    subst hj
    cases ho
    revert hguid
    simp [allowObject]

end Se
