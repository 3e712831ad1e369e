import ReactOS.Lib.FirstMatch

/-! # Access checks

    `SepAccessCheckWorker` (`ntoskrnl/se/accesschk.c`) with what it calls: the privilege policy
    (`priv.c`), the search for a SID in a token (`sid.c`) and the object type lists (`objtype.c`).

    A list of access control entries is a list of rules in the sense of `FirstMatch`: an entry
    counts if it is not there for inheritance only and the token holds its SID, and then it allows
    or denies the rights of its mask.  A request for named rights shrinks them entry by entry; a
    request for `MAXIMUM_ALLOWED` collects what is allowed and what is denied. -/

namespace Se

open FirstMatch

/-! ## Section 1: Masks, tokens and entries -/

abbrev AccessMask := BitVec 32

def writeOwner : AccessMask := 0x00080000#32
def standardRightsAll : AccessMask := 0x001F0000#32
def specificRightsAll : AccessMask := 0x0000FFFF#32
def accessSystemSecurity : AccessMask := 0x01000000#32
def maximumAllowed : AccessMask := 0x02000000#32
def genericAll : AccessMask := 0x10000000#32
def genericExecute : AccessMask := 0x20000000#32
def genericWrite : AccessMask := 0x40000000#32
def genericRead : AccessMask := 0x80000000#32
def genericAccess : AccessMask := genericRead ||| genericWrite ||| genericExecute ||| genericAll

/-- `GENERIC_MAPPING`. -/
structure GenericMapping where
  read : AccessMask
  write : AccessMask
  execute : AccessMask
  all : AccessMask
  deriving DecidableEq, Repr

/-- The mapping that the worker does not use, because it says nothing. -/
def GenericMapping.IsEmpty (g : GenericMapping) : Prop :=
  g.read = 0 ∧ g.write = 0 ∧ g.execute = 0 ∧ g.all = 0

instance (g : GenericMapping) : Decidable g.IsEmpty := by
  unfold GenericMapping.IsEmpty
  infer_instance

def rtlMapGenericMask (mask : AccessMask) (mapping : GenericMapping) : AccessMask :=
  let mask := if mask &&& genericRead ≠ 0 then mask ||| mapping.read else mask
  let mask := if mask &&& genericWrite ≠ 0 then mask ||| mapping.write else mask
  let mask := if mask &&& genericExecute ≠ 0 then mask ||| mapping.execute else mask
  let mask := if mask &&& genericAll ≠ 0 then mask ||| mapping.all else mask
  mask &&& ~~~genericAccess

/-- `SID`. -/
structure Sid where
  revision : BitVec 8
  identifierAuthority : BitVec 48
  subAuthority : List (BitVec 32)
  deriving DecidableEq, Repr

/-- `SePrincipalSelfSid`, which stands for the object that is checked. -/
def sePrincipalSelfSid : Sid := ⟨1, 5, [10]⟩

structure SidAndAttributes where
  sid : Sid
  attributes : BitVec 32
  deriving DecidableEq, Repr

def SidAndAttributes.enabled (e : SidAndAttributes) : Bool := e.attributes &&& 0x4#32 ≠ 0

/-- `SE_GROUP_USE_FOR_DENY_ONLY`. -/
def SidAndAttributes.denyOnly (e : SidAndAttributes) : Bool := e.attributes &&& 0x10#32 ≠ 0

/-- A privilege of a token: its LUID and attributes. -/
structure LuidAndAttributes where
  luid : BitVec 64
  attributes : BitVec 32
  deriving DecidableEq, Repr

/-- `TOKEN`.  The first of the `userAndGroups` is the user. -/
structure Token where
  userAndGroups : List SidAndAttributes
  restrictedSids : List SidAndAttributes
  privileges : List LuidAndAttributes
  tokenFlags : BitVec 32
  deriving DecidableEq, Repr

def seTokenIsAdmin (token : Token) : Bool := token.tokenFlags &&& 0x8#32 ≠ 0

def seTokenIsRestricted (token : Token) : Bool := token.tokenFlags &&& 0x10#32 ≠ 0

abbrev Guid := BitVec 128

inductive AceType where
  | accessAllowed
  | accessDenied
  | accessAllowedObject
  | accessDeniedObject
  | unsupported (aceType : BitVec 8)
  deriving DecidableEq, Repr

/-- `ACE`.  An object entry has `flags`, and `objectType` is what stands at the place of its object
    type: without `ACE_OBJECT_TYPE_PRESENT` these are bytes of something else. -/
structure Ace where
  aceType : AceType
  aceFlags : BitVec 8
  accessMask : AccessMask
  sid : Sid
  flags : BitVec 32
  objectType : Guid
  deriving DecidableEq, Repr

namespace Ace

def inheritOnly (a : Ace) : Bool := a.aceFlags &&& 0x8#8 ≠ 0

def isAllow (a : Ace) : Bool := a.aceType = .accessAllowed || a.aceType = .accessAllowedObject

def isDeny (a : Ace) : Bool := a.aceType = .accessDenied || a.aceType = .accessDeniedObject

def isObject (a : Ace) : Bool :=
  a.aceType = .accessAllowedObject || a.aceType = .accessDeniedObject

/-- `ACE_OBJECT_TYPE_PRESENT`. -/
def objectTypePresent (a : Ace) : Bool := a.flags &&& 0x1#32 ≠ 0

/-- The rights of an entry, mapped if one of them is generic. -/
def access (a : Ace) (mapping : GenericMapping) : AccessMask :=
  if a.accessMask &&& genericAccess ≠ 0 then rtlMapGenericMask a.accessMask mapping
  else a.accessMask

end Ace

/-- `SECURITY_DESCRIPTOR`: its revision, and its DACL if `SE_DACL_PRESENT` is set; the DACL may be
    a null pointer. -/
structure SecurityDescriptor where
  revision : Nat
  dacl : Option (Option (List Ace))
  deriving DecidableEq, Repr

inductive Mode where
  | kernel
  | user
  deriving DecidableEq, Repr

inductive NtStatus where
  | success
  | accessDenied
  | privilegeNotHeld
  | insufficientResources
  | unknownRevision
  deriving DecidableEq, Repr

/-! ## Section 2: SIDs and privileges of a token -/

section SidSearch

variable (sid : Sid) (deny restricted : Bool)

/-- The loop of `SepSidInTokenEx`, with `SidIndex` and what is left of the list. -/
def sidLoop : Nat → List SidAndAttributes → Bool
  | _, [] => false
  | sidIndex, e :: es =>
    if e.sid = sid then
      (!restricted && decide (sidIndex = 0) && !e.denyOnly) || e.enabled || (deny && e.denyOnly)
    else sidLoop (sidIndex + 1) es

end SidSearch

/-- The SID that is looked for: the principal's, where an entry names the object itself. -/
def principalSid (principalSelfSid : Option Sid) (sid : Sid) : Sid :=
  match principalSelfSid with
  | some self => if sePrincipalSelfSid = sid then self else sid
  | none => sid

/-- The SIDs that a check goes by. -/
def Token.sids (token : Token) (restricted : Bool) : List SidAndAttributes :=
  if restricted then token.restrictedSids else token.userAndGroups

def sepSidInTokenEx (token : Token) (principalSelfSid : Option Sid) (sid : Sid)
    (deny restricted : Bool) : Bool :=
  sidLoop (principalSid principalSelfSid sid) deny restricted 0 (token.sids restricted)

/-- `SepSinglePrivilegeCheck` with the loops of `SepPrivilegeCheck`, for one privilege. -/
def sepSinglePrivilegeCheck (luid : BitVec 64) (token : Token) (mode : Mode) : Bool :=
  match mode with
  | .kernel => true
  | .user =>
    match token.privileges.find? fun p => p.luid = luid with
    | some p => p.attributes &&& 0x2#32 ≠ 0
    | none => false

def seSecurityPrivilege : BitVec 64 := 8

def seTakeOwnershipPrivilege : BitVec 64 := 9

/-- What `SePrivilegePolicyCheck` leaves of the desired access and makes of the granted. -/
structure Policy where
  status : NtStatus
  desired : AccessMask
  granted : AccessMask
  deriving DecidableEq, Repr

/-- `SePrivilegePolicyCheck`.  `privilegeSet` says whether the caller wants the set of the
    privileges used, and then whether there is memory for it. -/
def sePrivilegePolicyCheck (desired granted : AccessMask) (token : Token)
    (privilegeSet : Option Bool) (mode : Mode) : Policy :=
  if desired &&& accessSystemSecurity ≠ 0 ∧
      sepSinglePrivilegeCheck seSecurityPrivilege token mode = false then
    ⟨.privilegeNotHeld, desired, granted⟩
  else
    let mask := if desired &&& accessSystemSecurity ≠ 0 then accessSystemSecurity else 0
    let mask :=
      if desired &&& writeOwner ≠ 0 ∧
          sepSinglePrivilegeCheck seTakeOwnershipPrivilege token mode = true then
        mask ||| writeOwner
      else mask
    let status :=
      if privilegeSet = some false ∧ mask ≠ 0 then .insufficientResources else .success
    ⟨status, desired &&& ~~~mask, granted ||| mask⟩

/-! ## Section 3: Object type lists -/

/-- `ACCESS_CHECK_RIGHTS`. -/
structure AccessCheckRights where
  remaining : AccessMask
  granted : AccessMask
  denied : AccessMask
  deriving DecidableEq, Repr

/-- `OBJECT_TYPE_LIST_INTERNAL`. -/
structure ObjectType where
  guid : Guid
  level : Nat
  rights : AccessCheckRights
  deriving DecidableEq, Repr

namespace AccessCheckRights

/-- Rights that have not been granted yet are denied. -/
def deny (access : AccessMask) (rights : AccessCheckRights) : AccessCheckRights :=
  { rights with denied := rights.denied ||| (access &&& ~~~rights.granted) }

/-- Rights that have not been denied yet are granted. -/
def allow (access : AccessMask) (rights : AccessCheckRights) : AccessCheckRights :=
  { rights with granted := rights.granted ||| (access &&& ~~~rights.denied) }

/-- Rights are taken out of those that remain. -/
def remove (access : AccessMask) (rights : AccessCheckRights) : AccessCheckRights :=
  { rights with remaining := rights.remaining &&& ~~~access }

end AccessCheckRights

def ObjectType.update (f : AccessCheckRights → AccessCheckRights) (o : ObjectType) : ObjectType :=
  { o with rights := f o.rights }

/-- The loop of `SepValidateObjectTypeList` behind the first object. -/
def validLevels : Nat → List ObjectType → Bool
  | _, [] => true
  | prevLevel, o :: os =>
    decide (o.level ≤ 4) && decide (o.level ≠ 0) && decide (o.level ≤ prevLevel + 1) &&
      validLevels o.level os

/-- `SepValidateObjectTypeList`, on the list as it is captured. -/
def sepValidateObjectTypeList : List ObjectType → Bool
  | [] => false
  | o :: os => decide (o.level = 0) && validLevels 0 os

def sepObjectTypeGuidInList (objects : List ObjectType) (guid : Guid) : Option Nat :=
  objects.findIdx? fun o => o.guid = guid

/-- The object that a helper works on: the root, if no object type is given. -/
def targetIndex (objects : List ObjectType) (guid : Option Guid) : Option Nat :=
  match guid with
  | none => some 0
  | some guid => sepObjectTypeGuidInList objects guid

/-- The loop over the objects behind the target, up to one that is not below it. -/
def updateChildren (level : Nat) (f : AccessCheckRights → AccessCheckRights) :
    List ObjectType → List ObjectType
  | [] => []
  | o :: os => if o.level ≤ level then o :: os else o.update f :: updateChildren level f os

def updateTree (f : AccessCheckRights → AccessCheckRights) : Nat → List ObjectType → List ObjectType
  | _, [] => []
  | 0, o :: os => o.update f :: updateChildren o.level f os
  | i + 1, o :: os => o :: updateTree f i os

/-- `SepDenyAccessObjectTypeResultList` and `SepAllowAccessObjectTypeResultList`. -/
def accessResultList (f : AccessCheckRights → AccessCheckRights) (objects : List ObjectType)
    (guid : Option Guid) : List ObjectType :=
  match targetIndex objects guid with
  | some i => updateTree f i objects
  | none => objects

def sepDenyAccessObjectTypeResultList (objects : List ObjectType) (access : AccessMask)
    (guid : Option Guid) : List ObjectType :=
  accessResultList (·.deny access) objects guid

def sepAllowAccessObjectTypeResultList (objects : List ObjectType) (access : AccessMask)
    (guid : Option Guid) : List ObjectType :=
  accessResultList (·.allow access) objects guid

/-- `SepDenyAccessObjectTypeList` with the value of `BreakOnDeny`. -/
def sepDenyAccessObjectTypeList (objects : List ObjectType) (access : AccessMask)
    (guid : Option Guid) : List ObjectType × Bool :=
  match targetIndex objects guid with
  | some i =>
    (objects.modify i (·.update (·.deny access)),
      (objects[i]?).any fun o => o.rights.remaining &&& access ≠ 0)
  | none => (objects, false)

def sepAllowAccessObjectTypeList (objects : List ObjectType) (access : AccessMask)
    (removeRemainingRights : Bool) (guid : Option Guid) : List ObjectType :=
  match targetIndex objects guid with
  | some i =>
    objects.modify i (·.update fun rights =>
      (if removeRemainingRights then rights.remove access else rights).allow access)
  | none => objects

/-- `SepGetObjectTypeGuidFromAce`, which does not look at the flags of the entry. -/
def sepGetObjectTypeGuidFromAce (a : Ace) : Option Guid := some a.objectType

/-! ## Section 4: The entries of a DACL -/

/-- What the loops of `SepAnalyzeAcesFromDacl` do not change. -/
structure Analysis where
  token : Token
  isTokenRestricted : Bool
  principalSelfSid : Option Sid
  genericMapping : GenericMapping
  useResultList : Bool

/-- What they change. -/
structure CheckState where
  rights : AccessCheckRights
  objects : List ObjectType
  deriving DecidableEq, Repr

namespace Analysis

variable (x : Analysis)

/-- Whether the entry is one for the token. -/
def holds (a : Ace) (deny : Bool) : Bool :=
  sepSidInTokenEx x.token x.principalSelfSid a.sid deny x.isTokenRestricted

/-- An entry under `AccessCheckMaximum`. -/
def maximumStep (s : CheckState) (a : Ace) : CheckState :=
  if a.inheritOnly then s
  else
    let access := a.access x.genericMapping
    match a.aceType with
    | .accessDenied => if x.holds a true then { s with rights := s.rights.deny access } else s
    | .accessAllowed => if x.holds a false then { s with rights := s.rights.allow access } else s
    | .accessDeniedObject =>
      let guid := sepGetObjectTypeGuidFromAce a
      if x.holds a true then
        if s.objects = [] then { s with rights := s.rights.deny access }
        else if !x.useResultList then
          { s with objects := (sepDenyAccessObjectTypeList s.objects access guid).1 }
        else { s with objects := sepDenyAccessObjectTypeResultList s.objects access guid }
      else s
    | .accessAllowedObject =>
      let guid := sepGetObjectTypeGuidFromAce a
      if x.holds a false then
        if s.objects = [] then { s with rights := s.rights.allow access }
        else if !x.useResultList then
          { s with objects := sepAllowAccessObjectTypeList s.objects access false guid }
        else { s with objects := sepAllowAccessObjectTypeResultList s.objects access guid }
      else s
    | .unsupported _ => s

/-- The request is refused: the rights are tracked, and the loop ends. -/
def refute (s : CheckState) (access : AccessMask) : CheckState × Bool :=
  if s.rights.remaining &&& access ≠ 0 then
    ({ s with rights := { s.rights with denied := s.rights.denied ||| access } }, true)
  else (s, false)

/-- Rights are taken out of those that remain, and tracked. -/
def concede (s : CheckState) (access : AccessMask) : CheckState :=
  { s with rights :=
    { s.rights with
      remaining := s.rights.remaining &&& ~~~access, granted := s.rights.granted ||| access } }

/-- An entry under `AccessCheckRegular`, and whether the loop ends with it. -/
def regularStep (s : CheckState) (a : Ace) : CheckState × Bool :=
  if a.inheritOnly then (s, false)
  else
    let access := a.access x.genericMapping
    match a.aceType with
    | .accessDenied => if x.holds a true then refute s access else (s, false)
    | .accessAllowed => if x.holds a false then (concede s access, false) else (s, false)
    | .accessDeniedObject =>
      let guid := sepGetObjectTypeGuidFromAce a
      if x.holds a true then
        if s.objects = [] then refute s access
        else
          let (objects, breakOnDeny) := sepDenyAccessObjectTypeList s.objects access guid
          ({ s with objects := objects }, breakOnDeny)
      else (s, false)
    | .accessAllowedObject =>
      let guid := sepGetObjectTypeGuidFromAce a
      if x.holds a false then
        if s.objects = [] then (concede s access, false)
        else
          ({ s with objects := sepAllowAccessObjectTypeList s.objects access true guid }, false)
      else (s, false)
    | .unsupported _ => (s, false)

def regularLoop : List Ace → CheckState → CheckState
  | [], s => s
  | a :: as, s =>
    let (s, stop) := x.regularStep s a
    if stop then s else regularLoop as s

/-- `SepAnalyzeAcesFromDacl` with `AccessCheckMaximum`. -/
def maximum (dacl : List Ace) (s : CheckState) : CheckState := dacl.foldl x.maximumStep s

/-- `SepAnalyzeAcesFromDacl` with `AccessCheckRegular`. -/
def regular (remainingAccess : AccessMask) (dacl : List Ace) (s : CheckState) : CheckState :=
  x.regularLoop dacl
    { rights := { s.rights with remaining := remainingAccess }
      objects := s.objects.map (·.update fun r => { r with remaining := remainingAccess }) }

end Analysis

/-! ## Section 5: The worker -/

/-- The arguments of `SepAccessCheckWorker`.  A list of objects starts without rights, and results
    are not asked for without a list: `SepAccessCheck` refuses that. -/
structure AccessCheck where
  securityDescriptor : SecurityDescriptor
  clientAccessToken : Option Token
  primaryAccessToken : Token
  principalSelfSid : Option Sid
  desiredAccess : AccessMask
  objectTypeList : List ObjectType
  previouslyGrantedAccess : AccessMask
  genericMapping : GenericMapping
  accessMode : Mode
  useResultList : Bool
  privilegeSet : Option Bool
  fresh : ∀ o ∈ objectTypeList, o.rights = ⟨0, 0, 0⟩
  results : useResultList = true → objectTypeList ≠ []

theorem fresh_nil (o : ObjectType) (ho : o ∈ []) : o.rights = ⟨0, 0, 0⟩ :=
  absurd ho List.not_mem_nil

/-- What the worker gives back: the status, and the two lists, which stay empty where nothing is
    written to them. -/
structure CheckResult where
  status : NtStatus
  grantedAccessList : List AccessMask
  accessStatusList : List NtStatus
  deriving DecidableEq, Repr

namespace AccessCheck

variable (c : AccessCheck)

def token : Token := c.clientAccessToken.getD c.primaryAccessToken

def analysis (restricted : Bool) : Analysis where
  token := c.token
  isTokenRestricted := restricted
  principalSelfSid := c.principalSelfSid
  genericMapping := c.genericMapping
  useResultList := c.useResultList

def start : CheckState := ⟨⟨0, 0, 0⟩, c.objectTypeList⟩

/-- `ReturnCommonStatus`. -/
def commonStatus (status : NtStatus) (previouslyGranted : AccessMask) : CheckResult :=
  if c.useResultList then ⟨status, [], []⟩ else ⟨status, [previouslyGranted], [status]⟩

/-- The end of both ways to ask for the maximum: fail if some rights have not been granted, or if
    none has. -/
def maximumStatus (remaining previouslyGranted granted : AccessMask) : CheckResult :=
  if remaining &&& ~~~(maximumAllowed ||| granted) ≠ 0 then c.commonStatus .accessDenied 0
  else
    let previouslyGranted := previouslyGranted ||| granted
    c.commonStatus (if previouslyGranted ≠ 0 then .success else .accessDenied) previouslyGranted

/-- The rights and the status of one object, for a list of results. -/
def objectResult (wanted mask previouslyGranted : AccessMask) (o : ObjectType) :
    AccessMask × NtStatus :=
  let granted := (o.rights.granted ||| previouslyGranted) &&& mask
  (granted, if granted ≠ 0 ∧ ~~~granted &&& wanted = 0 then .success else .accessDenied)

/-- The part of the worker that asks for the maximum or for a list of results. -/
def maximumCheck (desired remaining previouslyGranted : AccessMask) (dacl : List Ace) :
    CheckResult :=
  let s := (c.analysis false).maximum dacl c.start
  let s := if seTokenIsRestricted c.token then (c.analysis true).maximum dacl s else s
  if c.objectTypeList = [] then c.maximumStatus remaining previouslyGranted s.rights.granted
  else if !c.useResultList then
    c.maximumStatus remaining previouslyGranted
      (s.objects.foldl (fun granted o => granted ||| o.rights.granted) 0)
  else
    let (wanted, mask) :=
      if desired &&& maximumAllowed ≠ 0 then
        ((desired ||| previouslyGranted) &&& ~~~maximumAllowed, ~~~maximumAllowed)
      else (desired ||| previouslyGranted, desired ||| previouslyGranted)
    let results := s.objects.map (objectResult wanted mask previouslyGranted)
    ⟨if results.any (·.2 = .accessDenied) then .accessDenied else .success,
      results.map (·.1), results.map (·.2)⟩

/-- Whether a regular pass grants the access: without a list no right remains, with a list none
    remains of some object. -/
def passes (s : CheckState) : Bool :=
  if c.objectTypeList = [] then s.rights.remaining = 0
  else s.objects.any fun o => o.rights.remaining = 0

/-- The part of the worker that asks for named rights. -/
def regularCheck (desired remaining previouslyGranted : AccessMask) (dacl : List Ace) :
    CheckResult :=
  let s := (c.analysis false).regular remaining dacl c.start
  if !c.passes s then c.commonStatus .accessDenied 0
  else if seTokenIsRestricted c.token && !c.passes ((c.analysis true).regular remaining dacl s) then
    c.commonStatus .accessDenied 0
  else
    let previouslyGranted := previouslyGranted ||| desired
    c.commonStatus (if previouslyGranted = 0 then .accessDenied else .success) previouslyGranted

/-- The worker from the descriptor's DACL on. -/
def daclCheck (desired remaining previouslyGranted : AccessMask) : CheckResult :=
  if c.securityDescriptor.revision ≠ 1 then c.commonStatus .unknownRevision previouslyGranted
  else
    match c.securityDescriptor.dacl with
    | none | some none =>
      let granted := previouslyGranted ||| remaining
      c.commonStatus .success
        (if remaining &&& maximumAllowed ≠ 0 then
          (granted &&& ~~~maximumAllowed) ||| c.genericMapping.all
        else granted)
    | some (some []) =>
      if remaining = maximumAllowed ∧ previouslyGranted ≠ 0 then
        c.commonStatus .success previouslyGranted
      else c.commonStatus .accessDenied 0
    | some (some dacl) =>
      if desired &&& maximumAllowed ≠ 0 ∨ c.useResultList then
        c.maximumCheck desired remaining previouslyGranted dacl
      else c.regularCheck desired remaining previouslyGranted dacl

/-- The rights that are asked for, with the generic ones mapped. -/
def mappedDesired : AccessMask := rtlMapGenericMask c.desiredAccess c.genericMapping

def mappedGranted : AccessMask :=
  if c.previouslyGrantedAccess ≠ 0 then
    rtlMapGenericMask c.previouslyGrantedAccess c.genericMapping
  else c.previouslyGrantedAccess

def policy : Policy :=
  sePrivilegePolicyCheck c.mappedDesired c.mappedGranted c.token c.privilegeSet c.accessMode

def sepAccessCheckWorker : CheckResult :=
  if c.desiredAccess = 0 then
    if c.previouslyGrantedAccess = 0 then c.commonStatus .accessDenied 0
    else c.commonStatus .success c.previouslyGrantedAccess
  else
    let ⟨status, remaining, granted⟩ := c.policy
    if status ≠ .success then c.commonStatus status granted
    else if remaining = 0 then c.commonStatus .success granted
    else if c.genericMapping.IsEmpty then
      if seTokenIsAdmin c.token then c.commonStatus .success (granted ||| remaining)
      else c.commonStatus .accessDenied 0
    else c.daclCheck c.mappedDesired remaining granted

/-- The worker returns `NT_SUCCESS(Status)`. -/
def succeeds : Prop := c.sepAccessCheckWorker.status = .success

instance : Decidable c.succeeds := by
  unfold succeeds
  infer_instance

end AccessCheck

end Se
