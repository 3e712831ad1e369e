import ReactOS.Se.Decision

/-! # The shortcut for traversals

    `SeFastTraverseCheck` looks for an entry that allows the World SID, and gives up at one that
    denies anything that is asked for.  `SeAccessCheck` is the check it saves.

    The shortcut takes an entry that has any of the rights for one that has all of them, does not
    map the generic rights of the entries, and does not ask for what else the check asks for.  What
    it finds is one right that is allowed. -/

namespace Se

open FirstMatch AccessCheck
open BitVec hiding or_self not_or

/-! ## Section 1: The two checks -/

/-- The loop of `SeFastTraverseCheck`. -/
def fastTraverseLoop (desired : AccessMask) : List Ace → Bool
  | [] => false
  | a :: as =>
    if a.inheritOnly then fastTraverseLoop desired as
    else
      match a.aceType with
      | .accessAllowed =>
        if a.accessMask &&& desired = 0 then fastTraverseLoop desired as
        else if worldSid = a.sid then true
        else fastTraverseLoop desired as
      | .accessDenied =>
        if a.accessMask &&& desired ≠ 0 then false else fastTraverseLoop desired as
      | _ => fastTraverseLoop desired as

/-- `SeFastTraverseCheck`, with `TOKEN_IS_RESTRICTED` of the access state. -/
def seFastTraverseCheck (sd : SecurityDescriptor) (isRestricted : Bool) (desired : AccessMask) :
    Bool :=
  match sd.dacl with
  | none | some none => true
  | some (some dacl) => dacl ≠ [] && !isRestricted && fastTraverseLoop desired dacl

/-- The arguments of `SeAccessCheck`. -/
structure SubjectCheck where
  securityDescriptor : SecurityDescriptor
  clientToken : Option Token
  impersonationLevel : Nat
  primaryToken : Token
  desiredAccess : AccessMask
  previouslyGrantedAccess : AccessMask
  genericMapping : GenericMapping
  accessMode : Mode
  privilegeSet : Option Bool
  /-- what `SepTokenIsOwner` says -/
  isOwner : Bool

/-- `WRITE_DAC | READ_CONTROL` -/
def ownerRights : AccessMask := 0x00060000#32

namespace SubjectCheck

variable (c : SubjectCheck)

def worker (desired previouslyGranted : AccessMask) : AccessCheck where
  securityDescriptor := c.securityDescriptor
  clientAccessToken := c.clientToken
  primaryAccessToken := c.primaryToken
  principalSelfSid := none
  desiredAccess := desired
  objectTypeList := []
  previouslyGrantedAccess := previouslyGranted
  genericMapping := c.genericMapping
  accessMode := c.accessMode
  useResultList := false
  privilegeSet := c.privilegeSet
  fresh := fresh_nil
  results := by simp

/-- `SeAccessCheck`: the granted access, if it returns `TRUE`. -/
def seAccessCheck : Option AccessMask :=
  let desired := c.desiredAccess
  let previous := c.previouslyGrantedAccess
  let wantsMaximum := desired &&& maximumAllowed ≠ 0
  if c.accessMode = .kernel then
    some (if wantsMaximum then c.genericMapping.all ||| (desired &&& ~~~maximumAllowed) ||| previous
      else desired ||| previous)
  else if c.clientToken.isSome ∧ c.impersonationLevel < 2 then none
  else
    let owns := desired &&& (ownerRights ||| maximumAllowed) ≠ 0 ∧ c.isOwner
    let previous :=
      if owns then previous ||| (if wantsMaximum then ownerRights else desired &&& ownerRights)
      else previous
    let desired := if owns then desired &&& ~~~ownerRights else desired
    if desired = 0 then if previous = 0 then none else some previous
    else
      let result := (c.worker desired previous).sepAccessCheckWorker
      if result.status = .success then some (result.grantedAccessList.headD 0) else none

def token : Token := c.clientToken.getD c.primaryToken

/-- What the shortcut is for: a token that is not restricted and has the World SID enabled, a
    DACL of plain entries, and a request without generic rights and `MAXIMUM_ALLOWED`. -/
structure Traverses (dacl : List Ace) : Prop where
  user : c.accessMode = .user
  unrestricted : seTokenIsRestricted c.token = false
  world : ∃ e, c.token.userAndGroups.find? (·.sid = worldSid) = some e ∧ e.enabled = true
  present : c.securityDescriptor.dacl = some (some dacl)
  plain : ∀ a ∈ dacl, a.aceType = .accessAllowed ∨ a.aceType = .accessDenied
  named : c.desiredAccess &&& (genericAccess ||| maximumAllowed) = 0
  asks : c.desiredAccess ≠ 0

/-- The owner of the object asks for rights that need no look at the DACL. -/
def Owns : Prop := c.desiredAccess &&& ownerRights ≠ 0 ∧ c.isOwner

instance : Decidable c.Owns := by
  unfold Owns
  infer_instance

/-- The check for the other rights. -/
def rest : AccessCheck :=
  c.worker (if c.Owns then c.desiredAccess &&& ~~~ownerRights else c.desiredAccess)
    (if c.Owns then c.previouslyGrantedAccess ||| (c.desiredAccess &&& ownerRights)
      else c.previouslyGrantedAccess)

/-- If the privileges leave some right, an administrator asks for it, or there is a mapping with a
    descriptor of the known revision and entries that allow what is left. -/
def RestPasses (dacl : List Ace) : Prop :=
  c.rest.policy.status = .success ∧
    (c.rest.policy.desired = 0 ∨
      if c.genericMapping.IsEmpty then seTokenIsAdmin c.token = true
      else c.securityDescriptor.revision = 1 ∧
        ∀ r, c.rest.policy.desired.getLsbD r = true → c.rest.Allowed dacl false r)

/-- What the check asks for besides the shortcut: a level of impersonation, and that the rights
    which the owner does not have pass. -/
def Grants (dacl : List Ace) : Prop :=
  ¬ (c.clientToken.isSome ∧ c.impersonationLevel < 2) ∧
    (c.rest.desiredAccess = 0 ∨ c.RestPasses dacl)

/-- The shortcut, asked about this check. -/
def Shortcut : Prop :=
  seFastTraverseCheck c.securityDescriptor (seTokenIsRestricted c.token) c.desiredAccess = true

instance : Decidable c.Shortcut := by
  unfold Shortcut
  infer_instance

end SubjectCheck

/-! ## Section 2: What the shortcut looks at -/

theorem sidLoop_find {sid : Sid} {es : List SidAndAttributes} {e : SidAndAttributes}
    (h : es.find? (·.sid = sid) = some e) (he : e.enabled = true) (n : Nat) :
    sidLoop sid false false n es = true := by
  induction es generalizing n with
  | nil => cases h
  | cons e' es ih =>
    rw [sidLoop]
    by_cases hsid : e'.sid = sid
    · rw [List.find?_cons_of_pos (by simpa using hsid)] at h
      cases h
      simp [hsid, he]
    · rw [List.find?_cons_of_neg (by simpa using hsid)] at h
      rw [if_neg hsid]
      exact ih h (n + 1)

/-- Some right that is asked for is allowed: one of the entry that the shortcut stops at. -/
theorem fastTraverseLoop_decides (x : Analysis) {desired : AccessMask} {dacl : List Ace}
    (hworld : ∀ a : Ace, a.sid = worldSid → x.holds a false = true)
    (hplain : ∀ a ∈ dacl, a.aceType = .accessAllowed ∨ a.aceType = .accessDenied)
    (hgeneric : ∀ a ∈ dacl, a.accessMask &&& genericAccess = 0)
    (h : fastTraverseLoop desired dacl = true) :
    ∃ r, desired.getLsbD r = true ∧ FirstDecided x.Held x.genericMapping dacl r true := by
  induction dacl with
  | nil => cases h
  | cons a dacl ih =>
    have ih := ih (fun b hb => hplain b (List.mem_cons_of_mem a hb))
      fun b hb => hgeneric b (List.mem_cons_of_mem a hb)
    have haccess : a.access x.genericMapping = a.accessMask :=
      if_neg (not_not.2 (hgeneric a List.mem_cons_self))
    rw [fastTraverseLoop] at h
    by_cases hinherit : a.inheritOnly = true
    · rw [if_pos hinherit] at h
      obtain ⟨r, hr, hfirst⟩ := ih h
      exact ⟨r, hr, (firstDecided_cons_of_not fun hd => by simp [hd.active] at hinherit).2 hfirst⟩
    rw [if_neg hinherit] at h
    rcases hplain a List.mem_cons_self with htype | htype
    · have hallow : a.isAllow = true := by simp [Ace.isAllow, htype]
      by_cases hstop : a.accessMask &&& desired ≠ 0 ∧ worldSid = a.sid
      · obtain ⟨r, hmask, hr⟩ := and_ne_zero_iff.1 hstop.1
        exact ⟨r, hr, (firstDecided_cons_of_decides ⟨by simpa using hinherit,
          .inl ⟨hallow, hworld a hstop.2.symm⟩, haccess ▸ hmask⟩).2 hallow⟩
      -- whoever the entry is for, it does not deny a right
      obtain ⟨r, hr, hfirst⟩ := ih (by
        simp only [htype] at h
        split at h
        · exact h
        · rename_i hmask
          rwa [if_neg fun hsid => hstop ⟨hmask, hsid⟩] at h)
      refine ⟨r, hr, ?_⟩
      by_cases hd : Decides x.Held x.genericMapping r a
      · exact (firstDecided_cons_of_decides hd).2 hallow
      · exact (firstDecided_cons_of_not hd).2 hfirst
    · simp only [htype] at h
      split at h
      · cases h
      rename_i hmask
      obtain ⟨r, hr, hfirst⟩ := ih h
      refine ⟨r, hr, (firstDecided_cons_of_not fun hd => hmask ?_).2 hfirst⟩
      exact and_ne_zero_iff.2 ⟨r, haccess ▸ hd.right, hr⟩

/-! ## Section 3: When the shortcut is sound -/

namespace SubjectCheck.Traverses

variable {c : SubjectCheck} {dacl : List Ace} (h : c.Traverses dacl)

include h

theorem holds_world (a : Ace) (ha : a.sid = worldSid) :
    (c.rest.analysis false).holds a false = true := by
  obtain ⟨e, hfind, he⟩ := h.world
  show sidLoop a.sid false false 0 c.token.userAndGroups = true
  rw [ha]
  exact sidLoop_find hfind he 0

/-- No right that is asked for is generic or `MAXIMUM_ALLOWED`. -/
theorem rest_mapped : c.rest.mappedDesired = c.rest.desiredAccess ∧
    c.desiredAccess &&& maximumAllowed = 0 ∧ c.rest.mappedDesired &&& maximumAllowed = 0 := by
  have hno : ∀ part : AccessMask, part &&& ~~~(genericAccess ||| maximumAllowed) = 0#32 →
      c.desiredAccess &&& part = 0 ∧ c.rest.desiredAccess &&& part = 0 := by
    intro part hpart
    have hnone := and_eq_zero_of_part h.named hpart
    refine ⟨hnone, ?_⟩
    show (if c.Owns then c.desiredAccess &&& ~~~ownerRights else c.desiredAccess) &&& part = 0
    split
    · rw [BitVec.and_assoc, BitVec.and_comm (~~~ownerRights), ← BitVec.and_assoc, hnone]
      exact BitVec.zero_and
    · exact hnone
  have hmapped : c.rest.mappedDesired = c.rest.desiredAccess :=
    rtlMapGenericMask_eq _ (hno genericAccess (by decide)).2
  rw [hmapped]
  exact ⟨rfl, hno maximumAllowed (by decide)⟩

section Rest

variable (hzero : c.rest.desiredAccess ≠ 0) (hne : dacl ≠ [])

include hzero hne

/-- The check of the rights that the owner does not have. -/
theorem rest_succeeds_iff : c.rest.succeeds ↔ c.RestPasses dacl := by
  obtain ⟨-, -, hmax⟩ := h.rest_mapped
  rw [RestPasses]
  by_cases hregular : ¬ c.genericMapping.IsEmpty ∧ c.securityDescriptor.revision = 1
  · rw [c.rest.succeeds_iff (by rw [← hregular.2, ← h.present]; rfl) hne hregular.1 hzero hmax rfl,
      if_neg hregular.1]
    have hres : ¬ seTokenIsRestricted c.rest.token = true := Bool.eq_false_iff.1 h.unrestricted
    refine and_congr_right fun _ => ⟨fun hall => .inr ⟨hregular.2, fun r hr => (hall r hr).1⟩, ?_⟩
    rintro (hnone | ⟨-, hall⟩) r hr
    · simp [hnone] at hr
    · exact ⟨hall r hr, fun h => absurd h hres⟩
  rw [AccessCheck.succeeds, c.rest.worker_eq hzero]
  by_cases hstatus : c.rest.policy.status = .success
  swap
  · simp [hstatus]
  by_cases hrem : c.rest.policy.desired = 0
  · simp [hstatus, hrem]
  rw [if_neg (not_not.2 hstatus), if_neg hrem]
  by_cases hmap : c.genericMapping.IsEmpty
  · rw [if_pos (show c.rest.genericMapping.IsEmpty from hmap), if_pos hmap]
    cases hadmin : seTokenIsAdmin c.token with
    | true => simp [show seTokenIsAdmin c.rest.token = true from hadmin, hstatus]
    | false =>
      simp only [show seTokenIsAdmin c.rest.token = false from hadmin, hrem]
      simp
  · have hrev : c.securityDescriptor.revision ≠ 1 := fun hrev => hregular ⟨hmap, hrev⟩
    rw [if_neg (show ¬ c.rest.genericMapping.IsEmpty from hmap), daclCheck,
      if_pos (show c.rest.securityDescriptor.revision ≠ 1 from hrev)]
    simpa [hmap, hrev] using fun _ => hrem

/-- If it succeeds it grants what is asked for and what was granted before. -/
theorem rest_granted (hsucceeds : c.rest.succeeds) {r : Nat}
    (hr : c.rest.desiredAccess.getLsbD r = true ∨ c.rest.policy.granted.getLsbD r = true) :
    (c.rest.sepAccessCheckWorker.grantedAccessList.headD 0).getLsbD r = true := by
  obtain ⟨hmapped, -, hmax⟩ := h.rest_mapped
  have hr : c.rest.policy.granted.getLsbD r = true ∨ c.rest.policy.desired.getLsbD r = true := by
    rw [← hmapped] at hr
    exact hr.elim (fun hr => (c.rest.policy_desired_or_granted hr).symm) .inl
  have hle := c.rest.policy_desired_le r
  have hhead : ∀ granted, ((c.rest.commonStatus .success granted).grantedAccessList.headD 0) =
      granted := fun _ => rfl
  -- each way of the worker that succeeds grants what it leaves open
  rw [AccessCheck.succeeds, c.rest.worker_eq hzero] at hsucceeds
  rw [c.rest.worker_eq hzero]
  by_cases hstatus : c.rest.policy.status ≠ .success
  · rw [if_pos hstatus, commonStatus_status] at hsucceeds
    exact absurd hsucceeds hstatus
  rw [if_neg hstatus] at hsucceeds ⊢
  by_cases hrem : c.rest.policy.desired = 0
  · rw [if_pos hrem, hhead]
    exact hr.resolve_right (by simp [hrem])
  rw [if_neg hrem] at hsucceeds ⊢
  by_cases hmap : c.rest.genericMapping.IsEmpty
  · rw [if_pos hmap] at hsucceeds ⊢
    split
    · rw [hhead, getLsbD_or, Bool.or_eq_true]
      exact hr
    · rename_i hadmin
      simp [hadmin] at hsucceeds
  rw [if_neg hmap] at hsucceeds ⊢
  obtain ⟨a, as, rfl⟩ := List.exists_cons_of_ne_nil hne
  have hdacl : c.rest.securityDescriptor.dacl = some (some (a :: as)) := h.present
  unfold daclCheck at hsucceeds ⊢
  split at hsucceeds
  · simp at hsucceeds
  rename_i hrev
  rw [if_neg hrev]
  simp only [hdacl, hmax, show c.rest.useResultList = false from rfl, ne_eq, not_true_eq_false,
    Bool.false_eq_true, or_self, if_false, regularCheck] at hsucceeds ⊢
  split at hsucceeds
  · simp at hsucceeds
  split at hsucceeds
  · simp at hsucceeds
  rename_i hfirst hsecond
  rw [if_neg hfirst, if_neg hsecond]
  rw [commonStatus_status] at hsucceeds
  rw [hsucceeds, hhead, getLsbD_or, Bool.or_eq_true]
  exact hr.imp_right hle

end Rest

end SubjectCheck.Traverses

namespace SubjectCheck

variable {c : SubjectCheck} {dacl : List Ace}

/-- The check of the subject is that of the rights which the owner does not have. -/
theorem seAccessCheck_eq (huser : c.accessMode = .user)
    (hmax : c.desiredAccess &&& maximumAllowed = 0) :
    c.seAccessCheck =
      if c.clientToken.isSome ∧ c.impersonationLevel < 2 then none
      else if c.rest.desiredAccess = 0 then
        if c.rest.previouslyGrantedAccess = 0 then none else some c.rest.previouslyGrantedAccess
      else if c.rest.succeeds then some (c.rest.sepAccessCheckWorker.grantedAccessList.headD 0)
      else none := by
  have howns : c.desiredAccess &&& (ownerRights ||| maximumAllowed) =
      c.desiredAccess &&& ownerRights := by
    rw [and_or_distrib_left, hmax]
    simp
  simp only [seAccessCheck, huser, howns, hmax, ne_eq, not_true_eq_false, if_false, reduceCtorEq]
  rfl

theorem getLsbD_rtlMapGenericMask {mask : AccessMask} {mapping : GenericMapping} {r : Nat}
    (hr : mask.getLsbD r = true) (hno : genericAccess.getLsbD r = false) :
    (rtlMapGenericMask mask mapping).getLsbD r = true := by
  have hadd : ∀ (p : Prop) [Decidable p] (m part : AccessMask), m.getLsbD r = true →
      (if p then m ||| part else m).getLsbD r = true := by
    intro p _ m part hm
    split
    · simp [hm]
    · exact hm
  rw [rtlMapGenericMask, getLsbD_and_not, hno, Bool.not_false, Bool.and_true]
  exact hadd _ _ _ (hadd _ _ _ (hadd _ _ _ (hadd _ _ _ hr)))

/-- A right that is asked for is left to the check, or the owner has it. -/
theorem desired_split {r : Nat} (hr : c.desiredAccess.getLsbD r = true) :
    c.rest.desiredAccess.getLsbD r = true ∨
      c.rest.previouslyGrantedAccess.getLsbD r = true ∧ c.rest.policy.granted.getLsbD r = true := by
  by_cases howns : c.Owns
  swap
  · left
    show (if c.Owns then _ else _ : AccessMask).getLsbD r = true
    rwa [if_neg howns]
  have hdesired : c.rest.desiredAccess = c.desiredAccess &&& ~~~ownerRights := if_pos howns
  have hprevious : c.rest.previouslyGrantedAccess =
      c.previouslyGrantedAccess ||| (c.desiredAccess &&& ownerRights) := if_pos howns
  rw [hdesired, getLsbD_and_not, hr, Bool.true_and, Bool.not_eq_true']
  refine or_iff_not_imp_left.2 fun howner => ?_
  rw [Bool.not_eq_false] at howner
  have hprev : c.rest.previouslyGrantedAccess.getLsbD r = true := by
    rw [hprevious, getLsbD_or, getLsbD_and, hr, howner, Bool.and_self, Bool.or_true]
  -- No right of the owner is generic, so the mapping keeps it.
  have hno : genericAccess.getLsbD r = false := by
    by_contra hgeneric
    exact and_ne_zero_iff.2 ⟨r, howner, by simpa using hgeneric⟩
      (show ownerRights &&& genericAccess = 0#32 by decide)
  have hgranted : c.rest.mappedGranted.getLsbD r = true := by
    unfold mappedGranted
    split
    · exact getLsbD_rtlMapGenericMask hprev hno
    · exact hprev
  refine ⟨hprev, ?_⟩
  unfold AccessCheck.policy sePrivilegePolicyCheck
  split
  · exact hgranted
  · simp only [getLsbD_or, hgranted, Bool.true_or]

end SubjectCheck

/-- A check of a member of World under the mapping of files. -/
def traverseCheck (dacl : List Ace) (desired : AccessMask) : SubjectCheck :=
  ⟨⟨1, some (some dacl)⟩, none, 0, aliceToken, desired, 0, fileMapping, .user, none, false⟩

def allowWorld (mask : AccessMask) : Ace := ⟨.accessAllowed, 0, mask, worldSid, 0, 0⟩

def denyWorld (mask : AccessMask) : Ace := ⟨.accessDenied, 0, mask, worldSid, 0, 0⟩

/-- `FILE_TRAVERSE` and `FILE_LIST_DIRECTORY`, each allowed by an entry of its own. -/
def twoRights : SubjectCheck :=
  traverseCheck [denyWorld 2, allowAlice 1, allowWorld 0x20] 0x21

end Se
