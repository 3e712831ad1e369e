import ReactOS.Se.AccessCheck

/-! # The first decisive entry

    An access check is decided right by right: by the first entry of the DACL that is not there for
    inheritance only, whose SID the token holds and whose mask has the right.  A restricted token
    has to pass a second time with its restricted SIDs.

    A request for named rights keeps to this.  A request for `MAXIMUM_ALLOWED` does so for a token
    that is not restricted; for a restricted one its second pass goes on with the rights of the
    first, and adds to them what the restricted SIDs are allowed. -/

namespace Se

open FirstMatch List
open BitVec hiding not_not

/-! ## Section 1: The first decisive entry -/

variable {held : Ace → Prop} {mapping : GenericMapping} {dacl : List Ace} {r : Nat} {v : Bool}
  {a : Ace} {s : CheckState}

/-- An entry that decides about the right `r`, for a token that holds what `held` says. -/
structure Decides (held : Ace → Prop) (mapping : GenericMapping) (r : Nat) (a : Ace) : Prop where
  active : a.inheritOnly = false
  held : held a
  right : (a.access mapping).getLsbD r = true

/-- The first entry that decides about `r` allows it, or denies it. -/
def FirstDecided (held : Ace → Prop) (mapping : GenericMapping) (dacl : List Ace) (r : Nat)
    (allow : Bool) : Prop :=
  ∃ before a after, dacl = before ++ a :: after ∧ (∀ b ∈ before, ¬ Decides held mapping r b) ∧
    Decides held mapping r a ∧ a.isAllow = allow

theorem FirstDecided.congr {held' : Ace → Prop} (h : ∀ a ∈ dacl, (held a ↔ held' a)) :
    FirstDecided held mapping dacl r v ↔ FirstDecided held' mapping dacl r v := by
  have hdecides : ∀ a ∈ dacl, (Decides held mapping r a ↔ Decides held' mapping r a) := by
    intro a ha
    exact ⟨fun hd => ⟨hd.active, (h a ha).1 hd.held, hd.right⟩,
      fun hd => ⟨hd.active, (h a ha).2 hd.held, hd.right⟩⟩
  refine exists_congr fun before => exists_congr fun a => exists_congr fun after =>
    and_congr_right ?_
  rintro rfl
  exact and_congr (forall₂_congr fun b hb => not_congr (hdecides b (by simp [hb])))
    (and_congr_left' (hdecides a (by simp)))

theorem firstDecided_nil : ¬ FirstDecided held mapping [] r v := by
  rintro ⟨before, a, after, h, -⟩
  cases before with
  | nil => cases h
  | cons b before => cases h

theorem firstDecided_cons_of_decides (ha : Decides held mapping r a) :
    FirstDecided held mapping (a :: dacl) r v ↔ a.isAllow = v := by
  constructor
  · rintro ⟨before, b, after, h, hbefore, -, hv⟩
    cases before with
    | nil =>
      obtain ⟨rfl, -⟩ := cons.inj h
      exact hv
    | cons b' before =>
      obtain ⟨rfl, -⟩ := cons.inj h
      exact absurd ha (hbefore _ (mem_cons_self ..))
  · intro hv
    exact ⟨[], a, dacl, rfl, fun b hb => absurd hb (not_mem_nil), ha, hv⟩

theorem firstDecided_cons_of_not (ha : ¬ Decides held mapping r a) :
    FirstDecided held mapping (a :: dacl) r v ↔ FirstDecided held mapping dacl r v := by
  constructor
  · rintro ⟨before, b, after, h, hbefore, hb, hv⟩
    cases before with
    | nil =>
      obtain ⟨rfl, -⟩ := cons.inj h
      exact absurd hb ha
    | cons b' before =>
      obtain ⟨-, rfl⟩ := cons.inj h
      exact ⟨before, b, after, rfl, fun e he => hbefore e (mem_cons_of_mem _ he), hb, hv⟩
  · rintro ⟨before, b, after, rfl, hbefore, hb, hv⟩
    exact ⟨a :: before, b, after, rfl, forall_mem_cons.2 ⟨ha, hbefore⟩, hb, hv⟩

/-- One more entry can only give its own verdict. -/
theorem firstDecided_insert (before after : List Ace) :
    (a.isAllow = v → FirstDecided held mapping (before ++ after) r v →
      FirstDecided held mapping (before ++ a :: after) r v) ∧
    (a.isAllow ≠ v → FirstDecided held mapping (before ++ a :: after) r v →
      FirstDecided held mapping (before ++ after) r v) := by
  induction before with
  | nil =>
    rw [nil_append, nil_append]
    by_cases ha : Decides held mapping r a
    · rw [firstDecided_cons_of_decides ha]
      exact ⟨fun hv _ => hv, fun hv h => absurd h hv⟩
    · rw [firstDecided_cons_of_not ha]
      exact ⟨fun _ h => h, fun _ h => h⟩
  | cons b before ih =>
    rw [List.cons_append, List.cons_append]
    by_cases hb : Decides held mapping r b
    · rw [firstDecided_cons_of_decides hb, firstDecided_cons_of_decides hb]
      exact ⟨fun _ h => h, fun _ h => h⟩
    · rw [firstDecided_cons_of_not hb, firstDecided_cons_of_not hb]
      exact ih

namespace Analysis

variable (x : Analysis)

/-- The token of the analysis holds the SID of the entry. -/
def Held (a : Ace) : Prop :=
  a.isAllow = true ∧ x.holds a false = true ∨ a.isDeny = true ∧ x.holds a true = true

instance (a : Ace) : Decidable (x.Held a) := by
  unfold Held
  infer_instance

/-- An entry as a rule about rights. -/
def rule (a : Ace) : Option (Rule 32) :=
  if a.inheritOnly = false ∧ x.Held a then some ⟨a.isAllow, a.access x.genericMapping⟩ else none

def rules (dacl : List Ace) : List (Rule 32) := dacl.filterMap x.rule

/-- The verdict about a right is that of the first entry that decides about it. -/
theorem verdict_rules (dacl : List Ace) (r : Nat) (v : Bool) :
    verdict (x.rules dacl) r = some v ↔ FirstDecided x.Held x.genericMapping dacl r v := by
  induction dacl with
  | nil =>
    have hno : ¬ FirstDecided x.Held x.genericMapping [] r v := firstDecided_nil
    simp [rules, verdict, hno]
  | cons a dacl ih =>
    by_cases hcount : a.inheritOnly = false ∧ x.Held a
    · have hrules : x.rules (a :: dacl) =
          ⟨a.isAllow, a.access x.genericMapping⟩ :: x.rules dacl := by
        simp [rules, rule, hcount]
      by_cases hright : (a.access x.genericMapping).getLsbD r = true
      · rw [hrules, verdict, if_pos hright,
          firstDecided_cons_of_decides ⟨hcount.1, hcount.2, hright⟩, Option.some_inj]
      · rw [hrules, verdict, if_neg hright, ih,
          firstDecided_cons_of_not fun h => hright h.right]
    · have hrules : x.rules (a :: dacl) = x.rules dacl := by
        simp [rules, rule, hcount]
      rw [hrules, ih, firstDecided_cons_of_not fun h => hcount ⟨h.active, h.held⟩]

/-- The rule of an entry, by the type of the entry. -/
theorem rule_eq (ha : a.inheritOnly = false) : x.rule a =
      match a.aceType with
      | .accessAllowed | .accessAllowedObject =>
        if x.holds a false then some ⟨true, a.access x.genericMapping⟩ else none
      | .accessDenied | .accessDeniedObject =>
        if x.holds a true then some ⟨false, a.access x.genericMapping⟩ else none
      | .unsupported _ => none := by
  unfold rule Held
  cases htype : a.aceType with
  | accessAllowed => simp [ha, Ace.isAllow, Ace.isDeny, htype]
  | accessDenied => simp [ha, Ace.isAllow, Ace.isDeny, htype]
  | accessAllowedObject => simp [ha, Ace.isAllow, Ace.isDeny, htype]
  | accessDeniedObject => simp [ha, Ace.isAllow, Ace.isDeny, htype]
  | unsupported n => simp [Ace.isAllow, Ace.isDeny, htype]

/-- Without an object type list, an entry is its rule. -/
theorem maximumStep_eq (hs : s.objects = []) (a : Ace) : x.maximumStep s a =
      match x.rule a with
      | some rule =>
        { s with rights :=
          if rule.allow then s.rights.allow rule.mask else s.rights.deny rule.mask }
      | none => s := by
  cases hinherit : a.inheritOnly with
  | true => simp [maximumStep, rule, hinherit]
  | false =>
    rw [x.rule_eq hinherit]
    cases htype : a.aceType with
    | unsupported n => simp [maximumStep, hinherit, htype]
    | accessAllowed => cases hh : x.holds a false <;> simp [maximumStep, hinherit, htype, hh]
    | accessDenied => cases hh : x.holds a true <;> simp [maximumStep, hinherit, htype, hh]
    | accessAllowedObject =>
      cases hh : x.holds a false <;> simp [maximumStep, hinherit, htype, hh, hs]
    | accessDeniedObject =>
      cases hh : x.holds a true <;> simp [maximumStep, hinherit, htype, hh, hs]

theorem regularStep_eq (hs : s.objects = []) (a : Ace) : x.regularStep s a =
      match x.rule a with
      | some rule => if rule.allow then (concede s rule.mask, false) else refute s rule.mask
      | none => (s, false) := by
  cases hinherit : a.inheritOnly with
  | true => simp [regularStep, rule, hinherit]
  | false =>
    rw [x.rule_eq hinherit]
    cases htype : a.aceType with
    | unsupported n => simp [regularStep, hinherit, htype]
    | accessAllowed => cases hh : x.holds a false <;> simp [regularStep, hinherit, htype, hh]
    | accessDenied => cases hh : x.holds a true <;> simp [regularStep, hinherit, htype, hh]
    | accessAllowedObject =>
      cases hh : x.holds a false <;> simp [regularStep, hinherit, htype, hh, hs]
    | accessDeniedObject =>
      cases hh : x.holds a true <;> simp [regularStep, hinherit, htype, hh, hs]

theorem maximum_cons (a : Ace) (dacl : List Ace) (s : CheckState) :
    x.maximum (a :: dacl) s = x.maximum dacl (x.maximumStep s a) := rfl

theorem rules_cons_none (h : x.rule a = none) : x.rules (a :: dacl) = x.rules dacl := by
  simp [rules, h]

theorem rules_cons_some {rule : Rule 32} (h : x.rule a = some rule) :
    x.rules (a :: dacl) = rule :: x.rules dacl := by
  simp [rules, h]

/-- A pass for the maximum collects the rules of the entries. -/
theorem maximum_eq (dacl : List Ace) (s : CheckState) (hs : s.objects = []) :
    (x.maximum dacl s).objects = [] ∧
      ((x.maximum dacl s).rights.granted, (x.maximum dacl s).rights.denied) =
        collect (x.rules dacl) (s.rights.granted, s.rights.denied) := by
  induction dacl generalizing s with
  | nil => exact ⟨hs, rfl⟩
  | cons a dacl ih =>
    rw [maximum_cons, x.maximumStep_eq hs a]
    cases hrule : x.rule a with
    | none =>
      rw [x.rules_cons_none hrule]
      exact ih s hs
    | some rule =>
      rw [x.rules_cons_some hrule]
      obtain ⟨allow, mask⟩ := rule
      cases allow with
      | true => exact ih { s with rights := s.rights.allow mask } hs
      | false => exact ih { s with rights := s.rights.deny mask } hs

/-- A regular pass shrinks the rights that remain by the rules of the entries. -/
theorem regularLoop_eq (dacl : List Ace) (s : CheckState) (hs : s.objects = []) :
    (x.regularLoop dacl s).objects = [] ∧
      (x.regularLoop dacl s).rights.remaining = shrink (x.rules dacl) s.rights.remaining := by
  induction dacl generalizing s with
  | nil => exact ⟨hs, rfl⟩
  | cons a dacl ih =>
    rw [regularLoop, x.regularStep_eq hs a]
    cases hrule : x.rule a with
    | none =>
      rw [x.rules_cons_none hrule]
      exact ih s hs
    | some rule =>
      rw [x.rules_cons_some hrule]
      obtain ⟨allow, mask⟩ := rule
      cases allow with
      | true => exact ih (concede s mask) hs
      | false =>
        by_cases hdeny : s.rights.remaining &&& mask = 0#32
        · simp only [refute, shrink, hdeny]
          exact ih s hs
        · simp [refute, shrink, hdeny, hs]

end Analysis

/-! ## Section 2: Checks without an object type list -/

namespace AccessCheck

variable (c : AccessCheck) {dacl : List Ace}

/-- The first entry that decides about `r` allows it, for the token's own SIDs or for its
    restricted ones. -/
def Allowed (dacl : List Ace) (restricted : Bool) (r : Nat) : Prop :=
  FirstDecided (c.analysis restricted).Held c.genericMapping dacl r true

def Denied (dacl : List Ace) (restricted : Bool) (r : Nat) : Prop :=
  FirstDecided (c.analysis restricted).Held c.genericMapping dacl r false

@[simp] theorem commonStatus_status (status : NtStatus) (granted : AccessMask) :
    (c.commonStatus status granted).status = status := by
  unfold commonStatus
  split
  · rfl
  · rfl

theorem useResultList_eq_false (hlist : c.objectTypeList = []) : c.useResultList = false := by
  cases h : c.useResultList with
  | false => rfl
  | true => exact absurd hlist (c.results h)

/-- A pass without a list grants the access if every right is allowed by the first entry that
    decides about it. -/
theorem passes_regular_iff (hlist : c.objectTypeList = []) (dacl : List Ace) (restricted : Bool)
    (remaining : AccessMask) (hs : s.objects = []) :
    c.passes ((c.analysis restricted).regular remaining dacl s) = true ↔
      ∀ r, remaining.getLsbD r = true → c.Allowed dacl restricted r := by
  rw [passes, if_pos hlist, Analysis.regular, decide_eq_true_iff,
    (Analysis.regularLoop_eq _ _ _ (by simp [hs])).2, ofNat_eq_ofNat, shrink_eq_zero_iff]
  apply forall_congr'
  intro r
  rw [Analysis.verdict_rules]
  exact Iff.rfl

theorem regular_objects (dacl : List Ace) (restricted : Bool) (remaining : AccessMask)
    (hs : s.objects = []) : ((c.analysis restricted).regular remaining dacl s).objects = [] :=
  (Analysis.regularLoop_eq _ _ _ (by simp [hs])).1

theorem regularCheck_status (hlist : c.objectTypeList = []) {desired remaining granted : AccessMask}
    (hdesired : desired ≠ 0) :
    (c.regularCheck desired remaining granted dacl).status = .success ↔
      (∀ r, remaining.getLsbD r = true → c.Allowed dacl false r) ∧
      (seTokenIsRestricted c.token = true →
        ∀ r, remaining.getLsbD r = true → c.Allowed dacl true r) := by
  have hstart : c.start.objects = [] := hlist
  have hsome : ¬ desired = 0#32 := hdesired
  have hfirst := c.passes_regular_iff hlist dacl false remaining hstart
  have hsecond := c.passes_regular_iff hlist dacl true remaining
    (c.regular_objects dacl false remaining hstart)
  rw [← hfirst, ← hsecond, regularCheck]
  generalize c.passes ((c.analysis true).regular remaining dacl _) = second
  generalize c.passes ((c.analysis false).regular remaining dacl c.start) = first
  cases first with
  | false => simp
  | true =>
    cases seTokenIsRestricted c.token with
    | false => simp [hsome]
    | true => cases second <;> simp [hsome]

theorem policy_desired_le (r : Nat) (h : c.policy.desired.getLsbD r = true) :
    c.mappedDesired.getLsbD r = true := by
  unfold policy sePrivilegePolicyCheck at h
  split at h
  · exact h
  · simp only [getLsbD_and_not, Bool.and_eq_true] at h
    exact h.1

/-- A right that is asked for is left by the privileges or granted by them. -/
theorem policy_desired_or_granted {r : Nat} (h : c.mappedDesired.getLsbD r = true) :
    c.policy.desired.getLsbD r = true ∨ c.policy.granted.getLsbD r = true := by
  unfold policy sePrivilegePolicyCheck
  split
  · exact .inl h
  · simp only [getLsbD_and_not, getLsbD_or, h, Bool.true_and, Bool.not_eq_true', Bool.or_eq_true]
    exact or_iff_not_imp_left.2 fun hmask => .inr (by simpa using hmask)

theorem worker_eq (hdesired : c.desiredAccess ≠ 0) : c.sepAccessCheckWorker =
    if c.policy.status ≠ .success then c.commonStatus c.policy.status c.policy.granted
    else if c.policy.desired = 0 then c.commonStatus .success c.policy.granted
    else if c.genericMapping.IsEmpty then
      if seTokenIsAdmin c.token then c.commonStatus .success (c.policy.granted ||| c.policy.desired)
      else c.commonStatus .accessDenied 0
    else c.daclCheck c.mappedDesired c.policy.desired c.policy.granted := by
  rw [sepAccessCheckWorker, if_neg hdesired]

/-- The worker on a descriptor with entries, for named rights and without an object type list. -/
theorem succeeds_iff (hsd : c.securityDescriptor = ⟨1, some (some dacl)⟩) (hne : dacl ≠ [])
    (hmap : ¬ c.genericMapping.IsEmpty) (hdesired : c.desiredAccess ≠ 0)
    (hmax : c.mappedDesired &&& maximumAllowed = 0) (hlist : c.objectTypeList = []) :
    c.succeeds ↔ c.policy.status = .success ∧
      ∀ r, c.policy.desired.getLsbD r = true →
        c.Allowed dacl false r ∧ (seTokenIsRestricted c.token = true → c.Allowed dacl true r) := by
  unfold succeeds sepAccessCheckWorker
  rw [if_neg hdesired]
  have hpol := c.policy_desired_le
  generalize c.policy = policy at hpol
  obtain ⟨status, remaining, granted⟩ := policy
  show (if status ≠ .success then _ else _ : CheckResult).status = _ ↔ status = .success ∧ _
  by_cases hstatus : status = .success
  · rw [if_neg (not_not.2 hstatus)]
    by_cases hrem : remaining = 0
    · rw [if_pos hrem]
      simp [hstatus, hrem]
    obtain ⟨a, as, rfl⟩ := exists_cons_of_ne_nil hne
    -- What the policy leaves is part of what was asked for.
    have hwant : c.mappedDesired ≠ 0 := by
      intro h
      apply hrem
      rw [ofNat_eq_ofNat, eq_zero_iff]
      intro r
      cases hr : remaining.getLsbD r with
      | false => rfl
      | true =>
        have hd := hpol r hr
        rw [h, ofNat_eq_ofNat, getLsbD_zero] at hd
        cases hd
    have hmode : ¬ (c.mappedDesired &&& maximumAllowed ≠ 0 ∨ c.useResultList = true) := by
      simp [hmax, c.useResultList_eq_false hlist]
    rw [if_neg hrem, if_neg hmap, daclCheck, hsd, if_neg (by simp)]
    simp only [hmode, if_false, hstatus, true_and]
    rw [c.regularCheck_status hlist hwant]
    constructor
    · intro h r hr
      exact ⟨h.1 r hr, fun hres => h.2 hres r hr⟩
    · intro h
      exact ⟨fun r hr => (h r hr).1, fun hres r hr => (h r hr).2 hres⟩
  · rw [if_pos hstatus]
    simp [hstatus]

end AccessCheck

/-! ## Section 3: Named rights -/

/-- The token holds a SID: it is enabled, it is the user and not for denials only, or it is for
    denials only and the entry denies. -/
def Token.Holds (token : Token) (restricted deny : Bool) (sid : Sid) : Prop :=
  ∃ i e, (token.sids restricted)[i]? = some e ∧ e.sid = sid ∧
    (e.enabled = true ∨ (restricted = false ∧ i = 0 ∧ e.denyOnly = false) ∨
      (deny = true ∧ e.denyOnly = true))

/-- What the loop finds in a list that has every SID at most once. -/
theorem sidLoop_iff (sid : Sid) (deny restricted : Bool) (es : List SidAndAttributes) (n : Nat)
    (hnodup : (es.map (·.sid)).Nodup) :
    sidLoop sid deny restricted n es = true ↔
      ∃ i e, es[i]? = some e ∧ e.sid = sid ∧
        (e.enabled = true ∨ (restricted = false ∧ n + i = 0 ∧ e.denyOnly = false) ∨
          (deny = true ∧ e.denyOnly = true)) := by
  induction es generalizing n with
  | nil => simp [sidLoop]
  | cons e es ih =>
    rw [map_cons, nodup_cons] at hnodup
    by_cases hsid : e.sid = sid
    · rw [sidLoop, if_pos hsid]
      constructor
      · intro h
        refine ⟨0, e, rfl, hsid, ?_⟩
        simp only [Bool.or_eq_true, Bool.and_eq_true, Bool.not_eq_true', decide_eq_true_iff] at h
        rcases h with (⟨⟨h1, h2⟩, h3⟩ | h) | h
        · exact .inr (.inl ⟨h1, h2, h3⟩)
        · exact .inl h
        · exact .inr (.inr h)
      · -- No later entry has the same SID.
        grind
    · rw [sidLoop, if_neg hsid, ih (n + 1) hnodup.2]
      constructor
      · rintro ⟨i, e', he', hsid', h⟩
        refine ⟨i + 1, e', he', hsid', ?_⟩
        rwa [show n + (i + 1) = n + 1 + i by omega]
      rintro ⟨i, e', he', hsid', h⟩
      cases i with
      | zero =>
        obtain rfl := Option.some.inj he'
        exact absurd hsid' hsid
      | succ i =>
        refine ⟨i, e', he', hsid', ?_⟩
        rwa [show n + 1 + i = n + (i + 1) by omega]

namespace AccessCheck

variable (c : AccessCheck) {dacl : List Ace}

/-- The token of the check holds the SID of the entry, where `PRINCIPAL_SELF` is the principal. -/
def HoldsAce (restricted : Bool) (a : Ace) : Prop :=
  a.isAllow = true ∧ c.token.Holds restricted false (principalSid c.principalSelfSid a.sid) ∨
    a.isDeny = true ∧ c.token.Holds restricted true (principalSid c.principalSelfSid a.sid)

theorem held_iff_holdsAce (restricted : Bool)
    (hsids : ((c.token.sids restricted).map (·.sid)).Nodup) (a : Ace) :
    (c.analysis restricted).Held a ↔ c.HoldsAce restricted a := by
  have hholds : ∀ deny, (c.analysis restricted).holds a deny = true ↔
      c.token.Holds restricted deny (principalSid c.principalSelfSid a.sid) := by
    intro deny
    show sidLoop (principalSid c.principalSelfSid a.sid) deny restricted 0
      (c.token.sids restricted) = true ↔ _
    rw [sidLoop_iff _ _ _ _ _ hsids]
    simp only [Nat.zero_add]
    exact Iff.rfl
  unfold Analysis.Held HoldsAce
  rw [hholds false, hholds true]

/-- A check whose mapped request has no `MAXIMUM_ALLOWED` succeeds exactly when the privilege policy
    does and, for every right it leaves, the first decisive entry allows it; for a restricted token
    also with its restricted SIDs. -/
theorem succeeds_iff_first_decisive (hsd : c.securityDescriptor = ⟨1, some (some dacl)⟩)
    (hne : dacl ≠ [])
    (hsids : ∀ restricted, ((c.token.sids restricted).map (·.sid)).Nodup)
    (hmap : ¬ c.genericMapping.IsEmpty) (hdesired : c.desiredAccess ≠ 0)
    (hmax : c.mappedDesired &&& maximumAllowed = 0) (hlist : c.objectTypeList = []) :
    c.succeeds ↔ c.policy.status = .success ∧
      ∀ r, c.policy.desired.getLsbD r = true →
        FirstDecided (c.HoldsAce false) c.genericMapping dacl r true ∧
        (seTokenIsRestricted c.token = true →
          FirstDecided (c.HoldsAce true) c.genericMapping dacl r true) := by
  have hheld : ∀ restricted r, c.Allowed dacl restricted r ↔
      FirstDecided (c.HoldsAce restricted) c.genericMapping dacl r true := by
    intro restricted r
    exact FirstDecided.congr fun a _ => c.held_iff_holdsAce restricted (hsids restricted) a
  rw [c.succeeds_iff hsd hne hmap hdesired hmax hlist]
  simp only [hheld]

end AccessCheck

/-- Two SIDs for the instances below. -/
def aliceSid : Sid := ⟨1, 5, [21, 1000]⟩

def worldSid : Sid := ⟨1, 1, [0]⟩

/-- The mapping of files. -/
def fileMapping : GenericMapping := ⟨0x00120089, 0x00120116, 0x001200A0, 0x001F01FF⟩

/-- A check of the token's user, without a list of objects. -/
def plainCheck (token : Token) (dacl : List Ace) (desired : AccessMask) : AccessCheck where
  securityDescriptor := ⟨1, some (some dacl)⟩
  clientAccessToken := none
  primaryAccessToken := token
  principalSelfSid := none
  desiredAccess := desired
  objectTypeList := []
  previouslyGrantedAccess := 0
  genericMapping := fileMapping
  accessMode := .user
  useResultList := false
  privilegeSet := none
  fresh := fresh_nil
  results := fun h => by cases h

def aliceToken : Token := ⟨[⟨aliceSid, 0⟩, ⟨worldSid, 0x7⟩], [], [], 0⟩

/-- The same user for denials only. -/
def denyOnlyToken : Token := ⟨[⟨aliceSid, 0x10⟩, ⟨worldSid, 0x7⟩], [], [], 0⟩

def allowAlice (mask : AccessMask) : Ace := ⟨.accessAllowed, 0, mask, aliceSid, 0, 0⟩

/-- The same user with a restricted SID. -/
def restrictedToken : Token := ⟨[⟨aliceSid, 0⟩], [⟨worldSid, 0x7⟩], [], 0x10⟩

/-- A right denied to both SIDs, in front of the entries that allow it with another one. -/
def denyThenAllow : List Ace :=
  [⟨.accessDenied, 0, 2, worldSid, 0, 0⟩, ⟨.accessDenied, 0, 2, aliceSid, 0, 0⟩, allowAlice 3,
    ⟨.accessAllowed, 0, 3, worldSid, 0, 0⟩]

theorem succeeds_iff_first_decisive_restricted :
    (plainCheck restrictedToken denyThenAllow 1).succeeds ∧
      ¬ (plainCheck restrictedToken denyThenAllow 2).succeeds ∧
      ∀ r, (plainCheck restrictedToken denyThenAllow 1).policy.desired.getLsbD r = true →
        FirstDecided ((plainCheck restrictedToken denyThenAllow 1).HoldsAce false)
          fileMapping denyThenAllow r true ∧
        (seTokenIsRestricted restrictedToken = true →
          FirstDecided ((plainCheck restrictedToken denyThenAllow 1).HoldsAce true)
            fileMapping denyThenAllow r true) := by
  have hsucceeds : (plainCheck restrictedToken denyThenAllow 1).succeeds := by decide
  refine ⟨hsucceeds, by decide, ?_⟩
  exact ((AccessCheck.succeeds_iff_first_decisive _ rfl (by decide) (by decide) (by decide)
    (by decide) (by decide) rfl).1 hsucceeds).2

/-- The user's SID does not allow anything while it is for denials only, and an entry does not
    stand in for the privilege that `ACCESS_SYSTEM_SECURITY` takes. -/
theorem not_succeeds_first_decisive :
    (denyOnlyToken.userAndGroups.head?.map (·.sid) = some (allowAlice 1).sid ∧
      (plainCheck denyOnlyToken [allowAlice 1] 1).policy = ⟨.success, 1, 0⟩ ∧
      ¬ (plainCheck denyOnlyToken [allowAlice 1] 1).succeeds) ∧
    (plainCheck aliceToken [allowAlice accessSystemSecurity] accessSystemSecurity).policy.desired =
        accessSystemSecurity ∧
      ¬ (plainCheck aliceToken [allowAlice accessSystemSecurity] accessSystemSecurity).succeeds := by
  decide

namespace AccessCheck

variable (c : AccessCheck)

/-- The check against another DACL. -/
def withDacl (dacl : List Ace) : AccessCheck :=
  { c with securityDescriptor := ⟨1, some (some dacl)⟩ }

/-- An allowing entry that is added to a DACL, at any place, does not take access away, and a
    denying one does not give any, where the mapped request has no `MAXIMUM_ALLOWED`. -/
theorem succeeds_insert (before after : List Ace) (hne : before ++ after ≠ [])
    (hmap : ¬ c.genericMapping.IsEmpty) (hdesired : c.desiredAccess ≠ 0)
    (hmax : c.mappedDesired &&& maximumAllowed = 0) (hlist : c.objectTypeList = []) :
    (a.isAllow = true → (c.withDacl (before ++ after)).succeeds →
      (c.withDacl (before ++ a :: after)).succeeds) ∧
    (a.isAllow = false → (c.withDacl (before ++ a :: after)).succeeds →
      (c.withDacl (before ++ after)).succeeds) := by
  have hmono : ∀ l ≠ [], ∀ l' ≠ [], (∀ held r, FirstDecided held c.genericMapping l r true →
      FirstDecided held c.genericMapping l' r true) → (c.withDacl l).succeeds →
      (c.withDacl l').succeeds := by
    intro l hl l' hl' himp h
    rw [(c.withDacl _).succeeds_iff rfl hl hmap hdesired hmax hlist] at h
    rw [(c.withDacl _).succeeds_iff rfl hl' hmap hdesired hmax hlist]
    exact ⟨h.1, fun r hr => ⟨himp _ _ (h.2 r hr).1, fun hres => himp _ _ ((h.2 r hr).2 hres)⟩⟩
  constructor
  · intro ha
    exact hmono _ hne _ (by simp) fun _ _ => (firstDecided_insert before after).1 ha
  · intro ha
    exact hmono _ (by simp) _ hne fun _ _ =>
      (firstDecided_insert before after).2 (ne_true_of_eq_false ha)

end AccessCheck

/-- Alice is allowed to read; an entry for everyone that denies it, behind hers, changes nothing. -/
theorem succeeds_insert_alice :
    (plainCheck aliceToken [allowAlice 1, ⟨.accessDenied, 0, 1, worldSid, 0, 0⟩] 1).succeeds ∧
      (plainCheck aliceToken [allowAlice 1] 1).succeeds := by
  have hall : (plainCheck aliceToken [allowAlice 1, ⟨.accessDenied, 0, 1, worldSid, 0, 0⟩]
      1).succeeds := by
    decide +kernel
  exact ⟨hall, ((plainCheck aliceToken [] 1).succeeds_insert [allowAlice 1] [] (by simp) (by decide)
    (by decide) (by decide) rfl).2 rfl hall⟩

/-! ## Section 4: The maximum -/

/-- A mask that has nothing of the whole has nothing of a part. -/
theorem and_eq_zero_of_part {mask whole part : AccessMask} (h : mask &&& whole = 0)
    (hpart : part &&& ~~~whole = 0#32) : mask &&& part = 0 := by
  grind

/-- A mask without generic rights is not changed by the mapping. -/
theorem rtlMapGenericMask_eq {mask : AccessMask} (mapping : GenericMapping)
    (h : mask &&& genericAccess = 0) : rtlMapGenericMask mask mapping = mask := by
  have hread : mask &&& genericRead = 0 := and_eq_zero_of_part h (by decide)
  have hwrite : mask &&& genericWrite = 0 := and_eq_zero_of_part h (by decide)
  have hexecute : mask &&& genericExecute = 0 := and_eq_zero_of_part h (by decide)
  have hall : mask &&& genericAll = 0 := and_eq_zero_of_part h (by decide)
  simp only [rtlMapGenericMask, hread, hwrite, hexecute, hall, ne_eq, not_true_eq_false, if_false]
  apply eq_of_getLsbD_eq
  intro r _
  rw [ofNat_eq_ofNat, eq_zero_iff] at h
  have hr := h r
  rw [getLsbD_and] at hr
  rw [getLsbD_and_not]
  cases hm : mask.getLsbD r with
  | false => rfl
  | true =>
    rw [hm, Bool.true_and] at hr
    simp [hr]

namespace AccessCheck

variable (c : AccessCheck) {dacl : List Ace}

/-- The same check for other rights. -/
def ask (desired : AccessMask) : AccessCheck := { c with desiredAccess := desired }

/-- What a request for the maximum grants. -/
def maximumGranted : AccessMask :=
  if (c.ask maximumAllowed).succeeds then
    (c.ask maximumAllowed).sepAccessCheckWorker.grantedAccessList.headD 0
  else 0

/-- The specific and the standard rights, without the one that a privilege can grant. -/
def namedRights : AccessMask := (standardRightsAll ||| specificRightsAll) &&& ~~~writeOwner

/-- Rights that no privilege is needed or used for are left as they are. -/
theorem policy_ask (desired : AccessMask) (hprev : c.previouslyGrantedAccess = 0)
    (hgeneric : desired &&& genericAccess = 0) (hsystem : desired &&& accessSystemSecurity = 0)
    (howner : desired &&& writeOwner = 0) :
    (c.ask desired).mappedDesired = desired ∧ (c.ask desired).policy = ⟨.success, desired, 0⟩ := by
  have hmapped : (c.ask desired).mappedDesired = desired := rtlMapGenericMask_eq _ hgeneric
  have hgranted : (c.ask desired).mappedGranted = 0 := by
    unfold mappedGranted
    rw [if_neg (not_not.2 (show (c.ask desired).previouslyGrantedAccess = 0 from hprev))]
    exact hprev
  refine ⟨hmapped, ?_⟩
  unfold policy sePrivilegePolicyCheck
  rw [hmapped, hgranted]
  simp only [hsystem, howner, ne_eq, not_true_eq_false, false_and, if_false, and_false]
  rw [show ~~~(0 : AccessMask) = allOnes 32 from rfl, and_allOnes,
    show (0 : AccessMask) ||| 0 = 0 from rfl]

theorem policy_ask_named (hprev : c.previouslyGrantedAccess = 0) {desired : AccessMask}
    (hnamed : desired &&& ~~~namedRights = 0) :
    (c.ask desired).mappedDesired = desired ∧ (c.ask desired).policy = ⟨.success, desired, 0⟩ :=
  c.policy_ask desired hprev (and_eq_zero_of_part hnamed (by decide))
    (and_eq_zero_of_part hnamed (by decide)) (and_eq_zero_of_part hnamed (by decide))

/-- A request for named rights, right by right. -/
theorem succeeds_ask_iff (hsd : c.securityDescriptor = ⟨1, some (some dacl)⟩) (hne : dacl ≠ [])
    (hmap : ¬ c.genericMapping.IsEmpty) (hlist : c.objectTypeList = [])
    (hprev : c.previouslyGrantedAccess = 0) (desired : AccessMask) (hzero : desired ≠ 0)
    (hnamed : desired &&& ~~~namedRights = 0) :
    (c.ask desired).succeeds ↔ ∀ r, desired.getLsbD r = true →
      c.Allowed dacl false r ∧ (seTokenIsRestricted c.token = true → c.Allowed dacl true r) := by
  obtain ⟨hmapped, hpolicy⟩ := c.policy_ask_named hprev hnamed
  have h := (c.ask desired).succeeds_iff (show (c.ask desired).securityDescriptor = _ from hsd)
    hne hmap hzero (by rw [hmapped]; exact and_eq_zero_of_part hnamed (by decide)) hlist
  rw [hpolicy] at h
  exact h.trans ⟨fun hall => hall.2, fun hall => ⟨rfl, hall⟩⟩

/-- Both passes for the maximum. -/
def maximumPasses (dacl : List Ace) : CheckState :=
  let s := (c.analysis false).maximum dacl c.start
  if seTokenIsRestricted c.token then (c.analysis true).maximum dacl s else s

/-- The second pass adds what the restricted SIDs are allowed and the first pass did not deny. -/
theorem maximumPasses_granted (hlist : c.objectTypeList = []) (r : Nat) :
    (c.maximumPasses dacl).rights.granted.getLsbD r = true ↔
      c.Allowed dacl false r ∨ seTokenIsRestricted c.token = true ∧ ¬ c.Denied dacl false r ∧
        c.Allowed dacl true r := by
  obtain ⟨hobjects, hfirst⟩ := (c.analysis false).maximum_eq dacl c.start hlist
  obtain ⟨-, hsecond⟩ := (c.analysis true).maximum_eq dacl _ hobjects
  have hallowed : ∀ restricted, c.Allowed dacl restricted r ↔
      verdict ((c.analysis restricted).rules dacl) r = some true := fun restricted =>
    ((c.analysis restricted).verdict_rules dacl r true).symm
  have hdenied : c.Denied dacl false r ↔
      verdict ((c.analysis false).rules dacl) r = some false :=
    ((c.analysis false).verdict_rules dacl r false).symm
  rw [hallowed, hallowed, hdenied, maximumPasses]
  -- The two passes are one over the rules of both.
  rw [hfirst, ← collect_append] at hsecond
  have hgrant : ∀ rules : List (Rule 32),
      (collect rules (c.start.rights.granted, c.start.rights.denied)).1.getLsbD r = true ↔
        verdict rules r = some true := by
    intro rules
    rw [collect_granted]
    simp [start]
  have hfirst' : ((c.analysis false).maximum dacl c.start).rights.granted = _ :=
    congrArg Prod.fst hfirst
  have hsecond' : ((c.analysis true).maximum dacl
    ((c.analysis false).maximum dacl c.start)).rights.granted = _ := congrArg Prod.fst hsecond
  cases hres : seTokenIsRestricted c.token with
  | false =>
    rw [if_neg (by simp), hfirst', hgrant]
    simp
  | true =>
    rw [if_pos rfl, hsecond', hgrant, verdict_append]
    cases verdict ((c.analysis false).rules dacl) r with
    | none => simp
    | some v => cases v <;> simp

/-- A request for the maximum grants what its passes have granted. -/
theorem maximumGranted_eq (hsd : c.securityDescriptor = ⟨1, some (some dacl)⟩) (hne : dacl ≠ [])
    (hmap : ¬ c.genericMapping.IsEmpty) (hlist : c.objectTypeList = [])
    (hprev : c.previouslyGrantedAccess = 0) :
    c.maximumGranted = (c.maximumPasses dacl).rights.granted := by
  obtain ⟨hmapped, hpolicy⟩ := c.policy_ask maximumAllowed hprev (by decide)
    (by decide) (by decide)
  obtain ⟨a, as, rfl⟩ := exists_cons_of_ne_nil hne
  have hresult : (c.ask maximumAllowed).useResultList = false := c.useResultList_eq_false hlist
  have hworker : (c.ask maximumAllowed).sepAccessCheckWorker =
      (c.ask maximumAllowed).maximumStatus maximumAllowed 0
        (c.maximumPasses (a :: as)).rights.granted := by
    rw [sepAccessCheckWorker,
      if_neg (show ¬ (c.ask maximumAllowed).desiredAccess = 0 from (by decide : maximumAllowed ≠ 0)),
      hpolicy]
    show (if _ then _ else _ : CheckResult) = _
    rw [if_neg (by simp), if_neg (show maximumAllowed ≠ 0 by decide),
      if_neg (show ¬ (c.ask maximumAllowed).genericMapping.IsEmpty from hmap), hmapped, daclCheck,
      show (c.ask maximumAllowed).securityDescriptor = ⟨1, some (some (a :: as))⟩ from hsd,
      if_neg (by simp)]
    show (if _ then _ else _ : CheckResult) = _
    rw [if_pos (.inl (by decide)), maximumCheck,
      if_pos (show (c.ask maximumAllowed).objectTypeList = [] from hlist)]
    rfl
  generalize (c.maximumPasses (a :: as)).rights.granted = granted at hworker
  have hrest : ¬ maximumAllowed &&& ~~~(maximumAllowed ||| granted) ≠ 0 := by grind
  rw [maximumStatus, if_neg hrest, commonStatus, hresult] at hworker
  have hlist' := congrArg CheckResult.grantedAccessList hworker
  have hstatus := congrArg CheckResult.status hworker
  unfold maximumGranted
  by_cases hzero : granted = 0#32
  · rw [if_neg (by simp [succeeds, hstatus, hzero]), hzero]
    rfl
  · rw [if_pos (by simp [succeeds, hstatus, hzero]), hlist']
    simp

/-- The request for the maximum agrees with every request for named rights exactly when the token
    is not restricted, or its restricted SIDs are allowed the same named rights as the others,
    apart from what is denied to those. -/
theorem maximum_agrees_iff (hsd : c.securityDescriptor = ⟨1, some (some dacl)⟩) (hne : dacl ≠ [])
    (hmap : ¬ c.genericMapping.IsEmpty) (hlist : c.objectTypeList = [])
    (hprev : c.previouslyGrantedAccess = 0) :
    (∀ desired, desired ≠ 0 → desired &&& ~~~namedRights = 0 →
      ((c.ask desired).succeeds ↔ desired &&& ~~~c.maximumGranted = 0)) ↔
      (seTokenIsRestricted c.token = true → ∀ r, namedRights.getLsbD r = true →
        (c.Allowed dacl false r → c.Allowed dacl true r) ∧
        (c.Allowed dacl true r → ¬ c.Denied dacl false r → c.Allowed dacl false r)) := by
  -- Both sides right by right.
  have hasked := c.succeeds_ask_iff hsd hne hmap hlist hprev
  have hgranted : ∀ r, c.maximumGranted.getLsbD r = true ↔ c.Allowed dacl false r ∨
      seTokenIsRestricted c.token = true ∧ ¬ c.Denied dacl false r ∧ c.Allowed dacl true r := by
    intro r
    rw [c.maximumGranted_eq hsd hne hmap hlist hprev]
    exact c.maximumPasses_granted hlist r
  constructor
  · intro h hres r hr
    -- Ask for the one right.
    have hlt : r < 32 := lt_of_getLsbD hr
    have hbit : ∀ j, (twoPow 32 r).getLsbD j = true ↔ j = r := fun _ => getLsbD_twoPow_iff hlt
    have hone : twoPow 32 r ≠ 0 := by
      intro hzero
      have hbit' := (hbit r).2 rfl
      rw [hzero, ofNat_eq_ofNat, getLsbD_zero] at hbit'
      cases hbit'
    have hnamed : twoPow 32 r &&& ~~~namedRights = 0 := by
      rw [ofNat_eq_ofNat, and_not_eq_zero_iff]
      intro j hj
      rw [(hbit j).1 hj]
      exact hr
    have hagree := h _ hone hnamed
    rw [hasked _ hone hnamed, ofNat_eq_ofNat, and_not_eq_zero_iff] at hagree
    simp only [hbit, forall_eq, hgranted, hres, true_and, forall_const] at hagree
    constructor
    · intro ha
      exact (hagree.2 (.inl ha)).2
    · intro ha hd
      exact (hagree.2 (.inr ⟨hd, ha⟩)).1
  · intro h desired hzero hnamed
    rw [hasked desired hzero hnamed, ofNat_eq_ofNat, and_not_eq_zero_iff]
    rw [ofNat_eq_ofNat, and_not_eq_zero_iff] at hnamed
    apply forall_congr'
    intro r
    apply forall_congr'
    intro hr
    rw [hgranted]
    constructor
    · intro ha
      exact .inl ha.1
    · rintro (ha | ⟨hres, hd, ha⟩)
      · exact ⟨ha, fun hres => (h hres r (hnamed r hr)).1 ha⟩
      · exact ⟨(h hres r (hnamed r hr)).2 ha hd, fun _ => ha⟩

end AccessCheck

theorem maximum_agrees_restricted : seTokenIsRestricted restrictedToken = true ∧
    (plainCheck restrictedToken denyThenAllow 1).maximumGranted = 1 ∧
    ∀ desired, desired ≠ 0 → desired &&& ~~~AccessCheck.namedRights = 0 →
      (((plainCheck restrictedToken denyThenAllow 1).ask desired).succeeds ↔
        desired &&& ~~~(plainCheck restrictedToken denyThenAllow 1).maximumGranted = 0) := by
  refine ⟨by decide, by decide, ((plainCheck restrictedToken denyThenAllow 1).maximum_agrees_iff
    rfl (by decide) (by decide) rfl rfl).2 fun _ r hr => ?_⟩
  -- Both kinds of SIDs are allowed the same rights.
  have hsame : ∀ r < 32,
      verdict (((plainCheck restrictedToken denyThenAllow 1).analysis false).rules denyThenAllow) r =
        some true ↔
      verdict (((plainCheck restrictedToken denyThenAllow 1).analysis true).rules denyThenAllow) r =
        some true := by
    decide +kernel
  have hiff := hsame r (lt_of_getLsbD hr)
  rw [Analysis.verdict_rules, Analysis.verdict_rules] at hiff
  exact ⟨hiff.1, fun h _ => hiff.2 h⟩

theorem maximum_exceeds_named :
    (plainCheck restrictedToken [allowAlice 1] 1).maximumGranted = 1 ∧
      ¬ ((plainCheck restrictedToken [allowAlice 1] 1).ask 1).succeeds := by
  decide

end Se
