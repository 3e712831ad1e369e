import ReactOS.Ex.ResourceInv

/-! # The acquire routines of a resource

    Each stretch of an acquire routine under the lock keeps the invariant: the
    thread takes the resource, joins its owners, acquires again what it holds,
    fills in an entry and waits, or stops to allocate memory. -/

namespace Resource

open Thread Bool
open Function (update update_self update_of_ne)

/-! ## Section 1: Granting -/

section SetEntry

variable (r : EResource) (e : OwnerEntry) (slot : Slot)

@[simp] theorem setEntry_activeEntries : (r.setEntry e slot).activeEntries = r.activeEntries := by
  cases slot <;> rfl
@[simp] theorem setEntry_activeCount : (r.setEntry e slot).activeCount = r.activeCount := by
  cases slot <;> rfl
@[simp] theorem setEntry_ownedExclusive :
    (r.setEntry e slot).ownedExclusive = r.ownedExclusive := by
  cases slot <;> rfl
@[simp] theorem setEntry_numberOfSharedWaiters :
    (r.setEntry e slot).numberOfSharedWaiters = r.numberOfSharedWaiters := by
  cases slot <;> rfl
@[simp] theorem setEntry_numberOfExclusiveWaiters :
    (r.setEntry e slot).numberOfExclusiveWaiters = r.numberOfExclusiveWaiters := by
  cases slot <;> rfl
@[simp] theorem setEntry_semaphore : (r.setEntry e slot).semaphore = r.semaphore := by
  cases slot <;> rfl
@[simp] theorem setEntry_event : (r.setEntry e slot).event = r.event := by
  cases slot <;> rfl

theorem setEntry_ownerEntry :
    (r.setEntry e slot).ownerEntry = if slot = .first then e else r.ownerEntry := by
  cases slot <;> simp [EResource.setEntry]

end SetEntry

section Acquire

variable {U : Finset ThreadId} {s : State} {t : ThreadId} {slot : Slot} {x : Thread} {pc : Pc}
  {r : EResource}

/-- The thread is about to try for the resource. -/
def State.Calls (s : State) (t : ThreadId) : Prop :=
  (s.threads t).pc = .idle ∨ ∃ k wait, (s.threads t).pc = .retry k wait

/-- Places in which a thread counts by what it holds only. -/
def Pc.Plain : Pc → Prop
  | .idle | .retry _ _ | .expand _ _ _ | .allocateSemaphore _ | .allocateEvent => True
  | _ => False

theorem Pc.Plain.weights (h : pc.Plain) :
    pc.handedShared = 0 ∧ pc.handedExclusive = 0 ∧ pc.waitsShared = 0 ∧ pc.waitsExclusive = 0 ∧
      pc.pendingShared = 0 ∧ pc.pendingExclusive = 0 ∧ pc ≠ .own := by
  cases pc <;> simp_all [Pc.Plain]

/-- What a thread adds to the counters, besides what it holds. -/
structure Thread.Weighs (x : Thread) (hs he ws we ps pe : Nat) : Prop where
  handedShared : x.handedShared = hs
  handedExclusive : x.handedExclusive = he
  waitsShared : x.waitsShared = ws
  waitsExclusive : x.waitsExclusive = we
  pendingShared : x.pendingShared = ps
  pendingExclusive : x.pendingExclusive = pe

theorem Thread.weighs (pc : Pc) (h : x.pc = pc) : x.Weighs pc.handedShared pc.handedExclusive
    pc.waitsShared pc.waitsExclusive pc.pendingShared pc.pendingExclusive := by
  subst h
  exact ⟨rfl, rfl, rfl, rfl, rfl, rfl⟩

theorem Pc.Plain.thread_weights (h : x.pc.Plain) : x.Weighs 0 0 0 0 0 0 := by
  obtain ⟨h1, h2, h3, h4, h5, h6, -⟩ := h.weights
  exact ⟨h1, h2, h3, h4, h5, h6⟩

theorem State.Calls.plain (h : s.Calls t) : (s.threads t).pc.Plain := by
  rcases h with hpc | ⟨k, wait, hpc⟩ <;> simp [hpc, Pc.Plain]

/-- Such a thread counts by what it holds only. -/
theorem State.Calls.weights (h : s.Calls t) : (s.threads t).Weighs 0 0 0 0 0 0 :=
  h.plain.thread_weights

theorem State.Calls.owns (h : s.Calls t) :
    s.owns t = if 0 < (s.threads t).count then some (s.threads t).count else none := by
  rcases h with hpc | ⟨k, wait, hpc⟩ <;> simp [State.owns, Thread.owns, hpc]

theorem State.Calls.ne_own (h : s.Calls t) : (s.threads t).pc ≠ .own := by
  rcases h with hpc | ⟨k, wait, hpc⟩ <;> simp [hpc]

theorem Inv.holds_of_named (h : Inv U s) (hcalls : s.Calls t)
    (hnames : (s.resource.entry slot).ownerThread = .thread t) :
    s.Holds t ∧ (s.resource.entry slot).ownerCount = (s.threads t).count := by
  have howns := h.entries.named slot t hnames
  rw [hcalls.owns] at howns
  split at howns
  · rename_i hpos
    exact ⟨hpos, (Option.some.inj howns).symm⟩
  · cases howns

theorem Inv.not_holds_of_unnamed (h : Inv U s)
    (hnot : ∀ slot, (s.resource.entry slot).ownerThread ≠ .thread t) : ¬ s.Holds t := by
  intro hold
  obtain ⟨slot, hslot⟩ := h.entries.listed t (s.threads t).count (by
    simp only [State.owns, owns]
    exact if_pos hold)
  exact hnot slot hslot

theorem grant_weights (x : Thread) (ex : Bool) :
    (x.grant ex).holding = 1 ∧ (x.grant ex).Weighs 0 0 0 0 0 0 :=
  ⟨if_pos (Nat.succ_pos _), weighs .idle rfl⟩

theorem grant_owns (x : Thread) (ex : Bool) (first : OwnerThread) :
    (x.grant ex).owns first t = some (x.count + 1) := by
  simp [grant, owns]

section Waiting

variable (h : Inv U s)

include h

theorem Inv.not_exclusive (hnone : ¬ s.Holds t) : (s.threads t).exclusive = false := by
  rw [← not_eq_true, h.mode t]
  exact fun hm => hnone hm.1

/-- The entry of an owner says what the owner holds now. -/
theorem Inv.setCount (ht : t ∈ U) (hcalls : s.Calls t) {e : OwnerEntry}
    (hvalid : s.resource.Valid slot) (hnames : (s.resource.entry slot).ownerThread = .thread t)
    (he : e.ownerThread = .thread t) (hcount : e.ownerCount = x.count) (hpos : 0 < x.count)
    (hsmall : x.count < ownerCountModulus) (hpc : x.pc = .idle)
    (hmode : x.exclusive = true ↔ s.resource.ownedExclusive = true) :
    Inv U (s.set (s.resource.setEntry e slot) t x) := by
  have hold := (h.holds_of_named hcalls hnames).1
  obtain ⟨hw1, hw2, hw3, hw4, hw5, hw6⟩ := hcalls.weights
  obtain ⟨hg1, hg2, hg3, hg4, hg5, hg6⟩ : x.Weighs 0 0 0 0 0 0 := weighs .idle hpc
  have hholding := holding_pos hold
  have hg0 : x.holding = 1 := if_pos hpos
  have hfirst : (s.resource.setEntry e slot).ownerEntry.ownerThread =
      s.resource.ownerEntry.ownerThread := by
    rw [setEntry_ownerEntry]
    split
    · rename_i heq
      subst heq
      exact he.trans hnames.symm
    · rfl
  have hholds : ∀ u, (s.set (s.resource.setEntry e slot) t x).Holds u ↔ s.Holds u := by
    intro u
    rw [holds_set]
    by_cases hu : u = t
    · rw [if_pos hu, hu]
      exact iff_of_true hpos hold
    · rw [if_neg hu]
  have htotal := total_set (s := s) ht (s.resource.setEntry e slot) x
  -- all weights are as before: the thread held the resource and still does
  refine h.set ht ?_ ?_ ?_ (by simpa using h.activeCount) (fun hexcl => ?_) (fun hexcl => ?_) ?_
    (fun _ _ _ => by simp) (by simpa using h.waitsForExclusive) (by simpa using h.owned)
    (fun _ => .inl hpc) hsmall ?_ (fun u hu => ?_) (fun hexcl u hu => ?_) (fun _ hnone => ?_)
  · simp only [setEntry_activeEntries, setEntry_semaphore, setEntry_event]
    omega
  · simp only [setEntry_numberOfSharedWaiters, setEntry_semaphore]
    omega
  · simp only [setEntry_numberOfExclusiveWaiters, setEntry_event]
    omega
  · rw [setEntry_ownedExclusive] at hexcl
    have h1 := htotal handedShared
    have h2 := h.exclusive hexcl
    simp only [setEntry_activeEntries, setEntry_semaphore]
    omega
  · rw [setEntry_ownedExclusive] at hexcl
    have h1 := htotal handedExclusive
    have h2 := h.shared hexcl
    simp only [setEntry_event]
    exact ⟨by omega, h2.2⟩
  · rw [setEntry_ownedExclusive, hmode]
    exact (and_iff_right hpos).symm
  · rw [owns_set fun u _ _ => by rw [hfirst], entry_setEntry _ hvalid]
    refine h.entries.update _ (fun u hu => ?_) (fun slot' hs' => ?_) (.inl ⟨he, ?_⟩)
    · exact OwnerThread.thread.inj (hu.symm.trans hnames)
    · exact h.entries.unique _ _ _ hs' hnames
    · rw [hcount]
      exact if_pos hpos
  · rw [hfirst] at hu
    rcases h.first u hu with hu' | hown
    · exact .inl ((hholds u).2 hu')
    · have hut : u ≠ t := fun heq => hcalls.ne_own (heq ▸ hown)
      exact .inr (by rw [set_threads_ne hut]; exact hown)
  · rw [hfirst]
    exact h.exclusiveFirst (by simpa using hexcl) u ((hholds u).1 hu)
  · exact absurd ((hholds t).2 hold) (hnone t)

theorem Inv.recurse (ht : t ∈ U) (hcalls : s.Calls t) (slot : Slot) {ex : Bool}
    (hvalid : s.resource.Valid slot) (hnames : (s.resource.entry slot).ownerThread = .thread t)
    (hex : ex = true → s.resource.ownedExclusive = true)
    (hroom : (s.threads t).count + 1 < ownerCountModulus) :
    Inv U (s.set (s.resource.setEntry (s.resource.entry slot).increment slot) t
      ((s.threads t).grant ex)) := by
  obtain ⟨hold, hcnt⟩ := h.holds_of_named hcalls hnames
  refine h.setCount ht hcalls hvalid hnames hnames ?_ (Nat.succ_pos _) hroom rfl ?_
  · rw [OwnerEntry.increment, hcnt, Nat.mod_eq_of_lt hroom]
    rfl
  · simp only [grant, or_eq_true, h.mode t]
    exact ⟨fun hm => hm.elim (·.2) hex, fun hm => .inl ⟨hold, hm⟩⟩

/-- Several owners, or shared ownership on its way. -/
theorem Inv.not_exclusively (hne : s.resource.activeEntries ≠ 1 ∨ 0 < s.total U handedShared ∨
      0 < s.resource.semaphore) : s.resource.ownedExclusive = false := by
  cases hex : s.resource.ownedExclusive with
  | false => rfl
  | true =>
    have := h.exclusive hex
    omega

/-- A resource without active entries has no owners and no waiters, and
    nothing of it is on its way. -/
theorem Inv.of_inactive (hzero : s.resource.activeEntries = 0) :
    s.resource.ownedExclusive = false ∧ (∀ u, ¬ s.Holds u) ∧
      s.resource.numberOfSharedWaiters = 0 ∧ s.resource.numberOfExclusiveWaiters = 0 := by
  have hflag := h.not_exclusively (by omega)
  have hexcl : s.resource.numberOfExclusiveWaiters = 0 := by
    by_contra hne
    have := h.owned (Nat.pos_of_ne_zero hne)
    omega
  refine ⟨hflag, fun u hu => ?_, ?_, hexcl⟩
  · have hle := h.le_total holding rfl u
    have hactive := h.active
    rw [holding_pos hu] at hle
    omega
  · by_contra hne
    rcases h.waitsForExclusive (Nat.pos_of_ne_zero hne) with hex | hpos
    · simp [hflag] at hex
    · omega

/-- No thread is on its way to exclusive ownership of a shared resource. -/
theorem Inv.not_own (hflag : s.resource.ownedExclusive = false) (u : ThreadId) :
    (s.threads u).pc ≠ .own := by
  intro hpc
  have hle := h.le_total handedExclusive rfl u
  have hshared := h.shared hflag
  simp only [handedExclusive, hpc, Pc.handedExclusive] at hle
  omega

theorem Inv.first_unnamed (hzero : s.resource.activeEntries = 0) (u : ThreadId) :
    s.resource.ownerEntry.ownerThread ≠ .thread u := by
  obtain ⟨hflag, hnone, -⟩ := h.of_inactive hzero
  intro hu
  rcases h.first u hu with hold | hown
  · exact hnone u hold
  · exact h.not_own hflag u hown

theorem Inv.entries_fill (hvalid : s.resource.Valid slot)
    (hfree : (s.resource.entry slot).ownerThread = .none)
    (hnot : ∀ slot', (s.resource.entry slot').ownerThread ≠ .thread t) :
    Entries (s.resource.setEntry ⟨.thread t, 1⟩ slot).entry (update s.owns t (some 1)) := by
  rw [entry_setEntry _ hvalid]
  exact h.entries.update slot (fun u hu => by simp [hfree] at hu)
    (fun slot' hs' => absurd hs' (hnot slot')) (.inl ⟨rfl, rfl⟩)

theorem Inv.takeFree (ht : t ∈ U) (hcalls : s.Calls t) (ex : Bool)
    (hzero : s.resource.activeEntries = 0) :
    Inv U (s.set (takeFree s.resource t ex) t ((s.threads t).grant ex)) := by
  obtain ⟨hflag, hnone, hns⟩ := h.of_inactive hzero
  obtain ⟨hw1, hw2, hw3, hw4, hw5, hw6⟩ := hcalls.weights
  obtain ⟨hg0, hg1, hg2, hg3, hg4, hg5, hg6⟩ := grant_weights (s.threads t) ex
  have hcount : (s.threads t).count = 0 := Nat.eq_zero_of_not_pos (hnone t)
  have hown : ∀ u, (s.threads u).pc ≠ .own := h.not_own hflag
  have hactive := h.active
  have hholding : (s.threads t).holding = 0 := if_neg (hnone t)
  have htotal := total_set (s := s) ht (Resource.takeFree s.resource t ex) ((s.threads t).grant ex)
  have hholds : ∀ u, (s.set (Resource.takeFree s.resource t ex) t
      ((s.threads t).grant ex)).Holds u ↔ u = t := by
    intro u
    rw [holds_set]
    by_cases hu : u = t
    · simp [hu, grant]
    · simp [hu, hnone u]
  refine h.set ht ?_ ?_ ?_ rfl (fun _ => ?_) (fun _ => ?_) ?_ (fun u _ hu => absurd hu (hnone u)) ?_
    (fun _ => Nat.one_pos) (fun _ => .inl rfl) ?_ ?_ (fun u hu => ?_) (fun _ u hu => ?_)
    (fun _ _ => rfl)
  · simp only [Resource.takeFree]
    omega
  · simp only [Resource.takeFree]
    omega
  · simp only [Resource.takeFree]
    omega
  · have h1 := htotal handedShared
    exact ⟨rfl, by omega, show s.resource.semaphore = 0 by omega⟩
  · have h1 := htotal handedExclusive
    exact ⟨by omega, (h.shared hflag).2⟩
  · simp [grant, Resource.takeFree, h.not_exclusive (hnone t), hflag]
  · simp only [Resource.takeFree]
    omega
  · simp only [grant, hcount]
    exact one_lt_ownerCountModulus
  · rw [owns_set fun u _ hpc => absurd hpc (hown u), grant_owns, hcount]
    have hentry : (Resource.takeFree s.resource t ex).entry =
        update s.resource.entry .first ⟨.thread t, 1⟩ :=
      entry_setEntry s.resource (show s.resource.Valid .first from trivial) ⟨.thread t, 1⟩
    rw [hentry]
    refine h.entries.update _ (fun u hu => ?_) (fun slot' hs' => ?_) (.inl ⟨rfl, rfl⟩)
    · exact absurd hu (h.first_unnamed hzero u)
    · exact absurd (h.holds_of_named hcalls hs').1 (hnone t)
  · exact .inl ((hholds u).2 (OwnerThread.thread.inj hu).symm)
  · rw [(hholds u).1 hu]
    rfl

theorem Inv.grantShared (ht : t ∈ U) (hnone : ¬ s.Holds t)
    (hflag : s.resource.ownedExclusive = false) (hflag' : r.ownedExclusive = s.resource.ownedExclusive)
    {n : Nat} (hactive : r.activeEntries + n = s.resource.activeEntries + 1)
    (hcount : r.activeCount = if r.activeEntries = 0 then 0 else 1)
    (hns : r.numberOfSharedWaiters = s.resource.numberOfSharedWaiters)
    (hne : r.numberOfExclusiveWaiters = s.resource.numberOfExclusiveWaiters)
    (hsem : r.semaphore = s.resource.semaphore) (hevent : r.event = s.resource.event)
    (hw : (s.threads t).Weighs n 0 0 0 0 0)
    (hentries : Entries r.entry (s.set r t ((s.threads t).grant false)).owns)
    (hfirst : ∀ u, r.ownerEntry.ownerThread = .thread u →
      u = t ∨ s.resource.ownerEntry.ownerThread = .thread u) :
    Inv U (s.set r t ((s.threads t).grant false)) := by
  obtain ⟨hw1, hw2, hw3, hw4, hw5, hw6⟩ := hw
  obtain ⟨hg0, hg1, hg2, hg3, hg4, hg5, hg6⟩ := grant_weights (s.threads t) false
  have hholding : (s.threads t).holding = 0 := if_neg hnone
  have hcnt : (s.threads t).count = 0 := Nat.eq_zero_of_not_pos hnone
  have htotal := total_set (s := s) ht r ((s.threads t).grant false)
  have hpos : 0 < r.activeEntries := by
    have hle := h.le_total handedShared rfl t
    have := h.active
    omega
  rw [hflag] at hflag'
  have hshared : ∀ {p : Prop}, r.ownedExclusive = true → p := fun hex => by simp [hflag'] at hex
  refine h.set ht ?_ ?_ ?_ hcount hshared (fun _ => ?_) ?_ (fun _ _ _ => hflag'.trans hflag.symm) ?_
    (fun _ => hpos) (fun _ => .inl rfl) ?_ hentries (fun u hu => ?_) hshared hshared
  · rw [hsem, hevent]
    omega
  · rw [hns, hsem]
    omega
  · rw [hne, hevent]
    omega
  · have h1 := htotal handedExclusive
    have h2 := h.shared hflag
    exact ⟨by omega, hevent.trans h2.2⟩
  · simp [grant, h.not_exclusive hnone, hflag']
  · rw [hns, hne, hflag', ← hflag]
    exact h.waitsForExclusive
  · simp only [grant, hcnt]
    exact one_lt_ownerCountModulus
  · by_cases hut : u = t
    · exact .inl (holds_set.2 (by simp [hut, grant]))
    · rcases h.first u ((hfirst u hu).resolve_left hut) with hu' | hown
      · exact .inl (holds_set.2 (by simpa [hut] using hu'))
      · exact absurd hown (h.not_own hflag u)

theorem joinShared_inv (ht : t ∈ U) (hcalls : s.Calls t)
    (hflag : s.resource.ownedExclusive = false) (hactive : s.resource.activeEntries ≠ 0)
    (hvalid : s.resource.Valid slot) (hfree : (s.resource.entry slot).ownerThread = .none)
    (hnot : ∀ slot', (s.resource.entry slot').ownerThread ≠ .thread t) :
    Inv U (s.after t false (joinShared s.resource t slot)) := by
  unfold joinShared
  dsimp only
  rw [setEntry_activeEntries, if_neg hactive]
  have hnone := h.not_holds_of_unnamed hnot
  have hcnt := h.activeCount
  rw [if_neg hactive] at hcnt
  refine h.grantShared ht hnone hflag (by simp) rfl (by simpa using hcnt) (by simp) (by simp)
    (by simp) (by simp) hcalls.weights ?_ (fun u hu => ?_)
  · rw [owns_set fun u _ hpc => absurd hpc (h.not_own hflag u), grant_owns,
      Nat.eq_zero_of_not_pos hnone]
    exact h.entries_fill hvalid hfree hnot
  · have hu' : (s.resource.setEntry ⟨.thread t, 1⟩ slot).ownerEntry.ownerThread = .thread u := hu
    rw [setEntry_ownerEntry] at hu'
    split at hu'
    · exact .inl (OwnerThread.thread.inj hu').symm
    · exact .inr hu'

/-- A thread that does not get the resource fills in an entry of the table
    and waits. -/
theorem Inv.waitForShared (ht : t ∈ U) (hcalls : s.Calls t)
    (hvalid : s.resource.Valid slot) (hfree : (s.resource.entry slot).ownerThread = .none)
    (hslot : slot ≠ .first) (hnot : ∀ slot', (s.resource.entry slot').ownerThread ≠ .thread t)
    (hwait : s.resource.ownedExclusive = true ∨ 0 < s.resource.numberOfExclusiveWaiters) :
    Inv U (s.set { s.resource.setEntry ⟨.thread t, 1⟩ slot with
      numberOfSharedWaiters := s.resource.numberOfSharedWaiters + 1 } t
      ((s.threads t).goto .waitShared)) := by
  obtain ⟨hw1, hw2, hw3, hw4, hw5, hw6, hown⟩ := hcalls.plain.weights
  have hnone := h.not_holds_of_unnamed hnot
  have hcount : (s.threads t).count = 0 := Nat.eq_zero_of_not_pos hnone
  have hfirst : (s.resource.setEntry ⟨.thread t, 1⟩ slot).ownerEntry = s.resource.ownerEntry := by
    rw [setEntry_ownerEntry, if_neg hslot]
  refine h.moveTo ht rfl (by simp) (by simp) (by simp) hfirst ?_ ?_ ?_ ?_
    (fun _ => ⟨hw1, by simp⟩) (fun _ => ⟨hw2, by simp⟩) (fun _ => by simpa using hwait) (by simpa using h.owned)
    (fun hpos => absurd hpos hnone) hown
  · rw [owns_set fun u _ _ => by rw [show EResource.ownerEntry _ = _ from hfirst]]
    have hE := h.entries_fill hvalid hfree hnot
    have howns : ((s.threads t).goto .waitShared).owns
        (s.resource.setEntry ⟨.thread t, 1⟩ slot).ownerEntry.ownerThread t = some 1 := by
      simp [owns, goto, hcount]
    rw [← howns] at hE
    exact hE
  · rw [hw1, hw2]
    simp
  · rw [hw3, hw5]
    simp
    omega
  · rw [hw4, hw6]
    simp

end Waiting

/-! ## Section 2: The routines -/

variable {k : Request} {wait : Bool}

theorem Pc.Plain.owns {x : Thread} (h : x.pc.Plain) (first : OwnerThread) :
    x.owns first t = if 0 < x.count then some x.count else none := by
  unfold Thread.owns
  cases hpc : x.pc <;> simp_all [Pc.Plain]

/-- The same owners and waiters by number, and the same first entry. -/
structure SameCounts (r r' : EResource) : Prop where
  activeEntries : r'.activeEntries = r.activeEntries
  activeCount : r'.activeCount = r.activeCount
  ownedExclusive : r'.ownedExclusive = r.ownedExclusive
  ownerEntry : r'.ownerEntry = r.ownerEntry
  numberOfSharedWaiters : r'.numberOfSharedWaiters = r.numberOfSharedWaiters
  numberOfExclusiveWaiters : r'.numberOfExclusiveWaiters = r.numberOfExclusiveWaiters
  semaphore : r'.semaphore = r.semaphore
  event : r'.event = r.event

/-- The same owners and waiters. -/
structure SameOwners (r r' : EResource) : Prop extends SameCounts r r' where
  entry : r'.entry = r.entry

theorem SameCounts.refl (r : EResource) : SameCounts r r :=
  ⟨rfl, rfl, rfl, rfl, rfl, rfl, rfl, rfl⟩

theorem SameOwners.refl (r : EResource) : SameOwners r r :=
  ⟨.refl r, rfl⟩

theorem SameOwners.expand (r : EResource) (size : Nat) :
    SameOwners r (expExpandResourceOwnerTable r size) := by
  have hentry := entry_expand r size
  unfold expExpandResourceOwnerTable at *
  dsimp only at *
  split
  · rename_i heq
    simp only [heq, if_true] at hentry
    exact ⟨⟨rfl, rfl, rfl, rfl, rfl, rfl, rfl, rfl⟩, hentry⟩
  · exact .refl r

theorem SameCounts.setEntry_table (r : EResource) (e : OwnerEntry) (i : Nat) :
    SameCounts r (r.setEntry e (.table i)) := by
  constructor <;> simp [setEntry_ownerEntry]

/-- Places with the same weights. -/
structure Pc.SameWeights (pc pc' : Pc) : Prop where
  handedShared : pc.handedShared = pc'.handedShared
  handedExclusive : pc.handedExclusive = pc'.handedExclusive
  waitsShared : pc.waitsShared = pc'.waitsShared
  waitsExclusive : pc.waitsExclusive = pc'.waitsExclusive
  pendingShared : pc.pendingShared = pc'.pendingShared
  pendingExclusive : pc.pendingExclusive = pc'.pendingExclusive

/-- A thread moves between places that count alike. -/
theorem Inv.relocate (h : Inv U s) (ht : t ∈ U)
    (hsame : SameOwners s.resource r) (hweights : (s.threads t).pc.SameWeights pc)
    (howns : ((s.threads t).goto pc).owns s.resource.ownerEntry.ownerThread t = s.owns t)
    (hown : (s.threads t).pc ≠ .own) (hholds : s.Holds t → pc = .idle) :
    Inv U (s.set r t ((s.threads t).goto pc)) := by
  obtain ⟨hw1, hw2, hw3, hw4, hw5, hw6⟩ := hweights
  refine h.moveTo ht rfl hsame.activeEntries hsame.activeCount hsame.ownedExclusive hsame.ownerEntry
    (Entries.of_same h hsame.ownerEntry hsame.entry howns) ?_ ?_ ?_ (fun _ => ⟨hw1, hsame.semaphore⟩)
    (fun _ => ⟨hw2, hsame.event⟩) ?_ ?_ (fun hu => .inl (hholds hu)) hown
  · rw [hw1, hw2, hsame.semaphore, hsame.event]
  · rw [hw3, hw5, hsame.semaphore, hsame.numberOfSharedWaiters]
  · rw [hw4, hw6, hsame.event, hsame.numberOfExclusiveWaiters]
  · rw [hsame.numberOfSharedWaiters, hsame.numberOfExclusiveWaiters]
    exact h.waitsForExclusive
  · rw [hsame.numberOfExclusiveWaiters]
    exact h.owned

theorem Inv.plain (h : Inv U s) (ht : t ∈ U)
    (hold : (s.threads t).pc.Plain) (hnew : pc.Plain) (hsame : SameOwners s.resource r)
    (hholds : s.Holds t → pc = .idle) : Inv U (s.set r t ((s.threads t).goto pc)) := by
  obtain ⟨ho1, ho2, ho3, ho4, ho5, ho6, ho7⟩ := hold.weights
  obtain ⟨hn1, hn2, hn3, hn4, hn5, hn6, -⟩ := hnew.weights
  refine h.relocate ht hsame ⟨ho1.trans hn1.symm, ho2.trans hn2.symm, ho3.trans hn3.symm,
    ho4.trans hn4.symm, ho5.trans hn5.symm, ho6.trans hn6.symm⟩ ?_ ho7 hholds
  rw [State.owns, hold.owns, Pc.Plain.owns (x := (s.threads t).goto pc) hnew]
  rfl

/-- The routine stops, or returns without the resource. -/
theorem Inv.stop (h : Inv U s) (ht : t ∈ U) (hcalls : s.Calls t) (hnew : pc.Plain)
    (hholds : s.Holds t → pc = .idle) : Inv U (s.set s.resource t ((s.threads t).goto pc)) :=
  h.plain ht hcalls.plain hnew (.refl _) hholds

theorem waitForShared_inv (h : Inv U s) (ht : t ∈ U) (hcalls : s.Calls t)
    (hvalid : s.resource.Valid slot) (hfree : (s.resource.entry slot).ownerThread = .none)
    (hslot : slot ≠ .first) (hnone : ¬ s.Holds t)
    (hwait : s.resource.ownedExclusive = true ∨ 0 < s.resource.numberOfExclusiveWaiters) :
    Inv U (s.after t false (waitForShared s.resource t k wait slot)) := by
  unfold Resource.waitForShared
  split
  · exact h.stop ht hcalls trivial fun _ => rfl
  · split
    · exact h.stop ht hcalls trivial fun hold => absurd hold hnone
    · exact h.waitForShared ht hcalls hvalid hfree hslot
        (fun _ hnames => hnone (h.holds_of_named hcalls hnames).1) hwait

/-- A thread that found no place in a shared resource is not an owner. -/
theorem expFindEntryForThread_none (h : Inv U s) {b : Bool}
    (hfind : expFindEntryForThread s.resource t b = none) : ¬ s.Holds t := by
  apply h.not_holds_of_unnamed
  unfold expFindEntryForThread at hfind
  split at hfind
  · cases hfind
  rename_i hfirst
  split at hfind
  · cases hfind
  rename_i hnone
  intro slot
  cases slot with
  | first => exact hfirst
  | table i => exact findInTable_none hnone i

section Routines

variable (h : Inv U s) (ht : t ∈ U) (hcalls : s.Calls t)
  (hroom : (s.threads t).count + 1 < ownerCountModulus)

include h ht hcalls hroom

/-- A shared routine at an exclusively owned resource. -/
theorem sharedWhileExclusive_inv (hex : s.resource.ownedExclusive = true) :
    Inv U (s.after t false (sharedWhileExclusive s.resource t k wait)) := by
  unfold sharedWhileExclusive
  split
  · rename_i hfirst
    exact h.recurse ht hcalls .first trivial hfirst (by simp) hroom
  rename_i hfirst
  have hnone : ¬ s.Holds t := fun hold => hfirst (h.exclusiveFirst hex t hold)
  split
  · exact h.stop ht hcalls trivial fun hold => absurd hold hnone
  · rename_i slot hslot
    obtain ⟨hvalid, hfree, hne⟩ := freeInTable_spec hslot
    exact waitForShared_inv h ht hcalls hvalid hfree hne hnone (.inl hex)

/-- The shared routines at a resource without an exclusive owner; `o` is what they do at an entry
    that is free. -/
theorem findOrExpand_inv {busy : Bool} {o : Slot → Outcome}
    (ho : ∀ slot, s.resource.Valid slot → (s.resource.entry slot).ownerThread = .none →
      (∀ slot', (s.resource.entry slot').ownerThread ≠ .thread t) →
      (slot = .first → busy = false) → Inv U (s.after t false (o slot))) :
    Inv U (s.after t false (match expFindEntryForThread s.resource t busy with
      | none => .stops s.resource (.expand k wait s.resource.tableSize)
      | some slot =>
        if (s.resource.entry slot).ownerThread = .thread t then recurse s.resource slot
        else o slot)) := by
  split
  · rename_i hfind
    exact h.stop ht hcalls trivial fun hold => absurd hold (expFindEntryForThread_none h hfind)
  rename_i slot hfind
  obtain ⟨hvalid, hslot⟩ := expFindEntryForThread_spec hfind
  split
  · rename_i hnames
    exact h.recurse ht hcalls slot hvalid hnames (by simp) hroom
  · rename_i hother
    obtain ⟨hfree, hnot, hfirst⟩ := hslot.resolve_left hother
    exact ho slot hvalid hfree hnot hfirst

/-- The beginning that the shared routines have in common. -/
theorem sharedRoutine_inv {o : Outcome} (ho : s.resource.ownedExclusive = false →
      s.resource.activeEntries ≠ 0 → Inv U (s.after t false o)) :
    Inv U (s.after t false (if s.resource.activeEntries = 0 then
        .returns (takeFree s.resource t false) true
      else if s.resource.ownedExclusive then sharedWhileExclusive s.resource t k wait else o)) := by
  split
  · rename_i hzero
    exact h.takeFree ht hcalls false hzero
  rename_i hactive
  split
  · rename_i hex
    exact sharedWhileExclusive_inv h ht hcalls hroom hex
  · rename_i hflag
    exact ho (not_eq_true _ ▸ hflag) hactive

theorem exAcquireResourceExclusiveLite_inv (hlegal : ¬ s.HoldsShared t) :
    Inv U (s.after t true (exAcquireResourceExclusiveLite s.resource t wait)) := by
  unfold exAcquireResourceExclusiveLite
  split
  · rename_i hactive
    split
    · rename_i hown
      exact h.recurse ht hcalls .first trivial hown.2 (fun _ => hown.1) hroom
    rename_i hother
    -- a holder would be a shared one, or in the first entry
    have hnone : ¬ s.Holds t := by
      intro hold
      cases hflag : s.resource.ownedExclusive with
      | true => exact hother ⟨hflag, h.exclusiveFirst hflag t hold⟩
      | false =>
        apply hlegal
        refine ⟨hold, ?_⟩
        rw [← not_eq_true, h.mode t, hflag]
        simp
    split
    · exact h.stop ht hcalls trivial fun _ => rfl
    split
    · exact h.stop ht hcalls trivial fun hold => absurd hold hnone
    obtain ⟨hw1, hw2, hw3, hw4, hw5, hw6, hown⟩ := hcalls.plain.weights
    refine h.moveTo ht rfl rfl rfl rfl rfl (Entries.of_same h rfl rfl ?_) ?_ ?_ ?_ (fun _ => ⟨hw1, rfl⟩)
      (fun _ => ⟨hw2, rfl⟩) (fun _ => .inr (Nat.succ_pos _)) (fun _ => Nat.pos_of_ne_zero hactive)
      (fun hold => absurd hold hnone) hown
    · exact hcalls.owns.symm
    · rw [hw1, hw2]
      simp
    · rw [hw3, hw5]
      simp
    · rw [hw4, hw6]
      simp
      omega
  · rename_i hzero
    exact h.takeFree ht hcalls true (not_not.1 hzero)

theorem exAcquireResourceSharedLite_inv :
    Inv U (s.after t false (exAcquireResourceSharedLite s.resource t wait)) := by
  refine sharedRoutine_inv h ht hcalls hroom fun hflag hactive => findOrExpand_inv h ht hcalls hroom
    fun slot hvalid hfree hnot hfirst => ?_
  split
  · exact joinShared_inv h ht hcalls hflag hactive hvalid hfree hnot
  -- exclusive waiters keep the first entry out of reach
  rename_i hbusy
  have hpos : 0 < s.resource.numberOfExclusiveWaiters := by
    simpa [Nat.pos_iff_ne_zero] using hbusy
  refine waitForShared_inv h ht hcalls hvalid hfree (fun heq => ?_)
    (h.not_holds_of_unnamed hnot) (.inr hpos)
  simpa [hpos] using hfirst heq

theorem exAcquireSharedStarveExclusive_inv :
    Inv U (s.after t false (exAcquireSharedStarveExclusive s.resource t wait)) :=
  sharedRoutine_inv h ht hcalls hroom fun hflag hactive => findOrExpand_inv h ht hcalls hroom
    fun _ hvalid hfree hnot _ => joinShared_inv h ht hcalls hflag hactive hvalid hfree hnot

theorem exAcquireSharedWaitForExclusive_inv (hlegal : ¬ s.HoldsShared t) :
    Inv U (s.after t false (exAcquireSharedWaitForExclusive s.resource t wait)) := by
  refine sharedRoutine_inv h ht hcalls hroom fun hflag hactive => ?_
  have hnone : ¬ s.Holds t := by
    intro hold
    refine hlegal ⟨hold, ?_⟩
    rw [← not_eq_true, h.mode t, hflag]
    simp
  split
  · rename_i hpos
    split
    · exact h.stop ht hcalls trivial fun _ => rfl
    split
    · exact h.stop ht hcalls trivial fun hold => absurd hold hnone
    obtain ⟨hw1, hw2, hw3, hw4, hw5, hw6, hown⟩ := hcalls.plain.weights
    refine h.moveTo ht rfl rfl rfl rfl rfl (Entries.of_same h rfl rfl ?_) ?_ ?_ ?_ (fun _ => ⟨hw1, rfl⟩)
      (fun _ => ⟨hw2, rfl⟩) (fun _ => .inr hpos) h.owned (fun hold => absurd hold hnone)
      hown
    · exact hcalls.owns.symm
    · rw [hw1, hw2]
      simp
    · rw [hw3, hw5]
      simp
      omega
    · rw [hw4, hw6]
      simp
  · exact findOrExpand_inv h ht hcalls hroom fun _ hvalid hfree hnot _ =>
      joinShared_inv h ht hcalls hflag hactive hvalid hfree hnot

theorem attempt_inv (k : Request) (wait : Bool)
    (hlegal : k = .exclusive ∨ k = .waitForExclusive → ¬ s.HoldsShared t) :
    Inv U (s.after t (k = .exclusive) (attempt s.resource t k wait)) := by
  cases k with
  | exclusive => exact exAcquireResourceExclusiveLite_inv h ht hcalls hroom (hlegal (.inl rfl))
  | shared => exact exAcquireResourceSharedLite_inv h ht hcalls hroom
  | starveExclusive => exact exAcquireSharedStarveExclusive_inv h ht hcalls hroom
  | waitForExclusive =>
    exact exAcquireSharedWaitForExclusive_inv h ht hcalls hroom (hlegal (.inr rfl))

theorem exTryToAcquireResourceExclusiveLite_inv :
    Inv U (s.after t true (exTryToAcquireResourceExclusiveLite s.resource t)) := by
  unfold exTryToAcquireResourceExclusiveLite
  split
  · rename_i hcount
    have hzero : s.resource.activeEntries = 0 := by
      by_contra hne
      have := h.activeCount
      rw [if_neg hne] at this
      omega
    exact h.takeFree ht hcalls true hzero
  split
  · rename_i hown
    exact h.recurse ht hcalls .first trivial hown.2 (fun _ => hown.1) hroom
  · exact h.stop ht hcalls trivial fun _ => rfl

end Routines

end Acquire

end Resource
