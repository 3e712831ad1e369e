import ReactOS.Ex.ResourceAcquire

/-! # Exclusion and hand-over

    The release and the conversion of a resource hand it to its waiters, and
    the waiters take it up.  Together with the acquire routines this gives what
    the resource promises in every run in which no thread nests as many
    acquisitions as `OwnerCount` cannot count. -/

namespace Resource

open Thread Finset
open Function (update update_self update_of_ne)

/-! ## Section 1: Conversion -/

section Release

variable {U : Finset ThreadId} {s : State} {t : ThreadId} {x : Thread} {e : OwnerEntry} {pc : Pc}
  {r : EResource}

theorem owns_of_pos (h : 0 < x.count) (first : OwnerThread) : x.owns first t = some x.count :=
  if_pos h

theorem Inv.pc_ne_own_of_alone (h : Inv U s) (hex : s.resource.ownedExclusive = true)
    (hold : s.Holds t) (u : ThreadId) : (s.threads u).pc ≠ .own := by
  intro hpc
  have hle := h.le_total handedExclusive rfl u
  have halone := h.alone hex hold
  simp only [handedExclusive, hpc, Pc.handedExclusive] at hle
  omega

section

variable (h : Inv U s) (ht : t ∈ U) (hpc : (s.threads t).pc = .idle) (hold : s.Holds t)

include h ht hpc hold

/-- The owner of an exclusive resource shares it with `n` waiters, which are all
    there are. -/
theorem Inv.share (hex : s.resource.ownedExclusive = true) {n : Nat}
    (hn : s.resource.numberOfSharedWaiters = n)
    (hnew : x.pc = .idle ∧ n = 0 ∨ x.pc = .releaseSemaphore n)
    (hcount : x.count = (s.threads t).count) (hmode : x.exclusive = false) :
    Inv U (s.set { s.resource with
      ownedExclusive := false
      activeEntries := s.resource.activeEntries + n
      numberOfSharedWaiters := 0 } t x) := by
  obtain ⟨hone, -⟩ := h.exclusive hex
  obtain ⟨-, hhandedEx, hevent, halone⟩ := h.alone hex hold
  have hcnt := h.activeCount
  rw [if_neg (by omega)] at hcnt
  obtain ⟨hw1, hw2, hw3, hw4, hw5, hw6⟩ := State.Calls.weights (.inl hpc)
  obtain ⟨hx1, hx2, hx3, hx4, hx5, hx6⟩ : x.Weighs n 0 0 0 n 0 := by
    rcases hnew with ⟨hx, rfl⟩ | hx
    · exact weighs .idle hx
    · exact weighs (.releaseSemaphore n) hx
  have hpos : 0 < x.count := by
    rw [hcount]
    exact hold
  have hholding : x.holding = (s.threads t).holding := (if_pos hpos).trans (holding_pos hold).symm
  have htotal := total_set (s := s) ht { s.resource with
    ownedExclusive := false
    activeEntries := s.resource.activeEntries + n
    numberOfSharedWaiters := 0 } x handedExclusive
  refine h.set ht ?_ ?_ ?_ ?_ (by simp) (fun _ => ⟨?_, hevent⟩) (by simp [hmode])
    (fun u hu hold' => absurd (halone u hold') hu) (fun hz => absurd hz (Nat.lt_irrefl 0))
    (fun _ => ?_) (fun _ => hnew.imp And.left fun hx => ⟨_, hx⟩) ?_ ?_ (fun u hu => ?_)
    (by simp) (by simp)
  · dsimp only
    omega
  · dsimp only
    omega
  · dsimp only
    omega
  · rw [if_neg (show s.resource.activeEntries + n ≠ 0 by omega)]
    exact hcnt
  · omega
  · show 0 < s.resource.activeEntries + n
    omega
  · rw [hcount]
    exact h.small t
  · -- the entries are left alone
    refine Entries.of_same h rfl rfl ?_
    rw [owns_of_pos hpos, hcount]
    exact (owns_of_pos hold _).symm
  · refine .inl (holds_set.2 ?_)
    rcases h.first u hu with hu' | hown
    · grind
    · exact absurd hown (h.pc_ne_own_of_alone hex hold u)

theorem Inv.convert (hexclusive : (s.threads t).exclusive = true) :
    Inv U (s.set (exConvertExclusiveToSharedLite s.resource).1 t
      { s.threads t with
        pc := (exConvertExclusiveToSharedLite s.resource).2, exclusive := false }) := by
  have hex : s.resource.ownedExclusive = true := ((h.mode t).1 hexclusive).2
  unfold exConvertExclusiveToSharedLite
  dsimp only
  split
  · exact h.share ht hpc hold hex rfl (.inr rfl) rfl rfl
  rename_i hzero
  have hn := Nat.eq_zero_of_not_pos hzero
  have h' := h.share ht hpc hold hex (x := { s.threads t with pc := .idle, exclusive := false })
    hn (.inl ⟨rfl, rfl⟩) rfl rfl
  simpa [hn] using h'

end

/-! ## Section 2: Release -/

theorem decrement_ownerCount (hpos : 0 < e.ownerCount) :
    e.decrement.ownerCount = e.ownerCount - 1 :=
  if_neg (Nat.ne_of_gt hpos)

theorem Inv.decrement_entry (h : Inv U s) (hpc : (s.threads t).pc = .idle) (hold : s.Holds t)
    {slot : Slot} (hnames : (s.resource.entry slot).ownerThread = .thread t) :
    (s.resource.entry slot).decrement.ownerCount = (s.threads t).count - 1 := by
  have hcnt := (h.holds_of_named (.inl hpc) hnames).2
  have hpos : 0 < (s.resource.entry slot).ownerCount := by
    rw [hcnt]
    exact hold
  rw [decrement_ownerCount hpos, hcnt]

theorem giveBack_owns (hlast : x.count = 1) (hpc : pc ≠ .waitShared ∧ pc ≠ .granted ∧ pc ≠ .own)
    (first : OwnerThread) : (x.giveBack pc).owns first t = none := by
  unfold owns giveBack
  rw [if_neg (by simp [hlast])]
  cases pc <;> simp_all

theorem Inv.giveOne (h : Inv U s) (ht : t ∈ U) (hpc : (s.threads t).pc = .idle)
    (hmany : 1 < (s.threads t).count) (slot : Slot) (hvalid : s.resource.Valid slot)
    (hnames : (s.resource.entry slot).ownerThread = .thread t) :
    Inv U (s.set (s.resource.setEntry (s.resource.entry slot).decrement slot) t
      ((s.threads t).giveBack .idle)) := by
  have hcalls : s.Calls t := .inl hpc
  obtain ⟨hold, hcnt⟩ := h.holds_of_named hcalls hnames
  have hsmall := h.small t
  refine h.setCount ht hcalls hvalid hnames hnames ?_ (Nat.sub_pos_of_lt hmany)
    (show (s.threads t).count - 1 < _ by omega) rfl ?_
  · rw [decrement_ownerCount (by omega), hcnt]
    rfl
  · simp only [giveBack, hmany, decide_true, Bool.and_true, h.mode t]
    exact and_iff_right hold

/-- An owner gives its last acquisition back; what becomes of the resource is
    left open. -/
theorem Inv.giveLast (h : Inv U s) (ht : t ∈ U) (hpc : (s.threads t).pc = .idle)
    (hlast : (s.threads t).count = 1) (hown : ∀ u, (s.threads u).pc ≠ .own)
    (hnew : pc ≠ .waitShared ∧ pc ≠ .granted ∧ pc ≠ .own)
    (hplain : pc.waitsShared = 0 ∧ pc.waitsExclusive = 0)
    (hentries : Entries r.entry (update s.owns t none))
    (hsem : r.semaphore = s.resource.semaphore) (hevent : r.event = s.resource.event)
    (hactive : r.activeEntries + 1 =
      s.resource.activeEntries + pc.handedShared + pc.handedExclusive)
    (hns : s.resource.numberOfSharedWaiters = r.numberOfSharedWaiters + pc.pendingShared)
    (hne : s.resource.numberOfExclusiveWaiters = r.numberOfExclusiveWaiters + pc.pendingExclusive)
    (hcount : r.activeCount = if r.activeEntries = 0 then 0 else 1)
    (hexclusive : r.ownedExclusive = true → r.activeEntries = 1 ∧
      s.total U handedShared + pc.handedShared = 0 ∧ r.semaphore = 0)
    (hshared : r.ownedExclusive = false →
      s.total U handedExclusive + pc.handedExclusive = 0 ∧ r.event = false)
    (hflag : ∀ u, u ≠ t → s.Holds u → r.ownedExclusive = s.resource.ownedExclusive)
    (hwaits : 0 < r.numberOfSharedWaiters →
      r.ownedExclusive = true ∨ 0 < r.numberOfExclusiveWaiters)
    (howned : 0 < r.numberOfExclusiveWaiters → 0 < r.activeEntries)
    (hfirst : ∀ u, r.ownerEntry.ownerThread = .thread u → u ≠ t ∧ s.Holds u)
    (hother : r.ownedExclusive = true → ∀ u, u ≠ t → ¬ s.Holds u)
    (htransit : r.ownedExclusive = true → r.ownerEntry.ownerCount = 1) :
    Inv U (s.set r t ((s.threads t).giveBack pc)) := by
  have hcalls : s.Calls t := .inl hpc
  obtain ⟨hw1, hw2, hw3, hw4, hw5, hw6⟩ := hcalls.weights
  have hhold : s.Holds t := by
    show 0 < (s.threads t).count
    omega
  have hholding := holding_pos hhold
  have hzero : ((s.threads t).giveBack pc).count = 0 := by simp [giveBack, hlast]
  have hg0 : ((s.threads t).giveBack pc).holding = 0 := if_neg (by omega)
  obtain ⟨hg1, hg2, hg3, hg4, hg5, hg6⟩ := weighs (x := (s.threads t).giveBack pc) pc rfl
  have htotal := total_set (s := s) ht r ((s.threads t).giveBack pc)
  refine h.set ht ?_ ?_ ?_ hcount (fun hex => ?_) (fun hex => ?_) ?_ hflag hwaits howned ?_ ?_ ?_
    (fun u hu => ?_) (fun hex u hu => ?_) (fun hex _ => htransit hex)
  · rw [hsem, hevent]
    omega
  · rw [hsem]
    omega
  · rw [hevent]
    omega
  · grind
  · grind
  · simp [giveBack, hlast]
  · rw [hzero]
    exact fun hf => absurd hf (Nat.lt_irrefl 0)
  · rw [hzero]
    exact Nat.zero_lt_of_lt one_lt_ownerCountModulus
  · rw [owns_set fun u _ hpcu => absurd hpcu (hown u), giveBack_owns hlast hnew]
    exact hentries
  · obtain ⟨hut, hold⟩ := hfirst u hu
    exact .inl (holds_set.2 (by rw [if_neg hut]; exact hold))
  · rw [holds_set] at hu
    by_cases hut : u = t
    · rw [if_pos hut, hzero] at hu
      exact absurd hu (Nat.lt_irrefl 0)
    · rw [if_neg hut] at hu
      exact absurd hu (hother hex u hut)

theorem Inv.entries_clear (h : Inv U s) {slot : Slot}
    (hnames : (s.resource.entry slot).ownerThread = .thread t)
    (hclear : ∀ u, e.ownerThread ≠ .thread u) :
    Entries (update s.resource.entry slot e) (update s.owns t none) := by
  refine h.entries.update _ (fun u hu => ?_) (fun slot' hs' => ?_) (.inr ⟨hclear, rfl⟩)
  · exact OwnerThread.thread.inj (hu.symm.trans hnames)
  · exact h.entries.unique _ _ _ hs' hnames

theorem entry_of_first {r' : EResource} (htable : r'.ownerTable = r.ownerTable) :
    r'.entry = update r.entry .first r'.ownerEntry := by
  funext slot
  cases slot <;> simp [EResource.entry, EResource.entries, htable]

/-- The first entry gets the placeholder of an owner that has not run yet. -/
theorem entries_handOver {r' : EResource} {owns : ThreadId → Option Nat}
    (h : Entries r.entry (update owns t none))
    (hfree : ∀ u, (r.entry .first).ownerThread ≠ .thread u)
    (htable : r'.ownerTable = r.ownerTable) (he : r'.ownerEntry.ownerThread = .placeholder) :
    Entries r'.entry (update owns t none) := by
  rw [entry_of_first htable]
  have hE := h.update .first (t := t) (e := r'.ownerEntry) (x := none) (fun u hu =>
    absurd hu (hfree u)) (fun slot' hs' => ?_) (.inr ⟨fun u => by simp [he], rfl⟩)
  · rwa [Function.update_idem] at hE
  · have := h.named slot' t hs'
    simp at this

section Holding

variable (h : Inv U s)

include h

/-- The first entry is cleared, or gets the placeholder. -/
theorem Inv.entries_clear_first (hnames : (s.resource.entry .first).ownerThread = .thread t)
    (htable : r.ownerTable = s.resource.ownerTable)
    (hclear : ∀ u, r.ownerEntry.ownerThread ≠ .thread u) :
    Entries r.entry (update s.owns t none) := by
  rw [entry_of_first htable]
  exact h.entries_clear hnames hclear

theorem releaseExclusive_inv (ht : t ∈ U) (hpc : (s.threads t).pc = .idle)
    (hold : s.Holds t) (hex : s.resource.ownedExclusive = true) :
    Inv U (s.set (releaseExclusive s.resource).1 t
      ((s.threads t).giveBack (releaseExclusive s.resource).2)) := by
  have hnames : (s.resource.entry .first).ownerThread = .thread t := h.exclusiveFirst hex t hold
  have hdec : s.resource.ownerEntry.decrement.ownerCount = (s.threads t).count - 1 :=
    h.decrement_entry hpc hold hnames
  obtain ⟨hone, hhanded, hsem⟩ := h.exclusive hex
  obtain ⟨-, hhandedEx, hevent, halone⟩ := h.alone hex hold
  have hown := h.pc_ne_own_of_alone hex hold
  have hcount := h.activeCount
  rw [if_neg (by omega)] at hcount
  unfold releaseExclusive
  dsimp only
  by_cases hmany : 1 < (s.threads t).count
  · rw [if_pos (by rw [hdec]; omega)]
    exact h.giveOne ht hpc hmany .first trivial hnames
  have hlast : (s.threads t).count = 1 := by
    have : 0 < (s.threads t).count := hold
    omega
  rw [if_neg (by rw [hdec]; omega)]
  have hnobody : ∀ u, u ≠ t → ¬ s.Holds u := fun u hu hold' => hu (halone u hold')
  split
  · -- the shared waiters are let in
    rename_i hshared
    refine h.giveLast ht hpc hlast hown (by simp) ⟨rfl, rfl⟩ ?_ rfl rfl ?_ ?_ rfl ?_
      (by simp) (fun _ => ⟨?_, hevent⟩) (fun u hu hold' => absurd hold' (hnobody u hu))
      (fun hf => absurd hf (Nat.lt_irrefl 0)) (fun _ => hshared) (by simp) (by simp) (by simp)
    · exact h.entries_clear_first hnames rfl (by simp)
    · simp only [Pc.handedShared, Pc.handedExclusive]
      omega
    · simp only [Pc.pendingShared]
      omega
    · rw [if_neg (Nat.ne_of_gt hshared)]
      exact hcount
    · exact hhandedEx
  rename_i hnone
  split
  · -- an exclusive waiter is handed the resource
    rename_i hexcl
    refine h.giveLast ht hpc hlast hown (by simp [giveExclusive]) ⟨rfl, rfl⟩ ?_ rfl rfl ?_ rfl ?_
      ?_ (fun _ => ⟨rfl, ?_, hsem⟩) (by simp [giveExclusive])
      (fun u hu hold' => absurd hold' (hnobody u hu)) (fun _ => .inl rfl)
      (fun _ => Nat.one_pos) (by simp [giveExclusive]) (fun _ => hnobody) (fun _ => rfl)
    · exact h.entries_clear_first hnames rfl (by simp [giveExclusive])
    · simp only [giveExclusive, Pc.handedShared, Pc.handedExclusive]
      omega
    · simp only [giveExclusive, Pc.pendingExclusive]
      omega
    · exact hcount
    · exact hhanded
  · -- nobody waits
    rename_i hnoexcl
    refine h.giveLast ht hpc hlast hown (by simp) ⟨rfl, rfl⟩ ?_ rfl rfl ?_ rfl rfl ?_
      (by simp) (fun _ => ⟨?_, hevent⟩)
      (fun u hu hold' => absurd hold' (hnobody u hu)) (fun hf => absurd hf hnone)
      (fun hf => absurd hf hnoexcl) (by simp) (by simp) (by simp)
    · exact h.entries_clear_first hnames rfl (by simp)
    · simp only [Pc.handedShared, Pc.handedExclusive]
      omega
    · rw [if_pos (show s.resource.activeEntries - 1 = 0 by omega)]
    · exact hhandedEx

/-- A shared owner finds its entry, whatever the hint says. -/
theorem ownedEntry_spec (hold : s.Holds t) (i : Nat) :
    ∃ slot, ownedEntry s.resource t i = some slot ∧ s.resource.Valid slot ∧
      (s.resource.entry slot).ownerThread = .thread t := by
  unfold ownedEntry
  split
  · exact ⟨.first, rfl, trivial, by assumption⟩
  rename_i hfirst
  split
  · rename_i hhint
    refine ⟨_, rfl, ?_, hhint.2.2⟩
    obtain ⟨hpos, hlt, -⟩ := hhint
    unfold EResource.tableSize at hlt
    unfold EResource.Valid EResource.entries
    cases htable : s.resource.ownerTable with
    | none =>
      rw [htable] at hlt
      exact absurd hlt (Nat.not_lt_zero _)
    | some l =>
      rw [htable] at hlt
      simp only [Option.getD_some] at hlt ⊢
      omega
  · cases hfind : findInTable s.resource t with
    | some slot => exact ⟨slot, rfl, findInTable_some hfind⟩
    | none =>
      refine absurd hold (h.not_holds_of_unnamed fun slot => ?_)
      cases slot with
      | first => exact hfirst
      | table j => exact findInTable_none hfind j

theorem releaseShared_inv (ht : t ∈ U) (hpc : (s.threads t).pc = .idle)
    (hold : s.Holds t) (hflag : s.resource.ownedExclusive = false) (i : Nat) :
    ∃ r pc, releaseShared s.resource t i = some (r, pc) ∧
      Inv U (s.set r t ((s.threads t).giveBack pc)) := by
  obtain ⟨slot, hslot, hvalid, hnames⟩ := ownedEntry_spec h hold i
  have hdec := h.decrement_entry hpc hold hnames
  obtain ⟨hhandedEx, hevent⟩ := h.shared hflag
  unfold releaseShared
  rw [hslot]
  dsimp only
  by_cases hmany : 1 < (s.threads t).count
  · rw [if_pos (by rw [hdec]; omega)]
    exact ⟨_, _, rfl, h.giveOne ht hpc hmany slot hvalid hnames⟩
  have hlast : (s.threads t).count = 1 := by
    have : 0 < (s.threads t).count := hold
    omega
  rw [if_neg (by rw [hdec]; omega)]
  have hclear := h.entries_clear (e := { (s.resource.entry slot).decrement with
    ownerThread := .none }) hnames (by simp)
  rw [← entry_setEntry _ hvalid] at hclear
  have hactive := h.active
  have hle := h.le_total holding rfl t
  rw [holding_pos hold] at hle
  have hcount := h.activeCount
  rw [if_neg (by omega)] at hcount
  -- the first entry is not the thread's any more
  have hfirst : ∀ u, (s.resource.setEntry { (s.resource.entry slot).decrement with
      ownerThread := .none } slot).ownerEntry.ownerThread = .thread u → u ≠ t ∧ s.Holds u := by
    intro u hu
    rw [setEntry_ownerEntry] at hu
    split at hu
    · cases hu
    rename_i hne
    have hut : u ≠ t := by
      intro heq
      subst heq
      exact hne (h.entries.unique slot .first u hnames hu)
    rcases h.first u hu with hu' | hown
    · exact ⟨hut, hu'⟩
    · exact absurd hown (h.not_own hflag u)
  -- nothing is handed over
  have hrest : ∀ n, (n = if s.resource.activeEntries - 1 = 0 then 0 else 1) →
      (0 < s.resource.numberOfExclusiveWaiters → 0 < s.resource.activeEntries - 1) →
      Inv U (s.set { s.resource.setEntry { (s.resource.entry slot).decrement with
        ownerThread := .none } slot with
          activeEntries := s.resource.activeEntries - 1
          activeCount := n
          numberOfExclusiveWaiters := s.resource.numberOfExclusiveWaiters } t
        ((s.threads t).giveBack .idle)) := by
    intro n hn howned
    have hshared : ∀ {p : Prop}, (s.resource.setEntry { (s.resource.entry slot).decrement with
        ownerThread := .none } slot).ownedExclusive = true → p := fun hex => by simp [hflag] at hex
    refine h.giveLast ht hpc hlast (h.not_own hflag) (by simp) ⟨rfl, rfl⟩ hclear
      (by simp) (by simp) ?_ (by simp) (by simp) hn hshared
      (fun _ => ⟨hhandedEx, by simpa using hevent⟩) (fun _ _ _ => by simp)
      (by simpa using h.waitsForExclusive) (by simpa using howned) hfirst hshared hshared
    simp only [Pc.handedShared, Pc.handedExclusive]
    omega
  simp only [setEntry_activeEntries, setEntry_numberOfExclusiveWaiters]
  split
  · rename_i hzero
    have hnobody : ∀ u, u ≠ t → ¬ s.Holds u := by
      intro u hu hold'
      have hpair := h.add_le_total holding rfl hu
      rw [holding_pos hold, holding_pos hold'] at hpair
      omega
    split
    · rename_i hexcl
      refine ⟨_, _, rfl, h.giveLast ht hpc hlast (h.not_own hflag) (by simp) ⟨rfl, rfl⟩ ?_ (by simp)
        (by simp) ?_ (by simp) ?_ (by simpa using hcount) (fun _ => ⟨rfl, ?_, ?_⟩)
        (by simp) (fun u hu hold' => absurd hold' (hnobody u hu)) (fun _ => .inl rfl)
        (fun _ => Nat.one_pos) (by simp) (fun _ => hnobody) (fun _ => rfl)⟩
      · refine entries_handOver hclear (fun u hu => ?_) rfl rfl
        obtain ⟨hut, hold'⟩ := hfirst u hu
        exact hnobody u hut hold'
      · simp only [Pc.handedShared, Pc.handedExclusive]
        omega
      · simp only [Pc.pendingExclusive]
        omega
      · simp only [Pc.handedShared]
        omega
      · simp only [setEntry_semaphore]
        omega
    · rename_i hnoexcl
      exact ⟨_, _, rfl, hrest 0 (if_pos hzero).symm fun hpos => absurd hpos hnoexcl⟩
  · rename_i hmore
    refine ⟨_, _, rfl, hrest _ ?_ fun _ => Nat.pos_of_ne_zero hmore⟩
    rw [if_neg hmore]
    simpa using hcount

theorem release_inv (ht : t ∈ U) (hpc : (s.threads t).pc = .idle)
    (hold : s.Holds t) (i : Nat) :
    ∃ r pc, exReleaseResourceForThreadLite s.resource t i = some (r, pc) ∧
      Inv U (s.set r t ((s.threads t).giveBack pc)) := by
  unfold exReleaseResourceForThreadLite
  cases hex : s.resource.ownedExclusive with
  | true => exact ⟨_, _, rfl, releaseExclusive_inv h ht hpc hold hex⟩
  | false => exact releaseShared_inv h ht hpc hold hex i

/-! ## Section 3: The end of a wait -/

/-- A thread inside an acquire routine it has to wait in holds nothing. -/
theorem Inv.inside (hpc : (s.threads t).pc = pc)
    (hne : pc ≠ .idle ∧ ∀ n, pc ≠ .releaseSemaphore n) :
    ¬ s.Holds t ∧ (s.threads t).count = 0 := by
  have hnone : ¬ s.Holds t := by
    intro hold
    rcases h.place t hold with hidle | ⟨n, hsem⟩
    · exact hne.1 (hpc.symm.trans hidle)
    · exact hne.2 n (hpc.symm.trans hsem)
  exact ⟨hnone, Nat.eq_zero_of_not_pos hnone⟩

theorem Inv.takeSignal (ht : t ∈ U) (hpos : 0 < s.resource.semaphore)
    (hpc : (s.threads t).pc = .waitShared ∧ pc = .granted ∨
      (s.threads t).pc = .waitUnlisted ∧ pc = .claim) :
    Inv U (s.set { s.resource with semaphore := s.resource.semaphore - 1 } t
      ((s.threads t).goto pc)) := by
  have hflag := h.not_exclusively (.inr (.inr hpos))
  rcases hpc with ⟨hp, rfl⟩ | ⟨hp, rfl⟩
  all_goals
    obtain ⟨hnone, hcount⟩ := h.inside hp (by simp)
    refine h.moveTo ht hp rfl rfl rfl rfl (Entries.of_same h rfl rfl ?_) ?_ ?_ rfl (fun hex => ?_)
      (fun _ => ⟨rfl, rfl⟩) h.waitsForExclusive h.owned (fun hold => absurd hold hnone) (by simp)
    · simp [State.owns, owns, goto, hp, hcount]
    · simp only [Pc.handedShared, Pc.handedExclusive]
      omega
    · simp only [Pc.waitsShared, Pc.pendingShared]
      omega
    · simp [hflag] at hex

theorem Inv.releaseSemaphore (ht : t ∈ U) {n : Nat}
    (hpc : (s.threads t).pc = .releaseSemaphore n) :
    Inv U (s.set { s.resource with semaphore := s.resource.semaphore + n } t
      ((s.threads t).goto .idle)) := by
  refine h.moveTo ht hpc rfl rfl rfl rfl (Entries.of_same h rfl rfl ?_) ?_ ?_ rfl (fun hex => ?_)
    (fun _ => ⟨rfl, rfl⟩) h.waitsForExclusive h.owned (fun _ => .inl rfl) (by simp)
  · simp only [State.owns, owns, goto, hpc]
    rfl
  · simp only [Pc.handedShared, Pc.handedExclusive]
    omega
  · simp only [Pc.waitsShared, Pc.pendingShared]
    omega
  · -- an exclusive owner was not handed anything shared
    have hle := h.le_total handedShared rfl t
    have hnone := (h.exclusive hex).2.1
    simp only [handedShared, hpc, Pc.handedShared] at hle ⊢
    omega

/-- What is exclusive and on its way belongs to an exclusively owned resource,
    and is all of it. -/
theorem Inv.exclusive_of_handed (hpos : 0 < (s.threads t).pc.handedExclusive) :
    s.resource.ownedExclusive = true ∧ (∀ u, ¬ s.Holds u) ∧ s.resource.event = false ∧
      ∀ u, u ≠ t → (s.threads u).handedExclusive = 0 := by
  have hle : (s.threads t).pc.handedExclusive ≤ _ := h.le_total handedExclusive rfl t
  have hex : s.resource.ownedExclusive = true := by
    cases hflag : s.resource.ownedExclusive with
    | true => rfl
    | false =>
      have := (h.shared hflag).1
      omega
  obtain ⟨hone, hhanded, hsem⟩ := h.exclusive hex
  have hactive := h.active
  have hevent : s.resource.event.toNat = 0 := by omega
  refine ⟨hex, fun u hu => ?_, by simpa using hevent, fun u hu => ?_⟩
  · have hle' := h.le_total holding rfl u
    rw [holding_pos hu] at hle'
    omega
  · have hpair : _ + (s.threads t).pc.handedExclusive ≤ _ := h.add_le_total handedExclusive rfl hu
    omega

theorem Inv.setEvent (ht : t ∈ U) (hpc : (s.threads t).pc = .setEvent) :
    Inv U (s.set { s.resource with event := true } t ((s.threads t).goto .idle)) := by
  obtain ⟨hex, -, hevent, -⟩ := h.exclusive_of_handed (t := t) (by simp [hpc])
  refine h.moveTo ht hpc rfl rfl rfl rfl (Entries.of_same h rfl rfl ?_) ?_ rfl ?_
    (fun _ => ⟨rfl, rfl⟩) (fun hflag => ?_) h.waitsForExclusive h.owned (fun _ => .inl rfl) (by simp)
  · simp only [State.owns, owns, goto, hpc]
    rfl
  · simp [hevent]
    omega
  · simp [hevent]
  · simp [hex] at hflag

theorem Inv.takeEvent (ht : t ∈ U) (hpc : (s.threads t).pc = .waitExclusive)
    (hevent : s.resource.event = true) :
    Inv U (s.set { s.resource with event := false } t ((s.threads t).goto .own)) := by
  have hex : s.resource.ownedExclusive = true := by
    cases hflag : s.resource.ownedExclusive with
    | true => rfl
    | false => simp [(h.shared hflag).2] at hevent
  obtain ⟨hnone, hcount⟩ := h.inside hpc (by simp)
  have hfirst : s.resource.ownerEntry.ownerThread ≠ .thread t := by
    intro hnames
    rcases h.first t hnames with hold | hown
    · exact hnone hold
    · simp [hpc] at hown
  refine h.moveTo ht hpc rfl rfl rfl rfl (Entries.of_same h rfl rfl ?_) ?_ rfl ?_
    (fun _ => ⟨rfl, rfl⟩) (fun hflag => ?_) h.waitsForExclusive h.owned
    (fun hold => absurd hold hnone) (by simp)
  · simp [State.owns, owns, goto, hpc, hcount, hfirst]
  · simp [hevent]
    omega
  · simp [hevent]
  · simp [hex] at hflag

/-- A thread that took a signal of the semaphore returns as an owner. -/
theorem Inv.takeShared (ht : t ∈ U)
    (hpc : (s.threads t).pc = .granted ∨ (s.threads t).pc = .claim)
    (hsame : SameCounts s.resource r)
    (hentries : Entries r.entry (s.set r t ((s.threads t).grant false)).owns) :
    Inv U (s.set r t ((s.threads t).grant false)) := by
  have hnone : ¬ s.Holds t := by
    rcases hpc with hpc | hpc <;> exact (h.inside hpc (by simp)).1
  have hw : (s.threads t).Weighs 1 0 0 0 0 0 := by
    rcases hpc with hpc | hpc
    · exact weighs .granted hpc
    · exact weighs .claim hpc
  -- a signal of the semaphore is on its way only while the resource is shared
  have hflag := h.not_exclusively (.inr (.inl (hw.handedShared.ge.trans (h.le_total _ rfl t))))
  refine h.grantShared ht hnone hflag hsame.ownedExclusive ?_ ?_ hsame.numberOfSharedWaiters
    hsame.numberOfExclusiveWaiters hsame.semaphore hsame.event hw hentries (fun u hu => ?_)
  · rw [hsame.activeEntries]
  · rw [hsame.activeCount, hsame.activeEntries]
    exact h.activeCount
  · rw [hsame.ownerEntry] at hu
    exact .inr hu

theorem Inv.granted (ht : t ∈ U) (hpc : (s.threads t).pc = .granted) :
    Inv U (s.set s.resource t ((s.threads t).grant false)) := by
  obtain ⟨-, hcount⟩ := h.inside hpc (by simp)
  refine h.takeShared ht (.inl hpc) (.refl _) (Entries.of_same h rfl rfl ?_)
  simp [State.owns, owns, grant, hpc, hcount]

/-- The thread without an entry finds one and returns, or goes to expand the
    table. -/
theorem Inv.claim (ht : t ∈ U) (hpc : (s.threads t).pc = .claim) :
    Inv U (s.after t false (claimEntry s.resource t)) := by
  obtain ⟨hnone, hcount⟩ := h.inside hpc (by simp)
  have howns : s.owns t = none := by simp [State.owns, owns, hpc, hcount]
  unfold claimEntry
  split
  · refine h.relocate ht (.refl _) (by rw [hpc]; exact ⟨rfl, rfl, rfl, rfl, rfl, rfl⟩) ?_
      (by simp [hpc]) (fun hold => absurd hold hnone)
    rw [howns]
    simp [owns, goto, hcount]
  rename_i slot hfound
  obtain ⟨hvalid, hnames | ⟨hfree, hnot, hfirst⟩⟩ := expFindEntryForThread_spec hfound
  · have := h.entries.named slot t hnames
    rw [howns] at this
    cases this
  cases slot with
  | first => cases hfirst rfl
  | table i =>
    refine h.takeShared ht (.inr hpc) (.setEntry_table _ _ i) ?_
    have hsame := SameCounts.setEntry_table s.resource ⟨.thread t, 1⟩ i
    rw [owns_set fun u _ _ => by rw [hsame.ownerEntry], grant_owns, hcount]
    exact h.entries_fill hvalid hfree hnot

/-- The first entry while the resource is on its way to an exclusive waiter
    that took the event. -/
theorem Inv.own_first (hpc : (s.threads t).pc = .own)
    (hr : r.ownerEntry = { s.resource.ownerEntry with ownerThread := .thread t })
    (htable : r.ownerTable = s.resource.ownerTable) (hx : x.owns (.thread t) t = some 1) :
    Entries r.entry (s.set r t x).owns := by
  obtain ⟨hex, hnone, -, hother⟩ := h.exclusive_of_handed (t := t) (by simp [hpc])
  have hcount : (s.threads t).count = 0 := Nat.eq_zero_of_not_pos (hnone t)
  have hone := h.inTransit hex hnone
  have hown : ∀ u, u ≠ t → (s.threads u).pc ≠ .own := by
    intro u hu hpc'
    have := hother u hu
    simp [handedExclusive, hpc'] at this
  rw [owns_set fun u hu hpc' => absurd hpc' (hown u hu), entry_of_first htable, hr, hx]
  refine h.entries.update _ (fun u hu => ?_) (fun slot hs => ?_) (.inl ⟨rfl, by rw [hone]⟩)
  · rcases h.first u hu with hold | hpc'
    · exact absurd hold (hnone u)
    · by_contra hut
      exact hown u hut hpc'
  · -- the thread has an entry only if it is in the first one
    have hnamed := h.entries.named slot t hs
    have hfirst : s.resource.ownerEntry.ownerThread = .thread t := by
      by_contra hne
      simp [State.owns, owns, hpc, hcount, hne] at hnamed
    exact h.entries.unique _ _ _ hs hfirst

/-- The obligations of a step that writes the thread that took the event into
    the first entry. -/
theorem Inv.setFirst (ht : t ∈ U) (hpc : (s.threads t).pc = .own)
    (hx : x = s.threads t ∨ x = (s.threads t).grant true) :
    Inv U (s.set { s.resource with
      ownerEntry := { s.resource.ownerEntry with ownerThread := .thread t } } t x) := by
  obtain ⟨hex, hnone, -, hother⟩ := h.exclusive_of_handed (t := t) (by simp [hpc])
  have hcount : (s.threads t).count = 0 := Nat.eq_zero_of_not_pos (hnone t)
  have hholding : (s.threads t).holding = 0 := if_neg (hnone t)
  have hone := h.inTransit hex hnone
  obtain ⟨hactive, hhanded, hsem⟩ := h.exclusive hex
  obtain ⟨hg0, hg1, hg2, hg3, hg4, hg5, hg6⟩ := grant_weights (s.threads t) true
  obtain ⟨hw1, hw2, hw3, hw4, hw5, hw6⟩ : (s.threads t).Weighs 0 1 0 0 0 0 := weighs .own hpc
  -- the thread counts once, be it still on its way or an owner now
  have hxw : x.holding + x.handedExclusive = 1 ∧ x.handedShared = 0 ∧ x.waitsShared = 0 ∧
      x.waitsExclusive = 0 ∧ x.pendingShared = 0 ∧ x.pendingExclusive = 0 := by
    rcases hx with rfl | rfl <;> omega
  have htotal := total_set (s := s) ht { s.resource with
    ownerEntry := { s.resource.ownerEntry with ownerThread := .thread t } } x handedShared
  have hholds : ∀ u, (s.set { s.resource with
      ownerEntry := { s.resource.ownerEntry with ownerThread := .thread t } } t x).Holds u →
      u = t := by
    intro u hu
    by_contra hut
    exact hnone u (by simpa [hut] using holds_set.1 hu)
  have hxowns : x.owns (.thread t) t = some 1 := by
    rcases hx with rfl | rfl
    · simp [owns, hcount, hpc]
    · simp [owns, grant, hcount]
  refine h.set ht ?_ ?_ ?_ h.activeCount (fun _ => ⟨hactive, ?_, hsem⟩) (fun hf => ?_) ?_
    (fun _ _ _ => rfl) h.waitsForExclusive h.owned (fun hpos => ?_) ?_ (h.own_first hpc rfl rfl hxowns)
    (fun u hu => ?_) (fun _ u hu => ?_) (fun _ _ => hone)
  · dsimp only
    omega
  · dsimp only
    omega
  · dsimp only
    omega
  · omega
  · simp [hex] at hf
  · rcases hx with rfl | rfl
    · simp [h.not_exclusive (hnone t), hcount]
    · simp [grant, hex]
  · rcases hx with rfl | rfl
    · omega
    · exact .inl rfl
  · have hlt := one_lt_ownerCountModulus
    rcases hx with rfl | rfl
    · omega
    · simp only [grant, hcount]
      exact hlt
  · have hut : u = t := (OwnerThread.thread.inj hu).symm
    subst hut
    rcases hx with rfl | rfl
    · exact .inr (by simpa using hpc)
    · exact .inl (holds_set.2 (by simp [grant]))
  · rw [hholds u hu]

/-! ## Section 4: The steps -/

/-- `KeSetEventBoostPriority` makes the thread it wakes the owner before that
    thread runs. -/
theorem Inv.setEventBoostPriority (ht : t ∈ U) {w : ThreadId} (hw : w ∈ U)
    (hpc : (s.threads t).pc = .setEvent) (hwait : (s.threads w).pc = .waitExclusive) :
    Inv U ((s.set { s.resource with
        ownerEntry := { s.resource.ownerEntry with ownerThread := .thread w } } t
        ((s.threads t).goto .idle)).set { s.resource with
        ownerEntry := { s.resource.ownerEntry with ownerThread := .thread w } } w
        ((s.threads w).goto .own)) := by
  obtain ⟨-, -, hevent, -⟩ := h.exclusive_of_handed (t := t) (by simp [hpc])
  have hwt : w ≠ t := by
    rintro rfl
    simp [hpc] at hwait
  -- the event is set, taken by the waiter, and the waiter is written down
  have h1 := h.setEvent ht hpc
  have hw1 : (s.set { s.resource with event := true } t ((s.threads t).goto .idle)).threads w =
      s.threads w := set_threads_ne hwt
  have h2 := h1.takeEvent hw (by rw [hw1, hwait]) rfl
  rw [hw1] at h2
  have h3 := h2.setFirst hw (by rw [set_threads_self]; rfl) (.inl rfl)
  rw [set_threads_self] at h3
  simp only [State.set, Function.update_idem] at h3 ⊢
  rw [hevent]
  exact h3

/-- A thread goes on: unless it has to wait, there is a next state. -/
theorem proceed_inv (ht : t ∈ U) (hgo : ¬ s.Blocked t) :
    ∃ s', proceed s t = some s' ∧ Inv U s' := by
  unfold State.Blocked at hgo
  unfold proceed
  dsimp only
  cases hpc : (s.threads t).pc with
  | idle => simp [hpc] at hgo
  | retry k wait =>
    obtain ⟨hnone, hcount⟩ := h.inside hpc (by simp)
    refine ⟨_, rfl, attempt_inv h ht (.inr ⟨k, wait, hpc⟩) ?_ k wait fun _ hs => hnone hs.1⟩
    rw [hcount]
    exact one_lt_ownerCountModulus
  | expand k wait size =>
    exact ⟨_, rfl, h.plain ht (by rw [hpc]; trivial) trivial (.expand _ size)
      fun hold => absurd hold (h.inside hpc (by simp)).1⟩
  | allocateSemaphore k =>
    exact ⟨_, rfl, h.plain ht (by rw [hpc]; trivial) trivial
      ⟨⟨rfl, rfl, rfl, rfl, rfl, rfl, rfl, rfl⟩, rfl⟩
      fun hold => absurd hold (h.inside hpc (by simp)).1⟩
  | allocateEvent =>
    exact ⟨_, rfl, h.plain ht (by rw [hpc]; trivial) trivial
      ⟨⟨rfl, rfl, rfl, rfl, rfl, rfl, rfl, rfl⟩, rfl⟩
      fun hold => absurd hold (h.inside hpc (by simp)).1⟩
  | waitShared =>
    have hpos : 0 < s.resource.semaphore := by
      simp only [hpc] at hgo
      omega
    exact ⟨_, if_pos hpos, h.takeSignal ht hpos (.inl ⟨hpc, rfl⟩)⟩
  | waitUnlisted =>
    have hpos : 0 < s.resource.semaphore := by
      simp only [hpc] at hgo
      omega
    exact ⟨_, if_pos hpos, h.takeSignal ht hpos (.inr ⟨hpc, rfl⟩)⟩
  | waitExclusive =>
    have hevent : s.resource.event = true := by simpa [hpc] using hgo
    exact ⟨_, if_pos hevent, h.takeEvent ht hpc hevent⟩
  | granted => exact ⟨_, rfl, h.granted ht hpc⟩
  | claim => exact ⟨_, rfl, h.claim ht hpc⟩
  | claimExpand size =>
    obtain ⟨hnone, hcount⟩ := h.inside hpc (by simp)
    refine ⟨_, rfl, h.relocate ht (.expand _ size) ?_ ?_ (by simp [hpc]) ?_⟩
    · rw [hpc]
      exact ⟨rfl, rfl, rfl, rfl, rfl, rfl⟩
    · simp [State.owns, owns, goto, hpc, hcount]
    · exact fun hold => absurd hold hnone
  | own => exact ⟨_, rfl, h.setFirst ht hpc (.inr rfl)⟩
  | releaseSemaphore n => exact ⟨_, rfl, h.releaseSemaphore ht hpc⟩
  | setEvent => exact ⟨_, rfl, h.setEvent ht hpc⟩

end Holding

/-- The step asks for one more acquisition than `OwnerCount` can count. -/
def Wraps (s : State) : Step → Prop
  | .acquire t _ _ | .tryAcquireExclusive t => ownerCountModulus ≤ (s.threads t).count + 1
  | _ => False

instance (s : State) : (c : Step) → Decidable (Wraps s c)
  | .acquire t _ _ | .tryAcquireExclusive t =>
    inferInstanceAs (Decidable (ownerCountModulus ≤ (s.threads t).count + 1))
  | .convert _ | .release _ _ | .proceed _ | .setEventBoostPriority _ _ =>
    inferInstanceAs (Decidable False)

/-- Every step has a result, and keeps the invariant for a finite set of
    threads. -/
theorem step_inv (h : ∃ U, Inv U s) {c : Step} (hlegal : Legal s c) (hfits : ¬ Wraps s c) :
    ∃ s', step s c = some (s', ()) ∧ ∃ U, Inv U s' := by
  obtain ⟨U, h⟩ := h
  cases c with
  | acquire t k wait =>
    have h' := h.insert t
    exact ⟨_, rfl, _, attempt_inv h' (mem_insert_self t U) (.inl hlegal.1)
      (Nat.lt_of_not_le hfits) k wait hlegal.2⟩
  | tryAcquireExclusive t =>
    have h' := h.insert t
    exact ⟨_, rfl, _, exTryToAcquireResourceExclusiveLite_inv h' (mem_insert_self t U)
      (.inl hlegal.1) (Nat.lt_of_not_le hfits)⟩
  | convert t =>
    have h' := h.insert t
    exact ⟨_, rfl, _, h'.convert (mem_insert_self t U) hlegal.1 hlegal.2.1 hlegal.2.2⟩
  | release t i =>
    obtain ⟨r, pc, hrel, h'⟩ :=
      release_inv (h.insert t) (mem_insert_self t U) hlegal.1 hlegal.2 i
    exact ⟨_, by rw [step, hrel]; rfl, _, h'⟩
  | proceed t =>
    obtain ⟨s', hgo, h'⟩ := proceed_inv (h.insert t) (mem_insert_self t U) hlegal
    exact ⟨_, by rw [step, hgo]; rfl, _, h'⟩
  | setEventBoostPriority t w =>
    have h' := (h.insert t).insert w
    exact ⟨_, rfl, _, h'.setEventBoostPriority
      (mem_insert_of_mem (mem_insert_self t U)) (mem_insert_self w _)
      hlegal.1 hlegal.2⟩

end Release

end Resource
