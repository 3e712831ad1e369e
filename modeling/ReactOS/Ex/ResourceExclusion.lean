import ReactOS.Ex.ResourceRun
import Mathlib.Algebra.BigOperators.Group.Finset.Piecewise

/-! # What a resource promises

    The invariant of the runs is read as statements about threads: who holds
    the resource, who was handed it, and who gets it next. -/

namespace Resource

open Finset Thread

open Function (update)

/-! ## Section 1: The promise -/

/-- The thread waits for the semaphore or the event. -/
def State.Waits (s : State) (t : ThreadId) : Prop :=
  (s.threads t).pc = .waitShared ∨ (s.threads t).pc = .waitUnlisted ∨
    (s.threads t).pc = .waitExclusive

/-- The thread's wait is over, and it has not returned yet. -/
def State.Woken (s : State) (t : ThreadId) : Prop :=
  (s.threads t).pc = .granted ∨ (s.threads t).pc = .claim ∨
    (∃ size, (s.threads t).pc = .claimExpand size) ∨ (s.threads t).pc = .own

/-- The signals of the semaphore or of the event that the thread is about to give. -/
def State.signals (s : State) (t : ThreadId) : Nat :=
  (s.threads t).pendingShared + (s.threads t).pendingExclusive

/-- The threads that were handed the resource: those whose wait is over, and as
    many that wait as there are signals given or about to be given. -/
structure State.Handed (s : State) (handed : Finset ThreadId) : Prop where
  woken : ∀ t, s.Woken t → t ∈ handed
  waits : ∀ t ∈ handed, s.Woken t ∨ s.Waits t
  signalled : ∃ woken givers : Finset ThreadId, (∀ t, t ∈ woken ↔ s.Woken t) ∧
    (∀ t, t ∈ givers ↔ 0 < s.signals t) ∧ handed.card = woken.card + s.resource.semaphore +
      s.resource.event.toNat + ∑ t ∈ givers, s.signals t

structure InOrder (s : State) : Prop where
  /-- An exclusive owner is the only one that holds the resource or was handed it. -/
  exclusion : ∀ t, s.Holds t → (s.threads t).exclusive = true →
    s.resource.activeEntries = 1 ∧ ∀ u, s.Holds u → u = t
  /-- `ActiveEntries` counts the threads that hold the resource and those that
      were handed it. -/
  owners : ∃ holders handed : Finset ThreadId, (∀ t, t ∈ holders ↔ s.Holds t) ∧
    s.Handed handed ∧ s.resource.activeEntries = holders.card + handed.card
  /-- An owner is in the owner table, with its count. -/
  listed : ∀ t, s.Holds t → ∃ slot, s.resource.entry slot = ⟨.thread t, (s.threads t).count⟩
  /-- While somebody waits, a thread holds the resource, or was handed it. -/
  waiting : ∀ w, s.Waits w → (∃ t, s.Holds t) ∨ ∃ t handed, s.Handed handed ∧ t ∈ handed
  /-- The release by the last owner hands the resource to a waiter. -/
  handOver : ∀ t i w, (s.threads t).count = 1 → s.resource.activeEntries = 1 → s.Waits w →
    ∃ r pc, exReleaseResourceForThreadLite s.resource t i = some (r, pc) ∧
      (pc = .setEvent ∨ ∃ n, 0 < n ∧ pc = .releaseSemaphore n)

/-! ## Section 2: Sets of threads for sums of weights -/

section Promise

variable {U : Finset ThreadId} {s : State} {t : ThreadId}

section

variable (s : State) (U : Finset ThreadId)

open Classical in
/-- The threads that were handed the resource: their waits are over, or the
    signals that end them are about to be given. -/
theorem total_handed : s.total U handedShared + s.total U handedExclusive =
      (U.filter s.Woken).card + s.total U pendingShared +
        s.total U pendingExclusive := by
  simp only [State.total, card_filter, ← sum_add_distrib]
  refine sum_congr rfl fun t _ => ?_
  cases hpc : (s.threads t).pc <;>
    simp [State.Woken, handedShared, handedExclusive, pendingShared, pendingExclusive, hpc]

open Classical in
theorem total_waits : s.total U waitsShared + s.total U waitsExclusive =
      (U.filter s.Waits).card := by
  simp only [State.total, card_filter, ← sum_add_distrib]
  refine sum_congr rfl fun t _ => ?_
  cases hpc : (s.threads t).pc <;> simp [State.Waits, waitsShared, waitsExclusive, hpc]

theorem total_holding : s.total U holding = (U.filter s.Holds).card := by
  rw [card_filter]
  rfl

end

/-- A thread that holds the resource, waits or was woken is one of `U`. -/
theorem Inv.mem_of_holds (h : Inv U s) (hold : s.Holds t) : t ∈ U := by
  by_contra hmem
  have : s.threads t = .absent := h.support t hmem
  simp [State.Holds, this, absent] at hold

theorem Inv.mem_of_pc (h : Inv U s) (hpc : (s.threads t).pc ≠ .idle) : t ∈ U := by
  by_contra hmem
  have : s.threads t = .absent := h.support t hmem
  simp [this, absent] at hpc

theorem Inv.mem_of_woken (h : Inv U s) (hw : s.Woken t) : t ∈ U := by
  apply h.mem_of_pc
  rcases hw with hpc | hpc | ⟨size, hpc⟩ | hpc <;> simp [hpc]

theorem Inv.mem_of_waits (h : Inv U s) (hw : s.Waits t) : t ∈ U := by
  apply h.mem_of_pc
  rcases hw with hpc | hpc | hpc <;> simp [hpc]

theorem Woken.not_waits (hw : s.Woken t) : ¬ s.Waits t := by
  rcases hw with hpc | hpc | ⟨size, hpc⟩ | hpc <;> simp [State.Waits, hpc]

namespace Inv

variable (h : Inv U s)

include h

open Classical in
/-- The owners by name: as many waiters as there are signals on their way
    were handed the resource. -/
theorem owners : ∃ holders handed : Finset ThreadId, (∀ t, t ∈ holders ↔ s.Holds t) ∧
      s.Handed handed ∧ s.resource.activeEntries = holders.card + handed.card := by
  have hactive := h.active
  have hhanded := total_handed s U
  have hwaits := total_waits s U
  have hshared := h.sharedWaiters
  have hexclusive := h.exclusiveWaiters
  rw [total_holding] at hactive
  obtain ⟨signalled, hsub, hcard⟩ := exists_subset_card_eq
    (s := U.filter s.Waits) (n := s.total U pendingShared +
      s.total U pendingExclusive + s.resource.semaphore + s.resource.event.toNat)
    (by omega)
  have hdisjoint : Disjoint (U.filter s.Woken) signalled := by
    rw [disjoint_left]
    intro u hu hu'
    exact Woken.not_waits (mem_filter.1 hu).2 (mem_filter.1 (hsub hu')).2
  -- the threads that are about to give no signal add nothing
  have hsignals : ∑ t ∈ U.filter (0 < s.signals ·), s.signals t =
      s.total U pendingShared + s.total U pendingExclusive := by
    rw [sum_filter_of_ne fun t _ hne => Nat.pos_of_ne_zero hne]
    exact sum_add_distrib
  refine ⟨U.filter s.Holds, U.filter s.Woken ∪ signalled, fun u => ?_, ⟨fun u hu => ?_,
    fun u hu => ?_, U.filter s.Woken, U.filter (0 < s.signals ·), fun u => ?_, fun u => ?_, ?_⟩, ?_⟩
  · simp only [mem_filter, and_iff_right_iff_imp]
    exact h.mem_of_holds
  · exact mem_union_left _ (mem_filter.2 ⟨h.mem_of_woken hu, hu⟩)
  · grind
  · simp only [mem_filter, and_iff_right_iff_imp]
    exact h.mem_of_woken
  · simp only [mem_filter, and_iff_right_iff_imp]
    intro hpos
    apply h.mem_of_pc
    intro hidle
    simp [State.signals, pendingShared, pendingExclusive, hidle] at hpos
  · rw [card_union_of_disjoint hdisjoint, hcard, hsignals]
    omega
  · rw [card_union_of_disjoint hdisjoint, hcard]
    omega

theorem waiters_pos (hw : s.Waits t) :
    0 < s.resource.numberOfSharedWaiters + s.resource.numberOfExclusiveWaiters +
      s.resource.semaphore + s.resource.event.toNat + s.total U handedShared +
      s.total U handedExclusive := by
  classical
  have hhanded := total_handed s U
  have hwaits := total_waits s U
  have hpos : 0 < (U.filter s.Waits).card :=
    card_pos.2 ⟨t, mem_filter.2 ⟨h.mem_of_waits hw, hw⟩⟩
  have hshared := h.sharedWaiters
  have hexclusive := h.exclusiveWaiters
  omega

theorem waiting (hw : s.Waits t) :
    (∃ t, s.Holds t) ∨ ∃ t handed, s.Handed handed ∧ t ∈ handed := by
  have hactive : 0 < s.resource.activeEntries := by
    by_contra hzero
    have hpos := h.waiters_pos hw
    have hactive := h.active
    obtain ⟨-, -, hns, hne⟩ := h.of_inactive (by omega)
    omega
  obtain ⟨holders, handed, hholds, hhanded, hcount⟩ := h.owners
  by_cases hnone : holders = ∅
  · obtain ⟨t, ht⟩ : handed.Nonempty := card_pos.1 (by rw [hnone, card_empty] at hcount; omega)
    exact .inr ⟨t, handed, hhanded, ht⟩
  · obtain ⟨t, ht⟩ := nonempty_iff_ne_empty.2 hnone
    exact .inl ⟨t, (hholds t).1 ht⟩

/-- The last owner releases: nothing is on its way, so a waiter is counted in
    the resource. -/
theorem handOver {w : ThreadId} (hcount : (s.threads t).count = 1)
    (hone : s.resource.activeEntries = 1) (hw : s.Waits w) (i : Nat) :
    ∃ r pc, exReleaseResourceForThreadLite s.resource t i = some (r, pc) ∧
      (pc = .setEvent ∨ ∃ n, 0 < n ∧ pc = .releaseSemaphore n) := by
  have hold : s.Holds t := by simp [State.Holds, hcount]
  have hle := h.le_total holding rfl t
  rw [holding_pos hold] at hle
  have hactive := h.active
  have hpos := h.waiters_pos hw
  have howns : s.owns t = some 1 := by
    rw [State.owns, owns_of_pos hold, hcount]
  unfold exReleaseResourceForThreadLite
  split
  · rename_i hex
    have hfirst := h.entries.named .first t (h.exclusiveFirst hex t hold)
    have hdec : s.resource.ownerEntry.decrement.ownerCount = 0 := by
      have : s.resource.ownerEntry.ownerCount = 1 := (Option.some.inj (howns.symm.trans hfirst)).symm
      simp [OwnerEntry.decrement, this]
    have hgives : (releaseExclusive s.resource).2 = .setEvent ∨
        ∃ n, 0 < n ∧ (releaseExclusive s.resource).2 = .releaseSemaphore n := by
      unfold releaseExclusive
      simp only [hdec, ne_eq, not_true, if_false]
      split
      · rename_i hns
        exact .inr ⟨_, hns, rfl⟩
      · rw [if_pos (by omega)]
        exact .inl rfl
    exact ⟨_, _, rfl, hgives⟩
  · rename_i hflag
    -- a shared waiter waits behind an exclusive one
    have hne : 0 < s.resource.numberOfExclusiveWaiters := by
      by_cases hns : 0 < s.resource.numberOfSharedWaiters
      · exact (h.waitsForExclusive hns).resolve_left hflag
      · omega
    obtain ⟨slot, hslot, -, hnames⟩ := ownedEntry_spec h hold i
    have hdec : (s.resource.entry slot).decrement.ownerCount = 0 := by
      have hnamed := h.entries.named slot t hnames
      have : (s.resource.entry slot).ownerCount = 1 :=
        (Option.some.inj (howns.symm.trans hnamed)).symm
      simp [OwnerEntry.decrement, this]
    unfold releaseShared
    simp only [hslot, hdec, ne_eq, not_true, if_false, setEntry_activeEntries, hone,
      Nat.sub_self, if_true, setEntry_numberOfExclusiveWaiters, if_pos hne]
    exact ⟨_, _, rfl, .inl rfl⟩

theorem listed (hold : s.Holds t) :
    ∃ slot, s.resource.entry slot = ⟨.thread t, (s.threads t).count⟩ := by
  have howns : s.owns t = some (s.threads t).count := by
    rw [State.owns, owns_of_pos hold]
  obtain ⟨slot, hnames⟩ := h.entries.listed t _ howns
  have hcount := Option.some.inj (howns.symm.trans (h.entries.named slot t hnames))
  refine ⟨slot, ?_⟩
  rw [hcount, ← hnames]

theorem inOrder : InOrder s where
  exclusion := by
    intro t hold hexclusive
    have hflag := ((h.mode t).1 hexclusive).2
    exact ⟨(h.exclusive hflag).1, (h.alone hflag hold).2.2.2⟩
  owners := h.owners
  listed := fun _ hold => h.listed hold
  waiting := fun _ hw => h.waiting hw
  handOver := fun _ i _ hcount hone hw => h.handOver hcount hone hw i

end Inv

end Promise

/-! ## Section 3: Runs -/

theorem inv_initial : Inv ∅ initial where
  support := fun _ _ => rfl
  active := rfl
  sharedWaiters := rfl
  exclusiveWaiters := rfl
  activeCount := rfl
  exclusive := by simp [initial]
  shared := fun _ => ⟨rfl, rfl⟩
  mode := fun _ => by simp [initial]
  waitsForExclusive := fun h => absurd h (Nat.lt_irrefl 0)
  owned := fun h => absurd h (Nat.lt_irrefl 0)
  place := fun _ h => absurd h (Nat.lt_irrefl 0)
  small := fun _ => Nat.lt_trans Nat.one_pos one_lt_ownerCountModulus
  entries := by
    have hfree : ∀ slot, (initial.resource.entry slot).ownerThread = .none := by
      intro slot
      cases slot <;> rfl
    refine ⟨fun slot t h => ?_, fun t c h => (by cases h), fun slot slot' t h => ?_⟩
    · simp [hfree] at h
    · simp [hfree] at h
  first := by simp [initial, OwnerEntry.free]
  exclusiveFirst := by simp [initial]
  inTransit := by simp [initial]

/-- Thread 1 holds the resource shared, after `n` nested acquisitions. -/
def nested (n : Nat) : State where
  resource := { takeFree initial.resource 1 false with
    ownerEntry := ⟨.thread 1, n % ownerCountModulus⟩ }
  threads := update initial.threads 1 ⟨.idle, n, false⟩

theorem nested_one : step initial (.acquire 1 .shared true) = some (nested 1, ()) := by
  have hone : nested 1 = initial.set (takeFree initial.resource 1 false) 1 ⟨.idle, 1, false⟩ := by
    rw [nested, Nat.mod_eq_of_lt one_lt_ownerCountModulus]
    rfl
  rw [hone]
  rfl

theorem nested_succ {n : Nat} :
    step (nested n) (.acquire 1 .shared true) = some (nested (n + 1), ()) := by
  have hcount : (n % ownerCountModulus + 1) % ownerCountModulus = (n + 1) % ownerCountModulus :=
    Nat.mod_add_mod n ownerCountModulus 1
  have hattempt : attempt (nested n).resource 1 .shared true =
      .returns (nested (n + 1)).resource true := by
    show Outcome.returns ((nested n).resource.setEntry ((nested n).resource.entry .first).increment
      .first) true = _
    simp [nested, EResource.setEntry, EResource.entry, OwnerEntry.increment, hcount]
  have hthreads : update (nested n).threads 1 (((nested n).threads 1).grant false) =
      (nested (n + 1)).threads := by
    simp [nested, grant, Function.update_idem]
  simp only [step, hattempt, State.after, State.set]
  simp [hthreads]

theorem nested_reachable (n : Nat) :
    Transition.Reachable system (fun _ _ => True) (nested (n + 1)) := by
  induction n with
  | zero => exact .step (a := .acquire 1 .shared true) (.init rfl) (by decide) trivial nested_one
  | succ n ih =>
    refine .step (a := .acquire 1 .shared true) ih ⟨?_, ?_⟩ trivial nested_succ
    · simp [nested]
    · simp

/-- The count of one acquisition more than it can count is that of one, so
    that the first release frees the resource. -/
theorem nested_release :
    ∃ r, exReleaseResourceForThreadLite (nested (ownerCountModulus + 1)).resource 1 0 =
      some (r, .idle) ∧ r.activeEntries = 0 := by
  have hcount : (ownerCountModulus + 1) % ownerCountModulus = 1 := by
    rw [Nat.add_mod_left, Nat.mod_eq_of_lt one_lt_ownerCountModulus]
  have hres : (nested (ownerCountModulus + 1)).resource =
      { takeFree initial.resource 1 false with ownerEntry := ⟨.thread 1, 1⟩ } := by
    rw [nested, hcount]
  rw [hres]
  exact ⟨_, rfl, rfl⟩

end Resource
