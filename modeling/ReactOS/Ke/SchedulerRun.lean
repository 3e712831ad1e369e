import ReactOS.Ke.SchedulerSlots

/-! # Strict priority dispatching

    Every step of the scheduler keeps the invariant of the lists and slots
    unless it lets the running thread pass the thread on standby:
    `KiDeferredReadyThread` compares with `NextThread` before anything goes to
    the slot, but the priority changes of the running and of the standby thread
    do not. -/

namespace Sched

open Option KPrcb

/-! ## Section 1: Swaps -/

variable {s : KPrcb} {n t : ThreadId} {p : Nat}

@[simp] theorem insertReady_setState (s : KPrcb) (t : ThreadId) (x : ThreadState) (b : Bool) :
    (s.setState t x).insertReady t b = s.insertReady t b := by
  simp [insertReady]

theorem run_release (s : KPrcb) (n : ThreadId) :
    (s.release n).run n = { s with nextThread := none, currentThread := n }.setState n .running :=
  congrArg (fun s : KPrcb => { s with nextThread := none, currentThread := n })
    (setState_setState s n .deferredReady .running)

/-- The thread that stood by runs, and the one that ran is in no place. -/
theorem Inv.run_next (h : Inv s) (hn : s.nextThread = some n) {x : ThreadState}
    (hx : x = .deferredReady ∨ x = .other) (hc : s.currentThread ≠ s.idleThread) :
    Inv (((s.release n).run n).setState s.currentThread x) := by
  have hslots := (h.toSlots.release hn).run (h.release_unplaced hn) hx (h.busy hn) hc
  refine { toSlots := hslots, chosen := fun p hp => ?_, ahead := fun m hm => nomatch hm }
  simpa [KPrcb.chosen, KPrcb.run, KPrcb.release] using h.le_next hn hp

/-- The swap of `KiExitDispatcher`, `KiQuantumEnd` and `KiDispatchInterrupt`. -/
theorem swapToNext_inv (h : Inv s) (hc : s.currentThread ≠ s.idleThread) : Inv (swapToNext s) := by
  unfold swapToNext
  cases hn : s.nextThread with
  | none => exact h
  | some n =>
    have hsettled := (h.placed s.currentThread).settled (.inr (.inr ⟨rfl, hc⟩))
    have hrun := h.run_next hn (.inl rfl) hc
    have hinv := hrun.modify s.currentThread (fun k => { k with preempted := false }) ⟨rfl, id⟩ id
      (.inr rfl)
    have hready := hinv.insertReady (t := s.currentThread)
      ((((s.release n).run n).threads s.currentThread).preempted) ⟨by simp, ?_⟩ (h.busy hn) ?_
    · -- the state in between is overwritten
      have hcomm : ((((s.release n).run n).setState s.currentThread .deferredReady).modify
          s.currentThread fun k => { k with preempted := false }) =
          (((s.release n).run n).modify s.currentThread fun k =>
            { k with preempted := false }).setState s.currentThread .deferredReady := by
        simp only [KPrcb.setState, KPrcb.modify, KPrcb.mk.injEq, and_true]
        funext v
        by_cases hv : v = s.currentThread <;> simp [hv]
      rw [hcomm, insertReady_setState, run_release] at hready
      exact hready
    · simpa [KPrcb.run, KPrcb.release] using hsettled
    · have := h.ahead n hn hc
      have hne := modify_ne (((s.release n).run n).setState s.currentThread .deferredReady)
        s.currentThread n (fun k => { k with preempted := false }) (h.current_ne_next hn).symm
      rw [show KPrcb.chosen _ = n from rfl, hne]
      simpa [KPrcb.run, KPrcb.release] using this

/-- Lists only get shorter when a thread is taken off. -/
theorem readyList_removeReady {q : Nat}
    (h : (s.removeReady t p).readyList q ≠ []) : s.readyList q ≠ [] := by
  simp only [removeReady] at h
  split at h
  · rename_i heq
    subst heq
    intro hnil
    simp [hnil] at h
  · exact h

/-- A processor with a ready thread is not idle. -/
theorem Slots.busy_of_mem (h : Slots s) (ht : t ∈ s.readyList p) : s.idleSummary = false := by
  cases hi : s.idleSummary with
  | false => rfl
  | true => simp [(h.idle hi).2.2 p] at ht

/-- The first thread of the highest list goes to the free standby slot. -/
theorem Slots.inv_take (h : Slots s) {high : Nat} (ht : t ∈ s.readyList high)
    (htop : ∀ q, s.readyList q ≠ [] → q ≤ high) (hfree : s.nextThread = none)
    (hcur : s.currentThread ≠ s.idleThread → (s.threads s.currentThread).priority ≤ high) :
    Inv ((s.removeReady t high).setStandby t) := by
  obtain ⟨hstate, hprio⟩ := (h.mem high t).1 ht
  have hsettled := (h.placed t).settled (.inl hstate)
  have hinv := (h.remove ht).inv_setStandby_of_busy (t := t) ⟨by simp, by simpa using hsettled⟩
    hfree (h.busy_of_mem ht) (fun p hp => ?_) (fun hc => ?_)
  · have heq : ((s.removeReady t high).setState t .deferredReady).setStandby t =
        (s.removeReady t high).setStandby t :=
      congrArg (fun s : KPrcb => { s with nextThread := some t })
        (setState_setState (s.removeReady t high) t .deferredReady .standby)
    exact heq ▸ hinv
  · simpa [hprio] using htop p (readyList_removeReady hp)
  · simpa [hprio, removeReady] using hcur hc

/-- Nothing is ready: the idle thread runs. -/
theorem Slots.run_idleThread (h : Slots s) (hc : s.currentThread ≠ s.idleThread)
    (hfree : s.nextThread = none) (hempty : ∀ p, s.readyList p = []) :
    Inv ({ s.setState s.currentThread .other with
      idleSummary := true, currentThread := s.idleThread }.setState s.idleThread .running) := by
  have holdc := h.placed s.currentThread
  have holdi := h.placed s.idleThread
  have hrunc := holdc.running.1 (.inl rfl)
  have hruni := holdi.running.1 (.inr rfl)
  refine { toSlots := h.move s.currentThread s.idleThread
             (h.toLists.congr rfl rfl fun u p => ?_) ?_ ?_ (fun u hu hui => ?_)
             (fun _ _ _ => Iff.rfl) (fun u hu hui => ?_) rfl (fun _ => ⟨rfl, hfree, hempty⟩),
           chosen := fun p hp => absurd (hempty p) hp,
           ahead := fun n hn => by simp [hfree] at hn }
  · by_cases hui : u = s.idleThread
    · simp [hui, hruni]
    rw [setState_ne _ _ _ hui]
    by_cases hu : u = s.currentThread
    · simp [hu, hrunc]
    · rw [setState_ne _ _ _ hu]
  · constructor
    · simpa using holdc.range
    · rw [setState_ne _ _ _ hc]
      simp [hfree]
    · rw [setState_ne _ _ _ hc]
      simp [hc]
    · rw [setState_ne _ _ _ hc]
      simp [hc]
  · constructor
    · simpa using holdi.range
    · simp [hfree]
    · simp
    · simp
  · rw [setState_ne _ _ _ hui]
    exact setState_ne _ _ _ hu _
  · simp [hu, hui]

/-- `KiSwapThread` finds the next thread to run. -/
theorem kiSwapThread_spec (h : Inv s) (hc : s.currentThread ≠ s.idleThread) :
    ∃ s', kiSwapThread s = some s' ∧ Inv s' := by
  have hrunning := (h.placed s.currentThread).running.1 (.inl rfl)
  unfold kiSwapThread
  dsimp only
  cases hn : s.nextThread with
  | some n =>
    have hrun := h.run_next hn (.inr rfl) hc
    rw [run_release, setState_comm _ _ _ (h.current_ne_next hn).symm] at hrun
    rw [setState_nextThread, hn]
    exact ⟨_, rfl, hrun⟩
  | none =>
    rw [setState_nextThread, hn]
    have hlists : Lists (s.setState s.currentThread .other) := by
      refine h.toLists.congr rfl rfl fun u p => ?_
      by_cases hu : u = s.currentThread
      · simp [hu, hrunning]
      · rw [setState_ne _ _ _ hu]
    rcases kiSelectReadyThread_spec hlists 0 with ⟨heq, hempty⟩ | ⟨t, high, heq, -, ht, htop⟩
    · rw [heq]
      exact ⟨_, rfl, h.toSlots.run_idleThread hc hn fun p => hempty p (Nat.zero_le p)⟩
    rw [heq]
    obtain ⟨hstate, hprio⟩ := (h.mem high t).1 ht
    have htc : t ≠ s.currentThread := fun hec => by simp [hec, hrunning] at hstate
    have hslots := (h.toSlots.remove ht).run (n := t) (x := .other)
      ⟨by simp, by simpa using (h.placed t).settled (.inl hstate)⟩ (.inr rfl)
      (h.toSlots.busy_of_mem ht) hc
    -- The two state changes commute, so this is a removal and then a run.
    have hshape : (((s.removeReady t high).setState t .deferredReady).run t).setState
        s.currentThread .other =
        { (s.setState s.currentThread .other).removeReady t high with
          currentThread := t }.setState t .running := by
      rw [run, setState_setState]
      exact congrArg (fun s : KPrcb => { s with currentThread := t })
        (setState_comm (s.removeReady t high) t s.currentThread htc .running .other)
    refine ⟨_, rfl, hshape ▸ { toSlots := hslots, chosen := fun p hp => ?_,
                               ahead := fun n hnext => ?_ }⟩
    · have := htop p (readyList_removeReady hp)
      simpa [chosen, run, removeReady, hn, hprio] using this
    · simp [run, removeReady, hn] at hnext

/-! ## Section 2: Quantum and priority -/

theorem selectStandby_spec (h : Lists s) (p : Nat) :
    (selectStandby p s = some (s, none) ∧ ∀ q, p ≤ q → s.readyList q = []) ∨
    ∃ t high, selectStandby p s = some ((s.removeReady t high).setStandby t, some t) ∧ p ≤ high ∧
      t ∈ s.readyList high ∧ ∀ q, s.readyList q ≠ [] → q ≤ high := by
  rcases kiSelectReadyThread_spec h p with ⟨heq, hempty⟩ | ⟨t, high, heq, hspec⟩
  · exact .inl ⟨by rw [selectStandby, heq], hempty⟩
  · exact .inr ⟨t, high, by rw [selectStandby, heq], hspec⟩

/-- With the standby slot free, a thread of at least the running one's
    priority fills it if there is one. -/
theorem Slots.inv_select (h : Slots s) (hfree : s.nextThread = none)
    (hle : (s.threads s.currentThread).priority ≤ p)
    (hge : p ≤ (s.threads s.currentThread).priority + 1) :
    ∃ s', (selectStandby p s).map (·.1) = some s' ∧ Inv s' ∧
      s'.currentThread = s.currentThread ∧ s'.idleThread = s.idleThread := by
  rcases selectStandby_spec h.toLists p with ⟨heq, hempty⟩ | ⟨t, high, heq, hhigh, ht, htop⟩
  · rw [heq]
    refine ⟨s, rfl, { toSlots := h, chosen := fun q hq => ?_, ahead := fun n hn => ?_ }, rfl, rfl⟩
    · rw [chosen, hfree, getD_none]
      by_contra hlt
      exact hq (hempty q (by omega))
    · simp [hfree] at hn
  · rw [heq]
    exact ⟨_, rfl, h.inv_take ht htop hfree fun _ => hle.trans hhigh, rfl, rfl⟩

/-- A change of the running thread's priority, with another thread on
    standby that is not below it. -/
theorem Inv.modify_current (h : Inv s) (hn : s.nextThread = some n) (f : KThread → KThread)
    (hadjusts : Adjusts (s.threads s.currentThread) (f (s.threads s.currentThread)))
    (hadj : (f (s.threads s.currentThread)).adjustReason =
      (s.threads s.currentThread).adjustReason)
    (hle : s.currentThread ≠ s.idleThread →
      (f (s.threads s.currentThread)).priority ≤ (s.threads n).priority) :
    Inv (s.modify s.currentThread f) := by
  have hrunning := (h.placed s.currentThread).running.1 (.inl rfl)
  have hnc := (h.current_ne_next hn).symm
  refine { toSlots := h.toSlots.modify s.currentThread f hadjusts.state (fun hr => ?_)
             (hadjusts.range (h.placed s.currentThread).range) (fun hnone => hadj.trans hnone),
           chosen := fun p hp => ?_, ahead := fun m hm hc => ?_ }
  · simp [hrunning] at hr
  · rw [KPrcb.chosen, modify_nextThread, hn, getD_some, modify_ne _ _ _ _ hnc]
    exact h.le_next hn hp
  · obtain rfl : n = m := some.inj (hn.symm.trans hm)
    rw [modify_ne _ _ _ _ hnc, modify_currentThread, modify_self]
    exact hle hc

theorem kiComputeNewPriority_adjustReason (k : KThread) (n : Nat) :
    (kiComputeNewPriority k n).adjustReason = k.adjustReason := by
  unfold kiComputeNewPriority
  split <;> rfl

/-- A quantum that runs out raises a thread above its successor only from
    below its base priority. -/
theorem quantumExpired_spec (h : Inv s)
    (hbase : (s.threads s.currentThread).priority < lowRealtimePriority →
      ∀ n ∈ s.nextThread,
        (s.threads s.currentThread).basePriority ≤ (s.threads n).priority) :
    ∃ s', quantumExpired s = some s' ∧ Inv s' ∧ s'.currentThread = s.currentThread ∧
      s'.idleThread = s.idleThread := by
  have hrunning := (h.placed s.currentThread).running.1 (.inl rfl)
  have hadjusts : Adjusts (s.threads s.currentThread) (kiComputeNewPriority
      { s.threads s.currentThread with quantum := (s.threads s.currentThread).quantumReset } 1) :=
    kiComputeNewPriority_adjusts 1 rfl rfl rfl
  unfold quantumExpired
  dsimp only
  cases hn : s.nextThread with
  | none =>
    rw [modify_nextThread, hn]
    have hslots := h.toSlots.modify s.currentThread
      (fun k => kiComputeNewPriority { k with quantum := k.quantumReset } 1) hadjusts.state
      (fun hr => by simp [hrunning] at hr) (hadjusts.range (h.placed s.currentThread).range)
      (fun hnone => (kiComputeNewPriority_adjustReason _ _).trans hnone)
    exact hslots.inv_select hn le_rfl (Nat.le_succ _)
  | some n =>
    rw [modify_nextThread, hn]
    have hinv := h.modify_current hn
      (fun k => kiComputeNewPriority { k with quantum := k.quantumReset } 1) hadjusts
      (kiComputeNewPriority_adjustReason _ _) (fun hne => ?_)
    · exact ⟨_, rfl, hinv.modify s.currentThread _ ⟨rfl, id⟩ id (.inr rfl), rfl, rfl⟩
    have hahead := h.ahead n hn hne
    unfold kiComputeNewPriority
    split
    · rename_i hlow
      exact max_le ((Nat.sub_le _ _).trans hahead) (hbase hlow n hn)
    · exact hahead

/-- The steps that let the running thread pass the one on standby: it is
    raised above it, or the other is lowered while no ready thread can take
    its place, or its quantum runs out while it is below its base priority and
    that is above the standby thread. -/
def Inverts (s : KPrcb) : Step → Prop
  | .setPriority t p =>
    s.currentThread ≠ s.idleThread ∧ ∃ n ∈ s.nextThread,
      (t = s.currentThread ∧ (s.threads n).priority < p) ∨
      (t = n ∧ p < (s.threads s.currentThread).priority ∧
        s.readySummary >>> (s.threads s.currentThread).priority = 0)
  | .adjustQuantum _ =>
    (s.threads s.currentThread).priority < lowRealtimePriority ∧
      (s.threads s.currentThread).basePriority < lowRealtimePriority - 2 ∧
      schar ((s.threads s.currentThread).quantum - 1) ≤ 0 ∧
      ∃ n ∈ s.nextThread, (s.threads n).priority < (s.threads s.currentThread).basePriority
  | .quantumEnd =>
    (s.threads s.currentThread).quantum ≤ 0 ∧
      (s.threads s.currentThread).priority < lowRealtimePriority ∧
      ∃ n ∈ s.nextThread, (s.threads n).priority < (s.threads s.currentThread).basePriority
  | _ => False

theorem kiExitDispatcher_inv (h : Inv s) {atDispatchLevel : Bool}
    (hc : atDispatchLevel = false → s.currentThread ≠ s.idleThread) :
    Inv (kiExitDispatcher atDispatchLevel s) := by
  unfold kiExitDispatcher
  split
  · exact h
  · rename_i hlow
    exact swapToNext_inv h (hc (Bool.eq_false_of_not_eq_true hlow))

theorem kiAdjustQuantumThread_spec (h : Inv s) (atDispatchLevel : Bool)
    (hc : s.currentThread ≠ s.idleThread) (hok : ¬ Inverts s (.adjustQuantum atDispatchLevel)) :
    ∃ s', kiAdjustQuantumThread atDispatchLevel s = some s' ∧ Inv s' := by
  have hinv := h.modify s.currentThread (fun k => { k with quantum := schar (k.quantum - 1) })
    ⟨rfl, id⟩ id (.inr rfl)
  unfold kiAdjustQuantumThread
  dsimp only
  split
  · rename_i hlow
    split
    · rename_i hout
      rw [modify_currentThread, modify_self] at hout
      have hspec := quantumExpired_spec hinv (fun _ n hn => ?_)
      · obtain ⟨s', heq, hs', hcur, hidle⟩ := hspec
        rw [heq]
        exact ⟨_, rfl, kiExitDispatcher_inv hs' fun _ => by rw [hcur, hidle]; exact hc⟩
      · by_contra hlt
        apply hok
        refine ⟨hlow.1, hlow.2, hout, n, hn, ?_⟩
        simpa [modify_ne _ _ _ _ (h.current_ne_next hn).symm] using Nat.lt_of_not_le hlt
    · exact ⟨_, rfl, kiExitDispatcher_inv hinv fun _ => hc⟩
  · exact ⟨_, rfl, kiExitDispatcher_inv h fun _ => hc⟩

theorem kiQuantumEnd_spec (h : Inv s) (hc : s.currentThread ≠ s.idleThread)
    (hok : ¬ Inverts s .quantumEnd) : ∃ s', kiQuantumEnd s = some s' ∧ Inv s' := by
  unfold kiQuantumEnd
  dsimp only
  split
  · rename_i hout
    split
    · have hinv := h.modify s.currentThread (fun k => { k with quantum := maxQuantum }) ⟨rfl, id⟩ id
        (.inr rfl)
      exact ⟨_, rfl, swapToNext_inv hinv hc⟩
    have hspec := quantumExpired_spec h (fun hlow n hn => ?_)
    · obtain ⟨s', heq, hs', hcur, hidle⟩ := hspec
      rw [heq]
      exact ⟨_, rfl, swapToNext_inv hs' (by rw [hcur, hidle]; exact hc)⟩
    · by_contra hlt
      exact hok ⟨hout, hlow, n, hn, Nat.lt_of_not_le hlt⟩
  · exact ⟨_, rfl, swapToNext_inv h hc⟩

/-- The idle thread hands over to the thread on standby. -/
theorem kiIdleLoop_inv (h : Inv s) (hc : s.currentThread = s.idleThread) : Inv (kiIdleLoop s) := by
  unfold kiIdleLoop
  cases hn : s.nextThread with
  | none => exact h
  | some n =>
    have hslots := (h.toSlots.release hn).run_idle (h.release_unplaced hn) (h.busy hn) hc
    dsimp only
    rw [← run_release]
    refine { toSlots := hslots, chosen := fun p hp => ?_, ahead := fun m hm => nomatch hm }
    simpa [chosen, run, release] using h.le_next hn hp

/-! ## Section 3: Priority changes -/

/-- A ready thread leaves its list and gets a new record. -/
theorem Inv.remove (h : Inv s) (ht : t ∈ s.readyList p) :
    Inv ((s.removeReady t p).setState t .deferredReady) := by
  refine { toSlots := h.toSlots.remove ht, chosen := fun q hq => ?_, ahead := fun n hn hc => ?_ }
  · rw [setState_priority]
    exact h.chosen q (readyList_removeReady hq)
  · rw [setState_priority, setState_priority]
    exact h.ahead n hn hc

/-- The standby thread is lowered below a ready one and gives way to it. -/
theorem Slots.inv_replace (h : Slots s) {high : Nat} (hn : s.nextThread = some n)
    (ht : t ∈ s.readyList high) (htop : ∀ q, s.readyList q ≠ [] → q ≤ high)
    (hcur : s.currentThread ≠ s.idleThread → (s.threads s.currentThread).priority ≤ high) :
    Inv (((s.removeReady t high).setStandby t).setState n .deferredReady) := by
  have hstandby := (h.placed n).standby.1 hn
  have hnt : t ≠ n := fun heq => by simp [heq, hstandby, h.mem] at ht
  have hinv := (h.release hn).inv_take (t := t) ht htop rfl (fun hc => ?_)
  · have hshape : ((s.removeReady t high).setStandby t).setState n .deferredReady =
        ((s.release n).removeReady t high).setStandby t :=
      congrArg (fun s : KPrcb => { s with nextThread := some t })
        (setState_comm (s.removeReady t high) t n hnt .standby .deferredReady)
    exact hshape ▸ hinv
  · simpa [KPrcb.release] using hcur hc

theorem setState_modify_comm (s : KPrcb) (t : ThreadId) (x : ThreadState) (p : Nat) :
    (s.modify t fun k => { k with priority := p }).setState t x =
      (s.setState t x).modify t fun k => { k with priority := p } := by
  simp only [KPrcb.setState, KPrcb.modify, KPrcb.mk.injEq, and_true]
  funext v
  by_cases hv : v = t <;> simp [hv]

section

variable (h : Inv s) (hn : s.nextThread = some n) (hp : p ≤ highPriority)

include h hn hp

/-- Lowering the standby thread: a ready thread above it takes its place. -/
theorem lowerStandby_spec
    (hok : s.currentThread ≠ s.idleThread → p < (s.threads s.currentThread).priority →
      ∃ q, (s.threads s.currentThread).priority ≤ q ∧ s.readyList q ≠ []) :
    ∃ s', (match selectStandby (p + 1) (s.modify n fun k => { k with priority := p }) with
      | none => none
      | some (s, none) => some s
      | some (s, some _) => kiInsertDeferredReadyList s n) = some s' ∧ Inv s' := by
  have hstandby := (h.placed n).standby.1 hn
  have hslots := h.toSlots.modify n (fun k => { k with priority := p }) rfl
    (fun hr => by simp [hstandby] at hr) ⟨hp, (h.placed n).range.2⟩ id
  have hcur := modify_ne s n s.currentThread (fun k => { k with priority := p })
    (h.current_ne_next hn)
  rcases selectStandby_spec hslots.toLists (p + 1) with
    ⟨heq, hempty⟩ | ⟨t, high, heq, hhigh, ht, htop⟩
  · rw [heq]
    refine ⟨_, rfl, { toSlots := hslots, chosen := fun q hq => ?_, ahead := fun m hm hc => ?_ }⟩
    · rw [chosen, modify_nextThread, hn, getD_some, modify_self]
      show q ≤ p
      by_contra hlt
      exact hq (hempty q (by omega))
    · obtain rfl : n = m := some.inj (hn.symm.trans hm)
      rw [modify_currentThread, hcur, modify_self]
      by_contra hlt
      -- nothing is left above the new priority
      obtain ⟨q, hq, hne⟩ := hok hc (by simpa using hlt)
      exact hne (hempty q (by simp at hlt; omega))
  · rw [heq]
    refine kiDeferredReadyThread_spec (hslots.inv_replace hn ht htop fun hc => ?_) (by simp)
    rw [modify_currentThread, hcur]
    by_cases hle : (s.threads s.currentThread).priority ≤ p
    · omega
    · obtain ⟨q, hq, hne⟩ := hok hc (by omega)
      exact hq.trans (htop q hne)

theorem Inv.raise_next (hle : (s.threads n).priority ≤ p) :
    Inv (s.modify n fun k => { k with priority := p }) := by
  have hstandby := (h.placed n).standby.1 hn
  refine { toSlots := h.toSlots.modify n _ rfl (fun hr => by simp [hstandby] at hr)
             ⟨hp, (h.placed n).range.2⟩ id, chosen := fun q hq => ?_, ahead := fun m hm hc => ?_ }
  · rw [KPrcb.chosen, modify_nextThread, hn, getD_some, modify_self]
    exact (h.le_next hn hq).trans hle
  · obtain rfl : n = m := some.inj (hn.symm.trans hm)
    rw [modify_currentThread, modify_ne _ _ _ _ (h.current_ne_next hn), modify_self]
    exact (h.ahead n hn hc).trans hle

end

/-- `KiSetPriorityThread` for a step that does not invert the slots.  It does
    not return for the idle thread while another thread runs. -/
theorem kiSetPriorityThread_spec (h : Inv s)
    (hlegal : Legal s (.setPriority t p)) (hok : ¬ Inverts s (.setPriority t p)) :
    (∃ s', kiSetPriorityThread s t p = some s' ∧ Inv s') ∨
      kiSetPriorityThread s t p = none ∧ t = s.idleThread ∧ s.currentThread ≠ s.idleThread := by
  obtain ⟨hdeferred, hp⟩ := hlegal
  have hold := h.placed t
  have hrange : p ≤ highPriority ∧ (s.threads t).basePriority ≤ highPriority := ⟨hp, hold.range.2⟩
  unfold kiSetPriorityThread
  by_cases heq : (s.threads t).priority = p
  · rw [if_pos heq]
    exact .inl ⟨s, rfl, h⟩
  rw [if_neg heq]
  cases hstate : (s.threads t).state with
  | ready =>
    -- it is queued again, as if it had become ready
    have ht : t ∈ s.readyList (s.threads t).priority := (h.mem _ t).2 ⟨hstate, rfl⟩
    have hinv := (h.remove ht).modify t (fun k => { k with priority := p })
      ⟨rfl, fun _ => by simpa using hrange⟩ id (.inl (.inl (by simp)))
    rw [← setState_modify_comm] at hinv
    exact .inl (kiDeferredReadyThread_spec hinv (by simp))
  | standby =>
    have hn := hold.standby.2 hstate
    simp only [hn, if_true]
    -- lowered, it may have to give way; raised, it stays
    split
    · refine .inl (lowerStandby_spec h hn hp fun hc hlt => ?_)
      by_contra hnone
      apply hok
      exact ⟨hc, t, hn, .inr ⟨rfl, hlt, (summary_above h.toLists).2 fun q hq => by
        by_contra hne
        exact hnone ⟨q, hq, hne⟩⟩⟩
    · rename_i hge
      exact .inl ⟨_, rfl, h.raise_next hn hp (Nat.le_of_not_lt hge)⟩
  | running =>
    -- only the idle thread runs without being the current one
    by_cases hcur : s.currentThread = t
    swap
    · have hidle : t = s.idleThread := (hold.running.2 hstate).resolve_left (Ne.symm hcur)
      exact .inr ⟨if_neg hcur, hidle, hidle ▸ hcur⟩
    subst hcur
    have hslots := h.toSlots.modify s.currentThread (fun k => { k with priority := p }) rfl
      (fun hr => by simp [hstate] at hr) hrange id
    simp only [if_true]
    split
    · rename_i hlow
      obtain ⟨s', hsel, hinv, -⟩ := hslots.inv_select (p := p + 1) hlow.2 (by simp) (by simp)
      exact .inl ⟨s', hsel, hinv⟩
    rename_i hhigh
    refine .inl ⟨_, rfl, ?_⟩
    cases hn : s.nextThread with
    | none =>
      have hle : (s.threads s.currentThread).priority ≤ p := by
        by_contra hlt
        exact hhigh ⟨Nat.lt_of_not_le hlt, hn⟩
      refine { toSlots := hslots, chosen := fun q hq => ?_, ahead := fun m hm => ?_ }
      · have hchosen := h.chosen q hq
        rw [chosen, hn, getD_none] at hchosen
        rw [chosen, modify_nextThread, hn, getD_none, modify_currentThread,
          modify_self]
        exact hchosen.trans hle
      · simp [hn] at hm
    | some n =>
      refine h.modify_current hn _ ⟨rfl, fun _ => hrange⟩ rfl fun hc => ?_
      by_contra hlt
      exact hok ⟨hc, n, hn, .inl ⟨rfl, Nat.lt_of_not_le hlt⟩⟩
  | deferredReady => exact absurd hstate hdeferred
  | other =>
    exact .inl ⟨_, rfl, h.modify t _ ⟨rfl, fun _ => hrange⟩ id (.inl (.inr hstate))⟩

/-! ## Section 4: Every run -/

/-- A thread that waited gets a new record and is on its way to a place. -/
theorem Inv.defer (h : Inv s) {k : KThread} (ht : (s.threads t).state = .other)
    (hk : k.priority ≤ highPriority ∧ k.basePriority ≤ highPriority) :
    Inv ((s.modify t fun _ => k).setState t .deferredReady) := by
  have hnot := h.not_in_slot (.inr ht)
  have hsame : ∀ u, u ≠ t →
      ((s.modify t fun _ => k).setState t .deferredReady).threads u = s.threads u := by
    intro u hu
    rw [setState_ne _ _ _ hu, modify_ne _ _ _ _ hu]
  have hnew : Placed ((s.modify t fun _ => k).setState t .deferredReady) t :=
    ⟨by simpa using hk, by simp [hnot], by simp [hnot], by simp [hnot]⟩
  refine { toSlots := h.toSlots.move t t (h.toLists.congr rfl rfl fun u p => ?_) hnew hnew
             (fun u hu _ => hsame u hu) (fun _ _ _ => Iff.rfl) (fun _ _ _ => Iff.rfl) rfl h.idle,
           chosen := fun p hp => ?_, ahead := fun n hn hc => ?_ }
  · by_cases hu : u = t
    · simp [hu, ht]
    · rw [hsame u hu]
  · have hchosen : s.chosen ≠ t := (chosen_slot s).elim (fun hc => hc ▸ hnot.2.1.symm)
      fun hn heq => hnot.1 (heq ▸ hn)
    show p ≤ (((s.modify t fun _ => k).setState t .deferredReady).threads s.chosen).priority
    rw [hsame _ hchosen]
    exact h.chosen p hp
  · show (((s.modify t fun _ => k).setState t .deferredReady).threads s.currentThread).priority ≤ _
    rw [hsame _ hnot.2.1.symm, hsame n fun heq => hnot.1 (heq ▸ hn)]
    exact h.ahead n hn hc

/-- A step that does not invert the slots returns and keeps the invariant,
    unless it asks for a new priority of the idle thread while another one
    runs. -/
theorem step_spec (h : Inv s) (c : Step) (hlegal : Legal s c) (hok : ¬ Inverts s c) :
    (∃ s', step s c = some (s', ()) ∧ Inv s') ∨
      step s c = none ∧ s.currentThread ≠ s.idleThread ∧ ∃ p, c = .setPriority s.idleThread p := by
  cases c with
  | ready t k =>
    obtain ⟨ht, hk⟩ := hlegal
    obtain ⟨s', heq, hinv⟩ := kiDeferredReadyThread_spec (t := t) (h.defer ht hk) (by simp)
    exact .inl ⟨s', by rw [step, kiInsertDeferredReadyList, heq]; rfl, hinv⟩
  | swapThread =>
    obtain ⟨s', heq, hinv⟩ := kiSwapThread_spec h hlegal
    exact .inl ⟨s', by rw [step, heq]; rfl, hinv⟩
  | exitDispatcher d => exact .inl ⟨_, rfl, kiExitDispatcher_inv h hlegal⟩
  | adjustQuantum d =>
    obtain ⟨s', heq, hinv⟩ := kiAdjustQuantumThread_spec h d hlegal hok
    exact .inl ⟨s', by rw [step, heq]; rfl, hinv⟩
  | quantumEnd =>
    obtain ⟨s', heq, hinv⟩ := kiQuantumEnd_spec h hlegal hok
    exact .inl ⟨s', by rw [step, heq]; rfl, hinv⟩
  | updateRunTime => exact .inl ⟨_, rfl, h.modify _ _ ⟨rfl, id⟩ id (.inr rfl)⟩
  | dispatchInterrupt => exact .inl ⟨_, rfl, swapToNext_inv h hlegal⟩
  | idleLoop => exact .inl ⟨_, rfl, kiIdleLoop_inv h hlegal⟩
  | setPriority t p =>
    rcases kiSetPriorityThread_spec h hlegal hok with ⟨s', heq, hinv⟩ | ⟨heq, ht, hc⟩
    · exact .inl ⟨s', by rw [step, heq]; rfl, hinv⟩
    · exact .inr ⟨by rw [step, heq]; rfl, hc, p, by rw [ht]⟩

theorem Initial.inv (h : Initial s) : Inv s := by
  have hready : ∀ t, (s.threads t).state ≠ .ready ∧ (s.threads t).state ≠ .standby := by
    intro t
    by_cases ht : t = s.idleThread
    · simp [ht, h.running]
    · simp [h.other t ht]
  refine { summary := fun p => by simp [h.summary, h.empty], mem := fun p t => ?_,
           nodup := fun p => by simp [h.empty],
           placed := fun t => ⟨h.range t, by simp [h.next, hready], ?_, fun hp => ?_⟩,
           idle := fun _ => ⟨h.current, h.next, h.empty⟩,
           chosen := fun p hp => absurd (h.empty p) hp,
           ahead := fun n hn => by simp [h.next] at hn }
  · simp [h.empty, hready]
  · by_cases ht : t = s.idleThread
    · simp [ht, h.running]
    · simp [ht, h.other t ht, h.current]
  · rcases hp with hr | hs | ⟨hc, hne⟩
    · exact absurd hr (hready t).1
    · exact absurd hs (hready t).2
    · exact absurd (hc.trans h.current) hne

/-- What the dispatcher promises about its lists: the summary has the bits of
    the lists in use, a thread on a list is ready at its priority, is on no
    other list and on this one once, and is not above the chosen thread. -/
structure StrictPriority (s : KPrcb) : Prop where
  summary : ∀ p, s.readySummary.testBit p = true ↔ s.readyList p ≠ []
  ready : ∀ p, ∀ t ∈ s.readyList p, (s.threads t).state = .ready ∧ (s.threads t).priority = p
  unique : ∀ p q, ∀ t ∈ s.readyList p, t ∈ s.readyList q → p = q
  once : ∀ p, (s.readyList p).Nodup
  chosen : ∀ p, ∀ t ∈ s.readyList p,
    (s.threads t).priority ≤ (s.threads s.chosen).priority

/-- As long as no step lets the running thread pass the one on standby, the
    processor runs the highest of its ready threads. -/
theorem strict_priority {s : KPrcb}
    (h : Transition.Reachable scheduler (fun s c => ¬ Inverts s c) s) : StrictPriority s := by
  have hinv : Inv s := by
    refine h.invariant (I := Inv) (fun s hs => Initial.inv hs) fun s c s' r hI hlegal hok hstep => ?_
    have hstep' : step s c = some (s', r) := hstep
    rcases step_spec hI c hlegal hok with ⟨s'', heq, hs''⟩ | ⟨heq, -⟩
    · rw [hstep'] at heq
      cases heq
      exact hs''
    · simp [hstep'] at heq
  refine ⟨hinv.summary, fun p t ht => (hinv.mem p t).1 ht, fun p q t hp hq => ?_, hinv.nodup,
    fun p t ht => ?_⟩
  · exact ((hinv.mem p t).1 hp).2.symm.trans ((hinv.mem q t).1 hq).2
  · rw [((hinv.mem p t).1 ht).2]
    exact hinv.chosen p (List.ne_nil_of_mem ht)

instance (s : KPrcb) : (c : Step) → Decidable (Inverts s c)
  | .setPriority _ _ | .adjustQuantum _ | .quantumEnd => inferInstanceAs (Decidable (_ ∧ _))
  | .ready _ _ | .swapThread | .exitDispatcher _ | .updateRunTime | .dispatchInterrupt
  | .idleLoop => inferInstanceAs (Decidable False)

/-- A thread of a given priority whose wait is over. -/
def waiter (priority : Nat) : KThread where
  state := .other
  priority := priority
  basePriority := priority
  priorityDecrement := 0
  quantum := 6
  quantumReset := 6
  adjustReason := .adjustNone
  adjustIncrement := 0
  disableBoost := false
  preempted := false
  kernelApc := false
  foreground := false
  disableQuantum := false

/-- A processor in its idle loop: thread 0 is the idle thread. -/
def idleProcessor : KPrcb where
  threads := fun t => if t = 0 then { waiter 0 with state := .running } else waiter 0
  nextThread := none
  currentThread := 0
  idleThread := 0
  readyList := fun _ => []
  readySummary := 0
  idleSummary := true
  prioritySeparation := 2

theorem idleProcessor_initial : Initial idleProcessor where
  current := rfl
  running := rfl
  other := fun t ht => by simp [idleProcessor, show t ≠ 0 from ht, waiter]
  next := rfl
  empty := fun _ => rfl
  summary := rfl
  idle := rfl
  range := fun t => by
    by_cases ht : t = 0
    · simp [idleProcessor, ht, waiter]
    · simp [idleProcessor, ht, waiter]

/-- Thread 1 runs, thread 2 preempts it and thread 3 is ready: the lists are
    in use and thread 2 is the highest. -/
theorem strict_priority_preempted : ∃ s, StrictPriority s ∧ s.currentThread = 2 ∧
    s.readyList 8 = [1] ∧ s.readyList 9 = [3] ∧ s.readySummary = 2 ^ 8 + 2 ^ 9 := by
  obtain ⟨s, hs, hp⟩ := Transition.Reachable.exists_of_run
    (S := scheduler.restrict fun s c => ¬ Inverts s c) (s := idleProcessor)
    [.ready 1 (waiter 8), .idleLoop, .ready 3 (waiter 9), .ready 2 (waiter 10),
      .exitDispatcher false]
    (fun s => decide (s.currentThread = 2 ∧ s.readyList 8 = [1] ∧ s.readyList 9 = [3] ∧
      s.readySummary = 2 ^ 8 + 2 ^ 9))
    (.init idleProcessor_initial) (by decide +kernel)
  exact ⟨s, strict_priority hs.of_restrict, of_decide_eq_true hp⟩

/-- Thread 1 runs at 8 and thread 2 stands by at 10 when thread 1 is raised to
    15: the swap that follows runs thread 2 while thread 1 is ready at 15. -/
theorem raised_thread_waits :
    ∃ s, Transition.Reachable scheduler (fun _ _ => True) s ∧ ¬ StrictPriority s := by
  obtain ⟨s, hs, hp⟩ := Transition.Reachable.exists_of_run (S := scheduler) (s := idleProcessor)
    [.ready 1 (waiter 8), .idleLoop, .ready 2 (waiter 10), .setPriority 1 15,
      .exitDispatcher false]
    (fun s => decide (1 ∈ s.readyList 15 ∧ (s.threads 1).priority = 15 ∧
      (s.threads s.chosen).priority = 10))
    (.init idleProcessor_initial) (by decide +kernel)
  obtain ⟨hmem, hprio, hchosen⟩ := of_decide_eq_true hp
  refine ⟨s, hs, fun hstrict => ?_⟩
  have hle := hstrict.chosen 15 1 hmem
  rw [hprio, hchosen] at hle
  exact absurd hle (by decide)

end Sched
