import ReactOS.Ke.Scheduler
import Mathlib.Data.List.Nodup
import Mathlib.Data.Nat.Bitwise
import Mathlib.Data.Nat.Log

/-! # The places of a thread

    A thread of the scheduler is on a ready list, in the standby slot, in the
    running slot or on its way.  The ready lists and their summary agree, the
    slots hold what the thread states say, and no ready thread is above the
    thread chosen to run; `KiDeferredReadyThread` finds a thread its place and
    keeps all of it. -/

namespace Sched

open KPrcb

/-! ## Section 1: The invariant -/

/-- `NextThread` if set, else `CurrentThread`. -/
def KPrcb.chosen (s : KPrcb) : ThreadId := s.nextThread.getD s.currentThread

/-- The ready lists: the summary has the bits of the lists that are not
    empty, and a list holds the ready threads of its priority. -/
structure Lists (s : KPrcb) : Prop where
  summary : ∀ p, s.readySummary.testBit p = true ↔ s.readyList p ≠ []
  mem : ∀ p t, t ∈ s.readyList p ↔ (s.threads t).state = .ready ∧ (s.threads t).priority = p
  nodup : ∀ p, (s.readyList p).Nodup

/-- What the slots say about a thread agrees with its record. -/
structure Placed (s : KPrcb) (t : ThreadId) : Prop where
  range : (s.threads t).priority ≤ highPriority ∧ (s.threads t).basePriority ≤ highPriority
  standby : s.nextThread = some t ↔ (s.threads t).state = .standby
  running : t = s.currentThread ∨ t = s.idleThread ↔ (s.threads t).state = .running
  /-- Boosts are applied before a thread gets its place. -/
  settled : (s.threads t).state = .ready ∨ (s.threads t).state = .standby ∨
    t = s.currentThread ∧ t ≠ s.idleThread → (s.threads t).adjustReason = .adjustNone

/-- The lists and the two slots agree with the states of the threads. -/
structure Slots (s : KPrcb) : Prop extends Lists s where
  placed : ∀ t, Placed s t
  idle : s.idleSummary = true →
    s.currentThread = s.idleThread ∧ s.nextThread = none ∧ ∀ p, s.readyList p = []

/-- No ready thread is above the chosen one, and a running thread is not
    above its successor. -/
structure Inv (s : KPrcb) : Prop extends Slots s where
  chosen : ∀ p, s.readyList p ≠ [] → p ≤ (s.threads s.chosen).priority
  ahead : ∀ n, s.nextThread = some n → s.currentThread ≠ s.idleThread →
    (s.threads s.currentThread).priority ≤ (s.threads n).priority

section Fields

variable (s : KPrcb) (t u : ThreadId) (f : KThread → KThread)

@[simp] theorem modify_self : (s.modify t f).threads t = f (s.threads t) := by
  simp [KPrcb.modify]

theorem modify_ne (h : u ≠ t) : (s.modify t f).threads u = s.threads u := by
  simp [KPrcb.modify, h]

@[simp] theorem setState_priority (x : ThreadState) :
    ((s.setState t x).threads u).priority = (s.threads u).priority := by
  by_cases h : u = t <;> simp [KPrcb.setState, KPrcb.modify, h]

@[simp] theorem setState_adjustReason (x : ThreadState) :
    ((s.setState t x).threads u).adjustReason = (s.threads u).adjustReason := by
  by_cases h : u = t <;> simp [KPrcb.setState, KPrcb.modify, h]

@[simp] theorem setState_basePriority (x : ThreadState) :
    ((s.setState t x).threads u).basePriority = (s.threads u).basePriority := by
  by_cases h : u = t <;> simp [KPrcb.setState, KPrcb.modify, h]

@[simp] theorem setState_setState (x y : ThreadState) :
    (s.setState t x).setState t y = s.setState t y := by
  simp only [KPrcb.setState, KPrcb.modify, KPrcb.mk.injEq, and_true]
  funext v
  by_cases h : v = t <;> simp [h]

theorem setState_comm (h : t ≠ u) (x y : ThreadState) :
    (s.setState t x).setState u y = (s.setState u y).setState t x := by
  simp only [KPrcb.setState, KPrcb.modify, KPrcb.mk.injEq, and_true]
  funext v
  by_cases ht : v = t
  · simp [ht, h]
  · simp [ht]

@[simp] theorem setState_self (x : ThreadState) : ((s.setState t x).threads t).state = x := by
  simp [setState]

theorem setState_ne (h : u ≠ t) (x : ThreadState) :
    (s.setState t x).threads u = s.threads u := modify_ne s t u _ h

@[simp] theorem setState_nextThread (x : ThreadState) :
    (s.setState t x).nextThread = s.nextThread := rfl
@[simp] theorem setState_currentThread (x : ThreadState) :
    (s.setState t x).currentThread = s.currentThread := rfl
@[simp] theorem setState_idleThread (x : ThreadState) :
    (s.setState t x).idleThread = s.idleThread := rfl
@[simp] theorem setState_readyList (x : ThreadState) :
    (s.setState t x).readyList = s.readyList := rfl
@[simp] theorem setState_readySummary (x : ThreadState) :
    (s.setState t x).readySummary = s.readySummary := rfl

@[simp] theorem removeReady_threads (p : Nat) : (s.removeReady t p).threads = s.threads := rfl

@[simp] theorem modify_nextThread : (s.modify t f).nextThread = s.nextThread := rfl
@[simp] theorem modify_currentThread : (s.modify t f).currentThread = s.currentThread := rfl
@[simp] theorem modify_idleThread : (s.modify t f).idleThread = s.idleThread := rfl
@[simp] theorem modify_readyList : (s.modify t f).readyList = s.readyList := rfl
@[simp] theorem modify_readySummary : (s.modify t f).readySummary = s.readySummary := rfl

end Fields

/-! ## Section 2: The ready lists -/

variable {s : KPrcb} {t : ThreadId} {p : Nat}

@[simp] theorem testBit_priorityMask (p q : Nat) : (priorityMask p).testBit q = decide (q = p) := by
  rw [priorityMask, Nat.one_shiftLeft, Nat.testBit_two_pow]
  exact decide_eq_decide.2 eq_comm

/-- Threads that are not ready may change while the lists stay. -/
theorem Lists.congr {s' : KPrcb} (h : Lists s) (hlist : s'.readyList = s.readyList)
    (hsum : s'.readySummary = s.readySummary)
    (hready : ∀ u p, ((s'.threads u).state = .ready ∧ (s'.threads u).priority = p) ↔
      ((s.threads u).state = .ready ∧ (s.threads u).priority = p)) : Lists s' := by
  constructor
  · intro p
    rw [hsum, hlist]
    exact h.summary p
  · intro p t
    rw [hlist, hready]
    exact h.mem p t
  · intro p
    rw [hlist]
    exact h.nodup p

/-- A thread that was not ready is queued. -/
theorem Lists.insert (h : Lists s) (b : Bool)
    (ht : (s.threads t).state ≠ .ready) : Lists (s.insertReady t b) := by
  have hnot : ∀ p, t ∉ s.readyList p := fun p hmem => ht ((h.mem p t).1 hmem).1
  constructor
  · intro p
    simp only [KPrcb.insertReady, Nat.testBit_or, testBit_priorityMask, Bool.or_eq_true,
      decide_eq_true_eq, h.summary]
    by_cases hp : p = (s.threads t).priority
    · cases b <;> simp [hp]
    · simp [hp]
  · intro p u
    have hu := h.mem p u
    by_cases hut : u = t
    · subst hut
      simp only [KPrcb.insertReady, KPrcb.setState, KPrcb.modify]
      by_cases hp : p = (s.threads u).priority
      · cases b <;> simp [hp]
      · simp [hp, hnot p, Ne.symm hp]
    simp only [KPrcb.insertReady, KPrcb.setState, modify_ne _ _ _ _ hut]
    by_cases hp : p = (s.threads t).priority
    · subst hp
      cases b <;> simp [hut, hu]
    · simp [hp, hu]
  · intro p
    simp only [KPrcb.insertReady]
    by_cases hp : p = (s.threads t).priority
    · cases b
      · simp only [hp, if_true]
        exact (h.nodup _).append (List.nodup_singleton t) (by simpa using hnot _)
      · simp only [hp, if_true]
        exact List.nodup_cons.2 ⟨hnot _, h.nodup _⟩
    · simpa [hp] using h.nodup p

/-- A thread taken off its list; what becomes of it is not being ready. -/
theorem Lists.remove (h : Lists s) (ht : t ∈ s.readyList p) (f : KThread → KThread)
    (hf : (f (s.threads t)).state ≠ .ready) : Lists ((s.removeReady t p).modify t f) := by
  have hprio := (h.mem p t).1 ht
  have hbit : s.readySummary.testBit p = true := (h.summary p).2 (List.ne_nil_of_mem ht)
  constructor
  · intro q
    simp only [modify_readySummary, modify_readyList, KPrcb.removeReady]
    by_cases hq : q = p
    · subst hq
      by_cases hl : (s.readyList q).erase t = []
      · simp [hl, hbit]
      · simp [hl, hbit]
    · by_cases hl : (s.readyList p).erase t = []
      · simp [hl, hq, ← h.summary q]
      · simp [hl, hq, h.summary]
  · intro q u
    simp only [modify_readyList, KPrcb.removeReady]
    by_cases hut : u = t
    · subst hut
      -- the thread was on this list only, and once
      have hgone : u ∉ (s.readyList p).erase u := fun hmem =>
        absurd hmem (h.nodup p).not_mem_erase
      by_cases hq : q = p
      · simp [hq, hgone, hf, KPrcb.modify]
      · have : u ∉ s.readyList q := fun hmem => hq (((h.mem q u).1 hmem).2.symm.trans hprio.2)
        simp [hq, this, hf, KPrcb.modify]
    rw [modify_ne _ _ _ _ hut]
    have hu := h.mem q u
    by_cases hq : q = p
    · subst hq
      simp [List.mem_erase_of_ne hut, hu]
    · simp [hq, hu]
  · intro q
    simp only [modify_readyList, KPrcb.removeReady]
    by_cases hq : q = p
    · simpa [hq] using (h.nodup p).erase t
    · simpa [hq] using h.nodup q

/-- The summary shifted down says whether a list from a priority on is in use. -/
theorem summary_above (h : Lists s) :
    s.readySummary >>> p = 0 ↔ ∀ q, p ≤ q → s.readyList q = [] := by
  constructor
  · intro hzero q hq
    by_contra hne
    have hbit : (s.readySummary >>> p).testBit (q - p) = s.readySummary.testBit q := by
      rw [Nat.testBit_shiftRight, Nat.add_sub_cancel' hq]
    simp [hzero, (h.summary q).2 hne] at hbit
  · intro hempty
    apply Nat.eq_of_testBit_eq
    intro i
    rw [Nat.testBit_shiftRight, Nat.zero_testBit]
    by_contra hbit
    exact (h.summary _).1 (Bool.eq_true_of_not_eq_false hbit) (hempty _ (Nat.le_add_right p i))

theorem kiSelectReadyThread_spec (h : Lists s) (p : Nat) :
    (kiSelectReadyThread p s = some (s, none) ∧ ∀ q, p ≤ q → s.readyList q = []) ∨
    ∃ t high, kiSelectReadyThread p s = some (s.removeReady t high, some t) ∧ p ≤ high ∧
      t ∈ s.readyList high ∧ ∀ q, s.readyList q ≠ [] → q ≤ high := by
  unfold kiSelectReadyThread
  by_cases hset : s.readySummary >>> p = 0
  · left
    exact ⟨by simp [hset], (summary_above h).1 hset⟩
  right
  -- the highest bit of the shifted summary
  have hhigh : (s.readySummary >>> p).testBit (s.readySummary >>> p).log2 = true :=
    Nat.testBit_log2 hset
  rw [Nat.testBit_shiftRight, h.summary, Nat.add_comm] at hhigh
  simp only [hset, if_false]
  cases hl : s.readyList ((s.readySummary >>> p).log2 + p) with
  | nil => exact absurd hl hhigh
  | cons t rest =>
    refine ⟨t, _, rfl, Nat.le_add_left _ _, by simp [hl], fun q hq => ?_⟩
    by_contra hlt
    have hbit : (s.readySummary >>> p).testBit (q - p) = true := by
      rw [Nat.testBit_shiftRight, Nat.add_sub_cancel' (by omega)]
      exact (h.summary q).2 hq
    have := Nat.ge_two_pow_of_testBit hbit
    have := (Nat.le_log2 hset).2 this
    omega

/-! ## Section 3: The slots -/

variable {n : ThreadId}

/-- Two threads at most change places. -/
theorem Slots.move {s' : KPrcb} (h : Slots s) (t t' : ThreadId) (hlists : Lists s')
    (ht : Placed s' t) (ht' : Placed s' t')
    (hsame : ∀ u, u ≠ t → u ≠ t' → s'.threads u = s.threads u)
    (hnext : ∀ u, u ≠ t → u ≠ t' → (s'.nextThread = some u ↔ s.nextThread = some u))
    (hcur : ∀ u, u ≠ t → u ≠ t' → (u = s'.currentThread ↔ u = s.currentThread))
    (hidle : s'.idleThread = s.idleThread)
    (hsummary : s'.idleSummary = true →
      s'.currentThread = s'.idleThread ∧ s'.nextThread = none ∧ ∀ p, s'.readyList p = []) :
    Slots s' := by
  refine { toLists := hlists, placed := fun u => ?_, idle := hsummary }
  by_cases hu : u = t
  · exact hu ▸ ht
  by_cases hu' : u = t'
  · exact hu' ▸ ht'
  have hold := h.placed u
  constructor
  · rw [hsame u hu hu']
    exact hold.range
  · rw [hsame u hu hu', hnext u hu hu']
    exact hold.standby
  · rw [hsame u hu hu', hcur u hu hu', hidle]
    exact hold.running
  · rw [hsame u hu hu', hcur u hu hu', hidle]
    exact hold.settled

/-- A write that keeps a thread's state and leaves the priority of a ready
    one alone. -/
theorem Slots.modify (h : Slots s) (t : ThreadId) (f : KThread → KThread)
    (hstate : (f (s.threads t)).state = (s.threads t).state)
    (hready : (s.threads t).state = .ready → (f (s.threads t)).priority = (s.threads t).priority)
    (hrange : (f (s.threads t)).priority ≤ highPriority ∧
      (f (s.threads t)).basePriority ≤ highPriority)
    (hadj : (s.threads t).adjustReason = .adjustNone →
      (f (s.threads t)).adjustReason = .adjustNone) : Slots (s.modify t f) := by
  have hold := h.placed t
  have hnew : Placed (s.modify t f) t := by
    constructor
    · simpa using hrange
    · simpa [hstate] using hold.standby
    · simpa [hstate] using hold.running
    · simpa [hstate] using fun hplace => hadj (hold.settled hplace)
  refine h.move t t (h.toLists.congr rfl rfl fun u p => ?_) hnew hnew
    (fun u hu _ => modify_ne _ _ _ _ hu) (fun _ _ _ => Iff.rfl) (fun _ _ _ => Iff.rfl) rfl h.idle
  by_cases hu : u = t
  · subst hu
    rw [modify_self, hstate]
    exact and_congr_right fun hr => by rw [hready hr]
  · rw [modify_ne _ _ _ _ hu]

theorem Slots.not_in_slot (h : Slots s)
    (ht : (s.threads t).state = .deferredReady ∨ (s.threads t).state = .other) :
    s.nextThread ≠ some t ∧ t ≠ s.currentThread ∧ t ≠ s.idleThread := by
  have hstandby := (h.placed t).standby
  have hrunning := (h.placed t).running
  refine ⟨fun hn => ?_, fun hc => ?_, fun hi => ?_⟩
  · simp [hstandby.1 hn] at ht
  · simp [hrunning.1 (.inl hc)] at ht
  · simp [hrunning.1 (.inr hi)] at ht

/-- A thread on its way to a place, its boost applied. -/
structure Unplaced (s : KPrcb) (t : ThreadId) : Prop where
  state : (s.threads t).state = .deferredReady
  settled : (s.threads t).adjustReason = .adjustNone

theorem Slots.current_ne_next (h : Slots s) (hn : s.nextThread = some n) : s.currentThread ≠ n := by
  intro heq
  have hrunning := (h.placed n).running.1 (.inl heq.symm)
  simp [(h.placed n).standby.1 hn] at hrunning

theorem Slots.busy (h : Slots s) (hn : s.nextThread = some n) : s.idleSummary = false := by
  cases hi : s.idleSummary with
  | false => rfl
  | true => simp [(h.idle hi).2.1] at hn

/-- The standby thread loses its slot. -/
def KPrcb.release (s : KPrcb) (n : ThreadId) : KPrcb :=
  { s.setState n .deferredReady with nextThread := none }

/-- A thread becomes the running one. -/
def KPrcb.run (s : KPrcb) (n : ThreadId) : KPrcb :=
  { s.setState n .running with currentThread := n }

namespace Slots

variable (h : Slots s)

include h

theorem release (hn : s.nextThread = some n) : Slots (s.release n) := by
  have hold := h.placed n
  have hstate := hold.standby.1 hn
  have hnot : ¬ (n = s.currentThread ∨ n = s.idleThread) := fun hr => by
    simp [hold.running.1 hr] at hstate
  have hnew : Placed (s.release n) n :=
    ⟨by simpa [KPrcb.release] using hold.range, by simp [KPrcb.release],
      by simpa [KPrcb.release] using hnot, fun _ => by
        simpa [KPrcb.release] using hold.settled (.inr (.inl hstate))⟩
  refine h.move n n (h.toLists.congr rfl rfl fun u p => ?_) hnew hnew
    (fun u hu _ => setState_ne _ _ _ hu _) (fun u hu _ => ?_) (fun _ _ _ => Iff.rfl) rfl
    (fun hi => ⟨(h.idle hi).1, rfl, (h.idle hi).2.2⟩)
  · by_cases hu : u = n
    · simp [hu, KPrcb.release, hstate]
    · simp [KPrcb.release, setState_ne _ _ _ hu]
  · simp [KPrcb.release, hn, Ne.symm hu]

theorem release_unplaced (hn : s.nextThread = some n) : Unplaced (s.release n) n where
  state := by simp [KPrcb.release]
  settled := by
    simpa [KPrcb.release] using (h.placed n).settled (.inr (.inl ((h.placed n).standby.1 hn)))

theorem insertReady (b : Bool) (ht : Unplaced s t) (hbusy : s.idleSummary = false) :
    Slots (s.insertReady t b) := by
  have hold := h.placed t
  have hnot := h.not_in_slot (.inl ht.state)
  have hnew : Placed (s.insertReady t b) t :=
    ⟨by simpa [KPrcb.insertReady] using hold.range, by simp [KPrcb.insertReady, hnot],
      by simp [KPrcb.insertReady, hnot], by simp [KPrcb.insertReady, ht.settled]⟩
  refine h.move t t (h.toLists.insert b (by simp [ht.state])) hnew hnew
    (fun u hu _ => setState_ne _ _ _ hu _) (fun _ _ _ => Iff.rfl) (fun _ _ _ => Iff.rfl) rfl
    fun hi => ?_
  exact absurd (show s.idleSummary = true from hi) (by simp [hbusy])

theorem setStandby (ht : Unplaced s t) (hfree : s.nextThread = none) :
    Slots { s.setStandby t with idleSummary := false } := by
  have hold := h.placed t
  have hnot := h.not_in_slot (.inl ht.state)
  have hnew : Placed { s.setStandby t with idleSummary := false } t :=
    ⟨by simpa [KPrcb.setStandby] using hold.range, by simp [KPrcb.setStandby],
      by simp [KPrcb.setStandby, hnot], by simp [KPrcb.setStandby, ht.settled]⟩
  refine h.move t t (h.toLists.congr rfl rfl fun u p => ?_) hnew hnew
    (fun u hu _ => setState_ne _ _ _ hu _) (fun u hu _ => ?_) (fun _ _ _ => Iff.rfl) rfl
    (fun hi => nomatch hi)
  · by_cases hu : u = t
    · simp [hu, KPrcb.setStandby, ht.state]
    · simp [KPrcb.setStandby, setState_ne _ _ _ hu]
  · simp [KPrcb.setStandby, hfree, Ne.symm hu]

theorem remove (ht : t ∈ s.readyList p) : Slots ((s.removeReady t p).setState t .deferredReady) := by
  have hold := h.placed t
  have hstate := ((h.mem p t).1 ht).1
  have hstandby := hold.standby
  have hrunning := hold.running
  have hnew : Placed ((s.removeReady t p).setState t .deferredReady) t := by
    constructor
    · simpa using hold.range
    · simpa [hstate, removeReady] using hstandby
    · simpa [hstate, removeReady] using hrunning
    · intro _
      simpa using hold.settled (.inl hstate)
  refine h.move t t (h.toLists.remove ht _ (by simp)) hnew hnew
    (fun u hu _ => setState_ne _ _ _ hu _) (fun _ _ _ => Iff.rfl) (fun _ _ _ => Iff.rfl) rfl
    fun hi => ?_
  exact absurd ((h.idle hi).2.2 p) (List.ne_nil_of_mem ht)

/-- A thread in no place takes over from the running one, which is in no
    place then. -/
theorem run {x : ThreadState} (hn : Unplaced s n) (hx : x = .deferredReady ∨ x = .other)
    (hbusy : s.idleSummary = false) (hc : s.currentThread ≠ s.idleThread) :
    Slots ((s.run n).setState s.currentThread x) := by
  have hnot := h.not_in_slot (.inl hn.state)
  have holdc := h.placed s.currentThread
  have hrun := holdc.running.1 (.inl rfl)
  have hnext : s.nextThread ≠ some s.currentThread := fun hnext => by
    simp [holdc.standby.1 hnext] at hrun
  have hnew : Placed ((s.run n).setState s.currentThread x) n := by
    constructor
    · simpa [KPrcb.run] using (h.placed n).range
    · rw [setState_ne _ _ _ hnot.2.1]
      simp [KPrcb.run, hnot]
    · rw [setState_ne _ _ _ hnot.2.1]
      simp [KPrcb.run]
    · simp [KPrcb.run, hn.settled]
  have hnewc : Placed ((s.run n).setState s.currentThread x) s.currentThread := by
    constructor
    · simpa [KPrcb.run] using holdc.range
    · rcases hx with rfl | rfl <;> simp [KPrcb.run, hnext]
    · rcases hx with rfl | rfl <;> simp [KPrcb.run, hc, Ne.symm hnot.2.1]
    · rcases hx with rfl | rfl <;> simp [KPrcb.run, Ne.symm hnot.2.1]
  refine h.move n s.currentThread (h.toLists.congr rfl rfl fun u p => ?_) hnew hnewc
    (fun u hu huc => ?_) (fun _ _ _ => Iff.rfl) (fun u hu huc => ?_) rfl fun hi => ?_
  · by_cases huc : u = s.currentThread
    · rcases hx with rfl | rfl <;> simp [huc, hrun]
    rw [setState_ne _ _ _ huc]
    by_cases hu : u = n
    · simp [hu, KPrcb.run, hn.state]
    · simp [KPrcb.run, setState_ne _ _ _ hu]
  · rw [setState_ne _ _ _ huc]
    exact setState_ne _ _ _ hu _
  · simp [KPrcb.run, hu, huc]
  · exact absurd (show s.idleSummary = true from hi) (by simp [hbusy])

/-- A thread in no place takes over from the idle thread. -/
theorem run_idle (hn : Unplaced s n) (hbusy : s.idleSummary = false)
    (hc : s.currentThread = s.idleThread) : Slots (s.run n) := by
  have hnot := h.not_in_slot (.inl hn.state)
  have holdc := h.placed s.idleThread
  have hrun := holdc.running.1 (.inr rfl)
  have hsame : (s.run n).threads s.idleThread = s.threads s.idleThread :=
    setState_ne _ _ _ hnot.2.2.symm _
  have hnew : Placed (s.run n) n :=
    ⟨by simpa [KPrcb.run] using (h.placed n).range, by simp [KPrcb.run, hnot],
      by simp [KPrcb.run], by simp [KPrcb.run, hn.settled]⟩
  have hnewc : Placed (s.run n) s.idleThread :=
    ⟨hsame ▸ holdc.range, hsame ▸ holdc.standby, by rw [hsame]; simp [hrun, KPrcb.run],
      by rw [hsame]; simp [hrun, KPrcb.run]⟩
  refine h.move n s.idleThread (h.toLists.congr rfl rfl fun u p => ?_) hnew hnewc
    (fun u hu _ => setState_ne _ _ _ hu _) (fun _ _ _ => Iff.rfl) (fun u hu hui => ?_) rfl
    fun hi => ?_
  · by_cases hu : u = n
    · simp [hu, KPrcb.run, hn.state]
    · simp [KPrcb.run, setState_ne _ _ _ hu]
  · simp [KPrcb.run, hu, hui, hc]
  · exact absurd (show s.idleSummary = true from hi) (by simp [hbusy])

end Slots

/-! ## Section 4: Making a thread ready -/

variable {k : KThread}

/-- What a change of priority and quantum leaves of a thread's record. -/
structure Adjusts (k k' : KThread) : Prop where
  state : k'.state = k.state
  range : k.priority ≤ highPriority ∧ k.basePriority ≤ highPriority →
    k'.priority ≤ highPriority ∧ k'.basePriority ≤ highPriority

/-- The record may have got another quantum before. -/
theorem kiComputeNewPriority_adjusts {k' : KThread} (n : Nat) (hstate : k'.state = k.state)
    (hprio : k'.priority = k.priority) (hbase : k'.basePriority = k.basePriority) :
    Adjusts k (kiComputeNewPriority k' n) := by
  unfold kiComputeNewPriority
  split
  · refine ⟨hstate, fun h => ⟨?_, hbase ▸ h.2⟩⟩
    exact max_le ((Nat.sub_le _ _).trans (hprio ▸ h.1)) (hbase ▸ h.2)
  · exact ⟨hstate, fun h => ⟨hprio ▸ h.1, hbase ▸ h.2⟩⟩

theorem adjustBoost_adjusts (k : KThread) : Adjusts k (adjustBoost k) := by
  unfold adjustBoost
  split
  · refine ⟨rfl, fun h => ⟨(Nat.min_le_right _ _).trans (by decide), h.2⟩⟩
  · exact ⟨rfl, id⟩

theorem Adjusts.trans {k' k'' : KThread} (h : Adjusts k k') (h' : Adjusts k' k'') : Adjusts k k'' :=
  ⟨h'.state.trans h.state, fun hr => h'.range (h.range hr)⟩

theorem unwaitQuantum_adjusts (k : KThread) : Adjusts k (unwaitQuantum k) := by
  unfold unwaitQuantum
  dsimp only
  -- every branch but the last leaves state and priorities alone
  split
  · exact ⟨rfl, id⟩
  split
  · split
    · exact ⟨rfl, id⟩
    · split
      · exact kiComputeNewPriority_adjusts 1 rfl rfl rfl
      · exact ⟨rfl, id⟩
  split
  · exact ⟨rfl, id⟩
  · split
    · exact kiComputeNewPriority_adjusts 1 rfl rfl rfl
    · exact ⟨rfl, id⟩

section

variable (separation : Nat) (k : KThread)

theorem unwaitBoost_adjusts : Adjusts k (unwaitBoost separation k) := by
  unfold unwaitBoost
  dsimp only
  generalize (if k.foreground = true then _ else k.basePriority + k.adjustIncrement) = new
  split
  · split
    · refine ⟨rfl, fun h => ⟨?_, h.2⟩⟩
      show (if lowRealtimePriority ≤ _ then _ else _) ≤ highPriority
      split
      · decide
      · rename_i hle
        exact (Nat.lt_of_not_le hle).le.trans (by decide)
    · exact ⟨rfl, id⟩
  · exact ⟨rfl, id⟩

theorem adjust_adjusts : Adjusts k (adjust separation k) := by
  unfold adjust
  split
  · exact ⟨rfl, id⟩
  · exact adjustBoost_adjusts k
  · unfold adjustUnwait
    split
    · exact ((unwaitQuantum_adjusts k).trans (unwaitBoost_adjusts separation _)).trans ⟨rfl, id⟩
    · exact ⟨rfl, id⟩

theorem adjust_settled : (adjust separation k).adjustReason = .adjustNone := by
  unfold adjust
  split
  · assumption
  · rfl
  · rfl

end

/-- Queueing a thread that is not above the chosen one. -/
theorem Inv.insertReady (h : Inv s) (b : Bool) (ht : Unplaced s t) (hbusy : s.idleSummary = false)
    (hle : (s.threads t).priority ≤ (s.threads s.chosen).priority) : Inv (s.insertReady t b) := by
  refine { toSlots := h.toSlots.insertReady b ht hbusy, chosen := fun p hp => ?_,
           ahead := fun n hn hc => ?_ }
  · show p ≤ ((s.setState t .ready).threads s.chosen).priority
    rw [setState_priority]
    by_cases hpt : p = (s.threads t).priority
    · exact hpt ▸ hle
    · exact h.chosen p (by simpa [KPrcb.insertReady, hpt] using hp)
  · show ((s.setState t .ready).threads s.currentThread).priority ≤
      ((s.setState t .ready).threads n).priority
    simpa using h.ahead n hn hc

/-- Filling the free standby slot with a thread that is not below the running
    one nor below a ready one. -/
theorem Slots.inv_setStandby (h : Slots s) (ht : Unplaced s t)
    (hfree : s.nextThread = none)
    (htop : ∀ p, s.readyList p ≠ [] → p ≤ (s.threads t).priority)
    (hcur : s.currentThread ≠ s.idleThread →
      (s.threads s.currentThread).priority ≤ (s.threads t).priority) :
    Inv { s.setStandby t with idleSummary := false } := by
  refine { toSlots := h.setStandby ht hfree, chosen := fun p hp => ?_,
           ahead := fun n hn hc => ?_ }
  · show p ≤ ((s.setState t .standby).threads t).priority
    rw [setState_priority]
    exact htop p hp
  · obtain rfl : t = n := Option.some.inj hn
    show ((s.setState t .standby).threads s.currentThread).priority ≤
      ((s.setState t .standby).threads t).priority
    simpa using hcur hc

theorem chosen_slot (s : KPrcb) : s.chosen = s.currentThread ∨ s.nextThread = some s.chosen := by
  unfold chosen
  cases s.nextThread with
  | none => exact .inl rfl
  | some n => exact .inr rfl

/-- A write that keeps a thread's state, and its priority while it has a place. -/
theorem Inv.modify (h : Inv s) (t : ThreadId) (f : KThread → KThread)
    (hadjusts : Adjusts (s.threads t) (f (s.threads t)))
    (hadj : (s.threads t).adjustReason = .adjustNone →
      (f (s.threads t)).adjustReason = .adjustNone)
    (hprio : ((s.threads t).state = .deferredReady ∨ (s.threads t).state = .other) ∨
      (f (s.threads t)).priority = (s.threads t).priority) : Inv (s.modify t f) := by
  have hslot : ∀ u, u = s.currentThread ∨ s.nextThread = some u →
      ((s.modify t f).threads u).priority = (s.threads u).priority := by
    intro u hu
    by_cases hut : u = t
    · subst hut
      rw [modify_self]
      rcases hprio with hd | heq
      · have hnot := h.not_in_slot hd
        rcases hu with hc | hn
        · exact absurd hc hnot.2.1
        · exact absurd hn hnot.1
      · exact heq
    · rw [modify_ne _ _ _ _ hut]
  refine { toSlots := h.toSlots.modify t f hadjusts.state (fun hr => ?_)
             (hadjusts.range (h.placed t).range) hadj,
           chosen := fun p hp => ?_, ahead := fun n hn hc => ?_ }
  · rcases hprio with hd | heq
    · simp [hr] at hd
    · exact heq
  · show p ≤ ((s.modify t f).threads s.chosen).priority
    rw [hslot _ (chosen_slot s)]
    exact h.chosen p hp
  · show ((s.modify t f).threads s.currentThread).priority ≤ _
    rw [hslot _ (.inl rfl), hslot n (.inr hn)]
    exact h.ahead n hn hc

theorem Inv.prepareThread (h : Inv s) (ht : (s.threads t).state = .deferredReady) :
    Inv (prepareThread s t) ∧ Unplaced (prepareThread s t) t := by
  have hadj := adjust_adjusts s.prioritySeparation (s.threads t)
  have hnone := adjust_settled s.prioritySeparation (s.threads t)
  refine ⟨h.modify t _ ⟨hadj.state, hadj.range⟩ (fun _ => hnone) (.inl (.inl ht)), ?_, ?_⟩
  · simpa [Sched.prepareThread] using hadj.state.trans ht
  · simpa [Sched.prepareThread] using hnone

/-- The same when the processor is not idle anyway. -/
theorem Slots.inv_setStandby_of_busy (h : Slots s) (ht : Unplaced s t)
    (hfree : s.nextThread = none) (hbusy : s.idleSummary = false)
    (htop : ∀ p, s.readyList p ≠ [] → p ≤ (s.threads t).priority)
    (hcur : s.currentThread ≠ s.idleThread →
      (s.threads s.currentThread).priority ≤ (s.threads t).priority) : Inv (s.setStandby t) := by
  have heta : { s.setStandby t with idleSummary := false } = s.setStandby t := by
    simp [KPrcb.setStandby, KPrcb.setState, KPrcb.modify, hbusy]
  exact heta ▸ h.inv_setStandby ht hfree htop hcur

section

variable (h : Inv s) (ht : Unplaced s t) (hbusy : s.idleSummary = false)
  (hle : (s.threads t).priority ≤ (s.threads s.chosen).priority)

include h ht hbusy hle

/-- A settled thread that is not above the chosen one is queued. -/
theorem placeThread_low (again : KPrcb → ThreadId → Option KPrcb) (b : Bool) :
    ∃ s', placeThread again s t b = some s' ∧ Inv s' := by
  refine ⟨_, ?_, h.insertReady b ht hbusy hle⟩
  simp only [placeThread, hbusy, Bool.false_eq_true, if_false]
  unfold chosen at hle
  cases hn : s.nextThread with
  | none =>
    rw [hn] at hle
    exact if_neg (Nat.not_lt.2 hle)
  | some n =>
    rw [hn] at hle
    exact if_neg (Nat.not_lt.2 hle)

/-- One call is enough for a settled thread that is not above the chosen one. -/
theorem kiDeferredReadyThread_low : ∃ s', kiDeferredReadyThread 1 s t = some s' ∧ Inv s' := by
  obtain ⟨hinv, hunplaced⟩ := h.prepareThread ht.state
  have hprio : ∀ u, ((prepareThread s t).threads u).priority = (s.threads u).priority := by
    intro u
    by_cases hut : u = t
    · subst hut
      simp [prepareThread, adjust, ht.settled]
    · rw [prepareThread, modify_ne _ _ _ _ hut]
  refine placeThread_low hinv hunplaced hbusy ?_ _ _
  rw [hprio, hprio]
  exact hle

end

/-- No ready thread is above the standby one. -/
theorem Inv.le_next (h : Inv s) (hn : s.nextThread = some n) (hp : s.readyList p ≠ []) :
    p ≤ (s.threads n).priority := by
  have hchosen := h.chosen p hp
  rw [KPrcb.chosen, hn, Option.getD_some] at hchosen
  exact hchosen

/-- The standby thread gives way to one above it. -/
theorem Inv.preempt (h : Inv s) (ht : Unplaced s t)
    (hn : s.nextThread = some n) (hlt : (s.threads n).priority < (s.threads t).priority) :
    Inv ((s.setStandby t).setState n .deferredReady) := by
  have hnt : t ≠ n := fun heq => (h.not_in_slot (.inl ht.state)).1 (heq ▸ hn)
  -- the slot is free for a moment, and then filled again
  have hinv : Inv ((s.release n).setStandby t) := by
    refine (h.toSlots.release hn).inv_setStandby_of_busy ⟨?_, ?_⟩ rfl (h.busy hn)
      (fun p hp => ?_) (fun hc => ?_)
    · simp [release, setState_ne _ _ _ hnt, ht.state]
    · simpa [release] using ht.settled
    · simpa [release] using (h.le_next hn hp).trans hlt.le
    · simpa [release] using (h.ahead n hn hc).trans hlt.le
  have heq : (s.setStandby t).setState n .deferredReady = (s.release n).setStandby t :=
    congrArg (fun s : KPrcb => { s with nextThread := some t })
      (setState_comm s t n hnt .standby .deferredReady)
  exact heq ▸ hinv

/-- A thread is given its place, and the one it preempts gets its own. -/
theorem placeThread_spec (h : Inv s) (b : Bool) (ht : Unplaced s t) :
    ∃ s', placeThread (kiDeferredReadyThread 1) s t b = some s' ∧ Inv s' := by
  have hnot := h.not_in_slot (.inl ht.state)
  cases hi : s.idleSummary with
  | true =>
    obtain ⟨hc, hnext, hempty⟩ := h.idle hi
    refine ⟨_, by simp only [placeThread, hi, if_true], h.inv_setStandby ht hnext ?_ ?_⟩
    · exact fun p hp => absurd (hempty p) hp
    · exact fun hne => absurd hc hne
  | false =>
    by_cases hle : (s.threads t).priority ≤ (s.threads s.chosen).priority
    · exact placeThread_low h ht hi hle _ b
    have hlt := Nat.lt_of_not_le hle
    simp only [placeThread, hi, Bool.false_eq_true, if_false]
    unfold chosen at hlt
    cases hn : s.nextThread with
    | none =>
      -- the running thread is to be preempted
      rw [hn, Option.getD_none] at hlt
      have hrun := (h.placed s.currentThread).running.1 (.inl rfl)
      simp only [hlt, hrun, if_true]
      have hinv := h.modify s.currentThread (fun k => { k with preempted := true }) ⟨rfl, id⟩ id
        (.inr rfl)
      have hsame := modify_ne s s.currentThread t (fun k => { k with preempted := true }) hnot.2.1
      refine ⟨_, rfl, hinv.inv_setStandby_of_busy ⟨hsame ▸ ht.state, hsame ▸ ht.settled⟩ hn hi
        (fun p hp => ?_) (fun _ => ?_)⟩
      · rw [hsame]
        have hchosen := h.chosen p hp
        rw [chosen, hn, Option.getD_none] at hchosen
        exact hchosen.trans hlt.le
      · rw [hsame]
        simpa using hlt.le
    | some n =>
      rw [hn, Option.getD_some] at hlt
      simp only [hlt, if_true]
      have hnt : t ≠ n := fun heq => hnot.1 (heq ▸ hn)
      have hinv := h.modify n (fun k => { k with preempted := true }) ⟨rfl, id⟩ id (.inr rfl)
      have hsame := modify_ne s n t (fun k => { k with preempted := true }) hnt
      have hself := modify_self s n (fun k => { k with preempted := true })
      have hp := hinv.preempt (n := n) ⟨hsame ▸ ht.state, hsame ▸ ht.settled⟩ hn
        (by rw [hsame, hself]; exact hlt)
      -- the thread that was to run next is settled, so it is not raised again
      have hsettled := (h.placed n).settled (.inr (.inl ((h.placed n).standby.1 hn)))
      refine kiDeferredReadyThread_low hp ⟨by simp, ?_⟩ hi ?_
      · simpa [setStandby] using hsettled
      · simpa [setStandby, chosen, hsame] using hlt.le

/-- `KiDeferredReadyThread` gives a thread its place; it calls itself once
    at most. -/
theorem kiDeferredReadyThread_spec (h : Inv s) (ht : (s.threads t).state = .deferredReady) :
    ∃ s', kiDeferredReadyThread 2 s t = some s' ∧ Inv s' := by
  obtain ⟨hinv, hunplaced⟩ := h.prepareThread ht
  exact placeThread_spec hinv _ hunplaced

end Sched
