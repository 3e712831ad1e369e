import ReactOS.Lib.Transition

/-! # Thread dispatching on one processor

    The scheduler of `ke/thrdschd.c` in a uniprocessor build: 32 ready lists
    with their summary, one standby slot (`NextThread`), one running slot
    (`CurrentThread`) and the idle thread.

    In such a build `KiInsertDeferredReadyList` hands a thread to
    `KiDeferredReadyThread` at once, so the deferred ready list is empty after
    each step and `KiCheckDeferredReadyList` has nothing to do. -/

namespace Sched

abbrev ThreadId := Nat

/-! ## Section 1: Threads and the processor block -/

/-- `KTHREAD.State`; `other` are Initialized, Terminated, Waiting,
    Transition and GateWait, which the scheduler does not tell apart. -/
inductive ThreadState where
  | ready
  | running
  | standby
  | deferredReady
  | other
  deriving DecidableEq, Repr

/-- `KTHREAD.AdjustReason`. -/
inductive AdjustReason where
  | adjustNone
  | adjustBoost
  | adjustUnwait
  deriving DecidableEq, Repr

/-- A value stored into an `SCHAR`, as the quantum is: 8 bits with a sign. -/
def schar (value : Int) : Int := value.bmod 256

/-- The fields of `KTHREAD` that the scheduler reads. -/
structure KThread where
  state : ThreadState
  priority : Nat
  basePriority : Nat
  priorityDecrement : Nat
  quantum : Int
  quantumReset : Int
  adjustReason : AdjustReason
  adjustIncrement : Nat
  disableBoost : Bool
  preempted : Bool
  /-- `WaitStatus == STATUS_KERNEL_APC` -/
  kernelApc : Bool
  /-- `MemoryPriority == MEMORY_PRIORITY_FOREGROUND`, of the thread's process -/
  foreground : Bool
  /-- `DisableQuantum`, of the thread's process -/
  disableQuantum : Bool
  deriving DecidableEq, Repr

/-- The processor block, with the threads of the system and the globals
    `KiIdleSummary` and `PsPrioritySeparation`. -/
structure KPrcb where
  threads : ThreadId → KThread
  nextThread : Option ThreadId
  currentThread : ThreadId
  idleThread : ThreadId
  /-- `DispatcherReadyListHead` -/
  readyList : Nat → List ThreadId
  readySummary : Nat
  idleSummary : Bool
  prioritySeparation : Nat

/-- `LOW_REALTIME_PRIORITY` -/
def lowRealtimePriority : Nat := 16

/-- `HIGH_PRIORITY` -/
def highPriority : Nat := 31

/-- `MAX_QUANTUM` -/
def maxQuantum : Int := 0x7F

/-- `CLOCK_QUANTUM_DECREMENT` -/
def clockQuantumDecrement : Int := 3

/-- `PRIORITY_MASK` -/
def priorityMask (n : Nat) : Nat := 1 <<< n

/-- A write to the record of one thread. -/
def KPrcb.modify (s : KPrcb) (t : ThreadId) (f : KThread → KThread) : KPrcb :=
  { s with threads := fun u => if u = t then f (s.threads u) else s.threads u }

/-- `Thread->State = x`. -/
def KPrcb.setState (s : KPrcb) (t : ThreadId) (x : ThreadState) : KPrcb :=
  s.modify t fun k => { k with state := x }

/-- `Thread->State = Standby; Prcb->NextThread = Thread`. -/
def KPrcb.setStandby (s : KPrcb) (t : ThreadId) : KPrcb :=
  { s.setState t .standby with nextThread := some t }

/-! ## Section 2: The ready lists -/

/-- `State = Ready`, the insertion at either end of the list of the thread's
    priority and the update of the summary. -/
def KPrcb.insertReady (s : KPrcb) (t : ThreadId) (preempted : Bool) : KPrcb :=
  let p := (s.threads t).priority
  { s.setState t .ready with
    readyList := fun q =>
      if q = p then (if preempted then t :: s.readyList p else s.readyList p ++ [t])
      else s.readyList q
    readySummary := s.readySummary ||| priorityMask p }

/-- `RemoveEntryList`, with the update of the summary when the list of
    priority `p` got empty by it. -/
def KPrcb.removeReady (s : KPrcb) (t : ThreadId) (p : Nat) : KPrcb :=
  let l := (s.readyList p).erase t
  { s with
    readyList := fun q => if q = p then l else s.readyList q
    readySummary := if l = [] then s.readySummary ^^^ priorityMask p else s.readySummary }

/-- `KxQueueReadyThread` -/
def kxQueueReadyThread (s : KPrcb) (t : ThreadId) : KPrcb :=
  let preempted := (s.threads t).preempted
  (s.modify t fun k => { k with preempted := false }).insertReady t preempted

/-- `KiSelectReadyThread`: the first thread of the highest list from
    `priority` on.  A summary bit over an empty list makes the list head pass
    for a thread, which is a fault. -/
def kiSelectReadyThread (priority : Nat) (s : KPrcb) : Option (KPrcb × Option ThreadId) :=
  let prioritySet := s.readySummary >>> priority
  if prioritySet = 0 then some (s, none)
  else
    let high := prioritySet.log2 + priority
    match s.readyList high with
    | [] => none
    | t :: _ => some (s.removeReady t high, some t)

/-- The ready thread found, if any, goes to the standby slot. -/
def selectStandby (priority : Nat) (s : KPrcb) : Option (KPrcb × Option ThreadId) :=
  match kiSelectReadyThread priority s with
  | none => none
  | some (s, none) => some (s, none)
  | some (s, some t) => some (s.setStandby t, some t)

/-! ## Section 3: Making a thread ready -/

/-- `KiComputeNewPriority`, with the write of its result. -/
def kiComputeNewPriority (k : KThread) (adjustment : Nat) : KThread :=
  if k.priority < lowRealtimePriority then
    { k with
      priority := max (k.priority - (k.priorityDecrement + adjustment)) k.basePriority
      priorityDecrement := 0 }
  else k

/-- The `AdjustBoost` part of `KiDeferredReadyThread`. -/
def adjustBoost (k : KThread) : KThread :=
  let k :=
    if k.priority ≤ k.adjustIncrement ∧ k.priority < lowRealtimePriority - 3 ∧
        k.disableBoost = false then
      let new := min (k.adjustIncrement + 1) (lowRealtimePriority - 3)
      { k with
        priorityDecrement := k.priorityDecrement + (new - k.priority)
        priority := new }
    else k
  let quantum := if k.quantum < 4 then 4 else k.quantum
  { k with quantum := schar (quantum - 1), adjustReason := .adjustNone }

/-- The quantum that a wait costs, and the priority it may cost. -/
def unwaitQuantum (k : KThread) : KThread :=
  if lowRealtimePriority - 2 ≤ k.basePriority then { k with quantum := k.quantumReset }
  else
    let k :=
      if k.priorityDecrement = 0 ∧ k.adjustIncrement ≠ 0 then
        { k with quantum := k.quantumReset }
      else k
    if k.kernelApc then k
    else
      let k := { k with quantum := schar (k.quantum - 1) }
      if k.quantum ≤ 0 then kiComputeNewPriority { k with quantum := k.quantumReset } 1 else k

/-- The boost after a wait, which stays below the real-time range. -/
def unwaitBoost (separation : Nat) (k : KThread) : KThread :=
  if k.priorityDecrement = 0 ∧ k.disableBoost = false then
    let boosted := k.basePriority + k.adjustIncrement
    let new := if k.foreground then boosted + separation else boosted
    if k.priority < new then
      let new := if lowRealtimePriority ≤ new then lowRealtimePriority - 1 else new
      { k with
        priorityDecrement := if boosted < new then new - boosted else k.priorityDecrement
        priority := new }
    else k
  else k

/-- The `AdjustUnwait` part of `KiDeferredReadyThread`. -/
def adjustUnwait (separation : Nat) (k : KThread) : KThread :=
  let k :=
    if k.priority < lowRealtimePriority then unwaitBoost separation (unwaitQuantum k)
    else { k with quantum := k.quantumReset }
  { k with adjustReason := .adjustNone }

/-- The adjustments made before a thread is placed. -/
def adjust (separation : Nat) (k : KThread) : KThread :=
  match k.adjustReason with
  | .adjustNone => k
  | .adjustBoost => adjustBoost k
  | .adjustUnwait => adjustUnwait separation k

/-- The record of the thread whose place is looked for. -/
def prepareThread (s : KPrcb) (t : ThreadId) : KPrcb :=
  s.modify t fun k => { adjust s.prioritySeparation k with preempted := false }

/-- The choice of the place.  `again` is the call for the standby thread that
    is preempted. -/
def placeThread (again : KPrcb → ThreadId → Option KPrcb) (s : KPrcb) (t : ThreadId)
    (preempted : Bool) : Option KPrcb :=
  let priority := (s.threads t).priority
  if s.idleSummary then some { s.setStandby t with idleSummary := false }
  else
    match s.nextThread with
    | some n =>
      if (s.threads n).priority < priority then
        let s := s.modify n fun k => { k with preempted := true }
        again ((s.setStandby t).setState n .deferredReady) n
      else some (s.insertReady t preempted)
    | none =>
      if (s.threads s.currentThread).priority < priority then
        let s :=
          if (s.threads s.currentThread).state = .running then
            s.modify s.currentThread fun k => { k with preempted := true }
          else s
        some (s.setStandby t)
      else some (s.insertReady t preempted)

/-- `KiDeferredReadyThread`, which calls itself for the standby thread it
    preempts; a bound on the depth is part of the results. -/
def kiDeferredReadyThread : Nat → KPrcb → ThreadId → Option KPrcb
  | 0, _, _ => none
  | depth + 1, s, t =>
    placeThread (kiDeferredReadyThread depth) (prepareThread s t) t (s.threads t).preempted

/-- `KiInsertDeferredReadyList`: on one processor, the thread is placed at
    once.  A preempted standby thread is placed by the second call. -/
def kiInsertDeferredReadyList (s : KPrcb) (t : ThreadId) : Option KPrcb :=
  kiDeferredReadyThread 2 (s.setState t .deferredReady) t

/-! ## Section 4: Swaps, quantum and priority changes -/

/-- The standby thread becomes the running one and the running one is queued:
    the swap of `KiExitDispatcher`, `KiQuantumEnd` and `KiDispatchInterrupt`. -/
def swapToNext (s : KPrcb) : KPrcb :=
  match s.nextThread with
  | none => s
  | some n =>
    let thread := s.currentThread
    kxQueueReadyThread
      ({ s with nextThread := none, currentThread := n }.setState n .running) thread

/-- `KiSwapThread`, called by a running thread that gave itself another state
    to wait or to end. -/
def kiSwapThread (s : KPrcb) : Option KPrcb :=
  let s := s.setState s.currentThread .other
  match s.nextThread with
  | some n => some ({ s with nextThread := none, currentThread := n }.setState n .running)
  | none =>
    match kiSelectReadyThread 0 s with
    | none => none
    | some (s, some n) => some ({ s with currentThread := n }.setState n .running)
    | some (s, none) =>
      some ({ s with idleSummary := true, currentThread := s.idleThread }.setState
        s.idleThread .running)

/-- `KiExitDispatcher`; at `DISPATCH_LEVEL` and above it only asks for an
    interrupt. -/
def kiExitDispatcher (atDispatchLevel : Bool) (s : KPrcb) : KPrcb :=
  if atDispatchLevel then s else swapToNext s

/-- What a thread whose quantum ran out gets: a new quantum, its new priority
    and, unless a thread stands by already, a ready thread of at least that
    priority as its successor. -/
def quantumExpired (s : KPrcb) : Option KPrcb :=
  let t := s.currentThread
  let s := s.modify t fun k => kiComputeNewPriority { k with quantum := k.quantumReset } 1
  match s.nextThread with
  | none => (selectStandby (s.threads t).priority s).map (·.1)
  | some _ => some (s.modify t fun k => { k with preempted := false })

/-- `KiAdjustQuantumThread`, for the running thread at the end of its wait. -/
def kiAdjustQuantumThread (atDispatchLevel : Bool) (s : KPrcb) : Option KPrcb :=
  let k := s.threads s.currentThread
  if k.priority < lowRealtimePriority ∧ k.basePriority < lowRealtimePriority - 2 then
    let s := s.modify s.currentThread fun k => { k with quantum := schar (k.quantum - 1) }
    if (s.threads s.currentThread).quantum ≤ 0 then
      (quantumExpired s).map (kiExitDispatcher atDispatchLevel)
    else some (kiExitDispatcher atDispatchLevel s)
  else some (kiExitDispatcher atDispatchLevel s)

/-- `KiQuantumEnd` -/
def kiQuantumEnd (s : KPrcb) : Option KPrcb :=
  let k := s.threads s.currentThread
  if k.quantum ≤ 0 then
    if lowRealtimePriority ≤ k.priority ∧ k.disableQuantum then
      some (swapToNext (s.modify s.currentThread fun k => { k with quantum := maxQuantum }))
    else (quantumExpired s).map swapToNext
  else some (swapToNext s)

/-- The clock tick of `KeUpdateRunTime` that the running thread pays for. -/
def keUpdateRunTime (s : KPrcb) : KPrcb :=
  s.modify s.currentThread fun k => { k with quantum := schar (k.quantum - clockQuantumDecrement) }

/-- The dispatch of `KiIdleLoop`: the idle thread is queued nowhere. -/
def kiIdleLoop (s : KPrcb) : KPrcb :=
  match s.nextThread with
  | none => s
  | some n => { s with nextThread := none, currentThread := n }.setState n .running

/-- `KiSetPriorityThread`.  A thread that is Standby without being the next
    one or Running without being the current one sends it into an endless
    loop. -/
def kiSetPriorityThread (s : KPrcb) (t : ThreadId) (priority : Nat) : Option KPrcb :=
  let old := (s.threads t).priority
  let setPriority := fun s : KPrcb => s.modify t fun k => { k with priority := priority }
  if old = priority then some s
  else
    match (s.threads t).state with
    | .ready => kiInsertDeferredReadyList (setPriority (s.removeReady t old)) t
    | .standby =>
      if s.nextThread = some t then
        if priority < old then
          match selectStandby (priority + 1) (setPriority s) with
          | none => none
          | some (s, none) => some s
          | some (s, some _) => kiInsertDeferredReadyList s t
        else some (setPriority s)
      else none
    | .running =>
      if s.currentThread = t then
        if priority < old ∧ s.nextThread = none then
          (selectStandby (priority + 1) (setPriority s)).map (·.1)
        else some (setPriority s)
      else none
    | .deferredReady => none
    | .other => some (setPriority s)

/-! ## Section 5: The scheduler as a system -/

/-- The steps of the scheduler. -/
inductive Step where
  /-- A thread with this record becomes ready: a new thread or the end of a wait. -/
  | ready (t : ThreadId) (k : KThread)
  | swapThread
  | exitDispatcher (atDispatchLevel : Bool)
  | adjustQuantum (atDispatchLevel : Bool)
  | quantumEnd
  | updateRunTime
  | dispatchInterrupt
  | idleLoop
  | setPriority (t : ThreadId) (priority : Nat)

/-- One step of the scheduler. -/
def step (s : KPrcb) : Step → Option (KPrcb × Unit)
  | .ready t k => (kiInsertDeferredReadyList (s.modify t fun _ => k) t).map (·, ())
  | .swapThread => (kiSwapThread s).map (·, ())
  | .exitDispatcher d => some (kiExitDispatcher d s, ())
  | .adjustQuantum d => (kiAdjustQuantumThread d s).map (·, ())
  | .quantumEnd => (kiQuantumEnd s).map (·, ())
  | .updateRunTime => some (keUpdateRunTime s, ())
  | .dispatchInterrupt => some (swapToNext s, ())
  | .idleLoop => some (kiIdleLoop s, ())
  | .setPriority t p => (kiSetPriorityThread s t p).map (·, ())

/-- Which steps can be taken.  The idle thread neither waits nor pays for its
    time, and it stays at `DISPATCH_LEVEL`, where neither an exit from the
    dispatcher nor a dispatch interrupt swaps threads; only its loop does. -/
def Legal (s : KPrcb) : Step → Prop
  | .ready t k =>
    (s.threads t).state = .other ∧ k.priority ≤ highPriority ∧ k.basePriority ≤ highPriority
  | .swapThread => s.currentThread ≠ s.idleThread
  | .exitDispatcher d => d = false → s.currentThread ≠ s.idleThread
  | .adjustQuantum _ => s.currentThread ≠ s.idleThread
  | .quantumEnd => s.currentThread ≠ s.idleThread
  | .updateRunTime => s.currentThread ≠ s.idleThread
  | .dispatchInterrupt => s.currentThread ≠ s.idleThread
  | .idleLoop => s.currentThread = s.idleThread
  | .setPriority t p => (s.threads t).state ≠ .deferredReady ∧ p ≤ highPriority

/-- The processor when its idle thread enters the idle loop and no other
    thread has been made ready. -/
structure Initial (s : KPrcb) : Prop where
  current : s.currentThread = s.idleThread
  running : (s.threads s.idleThread).state = .running
  other : ∀ t, t ≠ s.idleThread → (s.threads t).state = .other
  next : s.nextThread = none
  empty : ∀ p, s.readyList p = []
  summary : s.readySummary = 0
  idle : s.idleSummary = true
  range : ∀ t, (s.threads t).priority ≤ highPriority ∧ (s.threads t).basePriority ≤ highPriority

/-- The scheduler of one processor. -/
def scheduler : Transition.System KPrcb Step Unit where
  init := Initial
  legal := Legal
  step := step

instance (s : KPrcb) : (c : Step) → Decidable (Legal s c)
  | .ready _ _ | .setPriority _ _ => inferInstanceAs (Decidable (_ ∧ _))
  | .exitDispatcher _ => inferInstanceAs (Decidable (_ → _))
  | .swapThread | .adjustQuantum _ | .quantumEnd | .updateRunTime | .dispatchInterrupt =>
    inferInstanceAs (Decidable (_ ≠ _))
  | .idleLoop => inferInstanceAs (Decidable (_ = _))

instance (s : KPrcb) (c : Step) : Decidable (scheduler.legal s c) :=
  inferInstanceAs (Decidable (Legal s c))

end Sched
