import Mathlib.Algebra.Group.Nat.Defs
import ReactOS.Lib.Transition
import Mathlib.Logic.Function.Basic

/-! # Executive resources

    The reader-writer lock of `ex/resource.c`: one `ERESOURCE`, its owner
    entries and counters, and the threads that are inside its routines.

    A step is what one thread does while it has the resource's lock, or one
    operation on the semaphore or event that the waiters block on.  A routine
    that drops the lock to allocate memory, to wait or to wake others is taken
    up again at the place where it stopped, with the steps of other threads in
    between. -/

namespace Resource

abbrev ThreadId := Nat

/-! ## Section 1: The resource -/

/-- `OwnerThread`: zero, the value 1 that stands for an exclusive owner that
    has not run yet, or a thread. -/
inductive OwnerThread where
  | none
  | placeholder
  | thread (t : ThreadId)
  deriving DecidableEq, Repr

/-- `OwnerCount` is a field of 30 bits. -/
def ownerCountModulus : Nat := 2 ^ 30

theorem one_lt_ownerCountModulus : 1 < ownerCountModulus := by decide

attribute [irreducible] ownerCountModulus

/-- `OWNER_ENTRY` -/
structure OwnerEntry where
  ownerThread : OwnerThread
  ownerCount : Nat
  deriving DecidableEq, Repr

/-- A zeroed entry. -/
def OwnerEntry.free : OwnerEntry := ⟨.none, 0⟩

/-- `OwnerCount++` -/
def OwnerEntry.increment (e : OwnerEntry) : OwnerEntry :=
  { e with ownerCount := (e.ownerCount + 1) % ownerCountModulus }

/-- `--OwnerCount` -/
def OwnerEntry.decrement (e : OwnerEntry) : OwnerEntry :=
  { e with ownerCount := if e.ownerCount = 0 then ownerCountModulus - 1 else e.ownerCount - 1 }

/-- `ERESOURCE`, with the states of its semaphore and event.  The first entry
    of the owner table holds its size only; `ownerTable` has the others. -/
structure EResource where
  ownerEntry : OwnerEntry
  ownerTable : Option (List OwnerEntry)
  activeCount : Nat
  activeEntries : Nat
  ownedExclusive : Bool
  numberOfSharedWaiters : Nat
  numberOfExclusiveWaiters : Nat
  /-- `SharedWaiters` has been allocated. -/
  sharedWaiters : Bool
  /-- `ExclusiveWaiters` has been allocated. -/
  exclusiveWaiters : Bool
  /-- `SharedWaiters->Header.SignalState` -/
  semaphore : Nat
  /-- `ExclusiveWaiters->Header.SignalState` -/
  event : Bool
  deriving DecidableEq, Repr

/-- A pointer to an owner entry. -/
inductive Slot where
  | first
  | table (i : Nat)
  deriving DecidableEq, Repr

def EResource.entries (r : EResource) : List OwnerEntry := r.ownerTable.getD []

def EResource.entry (r : EResource) : Slot → OwnerEntry
  | .first => r.ownerEntry
  | .table i => (r.entries[i]?).getD .free

def EResource.setEntry (r : EResource) (e : OwnerEntry) : Slot → EResource
  | .first => { r with ownerEntry := e }
  | .table i => { r with ownerTable := r.ownerTable.map fun l => l.set i e }

/-- `OwnerTable->TableSize`, or 0 without a table. -/
def EResource.tableSize (r : EResource) : Nat :=
  match r.ownerTable with
  | none => 0
  | some l => l.length + 1

/-! ## Section 2: Looking for entries -/

/-- `ExpExpandResourceOwnerTable`, when it has the lock again: the new table
    is dropped if another thread has expanded the table since. -/
def expExpandResourceOwnerTable (r : EResource) (oldSize : Nat) : EResource :=
  let newSize := if oldSize = 0 then 3 else oldSize + 4
  let added := List.replicate (newSize - 1 - r.entries.length) OwnerEntry.free
  if r.tableSize = oldSize then { r with ownerTable := some (r.entries ++ added) } else r

/-- The first free entry of the table. -/
def freeInTable (r : EResource) : Option Slot :=
  (r.entries.findIdx? fun e => e.ownerThread = .none).map .table

/-- `ExpFindFreeEntry`; `none` sends the caller to expand the table. -/
def expFindFreeEntry (r : EResource) : Option Slot := freeInTable r

/-- The entry of a thread in the table. -/
def findInTable (r : EResource) (t : ThreadId) : Option Slot :=
  (r.entries.findIdx? fun e => e.ownerThread = .thread t).map .table

/-- `ExpFindEntryForThread`: the thread's entry, else a free one; `none`
    sends the caller to expand the table. -/
def expFindEntryForThread (r : EResource) (t : ThreadId) (firstEntryInelligible : Bool) :
    Option Slot :=
  if r.ownerEntry.ownerThread = .thread t then some .first
  else
    match findInTable r t with
    | some slot => some slot
    | none =>
      if firstEntryInelligible ∨ r.ownerEntry.ownerThread ≠ .none then freeInTable r
      else some .first

/-! ## Section 3: The routines -/

/-- The acquire routines: `ExAcquireResourceExclusiveLite`,
    `ExAcquireResourceSharedLite`, `ExAcquireSharedStarveExclusive` and
    `ExAcquireSharedWaitForExclusive`. -/
inductive Request where
  | exclusive
  | shared
  | starveExclusive
  | waitForExclusive
  deriving DecidableEq, Repr

/-- Where a thread is. -/
inductive Pc where
  /-- in no routine of the resource -/
  | idle
  /-- about to take the lock and try (again) -/
  | retry (k : Request) (wait : Bool)
  /-- in `ExpExpandResourceOwnerTable`, without the lock -/
  | expand (k : Request) (wait : Bool) (size : Nat)
  /-- in `ExpAllocateSharedWaiterSemaphore` -/
  | allocateSemaphore (k : Request)
  /-- in `ExpAllocateExclusiveWaiterEvent` -/
  | allocateEvent
  /-- waits for the semaphore, its owner entry filled in -/
  | waitShared
  /-- waits for the semaphore, without an entry -/
  | waitUnlisted
  /-- waits for the event -/
  | waitExclusive
  /-- the wait for the semaphore is over, its entry is there -/
  | granted
  /-- the wait for the semaphore is over, its entry has to be found -/
  | claim
  /-- the same, in `ExpExpandResourceOwnerTable` -/
  | claimExpand (size : Nat)
  /-- the wait for the event is over, `OwnerThread` has to be set -/
  | own
  /-- the lock is released, `KeReleaseSemaphore` comes next -/
  | releaseSemaphore (n : Nat)
  /-- the lock is released, `KeSetEventBoostPriority` comes next -/
  | setEvent
  deriving DecidableEq, Repr

/-- How a stretch under the lock ends: the routine returns, or stops. -/
inductive Outcome where
  | returns (r : EResource) (acquired : Bool)
  | stops (r : EResource) (pc : Pc)
  deriving DecidableEq, Repr

/-- A recursive acquisition. -/
def recurse (r : EResource) (slot : Slot) : Outcome :=
  .returns (r.setEntry (r.entry slot).increment slot) true

/-- A resource without an owner is taken. -/
def takeFree (r : EResource) (t : ThreadId) (exclusive : Bool) : EResource :=
  { r with
    ownedExclusive := r.ownedExclusive || exclusive
    activeEntries := 1
    activeCount := 1
    ownerEntry := ⟨.thread t, 1⟩ }

/-- `ExAcquireResourceExclusiveLite`, from `TryAcquire`. -/
def exAcquireResourceExclusiveLite (r : EResource) (t : ThreadId) (wait : Bool) : Outcome :=
  if r.activeEntries ≠ 0 then
    if r.ownedExclusive ∧ r.ownerEntry.ownerThread = .thread t then recurse r .first
    else if ¬ wait then .returns r false
    else if ¬ r.exclusiveWaiters then .stops r .allocateEvent
    else
      .stops { r with numberOfExclusiveWaiters := r.numberOfExclusiveWaiters + 1 } .waitExclusive
  else .returns (takeFree r t true) true

/-- The end of the shared routines: the thread fills in its entry and waits. -/
def waitForShared (r : EResource) (t : ThreadId) (k : Request) (wait : Bool) (slot : Slot) :
    Outcome :=
  if ¬ wait then .returns r false
  else if ¬ r.sharedWaiters then .stops r (.allocateSemaphore k)
  else
    .stops { r.setEntry ⟨.thread t, 1⟩ slot with
      numberOfSharedWaiters := r.numberOfSharedWaiters + 1 } .waitShared

/-- A shared routine that finds the resource exclusively owned. -/
def sharedWhileExclusive (r : EResource) (t : ThreadId) (k : Request) (wait : Bool) : Outcome :=
  if r.ownerEntry.ownerThread = .thread t then recurse r .first
  else
    match expFindFreeEntry r with
    | none => .stops r (.expand k wait r.tableSize)
    | some slot => waitForShared r t k wait slot

/-- A thread joins the owners of a shared resource. -/
def joinShared (r : EResource) (t : ThreadId) (slot : Slot) : Outcome :=
  let r := r.setEntry ⟨.thread t, 1⟩ slot
  if r.activeEntries = 0 then .returns { r with activeEntries := 1, activeCount := 1 } true
  else .returns { r with activeEntries := r.activeEntries + 1 } true

/-- `ExAcquireResourceSharedLite`, from the head of its loop. -/
def exAcquireResourceSharedLite (r : EResource) (t : ThreadId) (wait : Bool) : Outcome :=
  if r.activeEntries = 0 then .returns (takeFree r t false) true
  else if r.ownedExclusive then sharedWhileExclusive r t .shared wait
  else
    let firstEntryBusy : Bool := 0 < r.numberOfExclusiveWaiters
    match expFindEntryForThread r t firstEntryBusy with
    | none => .stops r (.expand .shared wait r.tableSize)
    | some slot =>
      if (r.entry slot).ownerThread = .thread t then recurse r slot
      else if ¬ firstEntryBusy then joinShared r t slot
      else waitForShared r t .shared wait slot

/-- `ExAcquireSharedStarveExclusive`, from `TryAcquire`. -/
def exAcquireSharedStarveExclusive (r : EResource) (t : ThreadId) (wait : Bool) : Outcome :=
  if r.activeEntries = 0 then .returns (takeFree r t false) true
  else if r.ownedExclusive then sharedWhileExclusive r t .starveExclusive wait
  else
    match expFindEntryForThread r t false with
    | none => .stops r (.expand .starveExclusive wait r.tableSize)
    | some slot =>
      if (r.entry slot).ownerThread = .thread t then recurse r slot else joinShared r t slot

/-- `ExAcquireSharedWaitForExclusive`, from `TryAcquire`. -/
def exAcquireSharedWaitForExclusive (r : EResource) (t : ThreadId) (wait : Bool) : Outcome :=
  if r.activeEntries = 0 then .returns (takeFree r t false) true
  else if r.ownedExclusive then sharedWhileExclusive r t .waitForExclusive wait
  else if 0 < r.numberOfExclusiveWaiters then
    if ¬ wait then .returns r false
    else if ¬ r.sharedWaiters then .stops r (.allocateSemaphore .waitForExclusive)
    else .stops { r with numberOfSharedWaiters := r.numberOfSharedWaiters + 1 } .waitUnlisted
  else
    match expFindEntryForThread r t false with
    | none => .stops r (.expand .waitForExclusive wait r.tableSize)
    | some slot =>
      if (r.entry slot).ownerThread = .thread t then recurse r slot else joinShared r t slot

/-- One stretch of an acquire routine under the lock. -/
def attempt (r : EResource) (t : ThreadId) : Request → Bool → Outcome
  | .exclusive => exAcquireResourceExclusiveLite r t
  | .shared => exAcquireResourceSharedLite r t
  | .starveExclusive => exAcquireSharedStarveExclusive r t
  | .waitForExclusive => exAcquireSharedWaitForExclusive r t

/-- `ExTryToAcquireResourceExclusiveLite` -/
def exTryToAcquireResourceExclusiveLite (r : EResource) (t : ThreadId) : Outcome :=
  if r.activeCount = 0 then .returns (takeFree r t true) true
  else if r.ownedExclusive ∧ r.ownerEntry.ownerThread = .thread t then recurse r .first
  else .returns r false

/-- The end of `ExAcquireSharedWaitForExclusive` after its wait. -/
def claimEntry (r : EResource) (t : ThreadId) : Outcome :=
  match expFindEntryForThread r t true with
  | none => .stops r (.claimExpand r.tableSize)
  | some slot => .returns (r.setEntry ⟨.thread t, 1⟩ slot) true

/-- `ExConvertExclusiveToSharedLite` -/
def exConvertExclusiveToSharedLite (r : EResource) : EResource × Pc :=
  let r := { r with ownedExclusive := false }
  if 0 < r.numberOfSharedWaiters then
    ({ r with
        activeEntries := r.activeEntries + r.numberOfSharedWaiters
        numberOfSharedWaiters := 0 },
      .releaseSemaphore r.numberOfSharedWaiters)
  else (r, .idle)

/-- The hand-over to an exclusive waiter. -/
def giveExclusive (r : EResource) : EResource × Pc :=
  ({ r with
      ownedExclusive := true
      ownerEntry := ⟨.placeholder, 1⟩
      activeEntries := 1
      numberOfExclusiveWaiters := r.numberOfExclusiveWaiters - 1 },
    .setEvent)

/-- The release of an exclusively owned resource. -/
def releaseExclusive (r : EResource) : EResource × Pc :=
  let e := r.ownerEntry.decrement
  let r := { r with ownerEntry := e }
  if e.ownerCount ≠ 0 then (r, .idle)
  else
    let r := { r with
      ownerEntry := { e with ownerThread := .none }
      activeEntries := r.activeEntries - 1 }
    if 0 < r.numberOfSharedWaiters then
      ({ r with
          ownedExclusive := false
          activeEntries := r.numberOfSharedWaiters
          numberOfSharedWaiters := 0 },
        .releaseSemaphore r.numberOfSharedWaiters)
    else if 0 < r.numberOfExclusiveWaiters then giveExclusive r
    else ({ r with ownedExclusive := false, activeCount := 0 }, .idle)

/-- The entry a shared owner releases.  `ResourceIndex` is a hint that may
    come from another resource; the first entry of the table has no thread. -/
def ownedEntry (r : EResource) (t : ThreadId) (resourceIndex : Nat) : Option Slot :=
  if r.ownerEntry.ownerThread = .thread t then some .first
  else if 0 < resourceIndex ∧ resourceIndex < r.tableSize ∧
      (r.entry (.table (resourceIndex - 1))).ownerThread = .thread t then
    some (.table (resourceIndex - 1))
  else findInTable r t

/-- The release by a shared owner; a thread without an entry is a bug check. -/
def releaseShared (r : EResource) (t : ThreadId) (resourceIndex : Nat) : Option (EResource × Pc) :=
  match ownedEntry r t resourceIndex with
  | none => none
  | some slot =>
    let e := (r.entry slot).decrement
    if e.ownerCount ≠ 0 then some (r.setEntry e slot, .idle)
    else
      let r := r.setEntry { e with ownerThread := .none } slot
      let r := { r with activeEntries := r.activeEntries - 1 }
      if r.activeEntries = 0 then
        if 0 < r.numberOfExclusiveWaiters then some (giveExclusive r)
        else some ({ r with activeCount := 0 }, .idle)
      else some (r, .idle)

/-- `ExReleaseResourceForThreadLite` -/
def exReleaseResourceForThreadLite (r : EResource) (t : ThreadId) (resourceIndex : Nat) :
    Option (EResource × Pc) :=
  if r.ownedExclusive then some (releaseExclusive r) else releaseShared r t resourceIndex

/-! ## Section 4: Threads and their steps -/

/-- A thread: where it is, how many acquisitions it was granted and has not
    released, and whether they are exclusive. -/
structure Thread where
  pc : Pc
  count : Nat
  exclusive : Bool
  deriving DecidableEq, Repr

/-- The resource and the threads that use it. -/
structure State where
  resource : EResource
  threads : ThreadId → Thread

/-- The steps of the threads. -/
inductive Step where
  | acquire (t : ThreadId) (k : Request) (wait : Bool)
  | tryAcquireExclusive (t : ThreadId)
  | convert (t : ThreadId)
  | release (t : ThreadId) (resourceIndex : Nat)
  /-- The thread goes on where it stopped. -/
  | proceed (t : ThreadId)
  /-- `KeSetEventBoostPriority` finds a waiting thread and wakes it. -/
  | setEventBoostPriority (t waiter : ThreadId)
  deriving DecidableEq, Repr

def State.set (s : State) (r : EResource) (t : ThreadId) (x : Thread) : State where
  resource := r
  threads := Function.update s.threads t x

/-- The thread is elsewhere. -/
def Thread.goto (x : Thread) (pc : Pc) : Thread := { x with pc := pc }

/-- One more acquisition is granted; a shared one leaves an exclusive owner
    exclusive. -/
def Thread.grant (x : Thread) (exclusive : Bool) : Thread where
  pc := .idle
  count := x.count + 1
  exclusive := x.exclusive || exclusive

/-- One acquisition is given back. -/
def Thread.giveBack (x : Thread) (pc : Pc) : Thread where
  pc := pc
  count := x.count - 1
  exclusive := x.exclusive && decide (1 < x.count)

/-- The end of a stretch of a routine that acquires the resource. -/
def State.after (s : State) (t : ThreadId) (exclusive : Bool) : Outcome → State
  | .returns r true => s.set r t ((s.threads t).grant exclusive)
  | .returns r false => s.set r t ((s.threads t).goto .idle)
  | .stops r pc => s.set r t ((s.threads t).goto pc)

/-- A thread goes on.  `none` is a wait that is not over. -/
def proceed (s : State) (t : ThreadId) : Option State :=
  let r := s.resource
  let x := s.threads t
  match x.pc with
  | .idle => none
  | .retry k wait => some (s.after t (k = .exclusive) (attempt r t k wait))
  | .expand k wait size =>
    some (s.set (expExpandResourceOwnerTable r size) t (x.goto (.retry k wait)))
  | .allocateSemaphore k => some (s.set { r with sharedWaiters := true } t (x.goto (.retry k true)))
  | .allocateEvent =>
    some (s.set { r with exclusiveWaiters := true } t (x.goto (.retry .exclusive true)))
  | .waitShared =>
    if 0 < r.semaphore then
      some (s.set { r with semaphore := r.semaphore - 1 } t (x.goto .granted))
    else none
  | .waitUnlisted =>
    if 0 < r.semaphore then some (s.set { r with semaphore := r.semaphore - 1 } t (x.goto .claim))
    else none
  | .waitExclusive =>
    if r.event then some (s.set { r with event := false } t (x.goto .own)) else none
  | .granted => some (s.set r t (x.grant false))
  | .claim => some (s.after t false (claimEntry r t))
  | .claimExpand size => some (s.set (expExpandResourceOwnerTable r size) t (x.goto .claim))
  | .own =>
    some (s.set { r with ownerEntry := { r.ownerEntry with ownerThread := .thread t } } t
      (x.grant true))
  | .releaseSemaphore n =>
    some (s.set { r with semaphore := r.semaphore + n } t (x.goto .idle))
  | .setEvent => some (s.set { r with event := true } t (x.goto .idle))

/-- One step. -/
def step (s : State) : Step → Option (State × Unit)
  | .acquire t k wait => some (s.after t (k = .exclusive) (attempt s.resource t k wait), ())
  | .tryAcquireExclusive t =>
    some (s.after t true (exTryToAcquireResourceExclusiveLite s.resource t), ())
  | .convert t =>
    let (r, pc) := exConvertExclusiveToSharedLite s.resource
    some (s.set r t { s.threads t with pc := pc, exclusive := false }, ())
  | .release t i =>
    (exReleaseResourceForThreadLite s.resource t i).map fun (r, pc) =>
      (s.set r t ((s.threads t).giveBack pc), ())
  | .proceed t => (proceed s t).map (·, ())
  | .setEventBoostPriority t w =>
    let r := s.resource
    let r := { r with ownerEntry := { r.ownerEntry with ownerThread := .thread w } }
    some ((s.set r t ((s.threads t).goto .idle)).set r w ((s.threads w).goto .own), ())

/-- The thread holds the resource. -/
def State.Holds (s : State) (t : ThreadId) : Prop := 0 < (s.threads t).count

instance (s : State) (t : ThreadId) : Decidable (s.Holds t) :=
  inferInstanceAs (Decidable (0 < _))

/-- The thread holds the resource shared. -/
def State.HoldsShared (s : State) (t : ThreadId) : Prop :=
  s.Holds t ∧ (s.threads t).exclusive = false

instance (s : State) (t : ThreadId) : Decidable (s.HoldsShared t) :=
  inferInstanceAs (Decidable (_ ∧ _))

/-- The thread's wait is not over. -/
def State.Blocked (s : State) (t : ThreadId) : Prop :=
  match (s.threads t).pc with
  | .idle => True
  | .waitShared | .waitUnlisted => s.resource.semaphore = 0
  | .waitExclusive => s.resource.event = false
  | _ => False

instance (s : State) (t : ThreadId) : Decidable (s.Blocked t) := by
  unfold State.Blocked
  cases (s.threads t).pc <;> infer_instance

/-- A thread releases only what it holds, converts only what it holds
    exclusively, and does not ask for exclusive access, or to wait for it,
    while it holds the resource shared. -/
def Legal (s : State) : Step → Prop
  | .acquire t k _ =>
    (s.threads t).pc = .idle ∧
      (k = .exclusive ∨ k = .waitForExclusive → ¬ s.HoldsShared t)
  | .tryAcquireExclusive t => (s.threads t).pc = .idle ∧ ¬ s.HoldsShared t
  | .convert t => (s.threads t).pc = .idle ∧ s.Holds t ∧ (s.threads t).exclusive = true
  | .release t _ => (s.threads t).pc = .idle ∧ s.Holds t
  | .proceed t => ¬ s.Blocked t
  | .setEventBoostPriority t w => (s.threads t).pc = .setEvent ∧ (s.threads w).pc = .waitExclusive

instance (s : State) : (c : Step) → Decidable (Legal s c)
  | .acquire _ k _ =>
    inferInstanceAs (Decidable (_ ∧ (k = .exclusive ∨ k = .waitForExclusive → ¬ _)))
  | .tryAcquireExclusive _ => inferInstanceAs (Decidable (_ ∧ ¬ _))
  | .convert _ => inferInstanceAs (Decidable (_ ∧ _ ∧ _))
  | .release _ _ => inferInstanceAs (Decidable (_ ∧ _))
  | .proceed _ => inferInstanceAs (Decidable (¬ _))
  | .setEventBoostPriority _ _ => inferInstanceAs (Decidable (_ ∧ _))

/-- `ExInitializeResourceLite`, and no thread in it. -/
def initial : State where
  resource :=
    { ownerEntry := .free
      ownerTable := none
      activeCount := 0
      activeEntries := 0
      ownedExclusive := false
      numberOfSharedWaiters := 0
      numberOfExclusiveWaiters := 0
      sharedWaiters := false
      exclusiveWaiters := false
      semaphore := 0
      event := false }
  threads := fun _ => ⟨.idle, 0, false⟩

/-- The threads on one resource. -/
def system : Transition.System State Step Unit where
  init := fun s => s = initial
  legal := Legal
  step := step

instance (s : State) (c : Step) : Decidable (system.legal s c) :=
  inferInstanceAs (Decidable (Legal s c))

end Resource
