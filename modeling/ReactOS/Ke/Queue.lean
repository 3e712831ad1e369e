import ReactOS.Lib.Transition

/-! # Kernel queues

    `KQUEUE` objects (`ntoskrnl/ke/queue.c`, with `KiUnlinkThread` and `KiUnwaitThread` of `wait.c`):
    worker threads take entries from a queue, and a limit on the number of active workers is kept.
    An entry reaches a worker in three ways: it is handed over as it is inserted, the worker finds it
    in the list, or it is released by another worker that blocks or goes over to another queue.

    The steps are those under the dispatcher lock.  Threads are not scheduled here: a thread that is
    not waiting may take its next step at any time.  Counters are unbounded, since there are far
    fewer threads and entries than a `ULONG` can count.  The state also keeps, for each queue, what
    was inserted, what was handed out to which thread, and what `KeRemoveQueue` has returned.  Left
    out are timeouts and APCs. -/

namespace Ke

open Transition

/-! ## Section 1: Threads and queues -/

abbrev ThreadId := Nat
abbrev QueueId := Nat

/-- A list entry.  `atTail` records by which end it was inserted. -/
structure Entry where
  address : Nat
  atTail : Bool
  deriving DecidableEq, Repr

inductive WaitReason where
  | none
  | wrQueue
  | other
  deriving DecidableEq, Repr

/-- `Waiting`, or one of the states in which a thread runs or will run. -/
inductive ThreadState where
  | active
  | waiting
  deriving DecidableEq, Repr

/-- Where the code of a thread is. -/
inductive Place where
  | outside
  | inRemoveQueue
  | inOtherWait
  deriving DecidableEq, Repr

/-- The fields of a `KTHREAD` that the queue routines use.  `waitStatus` is the entry that the thread
    is given; without one it is `STATUS_SUCCESS`. -/
structure KThread where
  queue : Option QueueId
  waitReason : WaitReason
  state : ThreadState
  waitStatus : Option Entry
  place : Place
  deriving DecidableEq, Repr

/-- `KQUEUE`.  The wait blocks on the list of its header are all of threads in `KeRemoveQueue`. -/
structure KQueue where
  signalState : Int
  waitList : List ThreadId
  entryList : List Entry
  threadList : List ThreadId
  currentCount : Int
  maximumCount : Nat
  deriving DecidableEq, Repr

/-- The dispatcher database, and what went into and out of each queue. -/
structure Dispatcher where
  threads : ThreadId → KThread
  queues : QueueId → KQueue
  inserted : QueueId → List Entry
  handed : QueueId → List (ThreadId × Entry)
  returned : QueueId → List (ThreadId × Entry)

def Dispatcher.setThread (s : Dispatcher) (t : ThreadId) (thread : KThread) : Dispatcher :=
  { s with threads := fun t' => if t' = t then thread else s.threads t' }

def Dispatcher.setQueue (s : Dispatcher) (q : QueueId) (queue : KQueue) : Dispatcher :=
  { s with queues := fun q' => if q' = q then queue else s.queues q' }

/-- An entry is inserted. -/
def Dispatcher.noteInserted (s : Dispatcher) (q : QueueId) (e : Entry) : Dispatcher :=
  { s with inserted := fun q' => if q' = q then s.inserted q ++ [e] else s.inserted q' }

/-- An entry is handed out to a thread. -/
def Dispatcher.noteHanded (s : Dispatcher) (q : QueueId) (t : ThreadId) (e : Entry) : Dispatcher :=
  { s with handed := fun q' => if q' = q then s.handed q ++ [(t, e)] else s.handed q' }

/-- A thread returns from `KeRemoveQueue` with an entry. -/
def Dispatcher.noteReturned (s : Dispatcher) (q : QueueId) (t : ThreadId) (e : Entry) : Dispatcher :=
  { s with returned := fun q' => if q' = q then s.returned q ++ [(t, e)] else s.returned q' }

/-! ## Section 2: The routines -/

/-- `KeInitializeQueue`. -/
def keInitializeQueue (count keNumberProcessors : Nat) : KQueue where
  signalState := 0
  waitList := []
  entryList := []
  threadList := []
  currentCount := 0
  maximumCount := if count = 0 then keNumberProcessors else count

/-- `KiUnlinkThread` and `KiReadyThread`.  The status is or-ed to the one of the thread, and two
    entries must never meet there. -/
def kiUnwaitThread (s : Dispatcher) (t : ThreadId) (waitStatus : Option Entry) : Option Dispatcher :=
  let thread := s.threads t
  match thread.waitStatus, waitStatus with
  | some _, some _ => none
  | old, new =>
    let s := s.setThread t { thread with state := .active, waitStatus := old.or new }
    match thread.queue with
    | none => some s
    | some q =>
      let queue := s.queues q
      some (s.setQueue q { queue with
        waitList := queue.waitList.erase t, currentCount := queue.currentCount + 1 })

/-- `KiActivateWaiterQueue`: an active thread of the queue stops being active. -/
def kiActivateWaiterQueue (s : Dispatcher) (q : QueueId) : Option Dispatcher :=
  let queue := s.queues q
  let queue := { queue with currentCount := queue.currentCount - 1 }
  if queue.currentCount < queue.maximumCount then
    match queue.waitList.getLast?, queue.entryList with
    | some t, e :: rest =>
      let s := s.setQueue q { queue with
        entryList := rest, signalState := queue.signalState - 1 }
      kiUnwaitThread (s.noteHanded q t e) t (some e)
    | _, _ => some (s.setQueue q queue)
  else some (s.setQueue q queue)

/-- `KiInsertQueue`, in the context of a thread.  It returns the number of entries before. -/
def kiInsertQueue (s : Dispatcher) (current : ThreadId) (q : QueueId) (address : Nat) (head : Bool) :
    Dispatcher × Int :=
  let queue := s.queues q
  let thread := s.threads current
  let e : Entry := ⟨address, !head⟩
  let waiter := if queue.currentCount < queue.maximumCount ∧
      (thread.queue ≠ some q ∨ thread.waitReason ≠ .wrQueue) then queue.waitList.getLast? else none
  match waiter with
  | some t =>
    let s := s.setQueue q { queue with
      waitList := queue.waitList.dropLast, currentCount := queue.currentCount + 1 }
    let s := s.setThread t { s.threads t with
      waitStatus := some e, waitReason := .none, state := .active }
    ((s.noteInserted q e).noteHanded q t e, queue.signalState)
  | none =>
    let s := s.setQueue q { queue with
      signalState := queue.signalState + 1
      entryList := if head then e :: queue.entryList else queue.entryList ++ [e] }
    (s.noteInserted q e, queue.signalState)

/-- A thread that goes over to another queue leaves its previous one. -/
def leaveQueue (s : Dispatcher) (t : ThreadId) : Option QueueId → Option Dispatcher
  | some q => kiActivateWaiterQueue
      (s.setQueue q { s.queues q with threadList := (s.queues q).threadList.erase t }) q
  | none => some s

/-- The start of `KeRemoveQueue`: the thread goes over to the queue, or stops being active there. -/
def joinQueue (s : Dispatcher) (t : ThreadId) (q : QueueId) : Option Dispatcher :=
  let previousQueue := (s.threads t).queue
  let s := s.setThread t { s.threads t with
    waitStatus := none, waitReason := .wrQueue, queue := some q }
  if previousQueue = some q then
    some (s.setQueue q { s.queues q with currentCount := (s.queues q).currentCount - 1 })
  else do
    let s ← leaveQueue s t previousQueue
    return s.setQueue q { s.queues q with threadList := (s.queues q).threadList ++ [t] }

/-- The loop of `KeRemoveQueue`, without APCs and timeouts: the thread takes an entry, or waits.  If
    it takes one, the wait reason stays as it was set for the wait. -/
def takeOrWait (s : Dispatcher) (t : ThreadId) (q : QueueId) : Dispatcher × Option Entry :=
  let queue := s.queues q
  let entry := if queue.currentCount < queue.maximumCount then queue.entryList.head? else none
  match entry with
  | some e =>
    let s := s.setQueue q { queue with
      signalState := queue.signalState - 1, currentCount := queue.currentCount + 1
      entryList := queue.entryList.tail }
    ((s.noteHanded q t e).noteReturned q t e, some e)
  | none =>
    let s := s.setQueue q { queue with waitList := queue.waitList ++ [t] }
    (s.setThread t { s.threads t with state := .waiting, place := .inRemoveQueue }, none)

/-- `KeRemoveQueue`, up to where it returns an entry or waits. -/
def keRemoveQueue (s : Dispatcher) (t : ThreadId) (q : QueueId) :
    Option (Dispatcher × Option Entry) := do
  let s ← joinQueue s t q
  return takeOrWait s t q

/-- The end of `KeRemoveQueue` for a thread that has waited: it returns its wait status. -/
def resumeRemove (s : Dispatcher) (t : ThreadId) : Option (Dispatcher × Entry) := do
  let thread := s.threads t
  let e ← thread.waitStatus
  let q ← thread.queue
  return ((s.setThread t { thread with waitReason := .none, place := .outside }).noteReturned q t e, e)

/-- `KiActivateWaiterQueue` for the queue of a thread, if it has one. -/
def activateQueueOf (s : Dispatcher) : Option QueueId → Option Dispatcher
  | some q => kiActivateWaiterQueue s q
  | none => some s

/-- A wait for something else that blocks. -/
def blockThread (s : Dispatcher) (t : ThreadId) : Option Dispatcher := do
  let s := s.setThread t { s.threads t with waitStatus := none, waitReason := .other }
  let s ← activateQueueOf s (s.threads t).queue
  return s.setThread t { s.threads t with state := .waiting, place := .inOtherWait }

/-- The end of such a wait. -/
def unblockThread (s : Dispatcher) (t : ThreadId) : Option Dispatcher := do
  let s ← kiUnwaitThread s t none
  return s.setThread t { s.threads t with place := .outside }

/-- A wait for something else that is satisfied at once. -/
def passWait (s : Dispatcher) (t : ThreadId) : Dispatcher :=
  s.setThread t { s.threads t with waitStatus := none, waitReason := .other }

/-! ## Section 3: Runs -/

inductive QueueCall where
  | insert (current : ThreadId) (q : QueueId) (address : Nat) (head : Bool)
  | remove (t : ThreadId) (q : QueueId)
  | resume (t : ThreadId)
  | block (t : ThreadId)
  | unblock (t : ThreadId)
  | pass (t : ThreadId)
  deriving DecidableEq, Repr

def Dispatcher.call (s : Dispatcher) : QueueCall → Option Dispatcher
  | .insert current q address head => some (kiInsertQueue s current q address head).1
  | .remove t q => (keRemoveQueue s t q).map (·.1)
  | .resume t => (resumeRemove s t).map (·.1)
  | .block t => blockThread s t
  | .unblock t => unblockThread s t
  | .pass t => some (passWait s t)

/-- A thread calls from outside; it comes back from `KeRemoveQueue` once it has been readied, and
    another wait ends for a thread in it. -/
def Dispatcher.Legal (s : Dispatcher) : QueueCall → Prop
  | .insert current _ _ _ => (s.threads current).place = .outside
  | .remove t _ => (s.threads t).place = .outside
  | .resume t => (s.threads t).place = .inRemoveQueue ∧ (s.threads t).state = .active
  | .block t => (s.threads t).place = .outside
  | .unblock t => (s.threads t).place = .inOtherWait
  | .pass t => (s.threads t).place = .outside

instance (s : Dispatcher) : (c : QueueCall) → Decidable (s.Legal c)
  | .insert current _ _ _ => inferInstanceAs (Decidable ((s.threads current).place = _))
  | .remove t _ => inferInstanceAs (Decidable ((s.threads t).place = _))
  | .resume t => inferInstanceAs (Decidable ((s.threads t).place = _ ∧ (s.threads t).state = _))
  | .block t => inferInstanceAs (Decidable ((s.threads t).place = _))
  | .unblock t => inferInstanceAs (Decidable ((s.threads t).place = _))
  | .pass t => inferInstanceAs (Decidable ((s.threads t).place = _))

/-- A thread that has nothing to do with queues yet. -/
def newThread : KThread := ⟨none, .none, .active, none, .outside⟩

def queueSystem : System Dispatcher QueueCall Unit where
  init := fun s => ∃ (count : QueueId → Nat) (keNumberProcessors : Nat),
    s = ⟨fun _ => newThread, fun q => keInitializeQueue (count q) keNumberProcessors,
      fun _ => [], fun _ => [], fun _ => []⟩
  legal := Dispatcher.Legal
  step := fun s c => (s.call c).map fun s' => (s', ())

end Ke
