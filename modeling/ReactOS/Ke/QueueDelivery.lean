import Mathlib.Data.List.Perm.Basic
import ReactOS.Ke.Queue
import ReactOS.Lib.Counting

/-! # What kernel queues deliver

    The invariant of the runs of `Ke.Queue`, and what follows: each entry is handed to one thread,
    entries from the tail in order, within the limit, and none is left while a thread could take it.
    In the middle of a call a queue is out of step by one thread, which `QueueInv` keeps track of. -/

namespace Ke

open Transition List Dispatcher
open Option hiding or_self

section Maps

variable {s : Dispatcher} {q : QueueId} {t : ThreadId}

@[simp] theorem setThread_threads_self (thread : KThread) :
    (s.setThread t thread).threads t = thread := if_pos rfl

theorem setThread_threads_ne {t' : ThreadId} (h : t' ≠ t) (thread : KThread) :
    (s.setThread t thread).threads t' = s.threads t' := if_neg h

@[simp] theorem setQueue_queues_self (queue : KQueue) :
    (s.setQueue q queue).queues q = queue := if_pos rfl

theorem setQueue_queues_ne {q' : QueueId} (h : q' ≠ q) (queue : KQueue) :
    (s.setQueue q queue).queues q' = s.queues q' := if_neg h

end Maps

/-! ## Section 1: The invariant -/

variable {c : Int} {out' : Option ThreadId} {extra' : Nat}

/-- A thread of the queue that is active, the exception apart. -/
def Dispatcher.counts (s : Dispatcher) (out : Option ThreadId) (t : ThreadId) : Bool :=
  decide ((s.threads t).state = .active ∧ out ≠ some t)

/-- The entry that a thread has been given and has not returned with yet. -/
def Dispatcher.held (s : Dispatcher) (q : QueueId) (t : ThreadId) : List (ThreadId × Entry) :=
  if (s.threads t).queue = some q ∧ (s.threads t).place = .inRemoveQueue then
    ((s.threads t).waitStatus.map fun e => (t, e)).toList
  else []

/-- What holds of a queue at every point.  In the middle of a step one thread may be left `out` of
    the count, or have left with the count still to be adjusted. -/
structure QueueInv (s : Dispatcher) (q : QueueId) (out : Option ThreadId) (extra : Nat) : Prop where
  members : ∀ t, t ∈ (s.queues q).threadList ↔ (s.threads t).queue = some q
  nodup : (s.queues q).threadList.Nodup
  waiters : ∀ t, t ∈ (s.queues q).waitList ↔ (s.threads t).queue = some q ∧
    (s.threads t).place = .inRemoveQueue ∧ (s.threads t).state = .waiting
  waitNodup : (s.queues q).waitList.Nodup
  count : (s.queues q).currentCount = (s.queues q).threadList.countP (s.counts out) + extra
  signal : (s.queues q).signalState = (s.queues q).entryList.length
  once : (s.inserted q).Perm ((s.handed q).map (·.2) ++ (s.queues q).entryList)
  order : ((s.handed q).map (·.2) ++ (s.queues q).entryList).filter (·.atTail) =
    (s.inserted q).filter (·.atTail)
  pending : ∀ t, (s.handed q).filter (fun p => p.1 = t) =
    (s.returned q).filter (fun p => p.1 = t) ++ s.held q t

/-- Where a thread is tells whether it waits, and whether it has been given an entry. -/
structure ThreadInv (thread : KThread) : Prop where
  outside : thread.place = .outside → thread.state = .active
  elsewhere : thread.place = .inOtherWait → thread.state = .waiting ∧ thread.waitStatus = none
  removing : thread.place = .inRemoveQueue → thread.queue.isSome ∧
    (thread.state = .waiting → thread.waitStatus = none) ∧
    (thread.state = .active → thread.waitStatus.isSome)

/-- Entries and threads wait on the queue together only if the limit is reached. -/
def Busy (s : Dispatcher) (q : QueueId) (slack : Nat) : Prop :=
  (s.queues q).entryList ≠ [] → (s.queues q).waitList ≠ [] →
    ((s.queues q).maximumCount : Int) ≤ (s.queues q).currentCount + slack

section Frame

variable {s s' : Dispatcher} {q : QueueId} {t : ThreadId} {out : Option ThreadId} {extra : Nat}

theorem ThreadInv.of_outside {thread : KThread} (hplace : thread.place = .outside)
    (hactive : thread.state = .active) : ThreadInv thread where
  outside := fun _ => hactive
  elsewhere := fun hc => Place.noConfusion (hplace.symm.trans hc)
  removing := fun hc => Place.noConfusion (hplace.symm.trans hc)

theorem not_removing (hplace : (s.threads t).place = .outside) :
    (s.threads t).place ≠ .inRemoveQueue := by
  rw [hplace]
  exact Place.noConfusion

theorem counts_eq (h : (s'.threads t).state = (s.threads t).state) :
    s'.counts out t = s.counts out t := by
  rw [counts, counts, h]

theorem held_eq (h : s'.threads t = s.threads t) : s'.held q t = s.held q t := by
  rw [held, held, h]

variable {l : List ThreadId}

theorem countP_same (h : ∀ t ∈ l, (s'.threads t).state = (s.threads t).state) :
    l.countP (s'.counts out) = l.countP (s.counts out) :=
  countP_congr fun t ht => by rw [counts_eq (h t ht)]

section Other

variable (hother : ∀ t', t' ≠ t → s'.threads t' = s.threads t')

include hother

/-- Only one thread changes, and not what `f` says of it. -/
theorem same_of_other {α : Type} (f : KThread → α) (hself : f (s'.threads t) = f (s.threads t))
    (t' : ThreadId) : f (s'.threads t') = f (s.threads t') := by
  by_cases ht : t' = t
  · rw [ht, hself]
  · rw [hother t' ht]

theorem threadInv_of_other (h : ∀ t, ThreadInv (s.threads t)) (hself : ThreadInv (s'.threads t))
    (t' : ThreadId) : ThreadInv (s'.threads t') := by
  by_cases ht : t' = t
  · rw [ht]
    exact hself
  · rw [hother t' ht]
    exact h t'

theorem countP_of_other (hself : (s'.threads t).state = (s.threads t).state) :
    l.countP (s'.counts out) = l.countP (s.counts out) :=
  countP_same fun t' _ => same_of_other hother (·.state) hself t'

/-- The thread stops, and was out of the count. -/
theorem countP_stopped (hself : (s'.threads t).state = .waiting) :
    l.countP (s'.counts none) = l.countP (s.counts (some t)) := by
  refine countP_congr fun t' _ => ?_
  by_cases ht : t' = t
  · simp [ht, counts, hself]
  · simp [counts, hother t' ht, Ne.symm ht]

/-- The thread, one of the queue, becomes active. -/
theorem QueueInv.countP_woken (h : QueueInv s q out extra) (hq : (s.threads t).queue = some q)
    (hstate : (s.threads t).state = .waiting) (hout : out ≠ some t)
    (hself : (s'.threads t).state = .active) :
    (s.queues q).threadList.countP (s'.counts out) =
      (s.queues q).threadList.countP (s.counts out) + 1 := by
  refine Counting.countP_gain h.nodup ((h.members t).2 hq) ?_ ?_ fun t' _ ht => ?_
  · simp [counts, hstate]
  · simp [counts, hself, hout]
  · exact counts_eq (by rw [hother t' ht])

end Other

theorem Busy.of_eq {slack : Nat} (h : Busy s q slack) (hqueue : s'.queues q = s.queues q) :
    Busy s' q slack := by
  rw [Busy, hqueue]
  exact h

/-- What went into a queue and out of it is as it was. -/
structure SameLog (s s' : Dispatcher) (q : QueueId) : Prop where
  inserted : s'.inserted q = s.inserted q
  handed : s'.handed q = s.handed q
  returned : s'.returned q = s.returned q

theorem SameLog.pending (h : SameLog s s' q) (hheld : s'.held q t = s.held q t) :
    (s'.returned q).filter (fun p => p.1 = t) ++ s'.held q t =
      (s.returned q).filter (fun p => p.1 = t) ++ s.held q t := by
  rw [h.returned, hheld]

/-- A thread that is not of the queue, before or after, holds nothing of it. -/
theorem held_apart (h : (s.threads t).queue ≠ some q) (h' : (s'.threads t).queue ≠ some q) :
    s'.held q t = s.held q t := by
  rw [held, held, if_neg fun hc => h' hc.1, if_neg fun hc => h hc.1]

/-- A queue with other threads and waiters, and the same entries. -/
theorem QueueInv.relist (h : QueueInv s q out extra) {threads waits : List ThreadId}
    (hqueue : s'.queues q = { s.queues q with
      threadList := threads, waitList := waits, currentCount := c })
    (hmembers : ∀ t, t ∈ threads ↔ (s'.threads t).queue = some q) (hnodup : threads.Nodup)
    (hwaiters : ∀ t, t ∈ waits ↔ (s'.threads t).queue = some q ∧
      (s'.threads t).place = .inRemoveQueue ∧ (s'.threads t).state = .waiting)
    (hwaitNodup : waits.Nodup) (hc : c = threads.countP (s'.counts out') + extra')
    (hinserted : s'.inserted q = s.inserted q) (hhanded : s'.handed q = s.handed q)
    (hpending : ∀ t, (s'.returned q).filter (fun p => p.1 = t) ++ s'.held q t =
      (s.returned q).filter (fun p => p.1 = t) ++ s.held q t) : QueueInv s' q out' extra' := by
  constructor <;> try rw [hqueue]
  case members => exact hmembers
  case nodup => exact hnodup
  case waiters => exact hwaiters
  case waitNodup => exact hwaitNodup
  case count => exact hc
  case signal => exact h.signal
  case once =>
    rw [hinserted, hhanded]
    exact h.once
  case order =>
    rw [hinserted, hhanded]
    exact h.order
  case pending =>
    intro t
    rw [hhanded, hpending]
    exact h.pending t

/-- A change that keeps the threads of a queue, its waiters and its entries. -/
theorem QueueInv.update (h : QueueInv s q out extra)
    (hqueue : s'.queues q = { s.queues q with currentCount := c })
    (hc : c = (s.queues q).threadList.countP (s'.counts out') + extra')
    (hassoc : ∀ t, (s'.threads t).queue = some q ↔ (s.threads t).queue = some q)
    (hwaiter : ∀ t, (s.threads t).queue = some q →
      ((s'.threads t).place = .inRemoveQueue ∧ (s'.threads t).state = .waiting ↔
        (s.threads t).place = .inRemoveQueue ∧ (s.threads t).state = .waiting))
    (hinserted : s'.inserted q = s.inserted q) (hhanded : s'.handed q = s.handed q)
    (hpending : ∀ t, (s'.returned q).filter (fun p => p.1 = t) ++ s'.held q t =
      (s.returned q).filter (fun p => p.1 = t) ++ s.held q t) : QueueInv s' q out' extra' := by
  refine h.relist hqueue (fun t => ?_) h.nodup (fun t => ?_) h.waitNodup hc hinserted hhanded hpending
  · rw [hassoc]
    exact h.members t
  · rw [hassoc]
    exact (h.waiters t).trans (and_congr_right fun ht => (hwaiter t ht).symm)

/-- A queue whose threads are left alone, with its count set to what it should be. -/
theorem QueueInv.recount (h : QueueInv s q out extra)
    (hqueue : s'.queues q = { s.queues q with currentCount := c })
    (hc : c = (s.queues q).threadList.countP (s.counts out') + extra')
    (hlog : SameLog s s' q)
    (hthreads : ∀ t, (s.threads t).queue = some q ∨ (s'.threads t).queue = some q →
      s'.threads t = s.threads t) : QueueInv s' q out' extra' := by
  have hassoc : ∀ t, (s'.threads t).queue = some q ↔ (s.threads t).queue = some q := by grind
  have hsame : (s.queues q).threadList.countP (s'.counts out') =
      (s.queues q).threadList.countP (s.counts out') :=
    countP_same fun t ht => by rw [hthreads t (.inl ((h.members t).1 ht))]
  refine h.update hqueue (by rw [hsame]; exact hc) hassoc (fun t ht => ?_) hlog.inserted hlog.handed
    fun t => hlog.pending ?_
  · rw [hthreads t (.inl ht)]
  · by_cases ht : (s.threads t).queue = some q
    · exact held_eq (hthreads t (.inl ht))
    · exact held_apart ht fun hc => ht ((hassoc t).1 hc)

/-- Only thread `t` and queue `q` change. -/
structure Local (s s' : Dispatcher) (t : ThreadId) (q : QueueId) : Prop where
  threads : ∀ t', t' ≠ t → s'.threads t' = s.threads t'
  queues : ∀ q', q' ≠ q → s'.queues q' = s.queues q'
  inserted : ∀ q', q' ≠ q → s'.inserted q' = s.inserted q'
  handed : ∀ q', q' ≠ q → s'.handed q' = s.handed q'
  returned : ∀ q', q' ≠ q → s'.returned q' = s.returned q'

theorem local_set {thread : KThread} {queue : KQueue}
    (hs' : (s.setThread t thread).setQueue q queue = s') :
    Local s s' t q ∧ s'.threads t = thread ∧ s'.queues q = queue ∧ ∀ q, SameLog s s' q := by
  subst hs'
  exact ⟨⟨fun _ ht => setThread_threads_ne ht _, fun _ hq => setQueue_queues_ne hq _, fun _ _ => rfl,
    fun _ _ => rfl, fun _ _ => rfl⟩, setThread_threads_self _, setQueue_queues_self _,
    fun _ => ⟨rfl, rfl, rfl⟩⟩

theorem only_thread {thread : KThread} (hs' : s.setThread t thread = s') :
    s'.threads t = thread ∧ (∀ t', t' ≠ t → s'.threads t' = s.threads t') ∧ s'.queues = s.queues ∧
      ∀ q, SameLog s s' q := by
  subst hs'
  exact ⟨setThread_threads_self _, fun _ ht => setThread_threads_ne ht _, rfl,
    fun _ => ⟨rfl, rfl, rfl⟩⟩

/-- A queue that the thread neither leaves nor joins sees nothing of this. -/
theorem Local.queueInv (hl : Local s s' t q) (ht : s'.threads t = s.threads t ∨
      (s.threads t).queue = some q ∧ (s'.threads t).queue = some q)
    {q' : QueueId} (hne : q' ≠ q) (h : QueueInv s q' out extra) : QueueInv s' q' out extra := by
  refine h.recount (hl.queues q' hne) h.count
    ⟨hl.inserted q' hne, hl.handed q' hne, hl.returned q' hne⟩ fun t' ht' => ?_
  by_cases heq : t' = t
  · grind
  · exact hl.threads t' heq

end Frame

/-! ## Section 2: Handing out -/

variable {e : Entry}

section Handing

variable {s s' : Dispatcher} {q : QueueId} {r : ThreadId} {out : Option ThreadId} {extra : Nat}

/-- A waiter that is given an entry: it is active, and has the entry as its wait status. -/
def KThread.given (thread : KThread) (e : Entry) (reason : WaitReason) : KThread :=
  { thread with waitStatus := some e, waitReason := reason, state := .active }

/-- A waiter of the queue is given an entry, which the queue had or has just got. -/
theorem QueueInv.give (h : QueueInv s q out extra) (hr : r ∈ (s.queues q).waitList)
    (hthread : ThreadInv (s.threads r)) (hout : out ≠ some r) {reason : WaitReason}
    {entries : List Entry} (hself : s'.threads r = (s.threads r).given e reason)
    (hother : ∀ t, t ≠ r → s'.threads t = s.threads t)
    (hqueue : s'.queues q = { s.queues q with
      waitList := (s.queues q).waitList.erase r
      currentCount := (s.queues q).currentCount - extra + 1
      entryList := entries
      signalState := entries.length })
    (hhanded : s'.handed q = s.handed q ++ [(r, e)]) (hreturned : s'.returned q = s.returned q)
    (honce : (s'.inserted q).Perm ((s.handed q).map (·.2) ++ e :: entries))
    (horder : ((s.handed q).map (·.2) ++ e :: entries).filter (·.atTail) =
      (s'.inserted q).filter (·.atTail)) : QueueInv s' q out 0 := by
  obtain ⟨hrq, hplace, hstate⟩ := (h.waiters r).1 hr
  have hassoc := same_of_other hother (·.queue) (by rw [hself, KThread.given])
  have hstatus : (s.threads r).waitStatus = none := (hthread.removing hplace).2.1 hstate
  constructor <;> try rw [hqueue]
  case members =>
    intro t
    rw [hassoc]
    exact h.members t
  case nodup => exact h.nodup
  case waiters =>
    intro t
    rw [h.waitNodup.mem_erase_iff, h.waiters]
    by_cases ht : t = r
    · rw [ht, hself, KThread.given]
      simp
    · rw [hother t ht]
      simp [ht]
  case waitNodup => exact h.waitNodup.erase r
  case count =>
    rw [h.countP_woken hother hrq hstate hout (by rw [hself, KThread.given]), h.count]
    push_cast
    omega
  case once =>
    rw [hhanded, map_append, append_assoc]
    exact honce
  case order =>
    rw [hhanded, map_append, append_assoc]
    exact horder
  case pending =>
    -- what was handed over is held until the thread returns with it
    intro t
    rw [hhanded, hreturned, filter_append, h.pending t, append_assoc]
    congr 1
    by_cases ht : t = r
    · rw [ht, held, held, if_pos ⟨hrq, hplace⟩, hself, KThread.given,
        if_pos ⟨hrq, hplace⟩, hstatus]
      simp
    · have hne : ¬ r = t := fun heq => ht heq.symm
      rw [held_eq (hother t ht)]
      simp [hne]

/-- An entry is handed out only if that keeps to the limit. -/
def Dispatcher.Limited (s s' : Dispatcher) : Prop :=
  ∀ q, s'.handed q ≠ s.handed q → (s'.queues q).currentCount ≤ (s'.queues q).maximumCount

theorem limited_of_log (hlog : ∀ q, SameLog s s' q) : s.Limited s' := fun q hchange =>
  absurd (hlog q).handed hchange

/-- Only a queue and threads that wait on it are touched. -/
structure Touches (s s' : Dispatcher) (q : QueueId) : Prop where
  queues : ∀ q', q' ≠ q → s'.queues q' = s.queues q'
  inserted : s'.inserted = s.inserted
  handed : ∀ q', q' ≠ q → s'.handed q' = s.handed q'
  returned : s'.returned = s.returned
  queue : ∀ t, (s'.threads t).queue = (s.threads t).queue
  others : ∀ t, (s.threads t).queue ≠ some q → s'.threads t = s.threads t
  active : ∀ t, (s.threads t).state = .active → s'.threads t = s.threads t
  maximum : (s'.queues q).maximumCount = (s.queues q).maximumCount

theorem Touches.queueInv (h : Touches s s' q) {q' : QueueId} (hne : q' ≠ q)
    (hinv : QueueInv s q' out extra) : QueueInv s' q' out extra := by
  refine hinv.recount (h.queues q' hne) hinv.count ⟨by rw [h.inserted], h.handed q' hne,
    by rw [h.returned]⟩ fun t ht => h.others t fun hq => ?_
  have hsame : (s.threads t).queue = some q' := by
    rcases ht with ht | ht
    · exact ht
    · rw [← h.queue t]
      exact ht
  exact hne (some.inj (hsame.symm.trans hq))

theorem ThreadInv.given {thread : KThread} (h : ThreadInv thread)
    (hplace : thread.place = .inRemoveQueue) (e : Entry) (reason : WaitReason) :
    ThreadInv (thread.given e reason) where
  outside := fun _ => rfl
  elsewhere := fun hother => absurd (hplace.symm.trans hother) Place.noConfusion
  removing := fun _ => ⟨(h.removing hplace).1, fun hw => ThreadState.noConfusion hw, fun _ => rfl⟩

/-- A waiter of a queue is given an entry by `KiUnwaitThread`. -/
theorem kiUnwaitThread_eq (hstatus : (s.threads r).waitStatus = none)
    (hq : (s.threads r).queue = some q) :
    kiUnwaitThread s r (some e) = some ((s.setThread r
      ((s.threads r).given e (s.threads r).waitReason)).setQueue q { s.queues q with
        waitList := (s.queues q).waitList.erase r
        currentCount := (s.queues q).currentCount + 1 }) := by
  unfold kiUnwaitThread
  simp only [KThread.given, hstatus, hq]
  rfl

/-- `KiActivateWaiterQueue`: the count is adjusted, and if it can be, an entry is released. -/
theorem kiActivateWaiterQueue_spec (h : QueueInv s q out 1) (hbusy : Busy s q 0)
    (hthreads : ∀ t, ThreadInv (s.threads t))
    (hout : ∀ t, out = some t → (s.threads t).state = .active) :
    ∃ s', kiActivateWaiterQueue s q = some s' ∧ QueueInv s' q out 0 ∧ Busy s' q 0 ∧
      (∀ t, ThreadInv (s'.threads t)) ∧ Touches s s' q ∧ s.Limited s' := by
  have hcount := h.count
  -- Nothing is released: only the count changes.
  have hquiet : ((s.queues q).entryList = [] ∨ (s.queues q).waitList = [] ∨
      ((s.queues q).maximumCount : Int) ≤ (s.queues q).currentCount - 1) →
      ∀ s', s' = s.setQueue q { s.queues q with currentCount := (s.queues q).currentCount - 1 } →
      QueueInv s' q out 0 ∧ Busy s' q 0 ∧ (∀ t, ThreadInv (s'.threads t)) ∧ Touches s s' q ∧
      s.Limited s' := by
    intro hnone s' hs'
    subst hs'
    refine ⟨?_, ?_, hthreads, ⟨fun q' hne => setQueue_queues_ne hne _, rfl, fun _ _ => rfl, rfl,
      fun _ => rfl, fun _ _ => rfl, fun _ _ => rfl, by rw [setQueue_queues_self]⟩,
      fun _ hne => absurd rfl hne⟩
    · refine h.recount (setQueue_queues_self _) ?_ ⟨rfl, rfl, rfl⟩ fun _ _ => rfl
      omega
    · intro hentries hwaits
      rw [setQueue_queues_self] at hentries hwaits ⊢
      rcases hnone with hnil | hnil | hle
      · exact absurd hnil hentries
      · exact absurd hnil hwaits
      · show ((s.queues q).maximumCount : Int) ≤ (s.queues q).currentCount - 1 + (0 : Nat)
        omega
  unfold kiActivateWaiterQueue
  by_cases hlt : (s.queues q).currentCount - 1 < (s.queues q).maximumCount
  · rw [if_pos hlt]
    cases hlast : (s.queues q).waitList.getLast? with
    | none => exact ⟨_, rfl, hquiet (.inr (.inl (getLast?_eq_none_iff.1 hlast))) _ rfl⟩
    | some r =>
      cases hentries : (s.queues q).entryList with
      | nil => exact ⟨_, rfl, hquiet (.inl hentries) _ (by simp only [hentries])⟩
      | cons e rest =>
        -- The waiter that came last gets the first entry.
        have hr : r ∈ (s.queues q).waitList := mem_of_getLast? hlast
        obtain ⟨hrq, hplace, hstate⟩ := (h.waiters r).1 hr
        have hstatus := ((hthreads r).removing hplace).2.1 hstate
        have hne : out ≠ some r := fun heq => by
          rw [hout r heq] at hstate
          cases hstate
        have hfull := hbusy (by simp [hentries]) (ne_nil_of_mem hr)
        have hsignal := h.signal
        rw [hentries] at hsignal
        refine ⟨_, kiUnwaitThread_eq hstatus hrq, ?_⟩
        generalize hs' : setQueue _ q _ = s'
        obtain ⟨hlocal, hself, hqueue, hlog⟩ := local_set hs'
        have hother : ∀ t, t ≠ r → s'.threads t = s.threads t := hlocal.threads
        have hqueue : s'.queues q = { s.queues q with
            waitList := (s.queues q).waitList.erase r
            currentCount := (s.queues q).currentCount - (1 : Nat) + 1
            entryList := rest
            signalState := rest.length } := by
          rw [hqueue]
          simp [noteHanded, setQueue, hsignal]
        have hhanded : s'.handed = _ := funext fun q' => (hlog q').handed
        have hinserted : s'.inserted = s.inserted := funext fun q' => (hlog q').inserted
        have hreturned : s'.returned = s.returned := funext fun q' => (hlog q').returned
        have honce := h.once
        have horder := h.order
        rw [hentries] at honce horder
        refine ⟨h.give hr (hthreads r) hne hself hother hqueue (by rw [hhanded]; exact if_pos rfl)
          (by rw [hreturned]) (by rw [hinserted]; exact honce) (by rw [hinserted]; exact horder), ?_,
          ?_, ?_, fun q' hchange => ?_⟩
        · intro _ _
          rw [hqueue]
          push_cast at hfull ⊢
          omega
        · refine threadInv_of_other hother hthreads ?_
          rw [hself]
          exact (hthreads r).given hplace _ _
        · constructor
          case queues =>
            exact fun q' hq' => (hlocal.queues q' hq').trans (setQueue_queues_ne hq' _)
          case inserted => exact hinserted
          case handed =>
            exact fun q' hq' => (hlocal.handed q' hq').trans (if_neg hq')
          case returned => exact hreturned
          case queue => exact same_of_other hother (·.queue) (by rw [hself]; rfl)
          case others => exact fun t ht => hother t fun heq => ht (heq ▸ hrq)
          case active =>
            intro t ht
            refine hother t fun heq => ?_
            rw [heq, hstate] at ht
            cases ht
          case maximum => rw [hqueue]
        · by_cases hq' : q' = q
          · rw [hq', hqueue]
            push_cast
            omega
          · exact absurd ((hlocal.handed q' hq').trans (if_neg hq')) hchange
  · rw [if_neg hlt]
    exact ⟨_, rfl, hquiet (.inr (.inr (by omega))) _ rfl⟩

end Handing

/-! ## Section 3: The calls -/

variable {s' : Dispatcher}

/-- The invariant of the runs. -/
structure Dispatcher.Inv (s : Dispatcher) : Prop where
  threads : ∀ t, ThreadInv (s.threads t)
  queues : ∀ q, QueueInv s q none 0
  busy : ∀ q, Busy s q 0

section Calls

variable {s : Dispatcher} {q : QueueId} {t : ThreadId} {extra : Nat}

/-- The invariant after a change of one thread and one queue. -/
theorem Local.inv (hl : Local s s' t q) (ht : s'.threads t = s.threads t ∨
      (s.threads t).queue = some q ∧ (s'.threads t).queue = some q)
    (hthreads : ∀ t, ThreadInv (s.threads t)) (hself : ThreadInv (s'.threads t))
    (hothers : ∀ q', q' ≠ q → QueueInv s q' none 0) (hbusys : ∀ q', q' ≠ q → Busy s q' 0)
    (hhere : QueueInv s' q none 0) (hbusy : Busy s' q 0) : s'.Inv := by
  refine ⟨threadInv_of_other hl.threads hthreads hself, fun q' => ?_, fun q' => ?_⟩
  · by_cases hq' : q' = q
    · rw [hq']
      exact hhere
    · exact hl.queueInv ht hq' (hothers q' hq')
  · by_cases hq' : q' = q
    · rw [hq']
      exact hbusy
    · exact (hbusys q' hq').of_eq (hl.queues q' hq')

theorem erase_getLast {l : List ThreadId} {r : ThreadId} (hl : l.Nodup) (hr : l.getLast? = some r) :
    l.erase r = l.dropLast := by
  obtain ⟨l', rfl⟩ := getLast?_eq_some_iff.1 hr
  have hnot : r ∉ l' := fun hmem =>
    (nodup_append.1 hl).2.2 r hmem r mem_cons_self rfl
  rw [erase_append_right _ hnot]
  simp

/-- An insertion would hand the entry to a waiting thread, but for the wait reason that the caller
    still has from a `KeRemoveQueue` that did not wait. -/
def Dispatcher.Stale (s : Dispatcher) : QueueCall → Prop
  | .insert current q _ _ => (s.threads current).queue = some q ∧
      (s.threads current).waitReason = .wrQueue ∧
      (s.queues q).currentCount < (s.queues q).maximumCount ∧ (s.queues q).waitList ≠ []
  | _ => False

instance (s : Dispatcher) : (c : QueueCall) → Decidable (s.Stale c)
  | .insert _ _ _ _ => inferInstanceAs (Decidable (_ ∧ _ ∧ _ ∧ _))
  | .remove _ _ | .resume _ | .block _ | .unblock _ | .pass _ => inferInstanceAs (Decidable False)

/-- The queue with an entry more. -/
def Dispatcher.enqueue (s : Dispatcher) (q : QueueId) (e : Entry) (head : Bool) : Dispatcher :=
  (s.setQueue q { s.queues q with
    signalState := (s.queues q).signalState + 1
    entryList := if head then e :: (s.queues q).entryList else (s.queues q).entryList ++ [e]
    }).noteInserted q e

/-- The queue with a waiter less, which has been given the new entry. -/
def Dispatcher.handOver (s : Dispatcher) (q : QueueId) (r : ThreadId) (e : Entry) : Dispatcher :=
  (((s.setQueue q { s.queues q with
    waitList := (s.queues q).waitList.dropLast
    currentCount := (s.queues q).currentCount + 1 }).setThread r
      ((s.threads r).given e .none)).noteInserted q e).noteHanded q r e

theorem kiInsertQueue_cases (s : Dispatcher) (current : ThreadId) (q : QueueId) (address : Nat)
    (head : Bool) :
    (∃ r, (s.queues q).waitList.getLast? = some r ∧
      (s.queues q).currentCount < (s.queues q).maximumCount ∧
      (kiInsertQueue s current q address head).1 = s.handOver q r ⟨address, !head⟩) ∨
    ((s.Stale (.insert current q address head) ∨ (s.queues q).waitList = [] ∨
        ((s.queues q).maximumCount : Int) ≤ (s.queues q).currentCount) ∧
      (kiInsertQueue s current q address head).1 = s.enqueue q ⟨address, !head⟩ head) := by
  by_cases hgo : (s.queues q).currentCount < (s.queues q).maximumCount ∧
      ((s.threads current).queue ≠ some q ∨ (s.threads current).waitReason ≠ .wrQueue)
  · cases hlast : (s.queues q).waitList.getLast? with
    | some r =>
      refine .inl ⟨r, rfl, hgo.1, ?_⟩
      simp only [kiInsertQueue, if_pos hgo, hlast]
      rfl
    | none =>
      refine .inr ⟨.inr (.inl (getLast?_eq_none_iff.1 hlast)), ?_⟩
      simp only [kiInsertQueue, if_pos hgo, hlast]
      rfl
  · refine .inr ⟨?_, ?_⟩
    · by_cases hnil : (s.queues q).waitList = []
      · exact .inr (.inl hnil)
      by_cases hlt : (s.queues q).currentCount < (s.queues q).maximumCount
      · have hstale := not_or.1 fun hor => hgo ⟨hlt, hor⟩
        exact .inl ⟨not_not.1 hstale.1, not_not.1 hstale.2, hlt, hnil⟩
      · exact .inr (.inr (by omega))
    · simp only [kiInsertQueue, if_neg hgo]
      rfl

theorem QueueInv.enqueue (h : QueueInv s q none 0) (address : Nat) (head : Bool) :
    QueueInv (s.enqueue q ⟨address, !head⟩ head) q none 0 := by
  have hqueue : (s.enqueue q ⟨address, !head⟩ head).queues q = _ := setQueue_queues_self _
  have hinserted : (s.enqueue q ⟨address, !head⟩ head).inserted q =
      s.inserted q ++ [⟨address, !head⟩] := if_pos rfl
  constructor <;> try rw [hqueue]
  case members => exact h.members
  case nodup => exact h.nodup
  case waiters => exact h.waiters
  case waitNodup => exact h.waitNodup
  case count => exact h.count
  case signal =>
    have hsignal := h.signal
    cases head <;> simp [hsignal]
  case once =>
    rw [hinserted]
    cases head with
    | true =>
      refine perm_append_comm.trans ((List.Perm.cons _ h.once).trans ?_)
      exact perm_middle.symm
    | false =>
      show List.Perm _ ((s.handed q).map (·.2) ++ ((s.queues q).entryList ++ [_]))
      rw [← append_assoc]
      exact h.once.append_right _
  case order =>
    rw [hinserted]
    show ((s.handed q).map (·.2) ++ _).filter _ = _
    have horder := h.order
    cases head with
    | true => simp [filter_append, ← horder]
    | false => simp [filter_append, ← horder]
  case pending => exact h.pending

theorem Dispatcher.Inv.insert (h : s.Inv) (current : ThreadId) (q : QueueId) (address : Nat)
    (head : Bool) :
    s.Limited (kiInsertQueue s current q address head).1 ∧
      (¬ s.Stale (.insert current q address head) → (kiInsertQueue s current q address head).1.Inv) := by
  have hq := h.queues q
  rcases kiInsertQueue_cases s current q address head with ⟨r, hlast, hlt, heq⟩ | ⟨hwhy, heq⟩
  · -- The queue has no entries, and the new one goes to the last waiter.
    rw [heq]
    have hr : r ∈ (s.queues q).waitList := mem_of_getLast? hlast
    obtain ⟨hrq, hplace, hstate⟩ := (hq.waiters r).1 hr
    have hentries : (s.queues q).entryList = [] := by
      by_contra hne
      have hfull := h.busy q hne (ne_nil_of_mem hr)
      omega
    have hsignal := hq.signal
    obtain ⟨e, he⟩ : ∃ e : Entry, e = ⟨address, !head⟩ := ⟨_, rfl⟩
    rw [← he]
    have hself : (s.handOver q r e).threads r = (s.threads r).given e .none :=
      setThread_threads_self _
    have hother : ∀ t, t ≠ r → (s.handOver q r e).threads t = s.threads t := fun t ht =>
      setThread_threads_ne ht _
    have hqueue : (s.handOver q r e).queues q = { s.queues q with
        waitList := (s.queues q).waitList.erase r
        currentCount := (s.queues q).currentCount - (0 : Nat) + 1
        entryList := []
        signalState := ([] : List Entry).length } := by
      have hset : (s.handOver q r e).queues q = _ := setQueue_queues_self _
      rw [hset]
      simp [erase_getLast hq.waitNodup hlast, hsignal, hentries]
    have hinserted : (s.handOver q r e).inserted q = s.inserted q ++ [e] := if_pos rfl
    have honce := hq.once
    have horder := hq.order
    rw [hentries, append_nil] at honce horder
    have hlocal : Local s (s.handOver q r e) r q := ⟨hother, fun q' hq' => setQueue_queues_ne hq' _,
      fun q' hq' => if_neg hq', fun q' hq' => if_neg hq', fun _ _ => rfl⟩
    refine ⟨fun q' hne => ?_, fun _ => hlocal.inv (.inr ⟨hrq, by rw [hself]; exact hrq⟩) h.threads ?_
      (fun q' _ => h.queues q') (fun q' _ => h.busy q') ?_ fun hne => ?_⟩
    · by_cases hq' : q' = q
      · rw [hq', hqueue]
        push_cast
        omega
      · exact absurd (if_neg hq') hne
    · rw [hself]
      exact (h.threads r).given hplace _ _
    · refine hq.give hr (h.threads r) (some_ne_none r).symm hself hother hqueue (if_pos rfl) rfl
        ?_ ?_
      · rw [hinserted]
        exact honce.append_right _
      · rw [hinserted, filter_append, filter_append, horder]
    · rw [hqueue] at hne
      exact absurd rfl hne
  · rw [heq]
    have hlocal : Local s (s.enqueue q ⟨address, !head⟩ head) current q := ⟨fun _ _ => rfl,
      fun q' hq' => setQueue_queues_ne hq' _, fun q' hq' => if_neg hq', fun _ _ => rfl, fun _ _ => rfl⟩
    refine ⟨fun q' hne => absurd rfl hne, fun hfresh => hlocal.inv (.inl rfl) h.threads
      (h.threads current) (fun q' _ => h.queues q') (fun q' _ => h.busy q') (hq.enqueue address head)
      fun _ hwaits => ?_⟩
    have hqueue : (s.enqueue q ⟨address, !head⟩ head).queues q = _ := setQueue_queues_self _
    rw [hqueue] at hwaits ⊢
    have hle := (hwhy.resolve_left hfresh).resolve_left hwaits
    show ((s.queues q).maximumCount : Int) ≤ (s.queues q).currentCount + (0 : Nat)
    omega

/-- A thread that is outside is not on a wait list and has been given nothing. -/
theorem held_outside (hplace : (s.threads t).place ≠ .inRemoveQueue) (q : QueueId) :
    s.held q t = [] := if_neg fun h => hplace h.2

/-- A thread changes that does not wait on a queue, before or after. -/
theorem QueueInv.setThread {out : Option ThreadId} (h : QueueInv s q out extra)
    (hother : ∀ t', t' ≠ t → s'.threads t' = s.threads t')
    (hqueue : (s'.threads t).queue = (s.threads t).queue)
    (hplace : (s.threads t).place ≠ .inRemoveQueue)
    (hplace' : (s'.threads t).place ≠ .inRemoveQueue)
    (hq : s'.queues q = { s.queues q with currentCount := c })
    (hc : c = (s.queues q).threadList.countP (s'.counts out') + extra')
    (hlog : SameLog s s' q) : QueueInv s' q out' extra' := by
  refine h.update hq hc (fun t' => ?_) (fun t' _ => ?_) hlog.inserted hlog.handed
    fun t' => hlog.pending ?_
  · rw [same_of_other hother (·.queue) hqueue]
  · grind
  · by_cases ht : t' = t
    · rw [ht, held_outside hplace', held_outside hplace]
    · exact held_eq (hother t' ht)

theorem Dispatcher.Inv.pass (h : s.Inv) (hplace : (s.threads t).place = .outside) :
    (passWait s t).Inv := by
  have hne := not_removing hplace
  obtain ⟨hself, hother, -, hlog⟩ := only_thread (show _ = passWait s t from rfl)
  refine ⟨threadInv_of_other hother h.threads ?_, fun q => ?_, fun q => h.busy q⟩
  · rw [hself]
    exact .of_outside hplace ((h.threads t).outside hplace)
  · refine (h.queues q).setThread hother (by rw [hself]) hne (by rw [hself]; exact hne) rfl ?_ (hlog q)
    rw [countP_of_other hother (by rw [hself])]
    exact (h.queues q).count

/-- A thread of another queue may be left out of the count. -/
theorem QueueInv.leave_out (h : QueueInv s q none extra)
    (ht : (s.threads t).queue ≠ some q) : QueueInv s q (some t) extra := by
  refine h.recount rfl ?_ ⟨rfl, rfl, rfl⟩ fun _ _ => rfl
  rw [h.count]
  congr 2
  refine countP_congr fun t' ht' => ?_
  have hne : t' ≠ t := fun heq => ht ((h.members t).1 (heq ▸ ht'))
  simp [counts, hne.symm]

namespace QueueInv

variable (ht : (s.threads t).queue = some q) (hactive : (s.threads t).state = .active)

include ht hactive

/-- Leaving an active thread out of the count makes a difference of one. -/
theorem countP_out {out : Option ThreadId} (h : QueueInv s q out extra) :
    (s.queues q).threadList.countP (s.counts none) =
      (s.queues q).threadList.countP (s.counts (some t)) + 1 := by
  refine Counting.countP_gain h.nodup ((h.members t).2 ht) ?_ ?_ fun t' _ hne => ?_
  · simp [counts]
  · simp [counts, hactive]
  · simp [counts, hne.symm]

/-- An active thread of the queue is left out, while the count still has it. -/
theorem single_out (h : QueueInv s q none 0) : QueueInv s q (some t) 1 := by
  refine h.recount rfl ?_ ⟨rfl, rfl, rfl⟩ fun _ _ => rfl
  rw [h.count, h.countP_out ht hactive]
  omega

end QueueInv

/-- Out of every count, a thread may stop. -/
theorem inv_of_stopped (hthreads : ∀ t, ThreadInv (s.threads t))
    (hqueues : ∀ q, QueueInv s q (some t) 0) (hbusy : ∀ q, Busy s q 0)
    (hplace : (s.threads t).place ≠ .inRemoveQueue) (hstatus : (s.threads t).waitStatus = none) :
    (s.setThread t { s.threads t with state := .waiting, place := .inOtherWait }).Inv := by
  generalize hs' : setThread _ t _ = s'
  obtain ⟨hself, hother, hsame, hlog⟩ := only_thread hs'
  refine ⟨threadInv_of_other hother hthreads ?_, fun q => ?_,
    fun q => (hbusy q).of_eq (by rw [hsame])⟩
  · rw [hself]
    exact ⟨Place.noConfusion, fun _ => ⟨rfl, hstatus⟩, Place.noConfusion⟩
  · refine (hqueues q).setThread hother (by rw [hself]) hplace (by rw [hself]; exact Place.noConfusion)
      (by rw [hsame]) ?_ (hlog q)
    rw [countP_stopped hother (by rw [hself])]
    exact (hqueues q).count

/-- A thread starts another wait: it leaves the count, and an entry may be released. -/
theorem Dispatcher.Inv.block (h : s.Inv) (hplace : (s.threads t).place = .outside) :
    ∃ s', blockThread s t = some s' ∧ s'.Inv ∧ s.Limited s' := by
  have hpass := h.pass hplace
  have hself : (passWait s t).threads t = _ := setThread_threads_self _
  have hne : ((passWait s t).threads t).place ≠ .inRemoveQueue := by
    rw [hself, hplace]
    exact Place.noConfusion
  have hactive : ((passWait s t).threads t).state = .active :=
    (hpass.threads t).outside (by rw [hself, hplace])
  have hblock : blockThread s t = (activateQueueOf (passWait s t)
      ((passWait s t).threads t).queue).bind fun s => some (s.setThread t
        { s.threads t with state := .waiting, place := .inOtherWait }) := rfl
  cases hq : ((passWait s t).threads t).queue with
  | none =>
    rw [hblock, hq]
    refine ⟨_, rfl, inv_of_stopped hpass.threads (fun q => ?_) hpass.busy hne (by rw [hself]),
      fun q hchange => absurd rfl hchange⟩
    exact (hpass.queues q).leave_out (by rw [hq]; exact (some_ne_none q).symm)
  | some q =>
    obtain ⟨s2, hactivate, hinv, hbusy, hthreads, htouches, hlimit⟩ :=
      kiActivateWaiterQueue_spec ((hpass.queues q).single_out hq hactive) (hpass.busy q) hpass.threads
        fun t' ht' => by
          rw [← some.inj ht']
          exact hactive
    -- The release never picks the blocking thread: it is still active.
    have hkeep : s2.threads t = (passWait s t).threads t := htouches.active t hactive
    rw [hblock, hq, activateQueueOf, hactivate]
    refine ⟨_, rfl, inv_of_stopped hthreads (fun q' => ?_) (fun q' => ?_) (by rw [hkeep]; exact hne)
      (by rw [hkeep, hself]), hlimit⟩
    · by_cases hq' : q' = q
      · rw [hq']
        exact hinv
      · refine (htouches.queueInv hq' (hpass.queues q')).leave_out ?_
        rw [hkeep, hq]
        exact fun heq => hq' (some.inj heq).symm
    · by_cases hq' : q' = q
      · rw [hq']
        exact hbusy
      · exact (hpass.busy q').of_eq (htouches.queues q' hq')

/-- The thread that is back from another wait. -/
def KThread.released (thread : KThread) : KThread :=
  { thread with state := .active, waitStatus := none, place := .outside }

/-- The end of another wait: the thread is active, and is counted in its queue. -/
theorem unblockThread_eq (hstatus : (s.threads t).waitStatus = none) :
    ∃ s', unblockThread s t = some s' ∧ s'.threads t = (s.threads t).released ∧
      (∀ t', t' ≠ t → s'.threads t' = s.threads t') ∧ (∀ q, SameLog s s' q) ∧
      ∀ q, s'.queues q = if (s.threads t).queue = some q then { s.queues q with
          waitList := (s.queues q).waitList.erase t
          currentCount := (s.queues q).currentCount + 1 } else s.queues q := by
  obtain ⟨awake, hawake⟩ : ∃ awake : KThread, awake = { s.threads t with
    state := .active, waitStatus := none } := ⟨_, rfl⟩
  have hreleased : { awake with place := .outside } = (s.threads t).released := by
    rw [hawake, KThread.released]
  rcases hq : (s.threads t).queue with _ | q
  · have hunwait : kiUnwaitThread s t none = some (s.setThread t awake) := by
      simp only [kiUnwaitThread, hstatus, hq, hawake]
      rfl
    rw [unblockThread, hunwait]
    refine ⟨_, rfl, ?_, fun t' ht => ?_, fun _ => ⟨rfl, rfl, rfl⟩, fun q => ?_⟩
    · rw [setThread_threads_self, setThread_threads_self, hreleased]
    · rw [setThread_threads_ne ht, setThread_threads_ne ht]
    · rw [if_neg (some_ne_none q).symm]
      rfl
  have hunwait : kiUnwaitThread s t none = some ((s.setThread t awake).setQueue q { s.queues q with
      waitList := (s.queues q).waitList.erase t
      currentCount := (s.queues q).currentCount + 1 }) := by
    simp only [kiUnwaitThread, hstatus, hq, hawake]
    rfl
  rw [unblockThread, hunwait]
  refine ⟨_, rfl, ?_, fun t' ht => ?_, fun _ => ⟨rfl, rfl, rfl⟩, fun q' => ?_⟩
  · have hkeep : ((s.setThread t awake).setQueue q { s.queues q with
        waitList := (s.queues q).waitList.erase t
        currentCount := (s.queues q).currentCount + 1 }).threads t = awake := setThread_threads_self _
    rw [setThread_threads_self, hkeep, hreleased]
  · rw [setThread_threads_ne ht]
    exact setThread_threads_ne ht _
  · by_cases hq' : q' = q
    · rw [hq', if_pos rfl]
      exact setQueue_queues_self _
    · rw [if_neg fun h => hq' (some.inj h).symm]
      exact setQueue_queues_ne hq' _

theorem Dispatcher.Inv.unblock (h : s.Inv) (hplace : (s.threads t).place = .inOtherWait) :
    ∃ s', unblockThread s t = some s' ∧ s'.Inv ∧ s.Limited s' := by
  obtain ⟨hwaiting, hstatus⟩ := (h.threads t).elsewhere hplace
  obtain ⟨s', heq, hself, hother, hlog, hqueues⟩ := unblockThread_eq hstatus
  have hne : (s.threads t).place ≠ .inRemoveQueue := by
    rw [hplace]
    exact Place.noConfusion
  -- The thread is on no wait list of a queue, so that only counts change.
  have herase : ∀ q, (s.queues q).waitList.erase t = (s.queues q).waitList := fun q =>
    erase_of_not_mem fun hmem => hne (((h.queues q).waiters t).1 hmem).2.1
  have hqueue : ∀ q, s'.queues q = { s.queues q with
      currentCount := (if (s.threads t).queue = some q then (s.queues q).currentCount + 1
        else (s.queues q).currentCount) } := by
    intro q
    rw [hqueues]
    by_cases hq : (s.threads t).queue = some q
    · rw [herase]
      simp [hq]
    · rw [if_neg hq]
      simp [hq]
  refine ⟨s', heq, ⟨threadInv_of_other hother h.threads ?_, fun q => ?_, fun q => ?_⟩,
    limited_of_log hlog⟩
  · rw [hself]
    exact .of_outside rfl rfl
  · refine (h.queues q).setThread hother (by rw [hself]; rfl) hne
      (by rw [hself]; exact Place.noConfusion) (hqueue q) ?_ (hlog q)
    by_cases hq : (s.threads t).queue = some q
    · rw [if_pos hq, (h.queues q).countP_woken hother hq hwaiting (some_ne_none t).symm
        (by rw [hself]; rfl), (h.queues q).count]
      omega
    · rw [if_neg hq, (h.queues q).count]
      congr 2
      refine (countP_same fun t' ht' => ?_).symm
      rw [hother t' fun heq => hq (((h.queues q).members t).1 (heq ▸ ht'))]
  · intro hentries hwaits
    rw [hqueue] at hentries hwaits ⊢
    have hle := h.busy q hentries hwaits
    split
    · push_cast at hle ⊢
      omega
    · exact hle

/-- A thread that has been given an entry returns with it. -/
theorem Dispatcher.Inv.resume (h : s.Inv) (hplace : (s.threads t).place = .inRemoveQueue)
    (hactive : (s.threads t).state = .active) :
    ∃ s' e, resumeRemove s t = some (s', e) ∧ s'.Inv ∧ s.Limited s' := by
  obtain ⟨hsome, -, hgiven⟩ := (h.threads t).removing hplace
  obtain ⟨q, hq⟩ := isSome_iff_exists.1 hsome
  obtain ⟨e, he⟩ := isSome_iff_exists.1 (hgiven hactive)
  obtain ⟨s', hs'⟩ : ∃ s', s' = (s.setThread t { s.threads t with
    waitReason := .none, place := .outside }).noteReturned q t e := ⟨_, rfl⟩
  have heq : resumeRemove s t = some (s', e) := by
    simp only [resumeRemove, he, hq, bind, bind_some, pure, hs']
  obtain ⟨hself, hother⟩ : s'.threads t = { s.threads t with
      waitReason := .none, place := .outside } ∧ ∀ t', t' ≠ t → s'.threads t' = s.threads t' := by
    rw [hs']
    exact ⟨setThread_threads_self _, fun t' ht => setThread_threads_ne ht _⟩
  obtain ⟨hsame, hinserted, hhanded, hreturned⟩ : s'.queues = s.queues ∧ s'.inserted = s.inserted ∧
      s'.handed = s.handed ∧ ∀ q', s'.returned q' =
        if q' = q then s.returned q ++ [(t, e)] else s.returned q' := by
    rw [hs']
    exact ⟨rfl, rfl, rfl, fun q' => rfl⟩
  refine ⟨s', e, heq, ⟨threadInv_of_other hother h.threads ?_, fun q' => ?_,
    fun q' => (h.busy q').of_eq (by rw [hsame])⟩, fun q' hchange => ?_⟩
  · rw [hself]
    exact .of_outside rfl hactive
  · have hheld : s'.held q' t = [] := held_outside (by rw [hself]; exact Place.noConfusion) q'
    refine (h.queues q').update (by rw [hsame]) ?_ (fun t' => ?_) (fun t' _ => ?_) (by rw [hinserted])
      (by rw [hhanded]) fun t' => ?_
    · rw [countP_of_other hother (by rw [hself])]
      exact (h.queues q').count
    · rw [same_of_other hother (·.queue) (by rw [hself])]
    · grind
    · -- What the thread held has been returned.
      by_cases ht : t' = t
      · rw [ht, hheld, hreturned, held]
        by_cases hq' : q' = q
        · rw [if_pos hq', hq', if_pos ⟨hq, hplace⟩, he]
          simp
        · rw [if_neg hq', if_neg fun hc => hq' (some.inj (hc.1.symm.trans hq))]
      have hfilter : (s'.returned q').filter (fun p => p.1 = t') =
          (s.returned q').filter (fun p => p.1 = t') := by
        rw [hreturned]
        by_cases hq' : q' = q
        · rw [hq']
          simp [Ne.symm ht]
        · rw [if_neg hq']
      rw [hfilter, held_eq (hother t' ht)]
  · rw [hhanded] at hchange
    exact absurd rfl hchange

/-- A thread outside leaves a queue; the count still has it. -/
theorem QueueInv.depart (h : QueueInv s q none 0) (hq : (s.threads t).queue = some q)
    (hactive : (s.threads t).state = .active) (hplace : (s.threads t).place ≠ .inRemoveQueue)
    (hother : ∀ t', t' ≠ t → s'.threads t' = s.threads t') (hgone : (s'.threads t).queue ≠ some q)
    (hqueue : s'.queues q = { s.queues q with threadList := (s.queues q).threadList.erase t })
    (hlog : SameLog s s' q) : QueueInv s' q none 1 := by
  have hmem : t ∈ (s.queues q).threadList := (h.members t).2 hq
  refine h.relist hqueue (fun t' => ?_) (h.nodup.erase t) (fun t' => ?_) h.waitNodup ?_ hlog.inserted
    hlog.handed fun t' => hlog.pending ?_
  · rw [h.nodup.mem_erase_iff, h.members]
    by_cases ht : t' = t
    · rw [ht]
      exact iff_of_false (fun hc => hc.1 rfl) hgone
    · rw [hother t' ht]
      exact and_iff_right ht
  · refine (h.waiters t').trans ?_
    by_cases ht : t' = t
    · rw [ht]
      exact iff_of_false (fun hc => hplace hc.2.1) fun hc => hgone hc.1
    · rw [hother t' ht]
  · have hcounted : s.counts none t = true := by simp [counts, hactive]
    have hsame : ((s.queues q).threadList.erase t).countP (s'.counts none) =
        ((s.queues q).threadList.erase t).countP (s.counts none) :=
      countP_same fun t' ht' => by rw [hother t' (h.nodup.mem_erase_iff.1 ht').1]
    rw [hsame, h.count, Counting.countP_erase hmem, hcounted]
    rfl
  · by_cases ht : t' = t
    · rw [ht, held_outside hplace, held, if_neg fun hc => hgone hc.1]
    · exact held_eq (hother t' ht)

theorem nodup_concat {l : List ThreadId} (h : l.Nodup) (hr : t ∉ l) : (l ++ [t]).Nodup :=
  nodup_append_comm.1 (nodup_cons.2 ⟨hr, h⟩)

/-- A thread joins a queue; the count does not have it yet. -/
theorem QueueInv.arrive (h : QueueInv s q none 0) (hq : (s.threads t).queue ≠ some q)
    (hother : ∀ t', t' ≠ t →
      (s.threads t').queue = some q ∨ (s'.threads t').queue = some q → s'.threads t' = s.threads t')
    (hjoined : (s'.threads t).queue = some q) (hplace : (s'.threads t).place ≠ .inRemoveQueue)
    (hqueue : s'.queues q = { s.queues q with threadList := (s.queues q).threadList ++ [t] })
    (hlog : SameLog s s' q) : QueueInv s' q (some t) 0 := by
  have hmem : t ∉ (s.queues q).threadList := fun hmem => hq ((h.members t).1 hmem)
  have hassoc : ∀ t', t' ≠ t → ((s'.threads t').queue = some q ↔ (s.threads t').queue = some q) := by
    grind
  refine h.relist hqueue (fun t' => ?_) ?_ (fun t' => ?_) h.waitNodup ?_ hlog.inserted hlog.handed
    fun t' => hlog.pending ?_
  · rw [mem_append, mem_singleton, h.members]
    by_cases ht : t' = t
    · rw [ht]
      exact iff_of_true (.inr rfl) hjoined
    · rw [hassoc t' ht]
      exact or_iff_left ht
  · exact nodup_concat h.nodup hmem
  · refine (h.waiters t').trans ?_
    by_cases ht : t' = t
    · rw [ht]
      exact iff_of_false (fun hc => hq hc.1) fun hc => hplace hc.2.1
    · grind
  · have hout : s'.counts (some t) t = false := by simp [counts]
    rw [h.count, countP_append, countP_singleton, hout, if_neg Bool.false_ne_true]
    congr 2
    refine countP_congr fun t' ht' => ?_
    have ht : t' ≠ t := fun heq => hmem (heq ▸ ht')
    rw [counts_eq (by rw [hother t' ht (.inl ((h.members t').1 ht'))])]
    simp [counts, Ne.symm ht]
  · by_cases ht : t' = t
    · rw [ht, held_outside hplace, held, if_neg fun hc => hq hc.1]
    · by_cases hc : (s.threads t').queue = some q
      · exact held_eq (hother t' ht (.inl hc))
      · exact held_apart hc fun h => hc ((hassoc t' ht).1 h)

/-- A thread in `KeRemoveQueue`, between joining the queue and taking an entry. -/
structure Joined (s : Dispatcher) (t : ThreadId) (q : QueueId) : Prop where
  threads : ∀ t, ThreadInv (s.threads t)
  here : QueueInv s q (some t) 0
  room : Busy s q 1
  others : ∀ q', q' ≠ q → QueueInv s q' none 0
  busy : ∀ q', q' ≠ q → Busy s q' 0
  queue : (s.threads t).queue = some q
  place : (s.threads t).place = .outside
  status : (s.threads t).waitStatus = none

theorem Joined.active (h : Joined s t q) : (s.threads t).state = .active :=
  (h.threads t).outside h.place

/-- A thread takes the first entry. -/
def Dispatcher.take (s : Dispatcher) (t : ThreadId) (q : QueueId) (e : Entry) : Dispatcher :=
  ((s.setQueue q { s.queues q with
    signalState := (s.queues q).signalState - 1
    currentCount := (s.queues q).currentCount + 1
    entryList := (s.queues q).entryList.tail }).noteHanded q t e).noteReturned q t e

/-- A thread waits on the queue. -/
def Dispatcher.park (s : Dispatcher) (t : ThreadId) (q : QueueId) : Dispatcher :=
  (s.setThread t { s.threads t with state := .waiting, place := .inRemoveQueue }).setQueue q
    { s.queues q with waitList := (s.queues q).waitList ++ [t] }

theorem Joined.take (h : Joined s t q) {rest : List Entry}
    (hentries : (s.queues q).entryList = e :: rest) : (s.take t q e).Inv := by
  generalize hs' : s.take t q e = s'
  obtain ⟨hthreads, hinserted, hhanded, hreturned⟩ : s'.threads = s.threads ∧
      s'.inserted = s.inserted ∧ s'.handed q = s.handed q ++ [(t, e)] ∧
      s'.returned q = s.returned q ++ [(t, e)] := by
    rw [← hs']
    exact ⟨rfl, rfl, if_pos rfl, if_pos rfl⟩
  have hqueue : s'.queues q = { s.queues q with
      signalState := rest.length
      currentCount := (s.queues q).currentCount + 1
      entryList := rest } := by
    have hsignal := h.here.signal
    rw [← hs']
    refine (setQueue_queues_self _).trans ?_
    simp [hsignal, hentries]
  have hlocal : Local s s' t q := by
    rw [← hs']
    exact ⟨fun _ _ => rfl, fun q' hq' => setQueue_queues_ne hq' _, fun _ _ => rfl,
      fun q' hq' => if_neg hq', fun q' hq' => if_neg hq'⟩
  refine hlocal.inv (.inl (by rw [hthreads])) h.threads (by rw [hthreads]; exact h.threads t) h.others
    h.busy ?_ fun _ hwaits => ?_
  · have honce := h.here.once
    have horder := h.here.order
    rw [hentries] at honce horder
    constructor <;> try rw [hqueue]
    case members =>
      rw [hthreads]
      exact h.here.members
    case nodup => exact h.here.nodup
    case waiters =>
      rw [hthreads]
      exact h.here.waiters
    case waitNodup => exact h.here.waitNodup
    case count =>
      have hcount := h.here.count
      rw [countP_same (s := s) fun t' _ => by rw [hthreads], h.here.countP_out h.queue h.active]
      push_cast
      omega
    case once =>
      rw [hinserted, hhanded, map_append, append_assoc]
      exact honce
    case order =>
      rw [hinserted, hhanded, map_append, append_assoc]
      exact horder
    case pending =>
      intro t'
      have hheld : s'.held q t' = s.held q t' := held_eq (by rw [hthreads])
      rw [hhanded, hreturned, hheld, filter_append, filter_append, h.here.pending]
      by_cases ht : t' = t
      · -- The thread is outside, and holds nothing besides.
        rw [ht, held_outside (by rw [h.place]; exact Place.noConfusion), append_nil,
          append_nil]
      · simp [Ne.symm ht]
  · rw [hqueue] at hwaits ⊢
    have hle := h.room (by rw [hentries]; exact cons_ne_nil e rest) hwaits
    push_cast at hle ⊢
    omega

theorem Joined.wait (h : Joined s t q)
    (hnone : (s.queues q).entryList = [] ∨
      ((s.queues q).maximumCount : Int) ≤ (s.queues q).currentCount) : (s.park t q).Inv := by
  rw [park]
  generalize hs' : setQueue _ q _ = s'
  obtain ⟨hlocal, hself, hqueue, hlog⟩ := local_set hs'
  have hother := hlocal.threads
  have hplace := not_removing h.place
  refine hlocal.inv (.inr ⟨h.queue, by rw [hself]; exact h.queue⟩) h.threads ?_ h.others h.busy ?_
    fun hentries _ => ?_
  · rw [hself]
    exact ⟨Place.noConfusion, Place.noConfusion, fun _ => ⟨by rw [h.queue]; rfl, fun _ => h.status,
      ThreadState.noConfusion⟩⟩
  · refine h.here.relist hqueue (fun t' => ?_) h.here.nodup (fun t' => ?_)
      (nodup_concat h.here.waitNodup fun hr => hplace ((h.here.waiters t).1 hr).2.1)
      ?_ (hlog q).inserted (hlog q).handed fun t' => (hlog q).pending ?_
    · rw [same_of_other hother (·.queue) (by rw [hself])]
      exact h.here.members t'
    · rw [mem_append, mem_singleton, h.here.waiters]
      by_cases ht : t' = t
      · rw [ht, hself]
        exact iff_of_true (.inr rfl) ⟨h.queue, rfl, rfl⟩
      · rw [hother t' ht]
        exact or_iff_left ht
    · rw [countP_stopped hother (by rw [hself])]
      exact h.here.count
    · by_cases ht : t' = t
      · rw [ht, held_outside hplace, held, hself, h.status]
        simp
      · exact held_eq (hother t' ht)
  · grind

/-- A thread of the queue starts `KeRemoveQueue` again. -/
theorem Dispatcher.Inv.rejoin (h : s.Inv) (hplace : (s.threads t).place = .outside)
    (hq : (s.threads t).queue = some q) :
    ∃ s', joinQueue s t q = some s' ∧ Joined s' t q ∧ ∀ q, SameLog s s' q := by
  rw [joinQueue, if_pos hq]
  refine ⟨_, rfl, ?_⟩
  generalize hs' : setQueue _ q _ = s'
  obtain ⟨hlocal, hself, hqueue, hlog⟩ := local_set hs'
  have hother := hlocal.threads
  have hqueue : s'.queues q = { s.queues q with
      currentCount := (s.queues q).currentCount - 1 } := hqueue
  have hne := not_removing hplace
  have hactive := (h.threads t).outside hplace
  refine ⟨⟨threadInv_of_other hother h.threads ?_, ?_, ?_,
    fun q' hq' => hlocal.queueInv (.inr ⟨hq, by rw [hself]⟩) hq' (h.queues q'),
    fun q' hq' => (h.busy q').of_eq (hlocal.queues q' hq'), by rw [hself],
    by rw [hself]; exact hplace, by rw [hself]⟩, hlog⟩
  · rw [hself]
    exact .of_outside hplace hactive
  · refine (h.queues q).setThread hother (by rw [hself, hq]) hne (by rw [hself]; exact hne) hqueue ?_
      (hlog q)
    rw [countP_of_other hother (by rw [hself]), (h.queues q).count,
      (h.queues q).countP_out hq hactive]
    omega
  · intro hentries hwaits
    rw [hqueue] at hentries hwaits ⊢
    have hle := h.busy q hentries hwaits
    push_cast at hle ⊢
    omega

/-- A thread leaves its previous queue, if it has one, where an entry may be released; it is on the
    list of no queue then. -/
theorem Dispatcher.Inv.leave (h : s.Inv) (hplace : (s.threads t).place = .outside)
    (hq : (s.threads t).queue ≠ some q) {s1 : Dispatcher} (hs1 : s1 = s.setThread t
      { s.threads t with waitStatus := none, waitReason := .wrQueue, queue := some q }) :
    ∃ s2, leaveQueue s1 t (s.threads t).queue = some s2 ∧ (∀ t, ThreadInv (s2.threads t)) ∧
      (∀ q', q' ≠ q → QueueInv s2 q' none 0 ∧ Busy s2 q' 0) ∧
      s2.threads t = s1.threads t ∧
      (∀ t', t' ≠ t → (s.threads t').queue = some q ∨ (s2.threads t').queue = some q →
        s2.threads t' = s.threads t') ∧
      s2.queues q = s.queues q ∧ SameLog s s2 q ∧ s.Limited s2 := by
  obtain ⟨hself, hother, hqueues1, hlog⟩ := only_thread hs1.symm
  have hne := not_removing hplace
  have hactive := (h.threads t).outside hplace
  have hthreads : ∀ t', ThreadInv (s1.threads t') := by
    refine threadInv_of_other hother h.threads ?_
    rw [hself]
    exact .of_outside hplace hactive
  -- A queue that the thread neither leaves nor joins sees nothing of this.
  have hrest : ∀ q', q' ≠ q → (s.threads t).queue ≠ some q' → QueueInv s1 q' none 0 := by
    intro q' hq' hprev
    refine (h.queues q').recount (by rw [hqueues1]) (h.queues q').count (hlog q')
      fun t' ht' => hother t' fun heq => ?_
    rw [heq, hself] at ht'
    exact ht'.elim hprev fun hc => hq' (some.inj hc).symm
  cases hprev : (s.threads t).queue with
  | none =>
    refine ⟨s1, rfl, hthreads, fun q' hq' => ⟨hrest q' hq' ?_, (h.busy q').of_eq (by rw [hqueues1])⟩,
      rfl, fun t' ht _ => hother t' ht, by rw [hqueues1], hlog q, limited_of_log hlog⟩
    rw [hprev]
    exact (some_ne_none q').symm
  | some p =>
    have hpq : p ≠ q := fun heq => hq (heq ▸ hprev)
    obtain ⟨s1', hs1'⟩ : ∃ s1', s1' = s1.setQueue p
      { s1.queues p with threadList := (s1.queues p).threadList.erase t } := ⟨_, rfl⟩
    have hsame : s1'.threads = s1.threads := by
      rw [hs1']
      rfl
    obtain ⟨hlocal, -, hqueue, hlog'⟩ := local_set (show _ = s1' by rw [hs1', hs1])
    have hleft : QueueInv s1' p none 1 := by
      refine (h.queues p).depart hprev hactive hne (fun t' ht => by rw [hsame]; exact hother t' ht) ?_
        hqueue (hlog' p)
      rw [hsame, hself]
      exact fun heq => hpq (some.inj heq).symm
    have hbusy : Busy s1' p 0 := by
      intro hentries hwaits
      rw [hqueue] at hentries hwaits ⊢
      exact h.busy p hentries hwaits
    obtain ⟨s2, hactivate, hinv, hbusy2, hthreads2, htouches, hlimit⟩ :=
      kiActivateWaiterQueue_spec hleft hbusy (fun t' => by rw [hsame]; exact hthreads t')
        fun t' ht' => absurd ht'.symm (some_ne_none t')
    have hkeep : s2.threads t = s1.threads t := by
      rw [htouches.active t (by rw [hsame, hself]; exact hactive), hsame]
    refine ⟨s2, ?_, hthreads2, fun q' hq' => ?_, hkeep, fun t' ht hqt => ?_, ?_, ⟨?_, ?_, ?_⟩,
      fun q' hchange => ?_⟩
    · show kiActivateWaiterQueue (s1.setQueue p
        { s1.queues p with threadList := (s1.queues p).threadList.erase t }) p = some s2
      rw [← hs1']
      exact hactivate
    · by_cases hp : q' = p
      · rw [hp]
        exact ⟨hinv, hbusy2⟩
      refine ⟨htouches.queueInv hp ?_, (h.busy q').of_eq ((htouches.queues q' hp).trans (hlocal.queues q' hp))⟩
      have hinv1 := hrest q' hq' fun heq => hp (some.inj (heq.symm.trans hprev))
      rw [hs1']
      exact hinv1.recount (setQueue_queues_ne hp _) hinv1.count ⟨rfl, rfl, rfl⟩ fun t' _ => rfl
    · have hqueue' : (s1'.threads t').queue = some q := by
        rcases hqt with hqt | hqt
        · rw [hsame, hother t' ht]
          exact hqt
        · rw [← htouches.queue t']
          exact hqt
      rw [htouches.others t' fun heq => hpq (some.inj (heq.symm.trans hqueue')), hsame,
        hother t' ht]
    · exact (htouches.queues q hpq.symm).trans (hlocal.queues q hpq.symm)
    · rw [htouches.inserted, (hlog' q).inserted]
    · rw [htouches.handed q hpq.symm, (hlog' q).handed]
    · rw [htouches.returned, (hlog' q).returned]
    · exact hlimit q' (by rw [(hlog' q').handed]; exact hchange)

theorem Dispatcher.Inv.join (h : s.Inv) (hplace : (s.threads t).place = .outside)
    (hq : (s.threads t).queue ≠ some q) :
    ∃ s', joinQueue s t q = some s' ∧ Joined s' t q ∧ s'.handed q = s.handed q ∧ s.Limited s' := by
  obtain ⟨s2, hleave, hthreads, hothers, hself, hother, hqueue, hlog, hlimit⟩ := h.leave hplace hq rfl
  rw [joinQueue, if_neg hq, hleave]
  refine ⟨_, rfl, ?_⟩
  -- after the thread has left its old queue, only the list of the new one changes
  generalize hs' : setQueue _ q _ = s'
  have hsame : s'.threads = s2.threads := by
    rw [← hs']
    rfl
  have hself' : s'.threads t = { s.threads t with
      waitStatus := none, waitReason := .wrQueue, queue := some q } := by
    rw [hsame, hself]
    exact setThread_threads_self _
  have hqueue' : s'.queues q = { s.queues q with threadList := (s.queues q).threadList ++ [t] } := by
    rw [← hs', ← hqueue]
    exact setQueue_queues_self _
  have hqueues : ∀ q', q' ≠ q → s'.queues q' = s2.queues q' := fun q' hq' => by
    rw [← hs']
    exact setQueue_queues_ne hq' _
  have hhanded' : s'.handed = s2.handed := by
    rw [← hs']
    rfl
  refine ⟨⟨fun t' => by rw [hsame]; exact hthreads t', ?_, ?_, fun q' hq' => ?_, fun q' hq' => ?_,
    by rw [hself'], by rw [hself']; exact hplace, by rw [hself']⟩, by rw [hhanded', hlog.handed],
    fun q' hchange => ?_⟩
  · refine (h.queues q).arrive hq (fun t' ht hqt => ?_) (by rw [hself']) ?_ hqueue' ?_
    · rw [hsame] at hqt ⊢
      exact hother t' ht hqt
    · rw [hself', hplace]
      exact Place.noConfusion
    · rw [← hs']
      exact ⟨hlog.inserted, hlog.handed, hlog.returned⟩
  · intro hentries hwaits
    rw [hqueue'] at hentries hwaits ⊢
    have hle := h.busy q hentries hwaits
    push_cast at hle ⊢
    omega
  · rw [← hs']
    exact (hothers q' hq').1.recount (setQueue_queues_ne hq' _) (hothers q' hq').1.count ⟨rfl, rfl, rfl⟩
      fun t' _ => rfl
  · exact (hothers q' hq').2.of_eq (hqueues q' hq')
  · have hq' : q' ≠ q := fun heq => hchange (by rw [heq, hhanded', hlog.handed])
    rw [hqueues q' hq']
    exact hlimit q' (by rw [← hhanded']; exact hchange)

theorem takeOrWait_cases (s : Dispatcher) (t : ThreadId) (q : QueueId) :
    (∃ e rest, (s.queues q).entryList = e :: rest ∧
      (s.queues q).currentCount < (s.queues q).maximumCount ∧
      (takeOrWait s t q).1 = s.take t q e) ∨
    (((s.queues q).entryList = [] ∨ ((s.queues q).maximumCount : Int) ≤ (s.queues q).currentCount) ∧
      (takeOrWait s t q).1 = s.park t q) := by
  by_cases hlt : (s.queues q).currentCount < (s.queues q).maximumCount
  · cases hentries : (s.queues q).entryList with
    | nil =>
      refine .inr ⟨.inl rfl, ?_⟩
      simp only [takeOrWait, if_pos hlt, hentries, head?_nil, park]
      rfl
    | cons e rest =>
      refine .inl ⟨e, rest, rfl, hlt, ?_⟩
      simp only [takeOrWait, if_pos hlt, hentries, head?_cons, Dispatcher.take]
  · refine .inr ⟨.inr (by omega), ?_⟩
    simp only [takeOrWait, if_neg hlt]
    rfl

/-- `KeRemoveQueue` returns an entry or waits; the limit is kept. -/
theorem Joined.takeOrWait (h : Joined s t q) :
    (takeOrWait s t q).1.Inv ∧ s.Limited (takeOrWait s t q).1 ∧
      ∀ q', q' ≠ q → (takeOrWait s t q).1.handed q' = s.handed q' ∧
        (takeOrWait s t q).1.queues q' = s.queues q' := by
  rcases takeOrWait_cases s t q with ⟨e, rest, hentries, hlt, heq⟩ | ⟨hnone, heq⟩
  · rw [heq]
    refine ⟨h.take hentries, fun q' hchange => ?_, fun q' hq' =>
      ⟨if_neg hq', setQueue_queues_ne hq' _⟩⟩
    by_cases hq' : q' = q
    · rw [hq']
      show ((s.setQueue q _).queues q).currentCount ≤ ((s.setQueue q _).queues q).maximumCount
      rw [setQueue_queues_self]
      show (s.queues q).currentCount + 1 ≤ ((s.queues q).maximumCount : Int)
      omega
    · exact absurd (if_neg hq') hchange
  · rw [heq]
    exact ⟨h.wait hnone, fun q' hchange => absurd rfl hchange, fun q' hq' =>
      ⟨rfl, setQueue_queues_ne hq' _⟩⟩

theorem Dispatcher.Inv.remove (h : s.Inv) (hplace : (s.threads t).place = .outside) (q : QueueId) :
    ∃ s' e, keRemoveQueue s t q = some (s', e) ∧ s'.Inv ∧ s.Limited s' := by
  obtain ⟨s1, hjoin, hjoined, hhanded, hlimit⟩ : ∃ s1, joinQueue s t q = some s1 ∧ Joined s1 t q ∧
      s1.handed q = s.handed q ∧ s.Limited s1 := by
    by_cases hq : (s.threads t).queue = some q
    · obtain ⟨s1, hjoin, hjoined, hlog⟩ := h.rejoin hplace hq
      exact ⟨s1, hjoin, hjoined, (hlog q).handed, limited_of_log hlog⟩
    · exact h.join hplace hq
  obtain ⟨hinv, htaken, hothers⟩ := hjoined.takeOrWait
  refine ⟨_, _, by rw [keRemoveQueue, hjoin]; rfl, hinv, fun q' hchange => ?_⟩
  by_cases hq' : q' = q
  · rw [hq'] at hchange ⊢
    exact htaken q (by rw [hhanded]; exact hchange)
  · rw [(hothers q' hq').2]
    exact hlimit q' (by rw [← (hothers q' hq').1]; exact hchange)

end Calls

/-! ## Section 4: Whole runs -/

variable {s : Dispatcher}

/-- Every call that may be made goes through; only a stale insertion breaks the invariant. -/
theorem Dispatcher.Inv.call (h : s.Inv) {c : QueueCall} (hc : s.Legal c)
    (hfresh : ¬ s.Stale c) : ∃ s', s.call c = some s' ∧ s'.Inv ∧ s.Limited s' := by
  cases c with
  | insert current q address head =>
    obtain ⟨hlimit, hinv⟩ := h.insert current q address head
    exact ⟨_, rfl, hinv hfresh, hlimit⟩
  | remove t q =>
    obtain ⟨s', e, heq, hinv, hlimit⟩ := h.remove hc q
    exact ⟨s', by rw [Dispatcher.call, heq]; rfl, hinv, hlimit⟩
  | resume t =>
    obtain ⟨s', e, heq, hinv, hlimit⟩ := h.resume hc.1 hc.2
    exact ⟨s', by rw [Dispatcher.call, heq]; rfl, hinv, hlimit⟩
  | block t => exact h.block hc
  | unblock t => exact h.unblock hc
  | pass t => exact ⟨_, rfl, h.pass hc, fun q hchange => absurd rfl hchange⟩

theorem Dispatcher.Inv.init (h : queueSystem.init s) : s.Inv := by
  obtain ⟨count, keNumberProcessors, rfl⟩ := h
  refine ⟨fun t => ?_, fun q => ?_, fun q hentries => absurd rfl hentries⟩
  · exact ⟨fun _ => rfl, Place.noConfusion, Place.noConfusion⟩
  · constructor
    case members => exact fun t => iff_of_false not_mem_nil (some_ne_none q).symm
    case nodup => exact nodup_nil
    case waiters =>
      exact fun t => iff_of_false not_mem_nil fun hc => (some_ne_none q).symm hc.1
    case waitNodup => exact nodup_nil
    case count => rfl
    case signal => rfl
    case once => exact List.Perm.refl _
    case order => rfl
    case pending => exact fun t => rfl

theorem reachable_inv (hs : Reachable queueSystem (fun s c => ¬ s.Stale c) s) : s.Inv := by
  refine hs.invariant_of_steps (fun _ h => .init h) fun s c h hlegal hfresh => ?_
  obtain ⟨s', hcall, hinv, -⟩ := h.call hlegal hfresh
  exact ⟨s', (), map_eq_some_iff.2 ⟨s', hcall, rfl⟩, hinv⟩

/-- The threads of a queue that are not waiting. -/
def Dispatcher.activeThreads (s : Dispatcher) (q : QueueId) : Nat :=
  (s.queues q).threadList.countP fun t => (s.threads t).state = .active

/-- What a queue is for.  Its thread list has the associated threads; each entry is in the list or
    was handed out once, in order if it came in at the tail; a thread has returned with what it was
    handed, but for what it still holds; the count is right; and no work is stranded. -/
structure QueueOk (s : Dispatcher) (q : QueueId) : Prop where
  members : ∀ t, t ∈ (s.queues q).threadList ↔ (s.threads t).queue = some q
  nodup : (s.queues q).threadList.Nodup
  once : (s.inserted q).Perm ((s.handed q).map (·.2) ++ (s.queues q).entryList)
  order : ((s.handed q).map (·.2) ++ (s.queues q).entryList).filter (·.atTail) =
    (s.inserted q).filter (·.atTail)
  returned : ∀ t, (s.handed q).filter (fun p => p.1 = t) =
    (s.returned q).filter (fun p => p.1 = t) ++ s.held q t
  count : (s.queues q).currentCount = s.activeThreads q
  busy : (s.queues q).entryList ≠ [] → (s.queues q).waitList ≠ [] →
    (s.queues q).maximumCount ≤ s.activeThreads q

theorem Dispatcher.Inv.count_eq (h : s.Inv) (q : QueueId) :
    (s.queues q).currentCount = s.activeThreads q := by
  have hcounts : s.counts none = fun t => decide ((s.threads t).state = .active) := by
    funext t
    simp [counts]
  rw [(h.queues q).count, hcounts]
  exact Int.add_zero _

theorem Dispatcher.Inv.queueOk (h : s.Inv) (q : QueueId) : QueueOk s q where
  members := (h.queues q).members
  nodup := (h.queues q).nodup
  once := (h.queues q).once
  order := (h.queues q).order
  returned := (h.queues q).pending
  count := h.count_eq q
  busy := fun hentries hwaits => by
    have hle := h.busy q hentries hwaits
    rw [h.count_eq q] at hle
    omega

/-- A stale insertion strands its entry. -/
theorem not_queueOk_of_stale {c : QueueCall} (hstale : s.Stale c)
    (hcall : s.call c = some s') : ¬ ∀ q, QueueOk s' q := by
  intro hok
  cases c with
  | insert current q address head =>
    obtain ⟨hq, hreason, hlt, hwaits⟩ := hstale
    have heq : s' = s.enqueue q ⟨address, !head⟩ head := by
      rw [← some.inj hcall]
      simp only [kiInsertQueue, hq, hreason, ne_eq, not_true_eq_false, or_self, and_false, if_false]
      rfl
    have hqueue : (s.enqueue q ⟨address, !head⟩ head).queues q = _ := setQueue_queues_self _
    rw [heq] at hok
    have hbusy := (hok q).busy (by rw [hqueue]; cases head <;> simp) (by rw [hqueue]; exact hwaits)
    have hcount := (hok q).count
    rw [hqueue] at hbusy hcount
    dsimp only at hbusy hcount
    omega
  | remove t q => exact hstale
  | resume t => exact hstale
  | block t => exact hstale
  | unblock t => exact hstale
  | pass t => exact hstale

/-- In every run without a stale insertion the queues deliver; every call that may be made goes
    through, an entry is handed out within the limit only, and what the call leaves is in order
    exactly if it is not a stale insertion. -/
theorem queue_delivers {s : Dispatcher} (hs : Reachable queueSystem (fun s c => ¬ s.Stale c) s) :
    (∀ q, QueueOk s q) ∧ ∀ c, s.Legal c → (∀ s', s.call c = some s' →
      ((∀ q, QueueOk s' q) ↔ ¬ s.Stale c)) ∧
      (¬ s.Stale c → ∃ s', s.call c = some s' ∧ ∀ q, s'.handed q ≠ s.handed q →
        s'.activeThreads q ≤ (s'.queues q).maximumCount) := by
  have h := reachable_inv hs
  refine ⟨h.queueOk, fun c hc => ⟨fun s' hcall => ⟨fun hok hstale => ?_, fun hfresh => ?_⟩,
    fun hfresh => ?_⟩⟩
  · exact not_queueOk_of_stale hstale hcall hok
  · obtain ⟨s'', hcall', hinv, -⟩ := h.call hc hfresh
    rw [some.inj (hcall.symm.trans hcall')]
    exact hinv.queueOk
  · obtain ⟨s', hcall, hinv, hlimit⟩ := h.call hc hfresh
    refine ⟨s', hcall, fun q hchange => ?_⟩
    have hle := hlimit q hchange
    rw [hinv.count_eq q] at hle
    omega

instance : ∀ s c, Decidable (queueSystem.legal s c) :=
  inferInstanceAs (∀ (s : Dispatcher) (c : QueueCall), Decidable (s.Legal c))

/-- Queues with a limit of two, and no thread on them. -/
def twoAtATime : Dispatcher :=
  ⟨fun _ => newThread, fun _ => keInitializeQueue 2 1, fun _ => [], fun _ => [], fun _ => []⟩

theorem init_twoAtATime : queueSystem.init twoAtATime := ⟨fun _ => 2, 1, rfl⟩

/-- A thread waits, is handed an entry, and returns with it; another takes one from the list. -/
theorem queue_delivers_both :
    ∃ s, Reachable queueSystem (fun s c => ¬ s.Stale c) s ∧
      s.returned 0 = [(1, ⟨10, true⟩), (2, ⟨11, true⟩)] ∧ ∀ q, QueueOk s q := by
  obtain ⟨s, hs, hreturned⟩ := Reachable.exists_of_run
    (S := queueSystem.restrict fun s c => ¬ s.Stale c) (s := twoAtATime)
    [.remove 1 0, .insert 3 0 10 false, .resume 1, .insert 3 0 11 false, .remove 2 0]
    (fun s => s.returned 0 = [(1, ⟨10, true⟩), (2, ⟨11, true⟩)])
    (.init init_twoAtATime) (by decide)
  exact ⟨s, hs.of_restrict, of_decide_eq_true hreturned, (queue_delivers hs.of_restrict).1⟩

/-- Thread 1 takes an entry without a wait and keeps the wait reason `WrQueue`.  Thread 2 waits.  What
    thread 1 inserts now stays in the list, though one thread waits and only one of two is active;
    the entry that thread 3 inserts after it is delivered first. -/
theorem stale_insert_stranded :
    ∃ s, Reachable queueSystem (fun _ _ => True) s ∧ s.activeThreads 0 = 1 ∧
      (s.queues 0).maximumCount = 2 ∧ (s.queues 0).waitList = [2] ∧
      (s.queues 0).entryList = [⟨11, true⟩] ∧
      (∃ s', s.call (.insert 3 0 12 false) = some s' ∧
        s'.handed 0 = [(1, ⟨10, true⟩), (2, ⟨12, true⟩)] ∧
        s'.inserted 0 = [⟨10, true⟩, ⟨11, true⟩, ⟨12, true⟩]) ∧ ¬ ∀ q, QueueOk s q := by
  obtain ⟨s, hs, hp⟩ := Reachable.exists_of_run (S := queueSystem) (s := twoAtATime)
    [.insert 3 0 10 false, .remove 1 0, .remove 2 0, .insert 1 0 11 false]
    (fun s => s.activeThreads 0 = 1 ∧ (s.queues 0).maximumCount = 2 ∧
      (s.queues 0).waitList = [2] ∧ (s.queues 0).entryList = [⟨11, true⟩] ∧
      (kiInsertQueue s 3 0 12 false).1.handed 0 = [(1, ⟨10, true⟩), (2, ⟨12, true⟩)] ∧
      (kiInsertQueue s 3 0 12 false).1.inserted 0 = [⟨10, true⟩, ⟨11, true⟩, ⟨12, true⟩])
    (.init init_twoAtATime) (by decide)
  obtain ⟨hactive, hmax, hwaits, hentries, hhanded, hinserted⟩ := of_decide_eq_true hp
  refine ⟨s, hs, hactive, hmax, hwaits, hentries, ⟨_, rfl, hhanded, hinserted⟩, fun hok => ?_⟩
  have hbusy := (hok 0).busy (by rw [hentries]; decide) (by rw [hwaits]; decide)
  omega

end Ke
