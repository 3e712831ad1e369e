import Mathlib.Algebra.Group.Nat.Defs
import Mathlib.Data.List.Basic

/-! # Data queues of named pipes

    The two data queues of a pipe (`drivers/filesystems/npfs`: `datasup.c`, `readsup.c`,
    `writesup.c`, `read.c`, `write.c` and the write half of `NpTransceive` in `fsctrl.c`).  A queue
    holds reads that wait for data or writes that wait to be read, and switches between the two as
    it runs empty.  Each entry is charged against the quota of the queue; a write that the quota
    does not cover keeps its request until `NpCompleteStalledWrites` finds the room.

    The counters are `ULONG`s: their sums and differences wrap.  The requests that an operation
    completes are what it puts on the deferred list.  What the pool and the security package answer
    is part of the call.  Left out are the security contexts themselves, the events that are
    signalled, the cancellation of a request, flushes and disconnects, and reads with
    `ReadOverflowOperation`, which `NpInternalRead` refuses to start. -/

namespace Npfs

/-! ## Section 1: Queues -/

abbrev Byte := UInt8

/-- The difference of two `ULONG`s. -/
def ulongSub (a b : Nat) : Nat := (a + 2 ^ 32 - b) % 2 ^ 32

/-- The sum of two `ULONG`s. -/
def ulongAdd (a b : Nat) : Nat := (a + b) % 2 ^ 32

inductive NtStatus where
  | success
  | pending
  | bufferOverflow
  | moreProcessingRequired
  | insufficientResources
  | invalidParameter
  | badImpersonationLevel
  | pipeEmpty
  | pipeBroken
  deriving DecidableEq, Repr

/-- `FILE_PIPE_BYTE_STREAM_MODE` and `FILE_PIPE_MESSAGE_MODE`, also as the types of a pipe. -/
inductive PipeMode where
  | byteStream
  | message
  deriving DecidableEq, Repr

/-- `NP_DATA_QUEUE_STATE`. -/
inductive QueueState where
  | readEntries
  | writeEntries
  | empty
  deriving DecidableEq, Repr

/-- `NP_DATA_QUEUE_ENTRY_TYPE`, with the two further values that the code passes or accepts. -/
inductive EntryType where
  | buffered
  | unbuffered
  | flush
  | unused
  deriving DecidableEq, Repr

/-- A request that waits.  `cancelling` is set once a cancellation has taken its cancel routine:
    then `IoSetCancelRoutine` finds none. -/
structure Irp where
  cancelling : Bool
  deriving DecidableEq, Repr

/-- `NP_DATA_QUEUE_ENTRY`, and the bytes behind it or in the buffer of its request. -/
structure DataEntry where
  dataEntryType : EntryType
  irp : Option Irp
  quotaInEntry : Nat
  dataSize : Nat
  data : List Byte
  deriving DecidableEq, Repr

/-- `NP_DATA_QUEUE`. -/
structure DataQueue where
  entries : List DataEntry
  queueState : QueueState
  bytesInQueue : Nat
  entriesInQueue : Nat
  quotaUsed : Nat
  byteOffset : Nat
  quota : Nat
  deriving DecidableEq, Repr

/-- A request that is completed: a read with the bytes that it gets, or another request. -/
inductive Completion where
  | read (status : NtStatus) (data : List Byte)
  | other (status : NtStatus) (information : Nat)
  deriving DecidableEq, Repr

/-- `NpInitializeDataQueue`. -/
def npInitializeDataQueue (quota : Nat) : DataQueue :=
  { entries := [], queueState := .empty, bytesInQueue := 0, entriesInQueue := 0, quotaUsed := 0
    byteOffset := 0, quota := quota }

/-- An entry with data or for data, which `NpGetNextRealDataQueueEntry` stops at. -/
def DataEntry.Real (e : DataEntry) : Prop :=
  e.dataEntryType = .buffered ∨ e.dataEntryType = .unbuffered

instance (e : DataEntry) : Decidable e.Real := inferInstanceAs (Decidable (_ ∨ _))

/-! ## Section 2: Removal and quota -/

/-- The charge of a stalled write with `dataLeft` bytes to be read: the entry, and the quota that is
    left. -/
def chargeWrite (quotaLeft dataLeft : Nat) (irp : Irp) (e : DataEntry) :
    DataEntry × Nat × List Completion :=
  if e.quotaInEntry < dataLeft then
    let newQuotaLeft := min (dataLeft - e.quotaInEntry) quotaLeft
    let quotaInEntry := e.quotaInEntry + newQuotaLeft
    if quotaInEntry = dataLeft ∧ irp.cancelling = false then
      ({ e with quotaInEntry := quotaInEntry, irp := none }, quotaLeft - newQuotaLeft,
        [.other .success e.dataSize])
    else ({ e with quotaInEntry := quotaInEntry }, quotaLeft - newQuotaLeft, [])
  else (e, quotaLeft, [])

/-- The body of the loop of `NpCompleteStalledWrites`. -/
def topUp (quotaLeft byteOffset : Nat) (e : DataEntry) : DataEntry × Nat × List Completion :=
  match e.irp with
  | some irp =>
    if e.dataEntryType = .buffered then
      chargeWrite quotaLeft (ulongSub e.dataSize byteOffset) irp e
    else (e, quotaLeft, [])
  | none => (e, quotaLeft, [])

/-- The loop of `NpCompleteStalledWrites`. -/
def stalledLoop : Nat → Nat → List DataEntry → List DataEntry × Nat × List Completion
  | quotaLeft, _, [] => ([], quotaLeft, [])
  | quotaLeft, byteOffset, e :: es =>
    if quotaLeft = 0 then (e :: es, quotaLeft, [])
    else
      let (e, quotaLeft, done) := topUp quotaLeft byteOffset e
      let (es, quotaLeft, done') := stalledLoop quotaLeft 0 es
      (e :: es, quotaLeft, done ++ done')

/-- `NpCompleteStalledWrites`. -/
def npCompleteStalledWrites (q : DataQueue) : DataQueue × List Completion :=
  let (entries, quotaLeft, done) := stalledLoop (ulongSub q.quota q.quotaUsed) q.byteOffset q.entries
  ({ q with entries := entries, quotaUsed := ulongSub q.quota quotaLeft }, done)

/-- `NpRemoveDataQueueEntry`; `next` is the call that its `Flag` asks for.  The byte offset is
    cleared after the stalled writes have been looked at. -/
def removeEntry (next : DataQueue → Option (DataQueue × List Completion)) (q : DataQueue) :
    Option (Option Irp × DataQueue × List Completion) :=
  if q.queueState = .empty then some (none, { q with byteOffset := 0 }, [])
  else
    match q.entries with
    | [] => none
    | e :: rest => do
      let hasWrites := decide (q.queueState = .writeEntries ∧ ¬ q.quotaUsed < q.quota ∧
        e.quotaInEntry ≠ 0 ∧ rest ≠ [])
      let q := { q with
        entries := rest
        bytesInQueue := ulongSub q.bytesInQueue e.dataSize
        entriesInQueue := ulongSub q.entriesInQueue 1
        quotaUsed := ulongSub q.quotaUsed e.quotaInEntry
        queueState := if rest = [] then .empty else q.queueState }
      let irp := e.irp.filter fun irp => !irp.cancelling
      let (q, done) ← next q
      let (q, done') := if hasWrites then npCompleteStalledWrites q else (q, [])
      return (irp, { q with byteOffset := 0 }, done ++ done')

/-- `NpGetNextRealDataQueueEntry`: flush requests at the head are completed. -/
def npGetNextRealDataQueueEntry : Nat → DataQueue → Option (DataQueue × List Completion)
  | 0, _ => none
  | fuel + 1, q =>
    match q.entries with
    | [] => some (q, [])
    | e :: _ =>
      if e.Real then some (q, [])
      else do
        let (irp, q, done) ← removeEntry (fun q => some (q, [])) q
        let completed := if irp.isSome then [Completion.other .success 0] else []
        let (q, done') ← npGetNextRealDataQueueEntry fuel q
        return (q, done ++ completed ++ done')

/-- The next entry, with enough steps for all that are there. -/
def nextReal (q : DataQueue) : Option (DataQueue × List Completion) :=
  npGetNextRealDataQueueEntry (q.entries.length + 1) q

/-- `NpRemoveDataQueueEntry` with `Flag`. -/
def npRemoveDataQueueEntry (q : DataQueue) : Option (Option Irp × DataQueue × List Completion) :=
  removeEntry nextReal q

/-! ## Section 3: Adding an entry -/

/-- How an addition can fail: the security context, and the memory for the entry. -/
structure AddEnv where
  context : Option NtStatus
  memory : Option NtStatus
  deriving DecidableEq, Repr

/-- The end of `NpAddDataQueueEntry`. -/
def insertEntry (q : DataQueue) (who : QueueState) (byteOffset : Nat) (e : DataEntry) : DataQueue :=
  { q with
    quotaUsed := ulongAdd q.quotaUsed e.quotaInEntry
    queueState := who
    bytesInQueue := ulongAdd q.bytesInQueue e.dataSize
    entriesInQueue := ulongAdd q.entriesInQueue 1
    byteOffset := if byteOffset ≠ 0 then byteOffset else q.byteOffset
    entries := q.entries ++ [e] }

/-- `NpAddDataQueueEntry`, without the cancellation of a request that is marked as cancelled
    already. -/
def npAddDataQueueEntry (q : DataQueue) (env : AddEnv) (who : QueueState) (type : EntryType)
    (dataSize : Nat) (irp : Option Irp) (data : List Byte) (byteOffset : Nat) :
    NtStatus × DataQueue :=
  match if type ≠ .flush ∧ who = .writeEntries then env.context else none with
  | some status => (status, q)
  | none =>
    match env.memory with
    | some status => (status, q)
    | none =>
      match type with
      | .buffered =>
        let quotaLeft := ulongSub q.quota q.quotaUsed
        let wanted := ulongSub dataSize byteOffset
        let hasSpace := decide (quotaLeft < wanted)
        let quotaInEntry := if quotaLeft < wanted then quotaLeft else wanted
        if who = .readEntries then
          (.pending, insertEntry q who byteOffset ⟨.buffered, irp, quotaInEntry, dataSize, []⟩)
        else if hasSpace ∧ irp.isSome then
          (.pending, insertEntry q who byteOffset ⟨.buffered, irp, quotaInEntry, dataSize, data⟩)
        else
          (.success, insertEntry q who byteOffset ⟨.buffered, none, quotaInEntry, dataSize, data⟩)
      | type => (.pending, insertEntry q who byteOffset ⟨type, irp, 0, dataSize, data⟩)

/-! ## Section 4: Reading -/

/-- What a read ends with: its status and data, and what it leaves to be done. -/
structure ReadOutcome where
  status : NtStatus
  data : List Byte
  completeWrites : Bool
  queue : DataQueue
  done : List Completion
  deriving DecidableEq, Repr

/-- The loop of `NpReadDataQueue` without `Peek`. -/
def readLoop (mode : PipeMode) : Nat → Nat → DataQueue → Option ReadOutcome
  | 0, _, _ => none
  | fuel + 1, remainingSize, q => do
    let (q, done) ← nextReal q
    match q.entries with
    | [] => return ⟨.success, [], false, q, done⟩
    | e :: rest =>
      if remainingSize = 0 then return ⟨.success, [], false, q, done⟩
      let offset := ulongSub e.dataSize q.byteOffset
      let dataLength := min offset remainingSize
      let data := (e.data.drop (e.dataSize - offset)).take dataLength
      let q := { q with
        entries := { e with quotaInEntry := ulongSub e.quotaInEntry dataLength } :: rest
        quotaUsed := ulongSub q.quotaUsed dataLength
        byteOffset := ulongAdd q.byteOffset dataLength }
      if offset - dataLength ≠ 0 then
        if mode = .message then return ⟨.bufferOverflow, data, true, q, done⟩
        let next ← readLoop mode fuel (remainingSize - dataLength) q
        return { next with
          data := data ++ next.data, completeWrites := true, done := done ++ next.done }
      else
        let (irp, q, done') ← npRemoveDataQueueEntry q
        let done := done ++ done' ++ if irp.isSome then [.other .success e.dataSize] else []
        if mode = .message then return ⟨.success, data, true, q, done⟩
        let next ← readLoop mode fuel (remainingSize - dataLength) q
        return { next with
          data := data ++ next.data, completeWrites := true, done := done ++ next.done }

/-- `NpReadDataQueue` without `Peek`. -/
def npReadDataQueue (q : DataQueue) (bufferSize : Nat) (mode : PipeMode) : Option ReadOutcome := do
  let outcome ← readLoop mode (q.entries.length + 2) bufferSize q
  if outcome.completeWrites then
    let (q, done) := npCompleteStalledWrites outcome.queue
    return { outcome with queue := q, done := outcome.done ++ done }
  return outcome

/-- The loop of `NpReadDataQueue` with `Peek`, from an entry on. -/
def peekLoop (mode : PipeMode) : Nat → Nat → List DataEntry → NtStatus × List Byte
  | _, _, [] => (.success, [])
  | remainingSize, byteOffset, e :: rest =>
    if remainingSize = 0 then (.success, [])
    else if e.Real then
      let offset := ulongSub e.dataSize byteOffset
      let dataLength := min offset remainingSize
      let data := (e.data.drop (e.dataSize - offset)).take dataLength
      if mode = .message then
        (if offset - dataLength ≠ 0 then .bufferOverflow else .success, data)
      else
        let (status, next) := peekLoop mode (remainingSize - dataLength) 0 rest
        (status, data ++ next)
    else peekLoop mode remainingSize 0 rest

/-- `NpReadDataQueue` with `Peek`, which leaves the queue as it is. -/
def npPeekDataQueue (q : DataQueue) (bufferSize : Nat) (mode : PipeMode) : NtStatus × List Byte :=
  peekLoop mode bufferSize q.byteOffset q.entries

/-! ## Section 5: Writing -/

/-- What a write meets: the answer to each allocation of a buffer, and the security context. -/
structure WriteEnv where
  buffers : Nat → Bool
  context : Option NtStatus

/-- What a write to the waiting reads ends with. -/
structure WriteOutcome where
  status : NtStatus
  bytesNotWritten : Nat
  queue : DataQueue
  done : List Completion
  deriving DecidableEq, Repr

/-- The loop of `NpWriteDataQueue`, which serves waiting reads.  The security context is asked for
    once, with the first of them. -/
def writeLoop (mode : PipeMode) (outBuffer : List Byte) (env : WriteEnv) :
    Nat → Nat → Bool → Bool → DataQueue → Option WriteOutcome
  | 0, _, _, _, _ => none
  | fuel + 1, bytesNotWritten, moreProcessing, haveContext, q => do
    let (q, done) ← nextReal q
    if ¬ (q.queueState = .readEntries ∧ (bytesNotWritten > 0 ∨ moreProcessing)) then
      let status := if bytesNotWritten > 0 ∨ moreProcessing then .moreProcessingRequired else .success
      return ⟨status, bytesNotWritten, q, done⟩
    match q.entries with
    | [] => none
    | e :: _ =>
      let bufferSize := min bytesNotWritten e.dataSize
      if e.dataEntryType ≠ .unbuffered ∧ bufferSize ≠ 0 ∧ env.buffers fuel = false then
        return ⟨.insufficientResources, bytesNotWritten, q, done⟩
      let buffer := (outBuffer.drop (outBuffer.length - bytesNotWritten)).take bufferSize
      match if haveContext then none else env.context with
      | some status => return ⟨status, bytesNotWritten, q, done⟩
      | none =>
        let (irp, q, done') ← npRemoveDataQueueEntry q
        match irp with
        | some _ =>
          let bytesNotWritten := bytesNotWritten - bufferSize
          let status := if bytesNotWritten ≠ 0 ∧ mode = .message then .bufferOverflow else .success
          let moreProcessing := if bytesNotWritten = 0 then false else moreProcessing
          let next ← writeLoop mode outBuffer env fuel bytesNotWritten moreProcessing true q
          return { next with done := done ++ done' ++ [.read status buffer] ++ next.done }
        | none =>
          let next ← writeLoop mode outBuffer env fuel bytesNotWritten moreProcessing true q
          return { next with done := done ++ done' ++ next.done }

/-- `NpWriteDataQueue`.  A message of no bytes still wants a read. -/
def npWriteDataQueue (q : DataQueue) (env : WriteEnv) (mode : PipeMode) (outBuffer : List Byte)
    (pipeType : PipeMode) : Option WriteOutcome :=
  let moreProcessing := decide (pipeType = .message ∧ outBuffer.length = 0)
  writeLoop mode outBuffer env (q.entries.length + 2) outBuffer.length moreProcessing false q

/-! ## Section 6: The requests of the two ends -/

/-- What a request to read brings: the mode of its end, whether the end does not wait
    (`FILE_PIPE_COMPLETE_OPERATION`), whether the pipe is closing, and whether there is an IRP. -/
structure ReadRequest where
  bufferSize : Nat
  mode : PipeMode
  completeOperation : Bool
  closing : Bool
  hasIrp : Bool
  env : AddEnv
  deriving DecidableEq, Repr

/-- What a request to read returns; `status` is missing if the fast path gives up. -/
structure ReadReply where
  status : Option NtStatus
  data : List Byte
  queue : DataQueue
  done : List Completion
  deriving DecidableEq, Repr

/-- `NpCommonRead`, from where the queue has been selected. -/
def npCommonRead (q : DataQueue) (r : ReadRequest) : Option ReadReply := do
  if q.queueState = .writeEntries then
    let outcome ← npReadDataQueue q r.bufferSize r.mode
    return ⟨some outcome.status, outcome.data, outcome.queue, outcome.done⟩
  if r.closing then return ⟨some .pipeBroken, [], q, []⟩
  if r.completeOperation then return ⟨some .pipeEmpty, [], q, []⟩
  if !r.hasIrp then return ⟨none, [], q, []⟩
  let (status, q) :=
    npAddDataQueueEntry q r.env .readEntries .buffered r.bufferSize (some ⟨false⟩) [] 0
  return ⟨some status, [], q, []⟩

/-- What a request to write brings. -/
structure WriteRequest where
  data : List Byte
  pipeType : PipeMode
  readMode : PipeMode
  completeOperation : Bool
  hasIrp : Bool
  env : WriteEnv
  addEnv : AddEnv

/-- What a request to write returns; `accepted` are the bytes that have gone to the reads or into
    the queue. -/
structure WriteReply where
  status : Option NtStatus
  information : Nat
  accepted : List Byte
  queue : DataQueue
  done : List Completion
  deriving DecidableEq, Repr

/-- The bytes that a write has handed on: those of the waiting reads, and the rest if it has been
    queued. -/
def acceptedBytes (data : List Byte) (bytesNotWritten : Nat) (queued : NtStatus) : List Byte :=
  if queued = .success ∨ queued = .pending then data
  else data.take (data.length - bytesNotWritten)

/-- The quota does not cover the write. -/
def exceedsQuota (q : DataQueue) (dataSize : Nat) : Bool :=
  decide ((q.queueState = .readEntries ∧ q.bytesInQueue < dataSize ∧
      q.quota < dataSize - q.bytesInQueue) ∨
    (q.queueState ≠ .readEntries ∧ ulongSub q.quota q.quotaUsed < dataSize))

/-- `NpCommonWrite`, from where the queue has been selected. -/
def npCommonWrite (q : DataQueue) (r : WriteRequest) : Option WriteReply := do
  let dataSize := r.data.length
  if exceedsQuota q dataSize ∧ r.pipeType = .message ∧ r.completeOperation then
    return ⟨some .success, 0, [], q, []⟩
  if exceedsQuota q dataSize ∧ !r.hasIrp then return ⟨none, dataSize, [], q, []⟩
  let outcome ← npWriteDataQueue q r.env r.readMode r.data r.pipeType
  let q := outcome.queue
  if outcome.status ≠ .moreProcessingRequired then
    return ⟨some outcome.status, dataSize,
      r.data.take (dataSize - outcome.bytesNotWritten), q, outcome.done⟩
  if (r.completeOperation ∨ !r.hasIrp) ∧
      ulongSub q.quota q.quotaUsed < outcome.bytesNotWritten then
    -- What the waiting reads have not taken is not written.
    return ⟨some .success, dataSize - outcome.bytesNotWritten,
      r.data.take (dataSize - outcome.bytesNotWritten), q, outcome.done⟩
  let irp := if r.hasIrp then some ⟨false⟩ else none
  let (status, q) := npAddDataQueueEntry q r.addEnv .writeEntries .buffered dataSize irp r.data
    (dataSize - outcome.bytesNotWritten)
  return ⟨some status, dataSize, acceptedBytes r.data outcome.bytesNotWritten status, q,
    outcome.done⟩

/-- What a transceive request brings to the queue that it writes to. -/
structure TransceiveRequest where
  data : List Byte
  pipeType : PipeMode
  env : WriteEnv
  newIrp : Bool
  buffer : Bool
  addEnv : AddEnv

/-- The write half of `NpTransceive`: the rest of the message is queued with a request of its own
    that holds the bytes. -/
def npTransceive (q : DataQueue) (r : TransceiveRequest) : Option WriteReply := do
  let inLength := r.data.length
  let outcome ← npWriteDataQueue q r.env .message r.data r.pipeType
  let q := outcome.queue
  let taken := r.data.take (inLength - outcome.bytesNotWritten)
  if outcome.status ≠ .moreProcessingRequired then
    return ⟨some outcome.status, 0, taken, q, outcome.done⟩
  if !r.newIrp ∨ (outcome.bytesNotWritten ≠ 0 ∧ !r.buffer) then
    return ⟨some .insufficientResources, 0, taken, q, outcome.done⟩
  let rest := r.data.drop (inLength - outcome.bytesNotWritten)
  let (status, q) := npAddDataQueueEntry q r.addEnv .writeEntries .unbuffered
    outcome.bytesNotWritten (some ⟨false⟩) rest 0
  let done := if status = .pending then [] else [.other status 0]
  return ⟨some status, 0, acceptedBytes r.data outcome.bytesNotWritten status, q,
    outcome.done ++ done⟩

/-! ## Section 7: Equations -/

section Equations

variable {q : DataQueue} {e : DataEntry} {rest : List DataEntry}

theorem nextReal_eq (h : ∀ e ∈ q.entries, e.Real) : nextReal q = some (q, []) := by
  rcases hq : q.entries with _ | ⟨e, rest⟩
  · simp only [nextReal, npGetNextRealDataQueueEntry, hq]
  · have hreal : e.Real := h e (by simp [hq])
    simp only [nextReal, npGetNextRealDataQueueEntry, hq, hreal, if_true]

/-- The queue without its first entry, before stalled writes are looked at. -/
def DataQueue.tail (q : DataQueue) (e : DataEntry) (rest : List DataEntry) : DataQueue :=
  { q with
    entries := rest
    bytesInQueue := ulongSub q.bytesInQueue e.dataSize
    entriesInQueue := ulongSub q.entriesInQueue 1
    quotaUsed := ulongSub q.quotaUsed e.quotaInEntry
    queueState := if rest = [] then .empty else q.queueState }

/-- The removal of a first entry lets stalled writes go on. -/
def DataQueue.HasWrites (q : DataQueue) (e : DataEntry) (rest : List DataEntry) : Prop :=
  q.queueState = .writeEntries ∧ ¬ q.quotaUsed < q.quota ∧ e.quotaInEntry ≠ 0 ∧ rest ≠ []

instance (q : DataQueue) (e : DataEntry) (rest : List DataEntry) : Decidable (q.HasWrites e rest) :=
  inferInstanceAs (Decidable (_ ∧ _))

theorem npRemoveDataQueueEntry_eq (hq : q.entries = e :: rest) (hstate : q.queueState ≠ .empty)
    (hreal : ∀ e ∈ rest, e.Real) :
    npRemoveDataQueueEntry q = some (e.irp.filter fun irp => !irp.cancelling,
      { (if q.HasWrites e rest then (npCompleteStalledWrites (q.tail e rest)).1
          else q.tail e rest) with byteOffset := 0 },
      if q.HasWrites e rest then (npCompleteStalledWrites (q.tail e rest)).2 else []) := by
  have hnext : nextReal (q.tail e rest) = some (q.tail e rest, []) := nextReal_eq hreal
  by_cases hw : q.HasWrites e rest
  · have hdec : decide (q.queueState = .writeEntries ∧ ¬ q.quotaUsed < q.quota ∧
        e.quotaInEntry ≠ 0 ∧ rest ≠ []) = true := decide_eq_true hw
    rw [npRemoveDataQueueEntry, removeEntry, if_neg hstate]
    simp only [hq, hdec, if_true, if_pos hw]
    show (nextReal (q.tail e rest)).bind _ = _
    rw [hnext]
    rfl
  have hdec : decide (q.queueState = .writeEntries ∧ ¬ q.quotaUsed < q.quota ∧
      e.quotaInEntry ≠ 0 ∧ rest ≠ []) = false := decide_eq_false hw
  rw [npRemoveDataQueueEntry, removeEntry, if_neg hstate]
  simp only [hq, hdec, if_neg hw]
  show (nextReal (q.tail e rest)).bind _ = _
  rw [hnext]
  rfl

theorem ulongAdd_eq {a b : Nat} (h : a + b < 2 ^ 32) : ulongAdd a b = a + b :=
  Nat.mod_eq_of_lt h

/-- The queue after `n` bytes have been copied out of its first entry. -/
def DataQueue.taken (q : DataQueue) (e : DataEntry) (rest : List DataEntry) (n : Nat) : DataQueue :=
  { q with
    entries := { e with quotaInEntry := ulongSub e.quotaInEntry n } :: rest
    quotaUsed := ulongSub q.quotaUsed n
    byteOffset := ulongAdd q.byteOffset n }

variable {mode : PipeMode} {fuel remainingSize : Nat}

/-- The loop of a read ends with the queue or with the buffer. -/
theorem readLoop_stop (hreal : ∀ e ∈ q.entries, e.Real)
    (hstop : q.entries = [] ∨ remainingSize = 0) :
    readLoop mode (fuel + 1) remainingSize q = some ⟨.success, [], false, q, []⟩ := by
  rw [readLoop, nextReal_eq hreal]
  simp only [bind, Option.bind_some]
  rcases hq : q.entries with _ | ⟨e, rest⟩
  · rfl
  · rw [hq] at hstop
    have h0 : remainingSize = 0 := hstop.resolve_left (List.cons_ne_nil e rest)
    simp only [h0, if_true, pure]

/-- The loop of a read takes from the first entry: part of it, or all that it has left. -/
theorem readLoop_take (hreal : ∀ e ∈ q.entries, e.Real) (hq : q.entries = e :: rest)
    (hsize : e.dataSize < 2 ^ 32) (hoffset : q.byteOffset ≤ e.dataSize)
    (hremaining : remainingSize ≠ 0) {n : Nat}
    (hn : n = min (e.dataSize - q.byteOffset) remainingSize) :
    readLoop mode (fuel + 1) remainingSize q =
      if e.dataSize - q.byteOffset - n ≠ 0 then
        if mode = .message then
          some ⟨.bufferOverflow, (e.data.drop q.byteOffset).take n, true, q.taken e rest n, []⟩
        else (readLoop mode fuel (remainingSize - n) (q.taken e rest n)).bind fun next =>
          some { next with
            data := (e.data.drop q.byteOffset).take n ++ next.data, completeWrites := true }
      else (npRemoveDataQueueEntry (q.taken e rest n)).bind fun removed =>
        let done := removed.2.2 ++ if removed.1.isSome then [.other .success e.dataSize] else []
        if mode = .message then
          some ⟨.success, (e.data.drop q.byteOffset).take n, true, removed.2.1, done⟩
        else (readLoop mode fuel (remainingSize - n) removed.2.1).bind fun next =>
          some { next with
            data := (e.data.drop q.byteOffset).take n ++ next.data, completeWrites := true
            done := done ++ next.done } := by
  have hoff : ulongSub e.dataSize q.byteOffset = e.dataSize - q.byteOffset := by
    rw [ulongSub, Nat.sub_add_comm hoffset, Nat.add_mod_right, Nat.mod_eq_of_lt (by omega)]
  have hdrop : e.dataSize - (e.dataSize - q.byteOffset) = q.byteOffset := by omega
  rw [readLoop, nextReal_eq hreal]
  simp only [bind, Option.bind_some, hq, hremaining, if_false, hoff, hdrop, ← hn]
  simp only [List.nil_append, pure]
  rfl

end Equations

end Npfs
