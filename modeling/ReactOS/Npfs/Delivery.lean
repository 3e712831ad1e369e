import ReactOS.Lib.Transition
import ReactOS.Npfs.Stream

/-! # The stream of bytes through a pipe

    What a data queue is for: the bytes of the writes reach the reads in order.  The state of a run
    carries what has been accepted from the writes and what the completed reads were given, and the
    invariant says that the difference is what the queue still holds.

    In message mode a read ends with the message that it takes from, and its status tells whether
    there is more of it.  The one exception is a read of no bytes from a queue with data, which
    looks at no message at all. -/

namespace Npfs

open Transition List Option

/-! ## Section 1: Runs -/

/-- A message: the data of a write, and the part of it that was accepted. -/
structure Sent where
  message : List Byte
  accepted : List Byte
  deriving DecidableEq, Repr

/-- A completed read; `size` is that of its buffer unless it has waited. -/
structure Delivery where
  mode : PipeMode
  size : Option Nat
  status : NtStatus
  data : List Byte
  deriving DecidableEq, Repr

/-- A data queue, with what went into it and what came out. -/
structure Pipe where
  queue : DataQueue
  sent : List Sent
  delivered : List Delivery
  deriving DecidableEq, Repr

inductive PipeCall where
  | read (r : ReadRequest)
  | write (r : WriteRequest)
  | transceive (r : TransceiveRequest)

/-- The waiting reads that a call completes. -/
def served (mode : PipeMode) (done : List Completion) : List Delivery :=
  (readsOf done).map fun r => ⟨mode, none, r.1, r.2⟩

/-- The read that is completed at once, if it is. -/
def ReadReply.completed (reply : ReadReply) (r : ReadRequest) : List Delivery :=
  match reply.status with
  | some .success => [⟨r.mode, some r.bufferSize, .success, reply.data⟩]
  | some .bufferOverflow => [⟨r.mode, some r.bufferSize, .bufferOverflow, reply.data⟩]
  | _ => []

def Pipe.call (s : Pipe) : PipeCall → Option Pipe
  | .read r => do
    let reply ← npCommonRead s.queue r
    return { s with
      queue := reply.queue
      delivered := s.delivered ++ (served r.mode reply.done ++ reply.completed r) }
  | .write r => do
    let reply ← npCommonWrite s.queue r
    return ⟨reply.queue, s.sent ++ [⟨r.data, reply.accepted⟩],
      s.delivered ++ served r.readMode reply.done⟩
  | .transceive r => do
    let reply ← npTransceive s.queue r
    return ⟨reply.queue, s.sent ++ [⟨r.data, reply.accepted⟩],
      s.delivered ++ served .message reply.done⟩

/-- Sizes are `ULONG`s, and failures are errors. -/
def PipeCall.Legal : PipeCall → Prop
  | .read r => r.bufferSize < 2 ^ 32 ∧ r.env.Fails
  | .write r => r.data.length < 2 ^ 32 ∧
      (∀ status ∈ r.env.context, ntError status = true) ∧ r.addEnv.Fails
  | .transceive r => r.data.length < 2 ^ 32 ∧
      (∀ status ∈ r.env.context, ntError status = true) ∧ r.addEnv.Fails

/-- The runs of a queue without cancellations, flushes and disconnects. -/
def pipeSystem : System Pipe PipeCall Unit where
  init := fun s => ∃ quota, s = ⟨npInitializeDataQueue quota, [], []⟩
  legal := fun _ c => c.Legal
  step := fun s c => (s.call c).map fun s' => (s', ())

def Pipe.accepted (s : Pipe) : List Byte := s.sent.flatMap (·.accepted)

def Pipe.received (s : Pipe) : List Byte := s.delivered.flatMap (·.data)

/-- The bytes of a read, which begin at a position of the stream, are consecutive bytes of one
    message, and `STATUS_BUFFER_OVERFLOW` tells that they are not its last. -/
def Delivery.Of (d : Delivery) (sent : List Sent) (position : Nat) : Prop :=
  ∃ earlier m later a, sent = earlier ++ m :: later ∧
    position = (earlier.flatMap (·.accepted)).length + a ∧
    d.data <+: m.message.drop a ∧ a + d.data.length ≤ m.accepted.length ∧
    (d.status = .bufferOverflow ↔ a + d.data.length < m.message.length)

/-- One read after the other, those in message mode are of one message each.  A read of no bytes
    that does not wait looks at no message. -/
def Placed (sent : List Sent) : Nat → List Delivery → Prop
  | _, [] => True
  | position, d :: ds =>
    (d.mode = .message → d.size ≠ some 0 → d.Of sent position) ∧
      Placed sent (position + d.data.length) ds

/-! ## Section 2: Reads in their place -/

section Runs

variable {s : Pipe} {sent : List Sent}
variable {mode : PipeMode} {data : List Byte} {b : Nat} {m : Sent}

theorem Delivery.Of.append {d : Delivery} {position : Nat} (h : d.Of sent position)
    (m : List Sent) : d.Of (sent ++ m) position := by
  obtain ⟨earlier, x, later, a, rfl, h⟩ := h
  exact ⟨earlier, x, later ++ m, a, by simp, h⟩

theorem Placed.append_sent {ds : List Delivery} (m : List Sent) : ∀ {position : Nat},
    Placed sent position ds → Placed (sent ++ m) position ds := by
  induction ds with
  | nil => exact fun _ => trivial
  | cons d ds ih => exact fun h => ⟨fun hm h0 => (h.1 hm h0).append m, ih h.2⟩

theorem placed_append {ds ds' : List Delivery} : ∀ {position : Nat},
    Placed sent position (ds ++ ds') ↔
      Placed sent position ds ∧ Placed sent (position + (ds.flatMap (·.data)).length) ds' := by
  induction ds with
  | nil => simp [Placed]
  | cons d ds ih =>
    intro position
    rw [cons_append, Placed, Placed, ih, flatMap_cons, length_append, Nat.add_assoc,
      and_assoc]

theorem Served.le {a : Nat}
    {l : List (NtStatus × List Byte)} (h : Served mode data a l b) : a ≤ b := by
  induction h with
  | nil => exact Nat.le_refl _
  | cons _ _ _ ih => omega

/-- The reads that a message serves are placed in it. -/
theorem Served.placed {a : Nat} {l : List (NtStatus × List Byte)}
    (h : Served mode m.message a l b) (hb : b ≤ m.accepted.length) :
    Placed (sent ++ [m]) ((sent.flatMap (·.accepted)).length + a)
      (l.map fun r => ⟨mode, none, r.1, r.2⟩) := by
  induction h with
  | nil => exact trivial
  | @cons a b status d l hd hstatus hl ih =>
    have hle := hl.le
    refine ⟨fun hmode _ => ⟨sent, m, [], a, rfl, rfl, hd, ?_, hstatus hmode⟩, ?_⟩
    · show a + d.length ≤ _
      omega
    · rw [Nat.add_assoc]
      exact ih hb

/-! ## Section 3: Messages in the queue -/

variable {d : List Byte} {l : List Sent} {ds : List (List Byte)}

/-- The messages behind the one that the first entry is of: each is queued whole, or nothing of it
    has been accepted. -/
inductive Behind : List Sent → List (List Byte) → Prop where
  | nil : Behind [] []
  | refused {m : Sent} {l : List Sent} {ds : List (List Byte)} :
      m.accepted = [] → Behind l ds → Behind (m :: l) ds
  | whole {d : List Byte} {l : List Sent} {ds : List (List Byte)} :
      Behind l ds → Behind (⟨d, d⟩ :: l) (d :: ds)

theorem Behind.append {l' : List Sent} {ds' : List (List Byte)} (h : Behind l ds)
    (h' : Behind l' ds') : Behind (l ++ l') (ds ++ ds') := by
  induction h with
  | nil => exact h'
  | refused hm _ ih => exact .refused hm ih
  | whole _ ih => exact .whole ih

theorem Behind.flatMap_eq (h : Behind l ds) : l.flatMap (·.accepted) = ds.flatten := by
  induction h with
  | nil => rfl
  | refused hm _ ih => rw [flatMap_cons, hm, nil_append, ih]
  | whole _ ih => rw [flatMap_cons, flatten_cons, ih]

theorem Behind.first (h : Behind l (d :: ds)) :
    ∃ skipped later, l = skipped ++ ⟨d, d⟩ :: later ∧ Behind later ds := by
  generalize hds : d :: ds = all at h
  induction h with
  | nil => cases hds
  | @refused m l _ hm _ ih =>
    obtain ⟨skipped, later, rfl, hlater⟩ := ih hds
    exact ⟨m :: skipped, later, rfl, hlater⟩
  | @whole d' l ds' h _ =>
    obtain ⟨rfl, rfl⟩ := cons.inj hds
    exact ⟨[], l, rfl, h⟩

/-- The queued data are of the last messages: the first of them the rest of a message, the others
    whole messages. -/
def Queued (sent : List Sent) (ds : List (List Byte)) : Prop :=
  ∀ d ds', ds = d :: ds' → ∃ gone m later,
    sent = gone ++ ⟨m, m⟩ :: later ∧ d <:+ m ∧ Behind later ds'

theorem queued_nil : Queued sent [] := fun _ _ hds => absurd hds (cons_ne_nil _ _).symm

theorem Queued.tail (h : Queued sent (d :: ds)) : Queued sent ds := by
  rintro d' ds' rfl
  obtain ⟨gone, m, later, rfl, -, hbehind⟩ := h d _ rfl
  obtain ⟨skipped, later', rfl, hbehind'⟩ := hbehind.first
  exact ⟨gone ++ ⟨m, m⟩ :: skipped, d', later', by simp, suffix_refl _, hbehind'⟩

theorem Queued.suffix {ds' : List (List Byte)} (h : Queued sent ds) (hsuffix : ds' <:+ ds) :
    Queued sent ds' := by
  induction ds with
  | nil =>
    rw [suffix_nil] at hsuffix
    rw [hsuffix]
    exact h
  | cons d ds ih =>
    rcases suffix_cons_iff.1 hsuffix with rfl | hsuffix
    · exact h
    · exact ih h.tail hsuffix

/-- A message of which nothing is accepted, or none at all, leaves the queue as it is. -/
theorem Queued.refuse (h : Queued sent ds)
    (hm : m.accepted = [] ∨ ds = []) : Queued (sent ++ [m]) ds := by
  intro d ds' hds
  obtain ⟨gone, m', later, rfl, hd, hbehind⟩ := h d ds' hds
  have hm' : m.accepted = [] := hm.resolve_right (by simp [hds])
  refine ⟨gone, m', later ++ [m], by simp, hd, ?_⟩
  have happend := hbehind.append (.refused hm' .nil)
  rwa [append_nil] at happend

/-- A message goes to the end of the queue: whole, or its rest to an empty one. -/
theorem Queued.push (h : Queued sent ds) {m : List Byte} (hd : d <:+ m)
    (hwhole : ds ≠ [] → d = m) : Queued (sent ++ [⟨m, m⟩]) (ds ++ [d]) := by
  rintro d0 ds' hds
  rcases ds with _ | ⟨d1, ds⟩
  · obtain ⟨rfl, rfl⟩ := cons.inj hds
    exact ⟨sent, m, [], rfl, hd, .nil⟩
  obtain ⟨rfl, rfl⟩ := cons.inj hds
  obtain ⟨gone, m', later, rfl, hd', hbehind⟩ := h d1 ds rfl
  obtain rfl := hwhole (cons_ne_nil _ _)
  exact ⟨gone, m', later ++ [⟨d, d⟩], by simp, hd', hbehind.append (.whole .nil)⟩

/-! ## Section 4: The invariant -/

variable {o : WriteOutcome}

/-- The invariant of the runs. -/
structure Delivers (s : Pipe) : Prop where
  stream : Stream s.queue
  parts : ∀ m ∈ s.sent, m.accepted <+: m.message
  bytes : s.accepted = s.received ++ s.queue.unread
  placed : Placed s.sent 0 s.delivered
  queued : s.queue.queueState ≠ .readEntries → Queued s.sent (s.queue.entries.map (·.data))

theorem Delivers.read (h : Delivers s) (hnr : s.queue.queueState ≠ .readEntries) {o : ReadOutcome}
    (hr : Reads s.queue o) {d : Delivery} (hdata : d.data = o.data)
    (hof : d.mode = .message → d.size ≠ some 0 → d.Of s.sent s.received.length) :
    Delivers { s with queue := o.queue, delivered := s.delivered ++ [d] } where
  stream := hr.stream
  parts := h.parts
  bytes := by
    show s.accepted = (s.delivered ++ [d]).flatMap (·.data) ++ o.queue.unread
    rw [h.bytes, hr.bytes, flatMap_append, flatMap_singleton, hdata, append_assoc]
    rfl
  placed := by
    rw [placed_append, Nat.zero_add]
    exact ⟨h.placed, hof, trivial⟩
  queued := fun _ => (h.queued hnr).suffix hr.entries

/-- What is read from the first entry is of the message that the entry is of. -/
theorem Delivers.of_first (h : Delivers s) (hw : s.queue.queueState = .writeEntries)
    {e : DataEntry} {rest : List DataEntry} (hq : s.queue.entries = e :: rest) {d : Delivery}
    (hd : d.data <+: e.data.drop s.queue.byteOffset)
    (hstatus : d.status = .bufferOverflow ↔ s.queue.byteOffset + d.data.length < e.dataSize) :
    d.Of s.sent s.received.length := by
  have hnr : s.queue.queueState ≠ .readEntries := by
    rw [hw]
    decide
  have hsize := h.stream.writes hw e (by simp [hq])
  have hinside := h.stream.inside e rest hq
  obtain ⟨gone, m, later, hsent, ⟨t, rfl⟩, hbehind⟩ := h.queued hnr e.data (rest.map (·.data))
    (by rw [hq, map_cons])
  -- The lengths of both sides of the stream give the position.
  have hlength := congrArg length h.bytes
  have hflat : (later.flatMap (·.accepted)).length = (rest.flatMap (·.data)).length := by
    rw [hbehind.flatMap_eq, flatMap_def]
  have hdlen := hd.length_le
  rw [length_drop] at hdlen
  rw [Pipe.accepted, hsent, DataQueue.unread, if_pos hw, hq, flatMap_append, flatMap_cons,
    length_append, length_append, length_append, length_append,
    length_drop, flatMap_cons, length_append, hflat] at hlength
  refine ⟨gone, ⟨t ++ e.data, t ++ e.data⟩, later, t.length + s.queue.byteOffset, hsent, by omega,
    ?_, ?_, ?_⟩
  · rw [← drop_drop, drop_left]
    exact hd
  · rw [length_append]
    omega
  · rw [hstatus, length_append]
    omega

/-- All that was accepted is received, once the queue has no more of it. -/
theorem Delivers.accepted_eq (h : Delivers s) (hnil : s.queue.unread = []) :
    s.sent.flatMap (·.accepted) = s.delivered.flatMap (·.data) :=
  (hnil ▸ h.bytes).trans (append_nil _)

/-- A message of which `b` bytes are given to the waiting reads, and the rest of what is accepted
    is queued. -/
theorem Delivers.write (h : Delivers s) {done : List Completion} {q' : DataQueue}
    (hserved : Served mode m.message 0 (readsOf done) b)
    (hpart : m.accepted <+: m.message) (hb : b ≤ m.accepted.length)
    (hreads : s.queue.unread = [] ∨ readsOf done = []) (hstream : Stream q')
    (hunread : q'.unread = s.queue.unread ++ m.accepted.drop b)
    (hqueued : q'.queueState ≠ .readEntries →
      Queued (s.sent ++ [m]) (q'.entries.map (·.data))) :
    Delivers ⟨q', s.sent ++ [m], s.delivered ++ served mode done⟩ where
  stream := hstream
  parts := forall_mem_append.2 ⟨h.parts, forall_mem_singleton.2 hpart⟩
  bytes := by
    obtain ⟨-, hflat⟩ := hserved.flatMap_eq (Nat.zero_le _)
    have htake : (readsOf done).flatMap (·.2) = m.accepted.take b := by
      obtain ⟨t, ht⟩ := hpart
      have hcut : m.message.take b ++ m.message.drop b = (readsOf done).flatMap (·.2) ++
          m.message.drop b := (take_append_drop b _).trans hflat
      rw [← append_cancel_right hcut, ← ht, take_append_of_le_length hb]
    show (s.sent ++ [m]).flatMap (·.accepted) =
      (s.delivered ++ served mode done).flatMap (·.data) ++ q'.unread
    rw [flatMap_append, flatMap_append, flatMap_singleton, served, flatMap_map, hunread]
    rcases hreads with hnil | hnil
    · rw [h.accepted_eq hnil, hnil, htake, nil_append, append_assoc, take_append_drop]
    rw [show s.sent.flatMap (·.accepted) = s.delivered.flatMap (·.data) ++ s.queue.unread from
      h.bytes, hnil, flatMap_nil, append_nil, append_assoc]
    rw [hnil, flatMap_nil] at htake
    conv => lhs; rw [← take_append_drop b m.accepted, ← htake, nil_append]
  placed := by
    rw [placed_append, Nat.zero_add]
    refine ⟨h.placed.append_sent [m], ?_⟩
    rcases hreads with hnil | hnil
    · rw [← h.accepted_eq hnil]
      exact hserved.placed hb
    · rw [served, hnil]
      exact trivial
  queued := hqueued

/-- What the waiting reads have left of a message is refused, or there is none. -/
theorem Delivers.pass (h : Delivers s) (hwrote : Wrote s.queue mode data o) :
    Delivers ⟨o.queue, s.sent ++ [⟨data, data.take (data.length - o.bytesNotWritten)⟩],
      s.delivered ++ served mode o.done⟩ := by
  have hlen : (data.take (data.length - o.bytesNotWritten)).length =
      data.length - o.bytesNotWritten := by
    rw [length_take]
    omega
  refine h.write (m := ⟨data, _⟩) hwrote.served ( take_prefix _ _) (Nat.le_of_eq hlen.symm)
    hwrote.reads hwrote.stream ?_ ?_
  · rw [drop_eq_nil_of_le (Nat.le_of_eq hlen), append_nil, hwrote.unread]
  intro hnr
  by_cases hnil : o.queue.entries = []
  · rw [hnil]
    exact queued_nil
  obtain ⟨hq, hn⟩ := hwrote.same hnil hnr
  rw [hq] at hnr ⊢
  refine (h.queued hnr).refuse (.inl ?_)
  rw [hn, Nat.sub_self, take_zero]

/-- What the waiting reads have left of a message is queued, with the message or alone. -/
theorem Delivers.push (h : Delivers s)
    (hwrote : Wrote s.queue mode data o) (hmore : o.status = .moreProcessingRequired)
    (hdata : data.length < 2 ^ 32) {e : DataEntry} {byteOffset : Nat} (hreal : e.Real)
    (hirp : ∀ irp, e.irp = some irp → irp.cancelling = false) (hlen : e.data.length = e.dataSize)
    (hdrop : e.data.drop byteOffset = data.drop (data.length - o.bytesNotWritten))
    (hsuffix : e.data <:+ data) (hinside : byteOffset ≤ e.dataSize)
    (hwhole : o.bytesNotWritten = data.length → byteOffset = 0) :
    Delivers ⟨insertEntry o.queue .writeEntries byteOffset e, s.sent ++ [⟨data, data⟩],
      s.delivered ++ served mode o.done⟩ := by
  have hnr := hwrote.more hmore
  have hsize : e.dataSize < 2 ^ 32 := by
    have hle := hsuffix.length_le
    omega
  have hfirst : byteOffset ≠ 0 → o.queue.entries = [] := by
    intro hne
    by_contra hnil
    exact hne (hwhole (hwrote.same hnil hnr).2)
  obtain ⟨hstream, hunread'⟩ :=
    hwrote.stream.insert_write hreal hsize hnr hirp hlen hinside hfirst
  refine h.write (m := ⟨data, data⟩) hwrote.served (prefix_refl _) (Nat.sub_le _ _)
    hwrote.reads hstream ?_ fun _ => ?_
  · rw [hunread', hwrote.unread, hdrop]
  rw [insertEntry_entries, map_append, map_singleton]
  by_cases hnil : o.queue.entries = []
  · rw [hnil]
    exact queued_nil.push hsuffix fun hne => absurd rfl hne
  obtain ⟨hq, hn⟩ := hwrote.same hnil hnr
  have hzero := hwhole hn
  rw [hq] at hnr ⊢
  refine (h.queued hnr).push hsuffix fun _ => ?_
  rwa [hzero, hn, Nat.sub_self, drop_zero, drop_zero] at hdrop

/-- A read that finds no data fails or waits. -/
theorem npCommonRead_wait {q : DataQueue} (hs : Stream q) (hnw : q.queueState ≠ .writeEntries)
    {r : ReadRequest} (hsize : r.bufferSize < 2 ^ 32) (henv : r.env.Fails) :
    ∃ reply, npCommonRead q r = some reply ∧ reply.done = [] ∧ reply.completed r = [] ∧
      Stream reply.queue ∧ reply.queue.unread = q.unread ∧
      (reply.queue = q ∨ reply.queue.queueState = .readEntries) := by
  rw [npCommonRead, if_neg hnw]
  by_cases hclosing : r.closing = true
  · rw [if_pos hclosing]
    exact ⟨_, rfl, rfl, rfl, hs, rfl, .inl rfl⟩
  by_cases hcomplete : r.completeOperation = true
  · rw [if_neg hclosing, if_pos hcomplete]
    exact ⟨_, rfl, rfl, rfl, hs, rfl, .inl rfl⟩
  by_cases hirp : (!r.hasIrp) = true
  · rw [if_neg hclosing, if_neg hcomplete, if_pos hirp]
    exact ⟨_, rfl, rfl, rfl, hs, rfl, .inl rfl⟩
  rw [if_neg hclosing, if_neg hcomplete, if_neg hirp]
  have hadd := npAddDataQueueEntry_added (q := q) henv (show QueueState.readEntries ≠ .empty by decide)
    (.inl rfl) r.bufferSize (some ⟨false⟩) [] 0
  generalize npAddDataQueueEntry q r.env .readEntries .buffered r.bufferSize (some ⟨false⟩) [] 0 =
    result at hadd
  cases hadd with
  | @failed status hfail =>
    refine ⟨_, rfl, rfl, ?_, hs, rfl, .inl rfl⟩
    cases status <;> first | rfl | cases hfail
  | @queued status e hstatus htype hsize' hirp' _ =>
    have hirp'' : e.irp = some ⟨false⟩ := hirp'.resolve_right fun h => QueueState.noConfusion h.1
    have hpending : status = .pending := hstatus.resolve_right fun h => QueueState.noConfusion h.1
    obtain ⟨hstream, hunread⟩ := hs.insert_read (.inl htype) (hsize'.symm ▸ hsize) hnw hirp''
    rw [hpending]
    exact ⟨_, rfl, rfl, rfl, hstream, hunread, .inr rfl⟩

theorem Delivers.call_read (h : Delivers s) {r : ReadRequest} (hsize : r.bufferSize < 2 ^ 32)
    (henv : r.env.Fails) : ∃ s', s.call (.read r) = some s' ∧ Delivers s' := by
  by_cases hw : s.queue.queueState = .writeEntries
  · have hnr : s.queue.queueState ≠ .readEntries := by
      rw [hw]
      decide
    obtain ⟨o, ho, hr, hmessage⟩ :=
      npReadDataQueue_reads h.stream hnr r.bufferSize r.mode
    have hcommon : npCommonRead s.queue r = some ⟨some o.status, o.data, o.queue, o.done⟩ := by
      rw [npCommonRead, if_pos hw, ho]
      rfl
    have hcompleted : (⟨some o.status, o.data, o.queue, o.done⟩ : ReadReply).completed r =
        [⟨r.mode, some r.bufferSize, o.status, o.data⟩] := by
      rcases hr.status with hst | hst
      · rw [hst]
        rfl
      · rw [hst]
        rfl
    have hserved : served r.mode o.done = [] := by
      rw [served, hr.noReads.readsOf_eq]
      rfl
    simp only [Pipe.call, hcommon, bind, bind_some, hcompleted, hserved, nil_append]
    refine ⟨_, rfl, h.read hnr hr rfl fun hmode h0 => ?_⟩
    -- In message mode the first entry is the message the reply must match.
    have hne : s.queue.entries ≠ [] := fun hnil => by
      rw [h.stream.empty.2 hnil] at hw
      cases hw
    obtain ⟨e, rest, hq⟩ := exists_cons_of_ne_nil hne
    obtain ⟨hd, hstatus⟩ := hmessage hmode (fun hzero => h0 (congrArg some hzero)) e rest hq
    exact h.of_first hw hq hd hstatus
  · obtain ⟨reply, hreply, hdone, hcompleted, hstream, hunread, hqueue⟩ :=
      npCommonRead_wait h.stream hw hsize henv
    have hnone : served r.mode reply.done = [] := by
      rw [hdone]
      rfl
    simp only [Pipe.call, hreply, bind, bind_some, hnone, hcompleted, append_nil]
    refine ⟨_, rfl, hstream, h.parts, ?_, h.placed, fun hnr => ?_⟩
    · rw [hunread]
      exact h.bytes
    · have hq := hqueue.resolve_right hnr
      rw [hq] at hnr ⊢
      exact h.queued hnr

/-- A message that is turned away at once. -/
theorem Delivers.refuse (h : Delivers s) (mode : PipeMode) (data : List Byte) :
    Delivers ⟨s.queue, s.sent ++ [⟨data, []⟩], s.delivered ++ served mode []⟩ := by
  refine h.write (m := ⟨data, []⟩) .nil nil_prefix (Nat.le_refl _) (.inr rfl) h.stream ?_
    fun hnr => (h.queued hnr).refuse (.inl rfl)
  rw [drop_nil, append_nil]

theorem acceptedBytes_failed {n : Nat} {status : NtStatus}
    (h : ntError status = true) : acceptedBytes data n status = data.take (data.length - n) := by
  refine if_neg ?_
  rintro (rfl | rfl) <;> cases h

/-- A message of which what is left goes to `NpAddDataQueueEntry`. -/
theorem Delivers.add (h : Delivers s)
    (hwrote : Wrote s.queue mode data o) (hmore : o.status = .moreProcessingRequired)
    (hdata : data.length < 2 ^ 32) {type : EntryType} (htype : type = .buffered ∨ type = .unbuffered)
    {irp : Option Irp} (hirp : ∀ x, irp = some x → x.cancelling = false)
    {byteOffset : Nat} (hdrop : d.drop byteOffset = data.drop (data.length - o.bytesNotWritten))
    (hsuffix : d <:+ data) (hinside : byteOffset ≤ d.length)
    (hwhole : o.bytesNotWritten = data.length → byteOffset = 0) {result : NtStatus × DataQueue}
    (hadded : Added o.queue .writeEntries type d.length irp d byteOffset result) :
    Delivers ⟨result.2, s.sent ++ [⟨data, acceptedBytes data o.bytesNotWritten result.1⟩],
      s.delivered ++ served mode o.done⟩ := by
  cases hadded with
  | failed hfail =>
    rw [acceptedBytes_failed hfail]
    exact h.pass hwrote
  | @queued status e hstatus htype' hsize hirp' hd =>
    have hdata' : e.data = d := hd rfl
    have haccepted : acceptedBytes data o.bytesNotWritten status = data :=
      if_pos (hstatus.symm.imp_left (·.2))
    rw [haccepted]
    refine h.push hwrote hmore hdata ?_ ?_ ?_ ?_ ?_ ?_ hwhole
    · rw [DataEntry.Real, htype']
      exact htype
    · grind
    · rw [hdata', hsize]
    · rw [hdata', hdrop]
    · rw [hdata']
      exact hsuffix
    · rw [hsize]
      exact hinside

theorem Delivers.call_write (h : Delivers s) {r : WriteRequest} (hdata : r.data.length < 2 ^ 32)
    (henv : ∀ status ∈ r.env.context, ntError status = true) (hadd : r.addEnv.Fails) :
    ∃ s', s.call (.write r) = some s' ∧ Delivers s' := by
  obtain ⟨o, ho, hwrote⟩ := npWriteDataQueue_wrote h.stream r.readMode r.data r.pipeType henv
  simp only [Pipe.call, npCommonWrite]
  by_cases hfull : exceedsQuota s.queue r.data.length ∧ r.pipeType = .message ∧ r.completeOperation
  · rw [if_pos hfull]
    exact ⟨_, rfl, h.refuse _ _⟩
  by_cases hfast : exceedsQuota s.queue r.data.length ∧ !r.hasIrp
  · rw [if_neg hfull, if_pos hfast]
    exact ⟨_, rfl, h.refuse _ _⟩
  rw [if_neg hfull, if_neg hfast, ho]
  simp only [bind, bind_some]
  by_cases hmore : o.status ≠ .moreProcessingRequired
  · rw [if_pos hmore]
    exact ⟨_, rfl, h.pass hwrote⟩
  rw [if_neg hmore]
  split
  · exact ⟨_, rfl, h.pass hwrote⟩
  refine ⟨_, rfl, h.add hwrote (not_not.1 hmore) hdata (.inl rfl) ?_ rfl (suffix_refl _)
    (Nat.sub_le _ _) (fun hn => by rw [hn, Nat.sub_self])
    (npAddDataQueueEntry_added hadd QueueState.noConfusion (.inl rfl) _ _ _ _)⟩
  intro x hx
  split at hx
  · obtain rfl := some.inj hx
    rfl
  · cases hx

theorem Delivers.call_transceive (h : Delivers s) {r : TransceiveRequest}
    (hdata : r.data.length < 2 ^ 32) (henv : ∀ status ∈ r.env.context, ntError status = true)
    (hadd : r.addEnv.Fails) : ∃ s', s.call (.transceive r) = some s' ∧ Delivers s' := by
  obtain ⟨o, ho, hwrote⟩ := npWriteDataQueue_wrote h.stream .message r.data r.pipeType henv
  simp only [Pipe.call, npTransceive, ho, bind, bind_some]
  by_cases hmore : o.status ≠ .moreProcessingRequired
  · rw [if_pos hmore]
    exact ⟨_, rfl, h.pass hwrote⟩
  rw [if_neg hmore]
  split
  · exact ⟨_, rfl, h.pass hwrote⟩
  have hle := hwrote.notWritten
  have hlen : (r.data.drop (r.data.length - o.bytesNotWritten)).length = o.bytesNotWritten := by
    rw [length_drop]
    omega
  have hadded := npAddDataQueueEntry_added (q := o.queue) hadd
    (show QueueState.writeEntries ≠ .empty by decide) (.inr rfl) o.bytesNotWritten
    (some ⟨false⟩) (r.data.drop (r.data.length - o.bytesNotWritten)) 0
  generalize npAddDataQueueEntry o.queue r.addEnv .writeEntries .unbuffered o.bytesNotWritten
    (some ⟨false⟩) (r.data.drop (r.data.length - o.bytesNotWritten)) 0 = result at hadded
  have hserved : ∀ done, NoReads done →
      served .message (o.done ++ done) = served .message o.done := by
    intro done hno
    rw [served, readsOf_append, hno.readsOf_eq, append_nil]
    rfl
  refine ⟨_, rfl, ?_⟩
  rw [hserved]
  · have hirp : ∀ x, some (⟨false⟩ : Irp) = some x → x.cancelling = false := by
      intro x hx
      obtain rfl := some.inj hx
      rfl
    refine h.add hwrote (not_not.1 hmore) hdata (.inr rfl) hirp drop_zero
      (drop_suffix _ _) (Nat.zero_le _) (fun _ => rfl) ?_
    rw [hlen]
    exact hadded
  · split
    · exact noReads_nil
    · exact fun c hc => ⟨_, _, mem_singleton.1 hc⟩

/-- Every call that is allowed returns, and keeps the invariant. -/
theorem Delivers.call (h : Delivers s) {c : PipeCall} (hc : c.Legal) :
    ∃ s', s.call c = some s' ∧ Delivers s' := by
  cases c with
  | read r => exact h.call_read hc.1 hc.2
  | write r => exact h.call_write hc.1 hc.2.1 hc.2.2
  | transceive r => exact h.call_transceive hc.1 hc.2.1 hc.2.2

theorem delivers_init (quota : Nat) : Delivers ⟨npInitializeDataQueue quota, [], []⟩ where
  stream := {
    real := forall_mem_nil _
    waiting := forall_mem_nil _
    sizes := forall_mem_nil _
    empty := iff_of_true rfl rfl
    reads := fun _ => forall_mem_nil _
    writes := fun _ => forall_mem_nil _
    offset := fun _ => rfl
    inside := fun _ _ _ => Nat.zero_le _ }
  parts := forall_mem_nil _
  bytes := rfl
  placed := trivial
  queued := fun _ => queued_nil

theorem reachable_delivers (hs : Reachable pipeSystem (fun _ _ => True) s) : Delivers s := by
  refine hs.invariant_of_steps ?_ fun s c h hlegal _ => ?_
  · rintro s ⟨quota, rfl⟩
    exact delivers_init quota
  · obtain ⟨s', hcall, h'⟩ := h.call hlegal
    exact ⟨s', (), map_eq_some_iff.2 ⟨s', hcall, rfl⟩, h'⟩

end Runs

/-! ## Section 5: Delivery -/

/-- A message of three bytes, which is queued. -/
def firstWrite : WriteRequest where
  data := [1, 2, 3]
  pipeType := .message
  readMode := .message
  completeOperation := false
  hasIrp := true
  env := ⟨fun _ => true, none⟩
  addEnv := ⟨none, none⟩

/-- A read in message mode. -/
def readOf (bufferSize : Nat) : ReadRequest where
  bufferSize := bufferSize
  mode := .message
  completeOperation := false
  closing := false
  hasIrp := true
  env := ⟨none, none⟩

theorem reachable_firstWrite : Reachable pipeSystem (fun _ _ => True)
    ⟨⟨[⟨.buffered, none, 3, 3, [1, 2, 3]⟩], .writeEntries, 3, 1, 3, 0, 8⟩,
      [⟨[1, 2, 3], [1, 2, 3]⟩], []⟩ := by
  have hinit : Reachable pipeSystem (fun _ _ => True) ⟨npInitializeDataQueue 8, [], []⟩ :=
    .init ⟨8, rfl⟩
  have hlegal : pipeSystem.legal ⟨npInitializeDataQueue 8, [], []⟩ (.write firstWrite) :=
    ⟨by decide, fun _ h => absurd h (not_mem_none _), fun _ h => absurd h (not_mem_none _),
      fun _ h => absurd h (not_mem_none _)⟩
  exact .step hinit hlegal trivial (show _ = some (_, ()) by decide +kernel)

theorem reachable_read {s s' : Pipe} {n : Nat} (hs : Reachable pipeSystem (fun _ _ => True) s)
    (hn : n < 2 ^ 32) (hstep : s.call (.read (readOf n)) = some s') :
    Reachable pipeSystem (fun _ _ => True) s' := by
  have hlegal : pipeSystem.legal s (.read (readOf n)) :=
    ⟨hn, fun _ h => absurd h (not_mem_none _), fun _ h => absurd h (not_mem_none _)⟩
  refine .step hs hlegal trivial (show (s.call _).map _ = some (s', ()) from ?_)
  rw [hstep]
  rfl

/-- In every such run, a peek at a queue without waiting reads returns what a read would return. -/
theorem peek_eq_read {s : Pipe} (hs : Reachable pipeSystem (fun _ _ => True) s)
    (hnr : s.queue.queueState ≠ .readEntries) (size : Nat) (mode : PipeMode) :
    ∃ o, npReadDataQueue s.queue size mode = some o ∧
      npPeekDataQueue s.queue size mode = (o.status, o.data) := by
  have hstream := (reachable_delivers hs).stream
  obtain ⟨o, ho, -⟩ := readLoop_reads mode (s.queue.entries.length + 2) size s.queue hstream hnr
    (.inl (by omega))
  have hpeek := readLoop_peek _ hstream hnr ho
  rw [npReadDataQueue, ho]
  simp only [bind, bind_some]
  split
  · exact ⟨_, rfl, hpeek⟩
  · exact ⟨_, rfl, hpeek⟩

theorem peek_eq_read_first : ∃ (s : Pipe) (o : ReadOutcome), s.queue.unread = [1, 2, 3] ∧
    npReadDataQueue s.queue 2 .message = some o ∧
    npPeekDataQueue s.queue 2 .message = (o.status, o.data) := by
  obtain ⟨o, ho, hpeek⟩ := peek_eq_read reachable_firstWrite (by decide) 2 .message
  exact ⟨_, o, rfl, ho, hpeek⟩

end Npfs
