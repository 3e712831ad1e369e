import Mathlib.Data.List.Forall2
import ReactOS.Npfs.DataQueue

/-! # The bytes of a data queue

    What the operations of a data queue do to the bytes in it.  A read takes the first of the
    unread bytes, in message mode from one entry only; an addition appends; a write gives its bytes
    to the waiting reads first, one after the other, and leaves a queue of writes alone.

    The queues are those of runs without cancellations and flushes.  Nothing is said of the quota
    here: a look at the stalled writes changes only the charges of the entries. -/

namespace Npfs

open List Option DataQueue

/-! ## Section 1: What the operations keep -/

/-- The entry after a look at the stalled writes: only its quota changes, and its request may be
    completed. -/
structure Kept (e e' : DataEntry) : Prop where
  type : e'.dataEntryType = e.dataEntryType
  size : e'.dataSize = e.dataSize
  data : e'.data = e.data
  irp : e'.irp = e.irp ∨ e'.irp = none

theorem Kept.refl (e : DataEntry) : Kept e e := ⟨rfl, rfl, rfl, .inl rfl⟩

/-- No read is completed. -/
def NoReads (done : List Completion) : Prop := ∀ c ∈ done, ∃ status n, c = .other status n

theorem noReads_nil : NoReads [] := forall_mem_nil _

theorem NoReads.append {l l' : List Completion} (h : NoReads l) (h' : NoReads l') :
    NoReads (l ++ l') :=
  forall_mem_append.2 ⟨h, h'⟩

theorem chargeWrite_kept (quotaLeft dataLeft : Nat) (irp : Irp) (e : DataEntry) :
    Kept e (chargeWrite quotaLeft dataLeft irp e).1 ∧
      NoReads (chargeWrite quotaLeft dataLeft irp e).2.2 := by
  unfold chargeWrite
  split
  · dsimp only
    split
    · exact ⟨⟨rfl, rfl, rfl, .inr rfl⟩, fun c hc => ⟨_, _, mem_singleton.1 hc⟩⟩
    · exact ⟨⟨rfl, rfl, rfl, .inl rfl⟩, noReads_nil⟩
  · exact ⟨Kept.refl e, noReads_nil⟩

theorem topUp_kept (quotaLeft byteOffset : Nat) (e : DataEntry) :
    Kept e (topUp quotaLeft byteOffset e).1 ∧ NoReads (topUp quotaLeft byteOffset e).2.2 := by
  unfold topUp
  split
  · split
    · exact chargeWrite_kept _ _ _ e
    · exact ⟨Kept.refl e, noReads_nil⟩
  · exact ⟨Kept.refl e, noReads_nil⟩

theorem forall₂_kept_refl (es : List DataEntry) : List.Forall₂ Kept es es :=
  forall₂_same.2 fun e _ => Kept.refl e

theorem stalledLoop_kept (es : List DataEntry) : ∀ quotaLeft byteOffset,
    List.Forall₂ Kept es (stalledLoop quotaLeft byteOffset es).1 ∧
      NoReads (stalledLoop quotaLeft byteOffset es).2.2 := by
  induction es with
  | nil =>
    intro quotaLeft byteOffset
    exact ⟨.nil, noReads_nil⟩
  | cons e es ih =>
    intro quotaLeft byteOffset
    by_cases h0 : quotaLeft = 0
    · simp only [stalledLoop, h0, if_true]
      exact ⟨forall₂_kept_refl _, noReads_nil⟩
    obtain ⟨hkept, hno⟩ := topUp_kept quotaLeft byteOffset e
    obtain ⟨hrest, hno'⟩ := ih (topUp quotaLeft byteOffset e).2.1 0
    simp only [stalledLoop, h0, if_false]
    exact ⟨.cons hkept hrest, hno.append hno'⟩

/-- `q'` is `q` as far as the bytes go. -/
structure SameData (q q' : DataQueue) : Prop where
  entries : List.Forall₂ Kept q.entries q'.entries
  state : q'.queueState = q.queueState
  offset : q'.byteOffset = q.byteOffset

theorem npCompleteStalledWrites_same (q : DataQueue) :
    SameData q (npCompleteStalledWrites q).1 ∧ NoReads (npCompleteStalledWrites q).2 := by
  obtain ⟨hkept, hno⟩ := stalledLoop_kept q.entries (ulongSub q.quota q.quotaUsed) q.byteOffset
  exact ⟨⟨hkept, rfl, rfl⟩, hno⟩

/-! ## Section 2: The bytes of a queue -/

/-- The bytes that are queued and not read yet. -/
def DataQueue.unread (q : DataQueue) : List Byte :=
  if q.queueState = .writeEntries then (q.entries.flatMap (·.data)).drop q.byteOffset else []

/-- A queue in a run without cancellations: of entries with data or for data, in the state that
    its list says, with the offset inside the first entry. -/
structure Stream (q : DataQueue) : Prop where
  real : ∀ e ∈ q.entries, e.Real
  waiting : ∀ e ∈ q.entries, ∀ irp, e.irp = some irp → irp.cancelling = false
  sizes : ∀ e ∈ q.entries, e.dataSize < 2 ^ 32
  empty : q.queueState = .empty ↔ q.entries = []
  reads : q.queueState = .readEntries → ∀ e ∈ q.entries, e.irp.isSome
  writes : q.queueState = .writeEntries → ∀ e ∈ q.entries, e.data.length = e.dataSize
  offset : q.queueState ≠ .writeEntries → q.byteOffset = 0
  inside : ∀ e rest, q.entries = e :: rest → q.byteOffset ≤ e.dataSize

theorem exists_kept {es es' : List DataEntry} (h : List.Forall₂ Kept es es') {e' : DataEntry}
    (he' : e' ∈ es') : ∃ e ∈ es, Kept e e' := by
  induction h with
  | nil => exact absurd he' not_mem_nil
  | cons hk _ ih =>
    rcases mem_cons.1 he' with rfl | hmem
    · exact ⟨_, mem_cons_self, hk⟩
    · obtain ⟨e, he, hk'⟩ := ih hmem
      exact ⟨e, mem_cons_of_mem _ he, hk'⟩

theorem map_data_kept {es es' : List DataEntry} (h : List.Forall₂ Kept es es') :
    es'.map (·.data) = es.map (·.data) := by
  induction h with
  | nil => rfl
  | cons hk _ ih => rw [map_cons, map_cons, hk.data, ih]

/-- In a queue without waiting reads, a change that keeps the data keeps the stream. -/
theorem SameData.stream {q q' : DataQueue} (h : SameData q q') (hs : Stream q)
    (hnr : q.queueState ≠ .readEntries) : Stream q' ∧ q'.unread = q.unread := by
  constructor
  · constructor
    case real =>
      intro e' he'
      obtain ⟨e, he, hk⟩ := exists_kept h.entries he'
      have hreal := hs.real e he
      rw [DataEntry.Real, hk.type]
      exact hreal
    case waiting =>
      intro e' he' irp hirp
      obtain ⟨e, he, hk⟩ := exists_kept h.entries he'
      rcases hk.irp with heq | hnone
      · exact hs.waiting e he irp (heq ▸ hirp)
      · rw [hnone] at hirp
        cases hirp
    case sizes =>
      intro e' he'
      obtain ⟨e, he, hk⟩ := exists_kept h.entries he'
      rw [hk.size]
      exact hs.sizes e he
    case empty =>
      have hlen : q.entries.length = q'.entries.length := List.Forall₂.length_eq h.entries
      rw [h.state, hs.empty, ← length_eq_zero_iff, ← length_eq_zero_iff, hlen]
    case reads =>
      intro hr
      exact absurd (h.state ▸ hr) hnr
    case writes =>
      intro hw e' he'
      obtain ⟨e, he, hk⟩ := exists_kept h.entries he'
      rw [hk.data, hk.size]
      exact hs.writes (h.state ▸ hw) e he
    case offset =>
      intro hne
      rw [h.offset]
      exact hs.offset (h.state ▸ hne)
    case inside =>
      intro e' rest' hq'
      have hkept := h.entries
      rw [hq'] at hkept
      cases hq : q.entries with
      | nil =>
        rw [hq] at hkept
        cases hkept
      | cons e rest =>
        rw [hq] at hkept
        cases hkept with
        | cons hk _ =>
          rw [h.offset, hk.size]
          exact hs.inside e rest hq
  · rw [unread, unread, h.state, h.offset, flatMap_def, flatMap_def,
      map_data_kept h.entries]

/-! ## Section 3: Taking from a queue -/

section Taking

variable {q : DataQueue} {e : DataEntry} {rest : List DataEntry}

/-- The queue behind its first entry. -/
def DataQueue.behind (q : DataQueue) (e : DataEntry) (rest : List DataEntry) : DataQueue :=
  { q.tail e rest with byteOffset := 0 }

theorem Stream.ne_empty (hs : Stream q) (hq : q.entries = e :: rest) : q.queueState ≠ .empty :=
  fun h => cons_ne_nil e rest (hq.symm.trans (hs.empty.1 h))

theorem Stream.behind (hs : Stream q) (hq : q.entries = e :: rest) : Stream (q.behind e rest) := by
  have hmem : ∀ x ∈ rest, x ∈ q.entries := fun x hx => hq ▸ mem_cons_of_mem e hx
  have hstate : (q.behind e rest).queueState = if rest = [] then .empty else q.queueState := rfl
  have hold : ∀ {state}, state ≠ .empty → (q.behind e rest).queueState = state →
      q.queueState = state := by
    intro state hstate' h
    rw [hstate] at h
    split at h
    · exact absurd h.symm hstate'
    · exact h
  constructor
  case real => exact fun x hx => hs.real x (hmem x hx)
  case waiting => exact fun x hx => hs.waiting x (hmem x hx)
  case sizes => exact fun x hx => hs.sizes x (hmem x hx)
  case empty =>
    rw [hstate]
    show _ ↔ rest = []
    by_cases hnil : rest = []
    · simp [hnil]
    · simp [hnil, hs.ne_empty hq]
  case reads => exact fun hr x hx => hs.reads (hold (by decide) hr) x (hmem x hx)
  case writes => exact fun hw x hx => hs.writes (hold (by decide) hw) x (hmem x hx)
  case offset => exact fun _ => rfl
  case inside => exact fun x xs _ => Nat.zero_le _

theorem unread_behind (hw : q.queueState = .writeEntries) :
    (q.behind e rest).unread = rest.flatMap (·.data) := by
  by_cases hnil : rest = []
  · simp [DataQueue.unread, DataQueue.behind, DataQueue.tail, hnil]
  · simp [DataQueue.unread, DataQueue.behind, DataQueue.tail, hnil, hw]

/-- `NpRemoveDataQueueEntry` hands out the request of the first entry and keeps the others. -/
theorem Stream.remove (hs : Stream q) (hq : q.entries = e :: rest) :
    ∃ q' done, npRemoveDataQueueEntry q = some (e.irp, q', done) ∧ NoReads done ∧
      SameData (q.behind e rest) q' ∧ Stream q' ∧ q'.unread = (q.behind e rest).unread ∧
      (q.queueState = .readEntries → q'.entries = rest ∧
        q'.queueState = if rest = [] then .empty else .readEntries) := by
  have hirp : (e.irp.filter fun irp => !irp.cancelling) = e.irp := by
    rcases he : e.irp with _ | irp
    · rfl
    · have hwait := hs.waiting e (by simp [hq]) irp he
      simp [hwait]
  have heq := npRemoveDataQueueEntry_eq hq (hs.ne_empty hq) fun x hx =>
    hs.real x (hq ▸ mem_cons_of_mem e hx)
  have hstream := hs.behind hq
  rw [hirp] at heq
  by_cases hw : q.HasWrites e rest
  · rw [if_pos hw, if_pos hw] at heq
    obtain ⟨hsame, hno⟩ := npCompleteStalledWrites_same (q.tail e rest)
    have hsame' : SameData (q.behind e rest)
        { (npCompleteStalledWrites (q.tail e rest)).1 with byteOffset := 0 } :=
      ⟨hsame.entries, hsame.state, rfl⟩
    have hstate : (q.behind e rest).queueState ≠ .readEntries := by
      show (if rest = [] then QueueState.empty else q.queueState) ≠ _
      rw [if_neg hw.2.2.2, hw.1]
      decide
    obtain ⟨h1, h2⟩ := hsame'.stream hstream hstate
    refine ⟨_, _, heq, hno, hsame', h1, h2, fun hr => ?_⟩
    rw [hw.1] at hr
    cases hr
  · rw [if_neg hw, if_neg hw] at heq
    refine ⟨_, _, heq, noReads_nil, ⟨forall₂_kept_refl _, rfl, rfl⟩, hstream, rfl, fun hr => ?_⟩
    refine ⟨rfl, ?_⟩
    show (if rest = [] then QueueState.empty else q.queueState) = _
    rw [hr]

theorem map_data_taken (q : DataQueue) (e : DataEntry) (rest : List DataEntry) (n : Nat) :
    (q.taken e rest n).entries.map (·.data) = e.data :: rest.map (·.data) := by
  rw [taken, map_cons]

namespace Stream

variable (hs : Stream q) (hq : q.entries = e :: rest) (hw : q.queueState = .writeEntries)

include hs hq hw

/-- Bytes that are copied out of the first entry move from the queue to the reader. -/
theorem taken {n : Nat} (hn : n ≤ e.dataSize - q.byteOffset) : Stream (q.taken e rest n) ∧
      q.unread = (e.data.drop q.byteOffset).take n ++ (q.taken e rest n).unread := by
  have hmem : e ∈ q.entries := by simp [hq]
  have hsize := hs.sizes e hmem
  have hinside := hs.inside e rest hq
  have hlen := hs.writes hw e hmem
  have hadd : ulongAdd q.byteOffset n = q.byteOffset + n := ulongAdd_eq (by omega)
  have hcons : ∀ {P : DataEntry → Prop}, (∀ x ∈ q.entries, P x) →
      (∀ m, P e → P { e with quotaInEntry := m }) → ∀ x ∈ (q.taken e rest n).entries, P x := by
    intro P hP hquota x hx
    rcases mem_cons.1 hx with rfl | hx
    · exact hquota _ (hP e hmem)
    · exact hP x (hq ▸ mem_cons_of_mem e hx)
  constructor
  · constructor
    case real => exact hcons hs.real fun _ h => h
    case waiting => exact hcons hs.waiting fun _ h => h
    case sizes => exact hcons hs.sizes fun _ h => h
    case empty =>
      show q.queueState = .empty ↔ _
      rw [hw]
      exact iff_of_false (by decide) (cons_ne_nil _ _)
    case reads =>
      intro hr
      exact absurd (hw.symm.trans hr) (by decide)
    case writes => exact fun _ => hcons (hs.writes hw) fun _ h => h
    case offset => exact fun hne => absurd hw hne
    case inside =>
      intro x xs hx
      obtain ⟨rfl, rfl⟩ := cons.inj hx
      show ulongAdd q.byteOffset n ≤ e.dataSize
      rw [hadd]
      omega
  · have hwt : (q.taken e rest n).queueState = .writeEntries := hw
    have hoffset : (q.taken e rest n).byteOffset = q.byteOffset + n := hadd
    rw [unread, unread, if_pos hw, if_pos hwt, hoffset, flatMap_def,
      flatMap_def, map_data_taken, hq, map_cons, flatten_cons,
      drop_append_of_le_length (by omega), drop_append_of_le_length (by omega),
      ← append_assoc, ← drop_drop, take_append_drop]

/-- Once the first entry is read to its end, what is behind it is unread. -/
theorem unread_end (hend : q.byteOffset = e.dataSize) : q.unread = (q.behind e rest).unread := by
  have hlen := hs.writes hw e (by simp [hq])
  rw [unread_behind hw, unread, if_pos hw, hq, flatMap_cons,
    drop_append_of_le_length (by omega), hend, ← hlen, drop_length, nil_append]

end Stream

theorem Stream.writeEntries (hs : Stream q) (hnr : q.queueState ≠ .readEntries)
    (hne : q.entries ≠ []) : q.queueState = .writeEntries := by
  cases hst : q.queueState with
  | readEntries => exact absurd hst hnr
  | writeEntries => rfl
  | empty => exact absurd (hs.empty.1 hst) hne

/-- What a read leaves: the first bytes of the queue have gone to the reader, and the entries that
    are left are the last ones. -/
structure Reads (q : DataQueue) (o : ReadOutcome) : Prop where
  status : o.status = .success ∨ o.status = .bufferOverflow
  noReads : NoReads o.done
  stream : Stream o.queue
  state : o.queue.queueState ≠ .readEntries
  bytes : q.unread = o.data ++ o.queue.unread
  entries : o.queue.entries.map (·.data) <:+ q.entries.map (·.data)

theorem Stream.taken_remove (hs : Stream q) (hq : q.entries = e :: rest)
    (hw : q.queueState = .writeEntries) {n : Nat} (hn : e.dataSize - q.byteOffset = n) :
    ∃ q' done, npRemoveDataQueueEntry (q.taken e rest n) = some (e.irp, q', done) ∧
      Reads q ⟨.success, (e.data.drop q.byteOffset).take n, true, q', done⟩ ∧
      q'.entries.length = rest.length := by
  have hmem : e ∈ q.entries := by simp [hq]
  have hsize := hs.sizes e hmem
  have hinside := hs.inside e rest hq
  obtain ⟨hstream, hunread⟩ := hs.taken hq hw (n := n) (by omega)
  have hwt : (q.taken e rest n).queueState = .writeEntries := hw
  obtain ⟨q', done, hremove, hno, hsame, hs', hunread', -⟩ :=
    Stream.remove (q := q.taken e rest n) hstream rfl
  have hend : (q.taken e rest n).byteOffset = e.dataSize := by
    show ulongAdd q.byteOffset n = _
    rw [ulongAdd_eq (by omega)]
    omega
  have hstate : q'.queueState ≠ .readEntries := by
    rw [hsame.state]
    show (if rest = [] then QueueState.empty else q.queueState) ≠ _
    split
    · decide
    · rw [hw]
      decide
  refine ⟨q', done, hremove, ⟨.inl rfl, hno, hs', hstate, ?_, ?_⟩, (List.Forall₂.length_eq hsame.entries).symm⟩
  · rw [hunread, hstream.unread_end rfl hwt hend, hunread']
  · rw [map_data_kept hsame.entries, hq, map_cons]
    exact suffix_cons _ _

/-- The loop of a read: what it copies out are the first bytes of the queue. -/
theorem readLoop_reads (mode : PipeMode) (fuel : Nat) : ∀ (remainingSize : Nat) (q : DataQueue),
    Stream q → q.queueState ≠ .readEntries →
    q.entries.length < fuel ∨ (remainingSize = 0 ∧ 0 < fuel) →
    ∃ o, readLoop mode fuel remainingSize q = some o ∧ Reads q o := by
  induction fuel with
  | zero =>
    intro remainingSize q _ _ hfuel
    omega
  | succ fuel ih =>
    intro remainingSize q hs hnr hfuel
    by_cases hstop : q.entries = [] ∨ remainingSize = 0
    · exact ⟨_, readLoop_stop hs.real hstop, .inl rfl, noReads_nil, hs, hnr, rfl, suffix_refl _⟩
    obtain ⟨hne, h0⟩ := not_or.1 hstop
    obtain ⟨e, rest, hq⟩ := exists_cons_of_ne_nil hne
    have hw := hs.writeEntries hnr hne
    have hmem : e ∈ q.entries := by simp [hq]
    have hlen : q.entries.length = rest.length + 1 := by rw [hq, length_cons]
    obtain ⟨n, hn⟩ : ∃ n, n = min (e.dataSize - q.byteOffset) remainingSize := ⟨_, rfl⟩
    rw [readLoop_take hs.real hq (hs.sizes e hmem) (hs.inside e rest hq) h0 hn]
    by_cases hpart : e.dataSize - q.byteOffset - n ≠ 0
    · obtain ⟨hstream, hunread⟩ := hs.taken hq hw (n := n) (by omega)
      have hnr' : (q.taken e rest n).queueState ≠ .readEntries := hnr
      have hmap : (q.taken e rest n).entries.map (·.data) = q.entries.map (·.data) := by
        rw [map_data_taken, hq, map_cons]
      rw [if_pos hpart]
      by_cases hmode : mode = .message
      · rw [if_pos hmode]
        exact ⟨_, rfl, .inr rfl, noReads_nil, hstream, hnr', hunread, hmap ▸ suffix_refl _⟩
      -- The buffer is full, and the next round ends the loop.
      rw [if_neg hmode]
      obtain ⟨o, ho, hr⟩ := ih (remainingSize - n) (q.taken e rest n) hstream hnr'
        (.inr ⟨by omega, by omega⟩)
      rw [ho, bind_some]
      refine ⟨_, rfl, hr.status, hr.noReads, hr.stream, hr.state, ?_, ?_⟩
      · rw [hunread, hr.bytes, append_assoc]
      · rw [← hmap]
        exact hr.entries
    · rw [if_neg hpart]
      obtain ⟨q', done, hremove, hr', hlen'⟩ := hs.taken_remove hq hw (n := n) (by omega)
      have hno : NoReads (done ++ if e.irp.isSome then [.other .success e.dataSize] else []) := by
        refine hr'.noReads.append ?_
        split
        · exact fun c hc => ⟨_, _, mem_singleton.1 hc⟩
        · exact noReads_nil
      rw [hremove, bind_some]
      by_cases hmode : mode = .message
      · rw [if_pos hmode]
        exact ⟨_, rfl, .inl rfl, hno, hr'.stream, hr'.state, hr'.bytes, hr'.entries⟩
      rw [if_neg hmode]
      obtain ⟨o, ho, hr⟩ := ih (remainingSize - n) q' hr'.stream hr'.state (by omega)
      rw [ho, bind_some]
      refine ⟨_, rfl, hr.status, hno.append hr.noReads, hr.stream, hr.state, ?_,
        hr.entries.trans hr'.entries⟩
      rw [hr'.bytes, hr.bytes, append_assoc]

/-- In message mode the loop takes from the first entry only, and tells whether it has more. -/
theorem readLoop_message (hs : Stream q) (hw : q.queueState = .writeEntries)
    (hq : q.entries = e :: rest) {fuel size : Nat} (hsize : size ≠ 0) {o : ReadOutcome}
    (ho : readLoop .message (fuel + 1) size q = some o) :
    o.data <+: e.data.drop q.byteOffset ∧
      (o.status = .bufferOverflow ↔ q.byteOffset + o.data.length < e.dataSize) := by
  have hmem : e ∈ q.entries := by simp [hq]
  have hinside := hs.inside e rest hq
  have hlen := hs.writes hw e hmem
  obtain ⟨n, hn⟩ : ∃ n, n = min (e.dataSize - q.byteOffset) size := ⟨_, rfl⟩
  have htake : ((e.data.drop q.byteOffset).take n).length = n := by
    rw [length_take, length_drop]
    omega
  rw [readLoop_take hs.real hq (hs.sizes e hmem) hinside hsize hn] at ho
  by_cases hpart : e.dataSize - q.byteOffset - n ≠ 0
  · grind
  obtain ⟨q', done, hremove, -⟩ := hs.taken_remove hq hw (n := n) (by omega)
  rw [if_neg hpart, hremove, bind_some] at ho
  obtain rfl := some.inj ho
  refine ⟨ take_prefix _ _, iff_of_false NtStatus.noConfusion ?_⟩
  rw [htake]
  omega

/-- `NpReadDataQueue` hands the first bytes of the queue to the reader; in message mode they are
    from one entry. -/
theorem npReadDataQueue_reads (hs : Stream q) (hnr : q.queueState ≠ .readEntries) (size : Nat)
    (mode : PipeMode) :
    ∃ o, npReadDataQueue q size mode = some o ∧ Reads q o ∧
      (mode = .message → size ≠ 0 → ∀ e rest, q.entries = e :: rest →
        o.data <+: e.data.drop q.byteOffset ∧
          (o.status = .bufferOverflow ↔ q.byteOffset + o.data.length < e.dataSize)) := by
  obtain ⟨o, ho, hr⟩ := readLoop_reads mode (q.entries.length + 2) size q hs hnr (.inl (by omega))
  have hmessage := fun (hmode : mode = .message) (hsize : size ≠ 0) e rest
      (hq : q.entries = e :: rest) =>
    readLoop_message hs (hs.writeEntries hnr (by simp [hq])) hq hsize (hmode ▸ ho)
  rw [npReadDataQueue, ho]
  simp only [bind, bind_some]
  by_cases hcomplete : o.completeWrites = true
  · obtain ⟨hsame, hno⟩ := npCompleteStalledWrites_same o.queue
    obtain ⟨hstream, hunread⟩ := hsame.stream hr.stream hr.state
    rw [if_pos hcomplete]
    refine ⟨_, rfl, ⟨hr.status, hr.noReads.append hno, hstream, ?_, ?_, ?_⟩, hmessage⟩
    · rw [hsame.state]
      exact hr.state
    · rw [hunread]
      exact hr.bytes
    · rw [map_data_kept hsame.entries]
      exact hr.entries
  · rw [if_neg hcomplete]
    exact ⟨o, rfl, hr, hmessage⟩

theorem peekLoop_zero (offset : Nat) (es : List DataEntry) :
    peekLoop mode 0 offset es = (.success, []) := by
  cases es <;> rfl

/-- A peek sees of an entry what a look at the stalled writes keeps. -/
theorem peekLoop_kept {es es' : List DataEntry} (h : List.Forall₂ Kept es es') :
    ∀ size offset, peekLoop mode size offset es' = peekLoop mode size offset es := by
  induction h with
  | nil => exact fun _ _ => rfl
  | cons hk _ ih => simp only [peekLoop, DataEntry.Real, hk.type, hk.size, hk.data, ih, implies_true]

/-- The loop of a read returns what a peek returns. -/
theorem readLoop_peek (fuel : Nat) : ∀ {size : Nat} {q : DataQueue} {o : ReadOutcome}, Stream q →
    q.queueState ≠ .readEntries → readLoop mode fuel size q = some o →
    peekLoop mode size q.byteOffset q.entries = (o.status, o.data) := by
  induction fuel with
  | zero => exact fun _ _ h => absurd h (by simp [readLoop])
  | succ fuel ih =>
    intro size q o hs hnr ho
    by_cases hstop : q.entries = [] ∨ size = 0
    · rw [readLoop_stop hs.real hstop] at ho
      obtain rfl := some.inj ho
      rcases hstop with hnil | rfl
      · rw [hnil, peekLoop]
      · exact peekLoop_zero _ _
    obtain ⟨hne, h0⟩ := not_or.1 hstop
    obtain ⟨e, rest, hq⟩ := exists_cons_of_ne_nil hne
    have hmem : e ∈ q.entries := by simp [hq]
    have hsize := hs.sizes e hmem
    have hinside := hs.inside e rest hq
    obtain ⟨n, hn⟩ : ∃ n, n = min (e.dataSize - q.byteOffset) size := ⟨_, rfl⟩
    obtain ⟨hstream, -⟩ := hs.taken hq (hs.writeEntries hnr hne) (n := n) (by omega)
    have hoff : ulongSub e.dataSize q.byteOffset = e.dataSize - q.byteOffset := by
      rw [ulongSub]
      omega
    have hdrop : e.dataSize - (e.dataSize - q.byteOffset) = q.byteOffset := by omega
    rw [readLoop_take hs.real hq hsize hinside h0 hn] at ho
    simp only [hq, peekLoop, h0, if_false, hs.real e hmem, if_true, hoff, hdrop, ← hn]
    by_cases hpart : e.dataSize - q.byteOffset - n ≠ 0
    · rw [if_pos hpart] at ho ⊢
      by_cases hmode : mode = .message
      · rw [if_pos hmode] at ho ⊢
        obtain rfl := some.inj ho
        rfl
      -- The buffer is full, and both loops end.
      rw [if_neg hmode] at ho ⊢
      obtain ⟨next, hnext, hsome⟩ := bind_eq_some_iff.1 ho
      have hih := ih hstream hnr hnext
      rw [show size - n = 0 by omega, peekLoop_zero] at hih ⊢
      rw [← some.inj hsome, ← (Prod.mk.inj hih).1, ← (Prod.mk.inj hih).2]
    · rw [if_neg hpart] at ho ⊢
      obtain ⟨q', done, hremove, -, hsame, hs', -, -⟩ := Stream.remove hstream rfl
      rw [hremove, bind_some] at ho
      by_cases hmode : mode = .message
      · simp only [if_pos hmode] at ho ⊢
        obtain rfl := some.inj ho
        rfl
      simp only [if_neg hmode] at ho ⊢
      obtain ⟨next, hnext, hsome⟩ := bind_eq_some_iff.1 ho
      have hnr' : q'.queueState ≠ .readEntries := by
        rw [hsame.state]
        show (if rest = [] then QueueState.empty else q.queueState) ≠ _
        split
        · decide
        · exact hnr
      have hih := ih hs' hnr' hnext
      rw [peekLoop_kept hsame.entries, hsame.offset] at hih
      rw [← some.inj hsome, show peekLoop mode (size - n) 0 rest = _ from hih]

end Taking

/-! ## Section 4: Adding to a queue -/

section Adding

variable {q : DataQueue} {e : DataEntry}

/-- `NT_ERROR`. -/
def ntError : NtStatus → Bool
  | .success | .pending | .moreProcessingRequired | .bufferOverflow => false
  | .insufficientResources | .invalidParameter | .badImpersonationLevel | .pipeEmpty
  | .pipeBroken => true

/-- What an addition fails with is an error. -/
def AddEnv.Fails (env : AddEnv) : Prop :=
  (∀ status ∈ env.context, ntError status = true) ∧
    ∀ status ∈ env.memory, ntError status = true

/-- What an addition to a queue ends with: a failure, or an entry at the end for the data. -/
inductive Added (q : DataQueue) (who : QueueState) (type : EntryType) (dataSize : Nat)
    (irp : Option Irp) (data : List Byte) (byteOffset : Nat) : NtStatus × DataQueue → Prop where
  | failed {status : NtStatus} : ntError status = true → Added q who type dataSize irp data
      byteOffset (status, q)
  | queued {status : NtStatus} {e : DataEntry} :
      status = .pending ∨ (who = .writeEntries ∧ status = .success) →
      e.dataEntryType = type → e.dataSize = dataSize →
      e.irp = irp ∨ (who = .writeEntries ∧ e.irp = none) →
      (who = .writeEntries → e.data = data) →
      Added q who type dataSize irp data byteOffset (status, insertEntry q who byteOffset e)

theorem npAddDataQueueEntry_added {env : AddEnv} (henv : env.Fails) {who : QueueState}
    (hwho : who ≠ .empty) {type : EntryType} (htype : type = .buffered ∨ type = .unbuffered)
    (dataSize : Nat) (irp : Option Irp) (data : List Byte) (byteOffset : Nat) :
    Added q who type dataSize irp data byteOffset
      (npAddDataQueueEntry q env who type dataSize irp data byteOffset) := by
  have hctx : ∀ status ∈ (if type ≠ .flush ∧ who = .writeEntries then env.context else none),
      ntError status = true := by
    intro status hstatus
    split at hstatus
    · exact henv.1 status hstatus
    · cases hstatus
  unfold npAddDataQueueEntry
  cases hcontext : if type ≠ .flush ∧ who = .writeEntries then env.context else none with
  | some status => exact .failed (hctx status hcontext)
  | none =>
    cases hmemory : env.memory with
    | some status => exact .failed (henv.2 status hmemory)
    | none =>
      rcases htype with rfl | rfl
      · generalize ulongSub q.quota q.quotaUsed = quotaLeft
        generalize ulongSub dataSize byteOffset = wanted
        dsimp only
        by_cases hread : who = .readEntries
        · rw [if_pos hread]
          refine .queued (.inl rfl) rfl rfl (.inl rfl) fun hw => ?_
          rw [hread] at hw
          cases hw
        have hwrite : who = .writeEntries := by
          cases who with
          | readEntries => exact absurd rfl hread
          | writeEntries => rfl
          | empty => exact absurd rfl hwho
        rw [if_neg hread]
        split
        · exact .queued (.inl rfl) rfl rfl (.inl rfl) fun _ => rfl
        · exact .queued (.inr ⟨hwrite, rfl⟩) rfl rfl (.inr ⟨hwrite, rfl⟩) fun _ => rfl
      · exact .queued (.inl rfl) rfl rfl (.inl rfl) fun _ => rfl

section

variable (who : QueueState) (byteOffset : Nat)

@[simp] theorem insertEntry_entries : (insertEntry q who byteOffset e).entries = q.entries ++ [e] := rfl

@[simp] theorem insertEntry_queueState : (insertEntry q who byteOffset e).queueState = who := rfl

@[simp] theorem insertEntry_byteOffset : (insertEntry q who byteOffset e).byteOffset =
      if byteOffset ≠ 0 then byteOffset else q.byteOffset := rfl

/-- What holds of the entries and of the new one holds in the longer queue. -/
theorem forall_insertEntry {P : DataEntry → Prop} (h : ∀ x ∈ q.entries, P x) (he : P e) :
    ∀ x ∈ (insertEntry q who byteOffset e).entries, P x :=
  forall_mem_append.2 ⟨h, forall_mem_singleton.2 he⟩

end

namespace Stream

variable (hs : Stream q) (hreal : e.Real) (hsize : e.dataSize < 2 ^ 32)

include hs hreal hsize

/-- A write at the end of a queue of writes, or the first. -/
theorem insert_write (hnr : q.queueState ≠ .readEntries)
    (hirp : ∀ irp, e.irp = some irp → irp.cancelling = false) (hlen : e.data.length = e.dataSize)
    {byteOffset : Nat} (hinside : byteOffset ≤ e.dataSize)
    (hfirst : byteOffset ≠ 0 → q.entries = []) : Stream (insertEntry q .writeEntries byteOffset e) ∧
      (insertEntry q .writeEntries byteOffset e).unread = q.unread ++ e.data.drop byteOffset := by
  have hwrites : ∀ x ∈ q.entries, x.data.length = x.dataSize := fun x hx =>
    hs.writes (hs.writeEntries hnr (ne_nil_of_mem hx)) x hx
  have hzero : q.entries ≠ [] → byteOffset = 0 := fun hne => by_contra fun h => hne (hfirst h)
  -- The offset is that of the first entry: the new one's, if there was none.
  have hoffset : (insertEntry q .writeEntries byteOffset e).byteOffset =
      if q.entries = [] then byteOffset else q.byteOffset := by
    rw [insertEntry_byteOffset]
    by_cases hnil : q.entries = []
    · have hempty : q.queueState = .empty := hs.empty.2 hnil
      have hzero : q.byteOffset = 0 := hs.offset (by rw [hempty]; decide)
      rw [if_pos hnil]
      split
      · rfl
      · omega
    rw [if_neg hnil, if_neg (by simp [hzero hnil])]
  constructor
  · constructor
    case real => exact forall_insertEntry _ _ hs.real hreal
    case waiting => exact forall_insertEntry _ _ hs.waiting hirp
    case sizes => exact forall_insertEntry _ _ hs.sizes hsize
    case empty => simp
    case reads => exact fun h => absurd h (by simp)
    case writes => exact fun _ => forall_insertEntry _ _ hwrites hlen
    case offset => exact fun h => absurd rfl h
    case inside =>
      intro x xs hx
      rw [insertEntry_entries] at hx
      rw [hoffset]
      rcases hq : q.entries with _ | ⟨x0, rest⟩
      · grind
      · rw [hq, cons_append, cons.injEq] at hx
        rw [if_neg (cons_ne_nil _ _), ← hx.1]
        exact hs.inside x0 rest hq
  · rw [unread, unread, insertEntry_queueState, if_pos rfl, hoffset,
      insertEntry_entries]
    by_cases hnil : q.entries = []
    · rw [if_pos hnil, hs.empty.2 hnil, hnil]
      simp
    obtain ⟨x0, rest, hq⟩ := exists_cons_of_ne_nil hnil
    have hle := hs.inside x0 rest hq
    have hlen0 := hwrites x0 (by simp [hq])
    rw [if_neg hnil, if_pos (hs.writeEntries hnr hnil), hzero hnil, drop_zero,
      flatMap_append, drop_append_of_le_length]
    · simp
    · rw [hq, flatMap_cons, length_append]
      omega

/-- A read at the end of a queue of reads, or the first. -/
theorem insert_read (hnw : q.queueState ≠ .writeEntries) (hirp : e.irp = some ⟨false⟩) :
    Stream (insertEntry q .readEntries 0 e) ∧
      (insertEntry q .readEntries 0 e).unread = q.unread := by
  have hoffset : (insertEntry q .readEntries 0 e).byteOffset = 0 := by
    rw [insertEntry_byteOffset, if_neg (by simp)]
    exact hs.offset hnw
  have hreads : ∀ x ∈ q.entries, x.irp.isSome := by
    intro x hx
    have hne : q.queueState ≠ .empty := fun h => ne_nil_of_mem hx (hs.empty.1 h)
    cases hst : q.queueState with
    | readEntries => exact hs.reads hst x hx
    | writeEntries => exact absurd hst hnw
    | empty => exact absurd hst hne
  constructor
  · constructor
    case real => exact forall_insertEntry _ _ hs.real hreal
    case waiting =>
      refine forall_insertEntry _ _ hs.waiting (fun irp h => ?_)
      obtain rfl := some.inj (hirp.symm.trans h)
      rfl
    case sizes => exact forall_insertEntry _ _ hs.sizes hsize
    case empty => simp
    case reads => exact fun _ => forall_insertEntry _ _ hreads (by simp [hirp])
    case writes => exact fun h => absurd h (by simp)
    case offset => exact fun _ => hoffset
    case inside =>
      intro x xs _
      rw [hoffset]
      exact Nat.zero_le _
  · rw [unread, unread, if_neg hnw, if_neg (by simp)]

end Stream

end Adding

/-! ## Section 5: Serving the waiting reads -/

/-- The reads among the completed requests. -/
def readsOf (done : List Completion) : List (NtStatus × List Byte) :=
  done.filterMap fun
    | .read status data => some (status, data)
    | .other _ _ => none

@[simp] theorem readsOf_append (l l' : List Completion) :
    readsOf (l ++ l') = readsOf l ++ readsOf l' :=
  filterMap_append

theorem NoReads.readsOf_eq {done : List Completion} (h : NoReads done) : readsOf done = [] := by
  rw [readsOf, filterMap_eq_nil_iff]
  intro c hc
  obtain ⟨status, n, rfl⟩ := h c hc
  rfl

/-- The reads get the data piece by piece, from one position to another; in message mode each of
    them learns whether there is more. -/
inductive Served (mode : PipeMode) (data : List Byte) :
    Nat → List (NtStatus × List Byte) → Nat → Prop where
  | nil {a : Nat} : Served mode data a [] a
  | cons {a b : Nat} {status : NtStatus} {d : List Byte} {l : List (NtStatus × List Byte)} :
      d <+: data.drop a →
      (mode = .message → (status = .bufferOverflow ↔ a + d.length < data.length)) →
      Served mode data (a + d.length) l b → Served mode data a ((status, d) :: l) b

/-- Together they get what is between the two positions. -/
theorem Served.flatMap_eq {mode : PipeMode} {data : List Byte} {a b : Nat}
    {l : List (NtStatus × List Byte)} (h : Served mode data a l b) (ha : a ≤ data.length) :
    b ≤ data.length ∧ data.drop a = l.flatMap (·.2) ++ data.drop b := by
  induction h with
  | nil => exact ⟨ha, rfl⟩
  | @cons a b status d l hd _ _ ih =>
    obtain ⟨rest, hrest⟩ := hd
    have hlen : d.length + rest.length = data.length - a := by
      rw [← length_append, hrest, length_drop]
    obtain ⟨hb, hdrop⟩ := ih (by omega)
    refine ⟨hb, ?_⟩
    rw [flatMap_cons, append_assoc, ← hdrop, ← drop_drop, ← hrest,
      drop_left]

section Serving

variable {env : WriteEnv} {n : Nat} {moreProcessing : Bool} {q : DataQueue}

section

variable (mode : PipeMode) (data : List Byte) (fuel : Nat) (haveContext : Bool)

include haveContext

/-- The loop ends with the waiting reads or with the data. -/
theorem writeLoop_stop (hreal : ∀ e ∈ q.entries, e.Real)
    (hstop : ¬ (q.queueState = .readEntries ∧ (n > 0 ∨ moreProcessing = true))) :
    writeLoop mode data env (fuel + 1) n moreProcessing haveContext q =
      some ⟨if n > 0 ∨ moreProcessing then .moreProcessingRequired else .success, n, q, []⟩ := by
  rw [writeLoop, nextReal_eq hreal]
  simp only [bind, bind_some]
  rw [if_pos hstop]
  rfl

/-- The loop serves the first of the waiting reads, or it fails before it touches the queue. -/
theorem writeLoop_serve (hs : Stream q) (hstate : q.queueState = .readEntries)
    (hgo : n > 0 ∨ moreProcessing = true) {e : DataEntry} {rest : List DataEntry}
    (hq : q.entries = e :: rest) {k : Nat} (hk : k = min n e.dataSize)
    (henv : ∀ status ∈ env.context, ntError status = true) : (∃ status, ntError status = true ∧
      writeLoop mode data env (fuel + 1) n moreProcessing haveContext q =
        some ⟨status, n, q, []⟩) ∨
    ∃ q' done, NoReads done ∧ Stream q' ∧ q'.entries = rest ∧
      q'.queueState = (if rest = [] then .empty else .readEntries) ∧
      writeLoop mode data env (fuel + 1) n moreProcessing haveContext q =
        (writeLoop mode data env fuel (n - k)
          (if n - k = 0 then false else moreProcessing) true q').bind fun next =>
          some { next with
            done := done ++ [.read (if n - k ≠ 0 ∧ mode = .message then .bufferOverflow
              else .success) ((data.drop (data.length - n)).take k)] ++ next.done } := by
  obtain ⟨q', done, hremove, hno, -, hs', -, hread⟩ := hs.remove hq
  obtain ⟨hrest, hstate'⟩ := hread hstate
  obtain ⟨irp, hirp⟩ := isSome_iff_exists.1 (hs.reads hstate e (by simp [hq]))
  rw [writeLoop, nextReal_eq hs.real]
  simp only [bind, bind_some, hstate, hgo, hq, and_self, not_true, if_false, ← hk]
  by_cases hbuffer : e.dataEntryType ≠ .unbuffered ∧ k ≠ 0 ∧ env.buffers fuel = false
  · rw [if_pos hbuffer]
    exact .inl ⟨_, rfl, rfl⟩
  rw [if_neg hbuffer]
  cases hcontext : if haveContext = true then none else env.context with
  | some status =>
    have hfail : ntError status = true := by
      split at hcontext
      · cases hcontext
      · exact henv status hcontext
    exact .inl ⟨status, hfail, rfl⟩
  | none =>
    refine .inr ⟨q', done, hno, hs', hrest, hstate', ?_⟩
    simp only [hremove, bind_some, hirp, nil_append]
    rfl

end

/-- What the loop leaves behind, from a position of the data on. -/
structure Serves (mode : PipeMode) (data : List Byte) (a : Nat) (o : WriteOutcome) : Prop where
  stream : Stream o.queue
  notWritten : o.bytesNotWritten ≤ data.length
  served : Served mode data a (readsOf o.done) (data.length - o.bytesNotWritten)
  more : o.status = .moreProcessingRequired → o.queue.queueState ≠ .readEntries

theorem writeLoop_serves (mode : PipeMode) (data : List Byte)
    (henv : ∀ status ∈ env.context, ntError status = true) (fuel : Nat) :
    ∀ (n : Nat) (moreProcessing haveContext : Bool) (q : DataQueue), Stream q →
      q.queueState ≠ .writeEntries → q.entries.length < fuel → n ≤ data.length →
      ∃ o, writeLoop mode data env fuel n moreProcessing haveContext q = some o ∧
        Serves mode data (data.length - n) o ∧ o.queue.queueState ≠ .writeEntries := by
  induction fuel with
  | zero =>
    intro n moreProcessing haveContext q _ _ hfuel
    omega
  | succ fuel ih =>
    intro n moreProcessing haveContext q hs hnw hfuel hn
    by_cases hgo : q.queueState = .readEntries ∧ (n > 0 ∨ moreProcessing = true)
    · obtain ⟨hstate, hgo⟩ := hgo
      have hne : q.entries ≠ [] := fun h => by
        rw [hs.empty.2 h] at hstate
        cases hstate
      obtain ⟨e, rest, hq⟩ := exists_cons_of_ne_nil hne
      obtain ⟨k, hk⟩ : ∃ k, k = min n e.dataSize := ⟨_, rfl⟩
      -- the first waiting read is given a piece, and the loop goes on with the rest
      rcases writeLoop_serve mode data fuel haveContext hs hstate hgo hq hk henv with
        ⟨status, hfail, heq⟩ | ⟨q', done, hno, hs', hrest, hstate', heq⟩
      · refine ⟨_, heq, ⟨hs, hn, .nil, fun h => ?_⟩, hnw⟩
        rw [show status = _ from h] at hfail
        cases hfail
      have hnw' : q'.queueState ≠ .writeEntries := by
        rw [hstate']
        split <;> decide
      have hlen : q'.entries.length < fuel := by
        rw [hrest]
        rw [hq, length_cons] at hfuel
        omega
      obtain ⟨o, ho, hserves, hstate''⟩ := ih (n - k) (if n - k = 0 then false else moreProcessing)
        true q' hs' hnw' hlen (by omega)
      rw [heq, ho, bind_some]
      have hpiece : ((data.drop (data.length - n)).take k).length = k := by
        rw [length_take, length_drop]
        omega
      refine ⟨_, rfl, ⟨hserves.stream, hserves.notWritten, ?_, hserves.more⟩, hstate''⟩
      rw [readsOf_append, readsOf_append, hno.readsOf_eq, nil_append]
      refine .cons ( take_prefix _ _) (fun hmode => ?_) ?_
      · grind
      · rw [hpiece, show data.length - n + k = data.length - (n - k) by omega]
        exact hserves.served
    · refine ⟨_, writeLoop_stop _ _ _ _ hs.real hgo, ⟨hs, hn, .nil, fun h hr => hgo ⟨hr, ?_⟩⟩, hnw⟩
      by_contra hdone
      rw [if_neg hdone] at h
      cases h

/-- What `NpWriteDataQueue` leaves of a queue: only waiting reads are touched. -/
structure Wrote (q : DataQueue) (mode : PipeMode) (data : List Byte) (o : WriteOutcome) : Prop
    extends Serves mode data 0 o where
  unread : o.queue.unread = q.unread
  reads : q.unread = [] ∨ readsOf o.done = []
  same : o.queue.entries ≠ [] → o.queue.queueState ≠ .readEntries →
    o.queue = q ∧ o.bytesNotWritten = data.length

/-- `NpWriteDataQueue` gives the data to the waiting reads; a queue of writes is left alone. -/
theorem npWriteDataQueue_wrote (hs : Stream q) (mode : PipeMode) (data : List Byte)
    (pipeType : PipeMode) (henv : ∀ status ∈ env.context, ntError status = true) :
    ∃ o, npWriteDataQueue q env mode data pipeType = some o ∧ Wrote q mode data o := by
  by_cases hw : q.queueState = .writeEntries
  · have hstop : ¬ (q.queueState = .readEntries ∧ (data.length > 0 ∨
        decide (pipeType = .message ∧ data.length = 0) = true)) := by
      rw [hw]
      exact fun h => absurd h.1 (by decide)
    refine ⟨_, writeLoop_stop _ _ _ _ hs.real hstop, ⟨hs, Nat.le_refl _, ?_, ?_⟩, rfl, .inr rfl,
      fun _ _ => ⟨rfl, rfl⟩⟩
    · rw [Nat.sub_self]
      exact .nil
    · intro _ hr
      exact absurd (hw.symm.trans hr) (by decide)
  · obtain ⟨o, ho, hserves, hnw⟩ := writeLoop_serves mode data henv (q.entries.length + 2)
      data.length (decide (pipeType = .message ∧ data.length = 0)) false q hs hw (by omega)
      (Nat.le_refl _)
    have hnil : q.unread = [] := by rw [unread, if_neg hw]
    have hnil' : o.queue.unread = [] := by rw [unread, if_neg hnw]
    rw [Nat.sub_self] at hserves
    exact ⟨o, ho, hserves, hnil'.trans hnil.symm, .inl hnil, fun hne hnr =>
      absurd (hserves.stream.writeEntries hnr hne) hnw⟩

end Serving

end Npfs
