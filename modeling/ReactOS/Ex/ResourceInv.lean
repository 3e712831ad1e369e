import ReactOS.Ex.Resource
import ReactOS.Lib.Counting

/-! # The invariant of an executive resource

    Ownership is spread over the owner entries, the counters and the places
    of the threads.  Each thread has a weight in `ActiveEntries`: it holds the
    resource, its wait is over, or it is about to wake the threads it handed the
    resource to; what is missing are the signals of the semaphore and of the
    event that nobody has taken yet. -/

namespace Resource

open EResource Thread

open Function (update update_self update_of_ne)

/-! ## Section 1: Owner entries -/

variable {t : ThreadId} {slot : Slot} {r : EResource}

/-- The entries name the threads that own a count, each once. -/
structure Entries (ent : Slot → OwnerEntry) (owns : ThreadId → Option Nat) : Prop where
  named : ∀ slot t, (ent slot).ownerThread = .thread t → owns t = some (ent slot).ownerCount
  listed : ∀ t c, owns t = some c → ∃ slot, (ent slot).ownerThread = .thread t
  unique : ∀ slot slot' t, (ent slot).ownerThread = .thread t →
    (ent slot').ownerThread = .thread t → slot = slot'

/-- An entry is filled in, changed or cleared by its thread. -/
theorem Entries.update {ent : Slot → OwnerEntry} {owns : ThreadId → Option Nat}
    (h : Entries ent owns) (slot : Slot) {e : OwnerEntry} {x : Option Nat}
    (hslot : ∀ u, (ent slot).ownerThread = .thread u → u = t)
    (ht : ∀ slot', (ent slot').ownerThread = .thread t → slot' = slot)
    (hnew : e.ownerThread = .thread t ∧ x = some e.ownerCount ∨
      (∀ u, e.ownerThread ≠ .thread u) ∧ x = none) :
    Entries (update ent slot e) (update owns t x) := by
  -- an entry names a thread: it is the new entry and `t`, or an old one and another thread
  have hnames : ∀ slot' u, (Function.update ent slot e slot').ownerThread = .thread u →
      (slot' = slot ∧ u = t ∧ x = some e.ownerCount) ∨
      (slot' ≠ slot ∧ u ≠ t ∧ (ent slot').ownerThread = .thread u) := by
    intro slot' u hu
    by_cases hs : slot' = slot
    · grind
    · rw [update_of_ne hs] at hu
      exact .inr ⟨hs, fun hut => hs (ht slot' (hut ▸ hu)), hu⟩
  constructor
  · intro slot' u hu
    rcases hnames slot' u hu with ⟨rfl, rfl, hx⟩ | ⟨hs, hut, hold⟩
    · rw [update_self, update_self, hx]
    · rw [update_of_ne hut, update_of_ne hs]
      exact h.named slot' u hold
  · intro u c hu
    by_cases hut : u = t
    · subst hut
      rcases hnew with ⟨he, -⟩ | ⟨-, hx⟩
      · exact ⟨slot, by rw [update_self, he]⟩
      · simp [hx] at hu
    rw [update_of_ne hut] at hu
    obtain ⟨slot', hs'⟩ := h.listed u c hu
    have hne : slot' ≠ slot := fun heq => hut (hslot u (heq ▸ hs'))
    exact ⟨slot', by rw [update_of_ne hne, hs']⟩
  · intro slot1 slot2 u h1 h2
    rcases hnames slot1 u h1 with ⟨rfl, rfl, -⟩ | ⟨-, hut, hold⟩
    · grind
    · rcases hnames slot2 u h2 with ⟨-, rfl, -⟩ | ⟨-, -, hold'⟩
      · exact absurd rfl hut
      · exact h.unique _ _ _ hold hold'

/-- A slot that a write reaches. -/
def EResource.Valid (r : EResource) : Slot → Prop
  | .first => True
  | .table i => i < r.entries.length

theorem entry_setEntry (r : EResource) (hvalid : r.Valid slot) (e : OwnerEntry) :
    (r.setEntry e slot).entry = update r.entry slot e := by
  funext slot'
  cases slot with
  | first => cases slot' <;> simp [setEntry, entry, entries]
  | table i =>
    cases slot' with
    | first => simp [setEntry, entry]
    | table j =>
      cases ht : r.ownerTable with
      | none => simp [EResource.Valid, entries, ht] at hvalid
      | some l =>
        have hi : i < l.length := by simpa [EResource.Valid, entries, ht] using hvalid
        by_cases hij : i = j
        · subst hij
          simp [setEntry, entry, entries, ht, hi]
        · simp [setEntry, entry, entries, ht,
            List.getElem?_set_ne hij, update_of_ne (show Slot.table j ≠ .table i by simp [Ne.symm hij])]

/-- A larger table has free entries behind the old ones. -/
theorem entry_expand (r : EResource) (size : Nat) :
    (expExpandResourceOwnerTable r size).entry = r.entry := by
  unfold expExpandResourceOwnerTable
  dsimp only
  generalize (if size = 0 then 3 else size + 4) - 1 - r.entries.length = m
  split
  · funext slot
    cases slot with
    | first => rfl
    | table i =>
      simp only [entry, entries, Option.getD_some]
      rw [List.getElem?_append]
      split
      · rfl
      rename_i hlen
      rw [List.getElem?_eq_none (by omega : (r.ownerTable.getD []).length ≤ i),
        List.getElem?_replicate]
      split <;> rfl
  · rfl

theorem freeInTable_spec (h : freeInTable r = some slot) :
    r.Valid slot ∧ (r.entry slot).ownerThread = .none ∧ slot ≠ .first := by
  obtain ⟨i, hi, rfl⟩ := Option.map_eq_some_iff.1 h
  obtain ⟨hlt, hfree, -⟩ := List.findIdx?_eq_some_iff_getElem.1 hi
  refine ⟨hlt, ?_, by simp⟩
  simpa [entry, List.getElem?_eq_getElem hlt] using hfree

theorem findInTable_some (h : findInTable r t = some slot) :
    r.Valid slot ∧ (r.entry slot).ownerThread = .thread t := by
  obtain ⟨i, hi, rfl⟩ := Option.map_eq_some_iff.1 h
  obtain ⟨hlt, hown, -⟩ := List.findIdx?_eq_some_iff_getElem.1 hi
  exact ⟨hlt, by simpa [entry, List.getElem?_eq_getElem hlt] using hown⟩

theorem findInTable_none (h : findInTable r t = none) (i : Nat) :
    (r.entry (.table i)).ownerThread ≠ .thread t := by
  have hall : ∀ e ∈ r.entries, ¬ e.ownerThread = .thread t := by
    simpa [findInTable, List.findIdx?_eq_none_iff] using h
  intro hown
  by_cases hi : i < r.entries.length
  · rw [entry, List.getElem?_eq_getElem hi, Option.getD_some] at hown
    exact hall _ (List.getElem_mem hi) hown
  · rw [entry, List.getElem?_eq_none (Nat.le_of_not_lt hi)] at hown
    simp [OwnerEntry.free] at hown

/-- A thread with an entry finds it, another one a free entry. -/
theorem expFindEntryForThread_spec {inelligible : Bool}
    (h : expFindEntryForThread r t inelligible = some slot) :
    r.Valid slot ∧ ((r.entry slot).ownerThread = .thread t ∨
      (r.entry slot).ownerThread = .none ∧ (∀ slot', (r.entry slot').ownerThread ≠ .thread t) ∧
        (slot = .first → inelligible = false)) := by
  unfold expFindEntryForThread at h
  split at h
  · cases h
    exact ⟨trivial, .inl (by assumption)⟩
  rename_i hfirst
  split at h
  · rename_i slot' hfound
    cases h
    exact ⟨(findInTable_some hfound).1, .inl (findInTable_some hfound).2⟩
  rename_i hnone
  have hnot : ∀ slot', (r.entry slot').ownerThread ≠ .thread t := by
    intro slot'
    cases slot' with
    | first => exact hfirst
    | table i => exact findInTable_none hnone i
  split at h
  · obtain ⟨hvalid, hfree, hne⟩ := freeInTable_spec h
    exact ⟨hvalid, .inr ⟨hfree, hnot, fun heq => absurd heq hne⟩⟩
  rename_i hel
  cases h
  rw [not_or, not_not] at hel
  exact ⟨trivial, .inr ⟨hel.2, hnot, fun _ => by simpa using hel.1⟩⟩

/-! ## Section 2: Weights -/

variable {s : State} {U : Finset ThreadId}

/-- The count in the entry that a thread has, if it has one.  The thread that
    `KeSetEventBoostPriority` woke may be in the first entry before it ran. -/
def Thread.owns (first : OwnerThread) (t : ThreadId) (x : Thread) : Option Nat :=
  if 0 < x.count then some x.count
  else
    match x.pc with
    | .waitShared | .granted => some 1
    | .own => if first = .thread t then some 1 else none
    | _ => none

def State.owns (s : State) (t : ThreadId) : Option Nat :=
  (s.threads t).owns s.resource.ownerEntry.ownerThread t

/-- Shared ownership that was handed over and is not held yet. -/
@[simp] def Pc.handedShared : Pc → Nat
  | .granted | .claim | .claimExpand _ => 1
  | .releaseSemaphore n => n
  | _ => 0

/-- Exclusive ownership that was handed over and is not held yet. -/
@[simp] def Pc.handedExclusive : Pc → Nat
  | .own | .setEvent => 1
  | _ => 0

@[simp] def Pc.waitsShared : Pc → Nat
  | .waitShared | .waitUnlisted => 1
  | _ => 0

@[simp] def Pc.waitsExclusive : Pc → Nat
  | .waitExclusive => 1
  | _ => 0

/-- Signals of the semaphore that are about to be given. -/
@[simp] def Pc.pendingShared : Pc → Nat
  | .releaseSemaphore n => n
  | _ => 0

/-- Signals of the event that are about to be given. -/
@[simp] def Pc.pendingExclusive : Pc → Nat
  | .setEvent => 1
  | _ => 0

def Thread.holding (x : Thread) : Nat := if 0 < x.count then 1 else 0
def Thread.handedShared (x : Thread) : Nat := x.pc.handedShared
def Thread.handedExclusive (x : Thread) : Nat := x.pc.handedExclusive
def Thread.waitsShared (x : Thread) : Nat := x.pc.waitsShared
def Thread.waitsExclusive (x : Thread) : Nat := x.pc.waitsExclusive
def Thread.pendingShared (x : Thread) : Nat := x.pc.pendingShared
def Thread.pendingExclusive (x : Thread) : Nat := x.pc.pendingExclusive

section Goto

variable (x : Thread) (pc : Pc)

@[simp] theorem goto_holding : (x.goto pc).holding = x.holding := rfl
@[simp] theorem goto_handedShared : (x.goto pc).handedShared = pc.handedShared := rfl
@[simp] theorem goto_handedExclusive : (x.goto pc).handedExclusive = pc.handedExclusive := rfl

end Goto

/-- The weight of the threads of `U`. -/
def State.total (s : State) (U : Finset ThreadId) (w : Thread → Nat) : Nat :=
  ∑ t ∈ U, w (s.threads t)

theorem total_set (ht : t ∈ U) (r : EResource) (x : Thread) (w : Thread → Nat) :
    (s.set r t x).total U w + w (s.threads t) = s.total U w + w x :=
  Counting.sum_update_add ht s.threads x w

/-- A thread that is in no routine and holds nothing. -/
def Thread.absent : Thread := ⟨.idle, 0, false⟩

/-! ## Section 3: The invariant -/

variable {u : ThreadId}

/-- What holds between any two steps; all threads outside `U` are absent. -/
structure Inv (U : Finset ThreadId) (s : State) : Prop where
  support : ∀ t, t ∉ U → s.threads t = .absent
  active : s.resource.activeEntries = s.total U Thread.holding + s.total U Thread.handedShared +
    s.total U Thread.handedExclusive + s.resource.semaphore + s.resource.event.toNat
  sharedWaiters : s.total U Thread.waitsShared = s.resource.numberOfSharedWaiters +
    s.resource.semaphore + s.total U Thread.pendingShared
  exclusiveWaiters : s.total U Thread.waitsExclusive = s.resource.numberOfExclusiveWaiters +
    s.resource.event.toNat + s.total U Thread.pendingExclusive
  activeCount : s.resource.activeCount = if s.resource.activeEntries = 0 then 0 else 1
  /-- One owner, and nothing shared on its way. -/
  exclusive : s.resource.ownedExclusive = true → s.resource.activeEntries = 1 ∧
    s.total U Thread.handedShared = 0 ∧ s.resource.semaphore = 0
  /-- Nothing exclusive on its way. -/
  shared : s.resource.ownedExclusive = false →
    s.total U Thread.handedExclusive = 0 ∧ s.resource.event = false
  mode : ∀ t, (s.threads t).exclusive = true ↔ s.Holds t ∧ s.resource.ownedExclusive = true
  waitsForExclusive : 0 < s.resource.numberOfSharedWaiters →
    s.resource.ownedExclusive = true ∨ 0 < s.resource.numberOfExclusiveWaiters
  owned : 0 < s.resource.numberOfExclusiveWaiters → 0 < s.resource.activeEntries
  place : ∀ t, s.Holds t →
    (s.threads t).pc = .idle ∨ ∃ n, (s.threads t).pc = .releaseSemaphore n
  small : ∀ t, (s.threads t).count < ownerCountModulus
  entries : Entries s.resource.entry s.owns
  /-- The first entry is not for waiters. -/
  first : ∀ t, s.resource.ownerEntry.ownerThread = .thread t → s.Holds t ∨ (s.threads t).pc = .own
  exclusiveFirst : s.resource.ownedExclusive = true → ∀ t, s.Holds t →
    s.resource.ownerEntry.ownerThread = .thread t
  inTransit : s.resource.ownedExclusive = true → (∀ t, ¬ s.Holds t) →
    s.resource.ownerEntry.ownerCount = 1

theorem Inv.insert (h : Inv U s) (t : ThreadId) : Inv (insert t U) s := by
  by_cases ht : t ∈ U
  · rwa [Finset.insert_eq_of_mem ht]
  have htotal : ∀ w : Thread → Nat, w .absent = 0 → s.total (Insert.insert t U) w = s.total U w := by
    intro w hw
    rw [State.total, Finset.sum_insert ht, h.support t ht, hw, Nat.zero_add]
    rfl
  refine { h with
    support := fun u hu => h.support u fun hU => hu (Finset.mem_insert_of_mem hU)
    active := ?_, sharedWaiters := ?_, exclusiveWaiters := ?_, exclusive := ?_, shared := ?_ }
  · rw [htotal _ rfl, htotal _ rfl, htotal _ rfl]
    exact h.active
  · rw [htotal _ rfl, htotal _ rfl]
    exact h.sharedWaiters
  · rw [htotal _ rfl, htotal _ rfl]
    exact h.exclusiveWaiters
  · rw [htotal _ rfl]
    exact h.exclusive
  · rw [htotal _ rfl]
    exact h.shared

theorem Inv.le_total (h : Inv U s) (w : Thread → Nat)
    (hw : w .absent = 0) (t : ThreadId) : w (s.threads t) ≤ s.total U w := by
  by_cases ht : t ∈ U
  · exact Finset.single_le_sum (f := fun u => w (s.threads u)) (fun _ _ => Nat.zero_le _) ht
  · rw [h.support t ht, hw]
    exact Nat.zero_le _

theorem Inv.add_le_total (h : Inv U s) (w : Thread → Nat) (hw : w .absent = 0) (hne : t ≠ u) :
    w (s.threads t) + w (s.threads u) ≤ s.total U w := by
  by_cases ht : t ∈ U
  · by_cases hu : u ∈ U
    · exact Counting.add_le_sum ht hu hne fun x => w (s.threads x)
    · rw [h.support u hu, hw]
      exact h.le_total w hw t
  · rw [h.support t ht, hw, Nat.zero_add]
    exact h.le_total w hw u

theorem holding_pos (h : s.Holds t) : (s.threads t).holding = 1 :=
  if_pos h

theorem Inv.alone (h : Inv U s) (hex : s.resource.ownedExclusive = true) (ht : s.Holds t) :
    s.total U holding = 1 ∧ s.total U handedExclusive = 0 ∧
      s.resource.event = false ∧ ∀ u, s.Holds u → u = t := by
  have hactive := h.active
  obtain ⟨hone, hshared, hsem⟩ := h.exclusive hex
  have hle := h.le_total holding rfl t
  rw [holding_pos ht] at hle
  have hevent : s.resource.event.toNat = 0 := by omega
  refine ⟨by omega, by omega, by simpa using hevent, fun u hu => ?_⟩
  by_contra hne
  have hpair := h.add_le_total holding rfl hne
  rw [holding_pos ht, holding_pos hu] at hpair
  omega

/-! ## Section 4: One thread moves -/

section Move

variable {U : Finset ThreadId} {s : State} {t : ThreadId} {r : EResource} {x : Thread}

@[simp] theorem set_resource : (s.set r t x).resource = r := rfl

@[simp] theorem set_threads_self : (s.set r t x).threads t = x := by
  simp [State.set]

theorem set_threads_ne (h : u ≠ t) : (s.set r t x).threads u = s.threads u := by
  simp [State.set, h]

theorem holds_set : (s.set r t x).Holds u ↔ if u = t then 0 < x.count else s.Holds u := by
  by_cases hu : u = t
  · subst hu
    simp [State.Holds]
  · simp [State.Holds, set_threads_ne hu, hu]

/-- What the entries say changes for the thread that moved only, as long as
    the first entry does not change hands. -/
theorem owns_set (hother : ∀ u, u ≠ t → (s.threads u).pc = .own →
      (r.ownerEntry.ownerThread = .thread u ↔ s.resource.ownerEntry.ownerThread = .thread u)) :
    (s.set r t x).owns = update s.owns t (x.owns r.ownerEntry.ownerThread t) := by
  funext u
  by_cases hu : u = t
  · subst hu
    rw [update_self, State.owns, set_threads_self, set_resource]
  rw [update_of_ne hu, State.owns, State.owns, set_threads_ne hu, set_resource]
  unfold owns
  by_cases hpc : (s.threads u).pc = .own
  · simp [hpc, hother u hu hpc]
  · cases hp : (s.threads u).pc <;> simp_all

/-- The obligations of a step that changes the resource and one thread. -/
theorem Inv.set (h : Inv U s) (ht : t ∈ U)
    (hactive : r.activeEntries + (s.threads t).holding + (s.threads t).handedShared +
        (s.threads t).handedExclusive + s.resource.semaphore + s.resource.event.toNat =
      s.resource.activeEntries + x.holding + x.handedShared + x.handedExclusive + r.semaphore +
        r.event.toNat)
    (hsharedWaiters : s.resource.numberOfSharedWaiters + s.resource.semaphore + x.waitsShared +
        (s.threads t).pendingShared =
      r.numberOfSharedWaiters + r.semaphore + (s.threads t).waitsShared + x.pendingShared)
    (hexclusiveWaiters : s.resource.numberOfExclusiveWaiters + s.resource.event.toNat +
        x.waitsExclusive + (s.threads t).pendingExclusive =
      r.numberOfExclusiveWaiters + r.event.toNat + (s.threads t).waitsExclusive +
        x.pendingExclusive)
    (hcount : r.activeCount = if r.activeEntries = 0 then 0 else 1)
    (hexclusive : r.ownedExclusive = true → r.activeEntries = 1 ∧
      (s.set r t x).total U handedShared = 0 ∧ r.semaphore = 0)
    (hshared : r.ownedExclusive = false →
      (s.set r t x).total U handedExclusive = 0 ∧ r.event = false)
    (hmode : x.exclusive = true ↔ 0 < x.count ∧ r.ownedExclusive = true)
    (hflag : ∀ u, u ≠ t → s.Holds u → r.ownedExclusive = s.resource.ownedExclusive)
    (hwaits : 0 < r.numberOfSharedWaiters →
      r.ownedExclusive = true ∨ 0 < r.numberOfExclusiveWaiters)
    (howned : 0 < r.numberOfExclusiveWaiters → 0 < r.activeEntries)
    (hplace : 0 < x.count → x.pc = .idle ∨ ∃ n, x.pc = .releaseSemaphore n)
    (hsmall : x.count < ownerCountModulus)
    (hentries : Entries r.entry (s.set r t x).owns)
    (hfirst : ∀ u, r.ownerEntry.ownerThread = .thread u →
      (s.set r t x).Holds u ∨ ((s.set r t x).threads u).pc = .own)
    (hexclusiveFirst : r.ownedExclusive = true → ∀ u, (s.set r t x).Holds u →
      r.ownerEntry.ownerThread = .thread u)
    (htransit : r.ownedExclusive = true → (∀ u, ¬ (s.set r t x).Holds u) →
      r.ownerEntry.ownerCount = 1) : Inv U (s.set r t x) := by
  -- one thread changes, so each sum changes by the difference of its weights
  have hw := total_set (s := s) ht r x
  refine { support := fun u hu => ?_, active := ?_, sharedWaiters := ?_, exclusiveWaiters := ?_,
           activeCount := hcount, exclusive := hexclusive, shared := hshared, mode := fun u => ?_,
           waitsForExclusive := hwaits, owned := howned, place := fun u hu => ?_,
           small := fun u => ?_, entries := hentries, first := hfirst,
           exclusiveFirst := hexclusiveFirst, inTransit := htransit }
  · have hne : u ≠ t := fun heq => hu (heq ▸ ht)
    rw [set_threads_ne hne]
    exact h.support u hu
  · have h1 := hw holding
    have h2 := hw handedShared
    have h3 := hw handedExclusive
    have h4 := h.active
    rw [set_resource]
    omega
  · have h1 := hw waitsShared
    have h2 := hw pendingShared
    have h3 := h.sharedWaiters
    rw [set_resource]
    omega
  · have h1 := hw waitsExclusive
    have h2 := hw pendingExclusive
    have h3 := h.exclusiveWaiters
    rw [set_resource]
    omega
  · rw [holds_set, set_resource]
    by_cases hu : u = t
    · subst hu
      simpa using hmode
    · rw [set_threads_ne hu, if_neg hu, h.mode u]
      exact and_congr_right fun hold => by rw [hflag u hu hold]
  · by_cases hut : u = t
    · subst hut
      rw [set_threads_self]
      exact hplace (by simpa [holds_set] using hu)
    · rw [set_threads_ne hut]
      exact h.place u (by simpa [holds_set, hut] using hu)
  · by_cases hut : u = t
    · subst hut
      rw [set_threads_self]
      exact hsmall
    · rw [set_threads_ne hut]
      exact h.small u

/-- The thread goes elsewhere and the owners stay: the counters of waiters
    and signals change, and the thread may fill in an entry of the table. -/
theorem Inv.moveTo (h : Inv U s) (ht : t ∈ U) {old pc : Pc} (hold : (s.threads t).pc = old)
    (hactiveEntries : r.activeEntries = s.resource.activeEntries)
    (hcount : r.activeCount = s.resource.activeCount)
    (hflag : r.ownedExclusive = s.resource.ownedExclusive)
    (hownerEntry : r.ownerEntry = s.resource.ownerEntry)
    (hentries : Entries r.entry (s.set r t ((s.threads t).goto pc)).owns)
    (hactive : old.handedShared + old.handedExclusive + s.resource.semaphore +
        s.resource.event.toNat =
      pc.handedShared + pc.handedExclusive + r.semaphore + r.event.toNat)
    (hsharedWaiters : s.resource.numberOfSharedWaiters + s.resource.semaphore + pc.waitsShared +
        old.pendingShared =
      r.numberOfSharedWaiters + r.semaphore + old.waitsShared + pc.pendingShared)
    (hexclusiveWaiters : s.resource.numberOfExclusiveWaiters + s.resource.event.toNat +
        pc.waitsExclusive + old.pendingExclusive =
      r.numberOfExclusiveWaiters + r.event.toNat + old.waitsExclusive + pc.pendingExclusive)
    (hexclusive : s.resource.ownedExclusive = true →
      old.handedShared = pc.handedShared ∧ r.semaphore = s.resource.semaphore)
    (hshared : s.resource.ownedExclusive = false →
      old.handedExclusive = pc.handedExclusive ∧ r.event = s.resource.event)
    (hwaits : 0 < r.numberOfSharedWaiters →
      s.resource.ownedExclusive = true ∨ 0 < r.numberOfExclusiveWaiters)
    (howned : 0 < r.numberOfExclusiveWaiters → 0 < s.resource.activeEntries)
    (hplace : s.Holds t → pc = .idle ∨ ∃ n, pc = .releaseSemaphore n)
    (hown : old ≠ .own) : Inv U (s.set r t ((s.threads t).goto pc)) := by
  subst hold
  have hw := total_set (s := s) ht r ((s.threads t).goto pc)
  have hholds : ∀ u, (s.set r t ((s.threads t).goto pc)).Holds u ↔ s.Holds u := by
    intro u
    rw [holds_set]
    by_cases hu : u = t
    · subst hu
      simp [goto, State.Holds]
    · simp [hu]
  refine h.set ht ?_ hsharedWaiters hexclusiveWaiters ?_ (fun hex => ?_) (fun hex => ?_) ?_
    (fun _ _ _ => hflag) (by rwa [hflag]) (by rwa [hactiveEntries]) hplace (h.small t) hentries
    (fun u hu => ?_) (fun hex u hu => ?_) (fun hex hnone => ?_)
  · rw [goto_holding, goto_handedShared, goto_handedExclusive, handedShared, handedExclusive]
    omega
  · rw [hcount, hactiveEntries]
    exact h.activeCount
  · rw [hflag] at hex
    have h1 : _ + (s.threads t).pc.handedShared = _ + pc.handedShared := hw handedShared
    have h2 := h.exclusive hex
    have h3 := hexclusive hex
    omega
  · rw [hflag] at hex
    have h1 : _ + (s.threads t).pc.handedExclusive = _ + pc.handedExclusive := hw handedExclusive
    have h2 := h.shared hex
    have h3 := hshared hex
    exact ⟨by omega, h3.2.trans h2.2⟩
  · rw [hflag]
    exact h.mode t
  · rw [hholds]
    rcases h.first u (hownerEntry ▸ hu) with hold | hpc
    · exact .inl hold
    · have hut : u ≠ t := fun heq => hown (heq ▸ hpc)
      exact .inr (by rw [set_threads_ne hut]; exact hpc)
  · rw [hownerEntry]
    exact h.exclusiveFirst (hflag ▸ hex) u ((hholds u).1 hu)
  · rw [hownerEntry]
    exact h.inTransit (hflag ▸ hex) fun u hu => hnone u ((hholds u).2 hu)

theorem Entries.of_same (h : Inv U s) (hownerEntry : r.ownerEntry = s.resource.ownerEntry)
    (hentry : r.entry = s.resource.entry)
    (howns : x.owns s.resource.ownerEntry.ownerThread t = s.owns t) :
    Entries r.entry (s.set r t x).owns := by
  have hsame : (s.set r t x).owns = s.owns := by
    rw [owns_set fun u _ _ => by rw [hownerEntry], hownerEntry, howns]
    exact Function.update_eq_self t s.owns
  rw [hentry, hsame]
  exact h.entries

end Move

end Resource
