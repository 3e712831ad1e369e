import ReactOS.Mm.Vad

/-! # The best free address range

    `MiFindEmptyAddressRangeInTree` is for the lowest base and
    `MiFindEmptyAddressRangeDownTree` for the highest one below a boundary.
    The first of them does not look at the length if the table is empty.  The
    second one looks at the lowest user address only in front of the first VAD,
    so it takes a hole behind a VAD that lies below that address. -/

namespace Mm

open LinkedTree Rtl Transition

variable {ν : Type} [DecidableEq ν] {t : MmAvlTable ν} {T : BinTree ν} {length alignment : Nat}

/-- The VADs of a process, which start in the user part of the address space. -/
structure UserTable (L : AddressLayout) (t : MmAvlTable ν) (T : BinTree ν) : Prop
    extends RangeInv t T where
  user : t.unused ≠ 1
  high : ∀ n ∈ T.toList, t.startingVpn n ≤ (L.highestVadAddress + 1) / pageSize

/-- An aligned address from which the pages for `length` bytes are free, up to `limit`. -/
structure FreeRange (t : MmAvlTable ν) (T : BinTree ν) (length alignment limit base : Nat) :
    Prop where
  aligned : alignment ∣ base
  high : base + bytesToPages length * pageSize ≤ limit + 1
  free : ∀ n ∈ T.toList, (t.endingVpn n + 1) * pageSize ≤ base ∨
    base + bytesToPages length * pageSize ≤ t.startingVpn n * pageSize

/-- Such an address of the user part. -/
structure FreeBase (t : MmAvlTable ν) (T : BinTree ν) (length alignment limit base : Nat) : Prop
    extends FreeRange t T length alignment limit base where
  low : lowestUserAddress ≤ base

/-- One below it, behind a VAD. -/
structure LowHole (t : MmAvlTable ν) (T : BinTree ν) (length alignment limit base : Nat) : Prop
    extends FreeRange t T length alignment limit base where
  low : base < lowestUserAddress
  behind : ∃ n ∈ T.toList, (t.endingVpn n + 1) * pageSize ≤ base

omit [DecidableEq ν] in
/-- Free ranges start at page numbers that fit. -/
theorem freeRange_iff (ha : pageSize ∣ alignment) (limit base : Nat) :
    FreeRange t T length alignment limit base ↔ ∃ b, base = b * pageSize ∧
      Fits t T (bytesToPages length) (alignment / pageSize) (fun b =>
        b + bytesToPages length ≤ (limit + 1) / pageSize) b := by
  obtain ⟨q, rfl⟩ := ha
  have hq : pageSize * q / pageSize = q := Nat.mul_div_cancel_left q (by decide)
  rw [hq]
  constructor
  · rintro ⟨⟨c, rfl⟩, hhigh, hfree⟩
    refine ⟨q * c, by rw [Nat.mul_assoc, Nat.mul_comm], Nat.dvd_mul_right _ _, ?_, fun n hn => ?_⟩
    · simp only [pageSize, Nat.mul_assoc] at hhigh ⊢
      omega
    · have hn := hfree n hn
      simp only [pageSize, Nat.mul_assoc] at hn
      omega
  · rintro ⟨b, rfl, ⟨c, rfl⟩, hhigh, hfree⟩
    refine ⟨⟨c, by rw [Nat.mul_comm (q * c), Nat.mul_assoc]⟩, ?_, fun n hn => ?_⟩
    · simp only [pageSize] at hhigh ⊢
      omega
    · have hn := hfree n hn
      simp only [pageSize]
      omega

/-- From the lowest page of the user part on, up to `limit`. -/
def InUser (limit pageCount b : Nat) : Prop :=
  lowestUserAddress / pageSize ≤ b ∧ b + pageCount ≤ (limit + 1) / pageSize

omit [DecidableEq ν] in
theorem freeBase_iff (ha : pageSize ∣ alignment) (limit base : Nat) :
    FreeBase t T length alignment limit base ↔ ∃ b, base = b * pageSize ∧ Fits t T
      (bytesToPages length) (alignment / pageSize) (InUser limit (bytesToPages length)) b := by
  constructor
  · rintro ⟨hrange, hlow⟩
    obtain ⟨b, rfl, haligned, hhigh, hfree⟩ := (freeRange_iff ha limit base).1 hrange
    refine ⟨b, rfl, haligned, ⟨?_, hhigh⟩, hfree⟩
    simp only [lowestUserAddress, pageSize] at hlow ⊢
    omega
  · rintro ⟨b, rfl, haligned, ⟨hlow, hhigh⟩, hfree⟩
    refine ⟨(freeRange_iff ha limit _).2 ⟨b, rfl, haligned, hhigh, hfree⟩, ?_⟩
    simp only [lowestUserAddress, pageSize] at hlow ⊢
    omega

/-- What a search should return: the best free base with its place, or that there is none. -/
def Best (t : MmAvlTable ν) (T : BinTree ν) (length alignment limit : Nat)
    (better : Nat → Nat → Prop) (o : Option (TableSearchResult × Option ν × Nat)) : Prop :=
  ∃ r parent base, o = some (r, parent, base) ∧
    (r = .tableFoundNode → ∀ a, ¬ FreeBase t T length alignment limit a) ∧
    (r ≠ .tableFoundNode → FreeBase t T length alignment limit base ∧
      (∀ a, FreeBase t T length alignment limit a → better base a) ∧
      FreePlace t T r parent (base / pageSize) (base / pageSize + bytesToPages length - 1))

omit [DecidableEq ν] in
/-- A search that also takes places outside the user part, all of them worse than those inside, is
    right unless there are only such places. -/
theorem Finds.best_iff {limit : Nat} {fits : Nat → Prop} {better : Nat → Nat → Prop}
    {o : Option (TableSearchResult × Option ν × Nat)} (h : Finds t T (bytesToPages length) fits better o)
    (ha : pageSize ∣ alignment) (hmono : ∀ a b, better a b → better (a * pageSize) (b * pageSize))
    {inside : Nat → Prop} (hin : inside = Fits t T (bytesToPages length) (alignment / pageSize)
      (InUser limit (bytesToPages length)))
    (hfits : ∀ b, inside b → fits b) (hworse : ∀ b c, fits b → ¬ inside b → inside c → ¬ better b c) :
    Best t T length alignment limit better o ↔
      ((∃ b, fits b ∧ ¬ inside b) → ∃ a, FreeBase t T length alignment limit a) := by
  have hbase : ∀ a, FreeBase t T length alignment limit a ↔ ∃ b, a = b * pageSize ∧ inside b := by
    intro a
    rw [hin]
    exact freeBase_iff ha limit a
  obtain ⟨r, parent, base, ho, ⟨hr, hnone⟩ | ⟨b, rfl, hb, hbest, hplace⟩⟩ := h
  · refine iff_of_true ⟨r, parent, base, ho, fun _ a hfree => ?_, fun hne => absurd hr hne⟩ ?_
    · obtain ⟨b, -, hb⟩ := (hbase a).1 hfree
      exact hnone b (hfits b hb)
    · rintro ⟨b, hb, -⟩
      exact absurd hb (hnone b)
  by_cases hinside : inside b
  · have hfree := (hbase _).2 ⟨b, rfl, hinside⟩
    refine iff_of_true ⟨r, parent, _, ho, fun hr => absurd hr hplace.ne_found, fun _ =>
      ⟨hfree, fun a ha => ?_, ?_⟩⟩ fun _ => ⟨_, hfree⟩
    · obtain ⟨c, rfl, hc⟩ := (hbase a).1 ha
      exact hmono _ _ (hbest c (hfits c hc))
    · rw [Nat.mul_div_cancel _ (by decide)]
      exact hplace
  -- the best place is outside, so there is none inside
  have hno : ∀ a, ¬ FreeBase t T length alignment limit a := by
    intro a hfree
    obtain ⟨c, rfl, hc⟩ := (hbase a).1 hfree
    exact hworse b c hb hinside hc (hbest c (hfits c hc))
  refine iff_of_false ?_ fun hfound => ?_
  · rintro ⟨r', parent', base', ho', -, hfound⟩
    obtain ⟨rfl, rfl, rfl⟩ : r = r' ∧ parent = parent' ∧ b * pageSize = base' := by
      simpa using ho.symm.trans ho'
    exact hno _ (hfound hplace.ne_found).1
  · obtain ⟨a, hfree⟩ := hfound ⟨b, hb, hinside⟩
    exact hno a hfree

/-- In an empty table the lowest address is the best base, if the length fits. -/
theorem best_nil_iff (L : AddressLayout) (hi : RangeInv t .nil) (huser : t.unused ≠ 1)
    (ha : ValidAlignment alignment) :
    Best t .nil length alignment L.highestVadAddress (· ≤ ·)
        (miFindEmptyAddressRangeInTree L t length alignment) ↔
      alignUpBy lowestUserAddress alignment + bytesToPages length * pageSize ≤
        L.highestVadAddress + 1 := by
  obtain ⟨hpos, hpage, -⟩ := ha
  have hbase : alignUpBy (lowestUserAddress / pageSize) (alignment / pageSize) * pageSize =
      alignUpBy lowestUserAddress alignment := by
    rw [← alignUpBy_div hpage, Nat.div_mul_cancel (Nat.dvd_trans hpage (dvd_alignUpBy _ _))]
  have hcount : t.numberGenericTableElements = 0 := hi.count
  simp only [miFindEmptyAddressRangeInTree, if_neg huser, if_pos hcount, hbase]
  constructor
  · rintro ⟨r, parent, base, ho, -, hfound⟩
    obtain ⟨rfl, rfl, rfl⟩ : r = .tableEmptyTree ∧ parent = none ∧ base = _ := by simpa [eq_comm] using ho
    exact (hfound (by simp)).1.high
  · intro hfits
    refine ⟨_, _, _, rfl, by simp, fun _ => ⟨⟨⟨dvd_alignUpBy _ _, hfits, by simp⟩, le_alignUpBy hpos⟩,
      fun a hfree => alignUpBy_le hpos hfree.aligned hfree.low, .inl ⟨rfl, rfl⟩⟩⟩

/-- `MiFindEmptyAddressRangeInTree` finds the lowest base, unless the table is empty and the
    length does not fit below the highest address. -/
theorem miFindEmptyAddressRangeInTree_lowest_iff {L : AddressLayout} (h : UserTable L t T)
    (hlen : 0 < length) (ha : ValidAlignment alignment) :
    Best t T length alignment L.highestVadAddress (· ≤ ·)
        (miFindEmptyAddressRangeInTree L t length alignment) ↔
      (T = .nil → alignUpBy lowestUserAddress alignment + bytesToPages length * pageSize ≤
        L.highestVadAddress + 1) := by
  by_cases hne : T = .nil
  · subst hne
    simpa using best_nil_iff L h.toRangeInv h.user ha
  refine iff_of_true ?_ fun hnil => absurd hnil hne
  have ha' : 0 < alignment / pageSize := Nat.div_pos (Nat.le_of_dvd ha.1 ha.2.1) (by decide)
  have hfinds := miFindEmptyAddressRangeInTree_finds L h.toRangeInv hlen ha' hne
  have hfits : ∀ b, Fits t T (bytesToPages length) (alignment / pageSize) (UpTo t T (firstVpn L t)
      (bytesToPages length) (highestVpn L t (alignment / pageSize))) b ↔ Fits t T (bytesToPages length)
      (alignment / pageSize) (InUser L.highestVadAddress (bytesToPages length)) b := by
    intro b
    simp only [firstVpn, highestVpn, if_neg h.user]
    refine and_congr_right fun _ => and_congr_left fun _ => and_congr_right fun _ => ⟨?_, .inl⟩
    -- below a VAD is below the highest address
    rintro (hle | ⟨n, hn, hle⟩)
    · exact hle
    · exact Nat.le_trans hle (h.high n hn)
  refine (hfinds.best_iff ha.2.1 (fun a b hab => Nat.mul_le_mul_right _ hab) rfl
    (fun b hb => (hfits b).2 hb) fun b c hb hno => absurd ((hfits b).1 hb) hno).2 ?_
  rintro ⟨b, hb, hno⟩
  exact absurd ((hfits b).1 hb) hno

/-- A run that ends with two VADs, whose page ranges are in the user part. -/
theorem exists_userTable (operations : List (VadOperation Nat)) (ranges : List (Nat × Nat))
    (h : ((vadSystem userLayout).run emptySpace operations).map (fun s => (s.vads, s.table.unused,
      s.vads.map fun n => (s.table.startingVpn n, s.table.endingVpn n))) = some ([2, 1], 0, ranges))
    (hhigh : ∀ p ∈ ranges, p.1 ≤ (userLayout.highestVadAddress + 1) / pageSize) :
    ∃ s T, (vadSystem userLayout).run emptySpace operations = some s ∧
      Reachable (vadSystem userLayout) (fun _ _ => True) s ∧ [2, 1].Perm T.toList ∧
      UserTable userLayout s.table T ∧
      ∀ n ∈ T.toList, (s.table.startingVpn n, s.table.endingVpn n) ∈ ranges := by
  obtain ⟨s, hs, hv⟩ := Option.map_eq_some_iff.mp h
  have hreach : Reachable (vadSystem userLayout) (fun _ _ => True) s :=
    Reachable.of_run (.init ⟨⟨rfl, fun _ => rfl, rfl, rfl, rfl⟩, rfl⟩) hs
  obtain ⟨T, hi, hperm⟩ := vadSystem_inv hreach
  obtain ⟨hvads, hunused, rfl⟩ : s.vads = [2, 1] ∧ s.table.unused = 0 ∧ _ = ranges := by
    simpa only [Prod.mk.injEq] using hv
  have hmem : ∀ n ∈ T.toList, (s.table.startingVpn n, s.table.endingVpn n) ∈
      s.vads.map fun n => (s.table.startingVpn n, s.table.endingVpn n) := fun n hn =>
    List.mem_map_of_mem (hperm.mem_iff.2 hn)
  exact ⟨s, T, hs, hreach, hvads ▸ hperm, ⟨hi.toRangeInv, by rw [hunused]; decide,
    fun n hn => hhigh _ (hmem n hn)⟩, hmem⟩

/-- Between two VADs, below which there is no room, 64 KB are found. -/
theorem lowest_between : ∃ (s : VadSpace Nat) (T : BinTree Nat),
    Reachable (vadSystem userLayout) (fun _ _ => True) s ∧ [2, 1].Perm T.toList ∧
    UserTable userLayout s.table T ∧
    Best s.table T 0x10000 0x10000 userLayout.highestVadAddress (· ≤ ·)
      (miFindEmptyAddressRangeInTree userLayout s.table 0x10000 0x10000) := by
  obtain ⟨s, T, -, hreach, hperm, huser, -⟩ := exists_userTable
    [.insertVad 1 0x8 0x1F, .insertVad 2 0x30 0x3F] [(0x30, 0x3F), (0x8, 0x1F)]
    (by decide +kernel) (by decide)
  refine ⟨s, T, hreach, hperm, huser, (miFindEmptyAddressRangeInTree_lowest_iff huser (by decide)
    ⟨by decide, by decide, by decide⟩).2 ?_⟩
  rintro rfl
  cases hperm.length_eq

/-- An empty table has no room for all bytes up to the highest address, but a base is returned. -/
theorem lowest_too_long :
    miFindEmptyAddressRangeInTree userLayout emptySpace.table (userLayout.highestVadAddress + 1) 65536 =
      some (.tableEmptyTree, none, 65536) ∧
    ∀ a, ¬ FreeBase emptySpace.table .nil (userLayout.highestVadAddress + 1) 65536
      userLayout.highestVadAddress a := by
  refine ⟨rfl, fun a h => ?_⟩
  have hlow := h.low
  have hhigh := h.high
  have hpages : bytesToPages (userLayout.highestVadAddress + 1) * pageSize =
    userLayout.highestVadAddress + 1 := by decide
  simp only [lowestUserAddress] at hlow
  omega

/-- `MiFindEmptyAddressRangeDownTree` finds the highest base below the boundary, unless there is
    none, but a hole behind a VAD below the user part. -/
theorem miFindEmptyAddressRangeDownTree_highest_iff {L : AddressLayout} (h : UserTable L t T)
    (hlen : 0 < length) (ha : ValidAlignment alignment) (boundaryAddress : Nat) :
    Best t T length alignment boundaryAddress (· ≥ ·)
        (miFindEmptyAddressRangeDownTree L t length boundaryAddress alignment) ↔
      (alignUpBy lowestUserAddress alignment + bytesToPages length * pageSize ≤ boundaryAddress + 1 →
        (∃ base, LowHole t T length alignment boundaryAddress base) →
        ∃ base, FreeBase t T length alignment boundaryAddress base) := by
  obtain ⟨hpos, hpage, -⟩ := ha
  have hround : roundToPages length = bytesToPages length * pageSize := by
    rw [← roundToPages_div, Nat.div_mul_cancel (show pageSize ∣ roundToPages length from Nat.dvd_mul_left _ _)]
  by_cases hspace : boundaryAddress + 1 < (if t.unused = 1 then
      alignUpBy L.systemLowVpn (alignment / pageSize) else alignUpBy lowestUserAddress alignment) +
      roundToPages length
  · -- there is no space at all
    simp only [miFindEmptyAddressRangeDownTree, if_pos hspace]
    rw [if_neg h.user, hround] at hspace
    refine iff_of_true ⟨_, _, _, rfl, fun _ a hfree => ?_, by simp⟩ fun hle => by omega
    have := alignUpBy_le hpos hfree.aligned hfree.low
    have := hfree.high
    omega
  by_cases hne : T = .nil
  · subst hne
    have hcount : t.numberGenericTableElements = 0 := h.count
    simp only [miFindEmptyAddressRangeDownTree, if_neg hspace, if_pos hcount]
    rw [if_neg h.user, hround] at hspace
    rw [hround]
    have hdown := alignDownBy_le (boundaryAddress + 1 - bytesToPages length * pageSize) alignment
    have hlow := le_alignDownBy hpos (show alignUpBy lowestUserAddress alignment ≤
      boundaryAddress + 1 - bytesToPages length * pageSize by omega)
    refine iff_of_true ⟨_, _, _, rfl, by simp, fun _ => ⟨⟨⟨Nat.dvd_mul_left _ _, by omega, by simp⟩,
      Nat.le_trans (le_alignUpBy hpos) hlow⟩, fun a hfree => ?_, .inl ⟨rfl, rfl⟩⟩⟩ ?_
    · have := hfree.high
      exact le_alignDownBy_of_dvd hpos hfree.aligned (by omega)
    · rintro - ⟨base, hhole⟩
      obtain ⟨n, hn, -⟩ := hhole.behind
      cases hn
  have hfinds := miFindEmptyAddressRangeDownTree_finds L boundaryAddress h.toRangeInv hlen hpos hpage
    hne hspace
  rw [roundToPages_div] at hfinds
  rw [if_neg h.user, hround, Nat.not_lt] at hspace
  simp only [hspace, true_implies]
  -- the places outside the user part are the holes below it
  rw [hfinds.best_iff hpage (fun a b hab => Nat.mul_le_mul_right _ hab) rfl]
  · refine imp_congr_left ⟨?_, ?_⟩
    · rintro ⟨b, ⟨haligned, ⟨hfrom, hhigh⟩, hfree⟩, hno⟩
      have hlow : ¬ lowestUserAddress / pageSize ≤ b := fun hlow =>
        hno ⟨haligned, ⟨hlow, hhigh⟩, hfree⟩
      obtain ⟨n, hn, hbehind⟩ := hfrom.resolve_left hlow
      refine ⟨b * pageSize, (freeRange_iff hpage _ _).2 ⟨b, rfl, haligned, hhigh, hfree⟩, ?_, n, hn,
        Nat.mul_le_mul_right _ hbehind⟩
      simp only [lowestUserAddress, pageSize] at hlow ⊢
      omega
    · rintro ⟨a, hrange, hlow, n, hn, hbehind⟩
      obtain ⟨b, rfl, haligned, hhigh, hfree⟩ := (freeRange_iff hpage _ a).1 hrange
      refine ⟨b, ⟨haligned, ⟨.inr ⟨n, hn, Nat.le_of_mul_le_mul_right hbehind (by decide)⟩, hhigh⟩,
        hfree⟩, fun hin => ?_⟩
      have hfrom := hin.2.1.1
      simp only [lowestUserAddress, pageSize] at hlow hfrom
      omega
  · rintro b ⟨haligned, ⟨hlow, hhigh⟩, hfree⟩
    exact ⟨haligned, ⟨.inl hlow, hhigh⟩, hfree⟩
  · rintro b c ⟨haligned, ⟨-, hhigh⟩, hfree⟩ hno ⟨-, ⟨hlow, -⟩, -⟩ hle
    exact hno ⟨haligned, ⟨Nat.le_trans hlow hle, hhigh⟩, hfree⟩

/-- Between two VADs, the first of them below the user part, one page is found. -/
theorem highest_between : ∃ (s : VadSpace Nat) (T : BinTree Nat),
    Reachable (vadSystem userLayout) (fun _ _ => True) s ∧ [2, 1].Perm T.toList ∧
    UserTable userLayout s.table T ∧
    Best s.table T 0x1000 0x1000 0x3FFFF (· ≥ ·)
      (miFindEmptyAddressRangeDownTree userLayout s.table 0x1000 0x3FFFF 0x1000) := by
  obtain ⟨s, T, -, hreach, hperm, huser, hranges⟩ := exists_userTable
    [.insertVad 1 0 1, .insertVad 2 0x30 0x3F] [(0x30, 0x3F), (0, 1)] (by decide +kernel) (by decide)
  refine ⟨s, T, hreach, hperm, huser, (miFindEmptyAddressRangeDownTree_highest_iff huser (by decide)
    ⟨by decide, by decide, by decide⟩ _).2 fun _ _ =>
    ⟨0x2F000, ⟨⟨0x2F, rfl⟩, by decide, fun n hn => ?_⟩, by decide⟩⟩
  have hfree : ∀ p ∈ [(0x30, 0x3F), (0, 1)], (p.2 + 1) * pageSize ≤ 0x2F000 ∨
      0x2F000 + bytesToPages 0x1000 * pageSize ≤ p.1 * pageSize := by decide
  exact hfree (_, _) (hranges n hn)

/-- With all pages of the user part in use, the page below it is returned. -/
theorem highest_too_low : ∃ (s : VadSpace Nat) (T : BinTree Nat),
    Reachable (vadSystem userLayout) (fun _ _ => True) s ∧ [2, 1].Perm T.toList ∧
    UserTable userLayout s.table T ∧ 0xF000 < lowestUserAddress ∧
    miFindEmptyAddressRangeDownTree userLayout s.table 0x1000 0x7FFDFFFF 0x1000 =
      some (.tableInsertAsLeft, some 2, 0xF000) := by
  obtain ⟨s, T, hs, hreach, hperm, huser, -⟩ := exists_userTable
    [.insertVad 1 0 1, .insertVad 2 0x10 0x7FFDF] [(0x10, 0x7FFDF), (0, 1)] (by decide +kernel)
    (by decide)
  refine ⟨s, T, hreach, hperm, huser, by decide, ?_⟩
  have hfind : ((vadSystem userLayout).run emptySpace [.insertVad 1 0 1,
      .insertVad 2 0x10 0x7FFDF]).map (fun s => miFindEmptyAddressRangeDownTree userLayout s.table
        0x1000 0x7FFDFFFF 0x1000) = some (some (.tableInsertAsLeft, some 2, 0xF000)) := by
    decide +kernel
  rw [hs] at hfind
  exact Option.some.inj hfind

end Mm
