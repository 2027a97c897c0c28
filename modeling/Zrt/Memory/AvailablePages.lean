import Mathlib.Data.Finset.Card
import Mathlib.Data.Nat.Count
import Zrt.Memory.Allocation
import Zrt.Memory.Unmapping

/-!
# Available pages

The pages that the manager reports as available are the clear bits down to the page that the break
is in. The next one-page mappings take the clear bits of the bitmap, first one first, until a page
is no longer above the break.
-/

namespace Zrt.Memory

open Zrt.Framework

namespace MemoryManager

/-- The pages from the highest one to that of the break. The difference of the addresses is a signed
32-bit number. -/
def allMapPagesCount (m : MemoryManager) : Int :=
  (((m.mmapHighestPageAddr - m.mmapLowestPageAddr).toNat : Int).bmod 4294967296).tdiv 65536 + 1

/-- The loop over the bitmap, which counts the clear bits. -/
def memoryGetAvphysPages (m : MemoryManager) : Nat :=
  Nat.count (fun i => m.bitarray.getBit i = false) m.allMapPagesCount.toNat

end MemoryManager

/-- The calls that map anonymous memory only. -/
def MemoryCall.anonymous : MemoryCall → ManagerCall
  | .sysbrk addr => .sysbrk addr
  | .mmap length => .mmap (fun _ => none) none (anonymousRequest length)
  | .munmap addr length => .munmap addr length

/-- A state of the manager after some of these calls on a heap. -/
def ReachableAnonymous (a : HeapArea) (m : MemoryManager) : Prop :=
  ∃ m₀, ∃ calls : List MemoryCall,
    MemoryManager.memoryInit a.heapPtr a.heapSize a.brk = some m₀ ∧
      runFrom (fun m c => MemoryManager.call m c.anonymous) m₀ calls = some m

/-- How many one-page mappings succeed before the first failure. -/
inductive MmapsBeforeFailure : MemoryManager → Nat → Prop
  | failure (m : MemoryManager)
      (hmmap : ∀ addr m', mmapAnonymous m pageSize ≠ some (.ok addr, m')) : MmapsBeforeFailure m 0
  | success (m m' : MemoryManager) (addr : UInt32) (n : Nat)
      (hmmap : mmapAnonymous m pageSize = some (.ok addr, m'))
      (hrest : MmapsBeforeFailure m' n) : MmapsBeforeFailure m (n + 1)

theorem MmapsBeforeFailure.unique {m : MemoryManager} {n k : Nat} (hn : MmapsBeforeFailure m n)
    (hk : MmapsBeforeFailure m k) : n = k := by
  induction hn generalizing k with
  | failure m hmmap =>
      cases hk with
      | failure => rfl
      | success _ m' addr n hok hrest => exact absurd hok (hmmap addr m')
  | success m m' addr n hmmap hrest ih =>
      cases hk with
      | failure _ hfail => exact absurd hmmap (hfail addr m')
      | success _ m₁ addr₁ n₁ hok hrest₁ =>
          cases hmmap.symm.trans hok
          rw [ih hrest₁]

/-- The pages that one-page mappings can take: those free in the bitmap and above the break. -/
def mappablePages (a : HeapArea) (m : MemoryManager) : Finset Nat :=
  (Finset.range (m.bitarray.arraySize * 8)).filter fun k =>
    m.bitarray.getBit k = false ∧ m.heapBrk.toNat + (k + 1) * 65536 ≤ a.heapEnd

@[simp] theorem requiredPages_pageSize : requiredPages pageSize = 1 := rfl

theorem mem_mappablePages {a : HeapArea} {m : MemoryManager} {k : Nat} :
    k ∈ mappablePages a m ↔ k < m.bitarray.arraySize * 8 ∧ m.bitarray.getBit k = false ∧
      m.heapBrk.toNat + (k + 1) * 65536 ≤ a.heapEnd := by
  rw [mappablePages, Finset.mem_filter, Finset.mem_range]

private theorem mappablePages_mapsRun {a : HeapArea} {m m' : MemoryManager} {addr : UInt32} {index : Nat}
    (hmaps : MapsRun a m pageSize addr m' index) :
    mappablePages a m' = (mappablePages a m).erase index := by
  ext k
  rw [Finset.mem_erase, mem_mappablePages, mem_mappablePages, hmaps.arraySize, hmaps.heapBrk,
    hmaps.marks, requiredPages_pageSize]
  by_cases hk : k = index
  · subst k
    rw [if_pos (by omega)]
    simp
  · rw [if_neg (by omega)]
    simp [hk]

private theorem HeapArea.AllocatorInv.mmap_page {a : HeapArea} {m : MemoryManager} (h : a.AllocatorInv m) :
    (∃ index addr m', index ∈ mappablePages a m ∧
        mmapAnonymous m pageSize = some (.ok addr, m') ∧ MapsRun a m pageSize addr m' index) ∨
      mappablePages a m = ∅ ∧ ∀ addr m', mmapAnonymous m pageSize ≠ some (.ok addr, m') := by
  have hempty : (∀ k, k < m.bitarray.arraySize * 8 → m.bitarray.getBit k = false →
      ¬ m.heapBrk.toNat + (k + 1) * 65536 ≤ a.heapEnd) → mappablePages a m = ∅ := by
    intro hnone
    refine Finset.eq_empty_of_forall_notMem fun k hk => ?_
    obtain ⟨hlt, hclear, habove⟩ := mem_mappablePages.mp hk
    exact hnone k hlt hclear habove
  cases h.allocOutcome (show 0 < pageSize by decide) with
  | overflow hcount halloc =>
      rw [toNat_pageSize] at hcount
      omega
  | noRun hcount hnone m₁ halloc hsame =>
      refine .inr ⟨hempty fun k hk hclear => absurd ⟨freeRun_one.mpr hclear, hk⟩ (hnone k), ?_⟩
      intro addr m' hok
      cases (mmapAnonymous_null (by decide) halloc).symm.trans hok
  | across hcount index hrun hfirst hacross halloc =>
      have hinside := h.first_page_inside hrun.1 hfirst
      rw [requiredPages_pageSize] at hacross
      omega
  | belowBrk hcount index hrun hfirst hinside hbelow m₁ halloc hsame =>
      rw [requiredPages_pageSize] at hfirst hbelow
      refine .inr ⟨hempty fun k hk hclear => ?_, ?_⟩
      · have hle := first_le_of_freeRun hfirst (freeRun_one.mpr hclear)
        omega
      · intro addr m' hok
        cases (mmapAnonymous_null (by decide) halloc).symm.trans hok
  | taken hcount index hrun addr m₁ halloc haddr hmaps =>
      have habove := hmaps.run
      rw [requiredPages_pageSize] at hrun habove
      exact .inl ⟨index, addr, _,
        mem_mappablePages.mpr ⟨hrun.2, freeRun_one.mp hrun.1, habove.2⟩,
        mmapAnonymous_addr (by decide) haddr halloc, hmaps⟩

theorem HeapArea.AllocatorInv.mmapsBeforeFailure {a : HeapArea} {m : MemoryManager}
    (h : a.AllocatorInv m) : MmapsBeforeFailure m (mappablePages a m).card := by
  generalize hcard : (mappablePages a m).card = n
  induction n generalizing m with
  | zero =>
      rcases h.mmap_page with ⟨index, addr, m', hmem, -, -⟩ | ⟨-, hfail⟩
      · rw [Finset.card_eq_zero.mp hcard] at hmem
        cases hmem
      · exact .failure m hfail
  | succ n ih =>
      rcases h.mmap_page with ⟨index, addr, m', hmem, hmmap, hmaps⟩ | ⟨hnone, -⟩
      · have hrest : (mappablePages a m').card = n := by
          rw [mappablePages_mapsRun hmaps, Finset.card_erase_of_mem hmem, hcard]
          rfl
        have hinv : a.AllocatorInv m' := h.call (c := .mmap (fun _ => none) none
          (anonymousRequest pageSize)) (congrArg (Option.map Prod.snd) hmmap)
        exact .success m m' addr n hmmap (ih hinv hrest)
      · rw [hnone, Finset.card_empty] at hcard
        cases hcard

/-! ## States that anonymous mappings lead to -/

/-- The break stays below every marked page, and only bits of the bitmap are marked. -/
structure HeapArea.AnonymousInv (a : HeapArea) (m : MemoryManager) : Prop
    extends a.AllocatorInv m where
  brk_le_lowest : m.heapBrk ≤ m.heapLowestMmapAddr
  marked : ∀ k, m.bitarray.getBit k = true → k < m.bitarray.arraySize * 8 ∧
    m.heapLowestMmapAddr.toNat + (k + 1) * 65536 ≤ a.heapEnd

namespace HeapArea

variable {a : HeapArea} {m m' : MemoryManager}

theorem AnonymousInv.init
    (h : MemoryManager.memoryInit a.heapPtr a.heapSize a.brk = some m) : a.AnonymousInv m := by
  refine ⟨AllocatorInv.init a h, (MappingState.AreaInv.start a m h).brk_le, fun k hk => ?_⟩
  simp only [MemoryManager.memoryInit] at h
  split at h
  · cases h
    simp [BitArray.getBit] at hk
  · cases h

theorem AnonymousInv.sysbrk (h : a.AnonymousInv m) (addr : UInt32) :
    a.AnonymousInv (m.memorySysbrk addr).2 := by
  have hinv := h.toAllocatorInv.sysbrk addr
  rcases m.memorySysbrk_cases addr with hm | ⟨-, hlow, hm⟩
  · rw [hm]
    exact h
  · rw [hm] at hinv ⊢
    exact ⟨hinv, UInt32.le_of_lt hlow, h.marked⟩

private theorem AnonymousInv.munmap (h : a.AnonymousInv m) {addr length : UInt32}
    (hm : m.memoryMunmap addr length = some m') : a.AnonymousInv m' := by
  have hinv := h.toAllocatorInv.munmap hm
  rcases MemoryManager.memoryMunmap_cases hm with ⟨rfl, -⟩ | ⟨-, -, b, rfl, hsize, -, hbits⟩
  · exact h
  · refine ⟨hinv, h.brk_le_lowest, fun k hk => ?_⟩
    have hmarked : (b.getBit k) = true := hk
    rw [hbits k, Bool.and_eq_true] at hmarked
    rw [hsize]
    exact h.marked k hmarked.1

private theorem AnonymousInv.mapsRun (h : a.AnonymousInv m) (hinv : a.AllocatorInv m')
    {length addr : UInt32} {index : Nat} (hrun : FreeInBitmap m index (requiredPages length))
    (hmaps : MapsRun a m length addr m' index) : a.AnonymousInv m' := by
  have haddr := hmaps.addr_eq
  have habove := hmaps.run.2
  have hlowest : m'.heapLowestMmapAddr ≤ addr ∧
      m'.heapLowestMmapAddr ≤ m.heapLowestMmapAddr ∧ m.heapBrk ≤ m'.heapLowestMmapAddr := by
    rw [hmaps.lowest]
    split
    · rename_i hlt
      exact ⟨UInt32.le_refl _, UInt32.le_of_lt hlt, UInt32.le_iff_toNat_le.mpr (by omega)⟩
    · rename_i hge
      exact ⟨UInt32.not_lt.mp hge, UInt32.le_refl _, h.brk_le_lowest⟩
  refine ⟨hinv, by rw [hmaps.heapBrk]; exact hlowest.2.2, fun k hk => ?_⟩
  have hle := UInt32.le_iff_toNat_le.mp hlowest.1
  have hle' := UInt32.le_iff_toNat_le.mp hlowest.2.1
  rw [hmaps.marks] at hk
  rw [hmaps.arraySize]
  split at hk
  · have hbound := hrun.2
    exact ⟨by omega, by omega⟩
  · have hmarked := h.marked k hk
    exact ⟨hmarked.1, by omega⟩

private theorem AnonymousInv.untouched (h : a.AnonymousInv m) (hinv : a.AllocatorInv m')
    (hsame : Untouched m m') : a.AnonymousInv m' := by
  refine ⟨hinv, ?_, fun k hk => ?_⟩
  · rw [hsame.heapBrk, hsame.heapLowestMmapAddr]
    exact h.brk_le_lowest
  · rw [hsame.arraySize, hsame.heapLowestMmapAddr]
    rw [BitArray.getBit, hsame.array] at hk
    exact h.marked k hk

private theorem AnonymousInv.mmap (h : a.AnonymousInv m) {length : UInt32}
    {result : Except Errno UInt32} (hm : mmapAnonymous m length = some (result, m')) :
    a.AnonymousInv m' := by
  have hinv : a.AllocatorInv m' := h.toAllocatorInv.call (c := .mmap (fun _ => none) none
    (anonymousRequest length)) (congrArg (Option.map Prod.snd) hm)
  by_cases hpos : 0 < length
  · cases h.allocOutcome hpos with
    | overflow hcount halloc => cases (mmapAnonymous_none hpos halloc).symm.trans hm
    | noRun hcount hnone m₁ halloc hsame =>
        cases (mmapAnonymous_null hpos halloc).symm.trans hm
        exact h.untouched hinv hsame
    | across hcount index hrun hfirst hacross halloc =>
        cases (mmapAnonymous_none hpos halloc).symm.trans hm
    | belowBrk hcount index hrun hfirst hinside hbelow m₁ halloc hsame =>
        cases (mmapAnonymous_null hpos halloc).symm.trans hm
        exact h.untouched hinv hsame
    | taken hcount index hrun addr m₁ halloc haddr hmaps =>
        cases (mmapAnonymous_addr hpos haddr halloc).symm.trans hm
        exact h.mapsRun hinv hrun hmaps
  · rw [mmapAnonymous, MappingState.memoryMmap_anonymous, if_neg hpos] at hm
    cases hm
    exact h

private theorem AnonymousInv.call (h : a.AnonymousInv m) {c : MemoryCall}
    (hc : m.call c.anonymous = some m') : a.AnonymousInv m' := by
  cases c with
  | sysbrk addr =>
      rw [MemoryCall.anonymous, MemoryManager.call, Option.some.injEq] at hc
      exact hc ▸ h.sysbrk addr
  | mmap length =>
      rw [MemoryCall.anonymous, MemoryManager.call, Option.map_eq_some_iff] at hc
      obtain ⟨⟨result, m₁⟩, hmmap, rfl⟩ := hc
      exact h.mmap hmmap
  | munmap addr length => exact h.munmap hc

end HeapArea

private theorem ReachableAnonymous.inv {a : HeapArea} {m : MemoryManager} (h : ReachableAnonymous a m) :
    a.AnonymousInv m := by
  obtain ⟨m₀, calls, hinit, hrun⟩ := h
  exact runFrom_preserves (fun _ _ _ hinv hc => hinv.call hc) calls m₀ m
    (HeapArea.AnonymousInv.init hinit) hrun

/-! ## The count -/

/-- The pages of the heap from the highest one to that of the break. -/
def regionPages (a : HeapArea) (m : MemoryManager) : Nat :=
  a.heapEnd / 65536 - m.heapBrk.toNat / 65536

private theorem toNat_signedPages {p : Nat} (hpos : 0 < p) (hmax : p ≤ 65536) :
    (((((p - 1) * 65536 : Nat) : Int).bmod 4294967296).tdiv 65536 + 1).toNat =
      if p ≤ 32768 then p else 0 := by
  split
  · rename_i hsmall
    rw [Int.bmod_eq_of_le (by omega) (by omega), Int.tdiv_eq_ediv_of_nonneg (by omega)]
    omega
  · rename_i hlarge
    have hwrap : (((p - 1) * 65536 : Nat) : Int).bmod 4294967296 =
        -((65537 - p : Nat) * 65536 : Int) := by
      rw [Int.bmod_eq_iff (by omega)]
      exact ⟨by omega, by omega, -1, by omega⟩
    rw [hwrap, Int.neg_tdiv, Int.mul_tdiv_cancel _ (by omega)]
    omega

private theorem HeapArea.AllocatorInv.toNat_allMapPagesCount {a : HeapArea} {m : MemoryManager}
    (h : a.AllocatorInv m) :
    m.allMapPagesCount.toNat = if regionPages a m ≤ 32768 then regionPages a m else 0 := by
  have hfits : a.heapEnd ≤ 4294967296 := a.fits
  have haligned : a.heapEnd % 65536 = 0 := a.aligned
  have hbrk := h.brk_le
  have hlow := h.governs.lowest (by omega)
  have hhigh := h.governs.highest
  have hle : m.mmapLowestPageAddr ≤ m.mmapHighestPageAddr := by
    rw [UInt32.le_iff_toNat_le, hlow, hhigh]
    omega
  have hdiff : (m.mmapHighestPageAddr - m.mmapLowestPageAddr).toNat =
      (regionPages a m - 1) * 65536 := by
    rw [UInt32.toNat_sub_of_le _ _ hle, hlow, hhigh, regionPages]
    omega
  have hpos : 0 < regionPages a m := by
    rw [regionPages]
    omega
  have hmax : regionPages a m ≤ 65536 := by
    rw [regionPages]
    omega
  have hcount := toNat_signedPages hpos hmax
  rw [← hdiff] at hcount
  exact hcount

/-- The break stands at the start of a page that the bitmap has a bit for, and the region is not
larger than two gigabytes; or it is larger, and nothing is left to map. -/
def PagesCounted (a : HeapArea) (m : MemoryManager) : Prop :=
  (regionPages a m ≤ 32768 ∧ m.heapBrk.toNat % 65536 = 0 ∧
      regionPages a m ≤ m.bitarray.arraySize * 8) ∨
    (32768 < regionPages a m ∧ ∀ k, ¬ (FreeAboveBrk a m k 1 ∧ FreeInBitmap m k 1))

namespace HeapArea

variable {a : HeapArea} {m : MemoryManager}

private theorem mem_mappablePages_iff_freeRun {k : Nat} :
    k ∈ mappablePages a m ↔ FreeAboveBrk a m k 1 ∧ FreeInBitmap m k 1 := by
  rw [mem_mappablePages, FreeAboveBrk, FreeInBitmap, freeRun_one]
  constructor
  · rintro ⟨hlt, hclear, habove⟩
    exact ⟨⟨hclear, habove⟩, hclear, hlt⟩
  · rintro ⟨⟨hclear, habove⟩, -, hlt⟩
    exact ⟨hlt, hclear, habove⟩

private theorem mappablePages_subset :
    mappablePages a m ⊆
      (Finset.range (regionPages a m)).filter fun k => m.bitarray.getBit k = false := by
  intro k hk
  obtain ⟨-, hclear, habove⟩ := mem_mappablePages.mp hk
  have haligned : a.heapEnd % 65536 = 0 := a.aligned
  rw [Finset.mem_filter, Finset.mem_range, regionPages]
  exact ⟨by omega, hclear⟩

/-- The pages counted are those that can be mapped exactly when the break is page aligned, at a page
of the bitmap: the page that an unaligned break is in is free, and so are those past the bitmap. -/
private theorem AnonymousInv.counted_eq_mappable_iff (h : a.AnonymousInv m) :
    ((Finset.range (regionPages a m)).filter fun k => m.bitarray.getBit k = false) =
        mappablePages a m ↔
      m.heapBrk.toNat % 65536 = 0 ∧ regionPages a m ≤ m.bitarray.arraySize * 8 := by
  have haligned : a.heapEnd % 65536 = 0 := a.aligned
  have hbrk := h.brk_le
  have hlowest := UInt32.le_iff_toNat_le.mp h.brk_le_lowest
  have hregion : regionPages a m = a.heapEnd / 65536 - m.heapBrk.toNat / 65536 := rfl
  constructor
  · intro heq
    have hmem : ∀ k, k < regionPages a m → m.bitarray.getBit k = false →
        k < m.bitarray.arraySize * 8 ∧ m.heapBrk.toNat + (k + 1) * 65536 ≤ a.heapEnd := by
      intro k hk hclear
      have hin := heq ▸ Finset.mem_filter.mpr ⟨Finset.mem_range.mpr hk, hclear⟩
      obtain ⟨hlt, -, habove⟩ := mem_mappablePages.mp hin
      exact ⟨hlt, habove⟩
    have hclear : ∀ k, ¬ (k < m.bitarray.arraySize * 8 ∧
        m.heapLowestMmapAddr.toNat + (k + 1) * 65536 ≤ a.heapEnd) →
        m.bitarray.getBit k = false := by
      intro k hk
      exact Bool.eq_false_of_not_eq_true fun hmarked => hk (h.marked k hmarked)
    constructor
    · by_contra hunaligned
      have hlast := (hmem (regionPages a m - 1) (by omega) (hclear _ (by omega))).2
      omega
    · by_contra hpast
      have hlast := (hmem (m.bitarray.arraySize * 8) (by omega) (hclear _ (by omega))).1
      omega
  · rintro ⟨hstart, hbits⟩
    ext k
    rw [Finset.mem_filter, Finset.mem_range, mem_mappablePages]
    constructor
    · rintro ⟨hk, hclear⟩
      exact ⟨by omega, hclear, by omega⟩
    · rintro ⟨-, hclear, habove⟩
      exact ⟨by omega, hclear⟩

theorem AnonymousInv.avphysPages_eq_card_iff (h : a.AnonymousInv m) :
    m.memoryGetAvphysPages = (mappablePages a m).card ↔ PagesCounted a m := by
  rw [MemoryManager.memoryGetAvphysPages, h.toAllocatorInv.toNat_allMapPagesCount,
    Nat.count_eq_card_filter_range, PagesCounted]
  split
  · rename_i hsmall
    rw [← h.counted_eq_mappable_iff]
    constructor
    · intro hcard
      exact .inl ⟨hsmall, (Finset.eq_of_subset_of_card_le mappablePages_subset
        (Nat.le_of_eq hcard)).symm⟩
    · rintro (⟨-, heq⟩ | ⟨hlarge, -⟩)
      · rw [heq]
      · omega
  · rename_i hlarge
    rw [Finset.range_zero, Finset.filter_empty, Finset.card_empty, eq_comm, Finset.card_eq_zero,
      Finset.eq_empty_iff_forall_notMem]
    simp only [mem_mappablePages_iff_freeRun]
    constructor
    · intro hnone
      exact .inr ⟨by omega, hnone⟩
    · rintro (⟨hsmall, -⟩ | ⟨-, hnone⟩)
      · omega
      · exact hnone

end HeapArea

/-- In every state that the calls lead to, as many one-page mappings succeed as pages are reported
available exactly when the pages are counted right. -/
theorem avphysPages_available_iff {a : HeapArea} {m : MemoryManager}
    (h : ReachableAnonymous a m) :
    MmapsBeforeFailure m m.memoryGetAvphysPages ↔ PagesCounted a m := by
  rw [← h.inv.avphysPages_eq_card_iff]
  have hmaps := h.inv.toAllocatorInv.mmapsBeforeFailure
  constructor
  · intro havailable
    exact havailable.unique hmaps
  · intro hcount
    rw [hcount]
    exact hmaps

/-- A page below the break and a mapped one leave two. -/
theorem avphysPages_available_iff_fourPages :
    RunEnds (fun m c => MemoryManager.call m (MemoryCall.anonymous c)) MappingState.fourPages
        [.sysbrk 0x20000, .mmap 1] fun m =>
      m.memoryGetAvphysPages = 2 ∧ MmapsBeforeFailure m 2 := by
  have hends : RunEnds (fun m c => MemoryManager.call m (MemoryCall.anonymous c))
      MappingState.fourPages [.sysbrk 0x20000, .mmap 1] fun m =>
      m.memoryGetAvphysPages = 2 ∧ regionPages MappingState.fourPageArea m ≤ 32768 ∧
        m.heapBrk.toNat % 65536 = 0 ∧
        regionPages MappingState.fourPageArea m ≤ m.bitarray.arraySize * 8 := by decide
  obtain ⟨m, hm, htwo, hcounted⟩ := hends
  have havailable := (avphysPages_available_iff (a := MappingState.fourPageArea)
    ⟨MappingState.fourPages, [.sysbrk 0x20000, .mmap 1], rfl, hm⟩).mpr (.inl hcounted)
  rw [htwo] at havailable
  exact ⟨m, hm, htwo, havailable⟩

/-- The page that the break is in the middle of is reported, but cannot be mapped. -/
theorem unaligned_brk_reports_too_many :
    ¬ MmapsBeforeFailure (MappingState.fourPages.memorySysbrk 0x18000).2
      (MappingState.fourPages.memorySysbrk 0x18000).2.memoryGetAvphysPages := by
  have hinv : MappingState.fourPageArea.AnonymousInv
      (MappingState.fourPages.memorySysbrk 0x18000).2 :=
    (HeapArea.AnonymousInv.init rfl).sysbrk 0x18000
  intro havailable
  have hcount := havailable.unique hinv.toAllocatorInv.mmapsBeforeFailure
  rcases hinv.avphysPages_eq_card_iff.mp hcount with ⟨-, haligned, -⟩ | ⟨hlarge, -⟩
  · revert haligned
    decide
  · revert hlarge
    decide

end Zrt.Memory
