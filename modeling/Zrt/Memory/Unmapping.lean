import Mathlib.Data.List.Basic
import Zrt.Memory.BrkArea

/-!
# What `munmap` frees

`munmap` turns its address into a page index and clears the bits from that index on. Page indexes
count downwards, so beyond the first page these are not the pages of the range but those below it.
-/

namespace Zrt.Memory

open Zrt.Framework

namespace HeapArea

variable {a : HeapArea} {m : MemoryManager}

/-- The lowest page of the region is the one that the break is in. -/
theorem Governs.lowest (h : a.Governs m) (hbrk : m.heapBrk.toNat < a.heapEnd) :
    m.mmapLowestPageAddr.toNat = m.heapBrk.toNat / 65536 * 65536 := by
  have hfits : a.heapEnd ≤ 4294967296 := a.fits
  have haligned : a.heapEnd % 65536 = 0 := a.aligned
  have hend : a.heapEnd = a.heapPtr.toNat + a.heapSize.toNat := rfl
  have hptr := a.heapPtr.toNat_lt
  have hsize := a.heapSize.toNat_lt
  have hbrklt := m.heapBrk.toNat_lt
  have hmax : m.heapMaxAddr.toNat = a.heapEnd % 4294967296 := by
    rw [MemoryManager.heapMaxAddr, h.heapStartPtr, h.heapSize, UInt32.toNat_add, hend]
  have hrest : (m.heapSize - (m.heapBrk - m.heapStartPtr)).toNat =
      (a.heapEnd - m.heapBrk.toNat) % 4294967296 := by
    rw [UInt32.toNat_sub, UInt32.toNat_sub, h.heapStartPtr, h.heapSize]
    omega
  have hround : m.mmapRegionSizeAligned.toNat =
      ((a.heapEnd - m.heapBrk.toNat) + 65535) / 65536 * 65536 % 4294967296 := by
    rw [MemoryManager.mmapRegionSizeAligned, toNat_roundUp, hrest]
    omega
  rw [MemoryManager.mmapLowestPageAddr, UInt32.toNat_sub, hmax, hround]
  omega

end HeapArea

namespace MemoryManager

private theorem clearBits_isSome (b : BitArray) (index n : Nat)
    (h : index + n ≤ mapChunksBitArraySize * 8) : ∃ b', clearBits b index n = some b' := by
  induction n generalizing b index with
  | zero => exact ⟨b, rfl⟩
  | succ n ih =>
      rw [clearBits, if_pos (by omega)]
      exact ih _ _ (by omega)

/-- The indexes that `munmap` passes through are those of the bitmap. -/
def IndexesInBounds (m : MemoryManager) (addr length : UInt32) : Prop :=
  0 < pagesRequested length → (m.mmapHighestPageAddr - addr).toNat < 2 ^ 31 ∧
    m.munmapBeginChunkIndex addr + pagesRequested length ≤ mapChunksBitArraySize * 8

theorem memoryMunmap_isSome {m : MemoryManager} {addr length : UInt32}
    (hrange : m.InMmapRange addr) (hin : m.IndexesInBounds addr length) :
    ∃ m', m.memoryMunmap addr length = some m' := by
  rw [memoryMunmap, if_pos hrange]
  rcases Nat.eq_zero_or_pos (pagesRequested length) with hzero | hpos
  · rw [hzero]
    split
    · exact ⟨_, rfl⟩
    · exact ⟨m, rfl⟩
  · obtain ⟨hdiff, hbound⟩ := hin hpos
    obtain ⟨b, hb⟩ := clearBits_isSome m.bitarray _ _ hbound
    rw [if_pos hdiff, hb]
    exact ⟨_, rfl⟩

theorem memoryMunmap_spec {m m' : MemoryManager} {addr length : UInt32}
    (hrange : m.InMmapRange addr) (h : m.memoryMunmap addr length = some m') :
    m.IndexesInBounds addr length ∧
      ∀ k, m'.bitarray.getBit k = (m.bitarray.getBit k &&
        !decide (m.munmapBeginChunkIndex addr ≤ k ∧
          k < m.munmapBeginChunkIndex addr + pagesRequested length)) := by
  rcases memoryMunmap_cases h with ⟨rfl, hnone⟩ | ⟨-, hdiff, b, rfl, -, hbound, hbits⟩
  · have hzero := hnone hrange
    refine ⟨fun hpos => by omega, fun k => ?_⟩
    rw [decide_eq_false (by omega), Bool.not_false, Bool.and_true]
  · refine ⟨fun hpos => ⟨hdiff, ?_⟩, hbits⟩
    have hlast := hbound (m.munmapBeginChunkIndex addr + pagesRequested length - 1) (by omega)
      (by omega)
    simp only [mapChunksBitArraySize]
    omega

private theorem memoryMunmap_outOfRange {m : MemoryManager} {addr length : UInt32}
    (hrange : ¬ m.InMmapRange addr) : m.memoryMunmap addr length = some m := by
  rw [memoryMunmap, if_neg hrange]

end MemoryManager

/-- The page of an index lies in the `mmap` region and meets the addresses of a range, which may reach
past the heap. -/
def PageMeets (a : HeapArea) (m : MemoryManager) (addr length : UInt32) (k : Nat) : Prop :=
  (k + 1) * 65536 ≤ a.heapEnd ∧ m.mmapLowestPageAddr.toNat ≤ a.heapEnd - (k + 1) * 65536 ∧
    a.heapEnd - (k + 1) * 65536 < addr.toNat + length.toNat ∧ addr.toNat < a.heapEnd - k * 65536

instance (a : HeapArea) (m : MemoryManager) (addr length : UInt32) (k : Nat) :
    Decidable (PageMeets a m addr length k) :=
  inferInstanceAs (Decidable (_ ∧ _))

/-- `munmap` stays within the bitmap and clears the bits of the pages that meet its range. -/
def UnmapsExactly (a : HeapArea) (m : MemoryManager) (addr length : UInt32) : Prop :=
  ∃ m', m.memoryMunmap addr length = some m' ∧
    ∀ k, m'.bitarray.getBit k =
      (m.bitarray.getBit k && !decide (PageMeets a m addr length k))

/-- Among the pages that the range and the indexes from that of its address on differ in, none is
marked. A page count that overflows clears nothing. -/
structure OnlyFirstMarked (m : MemoryManager) (addr length : UInt32) : Prop where
  index : m.IndexesInBounds addr length
  below : ∀ k, m.munmapBeginChunkIndex addr < k →
    k < m.munmapBeginChunkIndex addr + pagesRequested length → m.bitarray.getBit k = false
  above : ∀ k, k < m.munmapBeginChunkIndex addr →
    m.munmapBeginChunkIndex addr < k + Mapping.pageCount ⟨addr, length⟩ →
    m.bitarray.getBit k = false
  overflow : pagesRequested length = 0 → 0 < length →
    m.bitarray.getBit (m.munmapBeginChunkIndex addr) = false

namespace HeapArea

variable {a : HeapArea} {m : MemoryManager}

theorem Governs.index_spec (h : a.Governs m) {addr : UInt32} (hrange : m.InMmapRange addr)
    (haddr : addr.toNat % 65536 = 0) :
    addr.toNat + (m.munmapBeginChunkIndex addr + 1) * 65536 = a.heapEnd ∧
      (m.mmapHighestPageAddr - addr).toNat = m.munmapBeginChunkIndex addr * 65536 := by
  have haligned : a.heapEnd % 65536 = 0 := a.aligned
  have hbrk : a.brk.toNat + 65536 ≤ a.heapEnd := a.brk_le
  have hhigh := h.highest
  have hle := UInt32.le_iff_toNat_le.mp hrange.2
  have hdiff : (m.mmapHighestPageAddr - addr).toNat = a.heapEnd - 65536 - addr.toNat := by
    rw [UInt32.toNat_sub_of_le _ _ hrange.2, hhigh]
  rw [MemoryManager.munmapBeginChunkIndex, hdiff]
  omega

private theorem Governs.pageMeets_iff (h : a.Governs m) {addr : UInt32} (hrange : m.InMmapRange addr)
    (haddr : addr.toNat % 65536 = 0) (length : UInt32) (k : Nat) :
    PageMeets a m addr length k ↔ k ≤ m.munmapBeginChunkIndex addr ∧
      m.munmapBeginChunkIndex addr < k + Mapping.pageCount ⟨addr, length⟩ := by
  obtain ⟨hindex, -⟩ := h.index_spec hrange haddr
  have hlow := UInt32.le_iff_toNat_le.mp hrange.1
  simp only [PageMeets, Mapping.pageCount]
  generalize m.munmapBeginChunkIndex addr = index at *
  omega

end HeapArea

private theorem Mapping.pageCount_eq_zero (addr length : UInt32) :
    Mapping.pageCount ⟨addr, length⟩ = 0 ↔ ¬ 0 < length := by
  rw [Mapping.pageCount, UInt32.lt_iff_toNat_lt]
  show (length.toNat + 65535) / 65536 = 0 ↔ ¬ 0 < length.toNat
  omega

private theorem Mapping.pagesRequested_eq_pageCount (addr length : UInt32)
    (h : 0 < pagesRequested length) : pagesRequested length = Mapping.pageCount ⟨addr, length⟩ := by
  rw [MemoryManager.pagesRequested_eq length h, Mapping.pageCount]

private theorem onlyFirstMarked_iff (m : MemoryManager) (addr length : UInt32) :
    OnlyFirstMarked m addr length ↔ m.IndexesInBounds addr length ∧
      ∀ k, m.bitarray.getBit k = true →
        ((m.munmapBeginChunkIndex addr ≤ k ∧
            k < m.munmapBeginChunkIndex addr + pagesRequested length) ↔
          (k ≤ m.munmapBeginChunkIndex addr ∧
            m.munmapBeginChunkIndex addr < k + Mapping.pageCount ⟨addr, length⟩)) := by
  have hempty := Mapping.pageCount_eq_zero addr length
  have hcount := Mapping.pagesRequested_eq_pageCount addr length
  constructor
  · intro h
    refine ⟨h.index, fun k hk => ?_⟩
    rcases Nat.lt_trichotomy k (m.munmapBeginChunkIndex addr) with hlt | heq | hgt
    · have hnot : ¬ m.munmapBeginChunkIndex addr < k + Mapping.pageCount ⟨addr, length⟩ := by
        intro hin
        rw [h.above k hlt hin] at hk
        cases hk
      omega
    · subst heq
      have hnone : pagesRequested length = 0 → Mapping.pageCount ⟨addr, length⟩ = 0 := by
        intro hzero
        refine hempty.mpr fun hpos => ?_
        rw [h.overflow hzero hpos] at hk
        cases hk
      omega
    · have hnot : ¬ k < m.munmapBeginChunkIndex addr + pagesRequested length := by
        intro hin
        rw [h.below k hgt hin] at hk
        cases hk
      omega
  · rintro ⟨hindex, hsame⟩
    have hclear : ∀ k, ¬ ((m.munmapBeginChunkIndex addr ≤ k ∧
        k < m.munmapBeginChunkIndex addr + pagesRequested length) ↔
        (k ≤ m.munmapBeginChunkIndex addr ∧
          m.munmapBeginChunkIndex addr < k + Mapping.pageCount ⟨addr, length⟩)) →
        m.bitarray.getBit k = false := by
      intro k hdiff
      by_contra hk
      exact hdiff (hsame k (Bool.eq_true_of_not_eq_false hk))
    refine ⟨hindex, fun k hk hin => hclear k ?_, fun k hk hin => hclear k ?_,
      fun hzero hpos => hclear _ ?_⟩
    · omega
    · omega
    · have hsome : ¬ Mapping.pageCount ⟨addr, length⟩ = 0 := fun hnone => hempty.mp hnone hpos
      omega

theorem unmapsExactly_iff {a : HeapArea} {m : MemoryManager} (h : a.Governs m) {addr : UInt32}
    (length : UInt32) (hrange : m.InMmapRange addr) (haddr : addr.toNat % 65536 = 0) :
    UnmapsExactly a m addr length ↔ OnlyFirstMarked m addr length := by
  have hmeets := h.pageMeets_iff hrange haddr length
  rw [onlyFirstMarked_iff]
  constructor
  · rintro ⟨m', hm', hexact⟩
    obtain ⟨hin, hbits⟩ := MemoryManager.memoryMunmap_spec hrange hm'
    refine ⟨hin, fun k hk => ?_⟩
    have heq := (hbits k).symm.trans (hexact k)
    rw [hk, Bool.true_and, Bool.true_and, Bool.not_inj_iff, decide_eq_decide, hmeets] at heq
    exact heq
  · rintro ⟨hin, hsame⟩
    obtain ⟨m', hm'⟩ := MemoryManager.memoryMunmap_isSome hrange hin
    obtain ⟨-, hbits⟩ := MemoryManager.memoryMunmap_spec hrange hm'
    refine ⟨m', hm', fun k => ?_⟩
    rw [hbits k]
    cases hk : m.bitarray.getBit k with
    | false => rw [Bool.false_and, Bool.false_and]
    | true => rw [decide_eq_decide.mpr ((hsame k hk).trans (hmeets k).symm)]

/-- `munmap` of what `mmap` returned brings the bitmap back. -/
def UnmapRestores (m m₁ : MemoryManager) (p length : UInt32) : Prop :=
  ∃ m₂, m₁.memoryMunmap p length = some m₂ ∧
    ∀ k, m₂.bitarray.getBit k = m.bitarray.getBit k

/-- What an anonymous mapping that succeeds has done. -/
structure MappedAt (m m₁ : MemoryManager) (p length : UInt32) (index : Nat) : Prop where
  pos : 0 < pagesRequested length
  bound : index + pagesRequested length ≤ m.bitarray.arraySize * 8
  free : FreeRun m.bitarray.getBit index (pagesRequested length)
  least : ∀ k, k < index → ¬ FreeRun m.bitarray.getBit k (pagesRequested length)
  addr_eq : p = m.memoryPageFromIndex (index + pagesRequested length - 1)
  brk_le : m.heapBrk ≤ p
  le_first : p ≤ m.memoryPageFromIndex index
  heapStartPtr : m₁.heapStartPtr = m.heapStartPtr
  heapSize : m₁.heapSize = m.heapSize
  heapBrk : m₁.heapBrk = m.heapBrk
  bits : ∀ k, m₁.bitarray.getBit k =
    if index ≤ k ∧ k < index + pagesRequested length then true else m.bitarray.getBit k

theorem mappedAt_of_mmap {m m₁ : MemoryManager} {p length : UInt32}
    (h : m.memoryMmap (fun _ => none) none (anonymousRequest length) = some (.ok p, m₁)) :
    ∃ index, MappedAt m m₁ p length index := by
  rw [MappingState.memoryMmap_anonymous] at h
  split at h
  · obtain ⟨⟨addr, m'⟩, halloc, hresult⟩ := Option.map_eq_some_iff.mp h
    obtain ⟨b, harr, -, hcases⟩ := MemoryManager.allocMemoryPseudoMmap_cases _ _ _ _ halloc
    simp only at hresult
    split at hresult
    · rename_i haddr
      simp only [Prod.mk.injEq, Except.ok.injEq] at hresult
      obtain ⟨rfl, rfl⟩ := hresult
      rcases hcases with ⟨hzero, -⟩ | ⟨index, hpos, hbound, hfree, hleast, heq, hbrk, hle, rfl⟩
      · exact absurd hzero haddr
      · refine ⟨index, hpos, hbound, hfree, hleast, heq, hbrk, hle, ?_, ?_, ?_, fun k => ?_⟩
        · split <;> rfl
        · split <;> rfl
        · split <;> rfl
        · have hbits : ∀ m' : MemoryManager, (if addr < m'.heapLowestMmapAddr then
              { m' with heapLowestMmapAddr := addr } else m').bitarray = m'.bitarray := by
            intro m'
            split <;> rfl
          rw [hbits, MemoryManager.toggleBits_getBit]
          have hbit : b.getBit k = m.bitarray.getBit k := by
            rw [BitArray.getBit, BitArray.getBit, harr]
          split
          · rename_i hin
            rw [hbit, hfree k hin.1 hin.2]
            rfl
          · exact hbit
    · simp at hresult
  · cases h

theorem freeRun_one {used : Nat → Bool} {k : Nat} : FreeRun used k 1 ↔ used k = false := by
  constructor
  · intro h
    exact h k (Nat.le_refl k) (Nat.lt_succ_self k)
  · intro h j hj hj'
    have heq : j = k := by omega
    exact heq ▸ h

namespace MappedAt

variable {a : HeapArea} {m m₁ : MemoryManager} {p length : UInt32} {index : Nat}

theorem governs (hmapped : MappedAt m m₁ p length index) (h : a.Governs m) : a.Governs m₁ :=
  ⟨hmapped.heapStartPtr.trans h.heapStartPtr, hmapped.heapSize.trans h.heapSize⟩

theorem beginChunkIndex (hmapped : MappedAt m m₁ p length index)
    (hsize : m.bitarray.arraySize ≤ mapChunksBitArraySize) :
    m₁.munmapBeginChunkIndex p = index + pagesRequested length - 1 := by
  have hbound := hmapped.bound
  have hpos := hmapped.pos
  simp only [mapChunksBitArraySize] at hsize
  have hhigh : m₁.mmapHighestPageAddr = m.mmapHighestPageAddr := by
    simp only [MemoryManager.mmapHighestPageAddr, MemoryManager.heapMaxAddr, hmapped.heapStartPtr,
      hmapped.heapSize]
  rw [hmapped.addr_eq, MemoryManager.munmapBeginChunkIndex, hhigh]
  exact m.munmapBeginChunkIndex_page _ (by omega)

theorem inRange_iff (hmapped : MappedAt m m₁ p length index) (h : a.Governs m)
    (hsize : m.bitarray.arraySize ≤ mapChunksBitArraySize) :
    m₁.InMmapRange p ↔ (index + pagesRequested length) * 65536 ≤ a.heapEnd := by
  have hbound := hmapped.bound
  have hpos := hmapped.pos
  have hbrk := UInt32.le_iff_toNat_le.mp hmapped.brk_le
  have hfirst := UInt32.le_iff_toNat_le.mp hmapped.le_first
  have hgov := hmapped.governs h
  have hhigh := hgov.highest
  have hbrkEnd : a.brk.toNat + 65536 ≤ a.heapEnd := a.brk_le
  have hlast : index + pagesRequested length - 1 + 1 = index + pagesRequested length := by omega
  simp only [mapChunksBitArraySize] at hsize
  rw [MemoryManager.InMmapRange, UInt32.le_iff_toNat_le, UInt32.le_iff_toNat_le, hhigh]
  constructor
  · rintro ⟨-, hle⟩
    by_contra hwrap
    have hp := h.page_wrapped (index + pagesRequested length - 1) (by omega) (by omega)
    rw [← hmapped.addr_eq, hlast] at hp
    omega
  · intro hin
    have hp := h.page (index + pagesRequested length - 1) (by rw [hlast]; exact hin)
    rw [← hmapped.addr_eq, hlast] at hp
    have hlow := hgov.lowest (by rw [hmapped.heapBrk]; omega)
    rw [hlow, hmapped.heapBrk]
    omega

theorem aligned (hmapped : MappedAt m m₁ p length index) (h : a.Governs m)
    (hin : (index + pagesRequested length) * 65536 ≤ a.heapEnd) : p.toNat % 65536 = 0 := by
  have hpos := hmapped.pos
  have haligned : a.heapEnd % 65536 = 0 := a.aligned
  have hlast : index + pagesRequested length - 1 + 1 = index + pagesRequested length := by omega
  have hp := h.page (index + pagesRequested length - 1) (by rw [hlast]; exact hin)
  rw [← hmapped.addr_eq, hlast] at hp
  omega

private theorem single_iff (hmapped : MappedAt m m₁ p length index) :
    pagesRequested length = 1 ∧ index < 32768 ∧ (index + 1) * 65536 ≤ a.heapEnd ↔
      pagesRequested length = 1 ∧
        ∃ k < 32768, (k + 1) * 65536 ≤ a.heapEnd ∧ m.bitarray.getBit k = false := by
  have hfree := hmapped.free
  constructor
  · rintro ⟨hone, hlt, hin⟩
    rw [hone, freeRun_one] at hfree
    exact ⟨hone, index, hlt, hin, hfree⟩
  · rintro ⟨hone, k, hlt, hin, hk⟩
    have hleast : index ≤ k := by
      by_contra hbefore
      exact hmapped.least k (by omega) (by rw [hone, freeRun_one]; exact hk)
    exact ⟨hone, Nat.lt_of_le_of_lt hleast hlt,
      (Nat.mul_le_mul_right 65536 (Nat.succ_le_succ hleast)).trans hin⟩

theorem wasFree (hmapped : MappedAt m m₁ p length index) : m.bitarray.getBit index = false := by
  have hpos := hmapped.pos
  exact hmapped.free index (Nat.le_refl _) (by omega)

private theorem marked (hmapped : MappedAt m m₁ p length index) : m₁.bitarray.getBit index = true := by
  have hpos := hmapped.pos
  rw [hmapped.bits, if_pos ⟨Nat.le_refl _, by omega⟩]

private theorem single_of_restores (hmapped : MappedAt m m₁ p length index) (h : a.Governs m)
    (hsize : m.bitarray.arraySize ≤ mapChunksBitArraySize)
    (hrestores : UnmapRestores m m₁ p length) :
    pagesRequested length = 1 ∧ index < 32768 ∧ (index + 1) * 65536 ≤ a.heapEnd := by
  obtain ⟨m₂, hm₂, hbits⟩ := hrestores
  have hclear := hbits index
  by_cases hin : m₁.InMmapRange p
  · obtain ⟨hindexes, hspec⟩ := MemoryManager.memoryMunmap_spec hin hm₂
    have hinside := (hmapped.inRange_iff h hsize).mp hin
    have hbegin := hmapped.beginChunkIndex hsize
    have hdiff := ((hmapped.governs h).index_spec hin (hmapped.aligned h hinside)).2
    have hlt := (hindexes hmapped.pos).1
    rw [hspec, hmapped.marked, hmapped.wasFree, Bool.true_and, Bool.not_eq_false',
      decide_eq_true_eq, hbegin] at hclear
    rw [hdiff, hbegin] at hlt
    have hone : pagesRequested length = 1 := by omega
    rw [hone] at hinside hlt
    exact ⟨hone, by omega, hinside⟩
  · rw [MemoryManager.memoryMunmap_outOfRange hin, Option.some.injEq] at hm₂
    rw [← hm₂, hmapped.marked, hmapped.wasFree] at hclear
    cases hclear

private theorem restores_of_single (hmapped : MappedAt m m₁ p length index) (h : a.Governs m)
    (hsize : m.bitarray.arraySize ≤ mapChunksBitArraySize) (hone : pagesRequested length = 1)
    (hlt : index < 32768) (hin : (index + 1) * 65536 ≤ a.heapEnd) :
    UnmapRestores m m₁ p length := by
  have hbegin := hmapped.beginChunkIndex hsize
  rw [← hone] at hin
  have hrange := (hmapped.inRange_iff h hsize).mpr hin
  have hdiff := ((hmapped.governs h).index_spec hrange (hmapped.aligned h hin)).2
  rw [hone, Nat.add_sub_cancel] at hbegin
  rw [hbegin] at hdiff
  have hindexes : m₁.IndexesInBounds p length := by
    intro _
    rw [hdiff, hbegin, hone]
    simp only [mapChunksBitArraySize]
    omega
  obtain ⟨m₂, hm₂⟩ := MemoryManager.memoryMunmap_isSome hrange hindexes
  obtain ⟨-, hspec⟩ := MemoryManager.memoryMunmap_spec hrange hm₂
  refine ⟨m₂, hm₂, fun k => ?_⟩
  rw [hspec, hmapped.bits, hbegin, hone]
  by_cases hk : index ≤ k ∧ k < index + 1
  · have heq : k = index := by omega
    rw [if_pos hk, decide_eq_true hk, heq, hmapped.wasFree]
    rfl
  · rw [if_neg hk, decide_eq_false hk, Bool.not_false, Bool.and_true]

end MappedAt

/-- Unmapping what was just mapped brings the bitmap back exactly when it is a single page not more
than two gigabytes below the highest one: the first free page is then one of the upper 32768 pages
of the heap. -/
theorem unmapRestores_iff {a : HeapArea} {m m₁ : MemoryManager} {p length : UInt32} {index : Nat}
    (h : a.Governs m) (hsize : m.bitarray.arraySize ≤ mapChunksBitArraySize)
    (hmapped : MappedAt m m₁ p length index) :
    UnmapRestores m m₁ p length ↔
      length.toNat ≤ 65536 ∧
        ∃ k < 32768, (k + 1) * 65536 ≤ a.heapEnd ∧ m.bitarray.getBit k = false := by
  have hsingle : length.toNat ≤ 65536 ↔ pagesRequested length = 1 := by
    have hcount := MemoryManager.pagesRequested_eq length hmapped.pos
    have hpos := hmapped.pos
    omega
  rw [hsingle, ← hmapped.single_iff]
  constructor
  · exact hmapped.single_of_restores h hsize
  · rintro ⟨hone, hlt, hin⟩
    exact hmapped.restores_of_single h hsize hone hlt hin

/-- On every heap and for every bitmap, `munmap` frees exactly its range when no page but the first
one makes a difference, and brings back the bitmap from before a mapping of one page only. -/
theorem memoryMunmap_frees_iff {a : HeapArea} {m : MemoryManager} (h : a.Governs m)
    (hsize : m.bitarray.arraySize ≤ mapChunksBitArraySize) :
    (∀ addr length, m.InMmapRange addr → addr.toNat % 65536 = 0 →
      (UnmapsExactly a m addr length ↔ OnlyFirstMarked m addr length)) ∧
    ∀ length p m₁,
      m.memoryMmap (fun _ => none) none (anonymousRequest length) = some (.ok p, m₁) →
      (UnmapRestores m m₁ p length ↔
        length.toNat ≤ 65536 ∧
          ∃ k < 32768, (k + 1) * 65536 ≤ a.heapEnd ∧ m.bitarray.getBit k = false) := by
  refine ⟨fun addr length hrange haddr => unmapsExactly_iff h length hrange haddr, ?_⟩
  intro length p m₁ hmmap
  obtain ⟨index, hmapped⟩ := mappedAt_of_mmap hmmap
  exact unmapRestores_iff h hsize hmapped

theorem fourPages_governs : MappingState.fourPageArea.Governs MappingState.fourPages :=
  ⟨rfl, rfl⟩

theorem memoryMunmap_frees_iff_fourPages :
    (UnmapsExactly MappingState.fourPageArea MappingState.fourPages 0x30000 0x20000 ↔
      OnlyFirstMarked MappingState.fourPages 0x30000 0x20000) ∧
    ∃ m₁, MappingState.fourPages.memoryMmap (fun _ => none) none (anonymousRequest 0x8000) =
        some (.ok 0x40000, m₁) ∧
      (UnmapRestores MappingState.fourPages m₁ 0x40000 0x8000 ↔
        (0x8000 : UInt32).toNat ≤ 65536 ∧ ∃ k < 32768,
          (k + 1) * 65536 ≤ MappingState.fourPageArea.heapEnd ∧
            MappingState.fourPages.bitarray.getBit k = false) := by
  have hiff := memoryMunmap_frees_iff fourPages_governs (by decide)
  exact ⟨hiff.1 0x30000 0x20000 (by decide) (by decide), _, rfl, hiff.2 0x8000 0x40000 _ rfl⟩

/-- Two pages are mapped and unmapped: the upper one stays marked. -/
theorem munmap_keeps_upper_page :
    ∃ p m₁, MappingState.fourPages.memoryMmap (fun _ => none) none (anonymousRequest 0x20000) =
        some (.ok p, m₁) ∧
      ¬ UnmapRestores MappingState.fourPages m₁ p 0x20000 ∧
      ¬ UnmapsExactly MappingState.fourPageArea m₁ p 0x20000 := by
  obtain ⟨m₁, hmmap, hrange, hbegin, hmarked⟩ : ∃ m₁,
      MappingState.fourPages.memoryMmap (fun _ => none) none (anonymousRequest 0x20000) =
        some (.ok 0x30000, m₁) ∧
      m₁.InMmapRange 0x30000 ∧ m₁.munmapBeginChunkIndex 0x30000 = 1 ∧
      m₁.bitarray.getBit 0 = true :=
    ⟨_, rfl, by decide, by decide, by decide⟩
  obtain ⟨index, hmapped⟩ := mappedAt_of_mmap hmmap
  refine ⟨0x30000, m₁, hmmap, fun hrestores => ?_, fun hexact => ?_⟩
  · have hone := ((unmapRestores_iff fourPages_governs (by decide) hmapped).mp hrestores).1
    exact absurd hone (by decide)
  · have honly := (unmapsExactly_iff (hmapped.governs fourPages_governs) 0x20000 hrange
      (by decide)).mp hexact
    have hupper := honly.above 0 (by rw [hbegin]; decide) (by rw [hbegin]; decide)
    rw [hmarked] at hupper
    cases hupper

end Zrt.Memory
