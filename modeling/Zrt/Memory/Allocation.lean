import Mathlib.Data.List.Basic
import Mathlib.Order.Basic
import Zrt.Memory.BrkArea

/-!
# Anonymous mappings of every length

Which run of pages an anonymous `mmap` takes, in every state that calls of the manager reach. The
bitmap covers the pages above the break as it was at the start, and the pages of a length near the
end of the address space are counted as none.
-/

namespace Zrt.Memory

open Zrt.Framework

/-- A call of the memory manager, with the sizes of the open files and the earlier `errno` where it
looks at them. -/
inductive ManagerCall where
  | sysbrk (addr : UInt32)
  | mmap (fstat : Int → Option UInt32) (errno : Option Errno) (r : MemoryManager.MmapRequest)
  | munmap (addr length : UInt32)

namespace MemoryManager

def call (m : MemoryManager) : ManagerCall → Option MemoryManager
  | .sysbrk addr => some (m.memorySysbrk addr).2
  | .mmap fstat errno r => (m.memoryMmap fstat errno r).map Prod.snd
  | .munmap addr length => m.memoryMunmap addr length

end MemoryManager

/-- A state of the manager after some calls on a heap. -/
def Reachable (a : HeapArea) (m : MemoryManager) : Prop :=
  ∃ m₀ calls, MemoryManager.memoryInit a.heapPtr a.heapSize a.brk = some m₀ ∧
    runFrom MemoryManager.call m₀ calls = some m

namespace HeapArea

/-- The bitmap invariant, and the break stays below the highest page. -/
structure AllocatorInv (a : HeapArea) (m : MemoryManager) : Prop extends a.BitmapInv m where
  lowest_le : m.heapLowestMmapAddr.toNat + 65536 ≤ a.heapEnd
  brk_le : m.heapBrk.toNat + 65536 ≤ a.heapEnd

variable {a : HeapArea} {m m' : MemoryManager}

theorem AllocatorInv.init (a : HeapArea) {m : MemoryManager}
    (h : MemoryManager.memoryInit a.heapPtr a.heapSize a.brk = some m) : a.AllocatorInv m := by
  have hinv : a.BitmapInv m := (MappingState.AreaInv.start a m h).bitmapInv
  have hbrk : a.brk.toNat + 65536 ≤ a.heapEnd := a.brk_le
  have hfields : m.heapLowestMmapAddr = m.mmapHighestPageAddr ∧ m.heapBrk = a.brk := by
    simp only [MemoryManager.memoryInit] at h
    split at h
    · rw [Option.some.injEq] at h
      subst m
      exact ⟨rfl, rfl⟩
    · cases h
  refine ⟨hinv, ?_, ?_⟩
  · rw [hfields.1, hinv.governs.highest]
    omega
  · rw [hfields.2]
    exact hbrk

private theorem AllocatorInv.alloc (h : a.AllocatorInv m) {memsize addr : UInt32}
    (halloc : m.allocMemoryPseudoMmap memsize = some (addr, m')) : a.AllocatorInv m' := by
  have hinv := h.toBitmapInv.alloc halloc
  obtain ⟨b, -, -, hcases⟩ := MemoryManager.allocMemoryPseudoMmap_cases _ _ _ _ halloc
  rcases hcases with ⟨-, rfl⟩ | ⟨index, -, -, -, -, -, -, -, rfl⟩
  · exact ⟨hinv, h.lowest_le, h.brk_le⟩
  · exact ⟨hinv, h.lowest_le, h.brk_le⟩

theorem AllocatorInv.sysbrk (h : a.AllocatorInv m) (addr : UInt32) :
    a.AllocatorInv (m.memorySysbrk addr).2 := by
  have hinv := h.toBitmapInv.sysbrk addr
  rcases m.memorySysbrk_cases addr with hm | ⟨-, hlow, hm⟩
  · rw [hm]
    exact h
  · rw [hm] at hinv ⊢
    have hlowest := h.lowest_le
    rw [UInt32.lt_iff_toNat_lt] at hlow
    refine ⟨hinv, hlowest, ?_⟩
    show addr.toNat + 65536 ≤ a.heapEnd
    omega

theorem AllocatorInv.munmap (h : a.AllocatorInv m) {addr length : UInt32}
    (hm : m.memoryMunmap addr length = some m') : a.AllocatorInv m' := by
  have hinv := h.toBitmapInv.munmap hm
  rcases MemoryManager.memoryMunmap_cases hm with ⟨rfl, -⟩ | ⟨-, -, b, rfl, -⟩
  · exact h
  · exact ⟨hinv, h.lowest_le, h.brk_le⟩

end HeapArea

namespace MemoryManager

/-- The lowest address mapped so far takes a new mapping in. -/
def lowered (m : MemoryManager) (addr : UInt32) : MemoryManager :=
  if addr < m.heapLowestMmapAddr then { m with heapLowestMmapAddr := addr } else m

/-- The end of `mmap`: an error code of zero is a success. -/
def mmapResult : Option Errno × UInt32 × MemoryManager → Except Errno UInt32 × MemoryManager
  | (none, addr, m) => (.ok addr, m.lowered addr)
  | (some e, _, m) => (.error e, m)

theorem memoryMmap_eq_map (fstat : Int → Option UInt32) (errno : Option Errno) (m : MemoryManager)
    (r : MmapRequest) :
    m.memoryMmap fstat errno r =
      (if r.protRead ∧ 0 < r.fd then
        match fstat r.fd with
        | some size =>
            (m.allocMemoryPseudoMmap (if size = 0 then pageSize else size)).map fun allocated =>
              (if allocated.1 ≠ 0 then none else errno, allocated.1, allocated.2)
        | none => some (some .ebadf, 0, m)
      else if r.protRead ∧ r.protWrite ∧ r.mapAnonymous ∧ 0 < r.length then
        (m.allocMemoryPseudoMmap r.length).map fun allocated =>
          (if allocated.1 ≠ 0 then none else some .enomem, allocated.1, allocated.2)
      else some (some .enosys, 0, m)).map mmapResult := by
  rw [memoryMmap]
  congr 1
  funext mapped
  obtain ⟨errcode, addr, m'⟩ := mapped
  cases errcode with
  | none => rfl
  | some e => rfl

theorem memoryMmap_cases {fstat : Int → Option UInt32} {errno : Option Errno}
    {m m' : MemoryManager} {r : MmapRequest} {result : Except Errno UInt32}
    (h : m.memoryMmap fstat errno r = some (result, m')) :
    m' = m ∨ ∃ memsize addr m₁, m.allocMemoryPseudoMmap memsize = some (addr, m₁) ∧
      (m' = m₁ ∨ addr < m₁.heapLowestMmapAddr ∧ m' = { m₁ with heapLowestMmapAddr := addr }) := by
  have hlowered : ∀ (m₁ : MemoryManager) (addr : UInt32) (errcode : Option Errno),
      mmapResult (errcode, addr, m₁) = (result, m') →
      m' = m₁ ∨ addr < m₁.heapLowestMmapAddr ∧ m' = { m₁ with heapLowestMmapAddr := addr } := by
    intro m₁ addr errcode hresult
    cases errcode with
    | some e => exact .inl (Prod.mk.inj hresult).2.symm
    | none =>
        have hm := (Prod.mk.inj hresult).2
        rw [lowered] at hm
        split at hm
        · rename_i hlt
          exact .inr ⟨hlt, hm.symm⟩
        · exact .inl hm.symm
  rw [memoryMmap_eq_map, Option.map_eq_some_iff] at h
  obtain ⟨⟨errcode, addr, m₁⟩, hmapped, hresult⟩ := h
  have hcases := hlowered m₁ addr errcode hresult
  have hrefused : ∀ e : Errno, some (some e, (0 : UInt32), m) = some (errcode, addr, m₁) →
      m' = m := by
    intro e he
    cases he
    exact (Prod.mk.inj hresult).2.symm
  split at hmapped
  · split at hmapped
    · obtain ⟨allocated, halloc, hpair⟩ := Option.map_eq_some_iff.mp hmapped
      cases hpair
      exact .inr ⟨_, _, _, halloc, hcases⟩
    · exact .inl (hrefused _ hmapped)
  · split at hmapped
    · obtain ⟨allocated, halloc, hpair⟩ := Option.map_eq_some_iff.mp hmapped
      cases hpair
      exact .inr ⟨_, _, _, halloc, hcases⟩
    · exact .inl (hrefused _ hmapped)

end MemoryManager

namespace HeapArea

variable {a : HeapArea} {m m' : MemoryManager}

theorem AllocatorInv.call (h : a.AllocatorInv m) {c : ManagerCall} (hc : m.call c = some m') :
    a.AllocatorInv m' := by
  cases c with
  | sysbrk addr =>
      rw [MemoryManager.call, Option.some.injEq] at hc
      exact hc ▸ h.sysbrk addr
  | munmap addr length => exact h.munmap hc
  | mmap fstat errno r =>
      rw [MemoryManager.call, Option.map_eq_some_iff] at hc
      obtain ⟨⟨result, m₂⟩, hmmap, rfl⟩ := hc
      rcases MemoryManager.memoryMmap_cases hmmap with rfl | ⟨memsize, addr, m₁, halloc, hm⟩
      · exact h
      · have hinv := h.alloc halloc
        rcases hm with rfl | ⟨hlt, rfl⟩
        · exact hinv
        · have hlowest := hinv.lowest_le
          rw [UInt32.lt_iff_toNat_lt] at hlt
          refine ⟨hinv.toBitmapInv.withLowest addr, ?_, hinv.brk_le⟩
          show addr.toNat + 65536 ≤ a.heapEnd
          omega

end HeapArea

theorem Reachable.inv {a : HeapArea} {m : MemoryManager} (h : Reachable a m) :
    a.AllocatorInv m := by
  obtain ⟨m₀, calls, hinit, hrun⟩ := h
  exact runFrom_preserves (fun _ _ _ hinv hc => hinv.call hc) calls m₀ m
    (HeapArea.AllocatorInv.init a hinit) hrun

/-! ## The run that an allocation takes -/

/-- Pages free from an index on, all of them at or above the break. -/
def FreeAboveBrk (a : HeapArea) (m : MemoryManager) (index n : Nat) : Prop :=
  FreeRun m.bitarray.getBit index n ∧ m.heapBrk.toNat + (index + n) * 65536 ≤ a.heapEnd

/-- Pages free from an index on, all of them with a bit that a search looks at. -/
def FreeInBitmap (m : MemoryManager) (index n : Nat) : Prop :=
  FreeRun m.bitarray.getBit index n ∧ index + n ≤ m.bitarray.arraySize * 8

/-- Everything but the cached search position is as before. -/
structure Untouched (m m' : MemoryManager) : Prop where
  heapStartPtr : m'.heapStartPtr = m.heapStartPtr
  heapBrk : m'.heapBrk = m.heapBrk
  heapSize : m'.heapSize = m.heapSize
  heapLowestMmapAddr : m'.heapLowestMmapAddr = m.heapLowestMmapAddr
  array : m'.bitarray.array = m.bitarray.array
  arraySize : m'.bitarray.arraySize = m.bitarray.arraySize

namespace MemoryManager

theorem allocMemoryPseudoMmap_overflow (m : MemoryManager) {memsize : UInt32}
    (h : pagesRequested memsize = 0) : m.allocMemoryPseudoMmap memsize = none := by
  rw [allocMemoryPseudoMmap, h, BitArray.searchEmptybitSequenceBegin, if_pos rfl,
    Option.bind_none]

private theorem allocMemoryPseudoMmap_notFound (m : MemoryManager) {memsize : UInt32}
    (hn : 0 < pagesRequested memsize)
    (hnone : ∀ index, ¬ FreeInBitmap m index (pagesRequested memsize)) :
    ∃ m', m.allocMemoryPseudoMmap memsize = some (0, m') ∧ Untouched m m' := by
  obtain ⟨found, b, hsearch⟩ := m.bitarray.searchEmptybitSequenceBegin_isSome hn
  obtain ⟨-, harr, hsize, hfound⟩ := BitArray.searchEmptybitSequenceBegin_spec _ _ _ _ hsearch
  rw [allocMemoryPseudoMmap, hsearch, Option.bind_some]
  cases found with
  | none => exact ⟨_, rfl, rfl, rfl, rfl, rfl, harr, hsize⟩
  | some index => exact absurd ⟨hfound.1, hfound.2.1⟩ (hnone index)

end MemoryManager

namespace HeapArea

variable {a : HeapArea} {m : MemoryManager}

/-- The first run in the bitmap is taken when it lies above the break; across address zero it fails
an assertion. -/
private theorem AllocatorInv.alloc_found (h : a.AllocatorInv m) {memsize : UInt32} {index : Nat}
    (hn : 0 < pagesRequested memsize) (hrun : FreeInBitmap m index (pagesRequested memsize))
    (hleast : ∀ k, k < index → ¬ FreeRun m.bitarray.getBit k (pagesRequested memsize)) :
    ∃ b : BitArray, b.array = m.bitarray.array ∧ b.arraySize = m.bitarray.arraySize ∧
      m.allocMemoryPseudoMmap memsize =
        if (index + pagesRequested memsize) * 65536 ≤ a.heapEnd then
          if m.heapBrk.toNat + (index + pagesRequested memsize) * 65536 ≤ a.heapEnd then
            some (m.memoryPageFromIndex (index + pagesRequested memsize - 1),
              { m with bitarray := MemoryManager.toggleBits b index (pagesRequested memsize) })
          else some (0, { m with bitarray := b })
        else none := by
  obtain ⟨found, b, hsearch⟩ := m.bitarray.searchEmptybitSequenceBegin_isSome hn
  obtain ⟨-, harr, hsize, hfound⟩ := BitArray.searchEmptybitSequenceBegin_spec _ _ _ _ hsearch
  refine ⟨b, harr, hsize, ?_⟩
  rw [MemoryManager.allocMemoryPseudoMmap, hsearch, Option.bind_some]
  cases found with
  | none => exact absurd hrun.1 (hfound index hrun.2)
  | some i =>
      have hi : i = index := by
        rcases Nat.lt_trichotomy i index with hlt | heq | hgt
        · exact absurd hfound.1 (hleast i hlt)
        · exact heq
        · exact absurd hrun.1 (hfound.2.2 index hgt)
      subst i
      have hbits : m.bitarray.arraySize ≤ 8192 := h.arraySize
      have hbound := hrun.2
      have hbrk := h.brk_le
      have hfits : a.heapEnd ≤ 4294967296 := a.fits
      have hfirst := h.first_page_inside hrun.1 hleast
      have hhigh := h.governs.page index hfirst
      have hlast : index + pagesRequested memsize - 1 + 1 = index + pagesRequested memsize := by
        omega
      rw [MemoryManager.takePages]
      simp only [UInt32.le_iff_toNat_le, hhigh]
      by_cases hin : (index + pagesRequested memsize) * 65536 ≤ a.heapEnd
      · have hlow := h.governs.page (index + pagesRequested memsize - 1) (by rw [hlast]; exact hin)
        rw [hlast] at hlow
        rw [if_pos hin, hlow]
        by_cases habove : m.heapBrk.toNat + (index + pagesRequested memsize) * 65536 ≤ a.heapEnd
        · rw [if_pos habove, if_pos (by omega), if_pos (by omega)]
        · rw [if_neg habove, if_neg (by omega)]
      · have hlow := h.governs.page_wrapped (index + pagesRequested memsize - 1)
          (by rw [hlast]; omega) (by omega)
        rw [hlast] at hlow
        rw [if_neg hin, hlow, if_pos (by omega), if_neg (by omega)]

end HeapArea

private theorem exists_first_run {m : MemoryManager} {n : Nat} (h : ∃ index, FreeInBitmap m index n) :
    ∃ index, FreeInBitmap m index n ∧ ∀ k, k < index → ¬ FreeRun m.bitarray.getBit k n := by
  classical
  refine ⟨Nat.find h, Nat.find_spec h, fun k hk hfree => Nat.find_min h hk ⟨hfree, ?_⟩⟩
  have hbound := (Nat.find_spec h).2
  omega

/-- Pages needed to hold a length. -/
def requiredPages (length : UInt32) : Nat := (length.toNat + 65535) / 65536

/-- A mapping on the highest run of free pages above the break, which marks exactly these pages. -/
structure MapsRun (a : HeapArea) (m : MemoryManager) (length addr : UInt32) (m' : MemoryManager)
    (index : Nat) : Prop where
  run : FreeAboveBrk a m index (requiredPages length)
  highest : ∀ k, k < index → ¬ FreeAboveBrk a m k (requiredPages length)
  addr_eq : addr.toNat + (index + requiredPages length) * 65536 = a.heapEnd
  marks : ∀ k, m'.bitarray.getBit k =
    if index ≤ k ∧ k < index + requiredPages length then true else m.bitarray.getBit k
  heapStartPtr : m'.heapStartPtr = m.heapStartPtr
  heapBrk : m'.heapBrk = m.heapBrk
  heapSize : m'.heapSize = m.heapSize
  arraySize : m'.bitarray.arraySize = m.bitarray.arraySize
  lowest : m'.heapLowestMmapAddr =
    if addr < m.heapLowestMmapAddr then addr else m.heapLowestMmapAddr

/-- An anonymous mapping as the allocator makes it. -/
def mmapAnonymous (m : MemoryManager) (length : UInt32) :
    Option (Except Errno UInt32 × MemoryManager) :=
  m.memoryMmap (fun _ => none) none (anonymousRequest length)

/-- The highest run is mapped, or there is none and nothing changes. -/
def MmapsHighestRun (a : HeapArea) (m : MemoryManager) (length : UInt32) : Prop :=
  (∃ addr m' index, mmapAnonymous m length = some (.ok addr, m') ∧
      MapsRun a m length addr m' index) ∨
    (∀ index, ¬ FreeAboveBrk a m index (requiredPages length)) ∧
      ∃ m', mmapAnonymous m length = some (.error .enomem, m') ∧ Untouched m m'

/-- The same of the allocation alone, which answers with a null address when there is no run. -/
def AllocatesHighestRun (a : HeapArea) (m : MemoryManager) (memsize : UInt32) : Prop :=
  (∃ addr m' index, m.allocMemoryPseudoMmap memsize = some (addr, m') ∧ addr ≠ 0 ∧
      MapsRun a m memsize addr (m'.lowered addr) index) ∨
    (∀ index, ¬ FreeAboveBrk a m index (requiredPages memsize)) ∧
      ∃ m', m.allocMemoryPseudoMmap memsize = some (0, m') ∧ Untouched m m'

/-- The length is counted right, the bitmap covers a run above the break if there is one, and a run
in it if there is one that does not reach below address zero. -/
structure BitmapServes (a : HeapArea) (m : MemoryManager) (length : UInt32) : Prop where
  counted : length.toNat ≤ 4294901760
  covered : (∃ index, FreeAboveBrk a m index (requiredPages length)) →
    ∃ index, FreeAboveBrk a m index (requiredPages length) ∧
      FreeInBitmap m index (requiredPages length)
  inside : (∃ index, FreeInBitmap m index (requiredPages length)) →
    ∃ index, FreeInBitmap m index (requiredPages length) ∧
      (index + requiredPages length) * 65536 ≤ a.heapEnd

/-- What an allocation of some pages does. -/
inductive AllocOutcome (a : HeapArea) (m : MemoryManager) (memsize : UInt32) : Prop
  | overflow (hcount : 4294901760 < memsize.toNat)
      (halloc : m.allocMemoryPseudoMmap memsize = none)
  | noRun (hcount : memsize.toNat ≤ 4294901760)
      (hnone : ∀ index, ¬ FreeInBitmap m index (requiredPages memsize)) (m' : MemoryManager)
      (halloc : m.allocMemoryPseudoMmap memsize = some (0, m')) (hsame : Untouched m m')
  | across (hcount : memsize.toNat ≤ 4294901760) (index : Nat)
      (hrun : FreeInBitmap m index (requiredPages memsize))
      (hfirst : ∀ k, k < index → ¬ FreeRun m.bitarray.getBit k (requiredPages memsize))
      (hacross : a.heapEnd < (index + requiredPages memsize) * 65536)
      (halloc : m.allocMemoryPseudoMmap memsize = none)
  | belowBrk (hcount : memsize.toNat ≤ 4294901760) (index : Nat)
      (hrun : FreeInBitmap m index (requiredPages memsize))
      (hfirst : ∀ k, k < index → ¬ FreeRun m.bitarray.getBit k (requiredPages memsize))
      (hinside : (index + requiredPages memsize) * 65536 ≤ a.heapEnd)
      (hbelow : a.heapEnd < m.heapBrk.toNat + (index + requiredPages memsize) * 65536)
      (m' : MemoryManager) (halloc : m.allocMemoryPseudoMmap memsize = some (0, m'))
      (hsame : Untouched m m')
  | taken (hcount : memsize.toNat ≤ 4294901760) (index : Nat)
      (hrun : FreeInBitmap m index (requiredPages memsize)) (addr : UInt32) (m' : MemoryManager)
      (halloc : m.allocMemoryPseudoMmap memsize = some (addr, m')) (haddr : addr ≠ 0)
      (hmaps : MapsRun a m memsize addr (m'.lowered addr) index)

private theorem HeapArea.AllocatorInv.mapsRun {a : HeapArea} {m : MemoryManager} (h : a.AllocatorInv m)
    {length : UInt32} (hpos : 0 < requiredPages length) {index : Nat}
    (hrun : FreeAboveBrk a m index (requiredPages length))
    (hfirst : ∀ k, k < index → ¬ FreeRun m.bitarray.getBit k (requiredPages length))
    {b : BitArray} (harr : b.array = m.bitarray.array) (hsize : b.arraySize = m.bitarray.arraySize)
    {addr : UInt32} (haddr : addr = m.memoryPageFromIndex (index + requiredPages length - 1))
    {m₁ m' : MemoryManager}
    (hm₁ : m₁ = { m with bitarray := MemoryManager.toggleBits b index (requiredPages length) })
    (hm' : m' = m₁.lowered addr) : MapsRun a m length addr m' index := by
  have hfields : m'.heapStartPtr = m.heapStartPtr ∧ m'.heapBrk = m.heapBrk ∧
      m'.heapSize = m.heapSize ∧
      m'.bitarray = MemoryManager.toggleBits b index (requiredPages length) ∧
      m'.heapLowestMmapAddr =
        if addr < m.heapLowestMmapAddr then addr else m.heapLowestMmapAddr := by
    subst hm₁ hm'
    simp only [MemoryManager.lowered]
    split
    · exact ⟨rfl, rfl, rfl, rfl, rfl⟩
    · exact ⟨rfl, rfl, rfl, rfl, rfl⟩
  obtain ⟨hstart, hbrk, hheap, hbits, hlowest⟩ := hfields
  have hlast : index + requiredPages length - 1 + 1 = index + requiredPages length := by omega
  have hpage := h.governs.page (index + requiredPages length - 1) (by
    rw [hlast]
    have hin := hrun.2
    omega)
  refine ⟨hrun, fun k hk hfree => hfirst k hk hfree.1, ?_, fun k => ?_, hstart, hbrk, hheap, ?_,
    hlowest⟩
  · rw [haddr, hpage, hlast]
    have hin := hrun.2
    omega
  · have hbit : b.getBit k = m.bitarray.getBit k := by
      rw [BitArray.getBit, BitArray.getBit, harr]
    rw [hbits, MemoryManager.toggleBits_getBit, hbit]
    split
    · rename_i hin
      rw [hrun.1 k hin.1 hin.2]
      rfl
    · rfl
  · rw [hbits, MemoryManager.toggleBits_arraySize, hsize]

theorem HeapArea.AllocatorInv.allocOutcome {a : HeapArea} {m : MemoryManager}
    (h : a.AllocatorInv m) {memsize : UInt32} (hpos : 0 < memsize) : AllocOutcome a m memsize := by
  have hcount := MemoryManager.pagesRequested_eq_ite memsize
  rcases Nat.lt_or_ge 4294901760 memsize.toNat with hover | hle
  · rw [if_neg (by omega)] at hcount
    exact .overflow hover (m.allocMemoryPseudoMmap_overflow hcount)
  rw [if_pos hle, ← requiredPages] at hcount
  have hn : 0 < pagesRequested memsize := by
    rw [UInt32.lt_iff_toNat_lt, UInt32.toNat_zero] at hpos
    rw [hcount, requiredPages]
    omega
  by_cases hex : ∃ index, FreeInBitmap m index (requiredPages memsize)
  · obtain ⟨index, hrun, hfirst⟩ := exists_first_run hex
    rw [← hcount] at hrun hfirst
    obtain ⟨b, harr, hsize, halloc⟩ := h.alloc_found hn hrun hfirst
    rw [hcount] at hrun hfirst halloc hn
    split at halloc
    · rename_i hinside
      split at halloc
      · rename_i habove
        have hmaps := h.mapsRun hn ⟨hrun.1, habove⟩ hfirst harr hsize rfl rfl rfl
        have hnull : m.memoryPageFromIndex (index + requiredPages memsize - 1) ≠ 0 := by
          intro hzero
          have haddr := hmaps.addr_eq
          have hbrk := h.brk_pos
          rw [hzero, UInt32.toNat_zero] at haddr
          omega
        exact .taken hle index hrun _ _ halloc hnull hmaps
      · rename_i hbelow
        exact .belowBrk hle index hrun hfirst hinside (by omega) _ halloc
          ⟨rfl, rfl, rfl, rfl, harr, hsize⟩
    · rename_i hacross
      exact .across hle index hrun hfirst (by omega) halloc
  · obtain ⟨m', halloc, hsame⟩ := m.allocMemoryPseudoMmap_notFound hn
      (by rw [hcount]; exact not_exists.mp hex)
    exact .noRun hle (not_exists.mp hex) m' halloc hsame

theorem first_le_of_freeRun {m : MemoryManager} {n index : Nat}
    (hfirst : ∀ k, k < index → ¬ FreeRun m.bitarray.getBit k n) {k : Nat}
    (hk : FreeRun m.bitarray.getBit k n) : index ≤ k := by
  by_contra hlt
  exact hfirst k (by omega) hk

/-- An address that is not null is that of the highest run. -/
theorem HeapArea.AllocatorInv.alloc_mapsRun {a : HeapArea} {m m' : MemoryManager}
    (h : a.AllocatorInv m) {memsize addr : UInt32} (hpos : 0 < memsize)
    (halloc : m.allocMemoryPseudoMmap memsize = some (addr, m')) (haddr : addr ≠ 0) :
    ∃ index, FreeInBitmap m index (requiredPages memsize) ∧
      MapsRun a m memsize addr (m'.lowered addr) index := by
  cases h.allocOutcome hpos with
  | overflow hcount hnone => cases halloc.symm.trans hnone
  | noRun hcount hnone m₁ hnull hsame =>
      cases halloc.symm.trans hnull
      exact absurd rfl haddr
  | across hcount index hrun hfirst hacross hnone => cases halloc.symm.trans hnone
  | belowBrk hcount index hrun hfirst hinside hbelow m₁ hnull hsame =>
      cases halloc.symm.trans hnull
      exact absurd rfl haddr
  | taken hcount index hrun addr₁ m₁ htaken hnull hmaps =>
      cases halloc.symm.trans htaken
      exact ⟨index, hrun, hmaps⟩

namespace AllocatesHighestRun

variable {a : HeapArea} {m m₁ : MemoryManager} {memsize : UInt32}

theorem alloc_ne_none (h : AllocatesHighestRun a m memsize) :
    m.allocMemoryPseudoMmap memsize ≠ none := by
  rcases h with ⟨addr, m', index, halloc, -⟩ | ⟨-, m', halloc, -⟩
  · rw [halloc]
    exact Option.some_ne_none _
  · rw [halloc]
    exact Option.some_ne_none _

private theorem none_of_null (h : AllocatesHighestRun a m memsize)
    (hnull : m.allocMemoryPseudoMmap memsize = some (0, m₁)) (index : Nat) :
    ¬ FreeAboveBrk a m index (requiredPages memsize) := by
  rcases h with ⟨addr, m', i, halloc, haddr, -⟩ | ⟨hnone, -⟩
  · cases halloc.symm.trans hnull
    exact absurd rfl haddr
  · exact hnone index

end AllocatesHighestRun

/-- The allocation takes the highest run exactly when the bitmap serves the request. -/
theorem HeapArea.AllocatorInv.allocatesHighestRun_iff {a : HeapArea} {m : MemoryManager}
    (h : a.AllocatorInv m) {memsize : UInt32} (hpos : 0 < memsize) :
    AllocatesHighestRun a m memsize ↔ BitmapServes a m memsize := by
  constructor
  · intro hright
    cases h.allocOutcome hpos with
    | overflow hcount halloc => exact absurd halloc hright.alloc_ne_none
    | noRun hcount hnone m₁ halloc hsame =>
        exact ⟨hcount, fun ⟨k, hk⟩ => absurd hk (hright.none_of_null halloc k),
          fun ⟨k, hk⟩ => absurd hk (hnone k)⟩
    | across hcount index hrun hfirst hacross halloc => exact absurd halloc hright.alloc_ne_none
    | belowBrk hcount index hrun hfirst hinside hbelow m₁ halloc hsame =>
        exact ⟨hcount, fun ⟨k, hk⟩ => absurd hk (hright.none_of_null halloc k),
          fun _ => ⟨index, hrun, hinside⟩⟩
    | taken hcount index hrun addr m₁ halloc haddr hmaps =>
        have hinside := hmaps.run.2
        exact ⟨hcount, fun _ => ⟨index, hmaps.run, hrun⟩, fun _ => ⟨index, hrun, by omega⟩⟩
  · intro hserves
    cases h.allocOutcome hpos with
    | overflow hcount halloc => exact absurd hserves.counted (by omega)
    | noRun hcount hnone m₁ halloc hsame =>
        refine .inr ⟨fun index hfree => ?_, m₁, halloc, hsame⟩
        obtain ⟨k, -, hk⟩ := hserves.covered ⟨index, hfree⟩
        exact hnone k hk
    | across hcount index hrun hfirst hacross halloc =>
        obtain ⟨k, hk, hinside⟩ := hserves.inside ⟨index, hrun⟩
        have hle := first_le_of_freeRun hfirst hk.1
        omega
    | belowBrk hcount index hrun hfirst hinside hbelow m₁ halloc hsame =>
        refine .inr ⟨fun k hfree => ?_, m₁, halloc, hsame⟩
        have hle := first_le_of_freeRun hfirst hfree.1
        have habove := hfree.2
        omega
    | taken hcount index hrun addr m₁ halloc haddr hmaps =>
        exact .inl ⟨addr, m₁, index, halloc, haddr, hmaps⟩

theorem mmapAnonymous_none {m : MemoryManager} {length : UInt32} (hpos : 0 < length)
    (halloc : m.allocMemoryPseudoMmap length = none) : mmapAnonymous m length = none := by
  rw [mmapAnonymous, MappingState.memoryMmap_anonymous, if_pos hpos, halloc, Option.map_none]

theorem mmapAnonymous_null {m m' : MemoryManager} {length : UInt32} (hpos : 0 < length)
    (halloc : m.allocMemoryPseudoMmap length = some (0, m')) :
    mmapAnonymous m length = some (.error .enomem, m') := by
  rw [mmapAnonymous, MappingState.memoryMmap_anonymous, if_pos hpos, halloc]
  rfl

theorem mmapAnonymous_addr {m m' : MemoryManager} {length addr : UInt32} (hpos : 0 < length)
    (haddr : addr ≠ 0) (halloc : m.allocMemoryPseudoMmap length = some (addr, m')) :
    mmapAnonymous m length = some (.ok addr, m'.lowered addr) := by
  rw [mmapAnonymous, MappingState.memoryMmap_anonymous, if_pos hpos, halloc]
  exact congrArg some (if_pos haddr)

theorem mmapsHighestRun_iff_allocates {a : HeapArea} {m : MemoryManager} {length : UInt32}
    (hpos : 0 < length) : MmapsHighestRun a m length ↔ AllocatesHighestRun a m length := by
  constructor
  · intro hright
    cases halloc : m.allocMemoryPseudoMmap length with
    | none =>
        have hmmap := mmapAnonymous_none hpos halloc
        rcases hright with ⟨addr, m', index, hok, -⟩ | ⟨-, m', herror, -⟩
        · cases hmmap.symm.trans hok
        · cases hmmap.symm.trans herror
    | some r =>
        obtain ⟨addr₁, m₁⟩ := r
        by_cases haddr : addr₁ = 0
        · subst addr₁
          have hmmap := mmapAnonymous_null hpos halloc
          rcases hright with ⟨addr, m', index, hok, -⟩ | ⟨hnone, m', herror, hsame⟩
          · cases hmmap.symm.trans hok
          · cases hmmap.symm.trans herror
            exact .inr ⟨hnone, m₁, halloc, hsame⟩
        · have hmmap := mmapAnonymous_addr hpos haddr halloc
          rcases hright with ⟨addr, m', index, hok, hmaps⟩ | ⟨-, m', herror, -⟩
          · cases hmmap.symm.trans hok
            exact .inl ⟨addr₁, m₁, index, halloc, haddr, hmaps⟩
          · cases hmmap.symm.trans herror
  · rintro (⟨addr, m', index, halloc, haddr, hmaps⟩ | ⟨hnone, m', halloc, hsame⟩)
    · exact .inl ⟨addr, _, index, mmapAnonymous_addr hpos haddr halloc, hmaps⟩
    · exact .inr ⟨hnone, m', mmapAnonymous_null hpos halloc, hsame⟩

/-- In every state reached and for every length, `mmap` takes the highest run of free pages above the
break, or refuses when there is none, exactly when the bitmap serves the request. -/
theorem mmapsHighestRun_iff {a : HeapArea} {m : MemoryManager} (h : Reachable a m)
    {length : UInt32} (hpos : 0 < length) :
    MmapsHighestRun a m length ↔ BitmapServes a m length :=
  (mmapsHighestRun_iff_allocates hpos).trans (h.inv.allocatesHighestRun_iff hpos)

theorem fourPages_reachable : Reachable MappingState.fourPageArea MappingState.fourPages :=
  ⟨MappingState.fourPages, [], rfl, rfl⟩

/-- The break is raised by a page, the highest page is mapped, and the one below it for a while. -/
def fourPageCalls : List ManagerCall :=
  [.sysbrk 0x20000, .mmap (fun _ => none) none (anonymousRequest 0x10000),
    .mmap (fun _ => none) none (anonymousRequest 1), .munmap 0x30000 0x10000]

theorem fourPageCalls_free :
    RunEnds MemoryManager.call MappingState.fourPages fourPageCalls fun m =>
      FreeRun m.bitarray.getBit 1 2 ∧ m.heapBrk.toNat = 0x20000 ∧ m.bitarray.arraySize = 1 := by
  have hends : RunEnds MemoryManager.call MappingState.fourPages fourPageCalls fun m =>
      (m.bitarray.getBit 1 = false ∧ m.bitarray.getBit 2 = false) ∧
        m.heapBrk.toNat = 0x20000 ∧ m.bitarray.arraySize = 1 := by decide
  obtain ⟨m, hm, ⟨hone, htwo⟩, hstate⟩ := hends
  refine ⟨m, hm, ?_, hstate⟩
  intro k hle hlt
  obtain rfl | rfl : k = 1 ∨ k = 2 := by omega
  · exact hone
  · exact htwo

/-- A free run above the break with bits of its own is enough. -/
theorem bitmapServes_of_freeRun {a : HeapArea} {m : MemoryManager} {length : UInt32} (index : Nat)
    (hcount : length.toNat ≤ 4294901760) (hrun : FreeAboveBrk a m index (requiredPages length))
    (hbits : index + requiredPages length ≤ m.bitarray.arraySize * 8) : BitmapServes a m length where
  counted := hcount
  covered := fun _ => ⟨index, hrun, hrun.1, hbits⟩
  inside := by
    have habove := hrun.2
    exact fun _ => ⟨index, ⟨hrun.1, hbits⟩, by omega⟩

theorem mmapsHighestRun_iff_fourPages :
    RunEnds MemoryManager.call MappingState.fourPages fourPageCalls fun m =>
      MmapsHighestRun MappingState.fourPageArea m 0x20000 := by
  obtain ⟨m, hm, hfree, hbrk, hsize⟩ := fourPageCalls_free
  have hpages : requiredPages 0x20000 = 2 := by decide
  have hend : MappingState.fourPageArea.heapEnd = 0x50000 := by decide
  have hserves : BitmapServes MappingState.fourPageArea m 0x20000 := by
    apply bitmapServes_of_freeRun 1 (by decide)
    · rw [hpages]
      exact ⟨hfree, by omega⟩
    · omega
  exact ⟨m, hm, (mmapsHighestRun_iff ⟨MappingState.fourPages, fourPageCalls, rfl, hm⟩
    (by decide)).mpr hserves⟩

/-- The pages of this length are counted as none, which the search asserts against. -/
theorem mmap_overflow_fails :
    ¬ MmapsHighestRun MappingState.fourPageArea MappingState.fourPages 0xFFFF0001 := by
  intro hright
  have hnone := MappingState.fourPages.allocMemoryPseudoMmap_overflow
    (show pagesRequested 0xFFFF0001 = 0 by decide)
  exact ((mmapsHighestRun_iff_allocates (by decide)).mp hright).alloc_ne_none hnone

end Zrt.Memory
