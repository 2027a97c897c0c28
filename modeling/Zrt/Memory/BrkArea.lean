import Mathlib.Data.List.Basic
import Zrt.Memory.Mappings

/-!
# Separation of the brk area from the mmap area

`sysbrk` and `mmap` share one heap and know of each other only through the break and the lowest
address mapped so far. The page bitmap has up to seven bits more than the heap has pages, and bits
can be cleared by any `munmap`; neither lets a mapping leave the heap or meet the break.
-/

namespace Zrt.Memory

open Zrt.Framework

/-- A heap as zerovm hands it over: it lies in the 32-bit address space, away from the null
address, its end is page aligned and the break is not above its highest page. -/
structure HeapArea where
  heapPtr : UInt32
  heapSize : UInt32
  brk : UInt32
  ptr_pos : 0 < heapPtr.toNat
  brk_pos : 0 < brk.toNat
  fits : heapPtr.toNat + heapSize.toNat ≤ 4294967296
  aligned : (heapPtr.toNat + heapSize.toNat) % 65536 = 0
  brk_le : brk.toNat + 65536 ≤ heapPtr.toNat + heapSize.toNat

namespace HeapArea

/-- The address just above the heap, which a 32-bit pointer cannot always hold. -/
def heapEnd (a : HeapArea) : Nat := a.heapPtr.toNat + a.heapSize.toNat

/-- The manager works on this heap. -/
structure Governs (a : HeapArea) (m : MemoryManager) : Prop where
  heapStartPtr : m.heapStartPtr = a.heapPtr
  heapSize : m.heapSize = a.heapSize

theorem Governs.highest {a : HeapArea} {m : MemoryManager} (h : a.Governs m) :
    m.mmapHighestPageAddr.toNat = a.heapEnd - 65536 := by
  have hfits := a.fits
  have hbrk := a.brk_le
  have hptr := a.heapPtr.toNat_lt
  rw [MemoryManager.mmapHighestPageAddr, MemoryManager.heapMaxAddr, h.heapStartPtr, h.heapSize,
    UInt32.toNat_sub, UInt32.toNat_add, toNat_pageSize, heapEnd]
  omega

theorem Governs.page {a : HeapArea} {m : MemoryManager} (h : a.Governs m) (i : Nat)
    (hi : (i + 1) * 65536 ≤ a.heapEnd) :
    (m.memoryPageFromIndex i).toNat = a.heapEnd - (i + 1) * 65536 := by
  have hfits : a.heapEnd ≤ 4294967296 := a.fits
  rw [MemoryManager.memoryPageFromIndex_toNat m i (by omega), h.highest]
  omega

/-- A page index past address zero wraps to the top of the address space. -/
theorem Governs.page_wrapped {a : HeapArea} {m : MemoryManager} (h : a.Governs m) (i : Nat)
    (hi : a.heapEnd < (i + 1) * 65536) (hlt : i < 65536) :
    (m.memoryPageFromIndex i).toNat = a.heapEnd + 4294967296 - (i + 1) * 65536 := by
  have hbrk : a.brk.toNat + 65536 ≤ a.heapEnd := a.brk_le
  rw [MemoryManager.memoryPageFromIndex_toNat m i hlt, h.highest]
  omega

/-- The bits of the page at address zero and of those past it stay clear: such a page is never above
the break, which itself is never null. -/
structure BitmapInv (a : HeapArea) (m : MemoryManager) : Prop where
  governs : a.Governs m
  arraySize : m.bitarray.arraySize ≤ mapChunksBitArraySize
  brk_pos : 0 < m.heapBrk.toNat
  clear : ∀ k, a.heapEnd ≤ (k + 1) * 65536 → m.bitarray.getBit k = false

variable {a : HeapArea} {m : MemoryManager}

/-- The first free run does not start past address zero: the bits from the page at address zero on
are clear, so it would not be the first one. -/
theorem BitmapInv.first_page_inside (h : a.BitmapInv m) {index n : Nat}
    (hfree : FreeRun m.bitarray.getBit index n)
    (hleast : ∀ k, k < index → ¬ FreeRun m.bitarray.getBit k n) :
    (index + 1) * 65536 ≤ a.heapEnd := by
  have haligned : a.heapEnd % 65536 = 0 := a.aligned
  have hbrk : a.brk.toNat + 65536 ≤ a.heapEnd := a.brk_le
  by_contra hpast
  refine hleast (index - 1) (by omega) fun k hk hk' => ?_
  rcases Nat.lt_or_ge k index with hlt | hge
  · exact h.clear k (by omega)
  · exact hfree k hge (by omega)

/-- The first free run above the break ends above address zero: a run across it has its lowest page
above its highest one. -/
theorem BitmapInv.run_inside (h : a.BitmapInv m) (index n : Nat) (hn : 0 < n)
    (hbound : index + n ≤ m.bitarray.arraySize * 8)
    (hfree : FreeRun m.bitarray.getBit index n)
    (hleast : ∀ k, k < index → ¬ FreeRun m.bitarray.getBit k n)
    (hbrk : m.heapBrk ≤ m.memoryPageFromIndex (index + n - 1))
    (hle : m.memoryPageFromIndex (index + n - 1) ≤ m.memoryPageFromIndex index) :
    (index + n) * 65536 < a.heapEnd := by
  have hsize : m.bitarray.arraySize ≤ 8192 := h.arraySize
  have hfits : a.heapEnd ≤ 4294967296 := a.fits
  have haligned : a.heapEnd % 65536 = 0 := a.aligned
  have hpos := h.brk_pos
  rw [UInt32.le_iff_toNat_le] at hbrk hle
  have hlow : index + n - 1 + 1 = index + n := by omega
  by_contra hout
  rcases Nat.lt_or_ge a.heapEnd ((index + n) * 65536) with hwrap | hzero
  · have hfirst := h.first_page_inside hfree hleast
    rw [h.governs.page_wrapped _ (by rw [hlow]; exact hwrap) (by omega),
      h.governs.page index hfirst, hlow] at hle
    omega
  · rw [h.governs.page _ (by rw [hlow]; exact hzero), hlow] at hbrk
    omega

private theorem BitmapInv.toggleBits_clear (h : a.BitmapInv m) (b : BitArray) (index n : Nat)
    (harr : b.array = m.bitarray.array) (hin : (index + n) * 65536 < a.heapEnd) (k : Nat)
    (hk : a.heapEnd ≤ (k + 1) * 65536) :
    (MemoryManager.toggleBits b index n).getBit k = false := by
  rw [MemoryManager.toggleBits_getBit, if_neg (by omega), BitArray.getBit, harr]
  exact h.clear k hk

theorem BitmapInv.withBits (h : a.BitmapInv m) (b : BitArray)
    (hsize : b.arraySize = m.bitarray.arraySize)
    (hclear : ∀ k, a.heapEnd ≤ (k + 1) * 65536 → b.getBit k = false) :
    a.BitmapInv { m with bitarray := b } where
  governs := ⟨h.governs.heapStartPtr, h.governs.heapSize⟩
  arraySize := by
    show b.arraySize ≤ mapChunksBitArraySize
    rw [hsize]
    exact h.arraySize
  brk_pos := h.brk_pos
  clear := hclear

/-- The lowest mapped address does not matter. -/
theorem BitmapInv.withLowest (h : a.BitmapInv m) (addr : UInt32) :
    a.BitmapInv { m with heapLowestMmapAddr := addr } :=
  ⟨⟨h.governs.heapStartPtr, h.governs.heapSize⟩, h.arraySize, h.brk_pos, h.clear⟩

theorem BitmapInv.alloc (h : a.BitmapInv m) {memsize addr : UInt32} {m' : MemoryManager}
    (halloc : m.allocMemoryPseudoMmap memsize = some (addr, m')) : a.BitmapInv m' := by
  obtain ⟨b, harr, hsize, hcases⟩ := MemoryManager.allocMemoryPseudoMmap_cases _ _ _ _ halloc
  rcases hcases with ⟨-, rfl⟩ | ⟨index, hpos, hbound, hfree, hleast, haddr, hbrk, hle, rfl⟩
  · refine h.withBits b hsize fun k hk => ?_
    rw [BitArray.getBit, harr]
    exact h.clear k hk
  · rw [haddr] at hbrk hle
    have hin := h.run_inside index _ hpos hbound hfree hleast hbrk hle
    refine h.withBits _ ?_ (h.toggleBits_clear b index _ harr hin)
    rw [MemoryManager.toggleBits_arraySize, hsize]

theorem BitmapInv.sysbrk (h : a.BitmapInv m) (addr : UInt32) :
    a.BitmapInv (m.memorySysbrk addr).2 := by
  rcases m.memorySysbrk_cases addr with hm | ⟨hstart, -, hm⟩
  · rw [hm]
    exact h
  · rw [hm]
    have hptr := a.ptr_pos
    rw [h.governs.heapStartPtr, UInt32.le_iff_toNat_le] at hstart
    refine ⟨⟨h.governs.heapStartPtr, h.governs.heapSize⟩, h.arraySize, ?_, h.clear⟩
    show 0 < addr.toNat
    omega

theorem BitmapInv.munmap (h : a.BitmapInv m) {addr length : UInt32} {m' : MemoryManager}
    (hm : m.memoryMunmap addr length = some m') : a.BitmapInv m' := by
  rcases MemoryManager.memoryMunmap_cases hm with ⟨rfl, -⟩ | ⟨-, -, b, rfl, hsize, -, hbits⟩
  · exact h
  · refine h.withBits b hsize fun k hk => ?_
    rw [hbits k, h.clear k hk, Bool.false_and]

end HeapArea

namespace MappingState

/-- What keeps the two areas apart. -/
structure Separated (a : HeapArea) (s : MappingState) : Prop where
  brk_le : s.manager.heapBrk ≤ s.manager.heapLowestMmapAddr
  aligned : ∀ w ∈ s.returned, w.addr.toNat % 65536 = 0
  above : ∀ w ∈ s.returned, s.manager.heapLowestMmapAddr ≤ w.addr
  inside : ∀ w ∈ s.returned, w.addr.toNat + w.pageCount * 65536 ≤ a.heapEnd
  apart : ∀ w ∈ s.returned, ∀ p : Nat, w.addr.toNat ≤ p → p < w.addr.toNat + w.pageCount * 65536 →
    s.manager.heapBrk.toNat ≤ p

/-- A returned mapping: page aligned, not below the lowest mapped address, inside the heap. -/
structure Placed (a : HeapArea) (m : MemoryManager) (w : Mapping) : Prop where
  aligned : w.addr.toNat % 65536 = 0
  above : m.heapLowestMmapAddr ≤ w.addr
  inside : w.addr.toNat + w.pageCount * 65536 ≤ a.heapEnd

/-- The bitmap invariant, the order of the break and the lowest mapped address, and the place of every
mapping returned. -/
structure AreaInv (a : HeapArea) (s : MappingState) : Prop where
  governs : a.Governs s.manager
  arraySize : s.manager.bitarray.arraySize ≤ mapChunksBitArraySize
  brk_pos : 0 < s.manager.heapBrk.toNat
  brk_le : s.manager.heapBrk ≤ s.manager.heapLowestMmapAddr
  clear : ∀ k, a.heapEnd ≤ (k + 1) * 65536 → s.manager.bitarray.getBit k = false
  placed : ∀ w ∈ s.returned, Placed a s.manager w

variable {a : HeapArea} {s t : MappingState}

theorem AreaInv.bitmapInv (h : AreaInv a s) : a.BitmapInv s.manager :=
  ⟨h.governs, h.arraySize, h.brk_pos, h.clear⟩

theorem AreaInv.of_bitmapInv (h : a.BitmapInv s.manager)
    (hbrk : s.manager.heapBrk ≤ s.manager.heapLowestMmapAddr)
    (hplaced : ∀ w ∈ s.returned, Placed a s.manager w) : AreaInv a s :=
  ⟨h.governs, h.arraySize, h.brk_pos, hbrk, h.clear, hplaced⟩

private theorem AreaInv.separated (h : AreaInv a s) : Separated a s where
  brk_le := h.brk_le
  aligned := fun w hw => (h.placed w hw).aligned
  above := fun w hw => (h.placed w hw).above
  inside := fun w hw => (h.placed w hw).inside
  apart := by
    intro w hw p hp _
    have hbrk := UInt32.le_iff_toNat_le.mp h.brk_le
    have habove := UInt32.le_iff_toNat_le.mp (h.placed w hw).above
    omega

theorem Placed.mono {m m' : MemoryManager} {w : Mapping} (h : Placed a m w)
    (hm : m'.heapLowestMmapAddr ≤ m.heapLowestMmapAddr) : Placed a m' w :=
  ⟨h.aligned, UInt32.le_trans hm h.above, h.inside⟩

theorem AreaInv.start (a : HeapArea) (m : MemoryManager)
    (h : MemoryManager.memoryInit a.heapPtr a.heapSize a.brk = some m) :
    AreaInv a (MappingState.start m) := by
  have hsize := MemoryManager.memoryInit_arraySize _ _ _ m h
  simp only [MemoryManager.memoryInit] at h
  split at h
  · simp only [Option.some.injEq] at h
    have hgov : a.Governs m := by subst m; exact ⟨rfl, rfl⟩
    have hhigh := hgov.highest
    have hbrk := a.brk_le
    refine ⟨hgov, hsize, ?_, ?_, ?_, by simp [MappingState.start]⟩
    · subst m
      exact a.brk_pos
    · rw [UInt32.le_iff_toNat_le]
      have hlow : m.heapLowestMmapAddr = m.mmapHighestPageAddr := by subst m; rfl
      have hb : m.heapBrk = a.brk := by subst m; rfl
      show m.heapBrk.toNat ≤ m.heapLowestMmapAddr.toNat
      rw [hlow, hhigh, hb, HeapArea.heapEnd]
      omega
    · intro k _
      subst m
      simp [MappingState.start, BitArray.getBit]
  · cases h

private theorem memoryInit_isSome (a : HeapArea) :
    ∃ m, MemoryManager.memoryInit a.heapPtr a.heapSize a.brk = some m := by
  have hfits := a.fits
  have haligned := a.aligned
  have hround : a.heapPtr + a.heapSize = roundUp (a.heapPtr + a.heapSize) := by
    apply UInt32.toNat_inj.mp
    have hlt := (a.heapPtr + a.heapSize).toNat_lt
    have hsum : (a.heapPtr + a.heapSize).toNat % 65536 = 0 := by
      rw [UInt32.toNat_add]
      omega
    rw [toNat_roundUp]
    omega
  exact ⟨_, if_pos hround⟩

private theorem AreaInv.step_sysbrk {addr : UInt32} (h : AreaInv a s)
    (hstep : s.step (.sysbrk addr) = some t) : AreaInv a t := by
  rw [MappingState.step, Option.some.injEq] at hstep
  subst t
  have hinv := h.bitmapInv.sysbrk addr
  rcases s.manager.memorySysbrk_cases addr with hm | ⟨-, hlow, hm⟩
  · rw [hm]
    exact h
  · rw [hm] at hinv ⊢
    exact .of_bitmapInv hinv (UInt32.le_of_lt hlow)
      fun w hw => (h.placed w hw).mono (UInt32.le_refl _)

private theorem AreaInv.step_munmap {addr length : UInt32} (h : AreaInv a s)
    (hstep : s.step (.munmap addr length) = some t) : AreaInv a t := by
  rw [MappingState.step, Option.map_eq_some_iff] at hstep
  obtain ⟨m, hm, rfl⟩ := hstep
  have hinv := h.bitmapInv.munmap hm
  rcases MemoryManager.memoryMunmap_cases hm with ⟨rfl, -⟩ | ⟨-, -, b, rfl, -⟩
  · exact .of_bitmapInv hinv h.brk_le h.placed
  · exact .of_bitmapInv hinv h.brk_le fun w hw => (h.placed w hw).mono (UInt32.le_refl _)

private theorem AreaInv.run_placed {m : MemoryManager} {length : UInt32} (h : AreaInv a s) (index : Nat)
    (hn : 0 < pagesRequested length)
    (hin : (index + pagesRequested length) * 65536 < a.heapEnd)
    (hlow : m.heapLowestMmapAddr ≤
      s.manager.memoryPageFromIndex (index + pagesRequested length - 1)) :
    Placed a m
      ⟨s.manager.memoryPageFromIndex (index + pagesRequested length - 1), length⟩ := by
  have hlast : index + pagesRequested length - 1 + 1 = index + pagesRequested length := by omega
  have haddr := h.governs.page (index + pagesRequested length - 1) (by rw [hlast]; omega)
  have haligned : a.heapEnd % 65536 = 0 := a.aligned
  have hcount := MemoryManager.pagesRequested_eq length hn
  rw [hlast] at haddr
  refine ⟨?_, hlow, ?_⟩
  · simp only [haddr]
    omega
  · simp only [haddr, Mapping.pageCount, ← hcount]
    omega

private theorem AreaInv.mapped {m : MemoryManager} {w : Mapping} {live : List Mapping} (h : AreaInv a s)
    (hinv : a.BitmapInv m) (hbrk : m.heapBrk = s.manager.heapBrk) (hle : s.manager.heapBrk ≤ w.addr)
    (hlow : m.heapLowestMmapAddr =
      if w.addr < s.manager.heapLowestMmapAddr then w.addr else s.manager.heapLowestMmapAddr)
    (hplaced : m.heapLowestMmapAddr ≤ w.addr → Placed a m w) :
    AreaInv a ⟨m, w :: s.returned, live⟩ := by
  have hfall : m.heapLowestMmapAddr ≤ s.manager.heapLowestMmapAddr ∧
      m.heapLowestMmapAddr ≤ w.addr ∧ m.heapBrk ≤ m.heapLowestMmapAddr := by
    rw [hlow, hbrk]
    split
    · rename_i hlt
      exact ⟨UInt32.le_of_lt hlt, UInt32.le_refl _, hle⟩
    · rename_i hge
      exact ⟨UInt32.le_refl _, UInt32.not_lt.mp hge, h.brk_le⟩
  refine .of_bitmapInv hinv hfall.2.2 (List.forall_mem_cons.mpr ⟨hplaced hfall.2.1, ?_⟩)
  exact fun w hw => (h.placed w hw).mono hfall.1

private theorem AreaInv.step_mmap {length : UInt32} (h : AreaInv a s)
    (hstep : s.step (.mmap length) = some t) : AreaInv a t := by
  rcases step_mmap_cases hstep with rfl | ⟨addr, m, halloc, hcases⟩
  · exact h
  have hinv := h.bitmapInv.alloc halloc
  obtain ⟨b, -, -, hfound⟩ := MemoryManager.allocMemoryPseudoMmap_cases _ _ _ _ halloc
  rcases hfound with ⟨rfl, rfl⟩ | ⟨index, hpos, hbound, hfree, hleast, haddr, hbrk, hle, rfl⟩
  · rcases hcases with ⟨-, rfl⟩ | ⟨hne, -⟩
    · exact .of_bitmapInv hinv h.brk_le fun w hw => (h.placed w hw).mono (UInt32.le_refl _)
    · exact absurd rfl hne
  · rw [haddr] at hle
    have hin := h.bitmapInv.run_inside index _ hpos hbound hfree hleast (haddr ▸ hbrk) hle
    rcases hcases with ⟨hzero, -⟩ | ⟨-, m', hm', rfl⟩
    · -- the null address is below the break
      have hb := h.brk_pos
      rw [hzero, UInt32.le_iff_toNat_le] at hbrk
      exact absurd hbrk (Nat.not_le.mpr hb)
    · have hfields : a.BitmapInv m' ∧ m'.heapBrk = s.manager.heapBrk ∧
          m'.heapLowestMmapAddr = if addr < s.manager.heapLowestMmapAddr then addr
            else s.manager.heapLowestMmapAddr := by
        rw [hm']
        split
        · exact ⟨hinv.withLowest addr, rfl, rfl⟩
        · exact ⟨hinv, rfl, rfl⟩
      obtain ⟨hinv', hbrk', hlow⟩ := hfields
      refine h.mapped hinv' hbrk' hbrk hlow fun habove => ?_
      rw [haddr] at habove ⊢
      exact h.run_placed index hpos hin habove

private theorem AreaInv.step {c : MemoryCall} (h : AreaInv a s) (hstep : s.step c = some t) :
    AreaInv a t := by
  cases c with
  | sysbrk addr => exact h.step_sysbrk hstep
  | mmap length => exact h.step_mmap hstep
  | munmap addr length => exact h.step_munmap hstep

/-- On every such heap, and in every state a run of the three calls reaches, the break is not above
the lowest mapped address and every mapping returned so far lies above the break, inside the
heap. -/
theorem brk_mmap_separated (a : HeapArea) :
    ∃ m, MemoryManager.memoryInit a.heapPtr a.heapSize a.brk = some m ∧
      ∀ (calls : List MemoryCall) (s : MappingState),
        runFrom MappingState.step (MappingState.start m) calls = some s → Separated a s := by
  obtain ⟨m, hm⟩ := memoryInit_isSome a
  refine ⟨m, hm, fun calls s hrun => ?_⟩
  have hinv : AreaInv a s :=
    runFrom_preserves (fun _ _ _ h hs => h.step hs) calls _ s (AreaInv.start a m hm) hrun
  exact hinv.separated

/-- Four pages above the first one, none of them used by the break. -/
def fourPageArea : HeapArea where
  heapPtr := 0x10000
  heapSize := 0x40000
  brk := 0x10000
  ptr_pos := by decide
  brk_pos := by decide
  fits := by decide
  aligned := by decide
  brk_le := by decide

/-- The break is raised below two mappings, one of which is unmapped and mapped again. -/
theorem brk_mmap_separated_fourPages :
    RunEnds MappingState.step (MappingState.start fourPages)
      [.mmap 0x10000, .mmap 1, .sysbrk 0x20000, .munmap 0x40000 0x10000, .mmap 0x8000]
      (Separated fourPageArea) := by
  obtain ⟨m, hm, hsep⟩ := brk_mmap_separated fourPageArea
  have hinit : some fourPages = some m := hm
  have hrun : RunEnds MappingState.step (MappingState.start fourPages)
      [.mmap 0x10000, .mmap 1, .sysbrk 0x20000, .munmap 0x40000 0x10000, .mmap 0x8000]
      fun _ => True := by decide
  obtain ⟨s, hs, -⟩ := hrun
  cases hinit
  exact ⟨s, hs, hsep _ s hs⟩

end MappingState

end Zrt.Memory
