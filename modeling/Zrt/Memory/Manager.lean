import Mathlib.Data.List.Basic
import Zrt.Errno
import Zrt.Memory.BitArray

/-!
# Memory manager

The heap handed over by zerovm is shared by `sysbrk`, which grows from its start, and by the `mmap`
emulation, which takes pages from its end downwards. Addresses and sizes have 32 bits; page index zero
is the highest page of the heap.
-/

namespace Zrt.Memory

abbrev pageSize : UInt32 := 65536

/-- `ROUND_UP(n, PAGE_SIZE)` in the arithmetic of `size_t`. -/
def roundUp (n : UInt32) : UInt32 := (n + pageSize - 1) / pageSize * pageSize

@[simp] theorem toNat_pageSize : pageSize.toNat = 65536 := rfl

/-- Only the last page of the address space rounds up past it. -/
theorem toNat_roundUp (n : UInt32) :
    (roundUp n).toNat = (n.toNat + 65535) / 65536 * 65536 % 4294967296 := by
  have hlt := n.toNat_lt
  have hsum : (n + pageSize - 1).toNat = (n.toNat + 65535) % 4294967296 := by
    rw [UInt32.toNat_sub, UInt32.toNat_add, toNat_pageSize]
    show (2 ^ 32 - 1 + (n.toNat + 65536) % 2 ^ 32) % 2 ^ 32 = _
    omega
  rw [roundUp, UInt32.toNat_mul, UInt32.toNat_div, hsum, toNat_pageSize]
  omega

/-- `ROUND_UP(length, PAGE_SIZE)/PAGE_SIZE`, the page count of `mmap` and of `munmap`. -/
def pagesRequested (length : UInt32) : Nat := (roundUp length / pageSize).toNat

/-- Bytes of `map_chunks_bit_array`, one bit per page of a four gigabyte heap. -/
def mapChunksBitArraySize : Nat := 8192

structure MemoryManager where
  heapStartPtr : UInt32
  heapBrk : UInt32
  heapSize : UInt32
  heapLowestMmapAddr : UInt32
  bitarray : BitArray

namespace MemoryManager

def heapMaxAddr (m : MemoryManager) : UInt32 := m.heapStartPtr + m.heapSize

def mmapRegionSizeAligned (m : MemoryManager) : UInt32 :=
  roundUp (m.heapSize - (m.heapBrk - m.heapStartPtr))

def mmapLowestPageAddr (m : MemoryManager) : UInt32 := m.heapMaxAddr - m.mmapRegionSizeAligned

def mmapHighestPageAddr (m : MemoryManager) : UInt32 := m.heapMaxAddr - pageSize

def memoryPageFromIndex (m : MemoryManager) (index : Nat) : UInt32 :=
  m.mmapHighestPageAddr - UInt32.ofNat index * pageSize

/-- `toggle_bit` on consecutive indexes. -/
def toggleBits (b : BitArray) (index : Nat) : Nat → BitArray
  | 0 => b
  | n + 1 => toggleBits (b.toggleBit index) (index + 1) n

/-- What the allocator does with the result of the search: a run of pages below the break is left
alone, any other run is marked. A null pointer is zero; `none` is a failed assertion. -/
def takePages (m : MemoryManager) (mapPagesRequested : Nat) :
    Option Nat × BitArray → Option (UInt32 × MemoryManager)
  | (none, b) => some (0, { m with bitarray := b })
  | (some mmapIndex, b) =>
      let high := m.memoryPageFromIndex mmapIndex
      let low := m.memoryPageFromIndex (mmapIndex + mapPagesRequested - 1)
      if m.heapBrk ≤ low then
        if low ≤ high then
          some (low, { m with bitarray := toggleBits b mmapIndex mapPagesRequested })
        else none
      else some (0, { m with bitarray := b })

/-- Take the first free run of pages. The result is the address of its lowest page. -/
def allocMemoryPseudoMmap (m : MemoryManager) (memsize : UInt32) :
    Option (UInt32 × MemoryManager) :=
  (m.bitarray.searchEmptybitSequenceBegin (pagesRequested memsize)).bind
    (m.takePages (pagesRequested memsize))

/-- A fresh manager. The page bitmap is static storage and starts clear; a heap whose end is not
page aligned fails the self check. -/
def memoryInit (heapPtr heapSize brk : UInt32) : Option MemoryManager :=
  let m : MemoryManager :=
    { heapStartPtr := heapPtr, heapBrk := brk, heapSize := heapSize, heapLowestMmapAddr := 0,
      bitarray := ⟨fun _ => 0#8, 0, 0⟩ }
  if m.heapMaxAddr = roundUp m.heapMaxAddr then
    let mmapPagesCount := (m.mmapRegionSizeAligned / pageSize).toNat
    let bitArraySize := mmapPagesCount / 8 + if 0 < mmapPagesCount % 8 then 1 else 0
    some { m with
      heapLowestMmapAddr := m.mmapHighestPageAddr
      bitarray := ⟨fun _ => 0#8, bitArraySize, 0⟩ }
  else none

def memorySysbrk (m : MemoryManager) (addr : UInt32) : Except Errno UInt32 × MemoryManager :=
  if addr < m.heapStartPtr then (.ok m.heapBrk, m)
  else if addr < m.heapLowestMmapAddr then (.ok addr, { m with heapBrk := addr })
  else (.error .enomem, m)

/-- The arguments of `mmap` that the manager looks at. -/
structure MmapRequest where
  length : UInt32
  protRead : Bool
  protWrite : Bool
  mapAnonymous : Bool
  fd : Int

/-- `fstat` yields the size of an open file; `errno` is the value left by earlier calls, which the
file branch reads back when no pages are free. Copying the file contents is not part of the
manager's state. -/
def memoryMmap (fstat : Int → Option UInt32) (errno : Option Errno) (m : MemoryManager)
    (r : MmapRequest) : Option (Except Errno UInt32 × MemoryManager) :=
  let mapped : Option (Option Errno × UInt32 × MemoryManager) :=
    if r.protRead ∧ 0 < r.fd then
      match fstat r.fd with
      | some size =>
          (m.allocMemoryPseudoMmap (if size = 0 then pageSize else size)).map fun (addr, m') =>
            (if addr ≠ 0 then none else errno, addr, m')
      | none => some (some .ebadf, 0, m)
    else if r.protRead ∧ r.protWrite ∧ r.mapAnonymous ∧ 0 < r.length then
      (m.allocMemoryPseudoMmap r.length).map fun (addr, m') =>
        (if addr ≠ 0 then none else some .enomem, addr, m')
    else some (some .enosys, 0, m)
  mapped.map fun (errcode, addr, m') =>
    match errcode with
    | none => (.ok addr, if addr < m'.heapLowestMmapAddr then
        { m' with heapLowestMmapAddr := addr } else m')
    | some e => (.error e, m')

/-- Clear the set bits among consecutive indexes. An index outside the storage is out of bounds. -/
def clearBits (b : BitArray) (index : Nat) : Nat → Option BitArray
  | 0 => some b
  | n + 1 =>
      if index < mapChunksBitArraySize * 8 then
        clearBits (if b.getBit index then b.toggleBit index else b) (index + 1) n
      else none

/-- The range test of `munmap`. -/
def InMmapRange (m : MemoryManager) (addr : UInt32) : Prop :=
  m.mmapLowestPageAddr ≤ addr ∧ addr ≤ m.mmapHighestPageAddr

instance (m : MemoryManager) (addr : UInt32) : Decidable (m.InMmapRange addr) :=
  inferInstanceAs (Decidable (_ ∧ _))

/-- The page index of an address: the difference to the highest page, a signed 32-bit number. -/
def munmapBeginChunkIndex (m : MemoryManager) (addr : UInt32) : Nat :=
  (m.mmapHighestPageAddr - addr).toNat / 65536

/-- An address more than two gigabytes below the highest page yields a negative index, which is
out of bounds unless no page is requested. -/
def memoryMunmap (m : MemoryManager) (addr length : UInt32) : Option MemoryManager :=
  if m.InMmapRange addr then
    if (m.mmapHighestPageAddr - addr).toNat < 2 ^ 31 then
      (clearBits m.bitarray (m.munmapBeginChunkIndex addr) (pagesRequested length)).map fun b =>
        { m with bitarray := b }
    else if pagesRequested length = 0 then some m
    else none
  else some m

end MemoryManager

end Zrt.Memory
