import Mathlib.Data.List.Basic
import Mathlib.Data.List.Pairwise
import Zrt.Framework.Runs
import Zrt.Memory.Manager

/-!
# Live mappings

Runs of `sysbrk`, anonymous `mmap` and `munmap` from a fresh manager, together with the mappings the
caller holds. `mmap` takes pages upwards from an index and answers with the lowest address;
`munmap` recomputes an index from that address and again counts upwards, so it walks down from the
mapping instead of over it.
-/

namespace Zrt.Memory

open Zrt.Framework

structure Mapping where
  addr : UInt32
  length : UInt32
deriving DecidableEq

namespace Mapping

def pageCount (w : Mapping) : Nat := (w.length.toNat + 65535) / 65536

/-- The addresses of the pages the mapping covers. -/
def pages (w : Mapping) : List UInt32 :=
  (List.range w.pageCount).map fun k => w.addr + UInt32.ofNat k * pageSize

/-- As many pages as the mapping has, counted downwards from its address. -/
def pagesDown (w : Mapping) : List UInt32 :=
  (List.range w.pageCount).map fun k => w.addr - UInt32.ofNat k * pageSize

end Mapping

/-- The manager with every mapping returned so far and those not yet unmapped. -/
structure MappingState where
  manager : MemoryManager
  returned : List Mapping
  live : List Mapping

inductive MemoryCall where
  | sysbrk (addr : UInt32)
  | mmap (length : UInt32)
  | munmap (addr length : UInt32)

/-- An anonymous request for readable and writable pages. -/
def anonymousRequest (length : UInt32) : MemoryManager.MmapRequest :=
  ⟨length, true, true, true, -1⟩

namespace MappingState

def start (m : MemoryManager) : MappingState := ⟨m, [], []⟩

def step (s : MappingState) : MemoryCall → Option MappingState
  | .sysbrk addr => some { s with manager := (s.manager.memorySysbrk addr).2 }
  | .mmap length =>
      (s.manager.memoryMmap (fun _ => none) none (anonymousRequest length)).map fun (r, m) =>
        match r with
        | .ok addr => ⟨m, ⟨addr, length⟩ :: s.returned, ⟨addr, length⟩ :: s.live⟩
        | .error _ => { s with manager := m }
  | .munmap addr length =>
      (s.manager.memoryMunmap addr length).map fun m =>
        { s with manager := m, live := s.live.erase ⟨addr, length⟩ }

/-- `munmap` is applied to what an earlier `mmap` returned and was given. -/
def Legal (s : MappingState) : MemoryCall → Prop
  | .munmap addr length => ⟨addr, length⟩ ∈ s.returned
  | _ => True

/-- No other live mapping has a page among those from the unmapped address downwards. -/
def SparesLive (s : MappingState) : MemoryCall → Prop
  | .munmap addr length => s.manager.InMmapRange addr →
      ∀ w ∈ s.live.erase ⟨addr, length⟩, List.Disjoint (Mapping.pagesDown ⟨addr, length⟩) w.pages
  | _ => True

def LiveDisjoint (s : MappingState) : Prop :=
  s.live.Pairwise fun v w => List.Disjoint v.pages w.pages

def LiveMarked (s : MappingState) : Prop :=
  ∀ w ∈ s.live, ∀ p ∈ w.pages,
    s.manager.bitarray.getBit (s.manager.munmapBeginChunkIndex p) = true

end MappingState

namespace MemoryManager

theorem memoryPageFromIndex_toNat (m : MemoryManager) (i : Nat) (hi : i < 65536) :
    (m.memoryPageFromIndex i).toNat =
      (m.mmapHighestPageAddr.toNat + (4294967296 - i * 65536)) % 4294967296 := by
  have hmul : (UInt32.ofNat i * pageSize).toNat = i * 65536 := by
    rw [UInt32.toNat_mul, UInt32.toNat_ofNat']
    show (i % 4294967296 * 65536) % 4294967296 = _
    omega
  rw [memoryPageFromIndex, UInt32.toNat_sub, hmul]
  omega

/-- The index that `munmap` computes inverts the address that `mmap` computes. -/
theorem munmapBeginChunkIndex_page (m : MemoryManager) (i : Nat) (hi : i < 65536) :
    m.munmapBeginChunkIndex (m.memoryPageFromIndex i) = i := by
  have hlt := m.mmapHighestPageAddr.toNat_lt
  rw [munmapBeginChunkIndex, UInt32.toNat_sub, memoryPageFromIndex_toNat m i hi]
  omega

private theorem memoryPageFromIndex_inj (m : MemoryManager) (i j : Nat) (hi : i < 65536)
    (hj : j < 65536) (h : m.memoryPageFromIndex i = m.memoryPageFromIndex j) : i = j := by
  rw [← munmapBeginChunkIndex_page m i hi, h, munmapBeginChunkIndex_page m j hj]

theorem memoryPageFromIndex_sub (m : MemoryManager) (i k : Nat) :
    m.memoryPageFromIndex i - UInt32.ofNat k * pageSize = m.memoryPageFromIndex (i + k) := by
  rw [memoryPageFromIndex, memoryPageFromIndex, UInt32.ofNat_add, UInt32.add_mul]
  grind

private theorem memoryPageFromIndex_add (m : MemoryManager) (i k : Nat) :
    m.memoryPageFromIndex (i + k) + UInt32.ofNat k * pageSize = m.memoryPageFromIndex i := by
  rw [← memoryPageFromIndex_sub, UInt32.sub_add_cancel]

/-- The page count of a length, which overflows for the lengths above the last page. -/
theorem pagesRequested_eq_ite (length : UInt32) :
    pagesRequested length =
      if length.toNat ≤ 4294901760 then (length.toNat + 65535) / 65536 else 0 := by
  have hlt := length.toNat_lt
  rw [pagesRequested, UInt32.toNat_div, toNat_roundUp, toNat_pageSize]
  split <;> omega

theorem pagesRequested_eq (length : UInt32) (h : 0 < pagesRequested length) :
    pagesRequested length = (length.toNat + 65535) / 65536 := by
  rw [pagesRequested_eq_ite] at h ⊢
  split at h
  · rename_i hle
    rw [if_pos hle]
  · omega

/-- The heap bounds and the size of the bitmap never change. -/
structure SameHeap (m m' : MemoryManager) : Prop where
  heapStartPtr : m'.heapStartPtr = m.heapStartPtr
  heapSize : m'.heapSize = m.heapSize
  arraySize : m'.bitarray.arraySize = m.bitarray.arraySize

private theorem SameHeap.mmapHighestPageAddr {m m' : MemoryManager} (h : SameHeap m m') :
    m'.mmapHighestPageAddr = m.mmapHighestPageAddr := by
  simp only [MemoryManager.mmapHighestPageAddr, heapMaxAddr, h.heapStartPtr, h.heapSize]

private theorem SameHeap.memoryPageFromIndex {m m' : MemoryManager} (h : SameHeap m m') (i : Nat) :
    m'.memoryPageFromIndex i = m.memoryPageFromIndex i := by
  simp only [MemoryManager.memoryPageFromIndex, h.mmapHighestPageAddr]

theorem toggleBits_arraySize (b : BitArray) (index n : Nat) :
    (toggleBits b index n).arraySize = b.arraySize := by
  induction n generalizing b index with
  | zero => rfl
  | succ n ih => rw [toggleBits, ih, BitArray.toggleBit_arraySize]

theorem toggleBits_getBit (b : BitArray) (index n k : Nat) :
    (toggleBits b index n).getBit k =
      if index ≤ k ∧ k < index + n then !b.getBit k else b.getBit k := by
  induction n generalizing b index with
  | zero => simp [toggleBits]
  | succ n ih =>
      rw [toggleBits, ih, BitArray.toggleBit_getBit]
      rcases Nat.lt_trichotomy k index with hlt | heq | hgt
      · simp only [show ¬ index + 1 ≤ k by omega, show ¬ index ≤ k by omega, false_and, if_false,
          Nat.ne_of_lt hlt]
      · simp [heq]
      · have hiff : (index + 1 ≤ k ∧ k < index + 1 + n) ↔ (index ≤ k ∧ k < index + (n + 1)) := by
          omega
        simp only [hiff, Nat.ne_of_gt hgt, if_false]

private theorem clearBits_spec (b b' : BitArray) (index n : Nat) (h : clearBits b index n = some b') :
    b'.arraySize = b.arraySize ∧ (∀ k, index ≤ k → k < index + n → k < 65536) ∧
      ∀ k, b'.getBit k = (b.getBit k && !decide (index ≤ k ∧ k < index + n)) := by
  induction n generalizing b index with
  | zero =>
      simp only [clearBits, Option.some.injEq] at h
      subst b'
      refine ⟨rfl, fun k hk hk' => by omega, fun k => ?_⟩
      rw [decide_eq_false (by omega), Bool.not_false, Bool.and_true]
  | succ n ih =>
      rw [clearBits] at h
      split at h
      · rename_i hin
        obtain ⟨hsize, hbound, hbits⟩ := ih _ _ h
        have hcleared : ∀ k, (if b.getBit index then b.toggleBit index else b).getBit k =
            (b.getBit k && !decide (k = index)) := by
          intro k
          by_cases hset : b.getBit index = true
          · rw [if_pos hset, BitArray.toggleBit_getBit]
            by_cases hk : k = index
            · simp [hk, hset]
            · simp [hk]
          · rw [if_neg hset]
            by_cases hk : k = index
            · simp [hk, hset]
            · simp [hk]
        refine ⟨?_, fun k hk hk' => ?_, fun k => ?_⟩
        · rw [hsize]
          split
          · exact BitArray.toggleBit_arraySize b index
          · rfl
        · rcases Nat.lt_or_eq_of_le hk with hlt | heq
          · exact hbound k hlt (by omega)
          · exact heq ▸ hin
        · rw [hbits k, hcleared k, Bool.and_assoc, ← Bool.not_or, ← Bool.decide_or]
          have hiff : (k = index ∨ index + 1 ≤ k ∧ k < index + 1 + n) ↔
              (index ≤ k ∧ k < index + (n + 1)) := by omega
          rw [decide_eq_decide.mpr hiff]
      · cases h

/-- What an allocation can do: fail and leave everything but the cached search position, or take
the first free run, which then lies above the break. -/
theorem allocMemoryPseudoMmap_cases (m m' : MemoryManager) (memsize addr : UInt32)
    (h : m.allocMemoryPseudoMmap memsize = some (addr, m')) :
    ∃ b : BitArray, b.array = m.bitarray.array ∧ b.arraySize = m.bitarray.arraySize ∧
      ((addr = 0 ∧ m' = { m with bitarray := b }) ∨
        ∃ index, 0 < pagesRequested memsize ∧
          index + pagesRequested memsize ≤ m.bitarray.arraySize * 8 ∧
          FreeRun m.bitarray.getBit index (pagesRequested memsize) ∧
          (∀ k, k < index → ¬ FreeRun m.bitarray.getBit k (pagesRequested memsize)) ∧
          addr = m.memoryPageFromIndex (index + pagesRequested memsize - 1) ∧
          m.heapBrk ≤ addr ∧ addr ≤ m.memoryPageFromIndex index ∧
          m' = { m with bitarray := toggleBits b index (pagesRequested memsize) }) := by
  rw [allocMemoryPseudoMmap, Option.bind_eq_some_iff] at h
  obtain ⟨⟨found, b⟩, hs, h⟩ := h
  obtain ⟨hpos, harr, hsize, hfound⟩ := BitArray.searchEmptybitSequenceBegin_spec _ _ _ _ hs
  refine ⟨b, harr, hsize, ?_⟩
  cases found with
  | none =>
      simp only [takePages, Option.some.injEq, Prod.mk.injEq] at h
      exact Or.inl ⟨h.1.symm, h.2.symm⟩
  | some index =>
      simp only [takePages] at h
      obtain ⟨hfree, hbound, hleast⟩ := hfound
      split at h
      · rename_i hbrk
        split at h
        · rename_i hle
          simp only [Option.some.injEq, Prod.mk.injEq] at h
          obtain ⟨rfl, rfl⟩ := h
          exact Or.inr ⟨index, hpos, hbound, hfree, hleast, rfl, hbrk, hle, rfl⟩
        · cases h
      · simp only [Option.some.injEq, Prod.mk.injEq] at h
        exact Or.inl ⟨h.1.symm, h.2.symm⟩

private theorem allocMemoryPseudoMmap_spec (m m' : MemoryManager) (memsize addr : UInt32)
    (h : m.allocMemoryPseudoMmap memsize = some (addr, m')) :
    SameHeap m m' ∧ (∀ k, m.bitarray.getBit k = true → m'.bitarray.getBit k = true) ∧
      (addr ≠ 0 → ∃ index, 0 < pagesRequested memsize ∧
        index + pagesRequested memsize ≤ m.bitarray.arraySize * 8 ∧
        FreeRun m.bitarray.getBit index (pagesRequested memsize) ∧
        addr = m.memoryPageFromIndex (index + pagesRequested memsize - 1) ∧
        ∀ k, index ≤ k → k < index + pagesRequested memsize →
          m'.bitarray.getBit k = true) := by
  obtain ⟨b, harr, hsize, hcases⟩ := allocMemoryPseudoMmap_cases m m' memsize addr h
  have hbit : ∀ k, b.getBit k = m.bitarray.getBit k := by
    intro k
    rw [BitArray.getBit, BitArray.getBit, harr]
  rcases hcases with ⟨rfl, rfl⟩ | ⟨index, hpos, hbound, hfree, -, rfl, -, -, rfl⟩
  · exact ⟨⟨rfl, rfl, hsize⟩, fun k hk => by rw [hbit]; exact hk, fun hne => absurd rfl hne⟩
  · refine ⟨⟨rfl, rfl, by rw [toggleBits_arraySize, hsize]⟩, ?_, fun _ =>
      ⟨index, hpos, hbound, hfree, rfl, ?_⟩⟩
    · intro k hk
      have hout : ¬ (index ≤ k ∧ k < index + pagesRequested memsize) := by
        intro hin
        rw [hfree k hin.1 hin.2] at hk
        exact Bool.false_ne_true hk
      show (toggleBits b index (pagesRequested memsize)).getBit k = true
      rw [toggleBits_getBit, if_neg hout, hbit]
      exact hk
    · intro k hk hk'
      show (toggleBits b index (pagesRequested memsize)).getBit k = true
      rw [toggleBits_getBit, if_pos ⟨hk, hk'⟩, hbit, hfree k hk hk']
      rfl

/-- What `sysbrk` can do: leave everything, or move the break within the heap below every mapping. -/
theorem memorySysbrk_cases (m : MemoryManager) (addr : UInt32) :
    (m.memorySysbrk addr).2 = m ∨
      m.heapStartPtr ≤ addr ∧ addr < m.heapLowestMmapAddr ∧
        (m.memorySysbrk addr).2 = { m with heapBrk := addr } := by
  rw [memorySysbrk]
  split
  · exact .inl rfl
  · rename_i hstart
    split
    · rename_i hlow
      exact .inr ⟨UInt32.not_lt.mp hstart, hlow, rfl⟩
    · exact .inl rfl

private theorem memorySysbrk_sameHeap (m : MemoryManager) (addr : UInt32) :
    SameHeap m (m.memorySysbrk addr).2 ∧ (m.memorySysbrk addr).2.bitarray = m.bitarray := by
  rcases m.memorySysbrk_cases addr with hm | ⟨-, -, hm⟩
  · rw [hm]
    exact ⟨⟨rfl, rfl, rfl⟩, rfl⟩
  · rw [hm]
    exact ⟨⟨rfl, rfl, rfl⟩, rfl⟩

/-- What `munmap` can do: leave everything, as its address is out of range or no page is requested,
or clear the bits from the index of its address on. -/
theorem memoryMunmap_cases {m m' : MemoryManager} {addr length : UInt32}
    (h : m.memoryMunmap addr length = some m') :
    (m' = m ∧ (m.InMmapRange addr → pagesRequested length = 0)) ∨
      m.InMmapRange addr ∧ (m.mmapHighestPageAddr - addr).toNat < 2 ^ 31 ∧
        ∃ b : BitArray, m' = { m with bitarray := b } ∧
          b.arraySize = m.bitarray.arraySize ∧
          (∀ k, m.munmapBeginChunkIndex addr ≤ k →
            k < m.munmapBeginChunkIndex addr + pagesRequested length → k < 65536) ∧
          ∀ k, b.getBit k = (m.bitarray.getBit k &&
            !decide (m.munmapBeginChunkIndex addr ≤ k ∧
              k < m.munmapBeginChunkIndex addr + pagesRequested length)) := by
  rw [memoryMunmap] at h
  split at h
  · rename_i hrange
    split at h
    · rename_i hdiff
      obtain ⟨b, hb, rfl⟩ := Option.map_eq_some_iff.mp h
      exact .inr ⟨hrange, hdiff, b, rfl, clearBits_spec _ _ _ _ hb⟩
    · split at h
      · rename_i hzero
        cases h
        exact .inl ⟨rfl, fun _ => hzero⟩
      · cases h
  · rename_i hout
    cases h
    exact .inl ⟨rfl, fun hrange => absurd hrange hout⟩

theorem memoryInit_arraySize (heapPtr heapSize brk : UInt32) (m : MemoryManager)
    (h : memoryInit heapPtr heapSize brk = some m) :
    m.bitarray.arraySize ≤ mapChunksBitArraySize := by
  simp only [memoryInit] at h
  split at h
  · simp only [Option.some.injEq] at h
    subst m
    have hcount : ∀ x : UInt32, (x / pageSize).toNat < 65536 := by
      intro x
      have hx := x.toNat_lt
      rw [UInt32.toNat_div]
      show x.toNat / 65536 < 65536
      omega
    have hlt := hcount (mmapRegionSizeAligned ⟨heapPtr, brk, heapSize, 0, ⟨fun _ => 0#8, 0, 0⟩⟩)
    show _ / 8 + _ ≤ 8192
    split <;> omega
  · cases h

end MemoryManager

/-- The mapping starts at the lowest of `pageCount` pages from an index on. -/
structure Located (m : MemoryManager) (w : Mapping) (index : Nat) : Prop where
  addr : w.addr = m.memoryPageFromIndex (index + w.pageCount - 1)
  pos : 0 < w.pageCount
  bound : index + w.pageCount ≤ 65536

theorem Located.sameHeap {m m' : MemoryManager} {w : Mapping} {index : Nat}
    (h : Located m w index) (hm : MemoryManager.SameHeap m m') : Located m' w index :=
  ⟨by rw [hm.memoryPageFromIndex]; exact h.addr, h.pos, h.bound⟩

theorem Located.mem_pages {m : MemoryManager} {w : Mapping} {index : Nat}
    (h : Located m w index) (p : UInt32) :
    p ∈ w.pages ↔ ∃ k, index ≤ k ∧ k < index + w.pageCount ∧ p = m.memoryPageFromIndex k := by
  have hpage : ∀ k, k < w.pageCount →
      w.addr + UInt32.ofNat k * pageSize =
        m.memoryPageFromIndex (index + (w.pageCount - 1 - k)) := by
    intro k hk
    have hsplit : index + w.pageCount - 1 = index + (w.pageCount - 1 - k) + k := by omega
    rw [h.addr, hsplit, MemoryManager.memoryPageFromIndex_add]
  simp only [Mapping.pages, List.mem_map, List.mem_range]
  constructor
  · rintro ⟨k, hk, rfl⟩
    exact ⟨index + (w.pageCount - 1 - k), by omega, by omega, hpage k hk⟩
  · rintro ⟨k, hk, hk', rfl⟩
    refine ⟨w.pageCount - 1 - (k - index), by omega, ?_⟩
    rw [hpage _ (by omega)]
    congr 1
    omega

namespace MappingState

/-- Every returned mapping sits on page indexes, the live ones on marked and separate ones. -/
structure Inv (s : MappingState) : Prop where
  arraySize : s.manager.bitarray.arraySize ≤ mapChunksBitArraySize
  returned : ∀ w ∈ s.returned, ∃ index, Located s.manager w index
  live : ∀ w ∈ s.live, ∃ index, Located s.manager w index ∧
    ∀ k, index ≤ k → k < index + w.pageCount → s.manager.bitarray.getBit k = true
  disjoint : s.LiveDisjoint

private theorem Inv.liveMarked {s : MappingState} (h : s.Inv) : s.LiveMarked := by
  intro w hw p hp
  obtain ⟨index, hloc, hbits⟩ := h.live w hw
  obtain ⟨k, hk, hk', rfl⟩ := (hloc.mem_pages p).mp hp
  have hbound := hloc.bound
  rw [MemoryManager.munmapBeginChunkIndex_page _ _ (by omega)]
  exact hbits k hk hk'

private theorem inv_start (heapPtr heapSize brk : UInt32) (m : MemoryManager)
    (h : MemoryManager.memoryInit heapPtr heapSize brk = some m) : (start m).Inv where
  arraySize := MemoryManager.memoryInit_arraySize heapPtr heapSize brk m h
  returned := by simp [start]
  live := by simp [start]
  disjoint := List.Pairwise.nil

theorem Inv.of_growing {s : MappingState} {m : MemoryManager} (h : s.Inv)
    (hm : MemoryManager.SameHeap s.manager m)
    (hbits : ∀ k, s.manager.bitarray.getBit k = true → m.bitarray.getBit k = true) :
    Inv { s with manager := m } where
  arraySize := by
    have := h.arraySize
    simpa only [hm.arraySize] using this
  returned := fun w hw => (h.returned w hw).imp fun _ hloc => hloc.sameHeap hm
  live := fun w hw => (h.live w hw).imp fun _ hloc =>
    ⟨hloc.1.sameHeap hm, fun k hk hk' => hbits k (hloc.2 k hk hk')⟩
  disjoint := h.disjoint

private theorem Inv.of_mapped {s : MappingState} {m : MemoryManager} {w : Mapping} {index : Nat}
    (h : s.Inv) (hm : MemoryManager.SameHeap s.manager m)
    (hbits : ∀ k, s.manager.bitarray.getBit k = true → m.bitarray.getBit k = true)
    (hloc : Located s.manager w index)
    (hfree : FreeRun s.manager.bitarray.getBit index w.pageCount)
    (hset : ∀ k, index ≤ k → k < index + w.pageCount → m.bitarray.getBit k = true) :
    Inv ⟨m, w :: s.returned, w :: s.live⟩ := by
  have hold := h.of_growing hm hbits
  refine ⟨hold.arraySize, ?_, ?_, ?_⟩
  · intro v hv
    rcases List.mem_cons.mp hv with rfl | hv
    · exact ⟨index, hloc.sameHeap hm⟩
    · exact hold.returned v hv
  · intro v hv
    rcases List.mem_cons.mp hv with rfl | hv
    · exact ⟨index, hloc.sameHeap hm, hset⟩
    · exact hold.live v hv
  · refine List.Pairwise.cons (fun v hv p hpw hpv => ?_) h.disjoint
    obtain ⟨j, hlocv, hused⟩ := h.live v hv
    obtain ⟨k, hk, hk', rfl⟩ := (hloc.mem_pages p).mp hpw
    obtain ⟨k₂, hk₂, hk₂', heq⟩ := (hlocv.mem_pages _).mp hpv
    have hboundw := hloc.bound
    have hboundv := hlocv.bound
    have hsame := s.manager.memoryPageFromIndex_inj k k₂ (by omega) (by omega) heq
    have hbit := hused k₂ hk₂ hk₂'
    rw [← hsame, hfree k hk hk'] at hbit
    exact Bool.false_ne_true hbit

theorem memoryMmap_anonymous (m : MemoryManager) (length : UInt32) :
    m.memoryMmap (fun _ => none) none (anonymousRequest length) =
      if 0 < length then (m.allocMemoryPseudoMmap length).map fun (addr, m') =>
        if addr ≠ 0 then (.ok addr, if addr < m'.heapLowestMmapAddr then
          { m' with heapLowestMmapAddr := addr } else m')
        else (.error .enomem, m')
      else some (.error .enosys, m) := by
  by_cases hlen : 0 < length
  · simp only [MemoryManager.memoryMmap, anonymousRequest, hlen]
    cases m.allocMemoryPseudoMmap length with
    | none => simp
    | some r =>
        by_cases haddr : r.1 = 0 <;> simp [haddr]
  · simp [MemoryManager.memoryMmap, anonymousRequest, hlen]

/-- What `mmap` can do: refuse the request, find no room, or map pages and lower the lowest mapped
address to them. -/
theorem step_mmap_cases {s t : MappingState} {length : UInt32}
    (hstep : s.step (.mmap length) = some t) :
    t = s ∨ ∃ addr m, s.manager.allocMemoryPseudoMmap length = some (addr, m) ∧
      ((addr = 0 ∧ t = { s with manager := m }) ∨
        (addr ≠ 0 ∧ ∃ m', m' = (if addr < m.heapLowestMmapAddr then
            { m with heapLowestMmapAddr := addr } else m) ∧
          t = ⟨m', ⟨addr, length⟩ :: s.returned, ⟨addr, length⟩ :: s.live⟩)) := by
  simp only [step, memoryMmap_anonymous] at hstep
  split at hstep
  · cases halloc : s.manager.allocMemoryPseudoMmap length with
    | none => simp [halloc] at hstep
    | some r =>
        obtain ⟨addr, m⟩ := r
        refine .inr ⟨addr, m, rfl, ?_⟩
        by_cases haddr : addr = 0
        · simp only [halloc, Option.map_some, haddr, ne_eq, not_true_eq_false, if_false,
            Option.some.injEq] at hstep
          exact .inl ⟨haddr, hstep.symm⟩
        · simp only [halloc, Option.map_some, ne_eq, haddr, not_false_eq_true, if_true,
            Option.some.injEq] at hstep
          exact .inr ⟨haddr, _, rfl, hstep.symm⟩
  · simp only [Option.map_some, Option.some.injEq] at hstep
    exact .inl hstep.symm

private theorem Inv.step_mmap {s t : MappingState} {length : UInt32} (h : s.Inv)
    (hstep : s.step (.mmap length) = some t) : t.Inv := by
  rcases step_mmap_cases hstep with rfl | ⟨addr, m, halloc, ⟨-, rfl⟩ | ⟨haddr, m', hm', rfl⟩⟩
  · exact h
  · obtain ⟨hheap, hbits, -⟩ := MemoryManager.allocMemoryPseudoMmap_spec _ _ _ _ halloc
    exact h.of_growing hheap hbits
  · obtain ⟨hheap, hbits, hmapped⟩ := MemoryManager.allocMemoryPseudoMmap_spec _ _ _ _ halloc
    obtain ⟨index, hpos, hbound, hfree, hbase, hset⟩ := hmapped haddr
    have hcount := MemoryManager.pagesRequested_eq length hpos
    have hsize : s.manager.bitarray.arraySize ≤ 8192 := h.arraySize
    rw [hcount] at hpos hbound hfree hbase hset
    have hloc : Located s.manager ⟨addr, length⟩ index :=
      ⟨hbase, hpos, by simp only [Mapping.pageCount]; omega⟩
    subst hm'
    split
    · exact h.of_mapped ⟨hheap.heapStartPtr, hheap.heapSize, hheap.arraySize⟩ hbits hloc
        hfree hset
    · exact h.of_mapped hheap hbits hloc hfree hset

private theorem munmap_index_pagesDown {m : MemoryManager} {w : Mapping} {index k : Nat}
    (hloc : Located m w index) (hk : m.munmapBeginChunkIndex w.addr ≤ k)
    (hk' : k < m.munmapBeginChunkIndex w.addr + pagesRequested w.length) :
    m.memoryPageFromIndex k ∈ w.pagesDown := by
  have hpos := hloc.pos
  have hbound := hloc.bound
  have hbegin : m.munmapBeginChunkIndex w.addr = index + w.pageCount - 1 := by
    rw [hloc.addr, MemoryManager.munmapBeginChunkIndex_page _ _ (by omega)]
  have hcount : pagesRequested w.length = w.pageCount :=
    MemoryManager.pagesRequested_eq w.length (by omega)
  rw [hbegin] at hk hk'
  rw [hcount] at hk'
  simp only [Mapping.pagesDown, List.mem_map, List.mem_range]
  refine ⟨k - (index + w.pageCount - 1), by omega, ?_⟩
  rw [hloc.addr, MemoryManager.memoryPageFromIndex_sub]
  congr 1
  omega

private theorem Inv.step_munmap {s t : MappingState} {addr length : UInt32} (h : s.Inv)
    (hlegal : s.Legal (.munmap addr length)) (hspare : s.SparesLive (.munmap addr length))
    (hstep : s.step (.munmap addr length) = some t) : t.Inv := by
  obtain ⟨index, hloc⟩ := h.returned _ hlegal
  have herase : Inv { s with live := s.live.erase ⟨addr, length⟩ } :=
    ⟨h.arraySize, h.returned, fun w hw => h.live w (List.mem_of_mem_erase hw),
      h.disjoint.sublist List.erase_sublist⟩
  rw [step, Option.map_eq_some_iff] at hstep
  obtain ⟨m, hm, rfl⟩ := hstep
  rcases MemoryManager.memoryMunmap_cases hm with
    ⟨rfl, -⟩ | ⟨hrange, -, b, rfl, hsize, -, hbits⟩
  · exact herase
  · have hheap : MemoryManager.SameHeap s.manager { s.manager with bitarray := b } :=
      ⟨rfl, rfl, hsize⟩
    refine ⟨by simpa only [hsize] using h.arraySize,
      fun w hw => (h.returned w hw).imp fun _ hw' => hw'.sameHeap hheap, ?_,
      herase.disjoint⟩
    intro w hw
    obtain ⟨j, hlocw, hused⟩ := herase.live w hw
    refine ⟨j, hlocw.sameHeap hheap, fun k hk hk' => ?_⟩
    have hout : ¬ (s.manager.munmapBeginChunkIndex addr ≤ k ∧
        k < s.manager.munmapBeginChunkIndex addr + pagesRequested length) :=
      fun hin => hspare hrange w hw (munmap_index_pagesDown hloc hin.1 hin.2)
        ((hlocw.mem_pages _).mpr ⟨k, hk, hk', rfl⟩)
    show b.getBit k = true
    rw [hbits k, hused k hk hk', decide_eq_false hout]
    rfl

private theorem Inv.step {s t : MappingState} {c : MemoryCall} (h : s.Inv)
    (hguard : s.Legal c ∧ s.SparesLive c) (hstep : s.step c = some t) : t.Inv := by
  cases c with
  | sysbrk addr =>
      simp only [MappingState.step, Option.some.injEq] at hstep
      subst t
      obtain ⟨hheap, hbits⟩ := s.manager.memorySysbrk_sameHeap addr
      exact h.of_growing hheap fun k hk => by rw [hbits]; exact hk
  | mmap length => exact h.step_mmap hstep
  | munmap addr length => exact h.step_munmap hguard.1 hguard.2 hstep

/-- In every run in which `munmap` spares the other live mappings, the live mappings are disjoint
and their pages are marked. -/
theorem liveMappings_disjoint_marked (heapPtr heapSize brk : UInt32) (m : MemoryManager)
    (hinit : MemoryManager.memoryInit heapPtr heapSize brk = some m)
    (calls : List MemoryCall) (s : MappingState)
    (hguard : Guarded step (fun s c => s.Legal c ∧ s.SparesLive c) (start m) calls)
    (hrun : runFrom step (start m) calls = some s) :
    s.LiveDisjoint ∧ s.LiveMarked := by
  have hinv : s.Inv := runFrom_invariant (fun _ _ _ h hg hs => h.step hg hs) calls _ _
    (inv_start heapPtr heapSize brk m hinit) hguard hrun
  exact ⟨hinv.disjoint, hinv.liveMarked⟩

instance (s : MappingState) (c : MemoryCall) : Decidable (s.Legal c) :=
  match c with
  | .sysbrk _ => isTrue trivial
  | .mmap _ => isTrue trivial
  | .munmap addr length => inferInstanceAs (Decidable (⟨addr, length⟩ ∈ s.returned))

/-- Checked page by page: an address type is too large to enumerate. -/
instance (v w : Mapping) : Decidable (List.Disjoint v.pages w.pages) :=
  List.decidableBAll (fun p => p ∉ w.pages) v.pages

instance (v w : Mapping) : Decidable (List.Disjoint v.pagesDown w.pages) :=
  List.decidableBAll (fun p => p ∉ w.pages) v.pagesDown

instance (s : MappingState) (c : MemoryCall) : Decidable (s.SparesLive c) :=
  match c with
  | .sysbrk _ => isTrue trivial
  | .mmap _ => isTrue trivial
  | .munmap addr length => inferInstanceAs (Decidable (s.manager.InMmapRange addr →
      ∀ w ∈ s.live.erase ⟨addr, length⟩, List.Disjoint (Mapping.pagesDown ⟨addr, length⟩) w.pages))

instance (s : MappingState) : Decidable s.LiveDisjoint :=
  inferInstanceAs (Decidable (s.live.Pairwise fun v w => List.Disjoint v.pages w.pages))

instance (s : MappingState) : Decidable s.LiveMarked :=
  have (w : Mapping) : Decidable (∀ p ∈ w.pages,
      s.manager.bitarray.getBit (s.manager.munmapBeginChunkIndex p) = true) :=
    List.decidableBAll _ w.pages
  inferInstanceAs (Decidable (∀ w ∈ s.live, ∀ p ∈ w.pages,
    s.manager.bitarray.getBit (s.manager.munmapBeginChunkIndex p) = true))

/-- A heap of four pages, nothing of it used by `brk`. -/
def fourPages : MemoryManager where
  heapStartPtr := 0x10000
  heapBrk := 0x10000
  heapSize := 0x40000
  heapLowestMmapAddr := 0x40000
  bitarray := ⟨fun _ => 0#8, 1, 0⟩

/-- Mappings of one and of two pages, the second one unmapped above a free page. -/
theorem liveMappings_disjoint_marked_fourPages :
    RunEnds step (start fourPages) [.mmap 0x10000, .mmap 0x20000, .munmap 0x20000 0x20000]
      fun s => s.LiveDisjoint ∧ s.LiveMarked := by
  have hrun : RunEnds step (start fourPages)
      [.mmap 0x10000, .mmap 0x20000, .munmap 0x20000 0x20000] fun _ => True := by decide
  obtain ⟨s, hs, -⟩ := hrun
  exact ⟨s, hs, liveMappings_disjoint_marked 0x10000 0x40000 0x10000 fourPages rfl _ s
    (by decide) hs⟩

/-- Unmapping the upper of two neighbours releases the page of the lower one, which the next
request is then given again. -/
theorem munmap_releases_neighbour :
    MemoryManager.memoryInit 0x10000 0x40000 0x10000 = some fourPages ∧
      Guarded step Legal (start fourPages)
        [.mmap 0x20000, .mmap 0x10000, .munmap 0x30000 0x20000, .mmap 0x20000] ∧
      RunEnds step (start fourPages)
        [.mmap 0x20000, .mmap 0x10000, .munmap 0x30000 0x20000, .mmap 0x20000]
        fun s => ¬ (s.LiveDisjoint ∧ s.LiveMarked) :=
  ⟨rfl, by decide, by decide⟩

end MappingState

end Zrt.Memory
