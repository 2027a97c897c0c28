import Mathlib.Data.List.Basic
import Mathlib.Logic.Function.Basic
import Zrt.Memory.Allocation

/-!
# File mappings

A file is mapped by copying it: `mmap` takes pages for the size that `fstat` reports and reads the
contents from the offset on to the same offset in these pages. A failed allocation sets no `errno`,
and yet `errno` then serves as the error code.
-/

namespace Zrt.Memory

open Zrt.Framework

/-- An open regular file below two gigabytes, and the position of its descriptor. -/
structure OpenFile where
  contents : List UInt8
  position : Nat
  size_lt : contents.length < 2147483648

/-- Memory with some bytes at an address. -/
def storeBytes (memory : UInt32 → UInt8) (addr : UInt32) (bytes : List UInt8) : UInt32 → UInt8 :=
  fun p => (bytes[(p - addr).toNat]?).getD (memory p)

namespace OpenFile

/-- The size that `fstat` reports, as an argument of the allocator. -/
def size (f : OpenFile) : UInt32 := UInt32.ofNat f.contents.length

/-- An empty file takes a page as well. -/
def wantedMemBlockSize (f : OpenFile) : UInt32 := if f.size = 0 then pageSize else f.size

/-- `lseek` with `SEEK_SET`, which refuses an offset before the start. -/
def lseekSet (f : OpenFile) (offset : Int) : Option OpenFile :=
  if 0 ≤ offset then some { f with position := offset.toNat } else none

/-- A full `read`: as many bytes as asked for, or all up to the end of the file. -/
def read (f : OpenFile) (count : Int) : List UInt8 × OpenFile :=
  let bytes := (f.contents.drop f.position).take count.toNat
  (bytes, { f with position := f.position + bytes.length })

/-- Read the contents from an offset on into the memory at the same offset past an address. The byte
count is a signed 32-bit number; `none` is a failed assertion. -/
def copyContents (f : OpenFile) (memory : UInt32 → UInt8) (addr : UInt32) (offset : Int) :
    Option (OpenFile × (UInt32 → UInt8)) :=
  (if (f.position : Int) = offset then some f else f.lseekSet offset).bind fun f =>
    let mmapDataLen := ((f.contents.length : Int) - offset).bmod 4294967296
    let copied := f.read mmapDataLen
    if (copied.1.length : Int) = mmapDataLen then
      some (copied.2, storeBytes memory (addr + UInt32.ofInt offset) copied.1)
    else none

end OpenFile

/-- The manager, the memory it hands out and the open files. -/
structure UserSpace where
  manager : MemoryManager
  memory : UInt32 → UInt8
  files : Int → Option OpenFile

namespace UserSpace

def mmapResult : Option Errno × UInt32 × UserSpace → Except Errno UInt32 × UserSpace
  | (none, addr, u) => (.ok addr, { u with manager := u.manager.lowered addr })
  | (some e, _, u) => (.error e, u)

/-- `mmap` with the contents it copies. `fstatErrno` is what a successful `fstat` makes of `errno`:
the standard leaves that open, and the one of zrt clears it. -/
def memoryMmap (fstatErrno : Option Errno → Option Errno) (errno : Option Errno) (u : UserSpace)
    (r : MemoryManager.MmapRequest) (offset : Int) : Option (Except Errno UInt32 × UserSpace) :=
  let mapped : Option (Option Errno × UInt32 × UserSpace) :=
    if r.protRead ∧ 0 < r.fd then
      match u.files r.fd with
      | some f =>
          (u.manager.allocMemoryPseudoMmap f.wantedMemBlockSize).bind fun (addr, m') =>
            if addr ≠ 0 then
              (f.copyContents u.memory addr offset).map fun (f', memory') =>
                (none, addr, ⟨m', memory', Function.update u.files r.fd (some f')⟩)
            else some (fstatErrno errno, addr, { u with manager := m' })
      | none => some (some .ebadf, 0, u)
    else if r.protRead ∧ r.protWrite ∧ r.mapAnonymous ∧ 0 < r.length then
      (u.manager.allocMemoryPseudoMmap r.length).map fun (addr, m') =>
        (if addr ≠ 0 then none else some .enomem, addr, { u with manager := m' })
    else some (some .enosys, 0, u)
  mapped.map mmapResult

end UserSpace

/-! ## Copying -/

private theorem storeBytes_inside (memory : UInt32 → UInt8) {addr p : UInt32} {bytes : List UInt8} {i : Nat}
    (hi : i < bytes.length) (hp : p.toNat = addr.toNat + i) :
    storeBytes memory addr bytes p = bytes[i] := by
  have hlt := p.toNat_lt
  have hdiff : (p - addr).toNat = i := by
    rw [UInt32.toNat_sub]
    omega
  rw [storeBytes, hdiff, List.getElem?_eq_getElem hi, Option.getD_some]

private theorem storeBytes_outside (memory : UInt32 → UInt8) {addr p : UInt32} {bytes : List UInt8}
    (hfits : addr.toNat + bytes.length ≤ 4294967296)
    (hp : ∀ i, i < bytes.length → p.toNat ≠ addr.toNat + i) :
    storeBytes memory addr bytes p = memory p := by
  have hlt := p.toNat_lt
  have haddr := addr.toNat_lt
  have hdiff : bytes.length ≤ (p - addr).toNat := by
    rw [UInt32.toNat_sub]
    by_contra hin
    rcases Nat.lt_or_ge p.toNat addr.toNat with hbelow | habove
    · omega
    · exact hp (p.toNat - addr.toNat) (by omega) (by omega)
  rw [storeBytes, List.getElem?_eq_none hdiff, Option.getD_none]

namespace OpenFile

private theorem toNat_size (f : OpenFile) : f.size.toNat = f.contents.length := by
  have hlt := f.size_lt
  rw [size, UInt32.toNat_ofNat']
  omega

theorem wantedMemBlockSize_pos (f : OpenFile) : 0 < f.wantedMemBlockSize := by
  rw [wantedMemBlockSize]
  split
  · decide
  · rename_i hne
    exact UInt32.pos_iff_ne_zero.mpr hne

theorem size_le_requiredPages (f : OpenFile) :
    f.contents.length ≤ requiredPages f.wantedMemBlockSize * 65536 := by
  have hsize := f.toNat_size
  rw [requiredPages, wantedMemBlockSize]
  split
  · rename_i hzero
    rw [hzero, UInt32.toNat_zero] at hsize
    omega
  · omega

private theorem copyContents_eq (f : OpenFile) (memory : UInt32 → UInt8) (addr : UInt32) {o : Nat}
    (ho : o ≤ f.contents.length) :
    f.copyContents memory addr o = some ({ f with position := f.contents.length },
      storeBytes memory (addr + UInt32.ofNat o) (f.contents.drop o)) := by
  have hlt := f.size_lt
  have hseek : (if (f.position : Int) = o then some f else f.lseekSet o) =
      some { f with position := o } := by
    split
    · rename_i heq
      rw [← Int.ofNat_inj.mp heq]
    · rw [lseekSet, if_pos (Int.natCast_nonneg o), Int.toNat_natCast]
  have hlen : ((f.contents.length : Int) - o).bmod 4294967296 =
      ((f.contents.length - o : Nat) : Int) := by
    rw [Int.bmod_eq_of_le (by omega) (by omega)]
    omega
  have hbytes : (f.contents.drop o).take (f.contents.length - o) = f.contents.drop o :=
    List.take_of_length_le (by rw [List.length_drop])
  have haddr : UInt32.ofInt (o : Int) = UInt32.ofNat o := by
    apply UInt32.toNat_inj.mp
    rw [UInt32.ofInt, UInt32.toNat_ofNat', UInt32.toNat_ofNat']
    omega
  rw [copyContents, hseek, Option.bind_some]
  simp only [hlen, read, Int.toNat_natCast, hbytes, List.length_drop, if_true, haddr]
  rw [Nat.add_sub_cancel' ho]

end OpenFile

/-! ## The manager underneath -/

namespace UserSpace

variable {fstatErrno : Option Errno → Option Errno} {errno : Option Errno} {u u' : UserSpace}
  {r : MemoryManager.MmapRequest}

section FileBranch

variable {f : OpenFile} {offset : Int}

theorem memoryMmap_none (hread : r.protRead = true) (hfd : 0 < r.fd)
    (hfile : u.files r.fd = some f)
    (halloc : u.manager.allocMemoryPseudoMmap f.wantedMemBlockSize = none) :
    u.memoryMmap fstatErrno errno r offset = none := by
  simp only [memoryMmap, if_pos (And.intro hread hfd), hfile, halloc, Option.bind_none,
    Option.map_none]

theorem memoryMmap_null {m' : MemoryManager} (hread : r.protRead = true) (hfd : 0 < r.fd)
    (hfile : u.files r.fd = some f)
    (halloc : u.manager.allocMemoryPseudoMmap f.wantedMemBlockSize = some (0, m')) :
    u.memoryMmap fstatErrno errno r offset =
      some (mmapResult (fstatErrno errno, 0, { u with manager := m' })) := by
  simp only [memoryMmap, if_pos (And.intro hread hfd), hfile, halloc]
  rfl

theorem memoryMmap_addr {m' : MemoryManager} {addr : UInt32} (hread : r.protRead = true)
    (hfd : 0 < r.fd) (hfile : u.files r.fd = some f) (haddr : addr ≠ 0)
    (halloc : u.manager.allocMemoryPseudoMmap f.wantedMemBlockSize = some (addr, m')) :
    u.memoryMmap fstatErrno errno r offset =
      (f.copyContents u.memory addr offset).map fun copied => mmapResult
        (none, addr, ⟨m', copied.2, Function.update u.files r.fd (some copied.1)⟩) := by
  simp only [memoryMmap, if_pos (And.intro hread hfd), hfile, halloc, Option.bind_some,
    if_pos haddr, Option.map_map, Function.comp_def]

end FileBranch

private theorem mmapResult_manager {errcode : Option Errno} {addr : UInt32} {result : Except Errno UInt32}
    (h : mmapResult (errcode, addr, u) = (result, u')) :
    MemoryManager.mmapResult (errcode, addr, u.manager) = (result, u'.manager) := by
  cases errcode with
  | none =>
      cases h
      rfl
  | some e =>
      cases h
      rfl

private theorem memoryMmap_manager {offset : Int} {result : Except Errno UInt32}
    (h : u.memoryMmap fstatErrno errno r offset = some (result, u')) :
    u.manager.memoryMmap (fun fd => (u.files fd).map OpenFile.size) (fstatErrno errno) r =
      some (result, u'.manager) := by
  by_cases hbranch : r.protRead ∧ 0 < r.fd
  · cases hfile : u.files r.fd with
    | none =>
        rw [memoryMmap, if_pos hbranch, hfile] at h
        simp only [MemoryManager.memoryMmap_eq_map, if_pos hbranch, hfile, Option.map_none,
          Option.map_some]
        exact congrArg some (mmapResult_manager (Option.some.inj h))
    | some f =>
        simp only [MemoryManager.memoryMmap_eq_map, if_pos hbranch, hfile, Option.map_some]
        cases halloc : u.manager.allocMemoryPseudoMmap f.wantedMemBlockSize with
        | none =>
            rw [memoryMmap_none hbranch.1 hbranch.2 hfile halloc] at h
            cases h
        | some allocated =>
            obtain ⟨addr, m'⟩ := allocated
            have hmanager : u.manager.allocMemoryPseudoMmap
                (if f.size = 0 then pageSize else f.size) = some (addr, m') := halloc
            rw [hmanager, Option.map_some, Option.map_some]
            by_cases haddr : addr = 0
            · subst addr
              rw [memoryMmap_null hbranch.1 hbranch.2 hfile halloc] at h
              exact congrArg some (mmapResult_manager (Option.some.inj h))
            · rw [memoryMmap_addr hbranch.1 hbranch.2 hfile haddr halloc,
                Option.map_eq_some_iff] at h
              obtain ⟨copied, -, hcopied⟩ := h
              rw [if_pos haddr]
              exact congrArg some (mmapResult_manager hcopied)
  · by_cases hanon : r.protRead ∧ r.protWrite ∧ r.mapAnonymous ∧ 0 < r.length
    · rw [memoryMmap, if_neg hbranch, if_pos hanon] at h
      rw [MemoryManager.memoryMmap_eq_map, if_neg hbranch, if_pos hanon]
      cases halloc : u.manager.allocMemoryPseudoMmap r.length with
      | none =>
          rw [halloc] at h
          cases h
      | some allocated =>
          rw [halloc] at h
          exact congrArg some (mmapResult_manager (Option.some.inj h))
    · rw [memoryMmap, if_neg hbranch, if_neg hanon] at h
      rw [MemoryManager.memoryMmap_eq_map, if_neg hbranch, if_neg hanon]
      exact congrArg some (mmapResult_manager (Option.some.inj h))

end UserSpace

theorem Reachable.memoryMmap {a : HeapArea} {u u' : UserSpace} (h : Reachable a u.manager)
    {fstatErrno : Option Errno → Option Errno} {errno : Option Errno}
    {r : MemoryManager.MmapRequest} {offset : Int} {result : Except Errno UInt32}
    (hmmap : u.memoryMmap fstatErrno errno r offset = some (result, u')) :
    Reachable a u'.manager := by
  obtain ⟨m₀, calls, hinit, hrun⟩ := h
  refine ⟨m₀, calls ++ [.mmap (fun fd => (u.files fd).map OpenFile.size) (fstatErrno errno) r],
    hinit, ?_⟩
  rw [runFrom_append, hrun, Option.bind_some]
  simp only [runFrom, MemoryManager.call, UserSpace.memoryMmap_manager hmmap, Option.map_some,
    Option.bind_some]

/-! ## What a file mapping promises -/

/-- An address on a page that a call has marked as used. -/
def OnNewPage (a : HeapArea) (m m' : MemoryManager) (p : Nat) : Prop :=
  ∃ k, a.heapEnd ≤ p + (k + 1) * 65536 ∧ p + k * 65536 < a.heapEnd ∧
    m.bitarray.getBit k = false ∧ m'.bitarray.getBit k = true

/-- The contents from an offset on stand at the same offset past the address, on pages that were
free, and the memory is otherwise as before. -/
structure LoadsFile (a : HeapArea) (u u' : UserSpace) (f : OpenFile) (o : Nat) (addr : UInt32) :
    Prop where
  aligned : addr.toNat % 65536 = 0
  brk_le : u.manager.heapBrk ≤ addr
  loaded : ∀ (j : Nat) (h : j < f.contents.length), o ≤ j →
    u'.memory (addr + UInt32.ofNat j) = f.contents[j]
  written : ∀ j, o ≤ j → j < f.contents.length →
    OnNewPage a u.manager u'.manager (addr.toNat + j)
  kept : ∀ p, (∀ j, o ≤ j → j < f.contents.length → p.toNat ≠ addr.toNat + j) →
    u'.memory p = u.memory p

/-- The file is loaded, or there is no room for it and the call fails without a trace. -/
def MapsFile (fstatErrno : Option Errno → Option Errno) (errno : Option Errno) (a : HeapArea)
    (u : UserSpace) (r : MemoryManager.MmapRequest) (f : OpenFile) (o : Nat) : Prop :=
  (∃ addr u', u.memoryMmap fstatErrno errno r o = some (.ok addr, u') ∧
      LoadsFile a u u' f o addr) ∨
    (∀ index, ¬ FreeAboveBrk a u.manager index (requiredPages f.wantedMemBlockSize)) ∧
      ∃ e u', u.memoryMmap fstatErrno errno r o = some (.error e, u') ∧
        Untouched u.manager u'.manager

private theorem toNat_add_ofNat {addr : UInt32} {j : Nat} (h : addr.toNat + j < 4294967296) :
    (addr + UInt32.ofNat j).toNat = addr.toNat + j := by
  rw [UInt32.toNat_add, UInt32.toNat_ofNat']
  omega

private theorem loadsFile_of_mapsRun {a : HeapArea} {u u' : UserSpace} {f : OpenFile} {o : Nat}
    {addr : UInt32} {index : Nat}
    (hmaps : MapsRun a u.manager f.wantedMemBlockSize addr u'.manager index)
    (hmemory : u'.memory =
      storeBytes u.memory (addr + UInt32.ofNat o) (f.contents.drop o)) :
    LoadsFile a u u' f o addr := by
  have haddr := hmaps.addr_eq
  have hsize := f.size_le_requiredPages
  have hfits : a.heapEnd ≤ 4294967296 := a.fits
  have haligned : a.heapEnd % 65536 = 0 := a.aligned
  have hlength : (f.contents.drop o).length = f.contents.length - o := List.length_drop
  refine ⟨by omega, ?_, fun j hj hoj => ?_, fun j hoj hj => ?_, fun p hp => ?_⟩
  · have habove := hmaps.run.2
    rw [UInt32.le_iff_toNat_le]
    omega
  · have hp : (addr + UInt32.ofNat j).toNat = (addr + UInt32.ofNat o).toNat + (j - o) := by
      rw [toNat_add_ofNat (by omega), toNat_add_ofNat (by omega)]
      omega
    rw [hmemory, storeBytes_inside _ (by omega) hp, List.getElem_drop]
    congr 1
    omega
  · -- the pages of the run count down from its highest one
    have hpage : j / 65536 < requiredPages f.wantedMemBlockSize := by omega
    refine ⟨index + (requiredPages f.wantedMemBlockSize - 1 - j / 65536), by omega, by omega, ?_, ?_⟩
    · exact hmaps.run.1 _ (by omega) (by omega)
    · rw [hmaps.marks, if_pos (by omega)]
  · rw [hmemory]
    rcases Nat.lt_or_ge o f.contents.length with hlt | hge
    · have hstart : (addr + UInt32.ofNat o).toNat = addr.toNat + o := toNat_add_ofNat (by omega)
      refine storeBytes_outside _ (by omega) fun i hi => ?_
      have hne := hp (o + i) (by omega) (by omega)
      omega
    · have hlt := (addr + UInt32.ofNat o).toNat_lt
      exact storeBytes_outside _ (by omega) fun i hi => by omega

section Promise

variable {a : HeapArea} {u : UserSpace} {fstatErrno : Option Errno → Option Errno}
  {errno : Option Errno} {r : MemoryManager.MmapRequest} {f : OpenFile} {o : Nat}

/-- The null address that a failed allocation leaves is a success without an error number, and lies
below the break. -/
private theorem MapsFile.of_null {m' : MemoryManager} (hright : MapsFile fstatErrno errno a u r f o)
    (hbrk : 0 < u.manager.heapBrk.toNat) (hread : r.protRead = true) (hfd : 0 < r.fd)
    (hfile : u.files r.fd = some f)
    (halloc : u.manager.allocMemoryPseudoMmap f.wantedMemBlockSize = some (0, m')) :
    fstatErrno errno ≠ none ∧
      (∀ index, ¬ FreeAboveBrk a u.manager index (requiredPages f.wantedMemBlockSize)) ∧
        Untouched u.manager m' := by
  have hmmap : u.memoryMmap fstatErrno errno r o = _ :=
    UserSpace.memoryMmap_null hread hfd hfile halloc
  cases herrno : fstatErrno errno with
  | none =>
      rw [herrno] at hmmap
      rcases hright with ⟨addr, u', hok, hloads⟩ | ⟨-, e, u', herror, -⟩
      · cases hmmap.symm.trans hok
        have hle := UInt32.le_iff_toNat_le.mp hloads.brk_le
        rw [UInt32.toNat_zero] at hle
        omega
      · cases hmmap.symm.trans herror
  | some e =>
      rw [herrno] at hmmap
      rcases hright with ⟨addr, u', hok, -⟩ | ⟨hnone, e', u', herror, hsame⟩
      · cases hmmap.symm.trans hok
      · cases hmmap.symm.trans herror
        exact ⟨Option.some_ne_none e, hnone, hsame⟩

theorem mapsFile_iff_allocates (h : a.AllocatorInv u.manager)
    (fstatErrno : Option Errno → Option Errno) (errno : Option Errno) (hread : r.protRead = true)
    (hfd : 0 < r.fd) (hfile : u.files r.fd = some f) (ho : o ≤ f.contents.length) :
    MapsFile fstatErrno errno a u r f o ↔
      AllocatesHighestRun a u.manager f.wantedMemBlockSize ∧
        ((∀ index, ¬ FreeAboveBrk a u.manager index (requiredPages f.wantedMemBlockSize)) →
          fstatErrno errno ≠ none) := by
  constructor
  · intro hright
    cases halloc : u.manager.allocMemoryPseudoMmap f.wantedMemBlockSize with
    | none =>
        have hmmap : u.memoryMmap fstatErrno errno r o = none :=
          UserSpace.memoryMmap_none hread hfd hfile halloc
        rcases hright with ⟨addr, u', hok, -⟩ | ⟨-, e, u', herror, -⟩
        · cases hmmap.symm.trans hok
        · cases hmmap.symm.trans herror
    | some allocated =>
        obtain ⟨addr₁, m₁⟩ := allocated
        by_cases haddr : addr₁ = 0
        · subst addr₁
          obtain ⟨herrno, hnone, hsame⟩ := hright.of_null h.brk_pos hread hfd hfile halloc
          exact ⟨.inr ⟨hnone, m₁, halloc, hsame⟩, fun _ => herrno⟩
        · obtain ⟨index, -, hmaps⟩ := h.alloc_mapsRun f.wantedMemBlockSize_pos halloc haddr
          exact ⟨.inl ⟨addr₁, m₁, index, halloc, haddr, hmaps⟩,
            fun hnone => absurd hmaps.run (hnone index)⟩
  · rintro ⟨⟨addr, m', index, halloc, haddr, hmaps⟩ | ⟨hnone, m', halloc, hsame⟩, herrno⟩
    · have hmmap : u.memoryMmap fstatErrno errno r o = _ :=
        UserSpace.memoryMmap_addr hread hfd hfile haddr halloc
      rw [f.copyContents_eq u.memory addr ho, Option.map_some] at hmmap
      exact .inl ⟨addr, _, hmmap, loadsFile_of_mapsRun hmaps rfl⟩
    · have hmmap : u.memoryMmap fstatErrno errno r o = _ :=
        UserSpace.memoryMmap_null hread hfd hfile halloc
      obtain ⟨e, herrno'⟩ := Option.ne_none_iff_exists'.mp (herrno hnone)
      rw [herrno'] at hmmap
      exact .inr ⟨hnone, e, _, hmmap, hsame⟩

end Promise

/-- In every state reached, a file is mapped, or refused for want of room, exactly when the bitmap
serves its size and, where there is no room, `errno` is already set. -/
theorem mapsFile_iff {a : HeapArea} {u : UserSpace} (h : Reachable a u.manager)
    (fstatErrno : Option Errno → Option Errno) (errno : Option Errno)
    {r : MemoryManager.MmapRequest} {f : OpenFile} {o : Nat} (hread : r.protRead = true)
    (hfd : 0 < r.fd) (hfile : u.files r.fd = some f) (ho : o ≤ f.contents.length) :
    MapsFile fstatErrno errno a u r f o ↔
      BitmapServes a u.manager f.wantedMemBlockSize ∧
        ((∀ index, ¬ FreeAboveBrk a u.manager index (requiredPages f.wantedMemBlockSize)) →
          fstatErrno errno ≠ none) := by
  rw [mapsFile_iff_allocates h.inv fstatErrno errno hread hfd hfile ho,
    h.inv.allocatesHighestRun_iff f.wantedMemBlockSize_pos]

/-- A readable mapping of descriptor three. -/
def fileRequest : MemoryManager.MmapRequest := ⟨0, true, false, false, 3⟩

/-- The four pages with one open file. -/
def fourPagesWith (f : OpenFile) : UserSpace :=
  ⟨MappingState.fourPages, fun _ => 0, fun fd => if fd = 3 then some f else none⟩

/-- A file of three bytes. -/
def smallFile : OpenFile := ⟨[1, 2, 3], 0, by decide⟩

theorem mapsFile_iff_smallFile :
    RunEnds MemoryManager.call MappingState.fourPages fourPageCalls fun m =>
      MapsFile id (some .ebadf) MappingState.fourPageArea
        { fourPagesWith smallFile with manager := m } fileRequest smallFile 1 := by
  obtain ⟨m, hm, hfree, hbrk, hsize⟩ := fourPageCalls_free
  have hpages : requiredPages smallFile.wantedMemBlockSize = 1 := by decide
  have hend : MappingState.fourPageArea.heapEnd = 0x50000 := by decide
  have hserves : BitmapServes MappingState.fourPageArea m smallFile.wantedMemBlockSize := by
    apply bitmapServes_of_freeRun 1 (by decide)
    · rw [hpages]
      exact ⟨fun k hle hlt => hfree k hle (by omega), by omega⟩
    · omega
  exact ⟨m, hm, (mapsFile_iff (u := { fourPagesWith smallFile with manager := m })
    ⟨MappingState.fourPages, fourPageCalls, rfl, hm⟩ id (some .ebadf) rfl (by decide) rfl
    (by decide)).mpr ⟨hserves, fun _ => Option.some_ne_none _⟩⟩

/-- A file of one byte more than the four pages. -/
def largeFile : OpenFile := ⟨List.replicate 262145 0, 0, by rw [List.length_replicate]; decide⟩

/-- With no error number left by an earlier call, the null address is a success. -/
theorem largeFile_not_mapsFile :
    ¬ MapsFile id none MappingState.fourPageArea (fourPagesWith largeFile) fileRequest largeFile
      0 := by
  intro hright
  have hiff := mapsFile_iff_allocates (u := fourPagesWith largeFile) (r := fileRequest) (o := 0)
    fourPages_reachable.inv id none rfl (by decide) rfl (Nat.zero_le _)
  refine (hiff.mp hright).2 (fun index hfree => ?_) rfl
  have hsize := largeFile.size_le_requiredPages
  have hlength : largeFile.contents.length = 262145 := List.length_replicate
  have habove : 65536 + (index + requiredPages largeFile.wantedMemBlockSize) * 65536 ≤ 327680 :=
    hfree.2
  omega

end Zrt.Memory
