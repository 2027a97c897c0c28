import Zrt.Framework.Refinement
import Zrt.Helpers.BufferedIo

/-!
# The contents of a file

The data of a file is a buffer that only grows and a length that may shrink. What stands behind the
length is left over from earlier writes or from the allocator, and a write past the end has to clear
it. Sizes are 32 bits wide and offsets 64 bits, so that a size computed from an offset is cut off.
-/

namespace Zrt.Fs

open Zrt.Framework Zrt.Helpers

/-- `data_`, which is `capacity_` bytes long, and `len_`. -/
structure MemFile where
  data : List UInt8
  len : Nat
deriving DecidableEq

namespace MemFile

def empty : MemFile := ⟨[], 0⟩

def capacity (f : MemFile) : Nat := f.data.length

/-- Both assertions are here: some size is asked for, and the memory is there. Behind the old bytes
the memory holds anything. That 2 GiB in one piece are never there is assumed of the machine. -/
def reallocData (f : MemFile) (junk : Nat → UInt8) (len : Nat) : Option MemFile :=
  if 0 < len ∧ len < 2 ^ 31 then
    some { f with data := f.data.take len ++ (List.range (len - f.capacity)).map junk }
  else none

/-- An `off_t` as an address or a `size_t`, which are 32 bits wide. -/
def cut (n : Int) : Nat := (n % 2 ^ 32).toNat

/-- Grow the file if needed. -/
def grow (f : MemFile) (junk : Nat → UInt8) (offset : Int) (count : Nat) : Option MemFile :=
  if (f.capacity : Int) < offset + count then
    f.reallocData junk (max (cut (offset + count)) ((f.capacity + 1) * 2 % 2 ^ 32))
  else some f

/-- A `memset` or `memcpy` into the data. -/
def store (f : MemFile) (offset : Int) (bytes : List UInt8) : Option MemFile :=
  if bytes = [] ∨ cut offset + bytes.length ≤ f.capacity then
    some { f with data := memcpyAt f.data (cut offset) bytes }
  else none

/-- Pad any gap with zeros. -/
def padGap (f : MemFile) (offset : Int) : Option MemFile :=
  if (f.len : Int) < offset then f.store f.len (List.replicate (cut (offset - f.len)) 0) else some f

def write (f : MemFile) (junk : Nat → UInt8) (offset : Int) (bytes : List UInt8) : Option MemFile :=
  (f.grow junk offset bytes.length).bind fun grown =>
    (grown.padGap offset).bind fun padded =>
      (padded.store offset bytes).map fun written =>
        if (written.len : Int) < offset + bytes.length then
          { written with len := cut (offset + bytes.length) }
        else written

/-- Limit to the end of the file. The rest of the file is computed in 64 bits and kept in 32 before
its sign is looked at. -/
def readLen (len : Nat) (offset : Int) (count : Nat) : Int :=
  if (len : Int) - offset < Int.bmod count (2 ^ 32) then
    if Int.bmod (len - offset) (2 ^ 32) < 0 then 0 else Int.bmod (len - offset) (2 ^ 32)
  else Int.bmod count (2 ^ 32)

/-- The value returned and the bytes copied; there is room for `count` of them. -/
def read (f : MemFile) (offset : Int) (count : Nat) : Option (Int × List UInt8) :=
  let len := readLen f.len offset count
  if cut len ≤ count ∧ (cut len = 0 ∨ cut offset + cut len ≤ f.capacity) then
    some (len, (f.data.drop (cut offset)).take (cut len))
  else none

def setLen (f : MemFile) (len : Nat) : MemFile := { f with len := len % 2 ^ 32 }

end MemFile

/-- What happens to the contents of a file; `junk` is what a larger buffer is found with. -/
inductive FileOp where
  | write (junk : Nat → UInt8) (offset : Nat) (bytes : List UInt8)
  | read (offset count : Nat)
  | openTrunc
  | ftruncate (length : Nat)

inductive FileReply where
  | done (ret : Int)
  | bytes (ret : Int) (data : List UInt8)
deriving DecidableEq

def MemFile.step (f : MemFile) : FileOp → Option (FileReply × MemFile)
  | .write junk offset bytes =>
      (f.write junk offset bytes).map fun f' => (.done (Int.bmod bytes.length (2 ^ 32)), f')
  | .read offset count => (f.read offset count).map fun r => (.bytes r.1 r.2, f)
  | .openTrunc => some (.done 0, f.setLen 0)
  | .ftruncate length => some (.done 0, f.setLen length)

/-! ## The file as a sequence of bytes -/

/-- A write past the end extends the file with zeros first. -/
def writeAt (file : List UInt8) (offset : Nat) (bytes : List UInt8) : List UInt8 :=
  (file ++ List.replicate (offset - file.length) 0).take offset ++ bytes ++
    file.drop (offset + bytes.length)

def readAt (file : List UInt8) (offset count : Nat) : List UInt8 := (file.drop offset).take count

def fileSpec (file : List UInt8) : FileOp → FileReply × List UInt8
  | .write _ offset bytes => (.done bytes.length, writeAt file offset bytes)
  | .read offset count => (.bytes (readAt file offset count).length (readAt file offset count), file)
  | .openTrunc => (.done 0, [])
  | .ftruncate length => (.done 0, file.take length)

/-- Writes are not empty and end below 512 MiB, a `size_t` counts the bytes to read, and truncation
only shortens. -/
def FileOp.admissible (file : List UInt8) : FileOp → Prop
  | .write _ offset bytes => bytes ≠ [] ∧ offset + bytes.length < 2 ^ 29
  | .read _ count => count < 2 ^ 32
  | .openTrunc => True
  | .ftruncate length => length ≤ file.length

/-- The reads whose sizes survive being cut to 32 bits: the count is positive as a `ssize_t`, or
beaten by an offset still farther away, and the distance of an offset behind the end is cut to
something that is not positive. -/
def FileOp.inRange (file : List UInt8) : FileOp → Prop
  | .read offset count =>
      (count < 2 ^ 31 ∨ file.length + 2 ^ 32 < count + offset) ∧
        (offset ≤ file.length ∨ (offset - file.length) % 2 ^ 32 ≤ 2 ^ 31)
  | _ => True

instance (file : List UInt8) : (op : FileOp) → Decidable (op.admissible file)
  | .write _ offset bytes => inferInstanceAs (Decidable (bytes ≠ [] ∧ offset + bytes.length < 2 ^ 29))
  | .read _ count => inferInstanceAs (Decidable (count < 2 ^ 32))
  | .openTrunc => isTrue trivial
  | .ftruncate length => inferInstanceAs (Decidable (length ≤ file.length))

/-! ## The buffer holds the sequence -/

namespace MemFile

/-- The bytes up to the length are the file. Within these bounds no size is cut off. -/
structure Holds (f : MemFile) (file : List UInt8) : Prop where
  len_le : f.len ≤ f.capacity
  len_lt : f.len < 2 ^ 29
  capacity_lt : f.capacity < 2 ^ 30
  take_len : f.data.take f.len = file

variable {f f' : MemFile} {file : List UInt8}

private theorem holds_empty : empty.Holds [] :=
  ⟨Nat.le_refl 0, Nat.two_pow_pos 29, Nat.two_pow_pos 30, rfl⟩

theorem Holds.length_eq (h : f.Holds file) : file.length = f.len := by
  rw [← h.take_len, List.length_take]
  exact Nat.min_eq_left h.len_le

theorem cut_eq {n : Int} {k : Nat} (h : n = k) (hk : k < 2 ^ 32) : cut n = k := by
  unfold cut
  omega

theorem cut_natCast {n : Nat} (h : n < 2 ^ 32) : cut n = n := cut_eq rfl h

private theorem reallocData_eq_some (f : MemFile) (junk : Nat → UInt8) {len : Nat} (hgrow : f.capacity < len)
    (hlen : len < 2 ^ 31) :
    ∃ grown, f.reallocData junk len = some grown ∧ grown.len = f.len ∧ grown.capacity = len ∧
      ∀ n ≤ f.capacity, grown.data.take n = f.data.take n := by
  have hall : f.data.take len = f.data := List.take_of_length_le (Nat.le_of_lt hgrow)
  rw [reallocData, if_pos ⟨Nat.zero_lt_of_lt hgrow, hlen⟩, hall]
  refine ⟨_, rfl, rfl, ?_, ?_⟩
  · simp only [capacity, List.length_append, List.length_map, List.length_range]
    exact Nat.add_sub_cancel' (Nat.le_of_lt hgrow)
  · intro n hn
    exact List.take_append_of_le_length hn

private theorem Holds.grow (h : f.Holds file) (junk : Nat → UInt8) {offset count : Nat}
    (hend : offset + count < 2 ^ 29) :
    ∃ grown, f.grow junk offset count = some grown ∧ grown.len = f.len ∧ grown.Holds file ∧
      offset + count ≤ grown.capacity := by
  unfold MemFile.grow
  split
  · rename_i hsmall
    have hcut : cut ((offset : Int) + count) = offset + count := cut_eq (by omega) (by omega)
    have hnext : (f.capacity + 1) * 2 % 2 ^ 32 = (f.capacity + 1) * 2 := Nat.mod_eq_of_lt (by omega)
    rw [hcut, hnext]
    have hgrow : f.capacity < max (offset + count) ((f.capacity + 1) * 2) := by omega
    obtain ⟨grown, hgrown, hlen, hcap, htake⟩ := f.reallocData_eq_some junk hgrow (by omega)
    have hold := h.len_le
    refine ⟨grown, hgrown, hlen, ⟨?_, ?_, ?_, ?_⟩, ?_⟩
    · omega
    · rw [hlen]
      exact h.len_lt
    · omega
    · rw [hlen, htake _ hold, h.take_len]
    · omega
  · rename_i hfits
    exact ⟨f, rfl, rfl, h, by omega⟩

theorem store_eq_some (f : MemFile) {offset : Nat} {bytes : List UInt8}
    (hcap : f.capacity < 2 ^ 30) (hroom : offset + bytes.length ≤ f.capacity) :
    f.store offset bytes = some { f with data := memcpyAt f.data offset bytes } := by
  rw [store, cut_natCast (by omega), if_pos (Or.inr hroom)]

private theorem Holds.padGap (h : f.Holds file) {offset : Nat} (hroom : offset ≤ f.capacity) :
    ∃ padded, f.padGap offset = some padded ∧ padded.len = f.len ∧
      padded.capacity = f.capacity ∧
      padded.data.take (max f.len offset) = file ++ List.replicate (offset - file.length) 0 := by
  have hlen := h.len_le
  have hcap := h.capacity_lt
  unfold MemFile.padGap
  split
  · rename_i hgap
    have hcut : cut ((offset : Int) - f.len) = offset - f.len := cut_eq (by omega) (by omega)
    have hfits : f.len + (List.replicate (offset - f.len) (0 : UInt8)).length ≤ f.data.length := by
      rw [List.length_replicate]
      unfold capacity at hroom
      omega
    have htake := take_memcpyAt f.data f.len _ hfits
    rw [List.length_replicate, Nat.add_sub_cancel' (by omega), h.take_len] at htake
    rw [hcut, f.store_eq_some hcap hfits, Nat.max_eq_right (by omega), h.length_eq]
    exact ⟨_, rfl, rfl, length_memcpyAt _ _ _ hfits, htake⟩
  · rename_i hgap
    refine ⟨f, rfl, rfl, rfl, ?_⟩
    rw [Nat.max_eq_left (by omega), h.take_len, h.length_eq, Nat.sub_eq_zero_of_le (by omega),
      List.replicate_zero, List.append_nil]

private theorem take_write {data bytes : List UInt8} {len offset : Nat}
    (hpad : data.take (max len offset) = file ++ List.replicate (offset - file.length) 0)
    (hlen : file.length = len) (hroom : offset + bytes.length ≤ data.length) :
    (memcpyAt data offset bytes).take (max len (offset + bytes.length)) =
      writeAt file offset bytes := by
  have hfront : data.take offset = (file ++ List.replicate (offset - file.length) 0).take offset := by
    rw [← hpad, List.take_take, Nat.min_eq_left (Nat.le_max_right _ _)]
  have hwritten : (data.take offset ++ bytes).length = offset + bytes.length := by
    rw [List.length_append, List.length_take]
    omega
  have hrest : (data.drop (offset + bytes.length)).take
      (max len (offset + bytes.length) - (offset + bytes.length)) =
      file.drop (offset + bytes.length) := by
    by_cases hbeyond : len ≤ offset + bytes.length
    · rw [Nat.max_eq_right hbeyond, Nat.sub_self, List.take_zero,
        List.drop_of_length_le (by omega)]
    · have hfile : data.take len = file := by
        rw [Nat.max_eq_left (by omega), Nat.sub_eq_zero_of_le (by omega), List.replicate_zero,
          List.append_nil] at hpad
        exact hpad
      rw [Nat.max_eq_left (by omega), ← List.drop_take, hfile]
  rw [memcpyAt, List.take_append, hwritten, hrest,
    List.take_of_length_le (by rw [hwritten]; exact Nat.le_max_right _ _), hfront, writeAt]

private theorem Holds.write (h : f.Holds file) (junk : Nat → UInt8) {offset : Nat} {bytes : List UInt8}
    (hend : offset + bytes.length < 2 ^ 29) :
    ∃ f', f.write junk offset bytes = some f' ∧ f'.Holds (writeAt file offset bytes) := by
  obtain ⟨grown, hgrown, hlen, hgh, hroom⟩ := h.grow junk hend
  obtain ⟨padded, hpadded, hplen, hpcap, hptake⟩ := hgh.padGap (by omega : offset ≤ grown.capacity)
  have hcap := hgh.capacity_lt
  have hfits : offset + bytes.length ≤ padded.capacity := by omega
  have hcut : cut ((offset : Int) + bytes.length) = offset + bytes.length :=
    cut_eq (by omega) (by omega)
  have hstored := padded.store_eq_some (by omega) hfits
  have htake := take_write hptake hgh.length_eq hfits
  have hcap' : (memcpyAt padded.data offset bytes).length = padded.capacity :=
    length_memcpyAt _ _ _ hfits
  refine ⟨_, by rw [MemFile.write, hgrown, Option.bind_some, hpadded, Option.bind_some, hstored,
    Option.map_some], ?_⟩
  have hold := hgh.len_le
  have hlt := hgh.len_lt
  split
  · rename_i hlonger
    simp only [hcut] at hlonger ⊢
    rw [Nat.max_eq_right (by omega)] at htake
    refine ⟨?_, hend, ?_, htake⟩
    · change offset + bytes.length ≤ (memcpyAt padded.data offset bytes).length
      omega
    · change (memcpyAt padded.data offset bytes).length < 2 ^ 30
      omega
  · rename_i hlonger
    simp only at hlonger
    rw [Nat.max_eq_left (by omega), ← hplen] at htake
    refine ⟨?_, by simp only; omega, ?_, htake⟩
    · change padded.len ≤ (memcpyAt padded.data offset bytes).length
      omega
    · change (memcpyAt padded.data offset bytes).length < 2 ^ 30
      omega

private theorem Holds.setLen (h : f.Holds file) {length : Nat} (hle : length ≤ file.length) :
    (f.setLen length).Holds (file.take length) := by
  have hlen := h.len_le
  have hlt := h.len_lt
  rw [h.length_eq] at hle
  have hcut : length % 2 ^ 32 = length := Nat.mod_eq_of_lt (by omega)
  unfold MemFile.setLen
  rw [hcut]
  refine ⟨Nat.le_trans hle hlen, Nat.lt_of_le_of_lt hle hlt, h.capacity_lt, ?_⟩
  rw [← h.take_len, List.take_take, Nat.min_eq_left hle]

/-! ## Reads -/

private theorem readLen_inRange {len offset count : Nat} (hlen : len < 2 ^ 29) (hcount : count < 2 ^ 32)
    (hnear : count < 2 ^ 31 ∨ len + 2 ^ 32 < count + offset)
    (hfar : offset ≤ len ∨ (offset - len) % 2 ^ 32 ≤ 2 ^ 31) :
    readLen len offset count = (min count (len - offset) : Nat) := by
  unfold readLen
  simp only [Int.bmod_def]
  split_ifs <;> omega

private theorem readLen_negative {len offset count : Nat} (hcount : count < 2 ^ 32)
    (hneg : 2 ^ 31 ≤ count) (hle : count + offset ≤ len + 2 ^ 32) :
    readLen len offset count = (count : Int) - 2 ^ 32 := by
  unfold readLen
  simp only [Int.bmod_def]
  split_ifs <;> omega

private theorem readLen_far {len offset count : Nat} (hbehind : len < offset)
    (hfar : 2 ^ 31 < (offset - len) % 2 ^ 32) : 0 < readLen len offset count := by
  unfold readLen
  simp only [Int.bmod_def]
  split_ifs <;> omega

private theorem Holds.readAt_eq (h : f.Holds file) (offset count : Nat) :
    readAt file offset count = (f.data.drop offset).take (min count (f.len - offset)) := by
  rw [readAt, ← h.take_len, List.drop_take, List.take_take]

theorem Holds.length_readAt (h : f.Holds file) (offset count : Nat) :
    (readAt file offset count).length = min count (f.len - offset) := by
  rw [readAt, List.length_take, List.length_drop, h.length_eq]

private theorem Holds.read_inRange (h : f.Holds file) {offset count : Nat} (hcount : count < 2 ^ 32)
    (hrange : (FileOp.read offset count).inRange file) :
    f.read offset count =
      some (((readAt file offset count).length : Int), readAt file offset count) := by
  obtain ⟨hnear, hfar⟩ := hrange
  rw [h.length_eq] at hnear hfar
  have hlen := h.len_le
  have hlt := h.len_lt
  have hret := readLen_inRange hlt hcount hnear hfar
  have hsize : cut (readLen f.len offset count) = min count (f.len - offset) := by
    rw [hret, cut_natCast (by omega)]
  have hroom : min count (f.len - offset) = 0 ∨
      cut offset + min count (f.len - offset) ≤ f.capacity := by
    by_cases hzero : min count (f.len - offset) = 0
    · exact Or.inl hzero
    · rw [cut_natCast (by omega)]
      omega
  simp only [MemFile.read, hsize]
  have hdata : (f.data.drop (cut offset)).take (min count (f.len - offset)) =
      readAt file offset count := by
    rw [h.readAt_eq]
    by_cases hzero : min count (f.len - offset) = 0
    · rw [hzero, List.take_zero, List.take_zero]
    · rw [cut_natCast (by omega)]
  rw [if_pos ⟨Nat.min_le_left _ _, hroom⟩, hret, h.length_readAt, hdata]

private theorem Holds.read_outOfRange (h : f.Holds file) {offset count : Nat} (hcount : count < 2 ^ 32)
    (hrange : ¬(FileOp.read offset count).inRange file) :
    f.read offset count ≠
      some (((readAt file offset count).length : Int), readAt file offset count) := by
  have hcap := h.capacity_lt
  simp only [FileOp.inRange, h.length_eq] at hrange
  by_cases hnear : count < 2 ^ 31 ∨ f.len + 2 ^ 32 < count + offset
  · have hbehind : f.len < offset := by omega
    have hret : 0 < readLen f.len offset count := readLen_far hbehind (by omega)
    have hnone : (readAt file offset count).length = 0 := by
      rw [h.length_readAt]
      omega
    intro hread
    unfold MemFile.read at hread
    simp only at hread
    split at hread
    · have hzero := congrArg Prod.fst (Option.some.inj hread)
      simp only [hnone] at hzero
      omega
    · cases hread
  · have hret := readLen_negative hcount (by omega) (by omega : count + offset ≤ f.len + 2 ^ 32)
    have hsize : cut (readLen f.len offset count) = count := by
      rw [hret, cut]
      omega
    simp only [MemFile.read, hsize]
    rw [if_neg (by omega)]
    exact Option.some_ne_none _ |>.symm

end MemFile

private theorem refines_fileSpec :
    Refines MemFile.step fileSpec MemFile.Holds (fun file op => op.admissible file)
      (fun file op => op.inRange file) where
  keeps := by
    intro f file op h hadm hrange
    cases op with
    | write junk offset bytes =>
        obtain ⟨f', hwrite, h'⟩ := h.write junk hadm.2
        have hret : Int.bmod bytes.length (2 ^ 32) = bytes.length := by
          have hend := hadm.2
          rw [Int.bmod_def]
          split <;> omega
        exact ⟨f', by simp only [MemFile.step, hwrite, Option.map_some, hret, fileSpec], h'⟩
    | read offset count =>
        exact ⟨f, by simp only [MemFile.step, h.read_inRange hadm hrange, Option.map_some, fileSpec], h⟩
    | openTrunc => exact ⟨_, rfl, h.setLen (Nat.zero_le _)⟩
    | ftruncate length => exact ⟨_, rfl, h.setLen hadm⟩
  differs := by
    intro f file op h hadm hrange f' hstep
    cases op with
    | write junk offset bytes => exact hrange trivial
    | read offset count =>
        simp only [MemFile.step, fileSpec, Option.map_eq_some_iff] at hstep
        obtain ⟨r, hr, heq⟩ := hstep
        obtain ⟨hreply, -⟩ := Prod.mk.inj heq
        obtain ⟨hret, hdata⟩ := FileReply.bytes.inj hreply
        apply h.read_outOfRange hadm hrange
        rw [hr, ← hret, ← hdata]
    | openTrunc => exact hrange trivial
    | ftruncate length => exact hrange trivial

/-- Every run on a new file answers like the sequence of bytes if and only if all its reads are in
range. -/
theorem run_fileSpec_iff (ops : List FileOp)
    (hadm : Along fileSpec (fun file op => op.admissible file) [] ops) :
    replies MemFile.step MemFile.empty ops = some (specified fileSpec [] ops) ↔
      Along fileSpec (fun file op => op.inRange file) [] ops :=
  refines_fileSpec.replies_eq_iff ops MemFile.empty [] MemFile.holds_empty hadm

/-- Old bytes behind a shortened file do not come back through a gap. -/
def gapOps : List FileOp :=
  [.write (fun _ => 9) 0 [1, 2, 3, 4], .ftruncate 1, .write (fun _ => 9) 3 [5], .read 0 10]

theorem run_fileSpec_iff_gap :
    Along fileSpec (fun file op => op.admissible file) [] gapOps ∧
      (replies MemFile.step MemFile.empty gapOps = some (specified fileSpec [] gapOps) ↔
        Along fileSpec (fun file op => op.inRange file) [] gapOps) :=
  have hadm : Along fileSpec (fun file op => op.admissible file) [] gapOps := by decide
  ⟨hadm, run_fileSpec_iff gapOps hadm⟩

/-- A read 4 GiB behind the beginning returns the file once more. -/
def farOps : List FileOp := [.write (fun _ => 9) 0 [1, 2, 3], .read (2 ^ 32) 8]

theorem far_read_returns_file :
    Along fileSpec (fun file op => op.admissible file) [] farOps ∧
      replies MemFile.step MemFile.empty farOps = some [.done 3, .bytes 3 [1, 2, 3]] ∧
      specified fileSpec [] farOps = [.done 3, .bytes 0 []] := by
  decide

end Zrt.Fs
