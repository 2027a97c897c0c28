import Zrt.Fs.Io

/-!
# Calls on files

`ftruncate` is made of other calls: it lengthens a file by writing zeros behind its end and shortens it
through the mount. With it the calls on the data of files are complete; those that change names go on
between them. Counts have 32 bits, offsets and lengths 64.
-/

namespace Zrt.Fs

open Zrt.Framework Zrt.Helpers

namespace Io

/-! ## Truncation -/

/-- `st_size` of `fstat`, which leaves it zero for a directory. -/
def fstatSize (s : Io) (fd : Nat) : Option (Except Errno Nat) :=
  match s.fs.openFile fd with
  | none => some (.error .ebadf)
  | some o =>
      (s.fs.mem.getData o.data).map fun d => .ok (if d.isDir then 0 else (s.files o.data).len)

/-- An offset beyond the new length is moved one behind it. -/
def memFtruncateSize (s : Io) (fd : Nat) (length : Int) : Reply :=
  match s.fs.openFile fd with
  | none => some (.error .ebadf, s)
  | some o =>
      (s.fs.mem.getData o.data).bind fun d =>
        if d.isDir then some (.error .ebadf, s)
        else if o.flags.wronly = o.flags.rdwr then some (.error .einval, s)
        else
          let s' := s.setFile o.data ((s.files o.data).setLen (MemFile.cut length))
          some (.ok 0, if length < s.offsets o.id then s'.setOffset o.id (length + 1) else s')

def paddingSize : Nat := 0x10000

/-- The block of zeros that is written next. -/
def paddingBlock (remain : Int) : List UInt8 := List.replicate (min remain paddingSize).toNat 0

/-- `junk` is what larger buffers are found with, by the bytes that remain. -/
def writeFilePadding (s : Io) (fd : Nat) (junk : Int → Nat → UInt8) (remain : Int) : Reply :=
  match s.write fd (junk remain) (paddingBlock remain) with
  | none => none
  | some (.error e, s') => some (.error e, s')
  | some (.ok wrote, s') =>
      if _h : 0 < wrote ∧ 0 < remain - wrote then writeFilePadding s' fd junk (remain - wrote)
      else some (.ok (if 0 < wrote then remain - wrote else wrote), s')
termination_by remain.toNat

/-- What `lseek` answers is asserted. -/
def lseekAssert (s : Io) (fd : Nat) (pos : Int) : Option Io :=
  (s.lseek fd pos .seekSet).bind fun r =>
    match r with
    | (.ok p, s') => if p = pos then some s' else none
    | (.error _, _) => none

/-- The change of the size, by lengthening or by shortening. -/
def changeSize (s : Io) (fd : Nat) (junk : Int → Nat → UInt8) (size : Nat) (length : Int) : Reply :=
  if (size : Int) < length then
    (s.lseekAssert fd size).bind fun s₂ => s₂.writeFilePadding fd junk (length - size)
  else s.memFtruncateSize fd length

/-- The position is only restored behind a change that went through. -/
def finishFtruncate (fd : Nat) (savedPos length : Int) : Except Errno Int × Io → Reply
  | (.error e, s) => some (.error e, s)
  | (.ok res, s) =>
      if res < 0 then some (.ok res, s)
      else
        (if savedPos < length then s.lseekAssert fd savedPos else some s).bind fun s' =>
          (s'.fstatSize fd).bind fun st =>
            match st with
            | .error _ => none
            | .ok size => if (size : Int) = length then some (.ok 0, s') else none

def zrtZcallFtruncate (s : Io) (fd : Nat) (junk : Int → Nat → UInt8) (length : Int) : Reply :=
  (s.lseek fd 0 .seekCur).bind fun saved =>
    match saved with
    | (.error e, s₁) => some (.error e, s₁)
    | (.ok savedPos, s₁) =>
        (s₁.fstatSize fd).bind fun st =>
          match st with
          | .error _ => none
          | .ok size =>
              (s₁.changeSize fd junk size length).bind fun changed =>
                finishFtruncate fd savedPos length changed

end Io

/-! ## Calls -/

/-- The calls that change names. -/
inductive NameCall where
  | mkdir (path : AbsolutePath) (mode : Nat)
  | rmdir (path : AbsolutePath)
  | link (oldpath newpath : AbsolutePath)
  | unlink (path : AbsolutePath)
  | rename (oldpath newpath : AbsolutePath)

def NameCall.toFsCall : NameCall → FsCall
  | .mkdir path mode => .mkdir path mode
  | .rmdir path => .rmdir path
  | .link oldpath newpath => .link oldpath newpath
  | .unlink path => .unlink path
  | .rename oldpath newpath => .rename oldpath newpath

inductive FileCall where
  | memOpen (path : AbsolutePath) (flags : OpenFlags) (mode : Nat)
  | dup (oldfd : Nat)
  | dup2 (oldfd newfd : Nat)
  | close (fd : Nat)
  | read (fd : Nat) (count : UInt32)
  | write (fd : Nat) (junk : Nat → UInt8) (bytes : List UInt8)
  | pread (fd : Nat) (count : UInt32) (offset : Int64)
  | pwrite (fd : Nat) (junk : Nat → UInt8) (bytes : List UInt8) (offset : Int64)
  | lseek (fd : Nat) (offset : Int64) (whence : Whence)
  | ftruncate (fd : Nat) (junk : Int → Nat → UInt8) (length : Int64)
  | names (c : NameCall)

namespace Io

/-- An absolute offset is checked before the mount is asked. -/
def zrtZcallEnhancedSeek (s : Io) (fd : Nat) (offset : Int) (whence : Whence) : Reply :=
  if whence = .seekSet ∧ offset < 0 then some (.error .einval, s) else s.lseek fd offset whence

def fileCall (ch : Channels) (s : Io) : FileCall → Reply
  | .memOpen path flags mode => s.memOpen path flags mode
  | .dup oldfd => s.ofFs (s.fs.dup oldfd)
  | .dup2 oldfd newfd => s.ofFs (FileSystem.dup2 ch s.fs oldfd newfd)
  | .close fd => s.ofFs (FileSystem.close ch s.fs fd)
  | .read fd count => s.read fd count.toNat
  | .write fd junk bytes => s.write fd junk bytes
  | .pread fd count offset => s.pread fd count.toNat offset.toInt
  | .pwrite fd junk bytes offset => s.pwrite fd junk bytes offset.toInt
  | .lseek fd offset whence => s.zrtZcallEnhancedSeek fd offset.toInt whence
  | .ftruncate fd junk length => s.zrtZcallFtruncate fd junk length.toInt
  | .names c => s.ofFs (FileSystem.call ch s.fs c.toFsCall)

def fileStep (ch : Channels) (s : Io) (c : FileCall) : Option Io := (s.fileCall ch c).map Prod.snd

end Io

/-! ## Lengths and offsets -/

namespace MemFile

variable {f f' : MemFile}

/-- What the file holds. -/
def contents (f : MemFile) : List UInt8 := f.data.take f.len

theorem length_contents (h : f.len ≤ f.capacity) : f.contents.length = f.len := by
  rw [contents, List.length_take]
  exact Nat.min_eq_left h

theorem cut_le {n : Int} (h : 0 ≤ n) : (cut n : Int) ≤ n := by
  unfold cut
  omega

/-- The buffer after the growth: at least as long as it was asked to be. -/
theorem grow_eq_some {junk : Nat → UInt8} {offset : Int} {count : Nat} (hcap : f.capacity < 2 ^ 31)
    (h : f.grow junk offset count = some f') :
    f'.len = f.len ∧ f'.capacity < 2 ^ 31 ∧
      ((f.capacity : Int) < offset + count → cut (offset + count) ≤ f'.capacity) ∧
      (offset + count ≤ f.capacity → f' = f) := by
  unfold grow at h
  split at h
  · rename_i hsmall
    have hnext := capacity_reallocData h
    unfold reallocData at h
    split at h
    · cases h
      refine ⟨rfl, hnext, ?_, by omega⟩
      intro _
      simp only [capacity, List.length_append, List.length_take, List.length_map, List.length_range]
      omega
    · cases h
  · cases h
    exact ⟨rfl, hcap, by omega, fun _ => rfl⟩

/-- The parts of a write that went through. -/
theorem write_eq_some {junk : Nat → UInt8} {offset : Int} {bytes : List UInt8}
    (h : f.write junk offset bytes = some f') :
    ∃ grown padded written, f.grow junk offset bytes.length = some grown ∧
      grown.padGap offset = some padded ∧ padded.store offset bytes = some written ∧
      f'.data = written.data ∧
      f'.len = if (written.len : Int) < offset + bytes.length then cut (offset + bytes.length)
        else written.len := by
  obtain ⟨grown, hgrown, h⟩ := Option.bind_eq_some_iff.mp h
  obtain ⟨padded, hpadded, h⟩ := Option.bind_eq_some_iff.mp h
  obtain ⟨written, hwritten, rfl⟩ := Option.map_eq_some_iff.mp h
  refine ⟨grown, padded, written, hgrown, hpadded, hwritten, ?_⟩
  split <;> exact ⟨rfl, rfl⟩

theorem store_len {offset : Int} {bytes : List UInt8} (h : f.store offset bytes = some f') :
    f'.len = f.len := by
  unfold store at h
  split at h
  · cases h
    rfl
  · cases h

theorem padGap_eq_some {offset : Int} (h : f.padGap offset = some f') :
    f'.len = f.len ∧ f'.capacity = f.capacity := by
  unfold padGap at h
  split at h
  · exact ⟨store_len h, (capacity_store h).1⟩
  · cases h
    exact ⟨rfl, rfl⟩

theorem write_len_le (hlen : f.len ≤ f.capacity) (hcap : f.capacity < 2 ^ 31)
    {junk : Nat → UInt8} {offset : Int} {bytes : List UInt8}
    (h : f.write junk offset bytes = some f') : f'.len ≤ f'.capacity := by
  obtain ⟨grown, padded, written, hgrown, hpadded, hwritten, hdata, hlast⟩ := write_eq_some h
  obtain ⟨hglen, hgcap, hgrow, hsame⟩ := grow_eq_some hcap hgrown
  obtain ⟨hplen, hpcap⟩ := padGap_eq_some hpadded
  have hwlen := store_len hwritten
  have hwcap := (capacity_store hwritten).1
  have hcapacity : f'.capacity = grown.capacity := by
    rw [← hpcap, ← hwcap]
    exact congrArg List.length hdata
  rw [hcapacity, hlast]
  split
  · rename_i hlonger
    by_cases hroom : offset + bytes.length ≤ f.capacity
    · rw [hsame hroom]
      have hle := cut_le (n := offset + bytes.length) (by omega)
      omega
    · exact hgrow (by omega)
  · by_cases hroom : offset + bytes.length ≤ f.capacity
    · rw [hsame hroom]
      omega
    · omega

private theorem grow_take {junk : Nat → UInt8} {offset : Int} {count m : Nat}
    (h : f.grow junk offset count = some f') (hm : m ≤ f.capacity) (hm' : m ≤ f'.capacity) :
    f'.data.take m = f.data.take m := by
  unfold grow at h
  split at h
  · unfold reallocData at h
    split at h
    · cases h
      simp only [capacity, List.length_append, List.length_take, List.length_map,
        List.length_range] at hm hm' ⊢
      rw [List.take_append_of_le_length (by rw [List.length_take]; omega), List.take_take,
        Nat.min_eq_left (by omega)]
    · cases h
  · cases h
    rfl

theorem memcpyAt_nil (data : List UInt8) (offset : Nat) : memcpyAt data offset [] = data := by
  simp [memcpyAt]

/-- At the end of the file, or whole multiples of 4 GiB behind it, the bytes are appended. -/
theorem write_end (hlen : f.len ≤ f.capacity) (hcap : f.capacity < 2 ^ 31) {junk : Nat → UInt8}
    {offset : Int} {bytes : List UInt8} (hle : (f.len : Int) ≤ offset) (hcut : cut offset = f.len)
    (h : f.write junk offset bytes = some f') :
    f'.contents = f.contents ++ bytes ∧ f'.len = f.len + bytes.length := by
  obtain ⟨grown, padded, written, hgrown, hpadded, hwritten, hdata, hlast⟩ := write_eq_some h
  obtain ⟨hglen, hgcap, hgrow, hsame⟩ := grow_eq_some hcap hgrown
  have hpad : padded = grown := by
    unfold padGap at hpadded
    split at hpadded
    · have hzero : cut (offset - grown.len) = 0 := by
        unfold cut at hcut ⊢
        omega
      rw [hzero, List.replicate_zero] at hpadded
      simp only [store, true_or, if_true, memcpyAt_nil] at hpadded
      exact (Option.some.inj hpadded).symm
    · exact (Option.some.inj hpadded).symm
  subst hpad
  have hwlen := store_len hwritten
  have hroom : f.len + bytes.length ≤ padded.capacity ∧
      written.data = memcpyAt padded.data f.len bytes := by
    unfold store at hwritten
    split at hwritten
    · rename_i hroom
      cases hwritten
      rw [hcut] at hroom ⊢
      refine ⟨?_, rfl⟩
      rcases hroom with rfl | hroom
      · by_cases hfits : offset ≤ f.capacity
        · rw [hsame (by simpa using hfits)]
          exact hlen
        · have hge := hgrow (by simpa using hfits)
          rw [List.length_nil, Int.natCast_zero, Int.add_zero, hcut] at hge
          exact hge
      · exact hroom
    · cases hwritten
  obtain ⟨hroom, hwdata⟩ := hroom
  have hlength : f'.len = f.len + bytes.length := by
    rw [hlast]
    split
    · unfold cut at hcut ⊢
      omega
    · omega
  refine ⟨?_, hlength⟩
  rw [contents, contents, hlength, hdata, hwdata, take_memcpyAt _ _ _ hroom,
    grow_take hgrown hlen (by omega)]

/-- Below 512 MiB the memory for it is there. -/
theorem write_end_isSome (hlen : f.len ≤ f.capacity) (hcap : f.capacity < 2 ^ 31)
    (junk : Nat → UInt8) {bytes : List UInt8} (hend : f.len + bytes.length < 2 ^ 29) :
    ∃ f', f.write junk f.len bytes = some f' := by
  have hcut : cut (f.len + bytes.length : Int) = f.len + bytes.length := cut_eq (by omega) (by omega)
  have hgrown : ∃ grown, f.grow junk f.len bytes.length = some grown := by
    unfold grow
    split
    · unfold reallocData
      rw [hcut, if_pos (by omega)]
      exact ⟨_, rfl⟩
    · exact ⟨f, rfl⟩
  obtain ⟨grown, hgrown⟩ := hgrown
  obtain ⟨hglen, -, hgrow, hsame⟩ := grow_eq_some hcap hgrown
  have hroom : f.len + bytes.length ≤ grown.capacity := by
    by_cases hfits : (f.len : Int) + bytes.length ≤ f.capacity
    · rw [hsame hfits]
      omega
    · rw [← hcut]
      exact hgrow (by omega)
  have hpad : grown.padGap f.len = some grown := by
    rw [padGap, if_neg (by omega)]
  rw [write, hgrown, Option.bind_some, hpad, Option.bind_some, store,
    cut_natCast (by omega), if_pos (Or.inr hroom)]
  exact ⟨_, rfl⟩

theorem setLen_cut {length : Int} (hpos : 0 ≤ length) (hle : length ≤ f.len)
    (hlen : f.len ≤ f.capacity) (hcap : f.capacity < 2 ^ 31) :
    (f.setLen (cut length)).len = length.toNat := by
  simp only [setLen, cut]
  omega

end MemFile

/-- Every length is within its buffer, and every offset is an `off_t`. -/
structure Io.Sane (s : Io) : Prop where
  len_le : ∀ data, (s.files data).len ≤ (s.files data).capacity
  small : ∀ data, (s.files data).capacity < 2 ^ 31
  offset_lt : ∀ id, s.offsets id < 2 ^ 63

namespace Io

variable {s s' : Io} {fd : Nat} {r : Except Errno Int}

theorem sane_start : start.Sane where
  len_le := fun _ => Nat.le_refl 0
  small := fun _ => Nat.two_pow_pos 31
  offset_lt := fun _ => Int.pow_pos (by decide)

theorem Sane.of_fs (h : s.Sane) (fs : FileSystem) : Sane { s with fs := fs } :=
  ⟨h.len_le, h.small, h.offset_lt⟩

theorem Sane.setOffset (h : s.Sane) (id : Nat) {offset : Int} (hoffset : offset < 2 ^ 63) :
    (s.setOffset id offset).Sane where
  len_le := h.len_le
  small := h.small
  offset_lt := by
    intro k
    by_cases hk : k = id
    · subst hk
      simpa [Io.setOffset] using hoffset
    · simpa [Io.setOffset, hk] using h.offset_lt k

theorem Sane.setFile (h : s.Sane) (data : Nat) {f : MemFile} (hlen : f.len ≤ f.capacity)
    (hcap : f.capacity < 2 ^ 31) : (s.setFile data f).Sane where
  len_le := by
    intro k
    by_cases hk : k = data
    · subst hk
      simpa [Io.setFile] using hlen
    · simpa [Io.setFile, hk] using h.len_le k
  small := by
    intro k
    by_cases hk : k = data
    · subst hk
      simpa [Io.setFile] using hcap
    · simpa [Io.setFile, hk] using h.small k
  offset_lt := h.offset_lt

theorem end_lt {offset n : Int} (hoffset : offset < 2 ^ 63)
    (hroom : n = 0 ∨ MemFile.cut offset + n < 2 ^ 31) : offset + n < 2 ^ 63 := by
  unfold MemFile.cut at hroom
  omega

theorem Sane.pread (h : s.Sane) {count : Nat} {offset : Int} (hoffset : offset < 2 ^ 63)
    (hcall : s.pread fd count offset = some (r, s')) : s'.Sane := by
  rcases pread_eq_some hcall with ⟨e, -, rfl⟩ | ⟨o, x, -, -, hx, -, rfl⟩
  · exact h
  · have hread := MemFile.read_eq_some (h.small o.data) hx
    have hsmall := h.small o.data
    rw [if_pos hread.2]
    apply h.setOffset
    apply end_lt hoffset
    unfold MemFile.read at hx
    simp only at hx
    split at hx
    · rename_i hcopy
      rw [← hread.1] at hcopy
      have hcut : (MemFile.cut x.1 : Int) = x.1 := by
        have hbounds := MemFile.readLen_bounds (s.files o.data).len offset count
        rw [← hread.1] at hbounds
        unfold MemFile.cut
        omega
      omega
    · cases hx

theorem Sane.pwrite (h : s.Sane) {junk : Nat → UInt8} {bytes : List UInt8} {offset : Int}
    (hoffset : offset < 2 ^ 63) (hcall : s.pwrite fd junk bytes offset = some (r, s')) :
    s'.Sane := by
  rcases pwrite_written h.small hcall with ⟨e, -, rfl⟩ | ⟨o, f, -, -, hf, -, rfl⟩
  · exact h
  · have hcap := (MemFile.capacity_write (h.small o.data) hf).1
    apply (h.setFile o.data (MemFile.write_len_le (h.len_le o.data) (h.small o.data) hf)
      hcap).setOffset
    apply end_lt hoffset
    obtain ⟨grown, padded, written, hgrown, hpadded, hwritten, -, -⟩ := MemFile.write_eq_some hf
    have hgrowncap := (MemFile.grow_eq_some (h.small o.data) hgrown).2.1
    have hpaddedcap := (MemFile.padGap_eq_some hpadded).2
    unfold MemFile.store at hwritten
    split at hwritten
    · rename_i hroom
      rcases hroom with rfl | hroom
      · exact .inl rfl
      · omega
    · cases hwritten

private theorem Sane.read (h : s.Sane) {count : Nat} (hcall : s.read fd count = some (r, s')) :
    s'.Sane := by
  unfold Io.read at hcall
  split at hcall
  · cases hcall
    exact h
  · exact h.pread (h.offset_lt _) hcall

theorem Sane.write (h : s.Sane) {junk : Nat → UInt8} {bytes : List UInt8}
    (hcall : s.write fd junk bytes = some (r, s')) : s'.Sane := by
  unfold Io.write at hcall
  split at hcall
  · cases hcall
    exact h
  · exact h.pwrite (h.offset_lt _) hcall

/-! ## How a truncation ends -/

/-- How a truncation ends: refused at once, in the change of the size, or behind the last check. -/
theorem ftruncate_eq_some {junk : Int → Nat → UInt8} {length : Int}
    (hcall : s.zrtZcallFtruncate fd junk length = some (r, s')) :
    (∃ e, s.lseek fd 0 .seekCur = some (.error e, s') ∧ r = .error e) ∨
    ∃ savedPos s₁ size changed s₃, s.lseek fd 0 .seekCur = some (.ok savedPos, s₁) ∧
      s₁.fstatSize fd = some (.ok size) ∧ s₁.changeSize fd junk size length = some (changed, s₃) ∧
      ((∃ e, changed = .error e ∧ r = .error e ∧ s' = s₃) ∨
        (∃ res, changed = .ok res ∧ res < 0 ∧ r = .ok res ∧ s' = s₃) ∨
        ∃ res, changed = .ok res ∧
          (if savedPos < length then s₃.lseekAssert fd savedPos else some s₃) = some s' ∧
          (∃ n : Nat, s'.fstatSize fd = some (.ok n) ∧ (n : Int) = length) ∧ r = .ok 0) := by
  obtain ⟨⟨saved, s₁⟩, hsaved, hcall⟩ := Option.bind_eq_some_iff.mp hcall
  cases saved with
  | error e =>
      cases hcall
      exact .inl ⟨e, hsaved, rfl⟩
  | ok savedPos =>
      obtain ⟨st, hst, hcall⟩ := Option.bind_eq_some_iff.mp hcall
      cases st with
      | error e => cases hcall
      | ok size =>
          obtain ⟨⟨changed, s₃⟩, hchanged, hcall⟩ := Option.bind_eq_some_iff.mp hcall
          refine .inr ⟨savedPos, s₁, size, changed, s₃, hsaved, hst, hchanged, ?_⟩
          cases changed with
          | error e =>
              cases hcall
              exact .inl ⟨e, rfl, rfl, rfl⟩
          | ok res =>
              simp only [finishFtruncate] at hcall
              split at hcall
              · rename_i hneg
                cases hcall
                exact .inr (.inl ⟨res, rfl, hneg, rfl, rfl⟩)
              · obtain ⟨s₄, hrestore, hcall⟩ := Option.bind_eq_some_iff.mp hcall
                obtain ⟨st, hst', hcall⟩ := Option.bind_eq_some_iff.mp hcall
                cases st with
                | error e => cases hcall
                | ok n =>
                    simp only at hcall
                    split at hcall
                    · rename_i heq
                      cases hcall
                      exact .inr (.inr ⟨res, rfl, hrestore, ⟨n, hst', heq⟩, rfl⟩)
                    · cases hcall

theorem memFtruncateSize_cases {length : Int}
    (hcall : s.memFtruncateSize fd length = some (r, s')) :
    (∃ e, r = .error e ∧ s' = s) ∨
    ∃ o d, s.fs.openFile fd = some o ∧ s.fs.mem.getData o.data = some d ∧ d.isDir = false ∧
      o.flags.wronly ≠ o.flags.rdwr ∧ r = .ok 0 ∧
      s' = if length < s.offsets o.id then
          (s.setFile o.data ((s.files o.data).setLen (MemFile.cut length))).setOffset o.id (length + 1)
        else s.setFile o.data ((s.files o.data).setLen (MemFile.cut length)) := by
  unfold memFtruncateSize at hcall
  cases ho : s.fs.openFile fd with
  | none =>
      simp only [ho] at hcall
      cases hcall
      exact .inl ⟨_, rfl, rfl⟩
  | some o =>
      simp only [ho] at hcall
      obtain ⟨d, hd, hcall⟩ := Option.bind_eq_some_iff.mp hcall
      split at hcall
      · cases hcall
        exact .inl ⟨_, rfl, rfl⟩
      · rename_i hdir
        split at hcall
        · cases hcall
          exact .inl ⟨_, rfl, rfl⟩
        · rename_i hmode
          cases hcall
          exact .inr ⟨o, d, rfl, hd, Bool.eq_false_iff.mpr hdir, hmode, rfl, rfl⟩

theorem fstatSize_file {o : OpenFile} {d : MemData} (ho : s.fs.openFile fd = some o)
    (hd : s.fs.mem.getData o.data = some d) (hfile : d.isDir = false) :
    s.fstatSize fd = some (.ok (s.files o.data).len) := by
  simp [fstatSize, ho, hd, hfile]

/-! ## What the calls keep -/

/-- A property of states that offsets in range, shortened files and the calls that transfer data keep.
The other calls are made of these. -/
structure Closed (P : Io → Prop) : Prop where
  sane : ∀ s, P s → s.Sane
  fs : ∀ s fs, P s → P { s with fs := fs }
  offset : ∀ s id x, P s → 0 ≤ x → x < 2 ^ 63 → P (s.setOffset id x)
  shortened : ∀ s data length, P s → length ≤ (s.files data).len →
    P (s.setFile data ((s.files data).setLen length))
  read : ∀ s fd count r t, P s → s.read fd count = some (r, t) → P t
  write : ∀ s fd junk bytes r t, P s → s.write fd junk bytes = some (r, t) → P t

theorem closed_sane : Closed Sane where
  sane := fun _ h => h
  fs := fun _ fs h => h.of_fs fs
  offset := fun _ id _ h _ hlt => h.setOffset id hlt
  shortened := by
    intro s data length h hle
    apply h.setFile
    · have hlen := h.len_le data
      exact (Nat.mod_le _ _).trans (hle.trans hlen)
    · exact h.small data
  read := fun _ _ _ _ _ h hcall => h.read hcall
  write := fun _ _ _ _ _ _ h hcall => h.write hcall

section Closed

variable {P : Io → Prop} (hP : Closed P)

include hP

theorem Closed.lseek (h : P s) {offset : Int} {whence : Whence}
    (hcall : s.lseek fd offset whence = some (r, s')) : P s' := by
  unfold Io.lseek at hcall
  split at hcall
  · cases hcall
    exact h
  · obtain ⟨d, -, hcall⟩ := Option.bind_eq_some_iff.mp hcall
    split at hcall
    · cases hcall
      exact h
    · split at hcall
      · cases hcall
        exact h
      · split at hcall
        · cases hcall
          exact h
        · rename_i hneg
          split at hcall
          · cases hcall
          · rename_i hlt
            cases hcall
            exact hP.offset _ _ _ h (Int.not_lt.mp hneg) (Int.not_le.mp hlt)

private theorem Closed.enhancedSeek (h : P s) {offset : Int} {whence : Whence}
    (hcall : s.zrtZcallEnhancedSeek fd offset whence = some (r, s')) : P s' := by
  unfold zrtZcallEnhancedSeek at hcall
  split at hcall
  · cases hcall
    exact h
  · exact hP.lseek h hcall

private theorem Closed.renewed (h : P s) (flags : OpenFlags) (fs : FileSystem) :
    P (s.renewed flags fs) := by
  unfold Io.renewed
  split
  · exact hP.offset _ _ _ (hP.fs s fs h) le_rfl (by decide)
  · exact hP.fs s fs h

private theorem Closed.truncate (h : P s) (fd : Nat) : P (s.truncate fd) := by
  unfold Io.truncate
  split
  · exact h
  · exact hP.shortened _ _ _ h (Nat.zero_le _)

private theorem Closed.memOpen (h : P s) {path : AbsolutePath} {flags : OpenFlags} {mode : Nat}
    (hcall : s.memOpen path flags mode = some (r, s')) : P s' := by
  obtain ⟨⟨r₁, fs⟩, -, hcall⟩ := Option.bind_eq_some_iff.mp hcall
  have hrenewed := hP.renewed h flags fs
  cases r₁ with
  | error e =>
      cases hcall
      split
      · exact hP.fs s fs h
      · exact hrenewed
  | ok fd =>
      obtain ⟨s₁, hs₁, heq⟩ := Option.map_eq_some_iff.mp hcall
      cases heq
      have hsought : P s₁ := by
        split at hs₁
        · obtain ⟨⟨r₂, s₂⟩, hseek, rfl⟩ := Option.map_eq_some_iff.mp hs₁
          exact hP.lseek hrenewed hseek
        · cases hs₁
          exact hrenewed
      split
      · exact hP.truncate hsought fd
      · exact hsought

private theorem Closed.ofFs (h : P s) {reply : FileSystem.Reply} (hcall : s.ofFs reply = some (r, s')) :
    P s' := by
  obtain ⟨x, -, heq⟩ := Option.map_eq_some_iff.mp hcall
  cases heq
  exact hP.fs s x.2 h

theorem Closed.lseekAssert (h : P s) {pos : Int} (hcall : s.lseekAssert fd pos = some s') :
    P s' := by
  obtain ⟨⟨r, s₁⟩, hseek, hcall⟩ := Option.bind_eq_some_iff.mp hcall
  have hs₁ := hP.lseek h hseek
  cases r with
  | error e => cases hcall
  | ok p =>
      simp only at hcall
      split at hcall
      · cases hcall
        exact hs₁
      · cases hcall

private theorem Closed.writeFilePadding (h : P s) {junk : Int → Nat → UInt8} {remain : Int}
    (hcall : s.writeFilePadding fd junk remain = some (r, s')) : P s' := by
  induction s, remain using writeFilePadding.induct fd junk with
  | case1 s remain hwrite =>
      rw [Io.writeFilePadding, hwrite] at hcall
      cases hcall
  | case2 s remain e s₁ hwrite =>
      rw [Io.writeFilePadding, hwrite] at hcall
      cases hcall
      exact hP.write _ _ _ _ _ _ h hwrite
  | case3 s remain wrote s₁ hwrite hmore ih =>
      rw [Io.writeFilePadding, hwrite] at hcall
      simp only [dif_pos hmore] at hcall
      exact ih (hP.write _ _ _ _ _ _ h hwrite) hcall
  | case4 s remain wrote s₁ hwrite hmore =>
      rw [Io.writeFilePadding, hwrite] at hcall
      simp only [dif_neg hmore] at hcall
      cases hcall
      exact hP.write _ _ _ _ _ _ h hwrite

private theorem Closed.changeSize (h : P s) {junk : Int → Nat → UInt8} {size : Nat} {length : Int}
    (hsize : s.fstatSize fd = some (.ok size))
    (hcall : s.changeSize fd junk size length = some (r, s')) :
    P s' ∨ (length < 0 ∧ r = .ok 0) := by
  unfold Io.changeSize at hcall
  split at hcall
  · obtain ⟨s₂, hseek, hpad⟩ := Option.bind_eq_some_iff.mp hcall
    exact .inl (hP.writeFilePadding (hP.lseekAssert h hseek) hpad)
  · rename_i hle
    rcases memFtruncateSize_cases hcall with ⟨e, -, rfl⟩ | ⟨o, d, ho, hd, hfile, -, rfl, rfl⟩
    · exact .inl h
    · by_cases hneg : length < 0
      · exact .inr ⟨hneg, rfl⟩
      · rw [fstatSize_file ho hd hfile] at hsize
        cases hsize
        have hlen := (hP.sane s h).len_le o.data
        have hsmall := (hP.sane s h).small o.data
        have hcut := MemFile.cut_le (Int.not_lt.mp hneg)
        have hset := hP.shortened s o.data (MemFile.cut length) h (by omega)
        have hnext : length + 1 < 2 ^ 63 := by omega
        apply Or.inl
        split
        · exact hP.offset _ _ _ hset (by omega) hnext
        · exact hset

private theorem Closed.ftruncate (h : P s) {junk : Int → Nat → UInt8} {length : Int}
    (hcall : s.zrtZcallFtruncate fd junk length = some (r, s')) : P s' := by
  rcases ftruncate_eq_some hcall with ⟨e, hseek, -⟩ |
    ⟨savedPos, s₁, size, changed, s₃, hseek, hsize, hchanged, hend⟩
  · exact hP.lseek h hseek
  · have hchange := hP.changeSize (hP.lseek h hseek) hsize hchanged
    rcases hend with ⟨e, rfl, -, rfl⟩ | ⟨res, rfl, hneg, -, rfl⟩ | ⟨res, rfl, hrestore, hlast, -⟩
    · rcases hchange with hs | ⟨-, hr⟩
      · exact hs
      · cases hr
    · rcases hchange with hs | ⟨-, hr⟩
      · exact hs
      · cases hr
        exact absurd hneg (lt_irrefl 0)
    · obtain ⟨n, -, hn⟩ := hlast
      rcases hchange with hs | ⟨hneg, -⟩
      · split at hrestore
        · exact hP.lseekAssert hs hrestore
        · cases hrestore
          exact hs
      · omega

theorem Closed.fileCall (h : P s) {ch : Channels} {c : FileCall}
    (hpread : ∀ fd count offset, c = .pread fd count offset → P s')
    (hpwrite : ∀ fd junk bytes offset, c = .pwrite fd junk bytes offset → P s')
    (hcall : s.fileCall ch c = some (r, s')) : P s' := by
  cases c with
  | memOpen path flags mode => exact hP.memOpen h hcall
  | dup oldfd => exact hP.ofFs h hcall
  | dup2 oldfd newfd => exact hP.ofFs h hcall
  | close fd => exact hP.ofFs h hcall
  | read fd count => exact hP.read _ _ _ _ _ h hcall
  | write fd junk bytes => exact hP.write _ _ _ _ _ _ h hcall
  | pread fd count offset => exact hpread fd count offset rfl
  | pwrite fd junk bytes offset => exact hpwrite fd junk bytes offset rfl
  | lseek fd offset whence => exact hP.enhancedSeek h hcall
  | ftruncate fd junk length => exact hP.ftruncate h hcall
  | names c => exact hP.ofFs h hcall

end Closed

theorem fileStep_sane {ch : Channels} {c : FileCall} (h : s.Sane)
    (hstep : s.fileStep ch c = some s') : s'.Sane := by
  obtain ⟨⟨r, s₁⟩, hcall, rfl⟩ := Option.map_eq_some_iff.mp hstep
  apply closed_sane.fileCall h _ _ hcall
  · rintro fd count offset rfl
    exact h.pread (Int64.toInt_lt offset) hcall
  · rintro fd junk bytes offset rfl
    exact h.pwrite (Int64.toInt_lt offset) hcall

theorem run_sane {ch : Channels} {calls : List FileCall}
    (hrun : runFrom (fileStep ch) start calls = some s) : s.Sane :=
  runFrom_preserves (fun _ _ _ => fileStep_sane) calls start s sane_start hrun

end Io

end Zrt.Fs
