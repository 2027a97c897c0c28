import Mathlib.Logic.Function.Basic
import Zrt.Fs.FileContents
import Zrt.Fs.MemDescriptors

/-!
# Reading and writing through descriptors

The offset of a file is kept in its open file description. `read` and `write` are made of `pread` and
`pwrite` at that offset, and it is these that move it. Only in-memory files are open here.
-/

namespace Zrt.Fs

open Zrt.Framework

/-- The file systems, the offset of every open file description and the data of every file. -/
structure Io where
  fs : FileSystem
  offsets : Nat → Int
  files : Nat → MemFile

inductive Whence where
  | seekSet | seekCur | seekEnd | other
deriving DecidableEq

/-- What is behind a descriptor: the id and the flags of its description, and its data. -/
structure OpenFile where
  id : Nat
  flags : OpenFlags
  data : Nat

/-- The checks of `mm_mount_byhandle` and then of `mnode_by_handle_get_ofd_hentry`. -/
def FileSystem.openFile (fs : FileSystem) (fd : Nat) : Option OpenFile :=
  ((fs.files.handles.entry fd).filter fun item => item.mountFs = .memory).bind fun item =>
    item.openFileDescriptionId.bind fun id =>
      (fs.files.pool.entry (some id)).bind fun ofd =>
        (fs.mem.nodeAt item.inode).map fun node => ⟨id, ofd.flags, node.nodedata⟩

namespace Io

abbrev Reply := Option (Except Errno Int × Io)

def start : Io := ⟨.start, fun _ => 0, fun _ => .empty⟩

def setOffset (s : Io) (id : Nat) (offset : Int) : Io :=
  { s with offsets := Function.update s.offsets id offset }

def setFile (s : Io) (data : Nat) (f : MemFile) : Io :=
  { s with files := Function.update s.files data f }

/-- The new offset is stored whether the call is a `pread` or comes from `read`. -/
def pread (s : Io) (fd count : Nat) (offset : Int) : Reply :=
  match s.fs.openFile fd with
  | none => some (.error .ebadf, s)
  | some o =>
      if o.flags.wronly then some (.error .einval, s)
      else
        (s.fs.mem.getData o.data).bind fun _ =>
          ((s.files o.data).read offset count).map fun r =>
            (.ok r.1, if 0 ≤ r.1 then s.setOffset o.id (offset + r.1) else s)

def pwrite (s : Io) (fd : Nat) (junk : Nat → UInt8) (bytes : List UInt8) (offset : Int) : Reply :=
  match s.fs.openFile fd with
  | none => some (.error .ebadf, s)
  | some o =>
      if o.flags.wronly = o.flags.rdwr then some (.error .einval, s)
      else
        (s.fs.mem.getData o.data).bind fun _ =>
          ((s.files o.data).write junk offset bytes).map fun f =>
            let wrote := Int.bmod bytes.length (2 ^ 32)
            (.ok wrote, if wrote ≠ -1 then (s.setFile o.data f).setOffset o.id (offset + wrote)
              else s.setFile o.data f)

def read (s : Io) (fd count : Nat) : Reply :=
  match s.fs.openFile fd with
  | none => some (.error .ebadf, s)
  | some o => s.pread fd count (s.offsets o.id)

def write (s : Io) (fd : Nat) (junk : Nat → UInt8) (bytes : List UInt8) : Reply :=
  match s.fs.openFile fd with
  | none => some (.error .ebadf, s)
  | some o => s.pwrite fd junk bytes (s.offsets o.id)

/-- The offset asked for, before the check of its sign. -/
def seekTo (s : Io) (o : OpenFile) (offset : Int) : Whence → Option Int
  | .seekSet => some offset
  | .seekCur => some (s.offsets o.id + offset)
  | .seekEnd => some ((s.files o.data).len + offset)
  | .other => none

/-- An offset beyond 63 bits is not an `off_t`. -/
def lseek (s : Io) (fd : Nat) (offset : Int) (whence : Whence) : Reply :=
  match s.fs.openFile fd with
  | none => some (.error .ebadf, s)
  | some o =>
      (s.fs.mem.getData o.data).bind fun d =>
        if d.isDir then some (.error .ebadf, s)
        else
          match s.seekTo o offset whence with
          | none => some (.error .einval, s)
          | some next =>
              if next < 0 then some (.error .einval, s)
              else if 2 ^ 63 ≤ next then none
              else some (.ok next, s.setOffset o.id next)

/-- `getnew_ofd` has reset the offset of the description it found. -/
def renewed (s : Io) (flags : OpenFlags) (fs : FileSystem) : Io :=
  match (s.fs.files.pool.getnewOfd flags).1 with
  | some id => { s with fs := fs }.setOffset id 0
  | none => { s with fs := fs }

def truncate (s : Io) (fd : Nat) : Io :=
  match s.fs.openFile fd with
  | none => s
  | some o => s.setFile o.data ((s.files o.data).setLen 0)

/-- With `O_APPEND` the offset is moved to the end, before the file may be truncated. An error other
than `ENOENT` comes after the description was taken. -/
def memOpen (s : Io) (path : AbsolutePath) (flags : OpenFlags) (mode : Nat) : Reply :=
  (s.fs.memOpen path flags mode).bind fun x =>
    match x.1 with
    | .error e =>
        some (.error e, if e = .enoent then { s with fs := x.2 } else s.renewed flags x.2)
    | .ok fd =>
        (if flags.append then ((s.renewed flags x.2).lseek fd 0 .seekEnd).map Prod.snd
          else some (s.renewed flags x.2)).map fun s' =>
            (.ok fd, if flags.trunc ∧ (flags.rdwr ∨ flags.wronly) then s'.truncate fd else s')

/-- A call that only changes the tables of descriptors. -/
def ofFs (s : Io) (r : FileSystem.Reply) : Reply :=
  r.map fun x => (x.1.map Int.ofNat, { s with fs := x.2 })

end Io

inductive IoCall where
  | memOpen (path : AbsolutePath) (flags : OpenFlags) (mode : Nat)
  | dup (oldfd : Nat)
  | dup2 (oldfd newfd : Nat)
  | close (fd : Nat)
  | read (fd count : Nat)
  | write (fd : Nat) (junk : Nat → UInt8) (bytes : List UInt8)
  | pread (fd count : Nat) (offset : Int)
  | pwrite (fd : Nat) (junk : Nat → UInt8) (bytes : List UInt8) (offset : Int)
  | lseek (fd : Nat) (offset : Int) (whence : Whence)

def Io.call (ch : Channels) (s : Io) : IoCall → Io.Reply
  | .memOpen path flags mode => s.memOpen path flags mode
  | .dup oldfd => s.ofFs (s.fs.dup oldfd)
  | .dup2 oldfd newfd => s.ofFs (FileSystem.dup2 ch s.fs oldfd newfd)
  | .close fd => s.ofFs (FileSystem.close ch s.fs fd)
  | .read fd count => s.read fd count
  | .write fd junk bytes => s.write fd junk bytes
  | .pread fd count offset => s.pread fd count offset
  | .pwrite fd junk bytes offset => s.pwrite fd junk bytes offset
  | .lseek fd offset whence => s.lseek fd offset whence

/-! ## Buffers stay small -/

namespace MemFile

variable {f f' : MemFile}

theorem capacity_store {offset : Int} {bytes : List UInt8} (h : f.store offset bytes = some f') :
    f'.capacity = f.capacity ∧ bytes.length ≤ f.capacity := by
  unfold store at h
  split at h
  · rename_i hroom
    cases h
    rcases hroom with rfl | hroom
    · simp [capacity, Helpers.memcpyAt]
    · refine ⟨Helpers.length_memcpyAt _ _ _ hroom, ?_⟩
      omega
  · cases h

theorem capacity_reallocData {junk : Nat → UInt8} {len : Nat} (h : f.reallocData junk len = some f') :
    f'.capacity < 2 ^ 31 := by
  unfold reallocData at h
  split at h
  · rename_i hlen
    cases h
    simp only [capacity, List.length_append, List.length_take, List.length_map, List.length_range]
    omega
  · cases h

theorem capacity_write (hsmall : f.capacity < 2 ^ 31) {junk : Nat → UInt8} {offset : Int}
    {bytes : List UInt8} (h : f.write junk offset bytes = some f') :
    f'.capacity < 2 ^ 31 ∧ bytes.length < 2 ^ 31 := by
  obtain ⟨grown, hgrown, h⟩ := Option.bind_eq_some_iff.mp h
  obtain ⟨padded, hpadded, h⟩ := Option.bind_eq_some_iff.mp h
  obtain ⟨written, hwritten, rfl⟩ := Option.map_eq_some_iff.mp h
  have hgrow : grown.capacity < 2 ^ 31 := by
    unfold grow at hgrown
    split at hgrown
    · exact capacity_reallocData hgrown
    · cases hgrown
      exact hsmall
  have hpad : padded.capacity = grown.capacity := by
    unfold padGap at hpadded
    split at hpadded
    · exact (capacity_store hpadded).1
    · cases hpadded
      rfl
  obtain ⟨hcap, hlen⟩ := capacity_store hwritten
  have hlast : (if (written.len : Int) < offset + bytes.length then
      { written with len := cut (offset + bytes.length) } else written).capacity =
      written.capacity := by
    split
    · rfl
    · rfl
  omega

end MemFile

theorem MemFile.readLen_bounds (len : Nat) (offset : Int) (count : Nat) :
    -2 ^ 31 ≤ readLen len offset count ∧ readLen len offset count < 2 ^ 31 := by
  unfold readLen
  simp only [Int.bmod_def]
  split_ifs <;> omega

/-- A negative size would be a copy of 2 GiB. -/
theorem MemFile.read_eq_some {f : MemFile} (hsmall : f.capacity < 2 ^ 31) {offset : Int} {count : Nat}
    {r : Int × List UInt8} (h : f.read offset count = some r) :
    r.1 = readLen f.len offset count ∧ 0 ≤ r.1 := by
  have hbounds := readLen_bounds f.len offset count
  unfold read at h
  simp only at h
  split at h
  · rename_i hcopy
    have hfst := congrArg Prod.fst (Option.some.inj h)
    simp only at hfst
    refine ⟨hfst.symm, ?_⟩
    rw [← hfst]
    unfold cut at hcopy
    omega
  · cases h

/-! ## The effect of a call -/

namespace Io

variable {s s' : Io} {fd : Nat} {r : Except Errno Int}

theorem pread_eq_some {count : Nat} {offset : Int} (hcall : s.pread fd count offset = some (r, s')) :
    (∃ e, r = .error e ∧ s' = s) ∨
    ∃ o x, s.fs.openFile fd = some o ∧ o.flags.wronly = false ∧
      (s.files o.data).read offset count = some x ∧ r = .ok x.1 ∧
      s' = if 0 ≤ x.1 then s.setOffset o.id (offset + x.1) else s := by
  unfold pread at hcall
  cases ho : s.fs.openFile fd with
  | none =>
      simp only [ho] at hcall
      cases hcall
      exact .inl ⟨_, rfl, rfl⟩
  | some o =>
      simp only [ho] at hcall
      split at hcall
      · cases hcall
        exact .inl ⟨_, rfl, rfl⟩
      · rename_i hmode
        obtain ⟨d, -, hcall⟩ := Option.bind_eq_some_iff.mp hcall
        obtain ⟨x, hx, heq⟩ := Option.map_eq_some_iff.mp hcall
        cases heq
        exact .inr ⟨o, x, rfl, Bool.eq_false_iff.mpr hmode, hx, rfl, rfl⟩

theorem pread_cases (hsmall : ∀ data, (s.files data).capacity < 2 ^ 31) {count : Nat} {offset : Int}
    (hcall : s.pread fd count offset = some (r, s')) :
    (∃ e, r = .error e ∧ s' = s) ∨
    ∃ o n, s.fs.openFile fd = some o ∧ o.flags.wronly = false ∧
      n = MemFile.readLen (s.files o.data).len offset count ∧ r = .ok n ∧
      s' = s.setOffset o.id (offset + n) := by
  rcases pread_eq_some hcall with herror | ⟨o, x, ho, hmode, hx, hr, hs'⟩
  · exact .inl herror
  · obtain ⟨hlen, hpos⟩ := MemFile.read_eq_some (hsmall o.data) hx
    rw [if_pos hpos] at hs'
    exact .inr ⟨o, x.1, ho, hmode, hlen, hr, hs'⟩

theorem pwrite_eq_some {junk : Nat → UInt8} {bytes : List UInt8} {offset : Int}
    (hcall : s.pwrite fd junk bytes offset = some (r, s')) :
    (∃ e, r = .error e ∧ s' = s) ∨
    ∃ o f, s.fs.openFile fd = some o ∧ o.flags.wronly ≠ o.flags.rdwr ∧
      (s.files o.data).write junk offset bytes = some f ∧
      r = .ok (Int.bmod bytes.length (2 ^ 32)) ∧
      s' = if Int.bmod bytes.length (2 ^ 32) ≠ -1 then
          (s.setFile o.data f).setOffset o.id (offset + Int.bmod bytes.length (2 ^ 32))
        else s.setFile o.data f := by
  unfold pwrite at hcall
  cases ho : s.fs.openFile fd with
  | none =>
      simp only [ho] at hcall
      cases hcall
      exact .inl ⟨_, rfl, rfl⟩
  | some o =>
      simp only [ho] at hcall
      split at hcall
      · cases hcall
        exact .inl ⟨_, rfl, rfl⟩
      · rename_i hmode
        obtain ⟨d, -, hcall⟩ := Option.bind_eq_some_iff.mp hcall
        obtain ⟨f, hf, heq⟩ := Option.map_eq_some_iff.mp hcall
        cases heq
        exact .inr ⟨o, f, rfl, hmode, hf, rfl, rfl⟩

theorem pwrite_written (hsmall : ∀ data, (s.files data).capacity < 2 ^ 31) {junk : Nat → UInt8}
    {bytes : List UInt8} {offset : Int} (hcall : s.pwrite fd junk bytes offset = some (r, s')) :
    (∃ e, r = .error e ∧ s' = s) ∨
    ∃ o f, s.fs.openFile fd = some o ∧ o.flags.wronly ≠ o.flags.rdwr ∧
      (s.files o.data).write junk offset bytes = some f ∧ r = .ok bytes.length ∧
      s' = (s.setFile o.data f).setOffset o.id (offset + bytes.length) := by
  rcases pwrite_eq_some hcall with herror | ⟨o, f, ho, hmode, hf, hr, hs'⟩
  · exact .inl herror
  · have hlen := (MemFile.capacity_write (hsmall o.data) hf).2
    have hwrote : Int.bmod bytes.length (2 ^ 32) = bytes.length := by
      rw [Int.bmod_def]
      split <;> omega
    rw [hwrote] at hr hs'
    rw [if_pos (by omega)] at hs'
    exact .inr ⟨o, f, ho, hmode, hf, hr, hs'⟩

theorem pwrite_cases (hsmall : ∀ data, (s.files data).capacity < 2 ^ 31) {junk : Nat → UInt8}
    {bytes : List UInt8} {offset : Int} (hcall : s.pwrite fd junk bytes offset = some (r, s')) :
    (∃ e, r = .error e ∧ s' = s) ∨
    ∃ o f, s.fs.openFile fd = some o ∧ o.flags.wronly ≠ o.flags.rdwr ∧ f.capacity < 2 ^ 31 ∧
      r = .ok bytes.length ∧ s' = (s.setFile o.data f).setOffset o.id (offset + bytes.length) := by
  rcases pwrite_written hsmall hcall with herror | ⟨o, f, ho, hmode, hf, hr, hs'⟩
  · exact .inl herror
  · exact .inr ⟨o, f, ho, hmode, (MemFile.capacity_write (hsmall o.data) hf).1, hr, hs'⟩

theorem lseek_cases {offset : Int} {whence : Whence}
    (hcall : s.lseek fd offset whence = some (r, s')) :
    (∃ e, r = .error e ∧ s' = s) ∨
    ∃ o p, s.fs.openFile fd = some o ∧ s.seekTo o offset whence = some p ∧ r = .ok p ∧
      s' = s.setOffset o.id p := by
  unfold lseek at hcall
  cases ho : s.fs.openFile fd with
  | none =>
      simp only [ho] at hcall
      cases hcall
      exact .inl ⟨_, rfl, rfl⟩
  | some o =>
      simp only [ho] at hcall
      obtain ⟨d, -, hcall⟩ := Option.bind_eq_some_iff.mp hcall
      split at hcall
      · cases hcall
        exact .inl ⟨_, rfl, rfl⟩
      · split at hcall
        · cases hcall
          exact .inl ⟨_, rfl, rfl⟩
        · rename_i next hnext
          split at hcall
          · cases hcall
            exact .inl ⟨_, rfl, rfl⟩
          · split at hcall
            · cases hcall
            · cases hcall
              exact .inr ⟨o, next, rfl, hnext, rfl, rfl⟩

theorem files_truncate (s : Io) (fd data : Nat) :
    ((s.truncate fd).files data).capacity = (s.files data).capacity := by
  unfold truncate
  split
  · rfl
  · rename_i o ho
    by_cases hd : data = o.data
    · subst hd
      simp only [setFile, Function.update_self]
      rfl
    · simp only [setFile, Function.update_of_ne hd]

theorem offsets_truncate (s : Io) (fd : Nat) :
    (s.truncate fd).offsets = s.offsets ∧ (s.truncate fd).fs = s.fs := by
  unfold truncate
  split
  · exact ⟨rfl, rfl⟩
  · exact ⟨rfl, rfl⟩

end Io

end Zrt.Fs
