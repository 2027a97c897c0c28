import Zrt.Fs.Ftruncate

/-!
# Accesses to the data of files

`Read` and `Write` compute with 64-bit offsets, 32-bit sizes and pointers of 32 bits. What they touch is
within the buffer as long as no size or address is cut into something else; negative offsets and lengths
are not refused on the way.
-/

namespace Zrt.Fs

open Zrt.Framework

/-- Bytes of the data that a `memcpy` or `memset` touches, and the size of the buffer. -/
structure Access where
  start : Nat
  count : Nat
  capacity : Nat
deriving DecidableEq

/-- Every byte has an index below the capacity. -/
def Access.InBounds (a : Access) : Prop := a.count = 0 ∨ a.start + a.count ≤ a.capacity

instance (a : Access) : Decidable a.InBounds := inferInstanceAs (Decidable (_ ∨ _))

namespace MemFile

variable {f f' : MemFile}

def readAccess (f : MemFile) (offset : Int) (count : Nat) : Access :=
  ⟨MemFile.cut offset, MemFile.cut (readLen f.len offset count), f.capacity⟩

/-- The padding and the block, in the buffer after the growth. -/
def writeAccesses (f : MemFile) (junk : Nat → UInt8) (offset : Int) (bytes : List UInt8) :
    List Access :=
  match f.grow junk offset bytes.length with
  | none => []
  | some grown =>
      (if (grown.len : Int) < offset then
        [⟨grown.len, MemFile.cut (offset - grown.len), grown.capacity⟩] else []) ++
        [⟨MemFile.cut offset, bytes.length, grown.capacity⟩]

/-- The count is positive as a `ssize_t`, or the end is farther away still; and the distance of an offset
from the end is not cut into something positive. -/
def ReadFits (f : MemFile) (offset : Int) (count : Nat) : Prop :=
  (count < 2 ^ 31 ∨ (f.len : Int) + 2 ^ 32 < offset + count) ∧ cut offset ≤ f.len + 2 ^ 31

/-- The size that a larger buffer gets. -/
def growSize (f : MemFile) (offset : Int) (count : Nat) : Nat :=
  max (cut (offset + count)) ((f.capacity + 1) * 2 % 2 ^ 32)

/-- A larger buffer is needed, and an assertion fails on it. -/
def NoMemory (f : MemFile) (offset : Int) (count : Nat) : Prop :=
  (f.capacity : Int) < offset + count ∧ ¬(0 < f.growSize offset count ∧ f.growSize offset count < 2 ^ 31)

/-- The block ends below 4 GiB as it is addressed, and so does the gap in front of it; or there is no
memory to write to. -/
def WriteFits (f : MemFile) (offset : Int) (count : Nat) : Prop :=
  f.NoMemory offset count ∨
    (cut offset + count < 2 ^ 32 ∧ (offset < 2 ^ 32 ∨ f.len ≤ cut offset))

instance (f : MemFile) (offset : Int) (count : Nat) : Decidable (f.ReadFits offset count) :=
  inferInstanceAs (Decidable (_ ∧ _))

instance (f : MemFile) (offset : Int) (count : Nat) : Decidable (f.NoMemory offset count) :=
  inferInstanceAs (Decidable (_ ∧ _))

instance (f : MemFile) (offset : Int) (count : Nat) : Decidable (f.WriteFits offset count) :=
  inferInstanceAs (Decidable (_ ∨ _))

private theorem readLen_cases {len count : Nat} {offset : Int} (hlen : len < 2 ^ 31) (hoffset : 0 ≤ offset)
    (hcount : count < 2 ^ 32) :
    (2 ^ 31 ≤ count ∧ offset + count ≤ len + 2 ^ 32 ∧ readLen len offset count = count - 2 ^ 32) ∨
    (count < 2 ^ 31 ∧ offset + count ≤ len ∧ readLen len offset count = count) ∨
    ((count < 2 ^ 31 ∨ len + 2 ^ 32 < offset + count) ∧ len < offset + count ∧
      readLen len offset count = max 0 (Int.bmod (len - offset) (2 ^ 32))) := by
  have hbmod : Int.bmod count (2 ^ 32) = if count < 2 ^ 31 then (count : Int) else count - 2 ^ 32 := by
    rw [Int.bmod_def]
    split_ifs <;> omega
  unfold readLen
  generalize Int.bmod (len - offset) (2 ^ 32) = rest
  rw [hbmod]
  split_ifs <;> omega

private theorem bmod_sub_cases (len : Nat) (offset : Int) :
    -2 ^ 31 ≤ Int.bmod (len - offset) (2 ^ 32) ∧ Int.bmod (len - offset) (2 ^ 32) < 2 ^ 31 ∧
      ∃ k : Int, len - offset = Int.bmod (len - offset) (2 ^ 32) + 2 ^ 32 * k := by
  rw [Int.bmod_def]
  split_ifs
  · exact ⟨by omega, by omega, (len - offset) / 2 ^ 32, by omega⟩
  · exact ⟨by omega, by omega, (len - offset) / 2 ^ 32 + 1, by omega⟩

private theorem readAccess_inBounds_iff (hlen : f.len ≤ f.capacity) (hcap : f.capacity < 2 ^ 31)
    {offset : Int} (hoffset : 0 ≤ offset) {count : Nat} (hcount : count < 2 ^ 32) :
    (f.readAccess offset count).InBounds ↔ f.ReadFits offset count := by
  have hcases := readLen_cases (by omega : f.len < 2 ^ 31) hoffset hcount
  unfold Access.InBounds ReadFits readAccess
  simp only
  rcases hcases with ⟨hneg, hend, hread⟩ | ⟨hcount, hend, hread⟩ | ⟨hnear, hend, hread⟩
  · have hcut : cut (readLen f.len offset count) = count := by
      rw [hread, cut]
      omega
    rw [hcut]
    constructor
    · omega
    · omega
  · have hcut : cut (readLen f.len offset count) = count := by
      rw [hread, cut]
      omega
    have hoff := cut_le hoffset
    rw [hcut]
    constructor
    · omega
    · omega
  · obtain ⟨hlow, hhigh, k, hk⟩ := bmod_sub_cases f.len offset
    rw [hread]
    generalize Int.bmod (f.len - offset) (2 ^ 32) = rest at hlow hhigh hk
    have hcut : cut (max 0 rest) = (max 0 rest).toNat := by
      rw [cut]
      omega
    rw [hcut, cut]
    constructor
    · omega
    · omega

private theorem grow_eq_none_iff (junk : Nat → UInt8) {offset : Int} {count : Nat} :
    f.grow junk offset count = none ↔ f.NoMemory offset count := by
  simp only [grow, reallocData, NoMemory, growSize]
  split_ifs <;> simp_all

private theorem grow_capacity {junk : Nat → UInt8} {offset : Int} {count : Nat}
    (h : f.grow junk offset count = some f') :
    f'.len = f.len ∧ f'.capacity =
      if (f.capacity : Int) < offset + count then f.growSize offset count else f.capacity := by
  unfold grow at h
  split at h
  · rename_i hsmall
    unfold reallocData at h
    split at h
    · cases h
      rw [if_pos hsmall]
      refine ⟨rfl, ?_⟩
      simp only [capacity, growSize, List.length_append, List.length_take, List.length_map,
        List.length_range]
      omega
    · cases h
  · rename_i hlarge
    cases h
    rw [if_neg hlarge]
    exact ⟨rfl, rfl⟩

theorem writeAccesses_inBounds_iff (hlen : f.len ≤ f.capacity) (hcap : f.capacity < 2 ^ 31)
    (junk : Nat → UInt8) {offset : Int} (hoffset : 0 ≤ offset) (bytes : List UInt8) :
    (∀ a ∈ f.writeAccesses junk offset bytes, a.InBounds) ↔ f.WriteFits offset bytes.length := by
  unfold writeAccesses
  cases hgrow : f.grow junk offset bytes.length with
  | none =>
      have hnone := (grow_eq_none_iff junk).mp hgrow
      exact iff_of_true (fun a ha => absurd ha List.not_mem_nil) (.inl hnone)
  | some grown =>
      have hmemory : ¬f.NoMemory offset bytes.length := by
        intro hnone
        rw [(grow_eq_none_iff junk).mpr hnone] at hgrow
        cases hgrow
      obtain ⟨hglen, hgcap⟩ := grow_capacity hgrow
      have hoff := cut_le hoffset
      have hsize : ((f.capacity : Int) < offset + bytes.length ∧
          grown.capacity = f.growSize offset bytes.length ∧ grown.capacity < 2 ^ 31 ∧
          cut (offset + bytes.length) ≤ grown.capacity) ∨
          (offset + bytes.length ≤ f.capacity ∧ grown.capacity = f.capacity) := by
        split at hgcap
        · rename_i hsmall
          have hfits : f.growSize offset bytes.length < 2 ^ 31 := by
            by_contra hlarge
            exact hmemory ⟨hsmall, fun h => hlarge h.2⟩
          refine .inl ⟨hsmall, hgcap, by omega, ?_⟩
          rw [hgcap, growSize]
          exact Nat.le_max_left _ _
        · exact .inr ⟨by omega, hgcap⟩
      rw [WriteFits, or_iff_right hmemory]
      simp only [hglen]
      by_cases hgap : (f.len : Int) < offset
      · simp only [hgap, if_true, List.cons_append, List.nil_append, List.forall_mem_cons,
          List.not_mem_nil, false_imp_iff, implies_true, and_true, Access.InBounds]
        unfold cut at hsize hoff ⊢
        rcases hsize with ⟨hlarge, -, hbelow, hcut⟩ | ⟨hsmall, hsame⟩
        · constructor
          · omega
          · omega
        · constructor
          · omega
          · omega
      · simp only [hgap, if_false, List.nil_append, List.forall_mem_cons, List.not_mem_nil,
          false_imp_iff, implies_true, and_true, Access.InBounds]
        unfold cut at hsize hoff ⊢
        omega

private theorem store_isSome_iff (f : MemFile) (offset : Int) (bytes : List UInt8) :
    (f.store offset bytes).isSome ↔ bytes = [] ∨ cut offset + bytes.length ≤ f.capacity := by
  unfold store
  split
  · rename_i h
    exact iff_of_true rfl h
  · rename_i h
    exact iff_of_false Bool.false_ne_true h

end MemFile

/-! ## Calls -/

namespace Io

variable {s s' : Io} {fd : Nat} {o : OpenFile}

/-- What a `pread` touches. -/
def preadAccesses (s : Io) (fd count : Nat) (offset : Int) : List Access :=
  match s.fs.openFile fd with
  | none => []
  | some o => if o.flags.wronly then [] else [(s.files o.data).readAccess offset count]

/-- What a `pwrite` touches. -/
def pwriteAccesses (s : Io) (fd : Nat) (junk : Nat → UInt8) (bytes : List UInt8) (offset : Int) :
    List Access :=
  match s.fs.openFile fd with
  | none => []
  | some o =>
      if o.flags.wronly = o.flags.rdwr then [] else (s.files o.data).writeAccesses junk offset bytes

def readAccesses (s : Io) (fd count : Nat) : List Access :=
  match s.fs.openFile fd with
  | none => []
  | some o => s.preadAccesses fd count (s.offsets o.id)

def writeAccesses (s : Io) (fd : Nat) (junk : Nat → UInt8) (bytes : List UInt8) : List Access :=
  match s.fs.openFile fd with
  | none => []
  | some o => s.pwriteAccesses fd junk bytes (s.offsets o.id)

/-- The states in which the padding writes its blocks, and what remains to be written then. -/
def paddingTrace (s : Io) (fd : Nat) (junk : Int → Nat → UInt8) (remain : Int) : List (Io × Int) :=
  (s, remain) ::
    match s.write fd (junk remain) (paddingBlock remain) with
    | some (.ok wrote, s') =>
        if _h : 0 < wrote ∧ 0 < remain - wrote then paddingTrace s' fd junk (remain - wrote) else []
    | _ => []
termination_by remain.toNat

/-- The writes of a truncation. -/
def ftruncateTrace (s : Io) (fd : Nat) (junk : Int → Nat → UInt8) (length : Int) : List (Io × Int) :=
  match s.lseek fd 0 .seekCur with
  | some (.ok _, s₁) =>
      match s₁.fstatSize fd with
      | some (.ok size) =>
          if (size : Int) < length then
            match s₁.lseekAssert fd size with
            | some s₂ => s₂.paddingTrace fd junk (length - size)
            | none => []
          else []
      | _ => []
  | _ => []

def accesses (s : Io) : FileCall → List Access
  | .read fd count => s.readAccesses fd count.toNat
  | .write fd junk bytes => s.writeAccesses fd junk bytes
  | .pread fd count offset => s.preadAccesses fd count.toNat offset.toInt
  | .pwrite fd junk bytes offset => s.pwriteAccesses fd junk bytes offset.toInt
  | .ftruncate fd junk length => (s.ftruncateTrace fd junk length.toInt).flatMap fun x =>
      x.1.writeAccesses fd (junk x.2) (paddingBlock x.2)
  | .memOpen _ _ _ | .dup _ | .dup2 _ _ | .close _ | .lseek _ _ _ | .names _ => []

/-- The states that a call passes through, from one access to the next. -/
def between (s : Io) : FileCall → List Io
  | .ftruncate fd junk length => (s.ftruncateTrace fd junk length.toInt).map Prod.fst
  | _ => []

/-- The call is about a position before the beginning of the file, or a negative length. -/
def Negative (s : Io) : FileCall → Prop
  | .pread _ _ offset => offset.toInt < 0
  | .pwrite _ _ _ offset => offset.toInt < 0
  | .lseek fd offset whence =>
      ∃ o pos, s.fs.openFile fd = some o ∧ s.seekTo o offset.toInt whence = some pos ∧ pos < 0
  | .ftruncate _ _ length => length.toInt < 0
  | _ => False

def LensFit (s : Io) : Prop := ∀ data, (s.files data).len ≤ (s.files data).capacity

/-- The call stays within the buffers, leaves every length within its buffer and is refused, with the
files unchanged, if it is about something negative. -/
structure Safe (ch : Channels) (s : Io) (c : FileCall) : Prop where
  inBounds : ∀ a ∈ s.accesses c, a.InBounds
  between : ∀ t ∈ s.between c, t.LensFit
  after : ∀ r t, s.fileCall ch c = some (r, t) → t.LensFit
  refused : s.Negative c → ∃ e t, s.fileCall ch c = some (.error e, t) ∧ t.files = s.files

/-- The arguments and the offset for which the code keeps to its buffers. -/
def InRange (s : Io) : FileCall → Prop
  | .read fd count => ∀ o, s.fs.openFile fd = some o → o.flags.wronly = false →
      (s.files o.data).ReadFits (s.offsets o.id) count.toNat
  | .write fd _ bytes => ∀ o, s.fs.openFile fd = some o → o.flags.wronly ≠ o.flags.rdwr →
      (s.files o.data).WriteFits (s.offsets o.id) bytes.length
  | .pread fd count offset => ∀ o, s.fs.openFile fd = some o → o.flags.wronly = false →
      0 ≤ offset.toInt ∧ (s.files o.data).ReadFits offset.toInt count.toNat
  | .pwrite fd _ bytes offset => ∀ o, s.fs.openFile fd = some o → o.flags.wronly ≠ o.flags.rdwr →
      0 ≤ offset.toInt ∧ (s.files o.data).WriteFits offset.toInt bytes.length
  | .lseek fd offset whence => whence ≠ .seekSet → ∀ o pos, s.fs.openFile fd = some o →
      s.seekTo o offset.toInt whence = some pos → pos < 0 → (s.fs.mem.getData o.data).isSome
  | .ftruncate fd _ length => length.toInt < 0 → ∀ o, s.fs.openFile fd = some o →
      ∃ d ∈ s.fs.mem.getData o.data, d.isDir = true ∨ o.flags.wronly = o.flags.rdwr
  | _ => True

/-! ## Offsets that are not negative -/

structure Orderly (s : Io) : Prop extends s.Sane where
  nonneg : ∀ id, 0 ≤ s.offsets id

private theorem Orderly.setOffset (h : s.Orderly) (id : Nat) {offset : Int} (hpos : 0 ≤ offset)
    (hlt : offset < 2 ^ 63) : (s.setOffset id offset).Orderly where
  toSane := h.toSane.setOffset id hlt
  nonneg := by
    intro k
    by_cases hk : k = id
    · subst hk
      simpa [Io.setOffset] using hpos
    · simpa [Io.setOffset, hk] using h.nonneg k

theorem Orderly.of_offset (h : s.Orderly) (hs' : s'.Sane) {id : Nat} {offset : Int}
    (hpos : 0 ≤ offset) (hoffsets : s'.offsets = Function.update s.offsets id offset) :
    s'.Orderly where
  toSane := hs'
  nonneg := by
    intro k
    rw [hoffsets]
    by_cases hk : k = id
    · subst hk
      simpa using hpos
    · simpa [hk] using h.nonneg k

theorem Orderly.pread (h : s.Orderly) {count : Nat} {offset : Int} {r : Except Errno Int}
    (hpos : 0 ≤ offset) (hlt : offset < 2 ^ 63)
    (hcall : s.pread fd count offset = some (r, s')) : s'.Orderly := by
  have hs' := h.toSane.pread hlt hcall
  rcases pread_eq_some hcall with ⟨e, -, rfl⟩ | ⟨o, x, -, -, hx, -, rfl⟩
  · exact h
  · have hread := (MemFile.read_eq_some (h.small o.data) hx).2
    rw [if_pos hread] at hs' ⊢
    exact h.of_offset hs' (Int.add_nonneg hpos hread) rfl

theorem Orderly.pwrite (h : s.Orderly) {junk : Nat → UInt8} {bytes : List UInt8} {offset : Int}
    {r : Except Errno Int} (hpos : 0 ≤ offset) (hlt : offset < 2 ^ 63)
    (hcall : s.pwrite fd junk bytes offset = some (r, s')) : s'.Orderly := by
  have hs' := h.toSane.pwrite hlt hcall
  rcases pwrite_written h.small hcall with ⟨e, -, rfl⟩ | ⟨o, f, -, -, -, -, rfl⟩
  · exact h
  · exact h.of_offset hs' (by omega) rfl

private theorem closed_orderly : Closed Orderly where
  sane := fun _ h => h.toSane
  fs := fun _ fs h => ⟨h.toSane.of_fs fs, h.nonneg⟩
  offset := fun _ id _ h hpos hlt => h.setOffset id hpos hlt
  shortened := fun s data length h hle => ⟨closed_sane.shortened s data length h.toSane hle, h.nonneg⟩
  read := by
    intro s fd count r t h hcall
    unfold Io.read at hcall
    split at hcall
    · cases hcall
      exact h
    · exact h.pread (h.nonneg _) (h.offset_lt _) hcall
  write := by
    intro s fd junk bytes r t h hcall
    unfold Io.write at hcall
    split at hcall
    · cases hcall
      exact h
    · exact h.pwrite (h.nonneg _) (h.offset_lt _) hcall

private theorem orderly_start : start.Orderly := ⟨sane_start, fun _ => le_rfl⟩

private theorem fileStep_orderly {ch : Channels} {c : FileCall} (h : s.Orderly) (hc : s.InRange c)
    (hstep : s.fileStep ch c = some s') : s'.Orderly := by
  obtain ⟨⟨r, s₁⟩, hcall, rfl⟩ := Option.map_eq_some_iff.mp hstep
  apply closed_orderly.fileCall h _ _ hcall
  · rintro fd count offset rfl
    rcases pread_eq_some hcall with ⟨e, -, hsame⟩ | ⟨o, x, ho, hmode, -⟩
    · rw [hsame]
      exact h
    · exact h.pread (hc o ho hmode).1 (Int64.toInt_lt offset) hcall
  · rintro fd junk bytes offset rfl
    rcases pwrite_eq_some hcall with ⟨e, -, hsame⟩ | ⟨o, f, ho, hmode, -⟩
    · rw [hsame]
      exact h
    · exact h.pwrite (hc o ho hmode).1 (Int64.toInt_lt offset) hcall

/-! ## Truncations -/

theorem lseek_ok {offset p : Int} {whence : Whence}
    (hcall : s.lseek fd offset whence = some (.ok p, s')) :
    ∃ o d, s.fs.openFile fd = some o ∧ s.fs.mem.getData o.data = some d ∧ d.isDir = false ∧
      s' = s.setOffset o.id p := by
  rcases lseek_cases hcall with ⟨e, he, -⟩ | ⟨o, q, ho, -, hq, hs'⟩
  · cases he
  · cases hq
    simp only [lseek, ho] at hcall
    obtain ⟨d, hd, hcall⟩ := Option.bind_eq_some_iff.mp hcall
    split at hcall
    · cases hcall
    · rename_i hdir
      exact ⟨o, d, ho, hd, Bool.eq_false_iff.mpr hdir, hs'⟩

private theorem lseekAssert_eq_some {pos : Int} (hcall : s.lseekAssert fd pos = some s') :
    ∃ o, s.fs.openFile fd = some o ∧ s' = s.setOffset o.id pos := by
  obtain ⟨⟨r, s₁⟩, hseek, hcall⟩ := Option.bind_eq_some_iff.mp hcall
  cases r with
  | error e => cases hcall
  | ok p =>
      simp only at hcall
      split at hcall
      · rename_i heq
        cases hcall
        obtain ⟨o, d, ho, -, -, hs'⟩ := lseek_ok hseek
        exact ⟨o, ho, heq ▸ hs'⟩
      · cases hcall

/-- The offset of the descriptor is at the end of its file. -/
def Ends (s : Io) (fd : Nat) : Prop :=
  ∀ o, s.fs.openFile fd = some o → s.offsets o.id = (s.files o.data).len

private theorem ftruncateTrace_cases (h : s.Sane) (fd : Nat) (junk : Int → Nat → UInt8) (length : Int) :
    s.ftruncateTrace fd junk length = [] ∨ ∃ (s₂ : Io) (remain : Int),
      s.ftruncateTrace fd junk length = s₂.paddingTrace fd junk remain ∧ s₂.Sane ∧ s₂.Ends fd := by
  unfold ftruncateTrace
  split
  · rename_i p s₁ htell
    split
    · rename_i size hsize
      split
      · split
        · rename_i s₂ hsought
          refine .inr ⟨s₂, _, rfl, closed_sane.lseekAssert (closed_sane.lseek h htell) hsought, ?_⟩
          obtain ⟨o, d, ho, hd, hfile, rfl⟩ := lseek_ok htell
          have hstat : (s.setOffset o.id p).fstatSize fd = some (.ok (s.files o.data).len) :=
            fstatSize_file ho hd hfile
          rw [hstat] at hsize
          cases hsize
          obtain ⟨o₂, ho₂, rfl⟩ := lseekAssert_eq_some hsought
          intro o₃ ho₃
          have hsame : o₃ = o := Option.some.inj (ho₃.symm.trans ho)
          have hsame₂ : o₂ = o := Option.some.inj (ho₂.symm.trans ho)
          subst hsame hsame₂
          exact Function.update_self ..
        · exact .inl rfl
      · exact .inl rfl
    · exact .inl rfl
  · exact .inl rfl

private theorem Ends.write (hend : s.Ends fd) (h : s.Sane) {junk : Nat → UInt8} {bytes : List UInt8} {n : Int}
    (hcall : s.write fd junk bytes = some (.ok n, s')) : s'.Ends fd := by
  unfold Io.write at hcall
  split at hcall
  · cases hcall
  · rename_i o ho
    rcases pwrite_written h.small hcall with ⟨e, he, -⟩ | ⟨o₁, f, ho₁, -, hf, -, rfl⟩
    · cases he
    · rw [ho] at ho₁
      cases ho₁
      have hat := hend o ho
      have hlen := h.len_le o.data
      have hcap := h.small o.data
      rw [hat] at hf
      have hflen := (MemFile.write_end hlen hcap le_rfl (MemFile.cut_natCast (by omega)) hf).2
      intro o₂ ho₂
      have hsame : o₂ = o := Option.some.inj (ho₂.symm.trans ho)
      subst hsame
      simp [Io.setOffset, Io.setFile, hat, hflen]

private theorem length_paddingBlock (remain : Int) : (paddingBlock remain).length ≤ 0x10000 := by
  simp only [paddingBlock, paddingSize, List.length_replicate]
  omega

private theorem Ends.inBounds (hend : s.Ends fd) (h : s.Sane) (junk : Nat → UInt8) (remain : Int) :
    ∀ a ∈ s.writeAccesses fd junk (paddingBlock remain), a.InBounds := by
  cases ho : s.fs.openFile fd with
  | none => simp [writeAccesses, ho]
  | some o =>
      by_cases hmode : o.flags.wronly = o.flags.rdwr
      · simp [writeAccesses, pwriteAccesses, ho, hmode]
      · simp only [writeAccesses, pwriteAccesses, ho, if_neg hmode, hend o ho]
        have hlen := h.len_le o.data
        have hcap := h.small o.data
        have hblock := length_paddingBlock remain
        rw [MemFile.writeAccesses_inBounds_iff hlen hcap junk (Int.natCast_nonneg _)]
        apply Or.inr
        rw [MemFile.cut_natCast (by omega)]
        omega

private theorem paddingTrace_ends (junk : Int → Nat → UInt8) (remain : Int) (h : s.Sane)
    (hend : s.Ends fd) : ∀ x ∈ s.paddingTrace fd junk remain, x.1.Sane ∧ x.1.Ends fd := by
  induction s, remain using paddingTrace.induct with
  | case1 s remain ih =>
      rw [paddingTrace, List.forall_mem_cons]
      refine ⟨⟨h, hend⟩, ?_⟩
      split
      · rename_i wrote s₁ hwrite
        split
        · rename_i hmore
          exact ih wrote s₁ hmore (h.write hwrite) (hend.write h hwrite)
        · exact fun x hx => absurd hx List.not_mem_nil
      · exact fun x hx => absurd hx List.not_mem_nil

theorem ftruncateTrace_ends (h : s.Sane) (junk : Int → Nat → UInt8) (length : Int) :
    ∀ x ∈ s.ftruncateTrace fd junk length, x.1.Sane ∧ x.1.Ends fd := by
  rcases ftruncateTrace_cases h fd junk length with hnil | ⟨s₂, remain, htrace, hs₂, hend⟩
  · rw [hnil]
    exact fun x hx => absurd hx List.not_mem_nil
  · rw [htrace]
    exact paddingTrace_ends junk remain hs₂ hend

/-! ## Refusals -/

theorem preadAccesses_inBounds_iff (fd : Nat) (h : s.Sane) {offset : Int} (hpos : 0 ≤ offset)
    (count : UInt32) :
    (∀ a ∈ s.preadAccesses fd count.toNat offset, a.InBounds) ↔
      ∀ o, s.fs.openFile fd = some o → o.flags.wronly = false →
        (s.files o.data).ReadFits offset count.toNat := by
  unfold preadAccesses
  cases ho : s.fs.openFile fd with
  | none => simp
  | some o =>
      have hiff := MemFile.readAccess_inBounds_iff (h.len_le o.data) (h.small o.data) hpos
        count.toNat_lt
      cases hmode : o.flags.wronly <;> simp [hmode, hiff]

theorem pwriteAccesses_inBounds_iff (fd : Nat) (h : s.Sane) {offset : Int} (hpos : 0 ≤ offset)
    (junk : Nat → UInt8) (bytes : List UInt8) :
    (∀ a ∈ s.pwriteAccesses fd junk bytes offset, a.InBounds) ↔
      ∀ o, s.fs.openFile fd = some o → o.flags.wronly ≠ o.flags.rdwr →
        (s.files o.data).WriteFits offset bytes.length := by
  unfold pwriteAccesses
  cases ho : s.fs.openFile fd with
  | none => simp
  | some o =>
      have hiff := MemFile.writeAccesses_inBounds_iff (h.len_le o.data) (h.small o.data) junk hpos
        bytes
      by_cases hmode : o.flags.wronly = o.flags.rdwr
      · simp [hmode]
      · simpa [hmode] using hiff

private theorem pread_refused_iff (count : Nat) (offset : Int) :
    (∃ e t, s.pread fd count offset = some (.error e, t) ∧ t.files = s.files) ↔
      ∀ o, s.fs.openFile fd = some o → o.flags.wronly = true := by
  unfold pread
  cases ho : s.fs.openFile fd with
  | none =>
      apply iff_of_true
      · exact ⟨.ebadf, s, rfl, rfl⟩
      · intro o h
        cases h
  | some o =>
      cases hmode : o.flags.wronly with
      | true =>
          apply iff_of_true
          · exact ⟨.einval, s, by simp [hmode], rfl⟩
          · intro o' h
            cases h
            exact hmode
      | false =>
          apply iff_of_false
          · rintro ⟨e, t, hcall, -⟩
            simp only [hmode, Bool.false_eq_true, if_false] at hcall
            obtain ⟨d, -, hcall⟩ := Option.bind_eq_some_iff.mp hcall
            obtain ⟨x, -, heq⟩ := Option.map_eq_some_iff.mp hcall
            cases heq
          · intro h
            rw [h o rfl] at hmode
            cases hmode

private theorem pwrite_refused_iff (junk : Nat → UInt8) (bytes : List UInt8) (offset : Int) :
    (∃ e t, s.pwrite fd junk bytes offset = some (.error e, t) ∧ t.files = s.files) ↔
      ∀ o, s.fs.openFile fd = some o → o.flags.wronly = o.flags.rdwr := by
  unfold pwrite
  cases ho : s.fs.openFile fd with
  | none =>
      apply iff_of_true
      · exact ⟨.ebadf, s, rfl, rfl⟩
      · intro o h
        cases h
  | some o =>
      by_cases hmode : o.flags.wronly = o.flags.rdwr
      · apply iff_of_true
        · exact ⟨.einval, s, by simp [hmode], rfl⟩
        · intro o' h
          cases h
          exact hmode
      · apply iff_of_false
        · rintro ⟨e, t, hcall, -⟩
          simp only [if_neg hmode] at hcall
          obtain ⟨d, -, hcall⟩ := Option.bind_eq_some_iff.mp hcall
          obtain ⟨f, -, heq⟩ := Option.map_eq_some_iff.mp hcall
          cases heq
        · intro h
          exact hmode (h o rfl)

theorem offset_safe_iff {Used Fits : OpenFile → Prop} {bounded : Prop} {offset : Int}
    (hunused : (∀ o, ¬Used o) → bounded)
    (hfits : 0 ≤ offset → (bounded ↔ ∀ o, Used o → Fits o)) :
    (bounded ∧ (offset < 0 → ∀ o, ¬Used o)) ↔ ∀ o, Used o → 0 ≤ offset ∧ Fits o := by
  by_cases hneg : offset < 0
  · constructor
    · intro hsafe o hused
      exact absurd hused (hsafe.2 hneg o)
    · intro hrange
      have hnone : ∀ o, ¬Used o := by
        intro o hused
        have hpos := (hrange o hused).1
        omega
      exact ⟨hunused hnone, fun _ => hnone⟩
  · have hpos := Int.not_lt.mp hneg
    rw [hfits hpos]
    simp only [hneg, false_imp_iff, and_true, hpos, true_and]

private theorem pread_safe_iff (fd : Nat) (h : s.Sane) (count : UInt32) (offset : Int) :
    ((∀ a ∈ s.preadAccesses fd count.toNat offset, a.InBounds) ∧
      (offset < 0 → ∀ o, s.fs.openFile fd = some o → o.flags.wronly = true)) ↔
    ∀ o, s.fs.openFile fd = some o → o.flags.wronly = false →
      0 ≤ offset ∧ (s.files o.data).ReadFits offset count.toNat := by
  have hunused : (∀ o, ¬(s.fs.openFile fd = some o ∧ o.flags.wronly = false)) →
      ∀ a ∈ s.preadAccesses fd count.toNat offset, a.InBounds := by
    intro hnone
    unfold preadAccesses
    cases ho : s.fs.openFile fd with
    | none => simp
    | some o =>
        have hmode := hnone o
        simp only [ho, true_and, Bool.not_eq_false] at hmode
        simp [hmode]
  have hiff := offset_safe_iff hunused fun hpos => by
    rw [preadAccesses_inBounds_iff fd h hpos]
    exact forall_congr' fun o => and_imp.symm
  simpa only [not_and, Bool.not_eq_false, and_imp] using hiff

private theorem pwrite_safe_iff (fd : Nat) (h : s.Sane) (junk : Nat → UInt8) (bytes : List UInt8)
    (offset : Int) :
    ((∀ a ∈ s.pwriteAccesses fd junk bytes offset, a.InBounds) ∧
      (offset < 0 → ∀ o, s.fs.openFile fd = some o → o.flags.wronly = o.flags.rdwr)) ↔
    ∀ o, s.fs.openFile fd = some o → o.flags.wronly ≠ o.flags.rdwr →
      0 ≤ offset ∧ (s.files o.data).WriteFits offset bytes.length := by
  have hunused : (∀ o, ¬(s.fs.openFile fd = some o ∧ o.flags.wronly ≠ o.flags.rdwr)) →
      ∀ a ∈ s.pwriteAccesses fd junk bytes offset, a.InBounds := by
    intro hnone
    unfold pwriteAccesses
    cases ho : s.fs.openFile fd with
    | none => simp
    | some o =>
        have hmode := hnone o
        simp only [ho, true_and, ne_eq, not_not] at hmode
        simp [hmode]
  have hiff := offset_safe_iff hunused fun hpos => by
    rw [pwriteAccesses_inBounds_iff fd h hpos]
    exact forall_congr' fun o => and_imp.symm
  simpa only [not_and, ne_eq, not_not, and_imp] using hiff

private theorem seek_refused_iff (offset : Int) (whence : Whence) :
    ((∃ o pos, s.fs.openFile fd = some o ∧ s.seekTo o offset whence = some pos ∧ pos < 0) →
      ∃ e t, s.zrtZcallEnhancedSeek fd offset whence = some (.error e, t) ∧ t.files = s.files) ↔
    (whence ≠ .seekSet → ∀ o pos, s.fs.openFile fd = some o → s.seekTo o offset whence = some pos →
      pos < 0 → (s.fs.mem.getData o.data).isSome) := by
  unfold zrtZcallEnhancedSeek
  by_cases habsolute : whence = .seekSet
  · apply iff_of_true
    · rintro ⟨o, pos, -, hto, hneg⟩
      subst habsolute
      cases hto
      exact ⟨.einval, s, by rw [if_pos ⟨rfl, hneg⟩], rfl⟩
    · intro h
      exact absurd habsolute h
  · simp only [habsolute, false_and, if_false]
    constructor
    · intro h _ o pos ho hto hneg
      obtain ⟨e, t, hcall, -⟩ := h ⟨o, pos, ho, hto, hneg⟩
      simp only [lseek, ho] at hcall
      obtain ⟨d, hd, -⟩ := Option.bind_eq_some_iff.mp hcall
      rw [hd]
      rfl
    · rintro h ⟨o, pos, ho, hto, hneg⟩
      obtain ⟨d, hd⟩ := Option.isSome_iff_exists.mp (h habsolute o pos ho hto hneg)
      simp only [lseek, ho, hd, Option.bind_some, hto, if_pos hneg]
      split
      · exact ⟨.ebadf, s, rfl, rfl⟩
      · exact ⟨.einval, s, rfl, rfl⟩

/-- A negative length is refused for a directory or a file that is not open for writing. Otherwise it is
stored, and the last check fails on it. -/
private theorem ftruncate_refused_iff (h : s.Orderly) (junk : Int → Nat → UInt8) {length : Int}
    (hneg : length < 0) :
    (∃ e t, s.zrtZcallFtruncate fd junk length = some (.error e, t) ∧ t.files = s.files) ↔
      ∀ o, s.fs.openFile fd = some o →
        ∃ d ∈ s.fs.mem.getData o.data, d.isDir = true ∨ o.flags.wronly = o.flags.rdwr := by
  cases ho : s.fs.openFile fd with
  | none =>
      apply iff_of_true
      · exact ⟨.ebadf, s, by simp [zrtZcallFtruncate, lseek, ho], rfl⟩
      · intro o ho'
        cases ho'
  | some o =>
      simp only [Option.some.injEq, forall_eq']
      cases hd : s.fs.mem.getData o.data with
      | none =>
          apply iff_of_false
          · rintro ⟨e, t, hcall, -⟩
            simp [zrtZcallFtruncate, lseek, ho, hd] at hcall
          · rintro ⟨d, hd', -⟩
            cases hd'
      | some d =>
          simp only [Option.mem_def, Option.some.injEq, exists_eq_left']
          cases hfile : d.isDir with
          | true =>
              apply iff_of_true _ (.inl rfl)
              exact ⟨.ebadf, s, by simp [zrtZcallFtruncate, lseek, ho, hd, hfile], rfl⟩
          | false =>
              have hnot : ¬((s.files o.data).len : Int) < length := by omega
              rw [ftruncate_changes ho hd hfile h.toSane junk (h.nonneg o.id), changeSize, if_neg hnot]
              simp only [memFtruncateSize, ho, hd, hfile, Option.bind_some, Bool.false_eq_true,
                if_false, false_or]
              by_cases hmode : o.flags.wronly = o.flags.rdwr
              · exact iff_of_true ⟨.einval, s, by simp [hmode, finishFtruncate], rfl⟩ hmode
              · apply iff_of_false _ hmode
                rintro ⟨e, t, hcall, -⟩
                have hbefore : ¬s.offsets o.id < length := by
                  have hpos := h.nonneg o.id
                  omega
                simp only [if_neg hmode, Option.bind_some, finishFtruncate, Int.lt_irrefl, if_false,
                  if_neg hbefore] at hcall
                obtain ⟨st, -, hcall⟩ := Option.bind_eq_some_iff.mp hcall
                cases st with
                | error e' => cases hcall
                | ok size =>
                    simp only at hcall
                    split at hcall
                    · cases hcall
                    · cases hcall

/-! ## Every call -/

private theorem safe_iff_parts {ch : Channels} {c : FileCall} (h : s.Sane) :
    s.Safe ch c ↔ (∀ a ∈ s.accesses c, a.InBounds) ∧
      (s.Negative c → ∃ e t, s.fileCall ch c = some (.error e, t) ∧ t.files = s.files) := by
  constructor
  · intro hsafe
    exact ⟨hsafe.inBounds, hsafe.refused⟩
  · rintro ⟨hbounds, hrefused⟩
    refine ⟨hbounds, ?_, ?_, hrefused⟩
    · intro t ht
      cases c with
      | ftruncate fd junk length =>
          obtain ⟨x, hx, rfl⟩ := List.mem_map.mp ht
          exact (ftruncateTrace_ends h junk length.toInt x hx).1.len_le
      | _ => exact absurd ht List.not_mem_nil
    · intro r t hcall
      have hstep : s.fileStep ch c = some t := by
        rw [fileStep, hcall]
        rfl
      exact (fileStep_sane h hstep).len_le

private theorem safe_iff_inRange (h : s.Orderly) (ch : Channels) (c : FileCall) :
    s.Safe ch c ↔ s.InRange c := by
  rw [safe_iff_parts h.toSane]
  cases c with
  | read fd count =>
      simp only [accesses, readAccesses, Negative, InRange, false_imp_iff, and_true]
      cases ho : s.fs.openFile fd with
      | none => simp
      | some o =>
          have hiff := preadAccesses_inBounds_iff fd h.toSane (h.nonneg o.id) count
          rw [ho] at hiff
          simpa only [Option.some.injEq, forall_eq'] using hiff
  | write fd junk bytes =>
      simp only [accesses, writeAccesses, Negative, InRange, false_imp_iff, and_true]
      cases ho : s.fs.openFile fd with
      | none => simp
      | some o =>
          have hiff := pwriteAccesses_inBounds_iff fd h.toSane (h.nonneg o.id) junk bytes
          rw [ho] at hiff
          simpa only [Option.some.injEq, forall_eq'] using hiff
  | pread fd count offset =>
      simp only [accesses, Negative, InRange, fileCall, pread_refused_iff]
      exact pread_safe_iff fd h.toSane count offset.toInt
  | pwrite fd junk bytes offset =>
      simp only [accesses, Negative, InRange, fileCall, pwrite_refused_iff]
      exact pwrite_safe_iff fd h.toSane junk bytes offset.toInt
  | lseek fd offset whence =>
      simp only [accesses, Negative, InRange, fileCall, seek_refused_iff, List.not_mem_nil,
        false_imp_iff, implies_true, true_and]
  | ftruncate fd junk length =>
      simp only [accesses, Negative, InRange, fileCall]
      have hbounds : ∀ a ∈ (s.ftruncateTrace fd junk length.toInt).flatMap fun x =>
          x.1.writeAccesses fd (junk x.2) (paddingBlock x.2), a.InBounds := by
        intro a ha
        obtain ⟨x, hx, hax⟩ := List.mem_flatMap.mp ha
        obtain ⟨hs, hend⟩ := ftruncateTrace_ends h.toSane junk length.toInt x hx
        exact hend.inBounds hs (junk x.2) x.2 a hax
      rw [and_iff_right hbounds]
      exact imp_congr_right fun hneg => ftruncate_refused_iff h junk hneg
  | _ => simp [accesses, Negative, InRange]

/-- In every run from the start, the calls keep to the buffers and refuse what is negative exactly when
they are in range. -/
theorem run_safe_iff (ch : Channels) (calls : List FileCall) :
    Guarded (fileStep ch) (Safe ch) start calls ↔ Guarded (fileStep ch) InRange start calls := by
  have hiff : ∀ s c, Orderly s → (Safe ch s c ↔ InRange s c) :=
    fun s c h => safe_iff_inRange h ch c
  have hkeep : ∀ s c t, Orderly s → Safe ch s c → fileStep ch s c = some t → Orderly t :=
    fun s c t h hsafe hstep => fileStep_orderly h ((hiff s c h).mp hsafe) hstep
  exact guarded_iff hiff hkeep calls start orderly_start

/-- A block written at −1 needs no larger buffer, and goes in front of the one that is there. -/
theorem pwrite_before_buffer :
    RunEnds (fileStep FileSystem.standardInput) start
      [.memOpen (.fromRoot "f".toList) { creat := true, rdwr := true } 0o600] fun s =>
      ¬ ∀ a ∈ s.accesses (.pwrite 0 (fun _ => 0) [1] (-1)), a.InBounds := by
  decide

end Io

end Zrt.Fs
