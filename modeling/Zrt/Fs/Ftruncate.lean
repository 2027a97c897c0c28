import Zrt.Fs.FileCalls

/-!
# Changing the size of a file

A file that is lengthened gets its zeros block by block, each behind the last. For that the offset is
moved to the end first, and a refused write leaves it there.
-/

namespace Zrt.Fs

open Zrt.Framework

namespace Io

variable {s : Io} {fd : Nat} {o : OpenFile} {d : MemData}

theorem setOffset_self (s : Io) (id : Nat) : s.setOffset id (s.offsets id) = s := by
  rw [setOffset, Function.update_eq_self]

/-! ## Calls on an open file -/

section OpenFile

variable (ho : s.fs.openFile fd = some o) (hd : s.fs.mem.getData o.data = some d)

include ho hd

private theorem write_at_end (hs : s.Sane) (hmode : o.flags.wronly ≠ o.flags.rdwr)
    (hat : s.offsets o.id = (s.files o.data).len) (junk : Nat → UInt8) {bytes : List UInt8}
    (hend : (s.files o.data).len + bytes.length < 2 ^ 29) :
    ∃ s', s.write fd junk bytes = some (.ok bytes.length, s') ∧ s'.fs = s.fs ∧
      (s'.files o.data).contents = (s.files o.data).contents ++ bytes ∧
      (s'.files o.data).len = (s.files o.data).len + bytes.length ∧
      s'.offsets o.id = (s'.files o.data).len := by
  have hlen := hs.len_le o.data
  have hcap := hs.small o.data
  obtain ⟨f, hf⟩ := MemFile.write_end_isSome hlen hcap junk hend
  obtain ⟨hcontents, hflen⟩ := MemFile.write_end hlen hcap le_rfl (MemFile.cut_natCast (by omega)) hf
  have hwrote : Int.bmod bytes.length (2 ^ 32) = bytes.length := by
    rw [Int.bmod_def]
    split <;> omega
  have hwrite : s.write fd junk bytes = some (.ok bytes.length,
      (s.setFile o.data f).setOffset o.id ((s.files o.data).len + bytes.length)) := by
    simp only [write, pwrite, ho, if_neg hmode, hd, Option.bind_some, hat, hf, Option.map_some, hwrote]
    rw [if_pos (by omega)]
  refine ⟨_, hwrite, rfl, ?_, ?_, ?_⟩
  · simpa [setOffset, setFile] using hcontents
  · simpa [setOffset, setFile] using hflen
  · simp [setOffset, setFile, hflen]

private theorem writeFilePadding_spec (hs : s.Sane) (hmode : o.flags.wronly ≠ o.flags.rdwr)
    (hat : s.offsets o.id = (s.files o.data).len) (junk : Int → Nat → UInt8) (n : Nat) (hn : 0 < n)
    (hend : (s.files o.data).len + n < 2 ^ 29) :
    ∃ s', s.writeFilePadding fd junk n = some (.ok 0, s') ∧ s'.fs = s.fs ∧
      (s'.files o.data).contents = (s.files o.data).contents ++ List.replicate n 0 ∧
      (s'.files o.data).len = (s.files o.data).len + n := by
  induction n using Nat.strongRecOn generalizing s with
  | ind n ih =>
      have hblock : paddingBlock n = List.replicate (min n paddingSize) 0 := by
        rw [paddingBlock]
        congr 1
        omega
      have hpos : 0 < min n paddingSize := by
        simp only [paddingSize]
        omega
      have hfits : (s.files o.data).len + (paddingBlock n).length < 2 ^ 29 := by
        rw [hblock, List.length_replicate]
        omega
      obtain ⟨s₁, hwrite, hfs, hcontents, hlen, hat₁⟩ := write_at_end ho hd hs hmode hat (junk n) hfits
      rw [hblock, List.length_replicate] at hwrite hlen
      rw [hblock] at hcontents
      rw [writeFilePadding, hblock, hwrite]
      simp only
      by_cases hmore : min n paddingSize < n
      · have hnext : (n : Int) - (min n paddingSize : Nat) = (n - min n paddingSize : Nat) := by omega
        rw [dif_pos (by omega), hnext]
        rw [← hfs] at ho hd
        obtain ⟨s', hpad, hfs', hcontents', hlen'⟩ := ih (n - min n paddingSize) (by omega) ho hd
          (hs.write hwrite) hat₁ (by omega) (by omega)
        refine ⟨s', hpad, hfs'.trans hfs, ?_, by omega⟩
        rw [hcontents', hcontents, List.append_assoc, List.replicate_append_replicate,
          Nat.add_sub_cancel' (by omega)]
      · have hall : min n paddingSize = n := by omega
        rw [hall] at hwrite hcontents hlen ⊢
        rw [dif_neg (by omega), if_pos (by omega), Int.sub_self]
        exact ⟨s₁, rfl, hfs, hcontents, hlen⟩

omit hd in
private theorem writeFilePadding_refused (hmode : o.flags.wronly = o.flags.rdwr)
    (junk : Int → Nat → UInt8) (remain : Int) :
    s.writeFilePadding fd junk remain = some (.error .einval, s) := by
  rw [writeFilePadding]
  simp only [write, pwrite, ho, hmode, if_true]

theorem lseekAssert_ok (hfile : d.isDir = false) {pos : Int} (hpos : 0 ≤ pos) (hlt : pos < 2 ^ 63) :
    s.lseekAssert fd pos = some (s.setOffset o.id pos) := by
  simp only [lseekAssert, lseek, ho, hd, hfile, seekTo, Option.bind_some, Bool.false_eq_true,
    if_false, if_neg (Int.not_lt.mpr hpos), if_neg (Int.not_le.mpr hlt), if_true]

theorem lseek_tell (hs : s.Sane) (hfile : d.isDir = false) :
    s.lseek fd 0 .seekCur = some (if s.offsets o.id < 0 then (.error .einval, s)
      else (.ok (s.offsets o.id), s)) := by
  have hlt := hs.offset_lt o.id
  simp only [lseek, ho, hd, hfile, seekTo, Option.bind_some, Bool.false_eq_true, if_false,
    Int.add_zero, if_neg (Int.not_le.mpr hlt)]
  split
  · rfl
  · rw [setOffset_self]

end OpenFile

/-! ## Truncation -/

/-- What is asked of a truncation: success sets the size, keeps what is in front of it and fills with
zeros; failure changes neither the file nor the offset. -/
structure Truncated (o : OpenFile) (length : Nat) (s : Io) (r : Except Errno Int) (s' : Io) : Prop where
  success : ∀ v, r = .ok v → (s'.files o.data).len = length ∧
    (s'.files o.data).contents = (s.files o.data).contents.take length ++
      List.replicate (length - (s.files o.data).len) 0
  failure : ∀ e, r = .error e → (s'.files o.data).len = (s.files o.data).len ∧
    (s'.files o.data).contents = (s.files o.data).contents ∧ s'.offsets o.id = s.offsets o.id

private theorem truncated_error (e : Errno) (length : Nat) : Truncated o length s (.error e) s where
  success := by
    intro v h
    cases h
  failure := fun _ _ => ⟨rfl, rfl, rfl⟩

section Truncation

variable (ho : s.fs.openFile fd = some o) (hd : s.fs.mem.getData o.data = some d)
  (hfile : d.isDir = false) (hs : s.Sane) (junk : Int → Nat → UInt8) (length : Nat)

include ho hd hfile hs

private theorem ftruncate_negative (hneg : s.offsets o.id < 0) (length : Int) :
    s.zrtZcallFtruncate fd junk length = some (.error .einval, s) := by
  rw [zrtZcallFtruncate, lseek_tell ho hd hs hfile, if_pos hneg]
  rfl

theorem ftruncate_changes (hpos : 0 ≤ s.offsets o.id) (length : Int) :
    s.zrtZcallFtruncate fd junk length =
      (s.changeSize fd junk (s.files o.data).len length).bind
        (finishFtruncate fd (s.offsets o.id) length) := by
  rw [zrtZcallFtruncate, lseek_tell ho hd hs hfile, if_neg (Int.not_lt.mpr hpos)]
  simp only [Option.bind_some, fstatSize_file ho hd hfile]

theorem ftruncate_finish (hpos : 0 ≤ s.offsets o.id) {s₃ : Io}
    (hchanged : s.changeSize fd junk (s.files o.data).len length = some (.ok 0, s₃))
    (hfs : s₃.fs = s.fs) (hlen : (s₃.files o.data).len = length) :
    ∃ s', s.zrtZcallFtruncate fd junk length = some (.ok 0, s') ∧
      s'.files o.data = s₃.files o.data := by
  rw [ftruncate_changes ho hd hfile hs junk hpos, hchanged]
  rw [← hfs] at ho hd
  simp only [Option.bind_some, finishFtruncate, Int.lt_irrefl, if_false]
  split
  · rw [lseekAssert_ok ho hd hfile hpos (hs.offset_lt o.id)]
    refine ⟨s₃.setOffset o.id (s.offsets o.id), ?_, rfl⟩
    have hstat : (s₃.setOffset o.id (s.offsets o.id)).fstatSize fd =
        some (.ok (s₃.files o.data).len) := fstatSize_file ho hd hfile
    simp only [Option.bind_some, hstat, hlen, if_true]
  · refine ⟨s₃, ?_, rfl⟩
    simp only [Option.bind_some, fstatSize_file ho hd hfile, hlen, if_true]

private theorem ftruncate_lengthens (hpos : 0 ≤ s.offsets o.id) (hmode : o.flags.wronly ≠ o.flags.rdwr)
    (hlonger : (s.files o.data).len < length) (hlength : length < 2 ^ 29) :
    ∃ s', s.zrtZcallFtruncate fd junk length = some (.ok 0, s') ∧
      (s'.files o.data).len = length ∧ (s'.files o.data).contents =
        (s.files o.data).contents ++ List.replicate (length - (s.files o.data).len) 0 := by
  have hseek := lseekAssert_ok ho hd hfile (Int.natCast_nonneg (s.files o.data).len) (by omega)
  have hat : (s.setOffset o.id (s.files o.data).len).offsets o.id = (s.files o.data).len :=
    Function.update_self ..
  have hremain : (length : Int) - (s.files o.data).len = (length - (s.files o.data).len : Nat) := by
    omega
  have hsought : (s.setOffset o.id (s.files o.data).len).Sane := hs.setOffset o.id (by omega)
  obtain ⟨s₃, hpad, hfs, hcontents, hlen⟩ := writeFilePadding_spec
    (s := s.setOffset o.id (s.files o.data).len) ho hd hsought hmode hat junk
    (length - (s.files o.data).len) (Nat.sub_pos_of_lt hlonger)
    (by change (s.files o.data).len + _ < _; omega)
  have hchanged : s.changeSize fd junk (s.files o.data).len length = some (.ok 0, s₃) := by
    rw [changeSize, if_pos (by omega), hseek, Option.bind_some, hremain, hpad]
  have hlen₃ : (s₃.files o.data).len = length := by
    rw [hlen]
    change (s.files o.data).len + _ = _
    omega
  obtain ⟨s', hcall, hfiles⟩ := ftruncate_finish ho hd hfile hs junk length hpos hchanged hfs hlen₃
  refine ⟨s', hcall, ?_, ?_⟩
  · rw [hfiles, hlen₃]
  · rw [hfiles, hcontents]
    rfl

private theorem ftruncate_strays (hpos : 0 ≤ s.offsets o.id) (hmode : o.flags.wronly = o.flags.rdwr)
    (hlonger : (s.files o.data).len < length) :
    s.zrtZcallFtruncate fd junk length =
      some (.error .einval, s.setOffset o.id (s.files o.data).len) := by
  have hsmall := hs.small o.data
  have hlen := hs.len_le o.data
  have hseek := lseekAssert_ok ho hd hfile (Int.natCast_nonneg (s.files o.data).len) (by omega)
  have hpad := writeFilePadding_refused (s := s.setOffset o.id (s.files o.data).len) ho hmode junk
    (length - (s.files o.data).len)
  rw [ftruncate_changes ho hd hfile hs junk hpos, changeSize, if_pos (by omega), hseek,
    Option.bind_some, hpad]
  rfl

private theorem ftruncate_shortens (hpos : 0 ≤ s.offsets o.id) (hmode : o.flags.wronly ≠ o.flags.rdwr)
    (hle : length ≤ (s.files o.data).len) :
    ∃ s', s.zrtZcallFtruncate fd junk length = some (.ok 0, s') ∧
      (s'.files o.data).len = length ∧
      (s'.files o.data).contents = (s.files o.data).contents.take length := by
  have hlen := hs.len_le o.data
  have hsmall := hs.small o.data
  have hset := MemFile.setLen_cut (f := s.files o.data) (Int.natCast_nonneg length) (by omega) hlen
    hsmall
  rw [Int.toNat_natCast] at hset
  have hchanged : ∃ s₃, s.changeSize fd junk (s.files o.data).len length = some (.ok 0, s₃) ∧
      s₃.fs = s.fs ∧
      s₃.files o.data = (s.files o.data).setLen (MemFile.cut length) := by
    simp only [changeSize, if_neg (by omega : ¬((s.files o.data).len : Int) < length),
      memFtruncateSize, ho, hd, hfile, Option.bind_some, Bool.false_eq_true, if_false, if_neg hmode]
    refine ⟨_, rfl, ?_, ?_⟩
    · split <;> rfl
    · split <;> simp [setOffset, setFile]
  obtain ⟨s₃, hchanged, hfs, hfile₃⟩ := hchanged
  obtain ⟨s', hcall, hfiles⟩ := ftruncate_finish ho hd hfile hs junk length hpos hchanged hfs
    (by rw [hfile₃, hset])
  refine ⟨s', hcall, ?_, ?_⟩
  · rw [hfiles, hfile₃, hset]
  · rw [hfiles, hfile₃, MemFile.contents, hset, MemFile.contents, List.take_take,
      Nat.min_eq_left hle]
    rfl

private theorem ftruncate_readOnly (hpos : 0 ≤ s.offsets o.id) (hmode : o.flags.wronly = o.flags.rdwr)
    (hle : length ≤ (s.files o.data).len) :
    s.zrtZcallFtruncate fd junk length = some (.error .einval, s) := by
  rw [ftruncate_changes ho hd hfile hs junk hpos, changeSize, if_neg (by omega)]
  simp only [memFtruncateSize, ho, hd, hfile, Option.bind_some, Bool.false_eq_true, if_false, hmode,
    if_true]
  rfl

end Truncation

/-- In every state that calls lead to, a truncation keeps to its rules exactly when the file is open
for writing, is not lengthened, or the offset is where the refused write would leave it. -/
theorem ftruncate_truncated_iff (ch : Channels) (calls : List FileCall) (s : Io)
    (hrun : runFrom (fileStep ch) start calls = some s) (fd : Nat) (o : OpenFile) (d : MemData)
    (ho : s.fs.openFile fd = some o) (hd : s.fs.mem.getData o.data = some d)
    (hfile : d.isDir = false) (junk : Int → Nat → UInt8) (length : Nat) (hlength : length < 2 ^ 29) :
    (∃ r s', s.zrtZcallFtruncate fd junk length = some (r, s') ∧ Truncated o length s r s') ↔
      o.flags.wronly ≠ o.flags.rdwr ∨ length ≤ (s.files o.data).len ∨
        s.offsets o.id = (s.files o.data).len ∨ s.offsets o.id < 0 := by
  have hs := run_sane hrun
  have hlen := MemFile.length_contents (hs.len_le o.data)
  by_cases hneg : s.offsets o.id < 0
  · have hcall := ftruncate_negative ho hd hfile hs junk hneg length
    exact iff_of_true ⟨_, _, hcall, truncated_error _ _⟩ (.inr (.inr (.inr hneg)))
  · have hpos := Int.not_lt.mp hneg
    by_cases hle : length ≤ (s.files o.data).len
    · refine iff_of_true ?_ (.inr (.inl hle))
      by_cases hmode : o.flags.wronly = o.flags.rdwr
      · exact ⟨_, _, ftruncate_readOnly ho hd hfile hs junk length hpos hmode hle, truncated_error _ _⟩
      · obtain ⟨s', hcall, hlen', hcontents⟩ :=
          ftruncate_shortens ho hd hfile hs junk length hpos hmode hle
        refine ⟨_, s', hcall, ?_, ?_⟩
        · intro v _
          rw [hcontents, Nat.sub_eq_zero_of_le hle, List.replicate_zero, List.append_nil]
          exact ⟨hlen', rfl⟩
        · intro e he
          cases he
    · have hlonger := Nat.lt_of_not_le hle
      by_cases hmode : o.flags.wronly = o.flags.rdwr
      · have hcall := ftruncate_strays ho hd hfile hs junk length hpos hmode hlonger
        constructor
        · rintro ⟨r, s', hcall', htruncated⟩
          rw [hcall] at hcall'
          cases hcall'
          have hmoved : (s.setOffset o.id (s.files o.data).len).offsets o.id =
              (s.files o.data).len := Function.update_self ..
          have hoffset := (htruncated.failure .einval rfl).2.2
          rw [hmoved] at hoffset
          exact .inr (.inr (.inl hoffset.symm))
        · rintro (hmode' | hle' | hat | hneg')
          · exact absurd hmode hmode'
          · exact absurd hle' hle
          · rw [← hat, setOffset_self] at hcall
            exact ⟨_, _, hcall, truncated_error _ _⟩
          · exact absurd hneg' hneg
      · refine iff_of_true ?_ (.inl hmode)
        obtain ⟨s', hcall, hlen', hcontents⟩ :=
          ftruncate_lengthens ho hd hfile hs junk length hpos hmode hlonger hlength
        refine ⟨_, s', hcall, ?_, ?_⟩
        · intro v _
          rw [hcontents, List.take_of_length_le (by omega)]
          exact ⟨hlen', rfl⟩
        · intro e he
          cases he

/-- A file of three bytes, open for writing. -/
def writtenFileCalls : List FileCall :=
  [.memOpen (.fromRoot "f".toList) { creat := true, rdwr := true } 0o600,
    .write 0 (fun _ => 0) [1, 2, 3]]

theorem ftruncate_truncated_iff_lengthened :
    RunEnds (fileStep FileSystem.standardInput) start writtenFileCalls fun s =>
      ∃ o r s', s.zrtZcallFtruncate 0 (fun _ _ => 0) (5 : Nat) = some (r, s') ∧
        Truncated o 5 s r s' := by
  have hends : RunEnds (fileStep FileSystem.standardInput) start writtenFileCalls fun s =>
      (s.fs.openFile 0).any fun o => o.flags.wronly != o.flags.rdwr &&
        (s.fs.mem.getData o.data).any fun d => !d.isDir := by
    decide
  obtain ⟨s, hrun, hopen⟩ := hends
  obtain ⟨o, ho, hboth⟩ := (Option.any_eq_true _ _).mp hopen
  rw [Bool.and_eq_true, bne_iff_ne] at hboth
  obtain ⟨d, hd, hfile⟩ := (Option.any_eq_true _ _).mp hboth.2
  rw [Bool.not_eq_true'] at hfile
  exact ⟨s, hrun, o, (ftruncate_truncated_iff FileSystem.standardInput writtenFileCalls s hrun 0 o d ho
    hd hfile (fun _ _ => 0) 5 (by decide)).mpr (.inl hboth.1)⟩

/-- Refused on a descriptor for reading, the truncation leaves the position at the end of the file. -/
theorem ftruncate_moves_position :
    replies (fileCall FileSystem.standardInput) start
      [.memOpen (.fromRoot "f".toList) { creat := true, wronly := true } 0o600,
        .write 0 (fun _ => 0) [1, 2, 3], .close 0, .memOpen (.fromRoot "f".toList) {} 0,
        .read 0 1, .lseek 0 0 .seekCur, .ftruncate 0 (fun _ _ => 0) 5, .lseek 0 0 .seekCur] =
      some [.ok 0, .ok 3, .ok 0, .ok 0, .ok 1, .ok 1, .error .einval, .ok 3] := by
  decide +kernel

end Io

end Zrt.Fs
