import Zrt.Fs.FileCalls

/-!
# Append mode

`O_APPEND` moves the offset to the end of the file when it is opened, and is not looked at again. A
write through such a descriptor goes where the offset is by then.
-/

namespace Zrt.Fs

open Zrt.Framework

namespace MemFile

variable {f f' : MemFile}

private theorem write_nil (hlen : f.len ≤ f.capacity) (hcap : f.capacity < 2 ^ 31) {junk : Nat → UInt8}
    {offset : Int} (hle : offset ≤ f.len) (h : f.write junk offset [] = some f') :
    f'.contents = f.contents := by
  obtain ⟨grown, padded, written, hgrown, hpadded, hwritten, hdata, hlast⟩ := write_eq_some h
  simp only [List.length_nil, Int.natCast_zero, Int.add_zero] at hgrown hlast
  have hgrow : grown = f := (grow_eq_some hcap hgrown).2.2.2 (by omega)
  rw [hgrow, padGap, if_neg (by omega)] at hpadded
  cases hpadded
  simp only [store, true_or, if_true, memcpyAt_nil] at hwritten
  cases hwritten
  rw [if_neg (Int.not_lt.mpr hle)] at hlast
  rw [contents, contents, hdata, hlast]

/-- Where a write has to be made to append its bytes. -/
def appendsAt (f : MemFile) (offset : Int) (bytes : List UInt8) : Prop :=
  (bytes = [] ∧ offset ≤ f.len) ∨ ((f.len : Int) ≤ offset ∧ cut offset = f.len)

instance (f : MemFile) (offset : Int) (bytes : List UInt8) : Decidable (f.appendsAt offset bytes) :=
  inferInstanceAs (Decidable (_ ∨ _))

private theorem write_appends_iff (hlen : f.len ≤ f.capacity) (hcap : f.capacity < 2 ^ 31)
    {junk : Nat → UInt8} {offset : Int} {bytes : List UInt8}
    (h : f.write junk offset bytes = some f') :
    f'.contents = f.contents ++ bytes ↔ f.appendsAt offset bytes := by
  constructor
  · intro hcontents
    have hlength := congrArg List.length hcontents
    rw [List.length_append, length_contents hlen, length_contents (write_len_le hlen hcap h)]
      at hlength
    have hbytes := (capacity_write hcap h).2
    obtain ⟨grown, padded, written, hgrown, hpadded, hwritten, -, hlast⟩ := write_eq_some h
    rw [store_len hwritten, (padGap_eq_some hpadded).1, (grow_eq_some hcap hgrown).1] at hlast
    split at hlast
    · apply Or.inr
      unfold cut at hlast ⊢
      omega
    · apply Or.inl
      refine ⟨List.eq_nil_of_length_eq_zero ?_, ?_⟩
      · omega
      · omega
  · rintro (⟨rfl, hle⟩ | ⟨hle, hcut⟩)
    · rw [List.append_nil]
      exact write_nil hlen hcap hle h
    · exact (write_end hlen hcap hle hcut h).1

end MemFile

namespace Io

variable {s s' : Io} {fd : Nat}

/-- A write through a descriptor opened for appending puts its bytes behind what the file holds. -/
def Appends (s : Io) : FileCall → Prop
  | .write fd junk bytes => ∀ o n s', s.fs.openFile fd = some o → o.flags.append = true →
      s.write fd junk bytes = some (.ok n, s') →
        (s'.files o.data).contents = (s.files o.data).contents ++ bytes
  | _ => True

/-- The offset is at the end of the file at a write through a descriptor opened for appending. -/
def AtEnd (s : Io) : FileCall → Prop
  | .write fd _ bytes => ∀ o, s.fs.openFile fd = some o → o.flags.append = true →
      o.flags.wronly ≠ o.flags.rdwr → (s.files o.data).appendsAt (s.offsets o.id) bytes
  | _ => True

instance (s : Io) : (c : FileCall) → Decidable (s.AtEnd c)
  | .write fd _ bytes =>
      inferInstanceAs (Decidable (∀ o ∈ s.fs.openFile fd, o.flags.append = true →
        o.flags.wronly ≠ o.flags.rdwr → (s.files o.data).appendsAt (s.offsets o.id) bytes))
  | .memOpen _ _ _ | .dup _ | .dup2 _ _ | .close _ | .read _ _ | .pread _ _ _ | .pwrite _ _ _ _
  | .lseek _ _ _ | .ftruncate _ _ _ | .names _ => isTrue trivial

private theorem write_open (hs : s.Sane) {o : OpenFile} (ho : s.fs.openFile fd = some o)
    (hmode : o.flags.wronly ≠ o.flags.rdwr) {junk : Nat → UInt8} {bytes : List UInt8}
    {r : Except Errno Int} (hcall : s.write fd junk bytes = some (r, s')) :
    ∃ f, (s.files o.data).write junk (s.offsets o.id) bytes = some f ∧ r = .ok bytes.length ∧
      s'.files o.data = f := by
  simp only [write, ho] at hcall
  rcases pwrite_written hs.small hcall with ⟨e, rfl, -⟩ | ⟨o', f, ho', -, hf, rfl, rfl⟩
  · simp only [pwrite, ho, if_neg hmode] at hcall
    obtain ⟨d, -, hcall⟩ := Option.bind_eq_some_iff.mp hcall
    obtain ⟨f, -, heq⟩ := Option.map_eq_some_iff.mp hcall
    cases heq
  · rw [ho] at ho'
    cases ho'
    exact ⟨f, hf, rfl, Function.update_self ..⟩

private theorem write_closed {o : OpenFile} (ho : s.fs.openFile fd = some o)
    (hmode : o.flags.wronly = o.flags.rdwr) (junk : Nat → UInt8) (bytes : List UInt8) :
    s.write fd junk bytes = some (.error .einval, s) := by
  simp only [write, pwrite, ho, hmode, if_true]

private theorem appends_iff (hs : s.Sane) {junk : Nat → UInt8} {bytes : List UInt8} {r : Except Errno Int}
    (hcall : s.write fd junk bytes = some (r, s')) :
    s.Appends (.write fd junk bytes) ↔ s.AtEnd (.write fd junk bytes) := by
  constructor
  · intro happends o ho happend hmode
    obtain ⟨f, hf, rfl, hfile⟩ := write_open hs ho hmode hcall
    have hcontents := happends o _ s' ho happend hcall
    rw [hfile] at hcontents
    exact (MemFile.write_appends_iff (hs.len_le o.data) (hs.small o.data) hf).mp hcontents
  · intro hend o n s₁ ho happend hcall₁
    by_cases hmode : o.flags.wronly = o.flags.rdwr
    · rw [write_closed ho hmode] at hcall₁
      cases hcall₁
    · obtain ⟨f, hf, -, hfile⟩ := write_open hs ho hmode hcall₁
      rw [hfile]
      exact (MemFile.write_appends_iff (hs.len_le o.data) (hs.small o.data) hf).mpr
        (hend o ho happend hmode)

/-- In every run that completes, the writes through descriptors opened for appending append their bytes
exactly when each finds the offset at the end of the file as it then is. -/
theorem run_appends_iff (ch : Channels) (calls : List FileCall) (t : Io)
    (hrun : runFrom (fileStep ch) start calls = some t) :
    Guarded (fileStep ch) Appends start calls ↔ Guarded (fileStep ch) AtEnd start calls := by
  have hiff : ∀ s c t, s.Sane → fileStep ch s c = some t → (s.Appends c ↔ s.AtEnd c) := by
    intro s c t hs hstep
    cases c with
    | write fd junk bytes =>
        obtain ⟨⟨r, s'⟩, hcall, rfl⟩ := Option.map_eq_some_iff.mp hstep
        exact appends_iff hs hcall
    | _ => exact Iff.rfl
  exact guarded_iff_of_runFrom hiff (fun _ _ _ => fileStep_sane) calls start t sane_start hrun

/-- Two descriptors append to one file in turn; the second seeks to the end first. -/
def appendingCalls : List FileCall :=
  [.memOpen (.fromRoot "f".toList) { creat := true, wronly := true, append := true } 0o600,
    .write 0 (fun _ => 0) [1, 2],
    .memOpen (.fromRoot "f".toList) { wronly := true, append := true } 0,
    .write 0 (fun _ => 0) [3], .lseek 1 0 .seekEnd, .write 1 (fun _ => 0) [4]]

theorem run_appends_iff_appending :
    RunEnds (fileStep FileSystem.standardInput) start appendingCalls (fun _ => True) ∧
      Guarded (fileStep FileSystem.standardInput) Appends start appendingCalls := by
  have hends : RunEnds (fileStep FileSystem.standardInput) start appendingCalls (fun _ => True) := by
    decide
  have hguard : Guarded (fileStep FileSystem.standardInput) AtEnd start appendingCalls := by
    decide
  obtain ⟨t, hrun, -⟩ := hends
  exact ⟨⟨t, hrun, trivial⟩,
    (run_appends_iff FileSystem.standardInput appendingCalls t hrun).mpr hguard⟩

/-- After a seek the write goes over what the file holds. -/
theorem append_overwrites :
    RunEnds (fileStep FileSystem.standardInput) start
      [.memOpen (.fromRoot "f".toList) { creat := true, wronly := true, append := true } 0o600,
        .write 0 (fun _ => 0) [1, 2], .lseek 0 0 .seekSet, .write 0 (fun _ => 0) [3]]
      fun s => ∃ o ∈ s.fs.openFile 0, o.flags.append = true ∧ (s.files o.data).contents = [3, 2] := by
  decide

end Io

end Zrt.Fs
