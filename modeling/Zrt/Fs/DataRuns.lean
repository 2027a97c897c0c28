import Zrt.Framework.Refinement
import Zrt.Fs.FailedOpen
import Zrt.Fs.FileCalls

/-!
# Names and data together

Calls on names and descriptors with the calls on data between them. The data calls leave the tables and
the tree alone, so that a run of all calls is a run of the others as the file systems see it. Reading or
writing a channel changes nothing that is kept here.
-/

namespace Zrt.Fs

open Zrt.Framework

def FileCall.fsCall : FileCall → Option FsCall
  | .memOpen path flags mode => some (.memOpen path flags mode)
  | .dup oldfd => some (.dup oldfd)
  | .dup2 oldfd newfd => some (.dup2 oldfd newfd)
  | .close fd => some (.close fd)
  | .names c => some c.toFsCall
  | _ => none

inductive MixedCall where
  | fs (c : FsCall)
  | file (c : FileCall)

/-- What the file systems see of a call. -/
def MixedCall.fsCall : MixedCall → Option FsCall
  | .fs c => some c
  | .file c => c.fsCall

namespace Io

def fsCall (ch : Channels) (s : Io) : FsCall → Reply
  | .memOpen path flags mode => s.memOpen path flags mode
  | c => s.ofFs (FileSystem.call ch s.fs c)

def mixedStep (ch : Channels) (s : Io) : MixedCall → Option Io
  | .fs c => (s.fsCall ch c).map Prod.snd
  | .file c => s.fileStep ch c

variable {s s' : Io} {fd : Nat} {r : Except Errno Int}

/-! ## Data calls leave the file systems alone -/

theorem pread_fs {count : Nat} {offset : Int} (hcall : s.pread fd count offset = some (r, s')) :
    s'.fs = s.fs := by
  rcases pread_eq_some hcall with ⟨e, -, rfl⟩ | ⟨o, x, -, -, -, -, rfl⟩
  · rfl
  · rw [apply_ite Io.fs]
    exact ite_self _

theorem pwrite_fs {junk : Nat → UInt8} {bytes : List UInt8} {offset : Int}
    (hcall : s.pwrite fd junk bytes offset = some (r, s')) : s'.fs = s.fs := by
  rcases pwrite_eq_some hcall with ⟨e, -, rfl⟩ | ⟨o, f, -, -, -, -, hs'⟩
  · rfl
  · rw [hs', apply_ite Io.fs]
    exact ite_self _

private theorem read_fs {count : Nat} (hcall : s.read fd count = some (r, s')) : s'.fs = s.fs := by
  unfold Io.read at hcall
  split at hcall
  · cases hcall
    rfl
  · exact pread_fs hcall

theorem write_fs {junk : Nat → UInt8} {bytes : List UInt8}
    (hcall : s.write fd junk bytes = some (r, s')) : s'.fs = s.fs := by
  unfold Io.write at hcall
  split at hcall
  · cases hcall
    rfl
  · exact pwrite_fs hcall

theorem lseek_fs {offset : Int} {whence : Whence} (hcall : s.lseek fd offset whence = some (r, s')) :
    s'.fs = s.fs ∧ s'.files = s.files := by
  rcases lseek_cases hcall with ⟨e, -, rfl⟩ | ⟨o, p, -, -, -, rfl⟩
  · exact ⟨rfl, rfl⟩
  · exact ⟨rfl, rfl⟩

private theorem lseekAssert_fs {pos : Int} (hcall : s.lseekAssert fd pos = some s') : s'.fs = s.fs := by
  obtain ⟨⟨r, s₁⟩, hseek, hcall⟩ := Option.bind_eq_some_iff.mp hcall
  have hfs := (lseek_fs hseek).1
  cases r with
  | error e => cases hcall
  | ok p =>
      simp only at hcall
      split at hcall
      · cases hcall
        exact hfs
      · cases hcall

private theorem memFtruncateSize_fs {length : Int} (hcall : s.memFtruncateSize fd length = some (r, s')) :
    s'.fs = s.fs := by
  rcases memFtruncateSize_cases hcall with ⟨e, -, rfl⟩ | ⟨o, d, -, -, -, -, -, rfl⟩
  · rfl
  · rw [apply_ite Io.fs]
    exact ite_self _

private theorem writeFilePadding_fs {junk : Int → Nat → UInt8} {remain : Int}
    (hcall : s.writeFilePadding fd junk remain = some (r, s')) : s'.fs = s.fs := by
  induction s, remain using writeFilePadding.induct fd junk with
  | case1 s remain hwrite =>
      rw [Io.writeFilePadding, hwrite] at hcall
      cases hcall
  | case2 s remain e s₁ hwrite =>
      rw [Io.writeFilePadding, hwrite] at hcall
      cases hcall
      exact write_fs hwrite
  | case3 s remain wrote s₁ hwrite hmore ih =>
      rw [Io.writeFilePadding, hwrite] at hcall
      simp only [dif_pos hmore] at hcall
      rw [ih hcall, write_fs hwrite]
  | case4 s remain wrote s₁ hwrite hmore =>
      rw [Io.writeFilePadding, hwrite] at hcall
      simp only [dif_neg hmore] at hcall
      cases hcall
      exact write_fs hwrite

private theorem ftruncate_fs {junk : Int → Nat → UInt8} {length : Int}
    (hcall : s.zrtZcallFtruncate fd junk length = some (r, s')) : s'.fs = s.fs := by
  rcases ftruncate_eq_some hcall with ⟨e, hseek, -⟩ |
    ⟨savedPos, s₁, size, changed, s₃, hseek, -, hchanged, hend⟩
  · exact (lseek_fs hseek).1
  · have hchange : s₃.fs = s₁.fs := by
      unfold changeSize at hchanged
      split at hchanged
      · obtain ⟨s₂, hsought, hpad⟩ := Option.bind_eq_some_iff.mp hchanged
        rw [writeFilePadding_fs hpad, lseekAssert_fs hsought]
      · exact memFtruncateSize_fs hchanged
    rw [← (lseek_fs hseek).1, ← hchange]
    rcases hend with ⟨e, -, -, rfl⟩ | ⟨res, -, -, -, rfl⟩ | ⟨res, -, hrestore, -⟩
    · rfl
    · rfl
    · split at hrestore
      · exact lseekAssert_fs hrestore
      · cases hrestore
        rfl

/-! ## The other calls are those of the file systems -/

theorem renewed_fs (s : Io) (flags : OpenFlags) (fs : FileSystem) :
    (s.renewed flags fs).fs = fs ∧ (s.renewed flags fs).files = s.files := by
  unfold renewed
  split
  · exact ⟨rfl, rfl⟩
  · exact ⟨rfl, rfl⟩

theorem memOpen_of_error {path : AbsolutePath} {flags : OpenFlags} {mode : Nat} {e : Errno}
    {fs' : FileSystem} (hopen : s.fs.memOpen path flags mode = some (.error e, fs')) :
    ∃ s', s.memOpen path flags mode = some (.error e, s') ∧ s'.fs = fs' ∧ s'.files = s.files := by
  rw [Io.memOpen, hopen, Option.bind_some]
  refine ⟨_, rfl, ?_⟩
  split
  · exact ⟨rfl, rfl⟩
  · exact renewed_fs s flags fs'

theorem memOpen_fs {path : AbsolutePath} {flags : OpenFlags} {mode : Nat}
    (hcall : s.memOpen path flags mode = some (r, s')) :
    ∃ r', s.fs.memOpen path flags mode = some (r', s'.fs) ∧ r = r'.map Int.ofNat := by
  obtain ⟨⟨r', fs'⟩, hopen, hanswer⟩ := Option.bind_eq_some_iff.mp hcall
  cases r' with
  | error e =>
      obtain ⟨t, ht, rfl, -⟩ := memOpen_of_error hopen
      rw [hcall, Option.some.injEq] at ht
      cases ht
      exact ⟨_, hopen, rfl⟩
  | ok fd =>
      obtain ⟨s₁, hs₁, heq⟩ := Option.map_eq_some_iff.mp hanswer
      cases heq
      have hsought : s₁.fs = fs' := by
        split at hs₁
        · obtain ⟨⟨r₂, s₂⟩, hseek, rfl⟩ := Option.map_eq_some_iff.mp hs₁
          rw [(lseek_fs hseek).1]
          exact (renewed_fs s flags fs').1
        · cases hs₁
          exact (renewed_fs s flags fs').1
      refine ⟨.ok fd, hopen.trans ?_, rfl⟩
      split
      · rw [(offsets_truncate s₁ fd).2, hsought]
      · rw [hsought]

theorem ofFs_eq_some {reply : FileSystem.Reply} (hcall : s.ofFs reply = some (r, s')) :
    ∃ x, reply = some (x, s'.fs) ∧ r = x.map Int.ofNat ∧ s'.files = s.files := by
  obtain ⟨⟨x, fs'⟩, hreply, heq⟩ := Option.map_eq_some_iff.mp hcall
  cases heq
  exact ⟨x, hreply, rfl, rfl⟩

theorem fsCall_fs {ch : Channels} {c : FsCall} (hcall : s.fsCall ch c = some (r, s')) :
    FileSystem.step ch s.fs c = some s'.fs := by
  have hsame : ∃ x, FileSystem.call ch s.fs c = some (x, s'.fs) := by
    cases c with
    | memOpen path flags mode =>
        obtain ⟨x, hx, -⟩ := memOpen_fs hcall
        exact ⟨x, hx⟩
    | _ =>
        obtain ⟨x, hx, -⟩ := ofFs_eq_some hcall
        exact ⟨x, hx⟩
  obtain ⟨x, hx⟩ := hsame
  rw [FileSystem.step, hx, Option.map_some]

private theorem fileCall_fs {ch : Channels} {c : FileCall} (hcall : s.fileCall ch c = some (r, s')) :
    c.fsCall.elim (s'.fs = s.fs) fun c => FileSystem.step ch s.fs c = some s'.fs := by
  cases c with
  | memOpen path flags mode => exact fsCall_fs (c := .memOpen path flags mode) hcall
  | dup oldfd => exact fsCall_fs (c := .dup oldfd) hcall
  | dup2 oldfd newfd => exact fsCall_fs (c := .dup2 oldfd newfd) hcall
  | close fd => exact fsCall_fs (c := .close fd) hcall
  | names c =>
      obtain ⟨x, hx, -⟩ := ofFs_eq_some hcall
      rw [FileCall.fsCall, Option.elim_some, FileSystem.step, hx, Option.map_some]
  | read fd count => exact read_fs hcall
  | write fd junk bytes => exact write_fs hcall
  | pread fd count offset => exact pread_fs hcall
  | pwrite fd junk bytes offset => exact pwrite_fs hcall
  | lseek fd offset whence =>
      simp only [Io.fileCall, zrtZcallEnhancedSeek] at hcall
      split at hcall
      · cases hcall
        rfl
      · exact (lseek_fs hcall).1
  | ftruncate fd junk length => exact ftruncate_fs hcall

theorem mixedStep_onPart (ch : Channels) :
    StepsOnPart (mixedStep ch) (FileSystem.step ch) Io.fs MixedCall.fsCall := by
  intro s c t hstep
  cases c with
  | fs c =>
      obtain ⟨⟨r, s₁⟩, hcall, rfl⟩ := Option.map_eq_some_iff.mp hstep
      exact fsCall_fs hcall
  | file c =>
      obtain ⟨⟨r, s₁⟩, hcall, rfl⟩ := Option.map_eq_some_iff.mp hstep
      exact fileCall_fs hcall

/-! ## Opens that fail -/

/-- In every state that calls lead to, an open that fails leaves everything as it was, the data of all
files too, if and only if it is not refused too late. -/
theorem run_failedOpen_iff (ch : Channels) (calls : List MixedCall) (s : Io)
    (hrun : runFrom (mixedStep ch) start calls = some s) (path : AbsolutePath) (flags : OpenFlags)
    (mode : Nat) :
    (∀ e s', s.memOpen path flags mode = some (.error e, s') →
        FileSystem.Untouched s.fs s'.fs ∧ s'.files = s.files) ↔
      s.fs.refusedLate path flags = false := by
  have hseen := (mixedStep_onPart ch).run (fun _ _ => True)
    (fun _ _ _ _ _ => trivial) calls start s (guarded_true calls start) hrun
  have hkeep : ∀ u c v, OpenFiles.Accounts none (FileSystem.files u) → FileSystem.step ch u c = some v →
      OpenFiles.Accounts none (FileSystem.files v) := fun u c v h hstep =>
    FileSystem.step_accounts h hstep
  have haccounts := runFrom_preserves hkeep _ _ _ OpenFiles.accounts_start hseen.2
  rw [← FileSystem.failedOpen_untouched_iff haccounts path flags mode]
  constructor
  · intro h e fs' hopen
    obtain ⟨s', hcall, rfl, -⟩ := memOpen_of_error hopen
    exact (h e s' hcall).1
  · intro h e s' hcall
    obtain ⟨r', hopen, hr⟩ := memOpen_fs hcall
    cases r' with
    | ok fd => cases hr
    | error e' =>
        cases hr
        obtain ⟨t, ht, -, hfiles⟩ := memOpen_of_error hopen
        rw [hcall, Option.some.injEq] at ht
        cases ht
        exact ⟨h e s'.fs hopen, hfiles⟩

/-- A file with two bytes in a directory, which are both open. -/
def writtenFileInDirectory : List MixedCall :=
  [.fs (.mkdir (.fromRoot "d".toList) 0o700),
    .fs (.memOpen (.fromRoot "d/f".toList) { creat := true, rdwr := true } 0o600),
    .file (.write 0 (fun _ => 0) [1, 2]), .fs (.memOpen (.fromRoot "d".toList) {} 0)]

/-- The file is not made anew. -/
theorem run_failedOpen_iff_exclusive :
    RunEnds (mixedStep FileSystem.standardInput) start writtenFileInDirectory fun s =>
      ∃ s', s.memOpen (.fromRoot "d/f".toList) { creat := true, excl := true, rdwr := true } 0o600 =
          some (.error .enoent, s') ∧
        FileSystem.Untouched s.fs s'.fs ∧ s'.files = s.files := by
  have hends : RunEnds (mixedStep FileSystem.standardInput) start writtenFileInDirectory fun s =>
      s.fs.refusedLate (.fromRoot "d/f".toList) { creat := true, excl := true, rdwr := true } = false ∧
        (s.memOpen (.fromRoot "d/f".toList) { creat := true, excl := true, rdwr := true } 0o600).map
          Prod.fst = some (.error .enoent) := by decide
  obtain ⟨s, hs, hintime, hfails⟩ := hends
  obtain ⟨⟨r, s'⟩, hcall, hr⟩ := Option.map_eq_some_iff.mp hfails
  cases hr
  exact ⟨s, hs, s', hcall, (run_failedOpen_iff FileSystem.standardInput writtenFileInDirectory s hs _ _
    _).mpr hintime .enoent s' hcall⟩

/-! ## Renames -/

/-- Every node that the call removes is listed by its recorded parent and by no other directory. -/
def KeepsListing (s : Io) (c : MixedCall) : Prop := ∀ c' ∈ c.fsCall, s.fs.KeepsListing c'

instance (s : Io) (c : MixedCall) : Decidable (s.KeepsListing c) :=
  inferInstanceAs (Decidable (∀ c' ∈ c.fsCall, s.fs.KeepsListing c'))

/-- In every state of a run that frees only nodes listed by their parents, a rename that is not told
to remove a part of its own paths does everything or nothing, and the data of all files stays. A file
cannot be renamed to itself so. -/
theorem run_rename_allOrNothing (ch : Channels) (calls : List MixedCall) (s s' : Io)
    (p q : AbsolutePath) (r : Except Errno Int)
    (hguard : Guarded (mixedStep ch) KeepsListing start calls)
    (hrun : runFrom (mixedStep ch) start calls = some s) (hlisted : s.fs.KeepsListing (.rename p q))
    (hsafe : s.fs.mem.renameSafe p q = true) (hcall : s.fsCall ch (.rename p q) = some (r, s')) :
    (MemMount.AllOrNothing s.fs.mem s'.fs.mem p q (r.map fun _ => ()) ∧ s'.files = s.files) ∧
      ∀ slot, s.fs.mem.getSlot p = some (.ok slot) → s.fs.mem.dirAt slot = false → p ≠ q := by
  obtain ⟨hguard, hrun⟩ := (mixedStep_onPart ch).run FileSystem.KeepsListing
    (fun _ _ h => h) calls start s hguard hrun
  have hsound : s.fs.mem.Sound := FileSystem.run_sound hguard hrun
  obtain ⟨x, hx, rfl, hfiles⟩ := ofFs_eq_some hcall
  obtain ⟨-, y, hy, rfl⟩ := FileSystem.ofMem_eq_some hx
  refine ⟨⟨?_, hfiles⟩, ?_⟩
  · have hall := hsound.rename_allOrNothing hsafe hlisted hy
    cases y with
    | ok u => exact hall
    | error e => exact hall
  · rintro slot hslot hdir rfl
    exact hsound.rename_self_unsafe hslot hdir hy hsafe

/-- A file with two bytes, and one that is open. -/
def writtenAndOpenFiles : List MixedCall :=
  [.fs (.memOpen (.fromRoot "f".toList) { creat := true, rdwr := true } 0o600),
    .file (.write 0 (fun _ => 0) [1, 2]), .fs (.close 0),
    .fs (.memOpen (.fromRoot "g".toList) { creat := true, rdwr := true } 0o600)]

theorem run_rename_allOrNothing_written :
    RunEnds (mixedStep FileSystem.standardInput) start writtenAndOpenFiles fun s =>
      ∃ s', s.fsCall FileSystem.standardInput
            (.rename (.fromRoot "f".toList) (.fromRoot "g".toList)) = some (.ok 0, s') ∧
        MemMount.Renamed s.fs.mem s'.fs.mem (.fromRoot "f".toList) (.fromRoot "g".toList) ∧
        s'.files = s.files := by
  have hguard : Guarded (mixedStep FileSystem.standardInput) KeepsListing start
      writtenAndOpenFiles := by decide
  have hends : RunEnds (mixedStep FileSystem.standardInput) start writtenAndOpenFiles fun s =>
      s.fs.KeepsListing (.rename (.fromRoot "f".toList) (.fromRoot "g".toList)) ∧
      s.fs.mem.renameSafe (.fromRoot "f".toList) (.fromRoot "g".toList) = true ∧
      (s.fsCall FileSystem.standardInput
        (.rename (.fromRoot "f".toList) (.fromRoot "g".toList))).map Prod.fst = some (.ok 0) := by
    decide
  obtain ⟨s, hs, hlisted, hsafe, hok⟩ := hends
  obtain ⟨⟨r, s'⟩, hcall, hr⟩ := Option.map_eq_some_iff.mp hok
  cases hr
  exact ⟨s, hs, s', hcall, (run_rename_allOrNothing FileSystem.standardInput writtenAndOpenFiles s s'
    _ _ _ hguard hs hlisted hsafe hcall).1⟩

end Io

end Zrt.Fs
