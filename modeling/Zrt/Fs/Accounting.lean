import Zrt.Fs.FileSystem

/-!
# Accounting of descriptors

Every call leaves the reference counts of the open file descriptions in agreement with the handle
table, whether it succeeds or fails.
-/

namespace Zrt.Fs

open Zrt.Framework

namespace FileSystem

variable {ch : Channels} {fs fs' : FileSystem} {r : Except Errno Nat}

private theorem channelsOpen_accounts (h : fs.files.Accounts none) {path : AbsolutePath} {flags : OpenFlags}
    (hcall : channelsOpen ch fs path flags = some (r, fs')) : fs'.files.Accounts none := by
  rcases channelsOpen_cases hcall with rfl | ⟨inode, parent, rfl⟩
  · exact h
  · exact h.openDescriptor .channels inode parent flags

private theorem channelsClose_accounts (h : fs.files.Accounts none) {fd : Nat}
    (hcall : channelsClose ch fs fd = some (r, fs')) : fs'.files.Accounts none := by
  rcases channelsClose_cases hcall with ⟨e, -, rfl⟩ | ⟨-, files, hfiles, rfl⟩
  · exact h
  · exact h.closeDescriptor hfiles

private theorem memOpenNode_accounts (h : fs.files.Accounts none) {ino parent : Nat} {flags : OpenFlags}
    (hcall : fs.memOpenNode ino parent flags = some (r, fs')) : fs'.files.Accounts none := by
  have hopen := h.openDescriptor .memory ino parent flags
  unfold memOpenNode at hcall
  cases hfd : (fs.files.openDescriptor .memory ino parent flags).1 with
  | none =>
      simp only [hfd] at hcall
      cases hcall
      exact hopen
  | some fd =>
      simp only [hfd] at hcall
      obtain ⟨d, -, heq⟩ := Option.map_eq_some_iff.mp hcall
      split at heq
      · cases heq
        exact hopen
      · split at heq
        · cases heq
          exact hopen
        · cases heq
          exact hopen

theorem memOpen_accounts (h : fs.files.Accounts none) {path : AbsolutePath} {flags : OpenFlags}
    {mode : Nat} (hcall : fs.memOpen path flags mode = some (r, fs')) :
    fs'.files.Accounts none := by
  obtain ⟨created, -, hcall⟩ := Option.bind_eq_some_iff.mp hcall
  split at hcall
  · cases hcall
    exact h
  · obtain ⟨node, -, hcall⟩ := Option.bind_eq_some_iff.mp hcall
    split at hcall
    · cases hcall
      exact h
    · obtain ⟨parent, -, hcall⟩ := Option.bind_eq_some_iff.mp hcall
      apply memOpenNode_accounts _ hcall
      exact h

private theorem memClose_accounts (h : fs.files.Accounts none) {fd : Nat}
    (hcall : fs.memClose fd = some (r, fs')) : fs'.files.Accounts none := by
  unfold memClose at hcall
  split at hcall
  · cases hcall
    exact h
  · obtain ⟨d, -, hcall⟩ := Option.bind_eq_some_iff.mp hcall
    obtain ⟨removed, -, hcall⟩ := Option.bind_eq_some_iff.mp hcall
    split at hcall
    · cases hcall
    · obtain ⟨files, hfiles, heq⟩ := Option.map_eq_some_iff.mp hcall
      cases heq
      exact h.closeDescriptor hfiles

theorem close_accounts (h : fs.files.Accounts none) {fd : Nat}
    (hcall : close ch fs fd = some (r, fs')) : fs'.files.Accounts none := by
  unfold close at hcall
  split at hcall
  · cases hcall
    exact h
  · exact memClose_accounts h hcall
  · exact channelsClose_accounts h hcall

theorem duplicated_eq_some {d : Option (Option Nat × OpenFiles)}
    (hcall : fs.duplicated d = some (r, fs')) : ∃ x, d = some x ∧ fs'.files = x.2 := by
  obtain ⟨x, hx, heq⟩ := Option.map_eq_some_iff.mp hcall
  split at heq
  · cases heq
    exact ⟨x, hx, rfl⟩
  · cases heq
    exact ⟨x, hx, rfl⟩

theorem dup_accounts (h : fs.files.Accounts none) {oldfd : Nat}
    (hcall : fs.dup oldfd = some (r, fs')) : fs'.files.Accounts none := by
  unfold dup at hcall
  split at hcall
  · cases hcall
    exact h
  · obtain ⟨item, -, hcall⟩ := Option.bind_eq_some_iff.mp hcall
    obtain ⟨x, hx, hfiles⟩ := duplicated_eq_some hcall
    rw [hfiles]
    exact h.dupDescriptor hx

theorem dup2_accounts (h : fs.files.Accounts none) {oldfd newfd : Nat}
    (hcall : dup2 ch fs oldfd newfd = some (r, fs')) : fs'.files.Accounts none := by
  unfold dup2 at hcall
  split at hcall
  · cases hcall
    exact h
  · split at hcall
    · cases hcall
      exact h
    · obtain ⟨closed, hclosed, hcall⟩ := Option.bind_eq_some_iff.mp hcall
      obtain ⟨item, -, hcall⟩ := Option.bind_eq_some_iff.mp hcall
      obtain ⟨x, hx, hfiles⟩ := duplicated_eq_some hcall
      rw [hfiles]
      exact (close_accounts h hclosed).dupDescriptor2 hx

theorem step_accounts (h : fs.files.Accounts none) {c : FsCall} (hstep : step ch fs c = some fs') :
    fs'.files.Accounts none := by
  obtain ⟨⟨r, fs₁⟩, hcall, rfl⟩ := Option.map_eq_some_iff.mp hstep
  cases c with
  | memOpen path flags mode => exact memOpen_accounts h hcall
  | channelsOpen path flags => exact channelsOpen_accounts h hcall
  | close fd => exact close_accounts h hcall
  | dup oldfd => exact dup_accounts h hcall
  | dup2 oldfd newfd => exact dup2_accounts h hcall
  | mkdir path mode => exact (ofMem_eq_some hcall).1 ▸ h
  | rmdir path => exact (ofMem_eq_some hcall).1 ▸ h
  | link oldpath newpath => exact (ofMem_eq_some hcall).1 ▸ h
  | unlink path => exact (ofMem_eq_some hcall).1 ▸ h
  | rename oldpath newpath => exact (ofMem_eq_some hcall).1 ▸ h

/-- After any run of calls the reference counts are the numbers of handles. -/
theorem run_balanced (ch : Channels) (calls : List FsCall) (fs : FileSystem)
    (hrun : runFrom (step ch) start calls = some fs) : fs.files.Balanced := by
  have hkeep : ∀ s c t, OpenFiles.Accounts none (files s) → step ch s c = some t →
      OpenFiles.Accounts none (files t) := fun s c t h hstep => step_accounts h hstep
  exact (runFrom_preserves hkeep calls start fs OpenFiles.accounts_start hrun).balanced

/-- A channels mount with standard input alone. -/
def standardInput : Channels where
  mount := ⟨[.fromRoot "dev/stdin".toList], [⟨12, 12, 3, ['/']⟩, ⟨13, 12, 2, "/dev".toList⟩]⟩
  attrs := fun _ => ⟨.rgetrput, false, .chr, true, true, true, true⟩

/-- Standard input twice, one of them overwritten with a duplicate of a new file. -/
def redirectCalls : List FsCall :=
  [.channelsOpen (.fromRoot "dev/stdin".toList) {}, .dup 0,
    .memOpen (.fromRoot "f".toList) { creat := true, rdwr := true } 0o600, .dup2 2 1, .close 0]

/-- A run over both mounts that completes. -/
theorem run_balanced_redirect :
    ∃ fs, runFrom (step standardInput) start redirectCalls = some fs ∧ fs.files.Balanced := by
  have hsome : (runFrom (step standardInput) start redirectCalls).isSome := by decide
  obtain ⟨fs, hfs⟩ := Option.isSome_iff_exists.mp hsome
  exact ⟨fs, hfs, run_balanced standardInput redirectCalls fs hfs⟩

end FileSystem

end Zrt.Fs
