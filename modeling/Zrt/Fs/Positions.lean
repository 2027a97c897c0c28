import Zrt.Fs.Accounting
import Zrt.Fs.Io

/-!
# Positions of descriptors

Duplicated descriptors share an open file description, and so the offset in it; descriptors of
different opens do not. A ledger of the calls says which open a descriptor goes back to and where
that open stands.
-/

namespace Zrt.Fs

open Zrt.Framework

/-! ## What the positions should be -/

/-- Which open each descriptor goes back to, and the position of each open. -/
structure Ledger where
  holder : Nat → Option Nat
  position : Nat → Int
  opens : Nat

/-- The offset in the description of a descriptor. -/
def Io.offsetOf (s : Io) (fd : Nat) : Option Int :=
  ((s.fs.files.handles.entry fd).bind HandleItem.openFileDescriptionId).map s.offsets

namespace Ledger

def start : Ledger := ⟨fun _ => none, fun _ => 0, 0⟩

def opened (g : Ledger) (fd : Nat) (position : Int) : Ledger :=
  ⟨Function.update g.holder fd (some g.opens), Function.update g.position g.opens position,
    g.opens + 1⟩

def duplicated (g : Ledger) (oldfd fd : Nat) : Ledger :=
  { g with holder := Function.update g.holder fd (g.holder oldfd) }

def closed (g : Ledger) (fd : Nat) : Ledger :=
  { g with holder := Function.update g.holder fd none }

def moved (g : Ledger) (fd : Nat) (f : Int → Int) : Ledger :=
  match g.holder fd with
  | some i => { g with position := Function.update g.position i (f (g.position i)) }
  | none => g

/-- An open begins where it is found; `read` and `write` advance by the bytes they transfer and
`lseek` goes where it says. `pread`, `pwrite` and failed calls move nothing. -/
def record (g : Ledger) (s' : Io) : IoCall → Except Errno Int → Ledger
  | .memOpen _ _ _, .ok fd => g.opened fd.toNat ((s'.offsetOf fd.toNat).getD 0)
  | .dup oldfd, .ok fd => g.duplicated oldfd fd.toNat
  | .dup2 oldfd _, .ok fd => g.duplicated oldfd fd.toNat
  | .close fd, .ok _ => g.closed fd
  | .read fd _, .ok n => g.moved fd (· + n)
  | .write fd _ _, .ok n => g.moved fd (· + n)
  | .lseek fd _ _, .ok p => g.moved fd fun _ => p
  | _, _ => g

end Ledger

/-- One call, and its entry in the ledger. -/
def recordedStep (ch : Channels) (x : Io × Ledger) (c : IoCall) : Option (Io × Ledger) :=
  (x.1.call ch c).map fun r => (r.2, x.2.record r.2 c r.1)

/-- A `pread` or `pwrite` fails, or it ends where the position is. -/
def KeepsPosition (s : Io) : IoCall → Prop
  | .pread fd count offset => ∀ o, s.fs.openFile fd = some o → o.flags.wronly = false →
      offset + MemFile.readLen (s.files o.data).len offset count = s.offsets o.id
  | .pwrite fd _ bytes offset => ∀ o, s.fs.openFile fd = some o → o.flags.wronly ≠ o.flags.rdwr →
      offset + bytes.length = s.offsets o.id
  | _ => True

instance (s : Io) : (c : IoCall) → Decidable (KeepsPosition s c)
  | .pread fd count offset =>
      inferInstanceAs (Decidable (∀ o ∈ s.fs.openFile fd, o.flags.wronly = false →
        offset + MemFile.readLen (s.files o.data).len offset count = s.offsets o.id))
  | .pwrite fd _ bytes offset =>
      inferInstanceAs (Decidable (∀ o ∈ s.fs.openFile fd, o.flags.wronly ≠ o.flags.rdwr →
        offset + bytes.length = s.offsets o.id))
  | .memOpen _ _ _ | .dup _ | .dup2 _ _ | .close _ | .read _ _ | .write _ _ _ | .lseek _ _ _ =>
      isTrue trivial

/-! ## The tables of descriptors -/

namespace OpenFiles

variable {t : OpenFiles}

/-- The description of a new descriptor is the one that was found free. -/
theorem openDescriptor_ofd (t : OpenFiles) (mountFs : MountFs) (inode parent : Nat)
    (flags : OpenFlags) {fd : Nat} (hfd : (t.openDescriptor mountFs inode parent flags).1 = some fd) :
    ∀ k, (t.openDescriptor mountFs inode parent flags).2.handles.entry k =
      if k = fd then some ⟨mountFs, inode, parent, (t.pool.getnewOfd flags).1⟩
      else t.handles.entry k := by
  have halloc := allocateHandle_entry t.handles ⟨mountFs, inode, parent, (t.pool.getnewOfd flags).1⟩
  unfold openDescriptor at hfd ⊢
  cases hh : (t.handles.allocateHandle ⟨mountFs, inode, parent, (t.pool.getnewOfd flags).1⟩).1 with
  | none =>
      simp only [hh] at hfd
      cases hfd
  | some fd' =>
      rw [hh] at halloc
      simp only [hh, Option.some.injEq] at hfd
      subst hfd
      simp only [hh]
      exact halloc.2

theorem Accounts.getnewOfd_unused (h : Accounts none t) {flags : OpenFlags} {id : Nat}
    (hid : (t.pool.getnewOfd flags).1 = some id) {fd : Nat} {item : HandleItem}
    (hentry : t.handles.entry fd = some item) : item.openFileDescriptionId ≠ some id := by
  intro hofd
  have hpos : 0 < t.handlesOf id :=
    holders_pos_iff.mpr ⟨item, List.mem_of_getElem? (handles_entry_eq_some.mp hentry), hofd⟩
  unfold OpenFilesPool.getnewOfd at hid
  split at hid
  · cases hid
  · rename_i i hseek
    cases hid
    obtain ⟨f, hf, hfree⟩ := seekUnusedSlot_eq_some hseek
    have hcount := h.refcount_eq _ f hf
    have hzero : f.refcount = 0 := by simpa using hfree
    omega

end OpenFiles

namespace FileSystem

variable {fs fs' : FileSystem} {r : Except Errno Nat}

private theorem memOpenNode_answer {ino parent : Nat} {flags : OpenFlags}
    (hcall : fs.memOpenNode ino parent flags = some (r, fs')) :
    (∃ e, r = .error e ∧ e ≠ .enoent) ∨
      ∃ fd, r = .ok fd ∧ (fs.files.openDescriptor .memory ino parent flags).1 = some fd := by
  unfold memOpenNode at hcall
  cases hfd : (fs.files.openDescriptor .memory ino parent flags).1 with
  | none =>
      simp only [hfd] at hcall
      cases hcall
      exact .inl ⟨_, rfl, by decide⟩
  | some fd =>
      simp only [hfd] at hcall
      obtain ⟨d, -, heq⟩ := Option.map_eq_some_iff.mp hcall
      split at heq
      · cases heq
        exact .inl ⟨_, rfl, by decide⟩
      · split at heq
        · cases heq
          exact .inr ⟨fd, rfl, rfl⟩
        · cases heq
          exact .inr ⟨fd, rfl, rfl⟩

theorem memOpen_files {path : AbsolutePath} {flags : OpenFlags} {mode : Nat}
    (hcall : fs.memOpen path flags mode = some (r, fs')) :
    (r = .error .enoent ∧ fs'.files = fs.files) ∨
    ∃ ino parent, fs'.files = (fs.files.openDescriptor .memory ino parent flags).2 ∧
      ((∃ e, r = .error e ∧ e ≠ .enoent) ∨
        ∃ fd, r = .ok fd ∧ (fs.files.openDescriptor .memory ino parent flags).1 = some fd) := by
  obtain ⟨⟨r₁, mem⟩, -, hcall⟩ := Option.bind_eq_some_iff.mp hcall
  cases r₁ with
  | error e =>
      cases hcall
      exact .inl ⟨rfl, rfl⟩
  | ok u =>
      obtain ⟨node, -, hcall⟩ := Option.bind_eq_some_iff.mp hcall
      cases node with
      | error e =>
          cases hcall
          exact .inl ⟨rfl, rfl⟩
      | ok ino =>
          obtain ⟨parent, -, hcall⟩ := Option.bind_eq_some_iff.mp hcall
          have hfiles := memOpenNode_files hcall
          refine .inr ⟨ino, _, hfiles, ?_⟩
          have hanswer := memOpenNode_answer hcall
          exact hanswer

theorem openFile_eq_some {fd : Nat} {o : OpenFile} (h : fs.openFile fd = some o) :
    ∃ item, fs.files.handles.entry fd = some item ∧ item.openFileDescriptionId = some o.id := by
  obtain ⟨item, hitem, h⟩ := Option.bind_eq_some_iff.mp h
  obtain ⟨id, hid, h⟩ := Option.bind_eq_some_iff.mp h
  obtain ⟨ofd, -, h⟩ := Option.bind_eq_some_iff.mp h
  obtain ⟨node, -, rfl⟩ := Option.map_eq_some_iff.mp h
  exact ⟨item, (Option.filter_eq_some_iff.mp hitem).1, hid⟩

end FileSystem


/-! ## The ledger is right -/

/-- Each description that a tracked descriptor carries belongs to one open, and holds its position. -/
structure Agrees (s : Io) (g : Ledger) (owner : Nat → Option Nat) : Prop where
  accounts : s.fs.files.Accounts none
  small : ∀ data, (s.files data).capacity < 2 ^ 31
  holder_eq : ∀ fd, g.holder fd =
    ((s.fs.files.handles.entry fd).bind HandleItem.openFileDescriptionId).bind owner
  position_eq : ∀ id i, owner id = some i → s.offsets id = g.position i
  distinct : ∀ id id' i, owner id = some i → owner id' = some i → id = id'
  numbered : ∀ id i, owner id = some i → i < g.opens

namespace Agrees

variable {s : Io} {g : Ledger} {owner : Nat → Option Nat} {fd : Nat}

private theorem start : Agrees Io.start Ledger.start fun _ => none where
  accounts := OpenFiles.accounts_start
  small := fun _ => Nat.two_pow_pos 31
  holder_eq := fun _ => (Option.bind_fun_none _).symm
  position_eq := fun _ _ h => by cases h
  distinct := fun _ _ _ h => by cases h
  numbered := fun _ _ h => by cases h

theorem setFile (h : Agrees s g owner) (data : Nat) {f : MemFile} (hf : f.capacity < 2 ^ 31) :
    Agrees (s.setFile data f) g owner where
  accounts := h.accounts
  small := by
    intro k
    by_cases hk : k = data
    · subst hk
      simp only [Io.setFile, Function.update_self]
      exact hf
    · simp only [Io.setFile, Function.update_of_ne hk]
      exact h.small k
  holder_eq := h.holder_eq
  position_eq := h.position_eq
  distinct := h.distinct
  numbered := h.numbered

theorem setOffset (h : Agrees s g owner) {o : OpenFile} (ho : s.fs.openFile fd = some o)
    (f : Int → Int) : Agrees (s.setOffset o.id (f (s.offsets o.id))) (g.moved fd f) owner := by
  obtain ⟨item, hentry, hid⟩ := FileSystem.openFile_eq_some ho
  have hholder : g.holder fd = owner o.id := by
    rw [h.holder_eq, hentry, Option.bind_some, hid, Option.bind_some]
  unfold Ledger.moved
  rw [hholder]
  cases howner : owner o.id with
  | none =>
      refine ⟨h.accounts, h.small, h.holder_eq, ?_, h.distinct, h.numbered⟩
      intro id i hi
      have hne : id ≠ o.id := by
        rintro rfl
        rw [howner] at hi
        cases hi
      simp only [Io.setOffset, Function.update_of_ne hne]
      exact h.position_eq id i hi
  | some j =>
      refine ⟨h.accounts, h.small, h.holder_eq, ?_, h.distinct, h.numbered⟩
      intro id i hi
      by_cases hne : id = o.id
      · subst hne
        rw [howner] at hi
        cases hi
        simp only [Io.setOffset, Function.update_self, h.position_eq _ _ howner]
      · have hij : i ≠ j := by
          rintro rfl
          exact hne (h.distinct id o.id i hi howner)
        simp only [Io.setOffset, Function.update_of_ne hne, Function.update_of_ne hij]
        exact h.position_eq id i hi

theorem of_entries (h : Agrees s g owner) {fs : FileSystem} {holder : Nat → Option Nat}
    (haccounts : fs.files.Accounts none)
    (hholder : ∀ k, holder k =
      ((fs.files.handles.entry k).bind HandleItem.openFileDescriptionId).bind owner) :
    Agrees { s with fs := fs } { g with holder := holder } owner where
  accounts := haccounts
  small := h.small
  holder_eq := hholder
  position_eq := h.position_eq
  distinct := h.distinct
  numbered := h.numbered

private theorem update_none_eq_some {id k i : Nat} (h : Function.update owner id none k = some i) :
    k ≠ id ∧ owner k = some i := by
  have hne : k ≠ id := by
    rintro rfl
    rw [Function.update_self] at h
    cases h
  rw [Function.update_of_ne hne] at h
  exact ⟨hne, h⟩

theorem bind_owner_update {h : HandleAllocator} {id : Nat}
    (hunused : ∀ k item, h.entry k = some item → item.openFileDescriptionId ≠ some id)
    (x : Option Nat) (k : Nat) :
    ((h.entry k).bind HandleItem.openFileDescriptionId).bind (Function.update owner id x) =
      ((h.entry k).bind HandleItem.openFileDescriptionId).bind owner := by
  cases hentry : h.entry k with
  | none => rfl
  | some item =>
      rw [Option.bind_some]
      cases hofd : item.openFileDescriptionId with
      | none => rfl
      | some id' =>
          have hne : id' ≠ id := by
            rintro rfl
            exact hunused k item hentry hofd
          rw [Option.bind_some, Option.bind_some, Function.update_of_ne hne]

theorem disown (h : Agrees s g owner) {id : Nat}
    (hunused : ∀ k item, s.fs.files.handles.entry k = some item →
      item.openFileDescriptionId ≠ some id) (x : Int) :
    Agrees (s.setOffset id x) g (Function.update owner id none) where
  accounts := h.accounts
  small := h.small
  holder_eq := fun k => (h.holder_eq k).trans (bind_owner_update hunused none k).symm
  position_eq := by
    intro id' i hi
    obtain ⟨hne, hi⟩ := update_none_eq_some hi
    simp only [Io.setOffset, Function.update_of_ne hne]
    exact h.position_eq id' i hi
  distinct := fun a b i ha hb =>
    h.distinct a b i (update_none_eq_some ha).2 (update_none_eq_some hb).2
  numbered := fun a i ha => h.numbered a i (update_none_eq_some ha).2

private theorem owner_ne_opens (h : Agrees s g owner) (id : Nat) : owner id ≠ some g.opens :=
  fun he => Nat.lt_irrefl _ (h.numbered id _ he)

private theorem opened (h : Agrees s g owner) {id : Nat} {item : HandleItem} {fs : FileSystem}
    (hunused : ∀ k item, s.fs.files.handles.entry k = some item →
      item.openFileDescriptionId ≠ some id) (hitem : item.openFileDescriptionId = some id)
    (haccounts : fs.files.Accounts none)
    (hentries : ∀ k, fs.files.handles.entry k =
      if k = fd then some item else s.fs.files.handles.entry k) :
    Agrees { s with fs := fs } (g.opened fd (s.offsets id))
      (Function.update owner id (some g.opens)) where
  accounts := haccounts
  small := h.small
  holder_eq := by
    intro k
    rw [hentries k]
    by_cases hk : k = fd
    · subst hk
      simp only [Ledger.opened, Function.update_self, if_true, Option.bind_some, hitem]
    · simp only [Ledger.opened, Function.update_of_ne hk, if_neg hk, h.holder_eq k]
      exact (bind_owner_update hunused (some g.opens) k).symm
  position_eq := by
    intro id' i hi
    by_cases hid : id' = id
    · subst hid
      rw [Function.update_self] at hi
      cases hi
      simp only [Ledger.opened, Function.update_self]
    · rw [Function.update_of_ne hid] at hi
      have hne : i ≠ g.opens := Nat.ne_of_lt (h.numbered id' i hi)
      simp only [Ledger.opened, Function.update_of_ne hne]
      exact h.position_eq id' i hi
  distinct := by
    intro a b i ha hb
    rw [Function.update_apply] at ha hb
    split at ha
    · rename_i haid
      cases ha
      split at hb
      · rename_i hbid
        rw [haid, hbid]
      · exact absurd hb (h.owner_ne_opens b)
    · split at hb
      · cases hb
        exact absurd ha (h.owner_ne_opens a)
      · exact h.distinct a b i ha hb
  numbered := by
    intro a i ha
    rw [Function.update_apply] at ha
    split at ha
    · cases ha
      exact Nat.lt_succ_self _
    · exact Nat.lt_succ_of_lt (h.numbered a i ha)

end Agrees

/-! ## Opens -/

namespace Io

variable {ch : Channels} {s s' : Io} {g : Ledger} {owner : Nat → Option Nat} {path : AbsolutePath}
  {flags : OpenFlags} {mode : Nat}

private theorem memOpen_ok {p : Int} (hcall : s.memOpen path flags mode = some (.ok p, s')) :
    ∃ fd fs, p = (fd : Nat) ∧ s.fs.memOpen path flags mode = some (.ok fd, fs) ∧ s'.fs = fs ∧
      (∀ id, (s.fs.files.pool.getnewOfd flags).1 = some id →
        (∀ o, fs.openFile fd = some o → o.id = id) →
        ∃ x, s'.offsets = Function.update s.offsets id x) ∧
      ∀ data, (s'.files data).capacity = (s.files data).capacity := by
  obtain ⟨⟨r, fs⟩, hopen, hcall⟩ := Option.bind_eq_some_iff.mp hcall
  cases r with
  | error e => cases hcall
  | ok fd =>
      obtain ⟨s₁, hs₁, heq⟩ := Option.map_eq_some_iff.mp hcall
      obtain ⟨hp, hs'⟩ := Prod.mk.inj heq
      have hrenewed : (s.renewed flags fs).fs = fs ∧ (s.renewed flags fs).files = s.files ∧
          ∀ id, (s.fs.files.pool.getnewOfd flags).1 = some id →
            (s.renewed flags fs).offsets = Function.update s.offsets id 0 := by
        unfold renewed
        cases hid : (s.fs.files.pool.getnewOfd flags).1 with
        | none => exact ⟨rfl, rfl, fun id h => by cases h⟩
        | some id =>
            refine ⟨rfl, rfl, ?_⟩
            intro id' h
            cases h
            rfl
      obtain ⟨hfs, hfiles, hoffsets⟩ := hrenewed
      have hseek : s₁.fs = fs ∧ s₁.files = s.files ∧
          ∀ id, (s.fs.files.pool.getnewOfd flags).1 = some id →
            (∀ o, fs.openFile fd = some o → o.id = id) →
            ∃ x, s₁.offsets = Function.update s.offsets id x := by
        split at hs₁
        · obtain ⟨⟨r₁, s₂⟩, hlseek, rfl⟩ := Option.map_eq_some_iff.mp hs₁
          rcases lseek_cases hlseek with ⟨e, -, rfl⟩ | ⟨o, x, ho, -, -, rfl⟩
          · exact ⟨hfs, hfiles, fun id hid _ => ⟨0, hoffsets id hid⟩⟩
          · refine ⟨hfs, hfiles, ?_⟩
            intro id hid hsame
            rw [hfs] at ho
            refine ⟨x, ?_⟩
            simp only [setOffset, hoffsets id hid, hsame o ho, Function.update_idem]
        · cases hs₁
          exact ⟨hfs, hfiles, fun id hid _ => ⟨0, hoffsets id hid⟩⟩
      refine ⟨fd, fs, (Except.ok.inj hp).symm, hopen, ?_⟩
      obtain ⟨hfs₁, hfiles₁, hoffsets₁⟩ := hseek
      rw [← hs', ← hfiles₁]
      split
      · obtain ⟨hoff, hfs₂⟩ := offsets_truncate s₁ fd
        rw [hoff, hfs₂]
        exact ⟨hfs₁, hoffsets₁, files_truncate s₁ fd⟩
      · exact ⟨hfs₁, hoffsets₁, fun _ => rfl⟩

private theorem agrees_refused (h : Agrees s g owner) {ino parent : Nat} {fs : FileSystem}
    (hfiles : fs.files = (s.fs.files.openDescriptor .memory ino parent flags).2)
    (haccounts : fs.files.Accounts none) : ∃ owner', Agrees (s.renewed flags fs) g owner' := by
  have hentry := OpenFiles.openDescriptor_entry s.fs.files .memory ino parent flags
  have hholder : ∀ owner' : Nat → Option Nat, (∀ id, (s.fs.files.pool.getnewOfd flags).1 = some id →
      owner' id = none) →
      (∀ k, g.holder k =
        ((s.fs.files.handles.entry k).bind HandleItem.openFileDescriptionId).bind owner') →
      ∀ k, g.holder k =
        ((fs.files.handles.entry k).bind HandleItem.openFileDescriptionId).bind owner' := by
    intro owner' hnone hold k
    rw [hfiles]
    cases hfd : (s.fs.files.openDescriptor .memory ino parent flags).1 with
    | none =>
        rw [hfd] at hentry
        rw [hentry k]
        exact hold k
    | some fd =>
        rw [hfd] at hentry
        rw [OpenFiles.openDescriptor_ofd _ _ _ _ _ hfd k]
        by_cases hk : k = fd
        · subst hk
          rw [hold k, hentry.1, if_pos rfl]
          cases hid : (s.fs.files.pool.getnewOfd flags).1 with
          | none => rfl
          | some id => exact (hnone id hid).symm
        · rw [if_neg hk]
          exact hold k
  unfold renewed
  cases hid : (s.fs.files.pool.getnewOfd flags).1 with
  | none =>
      rw [hid] at hholder
      exact ⟨owner, h.of_entries haccounts (hholder owner (fun _ h => by cases h) h.holder_eq)⟩
  | some id =>
      have hdisowned := h.disown (fun k item => h.accounts.getnewOfd_unused hid) 0
      rw [hid] at hholder
      refine ⟨_, hdisowned.of_entries haccounts (hholder _ ?_ hdisowned.holder_eq)⟩
      intro id' hid'
      cases hid'
      exact Function.update_self ..

private theorem agrees_memOpen_error (h : Agrees s g owner) {e : Errno}
    (hcall : s.memOpen path flags mode = some (.error e, s')) :
    ∃ owner', Agrees s' g owner' := by
  obtain ⟨⟨r, fs⟩, hopen, hcall⟩ := Option.bind_eq_some_iff.mp hcall
  have haccounts := FileSystem.memOpen_accounts h.accounts hopen
  cases r with
  | ok fd =>
      obtain ⟨s₁, -, heq⟩ := Option.map_eq_some_iff.mp hcall
      cases heq
  | error e' =>
      cases hcall
      rcases FileSystem.memOpen_files hopen with ⟨he, hfiles⟩ | ⟨ino, parent, hfiles, hanswer⟩
      · rw [if_pos (Except.error.inj he)]
        refine ⟨owner, h.of_entries haccounts fun k => ?_⟩
        rw [hfiles]
        exact h.holder_eq k
      · rcases hanswer with ⟨e', he, hne⟩ | ⟨fd, he, -⟩
        · rw [Except.error.inj he, if_neg hne]
          exact agrees_refused h hfiles haccounts
        · cases he

private theorem agrees_memOpen_ok (h : Agrees s g owner) {p : Int}
    (hcall : s.memOpen path flags mode = some (.ok p, s')) :
    ∃ owner', Agrees s' (g.record s' (.memOpen path flags mode) (.ok p)) owner' := by
  obtain ⟨fd, fs, rfl, hopen, hfs, hoffsets, hcap⟩ := memOpen_ok hcall
  have haccounts := FileSystem.memOpen_accounts h.accounts hopen
  rcases FileSystem.memOpen_files hopen with
    ⟨he, -⟩ | ⟨ino, parent, hfiles, ⟨e, he, -⟩ | ⟨fd', he, hfd⟩⟩
  · cases he
  · cases he
  · cases he
    have hentries := OpenFiles.openDescriptor_ofd _ _ _ _ _ hfd
    rw [← hfiles] at hentries
    have hnew := hentries fd
    rw [if_pos rfl] at hnew
    obtain ⟨id, -, hid⟩ := haccounts.inRange _
      (List.mem_of_getElem? (OpenFiles.handles_entry_eq_some.mp hnew))
    have hunused : ∀ k item, s.fs.files.handles.entry k = some item →
        item.openFileDescriptionId ≠ some id :=
      fun k item => h.accounts.getnewOfd_unused hid
    have hsame : ∀ o, fs.openFile fd = some o → o.id = id := by
      intro o ho
      obtain ⟨item, hitem, hoid⟩ := FileSystem.openFile_eq_some ho
      rw [hnew] at hitem
      cases hitem
      rw [hid] at hoid
      exact (Option.some.inj hoid).symm
    obtain ⟨x, hx⟩ := hoffsets id hid hsame
    have hopened := (h.disown hunused x).opened hunused hid haccounts hentries
    have hstart : (s'.offsetOf fd).getD 0 = (s.setOffset id x).offsets id := by
      unfold offsetOf
      rw [hfs, hnew, Option.bind_some, hid, hx]
      rfl
    refine ⟨Function.update (Function.update owner id none) id (some g.opens), ?_⟩
    simp only [Ledger.record, Int.toNat_natCast, hstart]
    exact {
      accounts := hfs ▸ haccounts
      small := fun data => by rw [hcap]; exact h.small data
      holder_eq := fun k => by rw [hfs]; exact hopened.holder_eq k
      position_eq := fun a i ha => by rw [hx]; exact hopened.position_eq a i ha
      distinct := hopened.distinct
      numbered := hopened.numbered }

private theorem agrees_memOpen (h : Agrees s g owner) {r : Except Errno Int}
    (hcall : s.memOpen path flags mode = some (r, s')) :
    ∃ owner', Agrees s' (g.record s' (.memOpen path flags mode) r) owner' := by
  cases r with
  | error e => exact agrees_memOpen_error h hcall
  | ok p => exact agrees_memOpen_ok h hcall

/-! ## Every call -/

theorem agrees_duplicated (h : Agrees s g owner) {oldfd fd : Nat} {fs : FileSystem} {item : HandleItem}
    (haccounts : fs.files.Accounts none) (hitem : s.fs.files.handles.entry oldfd = some item)
    (hentries : ∀ k, fs.files.handles.entry k =
      if k = fd then some item else s.fs.files.handles.entry k) :
    Agrees { s with fs := fs } (g.duplicated oldfd fd) owner := by
  apply h.of_entries haccounts
  intro k
  rw [hentries k]
  by_cases hk : k = fd
  · subst hk
    rw [Function.update_self, if_pos rfl, h.holder_eq, hitem]
  · rw [Function.update_of_ne hk, if_neg hk, h.holder_eq]

private theorem agrees_dup (h : Agrees s g owner) {oldfd : Nat} {r : Except Errno Int}
    (hcall : s.call ch (.dup oldfd) = some (r, s')) :
    Agrees s' (g.record s' (.dup oldfd) r) owner := by
  obtain ⟨⟨r, fs⟩, hdup, heq⟩ := Option.map_eq_some_iff.mp hcall
  have haccounts := FileSystem.dup_accounts h.accounts hdup
  rcases FileSystem.dup_cases hdup with ⟨e, rfl, hentries⟩ | ⟨fd, item, rfl, hitem, -, hentries⟩
  · cases heq
    exact h.of_entries haccounts fun k => by rw [hentries]; exact h.holder_eq k
  · cases heq
    exact agrees_duplicated h haccounts hitem hentries

private theorem agrees_dup2 (h : Agrees s g owner) {oldfd newfd : Nat} {r : Except Errno Int}
    (hcall : s.call ch (.dup2 oldfd newfd) = some (r, s')) :
    Agrees s' (g.record s' (.dup2 oldfd newfd) r) owner := by
  obtain ⟨⟨r, fs⟩, hdup, heq⟩ := Option.map_eq_some_iff.mp hcall
  have haccounts := FileSystem.dup2_accounts h.accounts hdup
  rcases FileSystem.dup2_cases hdup with
    ⟨e, rfl, -, hentries⟩ | ⟨rfl, rfl, rfl⟩ | ⟨item, rfl, -, hitem, hentries⟩
  · cases heq
    exact h.of_entries haccounts fun k => by rw [hentries]; exact h.holder_eq k
  · cases heq
    apply h.of_entries haccounts
    intro k
    change Function.update g.holder oldfd (g.holder oldfd) k = _
    rw [Function.update_eq_self, h.holder_eq]
  · cases heq
    exact agrees_duplicated h haccounts hitem hentries

private theorem agrees_close (h : Agrees s g owner) {fd : Nat} {r : Except Errno Int}
    (hcall : s.call ch (.close fd) = some (r, s')) :
    Agrees s' (g.record s' (.close fd) r) owner := by
  obtain ⟨⟨r, fs⟩, hclose, heq⟩ := Option.map_eq_some_iff.mp hcall
  have haccounts := FileSystem.close_accounts h.accounts hclose
  rcases FileSystem.close_cases hclose with ⟨e, rfl, rfl⟩ | ⟨rfl, hfiles⟩
  · cases heq
    exact h
  · cases heq
    apply h.of_entries haccounts
    intro k
    rw [OpenFiles.closeDescriptor_entry hfiles k]
    by_cases hk : k = fd
    · subst hk
      rw [Function.update_self, if_pos rfl]
      rfl
    · rw [Function.update_of_ne hk, if_neg hk, h.holder_eq]

private theorem agrees_read (h : Agrees s g owner) {fd count : Nat} {r : Except Errno Int}
    (hcall : s.call ch (.read fd count) = some (r, s')) :
    Agrees s' (g.record s' (.read fd count) r) owner := by
  simp only [call, read] at hcall
  cases ho : s.fs.openFile fd with
  | none =>
      simp only [ho] at hcall
      cases hcall
      exact h
  | some o =>
      simp only [ho] at hcall
      rcases pread_cases h.small hcall with ⟨e, rfl, rfl⟩ | ⟨o', n, ho', -, -, rfl, rfl⟩
      · exact h
      · rw [ho] at ho'
        cases ho'
        exact h.setOffset ho (· + n)

private theorem agrees_write (h : Agrees s g owner) {fd : Nat} {junk : Nat → UInt8} {bytes : List UInt8}
    {r : Except Errno Int} (hcall : s.call ch (.write fd junk bytes) = some (r, s')) :
    Agrees s' (g.record s' (.write fd junk bytes) r) owner := by
  simp only [call, write] at hcall
  cases ho : s.fs.openFile fd with
  | none =>
      simp only [ho] at hcall
      cases hcall
      exact h
  | some o =>
      simp only [ho] at hcall
      rcases pwrite_cases h.small hcall with ⟨e, rfl, rfl⟩ | ⟨o', f, ho', -, hf, rfl, rfl⟩
      · exact h
      · rw [ho] at ho'
        cases ho'
        exact (h.setFile o.data hf).setOffset ho (· + (bytes.length : Int))

private theorem agrees_io (h : Agrees s g owner) {c : IoCall} {r : Except Errno Int}
    (hkeeps : KeepsPosition s c) (hcall : s.call ch c = some (r, s'))
    (hc : ∀ path flags mode, c ≠ .memOpen path flags mode) :
    Agrees s' (g.record s' c r) owner := by
  cases c with
  | memOpen path flags mode => exact absurd rfl (hc path flags mode)
  | dup oldfd => exact agrees_dup h hcall
  | dup2 oldfd newfd => exact agrees_dup2 h hcall
  | close fd => exact agrees_close h hcall
  | read fd count => exact agrees_read h hcall
  | write fd junk bytes => exact agrees_write h hcall
  | pread fd count offset =>
      rcases pread_cases h.small hcall with ⟨e, rfl, rfl⟩ | ⟨o, n, ho, hmode, hn, rfl, rfl⟩
      · exact h
      · have hsame := hkeeps o ho hmode
        rw [← hn] at hsame
        rw [hsame, setOffset, Function.update_eq_self]
        exact h
  | pwrite fd junk bytes offset =>
      rcases pwrite_cases h.small hcall with ⟨e, rfl, rfl⟩ | ⟨o, f, ho, hmode, hf, rfl, rfl⟩
      · exact h
      · have hsame := hkeeps o ho hmode
        have hstay : (s.setFile o.data f).setOffset o.id (s.offsets o.id) = s.setFile o.data f := by
          change (s.setFile o.data f).setOffset o.id ((s.setFile o.data f).offsets o.id) = _
          rw [setOffset, Function.update_eq_self]
        rw [hsame, hstay]
        exact h.setFile o.data hf
  | lseek fd offset whence =>
      rcases lseek_cases hcall with ⟨e, rfl, rfl⟩ | ⟨o, p, ho, -, rfl, rfl⟩
      · exact h
      · exact h.setOffset ho fun _ => p

private theorem agrees_step {x x' : Io × Ledger} {c : IoCall} (h : ∃ owner, Agrees x.1 x.2 owner)
    (hkeeps : KeepsPosition x.1 c) (hstep : recordedStep ch x c = some x') :
    ∃ owner, Agrees x'.1 x'.2 owner := by
  obtain ⟨owner, h⟩ := h
  obtain ⟨⟨r, s'⟩, hcall, rfl⟩ := Option.map_eq_some_iff.mp hstep
  cases c with
  | memOpen path flags mode => exact agrees_memOpen h hcall
  | _ => exact ⟨owner, agrees_io h hkeeps hcall (by intros; nofun)⟩

/-- In every run whose `pread` and `pwrite` calls fail or end where the position is, every descriptor
has the position of its open, and that is what `lseek` by zero from there answers. -/
theorem run_positions (ch : Channels) (calls : List IoCall) (x : Io × Ledger)
    (hguard : Guarded (recordedStep ch) (fun y c => KeepsPosition y.1 c) (start, .start) calls)
    (hrun : runFrom (recordedStep ch) (start, .start) calls = some x) (fd i : Nat)
    (hfd : x.2.holder fd = some i) :
    x.1.offsetOf fd = some (x.2.position i) ∧
      ∀ p s', x.1.lseek fd 0 .seekCur = some (.ok p, s') → p = x.2.position i := by
  have hagrees : ∃ owner, Agrees x.1 x.2 owner :=
    runFrom_invariant (fun _ _ _ h hk hs => agrees_step h hk hs) calls (start, .start) x
      ⟨_, Agrees.start⟩ hguard hrun
  obtain ⟨owner, h⟩ := hagrees
  rw [h.holder_eq] at hfd
  obtain ⟨id, hid, howner⟩ := Option.bind_eq_some_iff.mp hfd
  have hoffset := h.position_eq id i howner
  refine ⟨by rw [offsetOf, hid, Option.map_some, hoffset], ?_⟩
  intro p s' hseek
  rcases lseek_cases hseek with ⟨e, he, -⟩ | ⟨o, q, ho, hto, hq, -⟩
  · cases he
  · obtain ⟨item, hitem, hoid⟩ := FileSystem.openFile_eq_some ho
    rw [hitem, Option.bind_some, hoid] at hid
    cases hid
    cases hq
    simp only [seekTo, Option.some.injEq, Int.add_zero] at hto
    rw [← hto, hoffset]

/-- A file with two descriptors, written through one and read through the other up to the position. -/
def sharedCalls : List IoCall :=
  [.memOpen (.fromRoot "f".toList) { creat := true, rdwr := true } 0o600, .dup 0,
    .write 0 (fun _ => 0) [1, 2, 3], .pread 1 2 1, .lseek 1 (-1) .seekCur]

theorem run_positions_shared :
    Guarded (recordedStep FileSystem.standardInput) (fun y c => KeepsPosition y.1 c)
        (start, .start) sharedCalls ∧
      RunEnds (recordedStep FileSystem.standardInput) (start, .start) sharedCalls fun x =>
        x.2.holder 1 = some 0 ∧ x.1.offsetOf 1 = some (x.2.position 0) ∧
          ∀ p s', x.1.lseek 1 0 .seekCur = some (.ok p, s') → p = x.2.position 0 := by
  have hguard : Guarded (recordedStep FileSystem.standardInput) (fun y c => KeepsPosition y.1 c)
      (start, .start) sharedCalls := by decide
  have hends : RunEnds (recordedStep FileSystem.standardInput) (start, .start) sharedCalls fun x =>
      x.2.holder 1 = some 0 := by decide
  obtain ⟨x, hrun, hfd⟩ := hends
  exact ⟨hguard, x, hrun, hfd, run_positions FileSystem.standardInput sharedCalls x hguard hrun 1 0 hfd⟩

/-- Three bytes are written; reading the first of them with `pread` moves the position behind it. -/
theorem pread_moves_position :
    replies (call FileSystem.standardInput) start
      [.memOpen (.fromRoot "f".toList) { creat := true, rdwr := true } 0o600,
        .write 0 (fun _ => 0) [1, 2, 3], .lseek 0 0 .seekCur, .pread 0 1 0, .lseek 0 0 .seekCur] =
      some [.ok 0, .ok 3, .ok 3, .ok 1, .ok 1] := by
  decide

end Io

end Zrt.Fs
