import Zrt.Framework.SlotTable

/-!
# Handles and open file descriptions

The handle table maps descriptors to an inode of a mount and to an open file description; the pool
counts for every description the handles that carry it. Both are arrays of the same size with a
cursor of their own. A description id of `none` is the value minus one.
-/

namespace Zrt.Fs

open Zrt.Framework

def maxHandlesCount : Nat := 1000

/-- The mount a handle belongs to. -/
inductive MountFs where
  | channels
  | memory
deriving DecidableEq

/-- The open flags the mounts look at, bit by bit. -/
structure OpenFlags where
  creat : Bool := false
  excl : Bool := false
  trunc : Bool := false
  append : Bool := false
  wronly : Bool := false
  rdwr : Bool := false
  directory : Bool := false
deriving DecidableEq

structure HandleItem where
  mountFs : MountFs
  inode : Nat
  parentDirInode : Nat
  openFileDescriptionId : Option Nat
deriving DecidableEq

/-- `none` is an available slot. -/
structure HandleAllocator where
  slots : List (Option HandleItem)
  firstUnusedSlot : Option Nat

structure OpenFileDesc where
  flags : OpenFlags
  refcount : Nat

structure OpenFilesPool where
  openFiles : List OpenFileDesc
  firstUnusedSlot : Option Nat

namespace HandleAllocator

def start : HandleAllocator := ⟨List.replicate maxHandlesCount none, some 0⟩

def entry (h : HandleAllocator) (handle : Nat) : Option HandleItem := h.slots.getD handle none

def allocateHandle (h : HandleAllocator) (item : HandleItem) : Option Nat × HandleAllocator :=
  match seekUnusedSlot Option.isNone h.slots h.firstUnusedSlot with
  | none => (none, { h with firstUnusedSlot := none })
  | some i => (some i, ⟨h.slots.set i (some item), some i⟩)

/-- Take a given slot; fails when it is in use or out of range. -/
def allocateHandle2 (h : HandleAllocator) (item : HandleItem) (handle : Nat) :
    Option HandleAllocator :=
  if h.slots[handle]? = some none then some { h with slots := h.slots.set handle (some item) }
  else none

def freeHandle (h : HandleAllocator) (handle : Nat) : Option HandleAllocator :=
  (h.entry handle).map fun _ =>
    ⟨h.slots.set handle none, h.firstUnusedSlot.map fun c => if handle < c then handle else c⟩

end HandleAllocator

namespace OpenFilesPool

def start : OpenFilesPool := ⟨List.replicate maxHandlesCount ⟨{}, 0⟩, some 0⟩

/-- The description behind an id, if it is in use. -/
def entry (p : OpenFilesPool) (id : Option Nat) : Option OpenFileDesc :=
  id.bind fun i => p.openFiles[i]?.filter fun f => 0 < f.refcount

def getnewOfd (p : OpenFilesPool) (flags : OpenFlags) : Option Nat × OpenFilesPool :=
  match seekUnusedSlot (fun f => f.refcount == 0) p.openFiles p.firstUnusedSlot with
  | none => (none, { p with firstUnusedSlot := none })
  | some i => (some i, ⟨p.openFiles.set i ⟨flags, 1⟩, some i⟩)

def referOfd (p : OpenFilesPool) (id : Option Nat) : Option OpenFilesPool :=
  id.bind fun i => (p.entry (some i)).map fun f =>
    { p with openFiles := p.openFiles.set i { f with refcount := f.refcount + 1 } }

/-- The cursor moves only when the last reference goes. -/
def releaseOfd (p : OpenFilesPool) (id : Option Nat) : Option OpenFilesPool :=
  id.bind fun i => (p.entry (some i)).map fun f =>
    ⟨p.openFiles.set i { f with refcount := f.refcount - 1 },
      if f.refcount = 1 then p.firstUnusedSlot.map fun c => if i < c then i else c
      else p.firstUnusedSlot⟩

/-- The flags of a description in use are replaced. -/
def setFlags (p : OpenFilesPool) (id : Option Nat) (flags : OpenFlags) : OpenFilesPool :=
  match id, p.entry id with
  | some i, some f => { p with openFiles := p.openFiles.set i { f with flags := flags } }
  | _, _ => p

end OpenFilesPool

/-- The two tables. -/
structure OpenFiles where
  handles : HandleAllocator
  pool : OpenFilesPool

namespace OpenFiles

def start : OpenFiles := ⟨.start, .start⟩

/-- The common part of the open functions. The result of `getnew_ofd` goes unchecked into the
handle; running out of handles releases the description. -/
def openDescriptor (t : OpenFiles) (mountFs : MountFs) (inode parentDirInode : Nat)
    (flags : OpenFlags) : Option Nat × OpenFiles :=
  let ofd := t.pool.getnewOfd flags
  let handle := t.handles.allocateHandle ⟨mountFs, inode, parentDirInode, ofd.1⟩
  match handle.1 with
  | some fd => (some fd, ⟨handle.2, ofd.2⟩)
  | none => (none, ⟨handle.2, (ofd.2.releaseOfd ofd.1).getD ofd.2⟩)

/-- The common part of the close functions. Releasing the description is asserted to succeed. -/
def closeDescriptor (t : OpenFiles) (fd : Nat) : Option OpenFiles :=
  (t.handles.entry fd).bind fun item =>
    (t.pool.releaseOfd item.openFileDescriptionId).bind fun pool =>
      (t.handles.freeHandle fd).map fun handles => ⟨handles, pool⟩

/-- `transparent_dup` on an open descriptor. -/
def dupDescriptor (t : OpenFiles) (item : HandleItem) : Option (Option Nat × OpenFiles) :=
  (t.pool.referOfd item.openFileDescriptionId).map fun pool =>
    let handle := t.handles.allocateHandle item
    match handle.1 with
    | some fd => (some fd, ⟨handle.2, pool⟩)
    | none => (none, ⟨handle.2, (pool.releaseOfd item.openFileDescriptionId).getD pool⟩)

/-- The last part of `transparent_dup2`, after the new descriptor has been closed. -/
def dupDescriptor2 (t : OpenFiles) (item : HandleItem) (newfd : Nat) :
    Option (Option Nat × OpenFiles) :=
  (t.pool.referOfd item.openFileDescriptionId).map fun pool =>
    match t.handles.allocateHandle2 item newfd with
    | some handles => (some newfd, ⟨handles, pool⟩)
    | none => (none, { t with pool := (pool.releaseOfd item.openFileDescriptionId).getD pool })

/-- `mm_mount_byhandle`: the mount of a used handle whose description is in use. -/
def mountByhandle (t : OpenFiles) (handle : Nat) : Option MountFs :=
  (t.handles.entry handle).bind fun item =>
    (t.pool.entry item.openFileDescriptionId).map fun _ => item.mountFs

/-- How many handles carry the description. -/
def handlesOf (t : OpenFiles) (id : Nat) : Nat :=
  holders HandleItem.openFileDescriptionId t.handles.slots id

/-- Reference counts agree with the handles. -/
structure Balanced (t : OpenFiles) : Prop where
  refcount_eq : ∀ id f, t.pool.openFiles[id]? = some f → f.refcount = t.handlesOf id
  inUse_iff : ∀ id, (t.pool.entry (some id)).isSome ↔ 0 < t.handlesOf id
  described : ∀ fd item, t.handles.entry fd = some item →
    (t.pool.entry item.openFileDescriptionId).isSome

/-- What the operations rely on: the cursors are low, the sizes equal, and every count is right. In
the middle of an operation one description may own a reference without a handle. -/
structure Accounts (owed : Option Nat) (t : OpenFiles) : Prop where
  handles_length : t.handles.slots.length = maxHandlesCount
  pool_length : t.pool.openFiles.length = maxHandlesCount
  handles_low : CursorLow Option.isNone t.handles.slots t.handles.firstUnusedSlot
  pool_low : CursorLow (fun f => f.refcount == 0) t.pool.openFiles t.pool.firstUnusedSlot
  refcount_eq : ∀ id f, t.pool.openFiles[id]? = some f →
    f.refcount = t.handlesOf id + if owed = some id then 1 else 0
  inRange : ∀ item, some item ∈ t.handles.slots →
    ∃ id < maxHandlesCount, item.openFileDescriptionId = some id

theorem accounts_start : Accounts none start where
  handles_length := List.length_replicate
  pool_length := List.length_replicate
  handles_low := fun i hi => absurd hi (Nat.not_lt_zero i)
  pool_low := fun i hi => absurd hi (Nat.not_lt_zero i)
  refcount_eq := by
    intro id f hf
    have hmem := List.mem_of_getElem? hf
    rw [(List.mem_replicate.mp hmem).2]
    have hzero : start.handlesOf id = 0 := by
      apply Nat.eq_zero_of_not_pos
      intro hpos
      obtain ⟨item, hitem, -⟩ := holders_pos_iff.mp hpos
      cases (List.mem_replicate.mp hitem).2
    rw [hzero]
    rfl
  inRange := fun item hitem => by cases (List.mem_replicate.mp hitem).2

section Lemmas

variable {owed : Option Nat} {t : OpenFiles} {i fd : Nat} {item : HandleItem}

theorem handles_entry_eq_some {h : HandleAllocator} :
    h.entry fd = some item ↔ h.slots[fd]? = some (some item) := by
  rw [HandleAllocator.entry, List.getD_eq_getElem?_getD]
  cases h.slots[fd]? <;> simp

theorem Accounts.exists_desc (h : Accounts owed t) (hi : i < maxHandlesCount) :
    ∃ f, t.pool.openFiles[i]? = some f := by
  rw [← h.pool_length] at hi
  exact ⟨t.pool.openFiles[i], List.getElem?_eq_getElem hi⟩

theorem Accounts.description (h : Accounts owed t) (hitem : some item ∈ t.handles.slots) :
    ∃ id f, item.openFileDescriptionId = some id ∧ t.pool.openFiles[id]? = some f ∧
      0 < f.refcount := by
  obtain ⟨id, hid, hofd⟩ := h.inRange item hitem
  obtain ⟨f, hget⟩ := h.exists_desc hid
  have hpos : 0 < t.handlesOf id := holders_pos_iff.mpr ⟨item, hitem, hofd⟩
  have hcount := h.refcount_eq id _ hget
  exact ⟨id, _, hofd, hget, by omega⟩

theorem pool_entry_eq_some {f : OpenFileDesc} :
    t.pool.entry (some i) = some f ↔ t.pool.openFiles[i]? = some f ∧ 0 < f.refcount := by
  simp [OpenFilesPool.entry, Option.filter_eq_some_iff]

theorem Accounts.balanced (h : Accounts none t) : t.Balanced where
  refcount_eq := fun id f hf => by simpa using h.refcount_eq id f hf
  inUse_iff := by
    intro id
    constructor
    · intro hsome
      obtain ⟨f, hf⟩ := Option.isSome_iff_exists.mp hsome
      obtain ⟨hget, hpos⟩ := pool_entry_eq_some.mp hf
      have hcount := h.refcount_eq id f hget
      simp only [reduceCtorEq, if_false] at hcount
      omega
    · intro hpos
      obtain ⟨item, hitem, hofd⟩ := holders_pos_iff.mp hpos
      obtain ⟨id', f, hid', hf, hfpos⟩ := h.description hitem
      rw [hofd] at hid'
      cases hid'
      exact Option.isSome_iff_exists.mpr ⟨f, pool_entry_eq_some.mpr ⟨hf, hfpos⟩⟩
  described := by
    intro fd item hentry
    have hmem := List.mem_of_getElem? (handles_entry_eq_some.mp hentry)
    obtain ⟨id, f, hid, hf, hpos⟩ := h.description hmem
    rw [hid]
    exact Option.isSome_iff_exists.mpr ⟨f, pool_entry_eq_some.mpr ⟨hf, hpos⟩⟩

/-! ## One table changes -/

theorem Accounts.gain (h : Accounts none t) (f' : OpenFileDesc) {f : OpenFileDesc}
    {cursor : Option Nat}
    (hf : t.pool.openFiles[i]? = some f) (hcount : f'.refcount = f.refcount + 1)
    (hlow : CursorLow (fun f => f.refcount == 0) t.pool.openFiles cursor) :
    Accounts (some i) { t with pool := ⟨t.pool.openFiles.set i f', cursor⟩ } where
  handles_length := h.handles_length
  pool_length := by rw [List.length_set, h.pool_length]
  handles_low := h.handles_low
  pool_low := hlow.set_used (by simp [hcount]) i
  refcount_eq := by
    intro id g hg
    have hold := h.refcount_eq id
    simp only [reduceCtorEq, if_false, Option.some.injEq] at hold ⊢
    rw [List.getElem?_set] at hg
    by_cases hid : i = id
    · subst hid
      rw [if_pos rfl, if_pos (List.getElem?_eq_some_iff.mp hf).1] at hg
      cases hg
      rw [if_pos rfl, hcount, hold f hf]
      rfl
    · rw [if_neg hid] at hg ⊢
      exact hold g hg
  inRange := h.inRange

theorem Accounts.release (h : Accounts (some i) t) (hi : i < maxHandlesCount) :
    ∃ p, t.pool.releaseOfd (some i) = some p ∧ Accounts none { t with pool := p } := by
  obtain ⟨f, hget⟩ := h.exists_desc hi
  have hcount := h.refcount_eq i _ hget
  rw [if_pos rfl] at hcount
  have hentry : t.pool.entry (some i) = some f :=
    pool_entry_eq_some.mpr ⟨hget, by omega⟩
  refine ⟨_, by rw [OpenFilesPool.releaseOfd, Option.bind_some, hentry, Option.map_some], ?_⟩
  constructor
  · exact h.handles_length
  · rw [List.length_set, h.pool_length]
  · exact h.handles_low
  · by_cases hlast : f.refcount = 1
    · simp only [hlast, if_true]
      exact h.pool_low.set_lowered i _
    · simp only [hlast, if_false]
      apply h.pool_low.set_used
      rw [beq_eq_false_iff_ne]
      show f.refcount - 1 ≠ 0
      omega
  · intro id g hg
    simp only [reduceCtorEq, if_false]
    rw [List.getElem?_set] at hg
    by_cases hid : i = id
    · subst hid
      rw [if_pos rfl, if_pos (List.getElem?_eq_some_iff.mp hget).1] at hg
      cases hg
      show f.refcount - 1 = t.handlesOf i + 0
      omega
    · rw [if_neg hid] at hg
      have hold := h.refcount_eq id g hg
      rwa [if_neg (fun he => hid (Option.some.inj he))] at hold
  · exact h.inRange

theorem Accounts.fill (h : Accounts (some i) t) (hi : i < maxHandlesCount)
    (hfd : t.handles.slots[fd]? = some none) (hitem : item.openFileDescriptionId = some i)
    {cursor : Option Nat} (hlow : CursorLow Option.isNone t.handles.slots cursor) :
    Accounts none { t with handles := ⟨t.handles.slots.set fd (some item), cursor⟩ } where
  handles_length := by rw [List.length_set, h.handles_length]
  pool_length := h.pool_length
  handles_low := hlow.set_used rfl fd
  pool_low := h.pool_low
  refcount_eq := by
    intro id f hf
    have hold := h.refcount_eq id f hf
    have hset := holders_set HandleItem.openFileDescriptionId hfd (some item) id
    simp only [holdsKey, Option.bind_none, Option.bind_some, hitem, reduceCtorEq, decide_false,
      Option.some.injEq, decide_eq_true_eq, if_false, Bool.false_eq_true] at hset hold ⊢
    exact hold.trans hset.symm
  inRange := by
    intro item' hmem
    rcases List.mem_or_eq_of_mem_set hmem with hmem | heq
    · exact h.inRange item' hmem
    · cases heq
      exact ⟨i, hi, hitem⟩

private theorem Accounts.vacate (h : Accounts none t) (hfd : t.handles.slots[fd]? = some (some item))
    (hitem : item.openFileDescriptionId = some i) :
    Accounts (some i) { t with handles := ⟨t.handles.slots.set fd none,
      t.handles.firstUnusedSlot.map fun c => if fd < c then fd else c⟩ } where
  handles_length := by rw [List.length_set, h.handles_length]
  pool_length := h.pool_length
  handles_low := h.handles_low.set_lowered fd none
  pool_low := h.pool_low
  refcount_eq := by
    intro id f hf
    have hold := h.refcount_eq id f hf
    have hset := holders_set HandleItem.openFileDescriptionId hfd none id
    simp only [holdsKey, Option.bind_none, Option.bind_some, hitem, reduceCtorEq, decide_false,
      Option.some.injEq, decide_eq_true_eq, if_false, Bool.false_eq_true, Nat.add_zero] at hset hold ⊢
    exact hold.trans hset.symm
  inRange := by
    intro item' hmem
    rcases List.mem_or_eq_of_mem_set hmem with hmem | heq
    · exact h.inRange item' hmem
    · cases heq

theorem Accounts.cursor_lost (h : Accounts owed t) :
    Accounts owed { t with handles := { t.handles with firstUnusedSlot := none } } :=
  { h with handles_low := fun j hj => absurd hj (Nat.not_lt_zero j) }

/-! ## Whole operations -/

theorem Accounts.allocate (h : Accounts (some i) t) (hi : i < maxHandlesCount) (item : HandleItem)
    (hitem : item.openFileDescriptionId = some i) :
    (∃ fd, (t.handles.allocateHandle item).1 = some fd ∧
      Accounts none { t with handles := (t.handles.allocateHandle item).2 }) ∨
    ((t.handles.allocateHandle item).1 = none ∧
      Accounts (some i) { t with handles := (t.handles.allocateHandle item).2 }) := by
  unfold HandleAllocator.allocateHandle
  cases hseek : seekUnusedSlot Option.isNone t.handles.slots t.handles.firstUnusedSlot with
  | none => exact Or.inr ⟨rfl, h.cursor_lost⟩
  | some fd =>
      obtain ⟨a, ha, hfree⟩ := seekUnusedSlot_eq_some hseek
      rw [Option.isNone_iff_eq_none.mp hfree] at ha
      exact Or.inl ⟨fd, rfl, h.fill hi ha hitem (seekUnusedSlot_cursorLow h.handles_low hseek)⟩

/-- Without a free description there is no free handle either: every description is carried by a
handle, and there are as many of both. -/
theorem Accounts.handles_full (h : Accounts none t)
    (hpool : seekUnusedSlot (fun f => f.refcount == 0) t.pool.openFiles
      t.pool.firstUnusedSlot = none) :
    seekUnusedSlot Option.isNone t.handles.slots t.handles.firstUnusedSlot = none := by
  have hheld : ∀ id < t.handles.slots.length,
      0 < holders HandleItem.openFileDescriptionId t.handles.slots id := by
    intro id hid
    rw [h.handles_length] at hid
    obtain ⟨f, hf⟩ := h.exists_desc hid
    have hused := seekUnusedSlot_eq_none h.pool_low hpool f (List.mem_of_getElem? hf)
    have hcount : f.refcount = t.handlesOf id := by simpa using h.refcount_eq id f hf
    rw [beq_eq_false_iff_ne, hcount] at hused
    exact Nat.pos_of_ne_zero hused
  have hfull := full_of_all_held hheld
  cases hseek : seekUnusedSlot Option.isNone t.handles.slots t.handles.firstUnusedSlot with
  | none => rfl
  | some fd =>
      obtain ⟨a, ha, hfree⟩ := seekUnusedSlot_eq_some hseek
      have hsome := hfull a (List.mem_of_getElem? ha)
      rw [Option.isNone_iff_eq_none.mp hfree] at hsome
      cases hsome

theorem Accounts.openDescriptor (h : Accounts none t) (mountFs : MountFs) (inode parent : Nat)
    (flags : OpenFlags) : Accounts none (t.openDescriptor mountFs inode parent flags).2 := by
  unfold OpenFiles.openDescriptor OpenFilesPool.getnewOfd
  cases hseek : seekUnusedSlot (fun f => f.refcount == 0) t.pool.openFiles
      t.pool.firstUnusedSlot with
  | none =>
      have hfull := h.handles_full hseek
      simp only [HandleAllocator.allocateHandle, hfull, OpenFilesPool.releaseOfd, Option.bind_none,
        Option.getD_none]
      exact { h.cursor_lost with pool_low := fun j hj => absurd hj (Nat.not_lt_zero j) }
  | some i =>
      obtain ⟨f, hf, hfree⟩ := seekUnusedSlot_eq_some hseek
      have hzero : f.refcount = 0 := by simpa using hfree
      have hi : i < maxHandlesCount := h.pool_length ▸ (List.getElem?_eq_some_iff.mp hf).1
      have hgain := h.gain ⟨flags, 1⟩ hf (by rw [hzero])
        (seekUnusedSlot_cursorLow h.pool_low hseek)
      rcases hgain.allocate hi ⟨mountFs, inode, parent, some i⟩ rfl with
        ⟨fd, hfd, hacc⟩ | ⟨hfd, hacc⟩
      · simp only [hfd]
        exact hacc
      · simp only [hfd]
        obtain ⟨p, hp, hrel⟩ := hacc.release hi
        simp only [hp, Option.getD_some]
        exact hrel

theorem Accounts.closeDescriptor (h : Accounts none t) {t' : OpenFiles}
    (hclose : t.closeDescriptor fd = some t') : Accounts none t' := by
  obtain ⟨item, hentry, hrest⟩ := Option.bind_eq_some_iff.mp hclose
  obtain ⟨p, hp, hfree⟩ := Option.bind_eq_some_iff.mp hrest
  obtain ⟨handles, hh, rfl⟩ := Option.map_eq_some_iff.mp hfree
  have hslot := handles_entry_eq_some.mp hentry
  obtain ⟨id, hid, hofd⟩ := h.inRange item (List.mem_of_getElem? hslot)
  rw [HandleAllocator.freeHandle, hentry, Option.map_some, Option.some.injEq] at hh
  obtain ⟨p', hp', hrel⟩ := (h.vacate hslot hofd).release hid
  rw [hofd] at hp
  change t.pool.releaseOfd (some id) = some p' at hp'
  rw [hp] at hp'
  cases hp'
  exact hh ▸ hrel

theorem Accounts.refer (h : Accounts none t) {p : OpenFilesPool}
    (hofd : item.openFileDescriptionId = some i)
    (hp : t.pool.referOfd item.openFileDescriptionId = some p) :
    i < maxHandlesCount ∧ Accounts (some i) { t with pool := p } := by
  rw [hofd, OpenFilesPool.referOfd, Option.bind_some] at hp
  obtain ⟨f, hf, rfl⟩ := Option.map_eq_some_iff.mp hp
  obtain ⟨hget, -⟩ := pool_entry_eq_some.mp hf
  exact ⟨h.pool_length ▸ (List.getElem?_eq_some_iff.mp hget).1, h.gain _ hget rfl h.pool_low⟩

theorem Accounts.dupDescriptor (h : Accounts none t) {r : Option Nat × OpenFiles}
    (hdup : t.dupDescriptor item = some r) : Accounts none r.2 := by
  obtain ⟨p, hp, rfl⟩ := Option.map_eq_some_iff.mp hdup
  cases hofd : item.openFileDescriptionId with
  | none =>
      rw [hofd] at hp
      cases hp
  | some i =>
      obtain ⟨hi, hacc⟩ := h.refer hofd hp
      rcases hacc.allocate hi item hofd with ⟨fd, hfd, hfill⟩ | ⟨hfd, hnone⟩
      · simp only [hfd]
        exact hfill
      · simp only [hfd]
        obtain ⟨p', hp', hrel⟩ := hnone.release hi
        simp only [hp', Option.getD_some]
        exact hrel

theorem Accounts.dupDescriptor2 (h : Accounts none t) {newfd : Nat} {r : Option Nat × OpenFiles}
    (hdup : t.dupDescriptor2 item newfd = some r) : Accounts none r.2 := by
  obtain ⟨p, hp, rfl⟩ := Option.map_eq_some_iff.mp hdup
  cases hofd : item.openFileDescriptionId with
  | none =>
      rw [hofd] at hp
      cases hp
  | some i =>
      obtain ⟨hi, hacc⟩ := h.refer hofd hp
      unfold HandleAllocator.allocateHandle2
      by_cases hfree : t.handles.slots[newfd]? = some none
      · simp only [hfree, if_true]
        exact hacc.fill hi hfree hofd h.handles_low
      · simp only [hfree, if_false]
        obtain ⟨p', hp', hrel⟩ := hacc.release hi
        simp only [hp', Option.getD_some]
        exact hrel

theorem Accounts.setFlags (h : Accounts none t) (id : Option Nat) (flags : OpenFlags) :
    Accounts none { t with pool := t.pool.setFlags id flags } := by
  unfold OpenFilesPool.setFlags
  split
  · rename_i i f hentry
    obtain ⟨hget, hpos⟩ := pool_entry_eq_some.mp hentry
    constructor
    · exact h.handles_length
    · rw [List.length_set, h.pool_length]
    · exact h.handles_low
    · apply h.pool_low.set_used
      rw [beq_eq_false_iff_ne]
      exact Nat.ne_of_gt hpos
    · intro id g hg
      rw [List.getElem?_set] at hg
      by_cases hid : i = id
      · subst hid
        rw [if_pos rfl, if_pos (List.getElem?_eq_some_iff.mp hget).1] at hg
        cases hg
        exact h.refcount_eq i f hget
      · rw [if_neg hid] at hg
        exact h.refcount_eq id g hg
    · exact h.inRange
  · exact h

/-! ## No operation on an open handle fails an assertion -/

theorem Accounts.exists_entry (h : Accounts none t) (hentry : t.handles.entry fd = some item) :
    ∃ id f, item.openFileDescriptionId = some id ∧ t.pool.entry (some id) = some f := by
  have hmem := List.mem_of_getElem? (handles_entry_eq_some.mp hentry)
  obtain ⟨id, f, hid, hf, hpos⟩ := h.description hmem
  exact ⟨id, f, hid, pool_entry_eq_some.mpr ⟨hf, hpos⟩⟩

theorem Accounts.exists_closeDescriptor (h : Accounts none t)
    (hentry : t.handles.entry fd = some item) : ∃ t', t.closeDescriptor fd = some t' := by
  obtain ⟨id, f, hid, hpool⟩ := h.exists_entry hentry
  simp only [OpenFiles.closeDescriptor, hentry, hid, OpenFilesPool.releaseOfd, hpool,
    HandleAllocator.freeHandle, Option.bind_some, Option.map_some]
  exact ⟨_, rfl⟩

theorem Accounts.exists_dupDescriptor (h : Accounts none t)
    (hentry : t.handles.entry fd = some item) : ∃ x, t.dupDescriptor item = some x := by
  obtain ⟨id, f, hid, hpool⟩ := h.exists_entry hentry
  simp only [OpenFiles.dupDescriptor, hid, OpenFilesPool.referOfd, hpool, Option.bind_some,
    Option.map_some]
  exact ⟨_, rfl⟩

theorem Accounts.exists_dupDescriptor2 (h : Accounts none t)
    (hentry : t.handles.entry fd = some item) (newfd : Nat) :
    ∃ x, t.dupDescriptor2 item newfd = some x := by
  obtain ⟨id, f, hid, hpool⟩ := h.exists_entry hentry
  simp only [OpenFiles.dupDescriptor2, hid, OpenFilesPool.referOfd, hpool, Option.bind_some,
    Option.map_some]
  exact ⟨_, rfl⟩

end Lemmas

end OpenFiles

end Zrt.Fs
