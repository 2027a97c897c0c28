import Zrt.Fs.Accounting
import Zrt.Fs.MemTree
import Zrt.Fs.MemWalk

/-!
# Descriptors and the files they were opened on

A descriptor records the slot of a node. Nothing ties the slot to the descriptor but the use count in
the shared data, which duplicates do not raise and which every close and every new hard link lowers.
A run keeps its descriptors bound as long as the counters are right whenever a node is removed: the
use count covers the descriptors that stay open, and a deferred removal waits for the last of them.
-/

namespace Zrt.Fs

open Zrt.Framework

/-! ## Entries of the handle table -/

namespace OpenFiles

variable {t t' : OpenFiles} {fd k : Nat} {item : HandleItem}

theorem entry_set {h : HandleAllocator} {new old : Option HandleItem} {cursor : Option Nat}
    (hfd : h.slots[fd]? = some old) :
    (HandleAllocator.mk (h.slots.set fd new) cursor).entry k = if k = fd then new else h.entry k := by
  simp only [HandleAllocator.entry, List.getD_eq_getElem?_getD, List.getElem?_set]
  by_cases hk : fd = k
  · subst hk
    rw [if_pos rfl, if_pos rfl, if_pos (List.getElem?_eq_some_iff.mp hfd).1, Option.getD_some]
  · rw [if_neg hk, if_neg (fun he => hk he.symm)]

/-- A new handle takes a free entry; without one nothing changes. -/
theorem allocateHandle_entry (h : HandleAllocator) (item : HandleItem) :
    match (h.allocateHandle item).1 with
    | some fd => h.entry fd = none ∧
        ∀ k, (h.allocateHandle item).2.entry k = if k = fd then some item else h.entry k
    | none => ∀ k, (h.allocateHandle item).2.entry k = h.entry k := by
  unfold HandleAllocator.allocateHandle
  cases hseek : seekUnusedSlot Option.isNone h.slots h.firstUnusedSlot with
  | none => exact fun k => rfl
  | some fd =>
      obtain ⟨a, ha, hfree⟩ := seekUnusedSlot_eq_some hseek
      rw [Option.isNone_iff_eq_none.mp hfree] at ha
      refine ⟨?_, fun k => entry_set ha⟩
      rw [HandleAllocator.entry, List.getD_eq_getElem?_getD, ha, Option.getD_some]

theorem openDescriptor_entry (t : OpenFiles) (mountFs : MountFs) (inode parent : Nat)
    (flags : OpenFlags) :
    match (t.openDescriptor mountFs inode parent flags).1 with
    | some fd => t.handles.entry fd = none ∧ ∃ ofd, ∀ k,
        (t.openDescriptor mountFs inode parent flags).2.handles.entry k =
          if k = fd then some ⟨mountFs, inode, parent, ofd⟩ else t.handles.entry k
    | none => ∀ k, (t.openDescriptor mountFs inode parent flags).2.handles.entry k =
        t.handles.entry k := by
  have halloc := allocateHandle_entry t.handles
    ⟨mountFs, inode, parent, (t.pool.getnewOfd flags).1⟩
  unfold openDescriptor
  cases hfd : (t.handles.allocateHandle
      ⟨mountFs, inode, parent, (t.pool.getnewOfd flags).1⟩).1 with
  | none =>
      rw [hfd] at halloc
      simp only [hfd]
      exact halloc
  | some fd =>
      rw [hfd] at halloc
      simp only [hfd]
      exact ⟨halloc.1, _, halloc.2⟩

theorem closeDescriptor_entry (h : t.closeDescriptor fd = some t') :
    ∀ k, t'.handles.entry k = if k = fd then none else t.handles.entry k := by
  obtain ⟨item, hentry, h⟩ := Option.bind_eq_some_iff.mp h
  obtain ⟨pool, -, h⟩ := Option.bind_eq_some_iff.mp h
  obtain ⟨handles, hh, rfl⟩ := Option.map_eq_some_iff.mp h
  rw [HandleAllocator.freeHandle, hentry, Option.map_some, Option.some.injEq] at hh
  intro k
  rw [← hh]
  exact entry_set (handles_entry_eq_some.mp hentry)

theorem closeDescriptor_slot (h : t.closeDescriptor fd = some t') :
    t'.handles.slots[fd]? = some none := by
  obtain ⟨item, hentry, h⟩ := Option.bind_eq_some_iff.mp h
  obtain ⟨pool, -, h⟩ := Option.bind_eq_some_iff.mp h
  obtain ⟨handles, hh, rfl⟩ := Option.map_eq_some_iff.mp h
  rw [HandleAllocator.freeHandle, hentry, Option.map_some, Option.some.injEq] at hh
  rw [← hh]
  exact List.getElem?_set_self (List.getElem?_eq_some_iff.mp (handles_entry_eq_some.mp hentry)).1

theorem dupDescriptor_entry {x : Option Nat × OpenFiles} (h : t.dupDescriptor item = some x) :
    match x.1 with
    | some fd => t.handles.entry fd = none ∧
        ∀ k, x.2.handles.entry k = if k = fd then some item else t.handles.entry k
    | none => ∀ k, x.2.handles.entry k = t.handles.entry k := by
  obtain ⟨pool, -, rfl⟩ := Option.map_eq_some_iff.mp h
  have halloc := allocateHandle_entry t.handles item
  cases hfd : (t.handles.allocateHandle item).1 with
  | none =>
      rw [hfd] at halloc
      simp only [hfd]
      exact halloc
  | some fd =>
      rw [hfd] at halloc
      simp only [hfd]
      exact halloc

theorem dupDescriptor2_entry {x : Option Nat × OpenFiles}
    (h : t.dupDescriptor2 item fd = some x) :
    (x.1 = some fd ∧ t.handles.entry fd = none ∧
      ∀ k, x.2.handles.entry k = if k = fd then some item else t.handles.entry k) ∨
    (x.1 = none ∧ t.handles.slots[fd]? ≠ some none ∧
      ∀ k, x.2.handles.entry k = t.handles.entry k) := by
  obtain ⟨pool, -, rfl⟩ := Option.map_eq_some_iff.mp h
  unfold HandleAllocator.allocateHandle2
  by_cases hfree : t.handles.slots[fd]? = some none
  · apply Or.inl
    simp only [hfree, if_true]
    refine ⟨trivial, ?_, fun k => entry_set hfree⟩
    rw [HandleAllocator.entry, List.getD_eq_getElem?_getD, hfree, Option.getD_some]
  · apply Or.inr
    simp only [hfree, if_false]
    exact ⟨trivial, hfree, fun k => trivial⟩

end OpenFiles

/-! ## What a removal takes away -/

namespace MemMount

variable {m m' : MemMount} {inode id : Nat}

/-- The slot a removal frees, if it frees one. -/
def freedSlot (m : MemMount) : Removal → Option Nat
  | .remove slot => some slot
  | .hide _ => none
  | .rmdir slot => if (m.dataAt slot).any MemData.wantUnlink then none else some slot

/-- The data goes too when its links are used up; a directory entered in itself loses two. -/
def lastLink (m : MemMount) : Removal → Bool
  | .remove slot => (m.dataAt slot).any fun d => d.nlink ≤ 1
  | .hide _ => false
  | .rmdir slot =>
      (m.nodeAt slot).any fun n => (m.getData n.nodedata).any fun d =>
        decide (d.nlink ≤ if m.parentData n = some n.nodedata then 2 else 1)

/-- The removal frees neither this slot nor the data of the node in it. -/
def spares (m : MemMount) (r : Removal) (inode : Nat) : Bool :=
  match m.freedSlot r with
  | none => true
  | some slot => decide (inode ≠ slot) &&
      !(m.lastLink r && decide ((m.nodeAt inode).map MemNode.nodedata =
        (m.nodeAt slot).map MemNode.nodedata))

/-- How many of the inodes are those of nodes of the data. -/
def openCount (m : MemMount) (inodes : List Nat) (id : Nat) : Nat :=
  inodes.countP fun inode => (m.nodeAt inode).any fun n => decide (n.nodedata = id)

/-- The counters are right for a removal, `inodes` being those of the descriptors that stay open: the
use count covers them, and the removal of a file that has been unlinked waits for it to be zero.
`Rmdir` looks at no use count. -/
def counted (m : MemMount) (inodes : List Nat) : Removal → Bool
  | .remove slot =>
      (m.nodeAt slot).all fun n => (m.getData n.nodedata).all fun d =>
        decide (m.openCount inodes n.nodedata ≤ d.useCount) &&
          (!d.wantUnlink || decide (d.useCount = 0))
  | .hide _ => true
  | .rmdir slot =>
      (m.nodeAt slot).all fun n => (m.getData n.nodedata).all fun d =>
        d.wantUnlink || decide (m.openCount inodes n.nodedata = 0)

/-- The slot holds a node of the given data, which is there. -/
def HoldsData (m : MemMount) (inode id : Nat) : Prop :=
  ∃ n d, m.nodeAt inode = some n ∧ n.nodedata = id ∧ m.getData id = some d

private theorem isSome_dataAt_updateDataAt {slot t : Nat} (f : MemData → MemData) :
    ((m.updateDataAt slot f).dataAt t).isSome = (m.dataAt t).isSome := by
  unfold dataAt
  rw [nodeAt_updateDataAt]
  cases m.nodeAt t with
  | none => rfl
  | some n =>
      simp only [Option.bind_some]
      unfold updateDataAt
      split
      · rfl
      · rw [getData_updateData]
        split
        · exact Option.isSome_map
        · rfl

private theorem spares_freed {r : Removal} {slot : Nat} {n n' : MemNode} (h : m.spares r inode = true)
    (hfreed : m.freedSlot r = some slot) (hn : m.nodeAt slot = some n)
    (hn' : m.nodeAt inode = some n') :
    inode ≠ slot ∧ (n'.nodedata = n.nodedata → m.lastLink r = false) := by
  rw [spares, hfreed] at h
  simp only [hn, hn', Option.map_some, Option.some.injEq, Bool.and_eq_true, decide_eq_true_eq,
    Bool.not_eq_true', Bool.and_eq_false_iff, decide_eq_false_iff_not] at h
  apply And.intro h.1
  intro hdata
  rcases h.2 with hlast | hne
  · exact hlast
  · exact absurd hdata hne

private theorem ne_of_openCount {inodes : List Nat} {n' : MemNode} (hzero : m.openCount inodes id = 0)
    (hmem : inode ∈ inodes) (hn' : m.nodeAt inode = some n') : n'.nodedata ≠ id := by
  have hnone := List.countP_eq_zero.mp hzero inode hmem
  rw [hn', Option.any_some, decide_eq_true_eq] at hnone
  exact hnone

theorem spares_of_openCount {inodes : List Nat} {rem : Removal} {slot : Nat} {n n' : MemNode}
    (hfreed : m.freedSlot rem = some slot) (hn : m.nodeAt slot = some n)
    (hzero : m.openCount inodes n.nodedata = 0) (hmem : inode ∈ inodes)
    (hn' : m.nodeAt inode = some n') : m.spares rem inode = true := by
  have hdata := ne_of_openCount hzero hmem hn'
  have hslot : inode ≠ slot := by
    rintro rfl
    rw [hn] at hn'
    exact hdata (by rw [Option.some.inj hn'])
  simp [spares, hfreed, hslot, hn, hn', hdata]

/-- `UnlinkInternal` removes a node for good at a use count of zero or when the removal was deferred:
with the counters right, no descriptor is left either way. -/
private theorem Removable.spares {inodes : List Nat} {slot : Nat} {n n' : MemNode} {d : MemData}
    (h : m.Removable slot n d) (hcounted : m.counted inodes (.remove slot) = true)
    (hmem : inode ∈ inodes) (hn' : m.nodeAt inode = some n') :
    m.spares (.remove slot) inode = true := by
  simp only [counted, h.node, h.data, Option.all_some, Bool.and_eq_true, Bool.or_eq_true,
    Bool.not_eq_true', decide_eq_true_eq] at hcounted
  have huse : d.useCount = 0 := by
    rcases h.idle with hidle | hdeferred
    · exact hidle
    · exact hcounted.2.resolve_left (by rw [hdeferred]; exact nofun)
  have hzero : m.openCount inodes n.nodedata = 0 := by
    have hle := hcounted.1
    omega
  exact spares_of_openCount rfl h.node hzero hmem hn'

private theorem DirRemovable.spares {inodes : List Nat} {slot : Nat} {n n' : MemNode} {d : MemData}
    (h : m.DirRemovable slot n d) (hcounted : m.counted inodes (.rmdir slot) = true)
    (hmem : inode ∈ inodes) (hn' : m.nodeAt inode = some n') :
    m.spares (.rmdir slot) inode = true := by
  have hdata : m.dataAt slot = some d := by rw [dataAt_of h.node, h.data]
  simp only [counted, h.node, h.data, Option.all_some, Bool.or_eq_true, decide_eq_true_eq]
    at hcounted
  rcases hcounted with hdeferred | hzero
  · simp [MemMount.spares, freedSlot, hdata, hdeferred]
  · cases hdeferred : d.wantUnlink with
    | true => simp [MemMount.spares, freedSlot, hdata, hdeferred]
    | false =>
        have hfreed : m.freedSlot (.rmdir slot) = some slot := by simp [freedSlot, hdata, hdeferred]
        exact spares_of_openCount hfreed h.node hzero hmem hn'

private theorem change_holdsData {inodes : List Nat} (hmem : inode ∈ inodes) (h : m.HoldsData inode id)
    (hc : Change (fun m r => m.counted inodes r = true) m m') : m'.HoldsData inode id := by
  obtain ⟨n, d, hn, hid, hd⟩ := h
  subst hid
  cases hc with
  | @touch i f hf =>
      obtain ⟨d', hd'⟩ := forward_updateData hd
      exact ⟨n, d', hn, rfl, hd'⟩
  | @enter parent mode name isDir hardlink pn pd he =>
      obtain ⟨d', hd'⟩ := he.forward hd
      exact ⟨n, d', nodeAt_enterNode_of_some hn, rfl, hd'⟩
  | @remove slot sn sd hr hok =>
      obtain ⟨hne, hlast⟩ := spares_freed (hr.spares hok hmem hn) rfl hr.node hn
      have hlinks : n.nodedata = sn.nodedata → 2 ≤ d.nlink := by
        intro hi
        have hlast := hlast hi
        rw [lastLink, dataAt_of hr.node, ← hi, hd, Option.any_some, decide_eq_false_iff_not] at hlast
        omega
      obtain ⟨d', hd'⟩ := forward_removeNode hr.node hd hlinks
      exact ⟨n, d', by rw [nodeAt_removeNode hr.node, if_neg hne, hn], rfl, hd'⟩
  | @hide slot sn sd hh hok =>
      obtain ⟨d', hd'⟩ := forward_hideNode hh.node hd
      by_cases hs : inode = slot
      · subst hs
        rw [hh.node] at hn
        cases hn
        exact ⟨{ n with name := deletedName }, d', by rw [nodeAt_hideNode hh.node, if_pos rfl], rfl, hd'⟩
      · exact ⟨n, d', by rw [nodeAt_hideNode hh.node, if_neg hs, hn], rfl, hd'⟩
  | @rmdir slot sn sd hr hok =>
      have hspares := hr.spares hok hmem hn
      have hdat : m.dataAt slot = some sd := by rw [dataAt_of hr.node, hr.data]
      have hfreed : sd.wantUnlink = false → m.freedSlot (.rmdir slot) = some slot := by
        intro hw
        simp [freedSlot, hdat, hw]
      have hlinks : n.nodedata = sn.nodedata → sd.wantUnlink = false →
          2 + (if m.parentData sn = some n.nodedata then 1 else 0) ≤ d.nlink := by
        intro hi hw
        have hlast := (spares_freed hspares (hfreed hw) hr.node hn).2 hi
        rw [lastLink, hr.node, Option.any_some, ← hi, hd, Option.any_some,
          decide_eq_false_iff_not] at hlast
        split at hlast
        · rename_i hp
          rw [if_pos hp]
          omega
        · rename_i hp
          rw [if_neg hp]
          omega
      obtain ⟨d', hd'⟩ := forward_removeDir hr.node hr.data hd hlinks
      refine ⟨n, d', ?_, rfl, hd'⟩
      rw [nodeAt_removeDir hr.node hr.data, if_neg, hn]
      intro hs
      exact (spares_freed hspares (hfreed hs.2) hr.node hn).1 hs.1

end MemMount

/-! ## Descriptors of a run -/

/-- The file systems with the descriptors that successful calls have answered and that are neither
closed nor replaced, each with the data its original open resolved to. -/
structure Session where
  fs : FileSystem
  live : List (Nat × Option Nat)

namespace Session

open MemMount FileSystem

def start : Session := ⟨.start, []⟩

def forget (live : List (Nat × Option Nat)) (fd : Nat) : List (Nat × Option Nat) :=
  live.filter fun x => x.1 ≠ fd

def duplicate (live : List (Nat × Option Nat)) (oldfd fd : Nat) : List (Nat × Option Nat) :=
  match live.lookup oldfd with
  | some data => (fd, data) :: forget live fd
  | none => forget live fd

/-- What a call's answer means for the descriptors. -/
def track (live : List (Nat × Option Nat)) (mem : MemMount) :
    FsCall → Except Errno Nat → List (Nat × Option Nat)
  | .memOpen path _ _, .ok fd => (fd, mem.memDataOf path) :: forget live fd
  | .dup oldfd, .ok fd => duplicate live oldfd fd
  | .dup2 oldfd _, .ok fd => duplicate live oldfd fd
  | .close fd, .ok _ => forget live fd
  | _, _ => live

def step (ch : Channels) (s : Session) (c : FsCall) : Option Session :=
  (call ch s.fs c).map fun x => ⟨x.2, track s.live x.2.mem c x.1⟩

/-- The descriptor's inode is that of a node with the given data. -/
def BoundTo (fs : FileSystem) (fd : Nat) (data : Option Nat) : Prop :=
  ∃ item id, fs.files.handles.entry fd = some item ∧ item.mountFs = .memory ∧ data = some id ∧
    fs.mem.HoldsData item.inode id

def Bound (s : Session) : Prop := ∀ x ∈ s.live, BoundTo s.fs x.1 x.2

/-- The descriptor a call closes, if it is open. -/
def closing : FsCall → Option Nat
  | .close fd => some fd
  | .dup2 _ newfd => some newfd
  | _ => none

/-- The inodes of the descriptors that a call does not close. -/
def others (s : Session) (c : FsCall) : List Nat :=
  s.live.filterMap fun x =>
    if closing c = some x.1 then none else (s.fs.files.handles.entry x.1).map HandleItem.inode

/-- At each removal of the call the counters are right for the other descriptors. -/
def CountsOthers (s : Session) (c : FsCall) : Prop :=
  ∀ x ∈ s.fs.removals c, x.1.counted (s.others c) x.2 = true

instance (s : Session) (c : FsCall) : Decidable (s.CountsOthers c) :=
  List.decidableBAll (fun x : MemMount × Removal => x.1.counted (s.others c) x.2 = true)
    (s.fs.removals c)

end Session

namespace FileSystem

open MemMount

variable {ch : Channels} {fs fs' : FileSystem} {r : Except Errno Nat} {k : Nat} {item : HandleItem}

/-! Which entries of the handle table the calls keep, and which they make. -/

theorem openDescriptor_keeps {t : OpenFiles} {mountFs : MountFs} {inode parent : Nat}
    {flags : OpenFlags} (h : t.handles.entry k = some item) :
    (t.openDescriptor mountFs inode parent flags).2.handles.entry k = some item := by
  have hentry := OpenFiles.openDescriptor_entry t mountFs inode parent flags
  split at hentry
  · obtain ⟨hfree, ofd, hall⟩ := hentry
    rw [hall, if_neg, h]
    intro hk
    rw [← hk, h] at hfree
    cases hfree
  · rw [hentry, h]

theorem memOpenNode_files {ino parent : Nat} {flags : OpenFlags}
    (hcall : fs.memOpenNode ino parent flags = some (r, fs')) :
    fs'.files = (fs.files.openDescriptor .memory ino parent flags).2 := by
  unfold memOpenNode at hcall
  cases hfd : (fs.files.openDescriptor .memory ino parent flags).1 with
  | none =>
      simp only [hfd] at hcall
      cases hcall
      rfl
  | some fd =>
      simp only [hfd] at hcall
      obtain ⟨d, -, heq⟩ := Option.map_eq_some_iff.mp hcall
      split at heq
      · cases heq
        rfl
      · split at heq
        · cases heq
          rfl
        · cases heq
          rfl

private theorem memOpenNode_ok {ino parent fd : Nat} {flags : OpenFlags}
    (hcall : fs.memOpenNode ino parent flags = some (.ok fd, fs')) :
    (∃ item, fs'.files.handles.entry fd = some item ∧ item.mountFs = .memory ∧ item.inode = ino) ∧
    (fs'.mem.dataAt ino).isSome ∧
    ∀ slot names, fs'.mem.walk slot names = fs.mem.walk slot names := by
  unfold memOpenNode at hcall
  have hentry := OpenFiles.openDescriptor_entry fs.files .memory ino parent flags
  cases hfd : (fs.files.openDescriptor .memory ino parent flags).1 with
  | none =>
      simp only [hfd] at hcall
      cases hcall
  | some fd' =>
      simp only [hfd] at hcall hentry
      obtain ⟨-, ofd, hall⟩ := hentry
      obtain ⟨d, hd, heq⟩ := Option.map_eq_some_iff.mp hcall
      have hnew : ∃ item, (fs.files.openDescriptor .memory ino parent flags).2.handles.entry fd' =
          some item ∧ item.mountFs = .memory ∧ item.inode = ino :=
        ⟨_, by rw [hall, if_pos rfl], rfl, rfl⟩
      have hwalk : ∀ slot names, (fs.mem.ref ino).walk slot names = fs.mem.walk slot names :=
        fun slot names => walk_updateDataAt (inert_useCount _) names
      split at heq
      · cases heq
      · split at heq
        · cases heq
          refine ⟨hnew, ?_, fun slot names => ?_⟩
          · rw [isSome_dataAt_updateDataAt, hd]
            rfl
          · rw [walk_updateDataAt (inert_contents []), hwalk]
        · cases heq
          exact ⟨hnew, by rw [hd]; rfl, hwalk⟩

theorem memOpen_node (ok : MemMount → Removal → Prop) {path : AbsolutePath} {flags : OpenFlags}
    {mode : Nat} (hcall : fs.memOpen path flags mode = some (r, fs')) :
    (∃ e, r = .error e ∧ fs'.files = fs.files) ∨
    ∃ mem ino parent, Evolves ok fs.mem mem ∧ mem.getSlot path = some (.ok ino) ∧
      memOpenNode { fs with mem := mem } ino parent flags = some (r, fs') := by
  obtain ⟨⟨r₁, mem⟩, hcreated, hcall⟩ := Option.bind_eq_some_iff.mp hcall
  have hcreat : Evolves ok fs.mem mem := by
    split at hcreated
    · exact openCreat_evolves hcreated sharedData_none
    · cases hcreated
      exact Relation.ReflTransGen.refl
  cases r₁ with
  | error e =>
      cases hcall
      exact Or.inl ⟨_, rfl, rfl⟩
  | ok u =>
      obtain ⟨node, hnode, hcall⟩ := Option.bind_eq_some_iff.mp hcall
      cases node with
      | error e =>
          cases hcall
          exact Or.inl ⟨_, rfl, rfl⟩
      | ok ino =>
          obtain ⟨parent, -, hcall⟩ := Option.bind_eq_some_iff.mp hcall
          exact Or.inr ⟨mem, ino, _, hcreat, (getNode_ok hnode).1, hcall⟩

private theorem channelsOpen_keeps {path : AbsolutePath} {flags : OpenFlags}
    (hcall : channelsOpen ch fs path flags = some (r, fs'))
    (h : fs.files.handles.entry k = some item) : fs'.files.handles.entry k = some item := by
  rcases channelsOpen_cases hcall with rfl | ⟨inode, parent, rfl⟩
  · exact h
  · exact openDescriptor_keeps h

theorem close_cases {fd : Nat} (hcall : close ch fs fd = some (r, fs')) :
    (∃ e, r = .error e ∧ fs' = fs) ∨ (r = .ok 0 ∧ fs.files.closeDescriptor fd = some fs'.files) := by
  unfold close at hcall
  split at hcall
  · cases hcall
    exact Or.inl ⟨_, rfl, rfl⟩
  · unfold memClose at hcall
    split at hcall
    · cases hcall
      exact Or.inl ⟨_, rfl, rfl⟩
    · obtain ⟨d, -, hcall⟩ := Option.bind_eq_some_iff.mp hcall
      obtain ⟨⟨r₁, mem⟩, -, hcall⟩ := Option.bind_eq_some_iff.mp hcall
      cases r₁ with
      | error e => cases hcall
      | ok u =>
          obtain ⟨files, hfiles, heq⟩ := Option.map_eq_some_iff.mp hcall
          cases heq
          exact Or.inr ⟨rfl, hfiles⟩
  · rcases channelsClose_cases hcall with hrefused | ⟨hr, files, hfiles, rfl⟩
    · exact Or.inl hrefused
    · exact Or.inr ⟨hr, hfiles⟩

theorem dup_cases {oldfd : Nat} (hcall : fs.dup oldfd = some (r, fs')) :
    (∃ e, r = .error e ∧ ∀ k, fs'.files.handles.entry k = fs.files.handles.entry k) ∨
    ∃ fd item, r = .ok fd ∧ fs.files.handles.entry oldfd = some item ∧
      fs.files.handles.entry fd = none ∧
      ∀ k, fs'.files.handles.entry k = if k = fd then some item else fs.files.handles.entry k := by
  unfold dup at hcall
  split at hcall
  · cases hcall
    exact Or.inl ⟨_, rfl, fun _ => rfl⟩
  · obtain ⟨item, hitem, hcall⟩ := Option.bind_eq_some_iff.mp hcall
    obtain ⟨⟨fd, files⟩, hx, heq⟩ := Option.map_eq_some_iff.mp hcall
    have hentry := OpenFiles.dupDescriptor_entry hx
    cases fd with
    | none =>
        cases heq
        exact Or.inl ⟨_, rfl, hentry⟩
    | some fd =>
        cases heq
        exact Or.inr ⟨fd, item, rfl, hitem, hentry.1, hentry.2⟩

/-- Closing a descriptor makes its entry free, so that a failure to duplicate means that nothing was
closed either. -/
theorem dup2_cases {oldfd newfd : Nat} (hcall : dup2 ch fs oldfd newfd = some (r, fs')) :
    (∃ e, r = .error e ∧ fs'.mem = fs.mem ∧
      ∀ k, fs'.files.handles.entry k = fs.files.handles.entry k) ∨
    (r = .ok newfd ∧ oldfd = newfd ∧ fs' = fs) ∨
    ∃ item, r = .ok newfd ∧ oldfd ≠ newfd ∧ fs.files.handles.entry oldfd = some item ∧
      ∀ k, fs'.files.handles.entry k = if k = newfd then some item else fs.files.handles.entry k := by
  unfold dup2 at hcall
  split at hcall
  · cases hcall
    exact Or.inl ⟨_, rfl, rfl, fun _ => rfl⟩
  · split at hcall
    · rename_i heq
      cases hcall
      exact Or.inr (Or.inl ⟨rfl, heq, rfl⟩)
    · rename_i hne
      obtain ⟨⟨r₁, fs₁⟩, hclosed, hcall⟩ := Option.bind_eq_some_iff.mp hcall
      obtain ⟨item, hitem, hcall⟩ := Option.bind_eq_some_iff.mp hcall
      obtain ⟨⟨fd, files⟩, hx, heq⟩ := Option.map_eq_some_iff.mp hcall
      simp only at hitem hx heq
      rcases close_cases hclosed with ⟨e, -, rfl⟩ | ⟨-, hclose⟩
      · rcases OpenFiles.dupDescriptor2_entry hx with ⟨hfd, -, hentry⟩ | ⟨hfd, -, hentry⟩
        · cases hfd
          cases heq
          exact Or.inr (Or.inr ⟨item, rfl, hne, hitem, hentry⟩)
        · cases hfd
          cases heq
          exact Or.inl ⟨_, rfl, rfl, hentry⟩
      · have hslot := OpenFiles.closeDescriptor_slot hclose
        have hothers := OpenFiles.closeDescriptor_entry hclose
        rcases OpenFiles.dupDescriptor2_entry hx with ⟨hfd, -, hentry⟩ | ⟨-, hused, -⟩
        · cases hfd
          cases heq
          rw [hothers, if_neg hne] at hitem
          refine Or.inr (Or.inr ⟨item, rfl, hne, hitem, fun k => ?_⟩)
          rw [hentry, hothers]
          split
          · rfl
          · rfl
        · exact absurd hslot hused

private theorem call_keeps {c : FsCall} (hcall : call ch fs c = some (r, fs'))
    (hk : Session.closing c ≠ some k) (h : fs.files.handles.entry k = some item) :
    fs'.files.handles.entry k = some item := by
  cases c with
  | memOpen path flags mode =>
      rcases memOpen_node (fun _ _ => True) hcall with
        ⟨e, -, hfiles⟩ | ⟨mem, ino, parent, -, -, hnode⟩
      · rw [hfiles, h]
      · rw [memOpenNode_files hnode]
        exact openDescriptor_keeps h
  | channelsOpen path flags => exact channelsOpen_keeps hcall h
  | close fd =>
      rcases close_cases hcall with ⟨e, -, rfl⟩ | ⟨-, hclose⟩
      · exact h
      · rw [OpenFiles.closeDescriptor_entry hclose, if_neg, h]
        intro he
        exact hk (by rw [he]; rfl)
  | dup oldfd =>
      rcases dup_cases hcall with ⟨e, -, hsame⟩ | ⟨fd, item', -, -, hfree, hentry⟩
      · rw [hsame, h]
      · rw [hentry, if_neg, h]
        intro he
        rw [← he, h] at hfree
        cases hfree
  | dup2 oldfd newfd =>
      rcases dup2_cases hcall with ⟨e, -, -, hsame⟩ | ⟨-, -, rfl⟩ | ⟨item', -, -, -, hentry⟩
      · rw [hsame, h]
      · exact h
      · rw [hentry, if_neg, h]
        intro he
        exact hk (by rw [he]; rfl)
  | mkdir path mode => rw [(ofMem_eq_some hcall).1, h]
  | rmdir path => rw [(ofMem_eq_some hcall).1, h]
  | link oldpath newpath => rw [(ofMem_eq_some hcall).1, h]
  | unlink path => rw [(ofMem_eq_some hcall).1, h]
  | rename oldpath newpath => rw [(ofMem_eq_some hcall).1, h]

end FileSystem

namespace Session

open MemMount FileSystem

variable {ch : Channels} {s s' : Session} {fs' : FileSystem} {r : Except Errno Nat} {c : FsCall}
  {fd : Nat} {data : Option Nat} {live : List (Nat × Option Nat)}

theorem mem_of_mem_forget {x : Nat × Option Nat} (h : x ∈ forget live fd) : x ∈ live ∧ x.1 ≠ fd := by
  obtain ⟨hmem, hne⟩ := List.mem_filter.mp h
  exact ⟨hmem, by simpa using hne⟩

private theorem mem_duplicate {oldfd : Nat} {x : Nat × Option Nat} (h : x ∈ duplicate live oldfd fd) :
    (x.1 = fd ∧ (oldfd, x.2) ∈ live) ∨ (x ∈ live ∧ x.1 ≠ fd) := by
  unfold duplicate at h
  split at h
  · rename_i data hlookup
    obtain ⟨before, after, hlive, -⟩ := List.lookup_eq_some_iff.mp hlookup
    rcases List.mem_cons.mp h with rfl | h
    · exact Or.inl ⟨rfl, by rw [hlive]; exact List.mem_append_right _ List.mem_cons_self⟩
    · exact Or.inr (mem_of_mem_forget h)
  · exact Or.inr (mem_of_mem_forget h)

private theorem mem_others {item : HandleItem} (hx : (fd, data) ∈ s.live) (hc : closing c ≠ some fd)
    (hentry : s.fs.files.handles.entry fd = some item) : item.inode ∈ s.others c :=
  List.mem_filterMap.mpr ⟨(fd, data), hx, by rw [if_neg hc, hentry, Option.map_some]⟩

private theorem kept (hg : s.fs.mem.Grounded) (hb : s.Bound) (hguard : s.CountsOthers c)
    (hcall : call ch s.fs c = some (r, fs')) (hx : (fd, data) ∈ s.live)
    (hc : closing c ≠ some fd) : BoundTo fs' fd data := by
  obtain ⟨item, id, hentry, hmount, hdata, hholds⟩ := hb (fd, data) hx
  have hmem := mem_others hx hc hentry
  have hev : Evolves (fun m r => m.counted (s.others c) r = true) s.fs.mem fs'.mem :=
    call_evolves hg.rootOutside hcall hguard
  refine ⟨item, id, call_keeps hcall hc hentry, hmount, hdata, ?_⟩
  exact hev.preserves (fun m => m.HoldsData item.inode id) (fun _ _ hm hch =>
    change_holdsData hmem hm hch) hholds

private theorem opened {fs : FileSystem} {path : AbsolutePath} {flags : OpenFlags} {mode : Nat}
    (hcall : fs.memOpen path flags mode = some (.ok fd, fs')) :
    BoundTo fs' fd (fs'.mem.memDataOf path) := by
  rcases memOpen_node (fun _ _ => True) hcall with
    ⟨e, he, -⟩ | ⟨mem, ino, parent, -, hslot, hnode⟩
  · cases he
  · obtain ⟨⟨item, hentry, hmount, hinode⟩, hdata, hwalk⟩ := memOpenNode_ok hnode
    obtain ⟨d, hd⟩ := Option.isSome_iff_exists.mp hdata
    obtain ⟨n, hn, hdn⟩ := dataAt_eq_some.mp hd
    have hres : fs'.mem.memDataOf path = some n.nodedata :=
      memDataOf_eq_some.mpr ⟨ino, n, by rw [getSlot, hwalk]; exact hslot, hn, rfl⟩
    exact ⟨item, n.nodedata, hentry, hmount, hres, n, d, by rw [hinode, hn], rfl, hdn⟩

private theorem BoundTo.transfer {fs : FileSystem} {fd' : Nat} (h : BoundTo fs fd data)
    (hentry : fs.files.handles.entry fd' = fs.files.handles.entry fd) : BoundTo fs fd' data := by
  obtain ⟨item, id, hitem, hrest⟩ := h
  exact ⟨item, id, by rw [hentry, hitem], hrest⟩

private theorem BoundTo.of_same {fs : FileSystem} (h : BoundTo fs fd data) (hmem : fs'.mem = fs.mem)
    (hentry : fs'.files.handles.entry fd = fs.files.handles.entry fd) : BoundTo fs' fd data := by
  obtain ⟨item, id, hitem, hmount, hdata, hholds⟩ := h
  exact ⟨item, id, by rw [hentry, hitem], hmount, hdata, by rw [hmem]; exact hholds⟩

theorem step_bound (hinv : s.fs.mem.Grounded ∧ s.Bound) (hguard : s.CountsOthers c)
    (hstep : step ch s c = some s') : s'.fs.mem.Grounded ∧ s'.Bound := by
  obtain ⟨⟨r, fs'⟩, hcall, rfl⟩ := Option.map_eq_some_iff.mp hstep
  obtain ⟨hg, hb⟩ := hinv
  have hkept : ∀ x ∈ s.live, closing c ≠ some x.1 → BoundTo fs' x.1 x.2 :=
    fun x hx hne => kept hg hb hguard hcall hx hne
  have hgrounded : fs'.mem.Grounded := by
    have hev : Evolves (fun _ _ => True) s.fs.mem fs'.mem :=
      call_evolves hg.rootOutside hcall fun _ _ => trivial
    exact hev.preserves Grounded (fun _ _ hm hch => change_grounded hm hch) hg
  apply And.intro hgrounded
  intro x hx
  cases c with
  | memOpen path flags mode =>
      cases r with
      | error e => exact hkept x hx (fun h => by cases h)
      | ok fd =>
          rcases List.mem_cons.mp hx with rfl | hx
          · exact opened hcall
          · exact hkept x (mem_of_mem_forget hx).1 (fun h => by cases h)
  | close fd =>
      rcases close_cases hcall with ⟨e, rfl, rfl⟩ | ⟨rfl, -⟩
      · exact hb x hx
      · obtain ⟨hmem, hne⟩ := mem_of_mem_forget hx
        exact hkept x hmem (fun h => hne (Option.some.inj h).symm)
  | dup oldfd =>
      rcases dup_cases hcall with ⟨e, rfl, -⟩ | ⟨fd, item, rfl, hold, hfree, hentry⟩
      · exact hkept x hx (fun h => by cases h)
      · rcases mem_duplicate hx with ⟨hfd, hmem⟩ | ⟨hmem, -⟩
        · apply (hkept _ hmem (fun h => by cases h)).transfer
          have hne : oldfd ≠ fd := by
            intro he
            rw [he, hfree] at hold
            cases hold
          simp only
          rw [hfd, hentry, hentry, if_pos rfl, if_neg hne, hold]
        · exact hkept x hmem (fun h => by cases h)
  | dup2 oldfd newfd =>
      rcases dup2_cases hcall with
        ⟨e, rfl, hmem, hsame⟩ | ⟨rfl, rfl, rfl⟩ | ⟨item, rfl, hne, hold, hentry⟩
      · exact (hb x hx).of_same hmem (hsame x.1)
      · rcases mem_duplicate hx with ⟨hfd, hmem⟩ | ⟨hmem, -⟩
        · have hbound := hb _ hmem
          rwa [← hfd] at hbound
        · exact hb x hmem
      · rcases mem_duplicate hx with ⟨hfd, hmem⟩ | ⟨hmem, hne'⟩
        · apply (hkept _ hmem (fun h => hne (Option.some.inj h).symm)).transfer
          simp only
          rw [hfd, hentry, hentry, if_pos rfl, if_neg hne, hold]
        · exact hkept x hmem (fun h => hne' (Option.some.inj h).symm)
  | channelsOpen path flags => exact hkept x hx (fun h => by cases h)
  | mkdir path mode => exact hkept x hx (fun h => by cases h)
  | rmdir path => exact hkept x hx (fun h => by cases h)
  | link oldpath newpath => exact hkept x hx (fun h => by cases h)
  | unlink path => exact hkept x hx (fun h => by cases h)
  | rename oldpath newpath => exact hkept x hx (fun h => by cases h)

/-- In a run in which the counters are right at every removal, every descriptor that is still open has
the node and the data that its original open found. -/
theorem run_bound (ch : Channels) (calls : List FsCall) (s : Session)
    (hguard : Guarded (step ch) CountsOthers start calls)
    (hrun : runFrom (step ch) start calls = some s) : s.Bound :=
  (runFrom_invariant (fun _ _ _ => step_bound) calls start s
    ⟨grounded_fresh, fun _ hx => absurd hx List.not_mem_nil⟩ hguard hrun).2

/-- An unlinked file is removed when its descriptor is replaced by one of another file. -/
def replaceCalls : List FsCall :=
  [.memOpen (.fromRoot "f".toList) { creat := true, rdwr := true } 0o600, .unlink (.fromRoot "f".toList),
    .memOpen (.fromRoot "g".toList) { creat := true, rdwr := true } 0o600, .dup2 1 0]

theorem run_bound_replace :
    RunEnds (step standardInput) start replaceCalls fun s =>
      s.Bound ∧ s.live = [(0, some 3), (1, some 3)] := by
  have hguard : Guarded (step standardInput) CountsOthers start replaceCalls := by decide
  have hends : RunEnds (step standardInput) start replaceCalls fun s =>
      s.live = [(0, some 3), (1, some 3)] := by decide
  obtain ⟨s, hs, hlive⟩ := hends
  exact ⟨s, hs, run_bound standardInput replaceCalls s hguard hs, hlive⟩

/-- A duplicate is not counted: closing the original lets the file be removed for good, and a new file
takes its slot. -/
def reuseCalls : List FsCall :=
  [.memOpen (.fromRoot "f".toList) { creat := true, rdwr := true } 0o600, .dup 0, .close 0,
    .unlink (.fromRoot "f".toList),
    .memOpen (.fromRoot "g".toList) { creat := true, rdwr := true } 0o600]

theorem duplicate_reads_other_file :
    RunEnds (step standardInput) start reuseCalls fun s => ¬s.Bound := by
  have hends : RunEnds (step standardInput) start reuseCalls fun s =>
      (1, some 2) ∈ s.live ∧ (s.fs.files.handles.entry 1).map HandleItem.inode = some 2 ∧
        (s.fs.mem.nodeAt 2).map MemNode.nodedata = some 3 := by decide
  obtain ⟨s, hs, hlive, hinode, hnode⟩ := hends
  refine ⟨s, hs, fun hbound => ?_⟩
  obtain ⟨item, id, hitem, -, hid, n, d, hn, hdata, -⟩ := hbound _ hlive
  cases hid
  rw [hitem, Option.map_some, Option.some.injEq] at hinode
  rw [← hinode, hn, Option.map_some, hdata] at hnode
  cases hnode

end Session

end Zrt.Fs
