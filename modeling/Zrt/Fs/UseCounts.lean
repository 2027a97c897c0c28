import Zrt.Fs.LinkFrame
import Zrt.Fs.MemDescriptors

/-!
# Use counts that cover the descriptors

`open` counts a use in the data of the node, `close` takes one back. Duplicates are not counted, and a
link takes back a use that nobody has counted; without them the use counts cover the descriptors that
are open, as long as only these are closed.
-/

namespace Zrt.Fs

open Zrt.Framework

namespace MemMount

variable {m m' : MemMount} {slot id : Nat} {n : MemNode} {d : MemData} {r : Except Errno Unit}

/-- The data that was there, and still is, has been used as often at least. -/
def KeepsUses (m m' : MemMount) : Prop :=
  ∀ id d d', m.getData id = some d → m'.getData id = some d' → d.useCount ≤ d'.useCount

private theorem KeepsUses.refl (m : MemMount) : KeepsUses m m := by
  intro id d d' hd hd'
  rw [hd] at hd'
  cases hd'
  exact Nat.le_refl _

private theorem keepsUses_enterNode {parent mode : Nat} {name : Text} {isDir : Bool} {pn : MemNode}
    {pd : MemData} (he : m.Enterable parent name isDir none pn pd) :
    KeepsUses m (m.enterNode parent name isDir mode none) := by
  intro id d d' hd hd'
  have hbase : m.baseData isDir mode none id = some d := by
    rw [baseData, if_neg (Nat.ne_of_lt (lt_heap_length hd)), hd]
  rw [getData_enterNode he.node he.baseData_isDir, hbase, Option.map_some, Option.some.injEq] at hd'
  rw [← hd']
  split
  · exact Nat.le_refl _
  · exact Nat.le_refl _

private theorem creat_keepsUses {path : AbsolutePath} {mode : Nat}
    (hcall : m.creat path mode none = some (r, m')) : KeepsUses m m' := by
  rcases creat_cases hcall sharedData_none with ⟨e, -, rfl, -⟩ | ⟨-, p, pn, pd, -, -, he, rfl⟩
  · exact .refl _
  · exact keepsUses_enterNode he

private theorem memMkdir_keepsUses {path : AbsolutePath} {mode : Nat}
    (hcall : m.memMkdir path mode = some (r, m')) : KeepsUses m m' := by
  rcases memMkdir_cases hcall with ⟨e, -, rfl⟩ | hmkdir
  · exact .refl _
  · rcases mkdir_cases hmkdir sharedData_none with ⟨e, -, rfl, -⟩ | ⟨-, p, pn, pd, -, -, he, rfl⟩
    · exact .refl _
    · exact keepsUses_enterNode he

private theorem Unlinked.keepsUses (h : Unlinked m m' id d) : KeepsUses m m' := by
  intro i b b' hb hb'
  rcases h.kept i b hb with ⟨-, hnone⟩ | ⟨b'', hb'', hsame⟩
  · rw [hnone] at hb'
    cases hb'
  · rw [hb''] at hb'
    cases hb'
    exact hsame.useCount.ge

private theorem unlinkInternal_keepsUses (hcall : m.unlinkInternal slot = some (r, m')) :
    KeepsUses m m' := by
  cases r with
  | ok u =>
      obtain ⟨n, d, -, -, h⟩ := Unlinked.of_unlinkInternal hcall
      exact h.keepsUses
  | error e =>
      obtain ⟨n, d, -, -, ⟨e', -, rfl⟩ | ⟨hr, -⟩ | ⟨hr, -⟩⟩ := unlinkInternal_cases hcall
      · exact .refl _
      · cases hr
      · cases hr

private theorem unlink_keepsUses {path : AbsolutePath} (hcall : m.unlink path = some (r, m')) :
    KeepsUses m m' := by
  rcases unlink_cases hcall with ⟨-, -, rfl⟩ | ⟨slot, -, hcall⟩
  · exact .refl _
  · exact unlinkInternal_keepsUses hcall

private theorem keepsUses_removeDir (h : m.DirRemovable slot n d) : KeepsUses m (m.removeDir slot) := by
  intro i b b' hb hb'
  have hdrop : (m.dropEntry n slot i b).useCount = b.useCount := by
    unfold dropEntry
    split
    · split
      · rfl
      · rfl
    · rfl
  rw [getData_removeDir h.node h.data, hb, Option.map_some, Option.bind_some] at hb'
  split at hb'
  · obtain ⟨rfl, -⟩ := dropLink_eq_some hb'
    exact hdrop.ge
  · cases hb'
    exact hdrop.ge

private theorem memRmdir_keepsUses {path : AbsolutePath} (hroot : m.RootOutside)
    (hcall : m.memRmdir path = some (r, m')) : KeepsUses m m' := by
  rcases memRmdir_cases hroot hcall with ⟨e, -, rfl⟩ | ⟨-, slot, n, d, -, h, rfl⟩
  · exact .refl _
  · exact keepsUses_removeDir h

end MemMount

/-! ## Calls -/

namespace FileSystem

open MemMount

variable {fs fs' : FileSystem} {r : Except Errno Nat}

private theorem memOpenNode_uses {ino parent : Nat} {flags : OpenFlags} {n : MemNode}
    (hn : fs.mem.nodeAt ino = some n) (hcall : fs.memOpenNode ino parent flags = some (r, fs')) :
    ((∃ e, r = .error e) ∧ fs'.mem = fs.mem) ∨
    (∀ path, fs'.mem.memDataOf path = fs.mem.memDataOf path) ∧
      ∀ id d', fs'.mem.getData id = some d' → ∃ d, fs.mem.getData id = some d ∧
        d.useCount + (if id = n.nodedata then 1 else 0) = d'.useCount := by
  have href : ∀ id d', (fs.mem.ref ino).getData id = some d' → ∃ d, fs.mem.getData id = some d ∧
      d.useCount + (if id = n.nodedata then 1 else 0) = d'.useCount := by
    intro id d' hd'
    rw [ref, updateDataAt_eq hn, getData_updateData] at hd'
    split at hd'
    · rename_i hid
      obtain ⟨d, hd, rfl⟩ := Option.map_eq_some_iff.mp hd'
      exact ⟨d, hd, by rw [if_pos hid]⟩
    · rename_i hid
      exact ⟨d', hd', by rw [if_neg hid, Nat.add_zero]⟩
  have hpaths : ∀ path, (fs.mem.ref ino).memDataOf path = fs.mem.memDataOf path :=
    fun path => memDataOf_updateDataAt (inert_useCount _) path
  rcases memOpenNode_mem hcall with ⟨hr, hmem⟩ | hmem | hmem
  · exact Or.inl ⟨hr, hmem⟩
  · rw [hmem]
    exact Or.inr ⟨hpaths, href⟩
  · rw [hmem]
    have hn' : (fs.mem.ref ino).nodeAt ino = some n := by rw [ref, nodeAt_updateDataAt, hn]
    refine Or.inr ⟨fun path => ?_, fun id d' hd' => ?_⟩
    · rw [memDataOf_updateDataAt (inert_contents []), hpaths]
    · rw [updateDataAt_eq hn', getData_updateData] at hd'
      split at hd'
      · obtain ⟨d, hd, rfl⟩ := Option.map_eq_some_iff.mp hd'
        exact href id d hd
      · exact href id d' hd'

/-- A descriptor that is answered has been counted in the data of its path. -/
private theorem memOpen_uses {path : AbsolutePath} {flags : OpenFlags} {mode : Nat}
    (hcall : fs.memOpen path flags mode = some (r, fs')) :
    KeepsUses fs.mem fs'.mem ∧ ∀ fd, r = .ok fd → ∀ id d', fs'.mem.memDataOf path = some id →
      fs'.mem.getData id = some d' →
        1 ≤ d'.useCount ∧ ∀ d, fs.mem.getData id = some d → d.useCount + 1 ≤ d'.useCount := by
  obtain ⟨⟨r₁, mem⟩, hcreated, hcall⟩ := Option.bind_eq_some_iff.mp hcall
  have hkeeps : KeepsUses fs.mem mem := by
    split at hcreated
    · obtain ⟨r₂, hcreat⟩ := openCreat_creat hcreated
      exact creat_keepsUses hcreat
    · cases hcreated
      exact .refl _
  cases r₁ with
  | error e =>
      cases hcall
      exact ⟨hkeeps, nofun⟩
  | ok u =>
      obtain ⟨node, hnode, hcall⟩ := Option.bind_eq_some_iff.mp hcall
      cases node with
      | error e =>
          cases hcall
          exact ⟨hkeeps, nofun⟩
      | ok ino =>
          obtain ⟨parent, -, hcall⟩ := Option.bind_eq_some_iff.mp hcall
          obtain ⟨hslot, hsome⟩ := getNode_ok hnode
          obtain ⟨n, hn⟩ := Option.isSome_iff_exists.mp hsome
          have hdata : mem.memDataOf path = some n.nodedata :=
            memDataOf_eq_some.mpr ⟨ino, n, hslot, hn, rfl⟩
          rcases memOpenNode_uses hn hcall with ⟨⟨e, rfl⟩, hmem⟩ | ⟨hpaths, huses⟩
          · rw [hmem]
            exact ⟨hkeeps, nofun⟩
          · constructor
            · intro id d d' hd hd'
              obtain ⟨d₁, hd₁, huse⟩ := huses id d' hd'
              have hle := hkeeps id d d₁ hd hd₁
              omega
            · intro fd hfd id d' hid hd'
              obtain ⟨d₁, hd₁, huse⟩ := huses id d' hd'
              rw [hpaths, hdata, Option.some.injEq] at hid
              rw [if_pos hid.symm] at huse
              apply And.intro (by omega)
              intro d hd
              have hle := hkeeps id d d₁ hd hd₁
              omega

end FileSystem

/-! ## Runs -/

namespace Session

open MemMount FileSystem

variable {ch : Channels} {s s' : Session} {fs' : FileSystem} {r : Except Errno Nat} {c : FsCall}
  {m m' : MemMount} {live live' : List (Nat × Option Nat)}

/-- How many of the descriptors were opened on the data. -/
def opensOf (live : List (Nat × Option Nat)) (id : Nat) : Nat := live.countP fun x => x.2 = some id

/-- The use counts cover the descriptors. -/
def Covers (m : MemMount) (live : List (Nat × Option Nat)) : Prop :=
  ∀ id d, m.getData id = some d → opensOf live id ≤ d.useCount

/-- A deferred removal waits for a use count of zero, the removal of a directory for the descriptors
that have it. -/
def removesLast (m : MemMount) (inodes : List Nat) : Removal → Bool
  | .remove slot =>
      (m.nodeAt slot).all fun n => (m.getData n.nodedata).all fun d =>
        !d.wantUnlink || decide (d.useCount = 0)
  | .hide _ => true
  | .rmdir slot => m.counted inodes (.rmdir slot)

/-- The calls that count their uses. A descriptor is closed only while it is open. -/
def countsUses (live : List (Nat × Option Nat)) : FsCall → Bool
  | .close fd => live.any fun x => x.1 = fd
  | .dup _ | .dup2 _ _ | .link _ _ | .rename _ _ => false
  | _ => true

def Counting (s : Session) (c : FsCall) : Prop :=
  countsUses s.live c = true ∧ ∀ x ∈ s.fs.removals c, removesLast x.1 (s.others c) x.2 = true

instance (s : Session) (c : FsCall) : Decidable (s.Counting c) :=
  have := List.decidableBAll
    (fun x : MemMount × Removal => removesLast x.1 (s.others c) x.2 = true) (s.fs.removals c)
  inferInstanceAs (Decidable (_ ∧ _))

private theorem opensOf_forget {fd id : Nat} (h : (fd, some id) ∈ live) :
    opensOf (forget live fd) id + 1 ≤ opensOf live id := by
  unfold opensOf
  rw [List.countP_eq_countP_filter_add live _ fun x => decide (x.1 ≠ fd)]
  apply Nat.add_le_add_left
  apply List.countP_pos_iff.mpr
  exact ⟨_, List.mem_filter.mpr ⟨h, by simp⟩, by simp⟩

private theorem opensOf_forget_le (live : List (Nat × Option Nat)) (fd id : Nat) : opensOf (forget live fd) id ≤ opensOf live id :=
  List.filter_sublist.countP_le

/-- Descriptors lead to data that is there. -/
private theorem opensOf_missing {id : Nat} (hb : s.Bound) (hid : s.fs.mem.getData id = none) :
    opensOf s.live id = 0 := by
  apply List.countP_eq_zero.mpr
  intro x hx
  obtain ⟨item, id', -, -, hdata, n, d, -, -, hd⟩ := hb x hx
  rw [decide_eq_true_eq, hdata]
  rintro ⟨rfl⟩
  rw [hid] at hd
  cases hd

private theorem Covers.of_keepsUses (h : Covers m live)
    (hmissing : ∀ id, m.getData id = none → opensOf live id = 0) (hkeeps : KeepsUses m m') :
    Covers m' live := by
  intro id d' hd'
  cases hd : m.getData id with
  | none =>
      rw [hmissing id hd]
      exact Nat.zero_le _
  | some d => exact (h id d hd).trans (hkeeps id d d' hd hd')

private theorem openCount_others {id : Nat} (hb : s.Bound) (hnodes : ∀ t, m.nodeAt t = s.fs.mem.nodeAt t) :
    m.openCount (s.others c) id ≤
      opensOf (s.live.filter fun x => decide (closing c ≠ some x.1)) id := by
  unfold openCount others opensOf
  rw [List.countP_filterMap, List.countP_filter]
  apply List.countP_mono_left
  intro x hx h
  obtain ⟨item, id', hitem, -, hdata, n, d, hn, hid, -⟩ := hb x hx
  by_cases hc : closing c = some x.1
  · simp [hc] at h
  · simp only [hc, hitem, hnodes, hn, if_false, Option.map_some, Option.any_some, Option.getD_some,
      decide_eq_true_eq] at h
    simp [hc, hdata, ← h, hid]

private theorem counted_of_covers {inodes : List Nat} {rem : Removal} (h : Covers m live)
    (hle : ∀ id, m.openCount inodes id ≤ opensOf live id) (hlast : removesLast m inodes rem = true) :
    m.counted inodes rem = true := by
  cases rem with
  | hide slot => rfl
  | rmdir slot => exact hlast
  | remove slot =>
      cases hn : m.nodeAt slot with
      | none => simp [counted, hn]
      | some n =>
          cases hd : m.getData n.nodedata with
          | none => simp [counted, hn, hd]
          | some d =>
              have hcover := (hle n.nodedata).trans (h n.nodedata d hd)
              simp only [removesLast, hn, hd, Option.all_some] at hlast
              simp only [counted, hn, hd, Option.all_some, hcover, decide_true, Bool.true_and, hlast]

/-- Closing a descriptor takes back one use at most. -/
private theorem covers_unref {fd inode : Nat} {n : MemNode} (h : Covers s.fs.mem s.live)
    (hn : s.fs.mem.nodeAt inode = some n) (hmem : (fd, some n.nodedata) ∈ s.live) :
    Covers (s.fs.mem.unref inode) (forget s.live fd) := by
  intro id d' hd'
  rw [unref, updateDataAt_eq hn, getData_updateData] at hd'
  split at hd'
  · rename_i hid
    obtain ⟨d, hd, rfl⟩ := Option.map_eq_some_iff.mp hd'
    have hcover := h id d hd
    have hless := opensOf_forget (hid ▸ hmem)
    split
    · omega
    · simp only
      omega
  · exact (opensOf_forget_le s.live fd id).trans (h id d' hd')

private theorem opensOf_unref {fd inode : Nat} {n : MemNode} (hb : s.Bound)
    (hn : s.fs.mem.nodeAt inode = some n) :
    ∀ id, (s.fs.mem.unref inode).getData id = none → opensOf (forget s.live fd) id = 0 := by
  intro id hid
  have hnone : s.fs.mem.getData id = none := by
    rw [unref, updateDataAt_eq hn, getData_updateData] at hid
    split at hid
    · exact Option.map_eq_none_iff.mp hid
    · exact hid
  have hle := opensOf_forget_le s.live fd id
  rw [opensOf_missing hb hnone] at hle
  exact Nat.le_zero.mp hle

private theorem exists_mnode {fd : Nat} {data : Option Nat} (hb : s.Bound) (hx : (fd, data) ∈ s.live) :
    (s.fs.files.mountByhandle fd = none ∨ s.fs.files.mountByhandle fd = some .memory) ∧
      ∃ inode n, s.fs.mnodeByHandle fd = some inode ∧ s.fs.mem.nodeAt inode = some n ∧
        data = some n.nodedata := by
  obtain ⟨item, id, hitem, hmount, hdata, n, d, hn, hid, -⟩ := hb _ hx
  dsimp only at hitem hdata
  constructor
  · unfold OpenFiles.mountByhandle
    cases hofd : s.fs.files.pool.entry item.openFileDescriptionId with
    | none => simp [hitem, hofd]
    | some desc => simp [hitem, hofd, hmount]
  · refine ⟨item.inode, n, ?_, hn, by rw [hdata, hid]⟩
    rw [mnodeByHandle, hitem, Option.filter_some, if_pos (decide_eq_true hmount), Option.bind_some, hn,
      Option.map_some]

private theorem mem_unlinkInternalRemovals {slot : Nat} {x : MemMount × Removal}
    (hx : x ∈ m.unlinkInternalRemovals slot) : x.1 = m := by
  unfold unlinkInternalRemovals at hx
  split at hx
  · split at hx
    · rw [List.mem_singleton.mp hx]
    · rw [List.mem_singleton.mp hx]
  · cases hx

private theorem forget_eq (fd : Nat) :
    forget s.live fd = s.live.filter fun x => decide (closing (.close fd) ≠ some x.1) := by
  apply List.filter_congr
  intro x _
  simp [closing, eq_comm]

private theorem countsOthers_of_counting (hb : s.Bound) (h : Covers s.fs.mem s.live)
    (hc : s.Counting c) : s.CountsOthers c := by
  intro x hx
  have hlast := hc.2 x hx
  cases c with
  | memOpen path flags mode => cases hx
  | channelsOpen path flags => cases hx
  | mkdir path mode => cases hx
  | dup oldfd => cases hx
  | link oldpath newpath => cases hx
  | dup2 oldfd newfd => cases hc.1
  | rename oldpath newpath => cases hc.1
  | unlink path =>
      have hx1 : x.1 = s.fs.mem := by
        simp only [removals, unlinkRemovals] at hx
        split at hx
        · exact mem_unlinkInternalRemovals hx
        · cases hx
      rw [hx1] at hlast ⊢
      apply counted_of_covers h _ hlast
      intro id
      apply (openCount_others hb fun _ => rfl).trans
      exact List.filter_sublist.countP_le
  | rmdir path =>
      simp only [removals, rmdirRemovals] at hx
      split at hx
      · rw [List.mem_singleton.mp hx] at hlast ⊢
        exact hlast
      · cases hx
  | close fd =>
      obtain ⟨⟨fd', data⟩, hmem, hfd⟩ := List.any_eq_true.mp hc.1
      obtain rfl : fd' = fd := by simpa using hfd
      obtain ⟨hmount, inode, n, hinode, hn, rfl⟩ := exists_mnode hb hmem
      have hx1 : x.1 = s.fs.mem.unref inode := by
        simp only [removals, closeRemovals] at hx
        rcases hmount with hmount | hmount
        · rw [hmount] at hx
          cases hx
        · simp only [hmount, memCloseRemovals, hinode] at hx
          split at hx
          · cases hx
          · split at hx
            · exact mem_unlinkInternalRemovals hx
            · cases hx
      rw [hx1] at hlast ⊢
      apply counted_of_covers (covers_unref h hn hmem) _ hlast
      intro id
      rw [forget_eq]
      exact openCount_others hb fun t => nodeAt_updateDataAt _

private theorem covers_opened {path : AbsolutePath} {flags : OpenFlags} {mode fd : Nat} (hb : s.Bound)
    (h : Covers s.fs.mem s.live) (hcall : s.fs.memOpen path flags mode = some (.ok fd, fs')) :
    Covers fs'.mem ((fd, fs'.mem.memDataOf path) :: forget s.live fd) := by
  obtain ⟨hkeeps, hnew⟩ := memOpen_uses hcall
  intro id d' hd'
  have hold := opensOf_forget_le s.live fd id
  simp only [opensOf, List.countP_cons] at hold ⊢
  split
  · rename_i hid
    obtain ⟨hone, huse⟩ := hnew fd rfl id d' (by simpa using hid) hd'
    cases hd : s.fs.mem.getData id with
    | none =>
        have hzero := opensOf_missing hb hd
        unfold opensOf at hzero
        omega
    | some d =>
        have hcover := h id d hd
        have hmore := huse d hd
        unfold opensOf at hcover
        omega
  · have hcover := h.of_keepsUses (fun id hid => opensOf_missing hb hid) hkeeps id d' hd'
    unfold opensOf at hcover
    omega

private theorem covers_closed {fd inode : Nat} {n : MemNode} (hb : s.Bound) (h : Covers s.fs.mem s.live)
    (hmem : (fd, some n.nodedata) ∈ s.live) (hinode : s.fs.mnodeByHandle fd = some inode)
    (hn : s.fs.mem.nodeAt inode = some n) (hcall : s.fs.memClose fd = some (r, fs')) :
    r = .ok 0 ∧ Covers fs'.mem (forget s.live fd) := by
  simp only [memClose, hinode] at hcall
  obtain ⟨d, -, hcall⟩ := Option.bind_eq_some_iff.mp hcall
  obtain ⟨⟨r₁, mem⟩, hremoved, hcall⟩ := Option.bind_eq_some_iff.mp hcall
  have hkeeps : KeepsUses (s.fs.mem.unref inode) mem := by
    split at hremoved
    · exact unlinkInternal_keepsUses hremoved
    · cases hremoved
      exact .refl _
  cases r₁ with
  | error e => cases hcall
  | ok u =>
      obtain ⟨files, -, heq⟩ := Option.map_eq_some_iff.mp hcall
      cases heq
      exact ⟨rfl, (covers_unref h hn hmem).of_keepsUses (opensOf_unref hb hn) hkeeps⟩

private theorem covers_step (hg : s.fs.mem.Grounded) (hb : s.Bound) (h : Covers s.fs.mem s.live)
    (hc : s.Counting c) (hstep : step ch s c = some s') : Covers s'.fs.mem s'.live := by
  obtain ⟨⟨r, fs'⟩, hcall, rfl⟩ := Option.map_eq_some_iff.mp hstep
  have hkept : KeepsUses s.fs.mem fs'.mem → Covers fs'.mem s.live :=
    h.of_keepsUses fun id hid => opensOf_missing hb hid
  cases c with
  | memOpen path flags mode =>
      cases r with
      | error e => exact hkept (memOpen_uses hcall).1
      | ok fd => exact covers_opened hb h hcall
  | channelsOpen path flags =>
      have hlive : track s.live fs'.mem (.channelsOpen path flags) r = s.live := by
        cases r with
        | error e => rfl
        | ok fd => rfl
      rw [hlive]
      simp only
      rw [channelsOpen_mem hcall]
      exact h
  | close fd =>
      obtain ⟨⟨fd', data⟩, hmem, hfd⟩ := List.any_eq_true.mp hc.1
      obtain rfl : fd' = fd := by simpa using hfd
      obtain ⟨hmount, inode, n, hinode, hn, rfl⟩ := exists_mnode hb hmem
      simp only [call, close] at hcall
      rcases hmount with hmount | hmount
      · rw [hmount] at hcall
        cases hcall
        exact h
      · simp only [hmount] at hcall
        obtain ⟨rfl, hcovers⟩ := covers_closed hb h hmem hinode hn hcall
        exact hcovers
  | mkdir path mode =>
      obtain ⟨-, x, hx, -⟩ := ofMem_eq_some hcall
      exact hkept (memMkdir_keepsUses hx)
  | rmdir path =>
      obtain ⟨-, x, hx, -⟩ := ofMem_eq_some hcall
      exact hkept (memRmdir_keepsUses hg.rootOutside hx)
  | unlink path =>
      obtain ⟨-, x, hx, -⟩ := ofMem_eq_some hcall
      exact hkept (unlink_keepsUses hx)
  | dup oldfd => cases hc.1
  | dup2 oldfd newfd => cases hc.1
  | link oldpath newpath => cases hc.1
  | rename oldpath newpath => cases hc.1

/-- Where the calls count their uses the use counts need not be asked for: they cover the descriptors
that are open whenever a node is removed. -/
theorem run_countsOthers (ch : Channels) (calls : List FsCall)
    (h : Guarded (step ch) Counting start calls) : Guarded (step ch) CountsOthers start calls := by
  refine guarded_of_invariant (fun s => s.fs.mem.Grounded ∧ s.Bound ∧ Covers s.fs.mem s.live)
    ?_ ?_ calls start ?_ h
  · rintro s c ⟨-, hb, hcovers⟩ hc
    exact countsOthers_of_counting hb hcovers hc
  · rintro s c s' ⟨hg, hb, hcovers⟩ hc hstep
    obtain ⟨hg', hb'⟩ := step_bound ⟨hg, hb⟩ (countsOthers_of_counting hb hcovers hc) hstep
    exact ⟨hg', hb', covers_step hg hb hcovers hc hstep⟩
  · exact ⟨grounded_fresh, fun _ hx => absurd hx List.not_mem_nil, fun id d _ => Nat.zero_le _⟩

/-- A file is unlinked while it is open; the removal is deferred to the close. -/
example : Guarded (step standardInput) Counting start
    [.memOpen (.fromRoot "f".toList) { creat := true, rdwr := true } 0o600,
      .unlink (.fromRoot "f".toList), .mkdir (.fromRoot "d".toList) 0o700,
      .memOpen (.fromRoot "g".toList) { creat := true, rdwr := true } 0o600, .close 0] := by
  decide

end Session

end Zrt.Fs
