import Zrt.Fs.Accounting
import Zrt.Fs.MemRename

/-!
# Opens that fail

An open makes a missing file first and looks at the length of the path, at the free handles and at
the type of the node afterwards. What it has done by then stays when one of these refuses it.
-/

namespace Zrt.Fs

open Zrt.Framework

namespace MemMount

variable {m : MemMount} {path : AbsolutePath}

/-- `O_CREAT` has a file to make: nothing is at the path, and its parent is a directory. -/
def creatable (m : MemMount) (path : AbsolutePath) : Bool :=
  match m.getParentSlot path, m.getMemNode path with
  | some (.ok parent), some none => m.dirAt parent
  | _, _ => false

private theorem creatable_eq_true (h : m.creatable path = true) :
    ∃ parent pn pd, m.getParentSlot path = some (.ok parent) ∧ m.getMemNode path = some none ∧
      path.path ≠ [] ∧ m.Enterable parent path.last false none pn pd := by
  unfold creatable at h
  split at h
  · rename_i parent hparent hnone
    obtain ⟨pd, hpd, hdir⟩ := (Option.any_eq_true _ _).mp h
    obtain ⟨pn, hpn, hdata⟩ := dataAt_eq_some.mp hpd
    obtain ⟨hmissing, hne⟩ := findChild_of_getMemNode_none hparent hpn hdata hdir hnone
    have hslash := AbsolutePath.slash_not_mem_last hne
    exact ⟨parent, pn, pd, hparent, hnone, hne, hpn, hdata, hdir, hmissing, hslash, sharedData_none⟩
  · cases h

private theorem creatable_of_enterable {parent : Nat} {pn : MemNode} {pd : MemData}
    (hparent : m.getParentSlot path = some (.ok parent)) (hne : path.path ≠ [])
    (he : m.Enterable parent path.last false none pn pd) : m.creatable path = true := by
  have hslot : m.getSlot path = some (.error .enoent) := by
    rw [getSlot, AbsolutePath.path_eq_snoc hne, walk_append]
    rw [getParentSlot, getSlot] at hparent
    rw [hparent, Option.bind_some]
    simp only [walk, dataAt_of he.node, he.data, Option.bind_some, if_pos he.dir, he.missing]
  have hnone : m.getMemNode path = some none := by rw [getMemNode, hslot, Option.map_some]
  simp only [creatable, hparent, hnone, dirAt, dataAt_of he.node, he.data, Option.any_some, he.dir]

/-! ## The new node is found -/

section Enter

variable {parent : Nat} {pn : MemNode} {pd : MemData} {name : Text} {isDir : Bool}
  {hardlink : Option Nat} (mode : Nat)

theorem findChild_enterNode {new : Text} {cs : List Nat}
    (h : (m.findChild name cs).isSome) :
    (m.enterNode parent new isDir mode hardlink).findChild name cs = m.findChild name cs := by
  induction cs with
  | nil => rfl
  | cons c cs ih =>
      obtain ⟨found, hfound⟩ := Option.isSome_iff_exists.mp h
      simp only [findChild] at hfound ⊢
      obtain ⟨n, hn, hfound⟩ := Option.bind_eq_some_iff.mp hfound
      rw [nodeAt_enterNode_of_some hn, hn, Option.bind_some, Option.bind_some]
      split at hfound
      · rename_i hname
        rw [if_pos hname, if_pos hname]
      · rename_i hname
        rw [if_neg hname, if_neg hname, ih (by rw [hfound]; rfl)]

private theorem findChild_append_found {cs : List Nat} {c : Nat} (ds : List Nat)
    (h : m.findChild name cs = some (some c)) : m.findChild name (cs ++ ds) = some (some c) := by
  induction cs with
  | nil => cases h
  | cons b cs ih =>
      simp only [List.cons_append, findChild] at h ⊢
      obtain ⟨n, hn, h⟩ := Option.bind_eq_some_iff.mp h
      rw [hn, Option.bind_some]
      split at h
      · rename_i hname
        rw [if_pos hname, h]
      · rename_i hname
        rw [if_neg hname, ih h]

/-- A directory keeps its children in front of what is entered. -/
theorem Enterable.dataAt_prefix (he : m.Enterable parent path.last isDir hardlink pn pd) {s : Nat}
    {d : MemData} (hd : m.dataAt s = some d) :
    ∃ d' new, (m.enterNode parent path.last isDir mode hardlink).dataAt s = some d' ∧
      d'.isDir = d.isDir ∧ d'.children = d.children ++ new := by
  obtain ⟨n, hn, hdata⟩ := dataAt_eq_some.mp hd
  obtain ⟨d', hd'⟩ : ∃ d', (m.enterNode parent path.last isDir mode hardlink).getData n.nodedata =
      some d' := he.forward hdata
  have hat : (m.enterNode parent path.last isDir mode hardlink).dataAt s = some d' := by
    rw [dataAt_of (nodeAt_enterNode_of_some hn), hd']
  rcases he.backward hd' with ⟨d₀, hd₀, hdir, -, -, hchildren⟩ | ⟨-, hlen, -⟩
  · rw [hdata] at hd₀
    cases hd₀
    split at hchildren
    · exact ⟨d', _, hat, hdir, hchildren⟩
    · exact ⟨d', [], hat, hdir, by rw [hchildren, List.append_nil]⟩
  · exact absurd (lt_heap_length hdata) (by omega)

theorem Enterable.walk_ok (he : m.Enterable parent path.last isDir hardlink pn pd) {names : List Text}
    {s t : Nat} (h : m.walk s names = some (.ok t)) :
    (m.enterNode parent path.last isDir mode hardlink).walk s names = some (.ok t) := by
  induction names generalizing s with
  | nil => exact h
  | cons name names ih =>
      rw [walk_cons] at h ⊢
      obtain ⟨r, hr, h⟩ := Option.bind_eq_some_iff.mp h
      cases r with
      | error e => cases h
      | ok u =>
          obtain ⟨d, hd, hdir, hfind⟩ := walk_singleton_ok hr
          obtain ⟨d', new, hd', hdir', hchildren⟩ := he.dataAt_prefix mode hd
          have hfind' : (m.enterNode parent path.last isDir mode hardlink).findChild name d.children =
              some (some u) := by
            rw [findChild_enterNode mode (by rw [hfind]; rfl), hfind]
          have hstep : (m.enterNode parent path.last isDir mode hardlink).walk s [name] =
              some (.ok u) := by
            rw [walk, hd', Option.bind_some, if_pos (hdir'.trans hdir), hchildren,
              findChild_append_found new hfind', Option.bind_some]
            rfl
          rw [hstep]
          exact ih h

theorem Enterable.getSlot_new (he : m.Enterable parent path.last isDir hardlink pn pd)
    (hparent : m.getParentSlot path = some (.ok parent)) (hne : path.path ≠ []) :
    (m.enterNode parent path.last isDir mode hardlink).getSlot path =
      some (.ok (m.newSlot parent path.last isDir mode hardlink)) := by
  obtain ⟨d', hd'⟩ : ∃ d', (m.enterNode parent path.last isDir mode hardlink).getData pn.nodedata =
      some d' := he.forward he.data
  have hchildren : d'.isDir = true ∧
      d'.children = pd.children ++ [m.newSlot parent path.last isDir mode hardlink] := by
    rcases he.backward hd' with ⟨d₀, hd₀, hdir, -, -, hchildren⟩ | ⟨-, hlen, -⟩
    · rw [he.data] at hd₀
      cases hd₀
      rw [if_pos rfl] at hchildren
      exact ⟨hdir.trans he.dir, hchildren⟩
    · exact absurd (lt_heap_length he.data) (by omega)
  have hmissing : (m.enterNode parent path.last isDir mode hardlink).findChild path.last pd.children =
      some none := by
    rw [findChild_enterNode mode (by rw [he.missing]; rfl), he.missing]
  have hwalk := he.walk_ok mode hparent
  rw [getSlot, AbsolutePath.path_eq_snoc hne, walk_append, hwalk, Option.bind_some]
  simp only [walk, dataAt_of (nodeAt_enterNode_of_some he.node), hd', Option.bind_some,
    hchildren.1, hchildren.2, if_true,
    findChild_append_self (nodeAt_newSlot m parent path.last isDir mode hardlink) rfl hmissing]

theorem Enterable.dataAt_new (he : m.Enterable parent path.last isDir none pn pd) :
    ∃ d, (m.enterNode parent path.last isDir mode none).dataAt
      (m.newSlot parent path.last isDir mode none) = some d ∧ d.isDir = isDir := by
  have hne : m.heap.length ≠ pn.nodedata := (Nat.ne_of_lt (lt_heap_length he.data)).symm
  have hnew : (m.enterNode parent path.last isDir mode none).getData m.heap.length =
      some { isDir := isDir, mode := mode } := by
    rw [getData_enterNode he.node he.baseData_isDir, baseData, if_pos rfl, Option.map_some,
      if_neg hne]
  exact ⟨_, (dataAt_of (nodeAt_newSlot m parent path.last isDir mode none)).trans hnew, rfl⟩

end Enter

/-! ## `O_CREAT` -/

theorem openCreat_new {parent : Nat} {pn : MemNode} {pd : MemData} (excl : Bool) (mode : Nat)
    (hparent : m.getParentSlot path = some (.ok parent)) (hnone : m.getMemNode path = some none)
    (hne : path.path ≠ []) (he : m.Enterable parent path.last false none pn pd) :
    m.openCreat path excl mode none =
      some (.ok (), m.enterNode parent path.last false mode none) := by
  have hcreat : m.creat path mode none =
      some (.ok (), m.enterNode parent path.last false mode none) := by
    simp only [creat, hparent, he.node, he.data, Option.bind_some, if_pos he.dir, hnone]
    rfl
  have hfound : (m.enterNode parent path.last false mode none).getMemNode path =
      some (some (m.newSlot parent path.last false mode none)) :=
    getMemNode_eq_some.mpr ⟨he.getSlot_new mode hparent hne, by rw [nodeAt_newSlot]; rfl⟩
  simp only [openCreat, hcreat, Option.bind_some, hfound, Option.map_some, Option.isSome_some,
    if_true]

private theorem openCreat_kept {m' : MemMount} {excl : Bool} {mode : Nat} {r : Except Errno Unit}
    (hcall : m.openCreat path excl mode none = some (r, m')) (hno : m.creatable path = false) :
    m' = m ∧ (r = .ok () → excl = false) := by
  obtain ⟨⟨r₁, m₁⟩, hcreat, hopened⟩ := Option.bind_eq_some_iff.mp hcall
  rcases creat_cases hcreat sharedData_none with
    ⟨e, rfl, rfl, hexist⟩ | ⟨rfl, parent, pn, pd, hparent, hne, he, rfl⟩
  · simp only at hopened
    split at hopened
    · cases hopened
      exact ⟨rfl, fun h => by cases h⟩
    · rename_i hgo
      have hexcl : excl = false := by simpa using fun h => hgo (Or.inr h)
      obtain ⟨found, -, hopened⟩ := Option.bind_eq_some_iff.mp hopened
      cases found with
      | error e' =>
          cases hopened
          exact ⟨rfl, fun h => by cases h⟩
      | ok s =>
          obtain ⟨node, -, heq⟩ := Option.map_eq_some_iff.mp hopened
          cases heq
          exact ⟨rfl, fun _ => hexcl⟩
  · rw [creatable_of_enterable hparent hne he] at hno
    cases hno

theorem dataAt_ref {slot : Nat} :
    (m.ref slot).dataAt slot = (m.dataAt slot).map fun d => { d with useCount := d.useCount + 1 } := by
  unfold ref dataAt
  rw [nodeAt_updateDataAt]
  cases hn : m.nodeAt slot with
  | none => rfl
  | some n => rw [Option.bind_some, Option.bind_some, updateDataAt_eq hn, getData_updateData, if_pos rfl]

end MemMount

namespace FileSystem

variable {fs fs' : FileSystem} {path : AbsolutePath} {flags : OpenFlags} {mode : Nat}
  {r : Except Errno Nat} {ino parent : Nat}

/-- Nodes, entries, contents and counts are the same, and so are the handles and the descriptions in
use. The cursors of the tables and the flags left in an unused description do not count. -/
structure Untouched (fs fs' : FileSystem) : Prop where
  mem : fs'.mem = fs.mem
  handles : ∀ fd, fs'.files.handles.entry fd = fs.files.handles.entry fd
  descriptions : ∀ id, fs'.files.pool.entry id = fs.files.pool.entry id

/-- No handle is free. -/
def handlesFull (fs : FileSystem) : Bool := fs.files.handles.slots.all Option.isSome

/-- The path names a directory. -/
def namesDir (fs : FileSystem) (path : AbsolutePath) : Bool :=
  ((fs.mem.getMemNode path).getD none).any fs.mem.dirAt

/-- The opens that are refused too late: a file has been made whose path is too long or that gets no
handle, or a directory has been given a handle before it turns out to be asked for writing. -/
def refusedLate (fs : FileSystem) (path : AbsolutePath) (flags : OpenFlags) : Bool :=
  if flags.creat && fs.mem.creatable path then MemMount.pathTooLong path || fs.handlesFull
  else
    fs.namesDir path && (flags.trunc || flags.wronly || flags.rdwr) &&
      !(flags.creat && flags.excl) && !MemMount.pathTooLong path && !fs.handlesFull

/-! ## Handles -/

private theorem openDescriptor_fst_eq_none (h : fs.files.Accounts none) (ino parent : Nat)
    (flags : OpenFlags) :
    (fs.files.openDescriptor .memory ino parent flags).1 = none ↔ fs.handlesFull = true := by
  have hseek : (fs.files.openDescriptor .memory ino parent flags).1 =
      seekUnusedSlot Option.isNone fs.files.handles.slots fs.files.handles.firstUnusedSlot := by
    unfold OpenFiles.openDescriptor HandleAllocator.allocateHandle
    cases seekUnusedSlot Option.isNone fs.files.handles.slots fs.files.handles.firstUnusedSlot with
    | none => rfl
    | some i => rfl
  rw [hseek, handlesFull, List.all_eq_true]
  constructor
  · intro hnone a ha
    have hused := seekUnusedSlot_eq_none h.handles_low hnone a ha
    rwa [Option.isNone_eq_false_iff] at hused
  · intro hfull
    cases hs : seekUnusedSlot Option.isNone fs.files.handles.slots
        fs.files.handles.firstUnusedSlot with
    | none => rfl
    | some i =>
        obtain ⟨a, ha, hfree⟩ := seekUnusedSlot_eq_some hs
        have hused := hfull a (List.mem_of_getElem? ha)
        rw [Option.isNone_iff_eq_none.mp hfree] at hused
        cases hused

private theorem entry_releaseOfd_getnewOfd (flags : OpenFlags) (p : OpenFilesPool) (id : Option Nat) :
    (((p.getnewOfd flags).2.releaseOfd (p.getnewOfd flags).1).getD (p.getnewOfd flags).2).entry id =
      p.entry id := by
  unfold OpenFilesPool.getnewOfd
  cases hseek : seekUnusedSlot (fun f => f.refcount == 0) p.openFiles p.firstUnusedSlot with
  | none => rfl
  | some i =>
      obtain ⟨f, hf, hfree⟩ := seekUnusedSlot_eq_some hseek
      have hlt := (List.getElem?_eq_some_iff.mp hf).1
      have hzero : f.refcount = 0 := by simpa using hfree
      have hentry : (OpenFilesPool.mk (p.openFiles.set i ⟨flags, 1⟩) (some i)).entry (some i) =
          some ⟨flags, 1⟩ := by
        simp [OpenFilesPool.entry, List.getElem?_set_self hlt]
      simp only [OpenFilesPool.releaseOfd, Option.bind_some, hentry, Option.map_some,
        Option.getD_some, List.set_set]
      cases id with
      | none => rfl
      | some k =>
          simp only [OpenFilesPool.entry, Option.bind_some]
          by_cases hk : i = k
          · subst hk
            rw [List.getElem?_set_self hlt, hf, Option.filter_some, Option.filter_some, hzero]
            rfl
          · rw [List.getElem?_set_ne hk]

private theorem openDescriptor_none (h : (fs.files.openDescriptor .memory ino parent flags).1 = none) :
    Untouched fs { fs with files := (fs.files.openDescriptor .memory ino parent flags).2 } where
  mem := rfl
  handles := by
    have hentry := fs.files.openDescriptor_entry .memory ino parent flags
    rw [h] at hentry
    exact hentry
  descriptions := by
    intro id
    have hpool := entry_releaseOfd_getnewOfd flags fs.files.pool id
    unfold OpenFiles.openDescriptor at h ⊢
    cases hfd : (fs.files.handles.allocateHandle
        ⟨.memory, ino, parent, (fs.files.pool.getnewOfd flags).1⟩).1 with
    | none =>
        simp only [hfd]
        exact hpool
    | some fd =>
        simp only [hfd] at h
        cases h

/-! ## The node is there -/

theorem memOpenNode_cases (h : fs.files.Accounts none) {ino parent : Nat}
    (hcall : fs.memOpenNode ino parent flags = some (r, fs')) :
    (r = .error .enfile ∧ fs.handlesFull = true ∧ Untouched fs fs') ∨
    (r = .error .eisdir ∧ fs.handlesFull = false ∧ fs.mem.dirAt ino = true ∧
      (flags.trunc || flags.wronly || flags.rdwr) = true ∧ ¬Untouched fs fs') ∨
    ((∃ fd, r = .ok fd) ∧ fs.handlesFull = false ∧
      (fs.mem.dirAt ino && (flags.trunc || flags.wronly || flags.rdwr)) = false) := by
  have hfull := openDescriptor_fst_eq_none h ino parent flags
  unfold memOpenNode at hcall
  cases hfd : (fs.files.openDescriptor .memory ino parent flags).1 with
  | none =>
      simp only [hfd] at hcall
      cases hcall
      exact .inl ⟨rfl, hfull.mp hfd, openDescriptor_none hfd⟩
  | some fd =>
      have hnot : fs.handlesFull = false := by
        rw [← Bool.not_eq_true, ← hfull, hfd]
        exact Option.some_ne_none fd
      simp only [hfd] at hcall
      obtain ⟨d, hd, heq⟩ := Option.map_eq_some_iff.mp hcall
      have hdir : fs.mem.dirAt ino = d.isDir := by
        rw [MemMount.dataAt_ref] at hd
        obtain ⟨d₀, hd₀, rfl⟩ := Option.map_eq_some_iff.mp hd
        rw [MemMount.dirAt, hd₀, Option.any_some]
      split at heq
      · rename_i hwrite
        cases heq
        refine .inr (.inl ⟨rfl, hnot, hdir.trans hwrite.1, by simpa [or_assoc] using hwrite.2, ?_⟩)
        intro hsame
        have hentry := fs.files.openDescriptor_entry .memory ino parent flags
        rw [hfd] at hentry
        obtain ⟨hfree, ofd, hentries⟩ := hentry
        have hfd' := hsame.handles fd
        rw [hentries fd, if_pos rfl, hfree] at hfd'
        cases hfd'
      · rename_i hwrite
        have hok : ∃ fd', r = .ok fd' := by
          split at heq
          · cases heq
            exact ⟨fd, rfl⟩
          · cases heq
            exact ⟨fd, rfl⟩
        refine .inr (.inr ⟨hok, hnot, ?_⟩)
        rw [hdir]
        simpa [and_assoc] using hwrite

theorem memOpenNode_answers {d : MemData} (hd : fs.mem.dataAt ino = some d) (parent : Nat)
    (flags : OpenFlags) : ∃ x, fs.memOpenNode ino parent flags = some x := by
  unfold memOpenNode
  cases hfd : (fs.files.openDescriptor .memory ino parent flags).1 with
  | none =>
      simp only [hfd]
      exact ⟨_, rfl⟩
  | some fd =>
      simp only [hfd, MemMount.dataAt_ref, hd, Option.map_some]
      exact ⟨_, rfl⟩

/-! ## Opens -/

private theorem memOpen_new (mode : Nat) (hflag : flags.creat = true) (hnew : fs.mem.creatable path = true) :
    ∃ mem slot parent d, mem ≠ fs.mem ∧ mem.dataAt slot = some d ∧ d.isDir = false ∧
      fs.memOpen path flags mode =
        if MemMount.pathTooLong path then some (.error .enoent, { fs with mem := mem })
        else memOpenNode { fs with mem := mem } slot parent flags := by
  obtain ⟨parent, pn, pd, hparent, hnone, hne, he⟩ := MemMount.creatable_eq_true hnew
  obtain ⟨d, hd, hdir⟩ := he.dataAt_new mode
  have hslot := he.getSlot_new mode hparent hne
  have hparent' : (fs.mem.enterNode parent path.last false mode none).getParentSlot path =
      some (.ok parent) := he.walk_ok mode hparent
  obtain ⟨pd', hpd'⟩ : ∃ pd', (fs.mem.enterNode parent path.last false mode none).getData pn.nodedata =
      some pd' := he.forward he.data
  refine ⟨_, _, parent, d, ?_, hd, hdir, ?_⟩
  · intro hsame
    have hmade := MemMount.nodeAt_newSlot fs.mem parent path.last false mode none
    rw [hsame, MemMount.newSlot_free] at hmade
    cases hmade
  · obtain ⟨n, hn, hdata⟩ := MemMount.dataAt_eq_some.mp hd
    simp only [memOpen, hflag, if_true, MemMount.openCreat_new flags.excl mode hparent hnone hne he,
      Option.bind_some, MemMount.getNode, MemMount.getParentNode, hparent', hslot, MemMount.stat, hn,
      hdata, MemMount.nodeAt_enterNode_of_some he.node, hpd', Option.map_some]
    split
    · rfl
    · rfl

private theorem memOpen_kept (hno : (flags.creat && fs.mem.creatable path) = false)
    (hcall : fs.memOpen path flags mode = some (r, fs')) :
    (∃ e, r = .error e ∧ fs' = fs) ∨
    ∃ s parent, fs.mem.getMemNode path = some (some s) ∧ MemMount.pathTooLong path = false ∧
      (flags.creat && flags.excl) = false ∧ fs.memOpenNode s parent flags = some (r, fs') := by
  obtain ⟨⟨r₁, mem⟩, hcreated, hcall⟩ := Option.bind_eq_some_iff.mp hcall
  have hkept : mem = fs.mem ∧ (r₁ = .ok () → (flags.creat && flags.excl) = false) := by
    split at hcreated
    · rename_i hflag
      rw [hflag, Bool.true_and] at hno
      rw [hflag, Bool.true_and]
      exact MemMount.openCreat_kept hcreated hno
    · rename_i hflag
      cases hcreated
      exact ⟨rfl, fun _ => by rw [Bool.eq_false_iff.mpr hflag, Bool.false_and]⟩
  obtain ⟨rfl, hexcl⟩ := hkept
  cases r₁ with
  | error e =>
      cases hcall
      exact .inl ⟨_, rfl, rfl⟩
  | ok u =>
      obtain ⟨found, hfound, hcall⟩ := Option.bind_eq_some_iff.mp hcall
      cases found with
      | error e =>
          cases hcall
          exact .inl ⟨_, rfl, rfl⟩
      | ok s =>
          obtain ⟨parent, -, hcall⟩ := Option.bind_eq_some_iff.mp hcall
          refine .inr ⟨s, _, MemMount.getMemNode_eq_some.mpr (MemMount.getNode_ok hfound), ?_,
            hexcl rfl, hcall⟩
          by_contra hlong
          rw [Bool.not_eq_false] at hlong
          rw [MemMount.getNode, if_pos hlong] at hfound
          cases hfound

private theorem memOpen_dir (mode : Nat) (hdir : fs.namesDir path = true) (hshort : MemMount.pathTooLong path = false)
    (hexcl : (flags.creat && flags.excl) = false) :
    ∃ s parent, fs.mem.dirAt s = true ∧
      fs.memOpen path flags mode = fs.memOpenNode s parent flags := by
  obtain ⟨s, hs, hsdir⟩ := (Option.any_eq_true _ _).mp hdir
  have hnode : fs.mem.getMemNode path = some (some s) := by
    cases hget : fs.mem.getMemNode path with
    | none =>
        rw [hget] at hs
        cases hs
    | some found =>
        rw [hget, Option.getD_some] at hs
        rw [hs]
  obtain ⟨hslot, -⟩ := MemMount.getMemNode_eq_some.mp hnode
  obtain ⟨d, hd, hisDir⟩ := (Option.any_eq_true _ _).mp hsdir
  obtain ⟨n, hn, hdata⟩ := MemMount.dataAt_eq_some.mp hd
  obtain ⟨p, hp, pd, hpd, hpdir⟩ : ∃ p, fs.mem.getParentSlot path = some (.ok p) ∧
      ∃ pd, fs.mem.dataAt p = some pd ∧ pd.isDir = true := by
    by_cases hne : path.path = []
    · rw [MemMount.getSlot, hne] at hslot
      cases hslot
      refine ⟨_, ?_, d, hd, hisDir⟩
      rw [MemMount.getParentSlot, MemMount.getSlot, AbsolutePath.path_dotdot, hne]
      rfl
    · rw [MemMount.getSlot, AbsolutePath.path_eq_snoc hne] at hslot
      obtain ⟨p, hp, hlast⟩ := MemMount.walk_snoc_ok hslot
      obtain ⟨pd, hpd, hpdir, -⟩ := MemMount.walk_singleton_ok hlast
      exact ⟨p, hp, pd, hpd, hpdir⟩
  obtain ⟨pn, hpn, hpdata⟩ := MemMount.dataAt_eq_some.mp hpd
  have hgetNode : fs.mem.getNode path = some (.ok s) := by
    simp only [MemMount.getNode, hshort, Bool.false_eq_true, if_false, hp, Option.bind_some, hslot,
      MemMount.stat, hn, hdata, Option.map_some]
  have hgetParent : fs.mem.getParentNode path = some (.ok p) := by
    simp only [MemMount.getParentNode, hshort, Bool.false_eq_true, if_false, hp, Option.bind_some,
      MemMount.stat, hpn, hpdata, Option.map_some]
  refine ⟨s, p, hsdir, ?_⟩
  have hcreated : (if flags.creat then fs.mem.openCreat path flags.excl mode none
      else some (.ok (), fs.mem)) = some (.ok (), fs.mem) := by
    split
    · rename_i hflag
      rw [hflag, Bool.true_and] at hexcl
      simp only [MemMount.openCreat, MemMount.creat, hp, Option.bind_some, hpn, hpdata,
        if_pos hpdir, hnode, hexcl, hgetNode, ne_eq, not_true_eq_false, Bool.false_eq_true, or_self,
        if_false, Option.map_some, Option.isSome_some, if_true]
    · rfl
  simp only [memOpen, hcreated, Option.bind_some, hgetNode, hgetParent]

private theorem untouched_new_iff (h : fs.files.Accounts none) (mode : Nat)
    (hnew : (flags.creat && fs.mem.creatable path) = true) :
    (∀ e fs', fs.memOpen path flags mode = some (.error e, fs') → Untouched fs fs') ↔
      (MemMount.pathTooLong path || fs.handlesFull) = false := by
  rw [Bool.and_eq_true] at hnew
  obtain ⟨mem, slot, parent, d, hmem, hd, hdir, hopen⟩ := memOpen_new mode hnew.1 hnew.2
  rw [hopen]
  split
  · rename_i hlong
    simp only [hlong, Bool.true_or, Bool.true_eq_false, iff_false]
    intro hsame
    exact hmem (hsame _ _ rfl).mem
  · rename_i hlong
    rw [Bool.eq_false_iff.mpr hlong, Bool.false_or]
    have hdata : (FileSystem.mem { fs with mem := mem }).dataAt slot = some d := hd
    obtain ⟨⟨r, fs₁⟩, hnode⟩ := memOpenNode_answers hdata parent flags
    have haccounts : OpenFiles.Accounts none (files { fs with mem := mem }) := h
    have hcases := memOpenNode_cases haccounts hnode
    rw [hnode]
    rcases hcases with ⟨rfl, hfull, hleft⟩ | ⟨-, -, hslot, -⟩ | ⟨⟨fd, rfl⟩, hfree, -⟩
    · constructor
      · intro hsame
        exact absurd (hleft.mem.symm.trans (hsame _ _ rfl).mem) hmem
      · intro hfree
        exact absurd hfull (by rw [handlesFull] at hfree ⊢; simp [hfree])
    · rw [MemMount.dirAt, hd, Option.any_some, hdir] at hslot
      cases hslot
    · constructor
      · intro _
        exact hfree
      · intro _ e fs' hcall
        cases hcall

private theorem untouched_found_iff (h : fs.files.Accounts none) (mode : Nat)
    (hno : (flags.creat && fs.mem.creatable path) = false) :
    (∀ e fs', fs.memOpen path flags mode = some (.error e, fs') → Untouched fs fs') ↔
      (fs.namesDir path && (flags.trunc || flags.wronly || flags.rdwr) &&
        !(flags.creat && flags.excl) && !MemMount.pathTooLong path && !fs.handlesFull) = false := by
  constructor
  · intro hsame
    by_contra hlate
    rw [Bool.not_eq_false] at hlate
    simp only [Bool.and_eq_true, Bool.not_eq_true'] at hlate
    obtain ⟨⟨⟨⟨hdir, hwrite⟩, hexcl⟩, hshort⟩, hfree⟩ := hlate
    obtain ⟨s, parent, hsdir, hopen⟩ := memOpen_dir mode hdir hshort hexcl
    obtain ⟨d, hd, -⟩ := (Option.any_eq_true _ _).mp hsdir
    obtain ⟨⟨r, fs₁⟩, hnode⟩ := memOpenNode_answers hd parent flags
    rw [hopen, hnode] at hsame
    rcases memOpenNode_cases h hnode with
      ⟨-, hfull, -⟩ | ⟨rfl, -, -, -, hchanged⟩ | ⟨-, -, hrefused⟩
    · rw [hfree] at hfull
      cases hfull
    · exact hchanged (hsame _ _ rfl)
    · rw [hsdir, hwrite] at hrefused
      cases hrefused
  · intro hearly e fs' hcall
    rcases memOpen_kept hno hcall with ⟨e', -, rfl⟩ | ⟨s, parent, hs, hshort, hexcl, hnode⟩
    · exact ⟨rfl, fun _ => rfl, fun _ => rfl⟩
    · rcases memOpenNode_cases h hnode with
        ⟨-, -, hsame⟩ | ⟨-, hfree, hsdir, hwrite, -⟩ | ⟨⟨fd, hok⟩, -⟩
      · exact hsame
      · have hdir : fs.namesDir path = true := by rw [namesDir, hs]; exact hsdir
        rw [hdir, hwrite, hexcl, hshort, hfree] at hearly
        cases hearly
      · cases hok

/-- A failed open leaves everything as it was, unless it is refused too late. -/
theorem failedOpen_untouched_iff (h : fs.files.Accounts none) (path : AbsolutePath)
    (flags : OpenFlags) (mode : Nat) :
    (∀ e fs', fs.memOpen path flags mode = some (.error e, fs') → Untouched fs fs') ↔
      fs.refusedLate path flags = false := by
  unfold refusedLate
  split
  · rename_i hnew
    exact untouched_new_iff h mode hnew
  · rename_i hno
    rw [Bool.not_eq_true] at hno
    exact untouched_found_iff h mode hno

/-- The root opened for writing: refused, but its first handle is in use from then on. -/
theorem failedOpen_keeps_handle :
    ∃ fs', start.memOpen (.fromRoot []) { wronly := true } 0 = some (.error .eisdir, fs') ∧
      ¬Untouched start fs' := by
  have hopen : ((start.memOpen (.fromRoot []) { wronly := true } 0).map fun x =>
      (x.1, (x.2.files.handles.entry 0).isSome)) = some (.error .eisdir, true) := by decide
  obtain ⟨⟨r, fs'⟩, hcall, heq⟩ := Option.map_eq_some_iff.mp hopen
  obtain ⟨rfl, hentry⟩ := Prod.mk.inj heq
  refine ⟨fs', hcall, ?_⟩
  intro hsame
  rw [hsame.handles 0] at hentry
  cases hentry

end FileSystem

end Zrt.Fs
