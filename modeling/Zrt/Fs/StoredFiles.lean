import Zrt.Fs.FailedOpen
import Zrt.Fs.Positions
import Zrt.Fs.StoredTrees

/-!
# Writing a file from its beginning

A file is opened to be written anew, filled from its beginning and closed. Each of these calls goes
through where a handle is free and the file stays below 512 MiB; the names change as an operation on the
graph, the contents change for one object.
-/

namespace Zrt.Fs

open Zrt.Framework NameSpace

/-! ## Where calls go through -/

namespace MemMount

variable {m : MemMount} {g : NameSpace} {path : AbsolutePath} {o : Nat}

theorem NameSpace.find_dotdot (h : g.find path = .ok o) : ∃ d, g.find path.dotdot = .ok d := by
  unfold NameSpace.find at h ⊢
  by_cases hne : path.path = []
  · rw [AbsolutePath.path_dotdot, hne]
    exact ⟨rootObject, rfl⟩
  · rw [AbsolutePath.path_eq_snoc hne] at h
    obtain ⟨d, hd, -⟩ := Naming.isDir_of_resolve_snoc h
    exact ⟨d, hd⟩

theorem Shows.getNode_of_find (h : m.Shows g) (hm : m.Sound) (hshort : pathTooLong path = false)
    (hfind : g.find path = .ok o) :
    ∃ s n p, m.getNode path = some (.ok s) ∧ m.getParentNode path = some (.ok p) ∧ s ≠ 0 ∧
      m.nodeAt s = some n ∧ Visible s n ∧ n.nodedata = o := by
  obtain ⟨dir, hdir⟩ := NameSpace.find_dotdot hfind
  rcases h.getMemNode path with ⟨s, n, -, hs, hs0, hn, hvis, hfind'⟩ | ⟨e, -, -, hfind'⟩
  · rcases h.getMemNode path.dotdot with ⟨p, pn, -, hp, hp0, hpn, -, -⟩ | ⟨e, -, -, hdir'⟩
    · rw [hfind] at hfind'
      cases hfind'
      obtain ⟨d, hd⟩ := hm.exists_data hs0 hn
      obtain ⟨pd, hpd⟩ := hm.exists_data hp0 hpn
      refine ⟨s, n, p, ?_, ?_, hs0, hn, hvis, rfl⟩
      · simp [MemMount.getNode, hshort, getParentSlot, hp, hs, stat, hn, hd]
      · simp [getParentNode, hshort, getParentSlot, hp, stat, hpn, hpd]
    · rw [hdir] at hdir'
      cases hdir'
  · rw [hfind] at hfind'
    cases hfind'

private theorem Shows.openCreat_ok (h : m.Shows g) (hr : m.Regular) (hshort : pathTooLong path = false)
    (mode : Nat) {dir : Nat} (hdir : g.find path.dotdot = .ok dir) (hisDir : g.names.isDir dir = true) :
    ∃ m', m.openCreat path false mode none = some (.ok (), m') ∧ m'.Regular ∧
      m'.Shows (g.creat path none).2 := by
  have hm := hr.orderly.sound
  have hregular : ∀ m', m.openCreat path false mode none = some (.ok (), m') → m'.Regular :=
    fun m' hcall => hr.evolves (openCreat_evolves hcall sharedData_none)
  rcases h.getMemNode path.dotdot with ⟨p, pn, -, hp, hp0, hpn, hpvis, hpfind⟩ | ⟨e, -, -, hpfind⟩
  · rw [hdir] at hpfind
    cases hpfind
    obtain ⟨pd, hpd⟩ := hm.exists_data hp0 hpn
    have hpdir : pd.isDir = true := (h.kind p pn pd hp0 hpn hpvis hpd).symm.trans hisDir
    rcases h.getMemNode path with ⟨s, n, hmem, hs, hs0, hn, hvis, hfind⟩ | ⟨e, hmem, hs, hfind⟩
    · obtain ⟨s', n', p', hnode, -⟩ := h.getNode_of_find hm hshort hfind
      have hcall : m.openCreat path false mode none = some (.ok (), m) := by
        simp [openCreat, MemMount.creat, getParentSlot, hp, hpn, hpd, hpdir, hmem, hnode]
      refine ⟨m, hcall, hr, ?_⟩
      simp only [NameSpace.creat, hdir, hfind]
      rw [if_pos hisDir]
      exact h
    · obtain ⟨hmissing, hne⟩ := findChild_of_getMemNode_none hp hpn hpd hpdir hmem
      have he : m.Enterable p path.last false none pn pd :=
        ⟨hpn, hpd, hpdir, hmissing, AbsolutePath.slash_not_mem_last hne, sharedData_none⟩
      have hcall := openCreat_new false mode hp hmem hne he
      refine ⟨_, hcall, hregular _ hcall, ?_⟩
      simp only [NameSpace.creat, hdir, hfind]
      rw [if_pos hisDir]
      exact h.enterNode hm hp0 hpvis he
  · rw [hdir] at hpfind
    cases hpfind

end MemMount

namespace OpenFiles

variable {t : OpenFiles}

private theorem Accounts.openDescriptor_ok (h : Accounts none t)
    (hfree : t.handles.slots.all Option.isSome = false) (mountFs : MountFs) (inode parent : Nat)
    (flags : OpenFlags) :
    ∃ fd id, (t.openDescriptor mountFs inode parent flags).1 = some fd ∧
      (t.pool.getnewOfd flags).1 = some id ∧
      (t.openDescriptor mountFs inode parent flags).2.handles.entry fd =
        some ⟨mountFs, inode, parent, some id⟩ ∧
      (t.openDescriptor mountFs inode parent flags).2.pool.entry (some id) = some ⟨flags, 1⟩ := by
  have hseek : seekUnusedSlot Option.isNone t.handles.slots t.handles.firstUnusedSlot ≠ none := by
    intro hnone
    have hused := seekUnusedSlot_eq_none h.handles_low hnone
    have hall : t.handles.slots.all Option.isSome = true := by
      apply List.all_eq_true.mpr
      intro a ha
      exact Option.isNone_eq_false_iff.mp (hused a ha)
    rw [hall] at hfree
    cases hfree
  obtain ⟨fd, hfd⟩ := Option.ne_none_iff_exists'.mp hseek
  have hpool : seekUnusedSlot (fun f => f.refcount == 0) t.pool.openFiles t.pool.firstUnusedSlot ≠
      none := fun hnone => hseek (h.handles_full hnone)
  obtain ⟨id, hid⟩ := Option.ne_none_iff_exists'.mp hpool
  obtain ⟨f, hf, -⟩ := seekUnusedSlot_eq_some hid
  have hopened : (t.openDescriptor mountFs inode parent flags).1 = some fd := by
    simp [OpenFiles.openDescriptor, HandleAllocator.allocateHandle, hfd]
  have hnew : (t.pool.getnewOfd flags).1 = some id := by simp [OpenFilesPool.getnewOfd, hid]
  refine ⟨fd, id, hopened, hnew, ?_, ?_⟩
  · rw [t.openDescriptor_ofd mountFs inode parent flags hopened fd, if_pos rfl, hnew]
  · have hlt : id < t.pool.openFiles.length := (List.getElem?_eq_some_iff.mp hf).1
    simp [OpenFiles.openDescriptor, HandleAllocator.allocateHandle, hfd, OpenFilesPool.getnewOfd, hid,
      OpenFilesPool.entry, hlt]

end OpenFiles

/-! ## The calls -/

namespace Io

variable {s s' : Io} {g : NameSpace} {path : AbsolutePath} {fd o : Nat}

/-- The descriptor writes at the end of the file, which a path leads to. -/
structure Appending (s : Io) (fd o : Nat) : Prop where
  opened : ∃ item id f n, s.fs.files.handles.entry fd = some item ∧ item.mountFs = .memory ∧
    item.openFileDescriptionId = some id ∧ s.fs.files.pool.entry (some id) = some f ∧
    f.flags.wronly = true ∧ f.flags.rdwr = false ∧ s.fs.mem.nodeAt item.inode = some n ∧
    MemMount.Visible item.inode n ∧ item.inode ≠ 0 ∧ n.nodedata = o ∧
    s.offsets id = (s.files o).len

theorem Stores.memMkdir (h : s.Stores g) {mode : Nat} {r : Except Errno Unit} {mem : MemMount}
    (hcall : s.fs.mem.memMkdir path mode = some (r, mem)) :
    r = (g.memMkdir path).1 ∧
      Stores { s with fs := { s.fs with mem := mem } } (g.memMkdir path).2 := by
  obtain ⟨hr, hshows⟩ := h.named.shows.memMkdir h.sound hcall
  refine ⟨hr, ⟨⟨hshows, h.named.regular.evolves (MemMount.memMkdir_evolves hcall)⟩, ?_,
    h.accounts, h.sane.of_fs _⟩⟩
  unfold NameSpace.memMkdir
  have hmkdir : (g.mkdir path none).2.Formed := by
    unfold NameSpace.mkdir
    split
    · exact h.formed
    · rename_i hmissing
      split
      · exact h.formed
      · split
        · split
          · exact h.formed
          · apply h.formed.add
            apply AbsolutePath.slash_not_mem_last
            intro hroot
            simp [NameSpace.find, hroot, Naming.resolve] at hmissing
        · exact h.formed
  split
  · exact hmkdir
  · split
    · exact hmkdir
    · exact h.formed

private theorem formed_creat (h : g.Formed) : (g.creat path none).2.Formed := by
  unfold NameSpace.creat
  split
  · exact h
  · split
    · split
      · exact h
      · rename_i hmissing
        apply h.add
        apply AbsolutePath.slash_not_mem_last
        intro hroot
        simp [NameSpace.find, hroot, Naming.resolve] at hmissing
    · exact h

/-- What the unpacker opens its files with. -/
def newFileFlags : OpenFlags := { wronly := true, creat := true, trunc := true }

theorem Stores.memOpen (h : s.Stores g) (mode : Nat) (hfree : s.fs.handlesFull = false)
    (hshort : MemMount.pathTooLong path = false) {dir : Nat}
    (hdir : g.find path.dotdot = .ok dir) (hisDir : g.names.isDir dir = true)
    (ho : (g.creat path none).2.find path = .ok o)
    (hfile : (g.creat path none).2.names.isDir o = false) :
    ∃ fd : Nat, ∃ s', s.memOpen path newFileFlags mode = some (.ok fd, s') ∧
      s'.Stores (g.creat path none).2 ∧ s'.Appending fd o ∧
      s'.contents = Function.update s.contents o [] := by
  obtain ⟨mem, hopen, hregular, hshows⟩ :=
    h.named.shows.openCreat_ok h.named.regular hshort mode hdir hisDir
  obtain ⟨ino, n, p, hnode, hparent, hino0, hn, hvis, hdata⟩ :=
    hshows.getNode_of_find hregular.orderly.sound hshort ho
  obtain ⟨d, hd⟩ := hregular.orderly.sound.exists_data hino0 hn
  have hdfile : d.isDir = false := by
    rw [← hshows.kind ino n d hino0 hn hvis hd, hdata, hfile]
  obtain ⟨fd, id, hfd, hid, hentry, hpool⟩ :=
    h.accounts.openDescriptor_ok hfree .memory ino p newFileFlags
  -- the state of the file system behind the call
  let fs' : FileSystem := ⟨(s.fs.files.openDescriptor .memory ino p newFileFlags).2,
    (mem.ref ino).updateDataAt ino fun d => { d with contents := [] }⟩
  have hfs : s.fs.memOpen path newFileFlags mode = some (.ok fd, fs') := by
    simp [FileSystem.memOpen, newFileFlags, hopen, hnode, hparent, FileSystem.memOpenNode, fs']
    simp [newFileFlags] at hfd
    simp [hfd, MemMount.dataAt_ref, MemMount.dataAt_of hn, hd, hdfile]
  have hnode' : fs'.mem.nodeAt ino = some n := by simp [fs', MemMount.ref, hn]
  have hopened : fs'.openFile fd = some ⟨id, newFileFlags, o⟩ := by
    have hpool' : fs'.files.pool.entry (some id) = some ⟨newFileFlags, 1⟩ := hpool
    unfold FileSystem.openFile
    rw [hentry]
    simp [Option.filter, hpool', hnode', hdata]
  have hfiles : s.memOpen path newFileFlags mode =
      some (.ok fd, ({ s with fs := fs' }.setOffset id 0).setFile o ((s.files o).setLen 0)) := by
    have hrenewed : s.renewed newFileFlags fs' = { s with fs := fs' }.setOffset id 0 := by
      simp [Io.renewed, hid]
    have htrunc : ({ s with fs := fs' }.setOffset id 0).truncate fd =
        ({ s with fs := fs' }.setOffset id 0).setFile o ((s.files o).setLen 0) := by
      simp [Io.truncate, setOffset, hopened]
    unfold Io.memOpen
    rw [hfs]
    simp only [Option.bind_some]
    rw [hrenewed, ← htrunc]
    rfl
  have hzero : ((s.files o).setLen 0).len = 0 := rfl
  refine ⟨fd, _, hfiles, ⟨⟨?_, ?_⟩, formed_creat h.formed, h.accounts.openDescriptor .memory ino p newFileFlags, ?_⟩, ?_, ?_⟩
  · exact (hshows.updateDataAt (MemMount.inert_useCount _)).updateDataAt (MemMount.inert_contents [])
  · exact (hregular.evolves (MemMount.Evolves.touchAt (MemMount.inert_useCount _))).evolves
      (MemMount.Evolves.touchAt (MemMount.inert_contents []))
  · apply Sane.setFile
    · exact (h.sane.of_fs fs').setOffset id (by decide)
    · exact Nat.zero_le _
    · exact h.sane.small o
  · refine ⟨_, id, ⟨newFileFlags, 1⟩, n, hentry, rfl, rfl, hpool, rfl, rfl, hnode', hvis, hino0, hdata, ?_⟩
    simp [setFile, setOffset, hzero]
  · funext i
    by_cases hi : i = o
    · subst hi
      simp [contents, setFile, MemFile.contents, hzero]
    · simp [contents, setFile, setOffset, hi]

private theorem Appending.openFile (h : s.Appending fd o) :
    ∃ id flags, s.fs.openFile fd = some ⟨id, flags, o⟩ ∧ flags.wronly = true ∧
      flags.rdwr = false ∧ s.offsets id = (s.files o).len := by
  obtain ⟨item, id, f, n, hentry, hfs, hid, hf, hw, hrw, hn, -, -, hdata, hoff⟩ := h.opened
  refine ⟨id, f.flags, ?_, hw, hrw, hoff⟩
  simp [FileSystem.openFile, Option.filter, hentry, hfs, hid, hf, hn, hdata]

theorem Stores.write (h : s.Stores g) (ha : s.Appending fd o) (junk : Nat → UInt8)
    (bytes : List UInt8) (hend : (s.contents o).length + bytes.length < 2 ^ 29) :
    ∃ s', s.write fd junk bytes = some (.ok bytes.length, s') ∧ s'.Stores g ∧ s'.Appending fd o ∧
      s'.fs = s.fs ∧ s'.contents = Function.update s.contents o (s.contents o ++ bytes) := by
  obtain ⟨id, flags, hopened, hw, hrw, hoff⟩ := ha.openFile
  obtain ⟨item, id', f, n, hentry, hfs, hid', hf, hw', hrw', hn, hvis, h0, hdata, hoff'⟩ := ha.opened
  have hlen := h.sane.len_le o
  have hsmall := h.sane.small o
  rw [contents, MemFile.length_contents hlen] at hend
  obtain ⟨file, hfile⟩ := MemFile.write_end_isSome hlen hsmall junk hend
  have hcut : MemFile.cut (s.files o).len = (s.files o).len := MemFile.cut_natCast (by omega)
  obtain ⟨hcontents, hlength⟩ := MemFile.write_end hlen hsmall (le_refl _) hcut hfile
  obtain ⟨d, hd⟩ := h.sound.exists_data h0 hn
  rw [hdata] at hd
  have hcount : Int.bmod bytes.length 4294967296 = bytes.length := by
    rw [Int.bmod_def]
    split <;> omega
  have hcall : s.write fd junk bytes =
      some (.ok bytes.length, (s.setFile o file).setOffset id ((s.files o).len + bytes.length)) := by
    have hnot : (bytes.length : Int) ≠ -1 := by omega
    simp [Io.write, Io.pwrite, hopened, hw, hrw, hd, hoff, hfile, hcount, hnot]
  refine ⟨_, hcall, ⟨h.named, h.formed, h.accounts, h.sane.write hcall⟩, ?_, rfl, ?_⟩
  · have hsame : id' = id := by
      simp [FileSystem.openFile, Option.filter, hentry, hfs, hid', hf, hn] at hopened
      exact hopened.1
    refine ⟨item, id', f, n, hentry, hfs, hid', hf, hw', hrw', hn, hvis, h0, hdata, ?_⟩
    simp [setOffset, setFile, hsame, hlength]
  · funext i
    by_cases hi : i = o
    · subst hi
      simp [contents, setFile, setOffset, hcontents]
    · simp [contents, setFile, setOffset, hi]

/-- A file that a path leads to is not removed with its descriptor, which is free again. -/
theorem Stores.close (h : s.Stores g) (ha : s.Appending fd o) (ch : Channels) :
    ∃ s', s.ofFs (FileSystem.close ch s.fs fd) = some (.ok 0, s') ∧ s'.Stores g ∧
      s'.fs.handlesFull = false ∧ s'.contents = s.contents := by
  obtain ⟨item, id, f, n, hentry, hfs, hid, hf, -, -, hn, hvis, h0, hdata, -⟩ := ha.opened
  obtain ⟨d, hd⟩ := h.sound.exists_data h0 hn
  have hunmarked := h.named.regular.orderly.marked.unmarked hn hd hvis
  obtain ⟨files, hfiles⟩ := h.accounts.exists_closeDescriptor hentry
  have hunref : (s.fs.mem.unref item.inode).dataAt item.inode =
      some (if d.isDir then d else { d with useCount := d.useCount - 1 }) := by
    simp [MemMount.unref, MemMount.dataAt, hn, MemMount.updateDataAt_eq hn,
      MemMount.getData_updateData, hd]
  have hkept : (if d.isDir then d else { d with useCount := d.useCount - 1 }).wantUnlink = false := by
    split
    · exact hunmarked
    · exact hunmarked
  have hclose : FileSystem.close ch s.fs fd =
      some (.ok 0, ⟨files, s.fs.mem.unref item.inode⟩) := by
    have hmount : s.fs.files.mountByhandle fd = some .memory := by
      simp [OpenFiles.mountByhandle, hentry, hid, hf, hfs]
    have hmnode : s.fs.mnodeByHandle fd = some item.inode := by
      simp [FileSystem.mnodeByHandle, Option.filter, hentry, hfs, hn]
    simp [FileSystem.close, hmount, FileSystem.memClose, hmnode, hunref, hkept, hfiles]
  refine ⟨{ s with fs := ⟨files, s.fs.mem.unref item.inode⟩ }, ?_, ⟨⟨?_, ?_⟩, h.formed,
    h.accounts.closeDescriptor hfiles, h.sane.of_fs _⟩, ?_, rfl⟩
  · simp [ofFs, hclose, Except.map]
  · exact h.named.shows.updateDataAt MemMount.inert_unref
  · exact h.named.regular.evolves (MemMount.Evolves.touchAt MemMount.inert_unref)
  · have hslot := OpenFiles.closeDescriptor_slot hfiles
    apply Bool.eq_false_iff.mpr
    intro hfull
    have hsome := List.all_eq_true.mp hfull none (List.mem_of_getElem? hslot)
    cases hsome

end Io

end Zrt.Fs
