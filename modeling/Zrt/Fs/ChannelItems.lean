import Zrt.Fs.ChannelsListing
import Zrt.Fs.ChannelsMount

/-!
# Items behind the descriptors of the channels mount

A handle leads to a channel or to a directory. The calls that ask for a position take the item of the
channel without a check, so on a directory `read`, `write` and `lseek` go through a null pointer;
`pread` and `pwrite` do not get that far.
-/

namespace Zrt.Fs

open Zrt.Framework

/-- `O_RDONLY` has no bits, so every flags word contains it. -/
theorem checkFlag_rdonly (flags : Nat) : checkFlag flags oRdonly = true := by
  simp [checkFlag, oRdonly]

/-! ## Positions -/

namespace ChannelOffsets

variable {o : ChannelOffsets}

structure Nonneg (o : ChannelOffsets) : Prop where
  offset : 0 ≤ o.offset
  sequential : 0 ≤ o.channelSequentialOffset

theorem setSafeOffset_nonneg {whence : PosWhence} {pos offset next : Int64}
    (h : setSafeOffset whence pos offset = .ok next) : 0 ≤ next := by
  simp only [setSafeOffset] at h
  by_cases hneg : (if whence = .setRelative then pos + offset else offset) < 0
  · rw [if_pos hneg] at h
    cases h
  · rw [if_neg hneg] at h
    rw [← Except.ok.inj h]
    exact Int64.not_lt.mp hneg

private theorem Nonneg.randomPos (h : o.Nonneg) (whence : PosWhence) (offset : Int64) :
    (o.randomPos whence offset).2.Nonneg := by
  unfold ChannelOffsets.randomPos
  split
  · exact h
  · split
    · rename_i next hnext
      exact ⟨setSafeOffset_nonneg hnext, h.sequential⟩
    · exact h

private theorem Nonneg.sequentialPos (h : o.Nonneg) (whence : PosWhence) (offset : Int64) :
    (o.sequentialPos whence offset).2.Nonneg := by
  unfold ChannelOffsets.sequentialPos
  split
  · exact h
  · split
    · rename_i next hnext
      exact ⟨h.offset, setSafeOffset_nonneg hnext⟩
    · exact h

theorem tellSequential_snd (o : ChannelOffsets) (whence : PosWhence) :
    (o.tellSequential whence).2 = o := by
  unfold tellSequential
  split
  · rfl
  · rfl

private theorem Nonneg.channelPosBy (h : o.Nonneg) (t : AccessType) (flags : Nat) (whence : PosWhence)
    (access : PosAccess) (offset : Int64) :
    ∃ r, o.channelPosBy t flags whence access offset = some r ∧ r.2.Nonneg := by
  have htell : (o.tellSequential whence).2.Nonneg := (tellSequential_snd o whence).symm ▸ h
  have hrandom := h.randomPos whence offset
  have hsequential := h.sequentialPos whence offset
  cases t with
  | sgetsput =>
      cases access with
      | seek => exact ⟨_, rfl, htell⟩
      | read => exact ⟨_, rfl, hsequential⟩
      | write => exact ⟨_, rfl, hsequential⟩
  | rgetsput =>
      cases access with
      | seek =>
          simp only [ChannelOffsets.channelPosBy, channelPosRandomGetSequenPut, checkFlag_rdonly,
            Bool.true_or, if_true]
          exact ⟨_, rfl, hrandom⟩
      | read => exact ⟨_, rfl, hrandom⟩
      | write => exact ⟨_, rfl, hsequential⟩
  | sgetrput =>
      cases access with
      | seek =>
          simp only [ChannelOffsets.channelPosBy, channelPosSequenGetRandomPut, checkFlag_rdonly,
            if_true]
          split
          · exact ⟨_, rfl, hrandom⟩
          · exact ⟨_, rfl, htell⟩
      | read => exact ⟨_, rfl, hsequential⟩
      | write => exact ⟨_, rfl, hrandom⟩
  | rgetrput => exact ⟨_, rfl, hrandom⟩

end ChannelOffsets

/-! ## Channels and directories by inode -/

namespace ChannelMounts

variable {m : ChannelMounts} {inode : Nat}

private theorem matchByInode_eq_some {c : AbsolutePath × Nat} (h : m.matchByInode inode = some c) :
    c.2 < m.channels.length ∧ inode = inodeFromZvmInode c.2 := by
  have hmem := List.mem_of_find?_eq_some h
  have hlt := List.snd_lt_of_mem_zipIdx hmem
  unfold matchByInode at h
  have hinode := List.find?_some h
  exact ⟨by simpa using hlt, (beq_iff_eq.mp hinode).symm⟩

theorem matchByInode_of_lt {i : Nat} (hi : i < m.channels.length) :
    ∃ c, m.matchByInode (inodeFromZvmInode i) = some c := by
  apply Option.isSome_iff_exists.mp
  apply List.find?_isSome.mpr
  exact ⟨(m.channels[i], i), List.mem_zipIdx_iff_getElem?.mpr (List.getElem?_eq_getElem hi), by simp⟩

theorem modeKnown_iff : m.modeKnown inode = true ↔
    (m.matchByInode inode).isSome ∨ (matchInodeInDirectoryList m.manifestDirs inode).isSome := by
  rw [modeKnown, Bool.or_eq_true, matchByInode, List.any_eq_true, List.find?_isSome]

private theorem WF.matchByInode_eq_none (hwf : m.WF)
    (hdir : (matchInodeInDirectoryList m.manifestDirs inode).isSome) :
    m.matchByInode inode = none ∧ m.channels.length ≤ zvmInodeFromInode inode := by
  obtain ⟨d, hd⟩ := Option.isSome_iff_exists.mp hdir
  have habove := hwf.above d (List.mem_of_find?_eq_some hd)
  have hinode : d.dirInode = inode := by simpa using List.find?_some hd
  rw [hinode] at habove
  simp only [inodeFromZvmInode] at habove
  refine ⟨?_, by simp only [zvmInodeFromInode]; omega⟩
  cases hc : m.matchByInode inode with
  | none => rfl
  | some c =>
      obtain ⟨hlt, hinode⟩ := matchByInode_eq_some hc
      simp only [inodeFromZvmInode] at hinode
      omega

end ChannelMounts

/-! ## The tables of descriptors -/

/-- The handle belongs to this mount and leads to a channel or to a directory. -/
def HandleItem.Known (m : ChannelMounts) (item : HandleItem) : Prop :=
  item.mountFs = .channels ∧ m.modeKnown item.inode = true

/-- What holds of the tables when only the channels mount has used them. -/
structure Related (m : ChannelMounts) (t : OpenFiles) : Prop where
  accounts : t.Accounts none
  known : ∀ fd item, t.handles.entry fd = some item → item.Known m

namespace Related

variable {m : ChannelMounts} {t t' : OpenFiles}

private theorem start : Related m .start where
  accounts := OpenFiles.accounts_start
  known := by
    intro fd item hentry
    have hmem := List.mem_of_getElem? (OpenFiles.handles_entry_eq_some.mp hentry)
    cases (List.mem_replicate.mp hmem).2

theorem of_entries (h : Related m t) (haccounts : t'.Accounts none) {fd : Nat}
    {new : Option HandleItem} (hnew : ∀ item, new = some item → item.Known m)
    (hentries : ∀ k, t'.handles.entry k = if k = fd then new else t.handles.entry k) :
    Related m t' where
  accounts := haccounts
  known := by
    intro k item hentry
    rw [hentries] at hentry
    split at hentry
    · exact hnew item hentry
    · exact h.known k item hentry

theorem of_same (h : Related m t) (haccounts : t'.Accounts none)
    (hentries : ∀ k, t'.handles.entry k = t.handles.entry k) : Related m t' where
  accounts := haccounts
  known := fun k item hentry => h.known k item (hentries k ▸ hentry)

end Related

namespace FileSystem

variable {ch : Channels} {fs : FileSystem}

private theorem channelsHandle_related (h : Related ch.mount fs.files) {inode : Nat} (parent : Nat)
    (flags : OpenFlags) (hknown : ch.mount.modeKnown inode = true) :
    ∃ r fs', fs.channelsHandle inode parent flags = some (r, fs') ∧ Related ch.mount fs'.files ∧
      ∀ fd, r = .ok fd → ∃ item, fs'.files.handles.entry fd = some item ∧ item.inode = inode := by
  have haccounts := h.accounts.openDescriptor .channels inode parent flags
  have hentry := fs.files.openDescriptor_entry .channels inode parent flags
  unfold channelsHandle
  cases hfd : (fs.files.openDescriptor .channels inode parent flags).1 with
  | none =>
      rw [hfd] at hentry
      simp only [hfd]
      exact ⟨_, _, rfl, h.of_same haccounts hentry, fun fd heq => nomatch heq⟩
  | some fd =>
      rw [hfd] at hentry
      obtain ⟨-, ofd, hentry⟩ := hentry
      simp only [hfd]
      refine ⟨_, _, rfl, h.of_entries haccounts ?_ hentry, ?_⟩
      · intro item hitem
        cases hitem
        exact ⟨rfl, hknown⟩
      · intro fd' heq
        cases heq
        exact ⟨_, (hentry fd).trans (if_pos rfl), rfl⟩

private theorem channelsOpen_related (h : Related ch.mount fs.files) (path : AbsolutePath)
    (flags : OpenFlags) :
    ∃ r fs', channelsOpen ch fs path flags = some (r, fs') ∧ Related ch.mount fs'.files ∧
      ∀ fd, r = .ok fd → flags.directory = false → ∃ i item,
        (ch.mount.channels.findIdx? fun c => c.text == path.text) = some i ∧
          fs'.files.handles.entry fd = some item ∧ item.inode = inodeFromZvmInode i := by
  unfold channelsOpen
  cases hdir : flags.directory with
  | true =>
      simp only [if_true]
      cases hmatch : matchDirInDirectoryList ch.mount.manifestDirs path.text path.text.length with
      | none => exact ⟨_, _, rfl, h, fun fd heq => nomatch heq⟩
      | some d =>
          have hmem := List.mem_of_find?_eq_some hmatch
          have hfound : (matchInodeInDirectoryList ch.mount.manifestDirs d.dirInode).isSome :=
            List.find?_isSome.mpr ⟨d, hmem, beq_self_eq_true _⟩
          obtain ⟨r, fs', hcall, hrel, -⟩ := channelsHandle_related h d.parentDirInode flags
            (ChannelMounts.modeKnown_iff.mpr (.inr hfound))
          exact ⟨r, fs', hcall, hrel, fun fd _ hfalse => nomatch hfalse⟩
  | false =>
      simp only [Bool.false_eq_true, if_false]
      unfold openChannel
      cases hname : ch.mount.channels.findIdx? fun c => c.text == path.text with
      | none => exact ⟨_, _, rfl, h, fun fd heq => nomatch heq⟩
      | some i =>
          simp only
          cases hrefused : channelRefusal (ch.attrs i) flags with
          | some e => exact ⟨_, _, rfl, h, fun fd heq => nomatch heq⟩
          | none =>
              obtain ⟨hlt, -⟩ := List.findIdx?_eq_some_iff_getElem.mp hname
              obtain ⟨c, hc⟩ := ChannelMounts.matchByInode_of_lt hlt
              obtain ⟨r, fs', hcall, hrel, hentry⟩ := channelsHandle_related h (channelParent ch path)
                flags (ChannelMounts.modeKnown_iff.mpr (.inl (Option.isSome_of_mem hc)))
              refine ⟨r, fs', hcall, hrel, fun fd heq _ => ?_⟩
              obtain ⟨item, hitem, hinode⟩ := hentry fd heq
              exact ⟨i, item, rfl, hitem, hinode⟩

theorem mountByhandle_of_free {fd : Nat} (hentry : fs.files.handles.entry fd = none) :
    fs.files.mountByhandle fd = none := by
  rw [OpenFiles.mountByhandle, hentry, Option.bind_none]

theorem mountByhandle_related (h : Related ch.mount fs.files) {fd : Nat} {item : HandleItem}
    (hentry : fs.files.handles.entry fd = some item) :
    fs.files.mountByhandle fd = some .channels := by
  obtain ⟨id, f, hid, hpool⟩ := h.accounts.exists_entry hentry
  rw [OpenFiles.mountByhandle, hentry, Option.bind_some, hid, hpool, Option.map_some,
    (h.known fd item hentry).1]

theorem close_related (h : Related ch.mount fs.files) (fd : Nat) :
    ∃ r fs', close ch fs fd = some (r, fs') ∧ Related ch.mount fs'.files ∧
      ∀ k, k ≠ fd → fs'.files.handles.entry k = fs.files.handles.entry k := by
  unfold close
  cases hentry : fs.files.handles.entry fd with
  | none =>
      rw [mountByhandle_of_free hentry]
      exact ⟨_, _, rfl, h, fun k _ => rfl⟩
  | some item =>
      obtain ⟨hmine, hknown⟩ := h.known fd item hentry
      obtain ⟨files, hfiles⟩ := h.accounts.exists_closeDescriptor hentry
      have hclosed := OpenFiles.closeDescriptor_entry hfiles
      rw [mountByhandle_related h hentry]
      simp only [channelsClose, hentry, Option.filter_some, hmine, decide_true, if_true, hknown,
        hfiles, Option.map_some]
      refine ⟨_, _, rfl, h.of_entries (h.accounts.closeDescriptor hfiles) ?_ hclosed, ?_⟩
      · exact fun item hitem => nomatch hitem
      · exact fun k hk => (hclosed k).trans (if_neg hk)

private theorem dup_related (h : Related ch.mount fs.files) (oldfd : Nat) :
    ∃ r fs', fs.dup oldfd = some (r, fs') ∧ Related ch.mount fs'.files := by
  unfold dup
  cases hentry : fs.files.handles.entry oldfd with
  | none =>
      rw [mountByhandle_of_free hentry]
      exact ⟨_, _, rfl, h⟩
  | some item =>
      obtain ⟨x, hx⟩ := h.accounts.exists_dupDescriptor hentry
      have haccounts := h.accounts.dupDescriptor hx
      have hdup := OpenFiles.dupDescriptor_entry hx
      rw [mountByhandle_related h hentry]
      simp only [Option.bind_some, duplicated, hx, Option.map_some]
      cases hfd : x.1 with
      | none =>
          rw [hfd] at hdup
          exact ⟨_, _, rfl, h.of_same haccounts hdup⟩
      | some fd =>
          rw [hfd] at hdup
          refine ⟨_, _, rfl, h.of_entries haccounts ?_ hdup.2⟩
          intro item' hitem
          cases hitem
          exact h.known oldfd item hentry

private theorem dup2_related (h : Related ch.mount fs.files) (oldfd newfd : Nat) :
    ∃ r fs', dup2 ch fs oldfd newfd = some (r, fs') ∧ Related ch.mount fs'.files := by
  unfold dup2
  cases hentry : fs.files.handles.entry oldfd with
  | none =>
      rw [mountByhandle_of_free hentry]
      exact ⟨_, _, rfl, h⟩
  | some item =>
      rw [mountByhandle_related h hentry]
      simp only
      by_cases hsame : oldfd = newfd
      · rw [if_pos hsame]
        exact ⟨_, _, rfl, h⟩
      · rw [if_neg hsame]
        obtain ⟨r, fs₁, hclose, h₁, hothers⟩ := close_related h newfd
        have hentry₁ := (hothers oldfd hsame).trans hentry
        obtain ⟨x, hx⟩ := h₁.accounts.exists_dupDescriptor2 hentry₁ newfd
        have haccounts := h₁.accounts.dupDescriptor2 hx
        simp only [hclose, Option.bind_some, hentry₁, duplicated, hx, Option.map_some]
        rcases OpenFiles.dupDescriptor2_entry hx with ⟨hfd, -, hdup⟩ | ⟨hfd, -, hdup⟩
        · rw [hfd]
          refine ⟨_, _, rfl, h₁.of_entries haccounts ?_ hdup⟩
          intro item' hitem
          cases hitem
          exact h.known oldfd item hentry
        · rw [hfd]
          exact ⟨_, _, rfl, h₁.of_same haccounts hdup⟩

end FileSystem

/-! ## Calls on channels -/

namespace ChannelIo

variable {ch : SizedChannels} {s : ChannelIo} {fd : Nat}

/-- What holds between the calls. -/
structure Sound (ch : SizedChannels) (s : ChannelIo) : Prop where
  related : Related ch.mount s.fs.files
  nonneg : ∀ id, (s.offsets id).Nonneg

/-- If the descriptor is open, it leads to a channel. -/
def HasItem (ch : SizedChannels) (s : ChannelIo) (fd : Nat) : Prop :=
  ∀ item, s.fs.channelsEntry fd = some item → ∃ c, ch.mount.matchByInode item.inode = some c

/-- The descriptor is one of a directory. -/
def onDirectory (ch : SizedChannels) (s : ChannelIo) (fd : Nat) : Bool :=
  (s.fs.channelsEntry fd).any fun item =>
    (matchInodeInDirectoryList ch.mount.manifestDirs item.inode).isSome

theorem sound_start (maxsizes : Nat → Int64) : Sound ch (start maxsizes) :=
  ⟨Related.start, fun _ => ⟨Int64.le_refl 0, Int64.le_refl 0⟩⟩

theorem Sound.setOffsets (h : Sound ch s) (id : Nat) {o : ChannelOffsets} (ho : o.Nonneg) :
    Sound ch (s.setOffsets id o) where
  related := h.related
  nonneg := by
    intro k
    by_cases hk : k = id
    · subst hk
      simpa only [ChannelIo.setOffsets, Function.update_self] using ho
    · simpa only [ChannelIo.setOffsets, Function.update_of_ne hk] using h.nonneg k

private theorem Sound.hasItem_or (h : Sound ch s) (fd : Nat) : HasItem ch s fd ∨ s.onDirectory ch fd = true := by
  unfold HasItem onDirectory
  cases hentry : s.fs.channelsEntry fd with
  | none => exact .inl fun item hitem => nomatch hitem
  | some item =>
      obtain ⟨hitem, -⟩ := Option.filter_eq_some_iff.mp hentry
      rcases ChannelMounts.modeKnown_iff.mp (h.related.known fd item hitem).2 with hc | hd
      · left
        intro item' heq
        cases heq
        exact Option.isSome_iff_exists.mp hc
      · exact .inr hd

theorem exists_of_onDirectory (hwf : ch.mount.WF) (hdir : s.onDirectory ch fd = true) :
    ∃ item, s.fs.channelsEntry fd = some item ∧ ch.mount.matchByInode item.inode = none ∧
      ch.mount.channels.length ≤ zvmInodeFromInode item.inode := by
  unfold onDirectory at hdir
  obtain ⟨item, hentry, hmatch⟩ := (Option.any_eq_true _ _).mp hdir
  exact ⟨item, hentry, hwf.matchByInode_eq_none hmatch⟩

theorem Sound.exists_description (h : Sound ch s) {item : HandleItem}
    (hentry : s.fs.channelsEntry fd = some item) :
    ∃ id ofd, item.openFileDescriptionId = some id ∧ s.fs.files.pool.entry (some id) = some ofd :=
  h.related.accounts.exists_entry (Option.filter_eq_some_iff.mp hentry).1

/-- With an item, every position call has an answer and moves nothing but one description. -/
theorem Sound.channelPos (h : Sound ch s) (hitem : HasItem ch s fd) (whence : PosWhence)
    (access : PosAccess) (offset : Int64) :
    ∃ r s', s.channelPos ch fd whence access offset = some (r, s') ∧ s'.fs = s.fs ∧ Sound ch s' := by
  unfold ChannelIo.channelPos
  cases hentry : s.fs.channelsEntry fd with
  | none => exact ⟨_, s, rfl, rfl, h⟩
  | some item =>
      obtain ⟨c, hc⟩ := hitem item hentry
      obtain ⟨id, ofd, hid, hofd⟩ := h.exists_description hentry
      obtain ⟨r, hr, hnonneg⟩ := (h.nonneg id).channelPosBy (ch.attrs c.2).accessType
        ofd.flags.accmode whence access offset
      simp only [hid, hofd, hc, hr, Option.bind_some, Option.map_some]
      exact ⟨_, _, rfl, rfl, h.setOffsets id hnonneg⟩

theorem channelPos_onDirectory (hwf : ch.mount.WF) (hdir : s.onDirectory ch fd = true)
    (whence : PosWhence) (access : PosAccess) (offset : Int64) :
    s.channelPos ch fd whence access offset = none := by
  obtain ⟨item, hentry, hnone, -⟩ := exists_of_onDirectory hwf hdir
  unfold ChannelIo.channelPos
  simp only [hentry, hnone, Option.bind_none, Option.bind_fun_none]

theorem Sound.advance (h : Sound ch s) (hitem : HasItem ch s fd) (access : PosAccess)
    (offset : Int64) (bytes : Int) :
    ∃ s', s.advance ch fd access offset bytes = some s' ∧ s'.fs = s.fs ∧ Sound ch s' := by
  unfold ChannelIo.advance
  split
  · obtain ⟨r, s', hpos, hfs, hs'⟩ := h.channelPos hitem .setAbsolute access (offset + Int64.ofInt bytes)
    exact ⟨s', by rw [hpos, Option.map_some], hfs, hs'⟩
  · exact ⟨s, rfl, rfl, h⟩

private theorem Sound.updateArtificialChannelSize (h : Sound ch s) (hitem : HasItem ch s fd) {inode : Nat}
    {c : AbsolutePath × Nat} (hc : ch.mount.matchByInode inode = some c) :
    ∃ s', s.updateArtificialChannelSize ch fd inode = some s' ∧ s'.fs = s.fs ∧ Sound ch s' := by
  unfold ChannelIo.updateArtificialChannelSize
  rw [hc, Option.bind_some]
  split
  · exact ⟨s, rfl, rfl, h⟩
  · obtain ⟨r, s', hpos, hfs, hs'⟩ := h.channelPos hitem .get .write 0
    rw [hpos]
    exact ⟨_, rfl, hfs, hs'.related, hs'.nonneg⟩

theorem HasItem.of_fs {s' : ChannelIo} (h : HasItem ch s fd) (hfs : s'.fs = s.fs) :
    HasItem ch s' fd := by
  unfold HasItem at h ⊢
  rwa [hfs]

theorem Sound.channelsPread (h : Sound ch s) (hitem : HasItem ch s fd) (count : UInt32)
    (zvm : ZvmAnswer ch.mount.channels.length count) (offset : Int64) :
    ∃ r s', s.channelsPread ch fd count zvm offset = some (r, s') ∧ Sound ch s' := by
  unfold ChannelIo.channelsPread
  cases hentry : s.fs.channelsEntry fd with
  | none => exact ⟨_, _, rfl, h⟩
  | some item =>
      obtain ⟨id, ofd, hid, hofd⟩ := h.exists_description hentry
      simp only [hid, hofd, Option.bind_some]
      split
      · exact ⟨_, _, rfl, h⟩
      · obtain ⟨s', hs', -, hsound⟩ := h.advance hitem .read offset
          ((emuHandleRead ch.mount item.inode count).getD (zvm.answer (zvmInodeFromInode item.inode)))
        rw [hs', Option.map_some]
        split
        · exact ⟨_, _, rfl, hsound⟩
        · exact ⟨_, _, rfl, hsound⟩

theorem Sound.channelsPwrite (h : Sound ch s) (hitem : HasItem ch s fd) (count : UInt32)
    (zvm : ZvmAnswer ch.mount.channels.length count) (offset : Int64) :
    ∃ r s', s.channelsPwrite ch fd count zvm offset = some (r, s') ∧ Sound ch s' := by
  unfold ChannelIo.channelsPwrite
  cases hentry : s.fs.channelsEntry fd with
  | none => exact ⟨_, _, rfl, h⟩
  | some item =>
      obtain ⟨id, ofd, hid, hofd⟩ := h.exists_description hentry
      obtain ⟨c, hc⟩ := hitem item hentry
      simp only [hid, hofd, Option.bind_some]
      split
      · exact ⟨_, _, rfl, h⟩
      · obtain ⟨s', hs', hfs, hsound⟩ := h.advance hitem .write offset
          ((emuHandleWrite ch.mount item.inode count).getD (zvm.answer (zvmInodeFromInode item.inode)))
        rw [hs', Option.bind_some]
        split
        · exact ⟨_, _, rfl, hsound⟩
        · obtain ⟨s'', hs'', -, hsound'⟩ :=
            hsound.updateArtificialChannelSize (hitem.of_fs hfs) hc
          rw [hs'', Option.map_some]
          exact ⟨_, _, rfl, hsound'⟩

private theorem Sound.channelsPread_onDirectory (h : Sound ch s) (hwf : ch.mount.WF)
    (hdir : s.onDirectory ch fd = true) (count : UInt32)
    (zvm : ZvmAnswer ch.mount.channels.length count) (offset : Int64) :
    ∃ e, s.channelsPread ch fd count zvm offset = some (.error e, s) := by
  obtain ⟨item, hentry, hnone, hbeyond⟩ := exists_of_onDirectory hwf hdir
  obtain ⟨id, ofd, hid, hofd⟩ := h.exists_description hentry
  have hneg := zvm.unknown _ hbeyond
  have hunchanged : s.advance ch fd .read offset (zvm.answer (zvmInodeFromInode item.inode)) = some s :=
    if_neg (by omega)
  unfold ChannelIo.channelsPread
  simp only [hentry, hid, hofd, Option.bind_some]
  split
  · exact ⟨_, rfl⟩
  · simp only [emuHandleRead, hnone, Option.bind_none, Option.getD_none, hunchanged,
      Option.map_some, if_pos hneg]
    exact ⟨_, rfl⟩

private theorem Sound.channelsPwrite_onDirectory (h : Sound ch s) (hwf : ch.mount.WF)
    (hdir : s.onDirectory ch fd = true) (count : UInt32)
    (zvm : ZvmAnswer ch.mount.channels.length count) (offset : Int64) :
    ∃ e, s.channelsPwrite ch fd count zvm offset = some (.error e, s) := by
  obtain ⟨item, hentry, hnone, hbeyond⟩ := exists_of_onDirectory hwf hdir
  obtain ⟨id, ofd, hid, hofd⟩ := h.exists_description hentry
  have hneg := zvm.unknown _ hbeyond
  have hunchanged : s.advance ch fd .write offset (zvm.answer (zvmInodeFromInode item.inode)) = some s :=
    if_neg (by omega)
  unfold ChannelIo.channelsPwrite
  simp only [hentry, hid, hofd, Option.bind_some]
  split
  · exact ⟨_, rfl⟩
  · simp only [emuHandleWrite, hnone, Option.bind_none, Option.getD_none, hunchanged,
      Option.bind_some, if_pos hneg]
    exact ⟨_, rfl⟩

private theorem Sound.channelsRead (h : Sound ch s) (hitem : HasItem ch s fd) (count : UInt32)
    (zvm : ZvmAnswer ch.mount.channels.length count) :
    ∃ r s', s.channelsRead ch fd count zvm = some (r, s') ∧ Sound ch s' := by
  unfold ChannelIo.channelsRead
  split
  · exact ⟨_, _, rfl, h⟩
  · obtain ⟨r, s', hpos, hfs, hsound⟩ := h.channelPos hitem .get .read 0
    rw [hpos, Option.bind_some]
    split
    · exact ⟨_, _, rfl, hsound⟩
    · exact hsound.channelsPread (hitem.of_fs hfs) count zvm (posValue r)

private theorem Sound.channelsWrite (h : Sound ch s) (hitem : HasItem ch s fd) (count : UInt32)
    (zvm : ZvmAnswer ch.mount.channels.length count) :
    ∃ r s', s.channelsWrite ch fd count zvm = some (r, s') ∧ Sound ch s' := by
  unfold ChannelIo.channelsWrite
  split
  · exact ⟨_, _, rfl, h⟩
  · obtain ⟨r, s', hpos, hfs, hsound⟩ := h.channelPos hitem .get .write 0
    rw [hpos, Option.bind_some]
    split
    · exact ⟨_, _, rfl, hsound⟩
    · exact hsound.channelsPwrite (hitem.of_fs hfs) count zvm (posValue r)

private theorem channelsRead_onDirectory (hwf : ch.mount.WF) (hdir : s.onDirectory ch fd = true)
    (count : UInt32) (zvm : ZvmAnswer ch.mount.channels.length count) :
    s.channelsRead ch fd count zvm = none := by
  obtain ⟨item, hentry, -⟩ := exists_of_onDirectory hwf hdir
  obtain ⟨hhandle, -⟩ := Option.filter_eq_some_iff.mp hentry
  simp only [channelsRead, hhandle, channelPos_onDirectory hwf hdir, Option.bind_none]

private theorem channelsWrite_onDirectory (hwf : ch.mount.WF) (hdir : s.onDirectory ch fd = true)
    (count : UInt32) (zvm : ZvmAnswer ch.mount.channels.length count) :
    s.channelsWrite ch fd count zvm = none := by
  obtain ⟨item, hentry, -⟩ := exists_of_onDirectory hwf hdir
  obtain ⟨hhandle, -⟩ := Option.filter_eq_some_iff.mp hentry
  simp only [channelsWrite, hhandle, channelPos_onDirectory hwf hdir, Option.bind_none]

theorem Sound.channelsLseek (h : Sound ch s) (hitem : HasItem ch s fd) (offset : Int64)
    (whence : Whence) : ∃ r s', s.channelsLseek ch fd offset whence = some (r, s') ∧ Sound ch s' := by
  have hmoved : ∀ w target, ∃ r s', (s.channelPos ch fd w .seek target).map
      (fun r => (r.1.map Int64.toInt, r.2)) = some (r, s') ∧ Sound ch s' := by
    intro w target
    obtain ⟨r, s', hpos, -, hsound⟩ := h.channelPos hitem w .seek target
    exact ⟨_, _, by rw [hpos, Option.map_some], hsound⟩
  unfold ChannelIo.channelsLseek
  cases hentry : s.fs.channelsEntry fd with
  | none => exact ⟨_, _, rfl, h⟩
  | some item =>
      obtain ⟨c, hc⟩ := hitem item hentry
      cases whence with
      | seekSet => exact hmoved .setAbsolute offset
      | seekCur =>
          simp only
          split
          · exact hmoved .get offset
          · exact hmoved .setRelative offset
      | seekEnd =>
          simp only [hc, Option.bind_some]
          exact hmoved .setAbsolute _
      | other => exact ⟨_, _, rfl, h⟩

private theorem channelsLseek_onDirectory (hwf : ch.mount.WF) (hdir : s.onDirectory ch fd = true)
    (offset : Int64) {whence : Whence} (hwhence : whence ≠ .other) :
    s.channelsLseek ch fd offset whence = none := by
  obtain ⟨item, hentry, hnone, -⟩ := exists_of_onDirectory hwf hdir
  unfold ChannelIo.channelsLseek
  cases whence with
  | seekSet => simp only [hentry, channelPos_onDirectory hwf hdir, Option.map_none]
  | seekCur => simp only [hentry, channelPos_onDirectory hwf hdir, Option.map_none, ite_self]
  | seekEnd => simp only [hentry, hnone, Option.bind_none]
  | other => exact absurd rfl hwhence

/-- Through the transparent mount `lseek` never gets to a directory. -/
theorem Sound.transparentLseek (h : Sound ch s) (fd : Nat) (offset : Int64) (whence : Whence) :
    ∃ r s', s.transparentLseek ch fd offset whence = some (r, s') ∧ Sound ch s' := by
  unfold ChannelIo.transparentLseek
  split
  · rename_i item _ hentry
    obtain ⟨hitem, -⟩ := Option.filter_eq_some_iff.mp hentry
    split
    · rename_i hsome
      apply h.channelsLseek
      intro item' hentry'
      rw [hentry] at hentry'
      cases hentry'
      exact Option.isSome_iff_exists.mp hsome
    · rename_i hnone
      have hdir := (ChannelMounts.modeKnown_iff.mp (h.related.known fd item hitem).2).resolve_left hnone
      rw [if_pos hdir]
      exact ⟨_, _, rfl, h⟩
  · exact ⟨_, _, rfl, h⟩

/-! ## Calls on descriptors -/

theorem Sound.of_related (h : Sound ch s) {fs : FileSystem} (hfs : Related ch.mount fs.files) :
    Sound ch { s with fs := fs } :=
  ⟨hfs, h.nonneg⟩

private theorem Sound.renewed (h : Sound ch s) (flags : OpenFlags) {fs : FileSystem}
    (hfs : Related ch.mount fs.files) : Sound ch (s.renewed flags fs) := by
  unfold ChannelIo.renewed
  split
  · exact (h.of_related hfs).setOffsets _ ⟨Int64.le_refl 0, Int64.le_refl 0⟩
  · exact h.of_related hfs

private theorem renewed_fs (s : ChannelIo) (flags : OpenFlags) (fs : FileSystem) :
    (s.renewed flags fs).fs = fs := by
  unfold renewed
  split
  · rfl
  · rfl

private theorem Sound.channelsOpen (h : Sound ch s) (path : AbsolutePath) (flags : OpenFlags) :
    ∃ r s', s.channelsOpen ch path flags = some (r, s') ∧ Sound ch s' := by
  obtain ⟨r, fs', hcall, hrel, hentry⟩ := FileSystem.channelsOpen_related h.related path flags
  unfold ChannelIo.channelsOpen
  rw [hcall, Option.bind_some]
  have hrenewed := h.renewed flags hrel
  cases r with
  | error e =>
      refine ⟨_, _, rfl, ?_⟩
      split
      · exact hrenewed
      · exact h.of_related hrel
  | ok fd =>
      simp only
      split
      · rename_i happend
        obtain ⟨i, item, hname, hitem, hinode⟩ := hentry fd rfl happend.2
        have hhas : HasItem ch (s.renewed flags fs') fd := by
          intro item' hentry'
          rw [FileSystem.channelsEntry, renewed_fs, hitem] at hentry'
          obtain ⟨heq, -⟩ := Option.filter_eq_some_iff.mp hentry'
          cases heq
          rw [hinode]
          exact ChannelMounts.matchByInode_of_lt (List.findIdx?_eq_some_iff_getElem.mp hname).1
        simp only [hname, Option.bind_some]
        obtain ⟨x, s', hpos, -, hsound⟩ := hrenewed.channelPos hhas .setAbsolute .write
          (Int64.ofNat ((s.renewed flags fs').channelSize ch i).toUInt64.toUInt32.toNat)
        rw [hpos, Option.map_some]
        exact ⟨_, _, rfl, hsound⟩
      · exact ⟨_, _, rfl, hrenewed⟩

private theorem Sound.channelsSetfl (h : Sound ch s) (fd : Nat) (flags : OpenFlags) :
    ∃ r s', s.channelsSetfl ch fd flags = some (r, s') ∧ Sound ch s' := by
  unfold ChannelIo.channelsSetfl
  split
  · exact ⟨_, _, rfl, h⟩
  · rename_i item hentry
    split
    · exact ⟨_, _, rfl, h⟩
    · refine ⟨_, _, rfl, ?_, h.nonneg⟩
      exact h.related.of_same (h.related.accounts.setFlags item.openFileDescriptionId flags)
        fun k => rfl

private theorem channelsSetfl_onDirectory (hwf : ch.mount.WF) (hdir : s.onDirectory ch fd = true)
    (flags : OpenFlags) : s.channelsSetfl ch fd flags = some (.error .ebadf, s) := by
  obtain ⟨item, hentry, hnone, -⟩ := exists_of_onDirectory hwf hdir
  unfold channelsSetfl
  simp only [hentry, hnone]

private theorem Sound.ofFs (h : Sound ch s) {out : FileSystem.Reply}
    (hout : ∃ r fs', out = some (r, fs') ∧ Related ch.mount fs'.files) :
    ∃ r s', s.ofFs out = some (r, s') ∧ Sound ch s' := by
  obtain ⟨r, fs', rfl, hrel⟩ := hout
  exact ⟨_, _, rfl, h.of_related hrel⟩

end ChannelIo

/-! ## Which calls find their item -/

/-- The descriptor that a call reads, writes or positions. -/
def ChannelCall.descriptor {channels : Nat} : ChannelCall channels → Option Nat
  | .read fd _ _ | .write fd _ _ | .pread fd _ _ _ | .pwrite fd _ _ _ | .lseek fd _ _ | .setfl fd _ =>
      some fd
  | .channelsOpen _ _ | .dup _ | .dup2 _ _ | .close _ => none

namespace ChannelIo

variable {ch : SizedChannels} {s : ChannelIo}

/-- The call goes through no null pointer and fails no assertion, and on a directory it is an error. -/
def ItemsExist (ch : SizedChannels) (s : ChannelIo) (c : ChannelCall ch.mount.channels.length) :
    Prop :=
  ∃ r s', s.call ch c = some (r, s') ∧
    ∀ fd, c.descriptor = some fd → s.onDirectory ch fd = true → ∃ e, r = .error e

/-- No `read` or `write` of a directory, and no `lseek` but with a wrong `whence`. -/
def AvoidsDirectories (ch : SizedChannels) (s : ChannelIo) :
    ChannelCall ch.mount.channels.length → Prop
  | .read fd _ _ | .write fd _ _ => s.onDirectory ch fd = false
  | .lseek fd _ whence => whence = .other ∨ s.onDirectory ch fd = false
  | _ => True

instance (s : ChannelIo) : (c : ChannelCall ch.mount.channels.length) →
    Decidable (AvoidsDirectories ch s c)
  | .read fd _ _ | .write fd _ _ => inferInstanceAs (Decidable (s.onDirectory ch fd = false))
  | .lseek fd _ whence =>
      inferInstanceAs (Decidable (whence = .other ∨ s.onDirectory ch fd = false))
  | .channelsOpen _ _ | .dup _ | .dup2 _ _ | .close _ | .pread _ _ _ _ | .pwrite _ _ _ _ | .setfl _ _ =>
      isTrue trivial

private theorem Sound.answered (h : Sound ch s) {fd : Nat} {out : Reply}
    (hchannel : HasItem ch s fd → ∃ r s', out = some (r, s') ∧ Sound ch s')
    (hdir : s.onDirectory ch fd = true → ∃ e, out = some (.error e, s)) :
    ∃ r s', out = some (r, s') ∧ Sound ch s' ∧
      ∀ k, some fd = some k → s.onDirectory ch k = true → ∃ e, r = .error e := by
  cases hon : s.onDirectory ch fd with
  | true =>
      obtain ⟨e, hout⟩ := hdir hon
      exact ⟨_, s, hout, h, fun _ _ _ => ⟨e, rfl⟩⟩
  | false =>
      have hitem : HasItem ch s fd := by
        rcases h.hasItem_or fd with hitem | htrue
        · exact hitem
        · rw [hon] at htrue
          cases htrue
      obtain ⟨r, s', hout, hs'⟩ := hchannel hitem
      refine ⟨r, s', hout, hs', fun k hk htrue => ?_⟩
      cases hk
      rw [hon] at htrue
      cases htrue

theorem Sound.call (h : Sound ch s) (hwf : ch.mount.WF) {c : ChannelCall ch.mount.channels.length}
    (hc : AvoidsDirectories ch s c) :
    ∃ r s', s.call ch c = some (r, s') ∧ Sound ch s' ∧
      ∀ fd, c.descriptor = some fd → s.onDirectory ch fd = true → ∃ e, r = .error e := by
  cases c with
  | channelsOpen path flags =>
      obtain ⟨r, s', hcall, hs'⟩ := h.channelsOpen path flags
      exact ⟨r, s', hcall, hs', nofun⟩
  | dup oldfd =>
      obtain ⟨r, s', hcall, hs'⟩ := h.ofFs (FileSystem.dup_related h.related oldfd)
      exact ⟨r, s', hcall, hs', nofun⟩
  | dup2 oldfd newfd =>
      obtain ⟨r, s', hcall, hs'⟩ := h.ofFs (FileSystem.dup2_related h.related oldfd newfd)
      exact ⟨r, s', hcall, hs', nofun⟩
  | close fd =>
      obtain ⟨r, fs', hcall, hrel, -⟩ := FileSystem.close_related h.related fd
      obtain ⟨r, s', hcall, hs'⟩ := h.ofFs ⟨r, fs', hcall, hrel⟩
      exact ⟨r, s', hcall, hs', nofun⟩
  | read fd count zvm =>
      exact h.answered (fun hitem => h.channelsRead hitem count zvm)
        fun hdir => absurd hdir (Bool.eq_false_iff.mp hc)
  | write fd count zvm =>
      exact h.answered (fun hitem => h.channelsWrite hitem count zvm)
        fun hdir => absurd hdir (Bool.eq_false_iff.mp hc)
  | pread fd count zvm offset =>
      exact h.answered (fun hitem => h.channelsPread hitem count zvm offset)
        fun hdir => h.channelsPread_onDirectory hwf hdir count zvm offset
  | pwrite fd count zvm offset =>
      exact h.answered (fun hitem => h.channelsPwrite hitem count zvm offset)
        fun hdir => h.channelsPwrite_onDirectory hwf hdir count zvm offset
  | lseek fd offset whence =>
      apply h.answered (fun hitem => h.channelsLseek hitem offset whence)
      intro hdir
      rcases hc with rfl | hoff
      · obtain ⟨item, hentry, -⟩ := exists_of_onDirectory hwf hdir
        exact ⟨.eperm, by simp only [ChannelIo.channelsLseek, hentry]⟩
      · exact absurd hdir (Bool.eq_false_iff.mp hoff)
  | setfl fd flags =>
      exact h.answered (fun _ => h.channelsSetfl fd flags)
        fun hdir => ⟨.ebadf, channelsSetfl_onDirectory hwf hdir flags⟩

private theorem not_onDirectory_of_answer {fd : Nat} {out : Reply} {x : Except Errno Int × ChannelIo}
    (hnone : s.onDirectory ch fd = true → out = none) (hcall : out = some x) :
    s.onDirectory ch fd = false := by
  apply Bool.eq_false_iff.mpr
  intro hdir
  rw [hnone hdir] at hcall
  cases hcall

theorem avoidsDirectories_of_call (hwf : ch.mount.WF) {c : ChannelCall ch.mount.channels.length}
    {r : Except Errno Int} {s' : ChannelIo} (hcall : s.call ch c = some (r, s')) :
    AvoidsDirectories ch s c := by
  cases c with
  | read fd count zvm =>
      exact not_onDirectory_of_answer (fun hdir => channelsRead_onDirectory hwf hdir count zvm) hcall
  | write fd count zvm =>
      exact not_onDirectory_of_answer (fun hdir => channelsWrite_onDirectory hwf hdir count zvm) hcall
  | lseek fd offset whence =>
      by_cases hwhence : whence = .other
      · exact .inl hwhence
      · right
        exact not_onDirectory_of_answer
          (fun hdir => channelsLseek_onDirectory hwf hdir offset hwhence) hcall
  | channelsOpen path flags => trivial
  | dup oldfd => trivial
  | dup2 oldfd newfd => trivial
  | close fd => trivial
  | pread fd count zvm offset => trivial
  | pwrite fd count zvm offset => trivial
  | setfl fd flags => trivial

private theorem Sound.itemsExist_iff (h : Sound ch s) (hwf : ch.mount.WF)
    (c : ChannelCall ch.mount.channels.length) : ItemsExist ch s c ↔ AvoidsDirectories ch s c := by
  constructor
  · rintro ⟨r, s', hcall, -⟩
    exact avoidsDirectories_of_call hwf hcall
  · intro hc
    obtain ⟨r, s', hcall, -, hdir⟩ := h.call hwf hc
    exact ⟨r, s', hcall, hdir⟩

theorem step_sound (hwf : ch.mount.WF) (s : ChannelIo) (c : ChannelCall ch.mount.channels.length)
    (t : ChannelIo) (h : Sound ch s) (hstep : step ch s c = some t) : Sound ch t := by
  obtain ⟨⟨r, t⟩, hcall, rfl⟩ := Option.map_eq_some_iff.mp hstep
  obtain ⟨r', s', hcall', hs', -⟩ := h.call hwf (avoidsDirectories_of_call hwf hcall)
  rw [hcall] at hcall'
  cases hcall'
  exact hs'

/-- In a run every call finds its item, and is an error on a directory, if and only if no call reads,
writes or positions a directory. -/
theorem run_itemsExist_iff (ch : SizedChannels) {channels : List AbsolutePath}
    (hmount : channelsFilesystemConstruct channels = some ch.mount) (maxsizes : Nat → Int64)
    (calls : List (ChannelCall ch.mount.channels.length)) :
    Guarded (step ch) (ItemsExist ch) (start maxsizes) calls ↔
      Guarded (step ch) (AvoidsDirectories ch) (start maxsizes) calls := by
  have hwf := ChannelMounts.construct_wf hmount
  exact guarded_iff (fun s c h => h.itemsExist_iff hwf c)
    (fun s c t h _ hstep => step_sound hwf s c t h hstep) calls (start maxsizes)
    (sound_start maxsizes)

/-- Every channel of the mount transfers all that is asked for. -/
def zvmServing (channels : Nat) (count : UInt32) : ZvmAnswer channels count where
  answer n := if n < channels then count.toNat else -22
  atMost := by
    intro n
    split
    · omega
    · omega
  unknown := by
    intro n hn
    rw [if_neg (by omega)]
    omega

/-- Standard input, in `/dev`. -/
def inputChannels : SizedChannels where
  mount := ⟨[.fromRoot "dev/stdin".toList], [⟨12, 12, 3, ['/']⟩, ⟨13, 12, 2, "/dev".toList⟩]⟩
  attrs := fun _ => ⟨.sgetsput, false, .fifo, true, false, true, false⟩
  size := fun _ => 0

/-- `/dev` is opened beside standard input and takes everything but a read, a write or a seek. -/
def inputCalls : List (ChannelCall inputChannels.mount.channels.length) :=
  [.channelsOpen (.fromRoot "dev/stdin".toList) {}, .channelsOpen (.fromRoot "dev".toList)
    { directory := true }, .read 0 4 (zvmServing _ 4), .pread 1 4 (zvmServing _ 4) 0,
    .lseek 1 0 .other, .dup2 1 0, .close 1]

/-- A run over a channel and a directory. -/
theorem run_itemsExist_iff_input :
    Guarded (step inputChannels) (ItemsExist inputChannels) (start fun _ => 0) inputCalls :=
  (run_itemsExist_iff inputChannels (by decide : channelsFilesystemConstruct
    [.fromRoot "dev/stdin".toList] = some inputChannels.mount) (fun _ => 0) inputCalls).mpr
    (by decide)

/-- `open` of a directory and `read`. -/
theorem read_directory_null_item :
    ¬∀ (ch : SizedChannels) (channels : List AbsolutePath),
      channelsFilesystemConstruct channels = some ch.mount →
        ∀ (maxsizes : Nat → Int64) (calls : List (ChannelCall ch.mount.channels.length)),
          Guarded (step ch) (ItemsExist ch) (start maxsizes) calls := by
  intro h
  have hrun := h inputChannels [.fromRoot "dev/stdin".toList] (by decide) (fun _ => 0)
    [.channelsOpen (.fromRoot "dev".toList) { directory := true }, .read 0 1 (zvmServing _ 1)]
  have hopen : ((start fun _ => 0).step inputChannels (.channelsOpen (.fromRoot "dev".toList)
      { directory := true })).isSome := by decide
  obtain ⟨t, ht⟩ := Option.isSome_iff_exists.mp hopen
  obtain ⟨r, s', hread, -⟩ := (hrun.2 t ht).1
  have hnone : (((start fun _ => 0).step inputChannels (.channelsOpen (.fromRoot "dev".toList)
      { directory := true })).bind fun t => t.call inputChannels (.read 0 1 (zvmServing _ 1))).isNone := by
    decide
  rw [ht, Option.bind_some, hread] at hnone
  cases hnone

end ChannelIo

end Zrt.Fs
