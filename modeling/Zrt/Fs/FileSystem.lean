import Zrt.Framework.Runs
import Zrt.Fs.ChannelsReaddir
import Zrt.Fs.MemMount

/-!
# Calls on the mounted file systems

The in-memory mount and the channels mount share one handle table. `open` goes to a mount by path;
`close`, `dup` and `dup2` find the mount through the handle. A call yields a value or an error
together with the next state; `none` stands for a failed assertion or an invalid memory access.
-/

namespace Zrt.Fs

open Zrt.Framework

namespace MemMount

/-- The closing part of a rename: remove the old name, or else the new one again. -/
def renameUnlink (m : MemMount) (oldpath newpath : AbsolutePath) : Outcome :=
  (m.unlink oldpath).bind fun removed =>
    match removed with
    | (.ok _, m') => some (.ok (), m')
    | (.error e, m') =>
        (m'.unlink newpath).map fun undone =>
          match undone with
          | (.ok _, m'') => (.error e, m'')
          | (.error e', m'') => (.error e', m'')

/-- `mem_rename`: link, and if the target exists, remove it and link again; then unlink the source. -/
def rename (m : MemMount) (oldpath newpath : AbsolutePath) : Outcome :=
  (m.link oldpath newpath).bind fun linked =>
    match linked with
    | (.ok _, m₁) => m₁.renameUnlink oldpath newpath
    | (.error e, m₁) =>
        if e = .eexist then
          (m₁.unlink newpath).bind fun removed =>
            match removed with
            | (.error e, m₂) => some (.error e, m₂)
            | (.ok _, m₂) =>
                (m₂.link oldpath newpath).bind fun relinked =>
                  match relinked with
                  | (.error e, m₃) => some (.error e, m₃)
                  | (.ok _, m₃) => m₃.renameUnlink oldpath newpath
        else some (.error e, m₁)

/-- `mem_mkdir` tries only when the path is there already or merely missing. -/
def memMkdir (m : MemMount) (path : AbsolutePath) (mode : Nat) : Outcome :=
  (m.getNode path).bind fun r =>
    match r with
    | .ok _ => m.mkdir path mode none
    | .error e => if e = .enoent then m.mkdir path mode none else some (.error e, m)

/-- `mem_rmdir` refuses a path that ends with a single dot. -/
def memRmdir (m : MemMount) (path : AbsolutePath) : Outcome :=
  (m.getNode path).bind fun r =>
    match r with
    | .error e => some (.error e, m)
    | .ok ino => if nameFromPath path.text = some ['.'] then some (.error .einval, m) else m.rmdir ino

end MemMount

/-! ## Channels -/

inductive AccessType where
  | sgetsput | rgetsput | sgetrput | rgetrput
deriving DecidableEq

inductive FileType where
  | fifo | chr | blk | reg
deriving DecidableEq

/-- What opening a channel looks at. -/
structure ChannelAttrs where
  accessType : AccessType
  emu : Bool
  ftype : FileType
  userRead : Bool
  userWrite : Bool
  canberead : Bool
  canbewrite : Bool

def checkChannelFlags (c : ChannelAttrs) (flags : OpenFlags) : Bool :=
  match flags.wronly, flags.rdwr with
  | false, false => c.canberead
  | true, false => c.canbewrite
  | _, _ => c.canberead && c.canbewrite

/-- Append-only channels, truncation and access rights, in the order of the checks. -/
def channelRefusal (c : ChannelAttrs) (flags : OpenFlags) : Option Errno :=
  if c.accessType = .rgetsput ∧ flags.append = false ∧ c.userRead = true ∧ c.userWrite = true ∧
      (c.ftype = .blk ∨ c.ftype = .reg) then some .eperm
  else if c.emu = false ∧ flags.trunc = true ∧ c.ftype ≠ .chr ∧ c.ftype ≠ .fifo then some .eperm
  else if checkChannelFlags c flags then none
  else some .eacces

/-- The channels mount with the attributes of its channels, by position. -/
structure Channels where
  mount : ChannelMounts
  attrs : Nat → ChannelAttrs

structure FileSystem where
  files : OpenFiles
  mem : MemMount

namespace FileSystem

abbrev Reply := Option (Except Errno Nat × FileSystem)

def start : FileSystem := ⟨.start, .fresh⟩

/-- The tail shared by the open functions of the channels mount. -/
def channelsHandle (fs : FileSystem) (inode parentInode : Nat) (flags : OpenFlags) : Reply :=
  let opened := fs.files.openDescriptor .channels inode parentInode flags
  match opened.1 with
  | some fd => some (.ok fd, { fs with files := opened.2 })
  | none => some (.error .enfile, { fs with files := opened.2 })

/-- Inode of the directory that construction recorded for a channel. -/
def channelParent (ch : Channels) (name : AbsolutePath) : Nat :=
  match (parentSubpath name.text).bind (matchDirInDirectoryList ch.mount.manifestDirs name.text) with
  | some d => d.dirInode
  | none => 0

def openChannel (ch : Channels) (fs : FileSystem) (name : AbsolutePath) (flags : OpenFlags) : Reply :=
  match ch.mount.channels.findIdx? fun c => c.text == name.text with
  | none => some (.error .enoent, fs)
  | some i =>
      match channelRefusal (ch.attrs i) flags with
      | some e => some (.error e, fs)
      | none => fs.channelsHandle (inodeFromZvmInode i) (channelParent ch name) flags

/-- The test for read-only access to a directory compares with zero bits and always passes. -/
def channelsOpen (ch : Channels) (fs : FileSystem) (path : AbsolutePath) (flags : OpenFlags) : Reply :=
  if flags.directory then
    match matchDirInDirectoryList ch.mount.manifestDirs path.text path.text.length with
    | some d => fs.channelsHandle d.dirInode d.parentDirInode flags
    | none => some (.error .enoent, fs)
  else openChannel ch fs path flags

/-- An entry that is neither a channel nor a directory fails an assertion. -/
def channelsClose (ch : Channels) (fs : FileSystem) (fd : Nat) : Reply :=
  match (fs.files.handles.entry fd).filter fun item => item.mountFs = .channels with
  | none => some (.error .ebadf, fs)
  | some item =>
      if ch.mount.modeKnown item.inode then
        (fs.files.closeDescriptor fd).map fun files => (.ok 0, { fs with files := files })
      else none

/-! ## The in-memory mount -/

/-- After the node has been found: a descriptor, a reference, and the checks for directories. A
directory opened for writing keeps its descriptor. -/
def memOpenNode (fs : FileSystem) (ino parentIno : Nat) (flags : OpenFlags) : Reply :=
  let opened := fs.files.openDescriptor .memory ino parentIno flags
  match opened.1 with
  | none => some (.error .enfile, { fs with files := opened.2 })
  | some fd =>
      let mem := fs.mem.ref ino
      (mem.dataAt ino).map fun d =>
        if d.isDir ∧ (flags.trunc ∨ flags.wronly ∨ flags.rdwr) then
          (.error .eisdir, ⟨opened.2, mem⟩)
        else if flags.trunc ∧ (flags.rdwr ∨ flags.wronly) then
          (.ok fd, ⟨opened.2, mem.updateDataAt ino fun d => { d with contents := [] }⟩)
        else (.ok fd, ⟨opened.2, mem⟩)

def memOpen (fs : FileSystem) (path : AbsolutePath) (flags : OpenFlags) (mode : Nat) : Reply :=
  (if flags.creat then fs.mem.openCreat path flags.excl mode none else some (.ok (), fs.mem)).bind
    fun created =>
      match created with
      | (.error _, mem) => some (.error .enoent, { fs with mem := mem })
      | (.ok _, mem) =>
          (mem.getNode path).bind fun r =>
            match r with
            | .error _ => some (.error .enoent, { fs with mem := mem })
            | .ok ino =>
                (mem.getParentNode path).bind fun parent =>
                  memOpenNode { fs with mem := mem } ino
                    (match parent with | .ok p => p | .error _ => ino) flags

/-- The node behind a descriptor of the in-memory mount. -/
def mnodeByHandle (fs : FileSystem) (fd : Nat) : Option Nat :=
  ((fs.files.handles.entry fd).filter fun item => item.mountFs = .memory).bind fun item =>
    (fs.mem.nodeAt item.inode).map fun _ => item.inode

/-- A file waiting for its removal is removed here; that is asserted to succeed. -/
def memClose (fs : FileSystem) (fd : Nat) : Reply :=
  match fs.mnodeByHandle fd with
  | none => some (.error .ebadf, fs)
  | some inode =>
      ((fs.mem.unref inode).dataAt inode).bind fun d =>
        (if d.wantUnlink then (fs.mem.unref inode).unlinkInternal inode
          else some (.ok (), fs.mem.unref inode)).bind fun removed =>
            match removed with
            | (.error _, _) => none
            | (.ok _, mem) => (fs.files.closeDescriptor fd).map fun files => (.ok 0, ⟨files, mem⟩)

/-! ## The transparent layer -/

def close (ch : Channels) (fs : FileSystem) (fd : Nat) : Reply :=
  match fs.files.mountByhandle fd with
  | none => some (.error .ebadf, fs)
  | some .memory => fs.memClose fd
  | some .channels => channelsClose ch fs fd

/-- The descriptor a duplication answered. -/
def duplicated (fs : FileSystem) (r : Option (Option Nat × OpenFiles)) : Reply :=
  r.map fun r =>
    match r.1 with
    | some fd => (.ok fd, { fs with files := r.2 })
    | none => (.error .enfile, { fs with files := r.2 })

def dup (fs : FileSystem) (oldfd : Nat) : Reply :=
  match fs.files.mountByhandle oldfd with
  | none => some (.error .ebadf, fs)
  | some _ =>
      (fs.files.handles.entry oldfd).bind fun item => fs.duplicated (fs.files.dupDescriptor item)

/-- The new descriptor is closed first, whatever that answers. -/
def dup2 (ch : Channels) (fs : FileSystem) (oldfd newfd : Nat) : Reply :=
  match fs.files.mountByhandle oldfd with
  | none => some (.error .ebadf, fs)
  | some _ =>
      if oldfd = newfd then some (.ok newfd, fs)
      else
        (close ch fs newfd).bind fun closed =>
          (closed.2.files.handles.entry oldfd).bind fun item =>
            closed.2.duplicated (closed.2.files.dupDescriptor2 item newfd)

/-- A call of the in-memory mount that touches no descriptor. -/
def ofMem (fs : FileSystem) (r : MemMount.Outcome) : Reply :=
  r.map fun r => (r.1.map fun _ => 0, { fs with mem := r.2 })

end FileSystem

/-- The calls. `open` and `creat` are told the mount their path leads to. -/
inductive FsCall where
  | memOpen (path : AbsolutePath) (flags : OpenFlags) (mode : Nat)
  | channelsOpen (path : AbsolutePath) (flags : OpenFlags)
  | close (fd : Nat)
  | dup (oldfd : Nat)
  | dup2 (oldfd newfd : Nat)
  | mkdir (path : AbsolutePath) (mode : Nat)
  | rmdir (path : AbsolutePath)
  | link (oldpath newpath : AbsolutePath)
  | unlink (path : AbsolutePath)
  | rename (oldpath newpath : AbsolutePath)

namespace FileSystem

def call (ch : Channels) (fs : FileSystem) : FsCall → Reply
  | .memOpen path flags mode => fs.memOpen path flags mode
  | .channelsOpen path flags => channelsOpen ch fs path flags
  | .close fd => close ch fs fd
  | .dup oldfd => fs.dup oldfd
  | .dup2 oldfd newfd => dup2 ch fs oldfd newfd
  | .mkdir path mode => fs.ofMem (fs.mem.memMkdir path mode)
  | .rmdir path => fs.ofMem (fs.mem.memRmdir path)
  | .link oldpath newpath => fs.ofMem (fs.mem.link oldpath newpath)
  | .unlink path => fs.ofMem (fs.mem.unlink path)
  | .rename oldpath newpath => fs.ofMem (fs.mem.rename oldpath newpath)

def step (ch : Channels) (fs : FileSystem) (c : FsCall) : Option FileSystem :=
  (call ch fs c).map Prod.snd

theorem ofMem_eq_some {fs fs' : FileSystem} {r : Except Errno Nat} {out : MemMount.Outcome}
    (hcall : fs.ofMem out = some (r, fs')) :
    fs'.files = fs.files ∧ ∃ x, out = some (x, fs'.mem) ∧ r = x.map fun _ => 0 := by
  obtain ⟨x, hx, heq⟩ := Option.map_eq_some_iff.mp hcall
  cases heq
  exact ⟨rfl, x.1, hx, rfl⟩

section Channels

variable {ch : Channels} {fs fs' : FileSystem} {r : Except Errno Nat}

private theorem channelsHandle_eq_some {inode parent : Nat} {flags : OpenFlags}
    (hcall : fs.channelsHandle inode parent flags = some (r, fs')) :
    fs' = { fs with files := (fs.files.openDescriptor .channels inode parent flags).2 } := by
  unfold channelsHandle at hcall
  cases hfd : (fs.files.openDescriptor .channels inode parent flags).1 with
  | none =>
      simp only [hfd] at hcall
      cases hcall
      rfl
  | some fd =>
      simp only [hfd] at hcall
      cases hcall
      rfl

theorem channelsOpen_cases {path : AbsolutePath} {flags : OpenFlags}
    (hcall : channelsOpen ch fs path flags = some (r, fs')) :
    fs' = fs ∨ ∃ inode parent,
      fs' = { fs with files := (fs.files.openDescriptor .channels inode parent flags).2 } := by
  unfold channelsOpen at hcall
  split at hcall
  · split at hcall
    · exact .inr ⟨_, _, channelsHandle_eq_some hcall⟩
    · cases hcall
      exact .inl rfl
  · unfold openChannel at hcall
    split at hcall
    · cases hcall
      exact .inl rfl
    · split at hcall
      · cases hcall
        exact .inl rfl
      · exact .inr ⟨_, _, channelsHandle_eq_some hcall⟩

theorem channelsClose_cases {fd : Nat} (hcall : channelsClose ch fs fd = some (r, fs')) :
    (∃ e, r = .error e ∧ fs' = fs) ∨ (r = .ok 0 ∧ ∃ files,
      fs.files.closeDescriptor fd = some files ∧ fs' = { fs with files := files }) := by
  unfold channelsClose at hcall
  split at hcall
  · cases hcall
    exact .inl ⟨_, rfl, rfl⟩
  · split at hcall
    · obtain ⟨files, hfiles, heq⟩ := Option.map_eq_some_iff.mp hcall
      cases heq
      exact .inr ⟨rfl, files, hfiles, rfl⟩
    · cases hcall

end Channels

end FileSystem

end Zrt.Fs
