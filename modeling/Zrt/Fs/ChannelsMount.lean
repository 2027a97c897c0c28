import Zrt.Fs.Io

/-!
# Reading and writing on the channels mount

A description of an open channel keeps two offsets, one for random and one for sequential access.
The type of the channel and the kind of access say which of them a call reads or moves. Channels and
directories share the handle table, and the item of a channel is looked up by inode.
-/

namespace Zrt.Fs

/-! ## Positions -/

inductive PosAccess where
  | seek | read | write
deriving DecidableEq

inductive PosWhence where
  | get | setAbsolute | setRelative
deriving DecidableEq

/-- The two offsets of an open file description. -/
structure ChannelOffsets where
  offset : Int64
  channelSequentialOffset : Int64

def oRdonly : Nat := 0

def oWronly : Nat := 1

def oRdwr : Nat := 2

/-- Every bit of `flag` is set. -/
def checkFlag (flags flag : Nat) : Bool := flags &&& flag == flag

/-- The bits under `O_ACCMODE`. -/
def OpenFlags.accmode (f : OpenFlags) : Nat :=
  (if f.wronly then oWronly else 0) + if f.rdwr then oRdwr else 0

/-- `SET_SAFE_OFFSET`: the new offset must not be negative. -/
def setSafeOffset (whence : PosWhence) (pos offset : Int64) : Except Errno Int64 :=
  let next := if whence = .setRelative then pos + offset else offset
  if next < 0 then .error .eoverflow else .ok next

namespace ChannelOffsets

abbrev Answer := Except Errno Int64 × ChannelOffsets

/-- Tell or set the offset for random access. -/
def randomPos (o : ChannelOffsets) (whence : PosWhence) (offset : Int64) : Answer :=
  if whence = .get then (.ok o.offset, o)
  else
    match setSafeOffset whence o.offset offset with
    | .ok next => (.ok next, { o with offset := next })
    | .error e => (.error e, o)

/-- Tell or set the offset for sequential access. -/
def sequentialPos (o : ChannelOffsets) (whence : PosWhence) (offset : Int64) : Answer :=
  if whence = .get then (.ok o.channelSequentialOffset, o)
  else
    match setSafeOffset whence o.channelSequentialOffset offset with
    | .ok next => (.ok next, { o with channelSequentialOffset := next })
    | .error e => (.error e, o)

/-- Seeking where only the sequential offset exists. -/
def tellSequential (o : ChannelOffsets) (whence : PosWhence) : Answer :=
  if whence = .get then (.ok o.channelSequentialOffset, o) else (.error .espipe, o)

def channelPosSequenGetSequenPut (o : ChannelOffsets) (whence : PosWhence) (access : PosAccess)
    (offset : Int64) : Answer :=
  match access with
  | .seek => o.tellSequential whence
  | .read | .write => o.sequentialPos whence offset

/-- Without a matching access mode the function ends without a value. -/
def channelPosRandomGetSequenPut (o : ChannelOffsets) (flags : Nat) (whence : PosWhence)
    (access : PosAccess) (offset : Int64) : Option Answer :=
  match access with
  | .seek =>
      if checkFlag flags oRdonly || checkFlag flags oRdwr then some (o.randomPos whence offset)
      else if checkFlag flags oWronly then some (o.tellSequential whence)
      else none
  | .read => some (o.randomPos whence offset)
  | .write => some (o.sequentialPos whence offset)

def channelPosSequenGetRandomPut (o : ChannelOffsets) (flags : Nat) (whence : PosWhence)
    (access : PosAccess) (offset : Int64) : Option Answer :=
  match access with
  | .seek =>
      if checkFlag flags oWronly || checkFlag flags oRdwr then some (o.randomPos whence offset)
      else if checkFlag flags oRdonly then some (o.tellSequential whence)
      else none
  | .read => some (o.sequentialPos whence offset)
  | .write => some (o.randomPos whence offset)

def channelPosRandomGetRandomPut (o : ChannelOffsets) (whence : PosWhence) (offset : Int64) :
    Answer :=
  o.randomPos whence offset

/-- The four functions, by the type of the channel. -/
def channelPosBy (accessType : AccessType) (o : ChannelOffsets) (flags : Nat) (whence : PosWhence)
    (access : PosAccess) (offset : Int64) : Option Answer :=
  match accessType with
  | .sgetsput => some (o.channelPosSequenGetSequenPut whence access offset)
  | .rgetsput => o.channelPosRandomGetSequenPut flags whence access offset
  | .sgetrput => o.channelPosSequenGetRandomPut flags whence access offset
  | .rgetrput => some (o.channelPosRandomGetRandomPut whence offset)

end ChannelOffsets

/-! ## The state -/

/-- The channels mount with the sizes that the manifest gives its channels. -/
structure SizedChannels extends Channels where
  size : Nat → Int64

/-- The offsets of every description, and the size of every channel as it was found at run time. -/
structure ChannelIo where
  fs : FileSystem
  offsets : Nat → ChannelOffsets
  maxsizes : Nat → Int64

/-- What ZeroVM would answer to one request for `count` bytes, by channel number: how many bytes it
transferred, or an error below zero. It has no channels beyond those of the mount. -/
structure ZvmAnswer (channels : Nat) (count : UInt32) where
  answer : Nat → Int
  atMost : ∀ n, answer n ≤ count.toNat
  unknown : ∀ n, channels ≤ n → answer n < 0

def zvmInodeFromInode (inode : Nat) : Nat := inode - 11

/-- `match_by_inode`: the channel and its position. -/
def ChannelMounts.matchByInode (m : ChannelMounts) (inode : Nat) : Option (AbsolutePath × Nat) :=
  m.channels.zipIdx.find? fun c => inodeFromZvmInode c.2 == inode

/-- `check_handle_is_related_to_filesystem` and then `entry`. -/
def FileSystem.channelsEntry (fs : FileSystem) (fd : Nat) : Option HandleItem :=
  (fs.files.handles.entry fd).filter fun item => item.mountFs = .channels

/-- A count as an `int`. -/
def intOfCount (count : UInt32) : Int := Int.bmod count.toNat (2 ^ 32)

/-- The devices that are read without ZeroVM. -/
def emuHandleRead (m : ChannelMounts) (inode : Nat) (count : UInt32) : Option Int :=
  (m.matchByInode inode).bind fun c =>
    if c.1.text = "/dev/zero".toList ∨ c.1.text = "/dev/full".toList then some (intOfCount count)
    else if c.1.text = "/dev/null".toList then some 0
    else if c.1.text = "/dev/random".toList ∨ c.1.text = "/dev/urandom".toList then
      some (intOfCount count)
    else none

def emuHandleWrite (m : ChannelMounts) (inode : Nat) (count : UInt32) : Option Int :=
  (m.matchByInode inode).bind fun c =>
    if c.1.text = "/dev/zero".toList ∨ c.1.text = "/dev/null".toList then some (intOfCount count)
    else if c.1.text = "/dev/full".toList then some (-1)
    else if c.1.text = "/dev/random".toList ∨ c.1.text = "/dev/urandom".toList then
      some (intOfCount count)
    else none

namespace ChannelIo

variable (ch : SizedChannels)

abbrev Reply := Option (Except Errno Int × ChannelIo)

/-- Nothing is open. The sizes at run time are never set before their first use. -/
def start (maxsizes : Nat → Int64) : ChannelIo := ⟨.start, fun _ => ⟨0, 0⟩, maxsizes⟩

def setOffsets (s : ChannelIo) (id : Nat) (o : ChannelOffsets) : ChannelIo :=
  { s with offsets := Function.update s.offsets id o }

/-- `CHANNEL_SIZE`. -/
def channelSize (s : ChannelIo) (i : Nat) : Int64 := max (s.maxsizes i) (ch.size i)

/-- The flags of the description are read before the item. -/
def channelPos (s : ChannelIo) (handle : Nat) (whence : PosWhence) (access : PosAccess)
    (offset : Int64) : Option (Except Errno Int64 × ChannelIo) :=
  match s.fs.channelsEntry handle with
  | none => some (.error .ebadf, s)
  | some item =>
      item.openFileDescriptionId.bind fun id =>
        (s.fs.files.pool.entry (some id)).bind fun ofd =>
          (ch.mount.matchByInode item.inode).bind fun c =>
            (ChannelOffsets.channelPosBy (ch.attrs c.2).accessType (s.offsets id) ofd.flags.accmode
              whence access offset).map fun r => (r.1, s.setOffsets id r.2)

/-- A position as `channel_pos` returns it. -/
def posValue : Except Errno Int64 → Int64
  | .ok p => p
  | .error _ => -1

/-! ## Transfers -/

/-- After a transfer the position moves behind its last byte. What that answers is ignored. -/
def advance (s : ChannelIo) (fd : Nat) (access : PosAccess) (offset : Int64) (bytes : Int) :
    Option ChannelIo :=
  if 0 < bytes then
    (channelPos ch s fd .setAbsolute access (offset + Int64.ofInt bytes)).map Prod.snd
  else some s

/-- `update_artificial_channel_size`. -/
def updateArtificialChannelSize (s : ChannelIo) (fd inode : Nat) : Option ChannelIo :=
  (ch.mount.matchByInode inode).bind fun c =>
    if (ch.attrs c.2).accessType = .sgetsput then some s
    else
      (channelPos ch s fd .get .write 0).map fun r =>
        { r.2 with maxsizes := Function.update r.2.maxsizes c.2 (max (r.2.maxsizes c.2) (posValue r.1)) }

def channelsPread (s : ChannelIo) (fd : Nat) (count : UInt32)
    (zvm : ZvmAnswer ch.mount.channels.length count) (offset : Int64) : Reply :=
  match s.fs.channelsEntry fd with
  | none => some (.error .ebadf, s)
  | some item =>
      (s.fs.files.pool.entry item.openFileDescriptionId).bind fun ofd =>
        if ofd.flags.accmode ≠ oRdonly ∧ ofd.flags.accmode ≠ oRdwr then some (.error .einval, s)
        else
          let readed := (emuHandleRead ch.mount item.inode count).getD
            (zvm.answer (zvmInodeFromInode item.inode))
          (s.advance ch fd .read offset readed).map fun s' =>
            if readed < 0 then (.error (.host readed), s') else (.ok readed, s')

def channelsPwrite (s : ChannelIo) (fd : Nat) (count : UInt32)
    (zvm : ZvmAnswer ch.mount.channels.length count) (offset : Int64) : Reply :=
  match s.fs.channelsEntry fd with
  | none => some (.error .ebadf, s)
  | some item =>
      (s.fs.files.pool.entry item.openFileDescriptionId).bind fun ofd =>
        if ofd.flags.accmode ≠ oWronly ∧ ofd.flags.accmode ≠ oRdwr then some (.error .einval, s)
        else
          let wrote := (emuHandleWrite ch.mount item.inode count).getD
            (zvm.answer (zvmInodeFromInode item.inode))
          (s.advance ch fd .write offset wrote).bind fun s' =>
            if wrote < 0 then some (.error (.host wrote), s')
            else (s'.updateArtificialChannelSize ch fd item.inode).map fun s'' => (.ok wrote, s'')

/-- `read` asks for the position before it looks at the access mode. -/
def channelsRead (s : ChannelIo) (fd : Nat) (count : UInt32)
    (zvm : ZvmAnswer ch.mount.channels.length count) : Reply :=
  match s.fs.files.handles.entry fd with
  | none => some (.error .ebadf, s)
  | some _ =>
      (channelPos ch s fd .get .read 0).bind fun r =>
        if posValue r.1 + Int64.ofNat count.toNat < 0 then some (.error .eoverflow, r.2)
        else r.2.channelsPread ch fd count zvm (posValue r.1)

def channelsWrite (s : ChannelIo) (fd : Nat) (count : UInt32)
    (zvm : ZvmAnswer ch.mount.channels.length count) : Reply :=
  match s.fs.files.handles.entry fd with
  | none => some (.error .ebadf, s)
  | some _ =>
      (channelPos ch s fd .get .write 0).bind fun r =>
        if posValue r.1 + Int64.ofNat count.toNat < 0 then some (.error .eoverflow, r.2)
        else r.2.channelsPwrite ch fd count zvm (posValue r.1)

/-! ## Seeking -/

/-- The end of the channel is looked up through its item. -/
def channelsLseek (s : ChannelIo) (fd : Nat) (offset : Int64) (whence : Whence) : Reply :=
  match s.fs.channelsEntry fd with
  | none => some (.error .ebadf, s)
  | some item =>
      let answer := fun r : Except Errno Int64 × ChannelIo => (r.1.map Int64.toInt, r.2)
      match whence with
      | .seekSet => (channelPos ch s fd .setAbsolute .seek offset).map answer
      | .seekCur =>
          if offset = 0 then (channelPos ch s fd .get .seek offset).map answer
          else (channelPos ch s fd .setRelative .seek offset).map answer
      | .seekEnd =>
          (ch.mount.matchByInode item.inode).bind fun c =>
            (channelPos ch s fd .setAbsolute .seek (s.channelSize ch c.2 + offset)).map answer
      | .other => some (.error .eperm, s)

/-- `transparent_lseek` first asks for the mode, by the item or else by the directory, and refuses
directories. -/
def transparentLseek (s : ChannelIo) (fd : Nat) (offset : Int64) (whence : Whence) : Reply :=
  match s.fs.files.mountByhandle fd, s.fs.channelsEntry fd with
  | some _, some item =>
      if (ch.mount.matchByInode item.inode).isSome then s.channelsLseek ch fd offset whence
      else if (matchInodeInDirectoryList ch.mount.manifestDirs item.inode).isSome then
        some (.error .ebadf, s)
      else none
  | _, _ => some (.error .ebadf, s)

/-! ## Descriptors -/

/-- `getnew_ofd` has reset both offsets of the description it found. -/
def renewed (s : ChannelIo) (flags : OpenFlags) (fs : FileSystem) : ChannelIo :=
  match (s.fs.files.pool.getnewOfd flags).1 with
  | some id => { s with fs := fs }.setOffsets id ⟨0, 0⟩
  | none => { s with fs := fs }

/-- With `O_APPEND` a channel is positioned at its end, which goes through a `size_t`. Only `ENFILE`
comes after the description was taken. -/
def channelsOpen (s : ChannelIo) (path : AbsolutePath) (flags : OpenFlags) : Reply :=
  (FileSystem.channelsOpen ch.toChannels s.fs path flags).bind fun x =>
    match x.1 with
    | .error e => some (.error e, if e = .enfile then s.renewed flags x.2 else { s with fs := x.2 })
    | .ok fd =>
        let opened := s.renewed flags x.2
        if flags.append ∧ flags.directory = false then
          (ch.mount.channels.findIdx? fun c => c.text == path.text).bind fun i =>
            let chanSize := (opened.channelSize ch i).toUInt64.toUInt32
            (channelPos ch opened fd .setAbsolute .write (Int64.ofNat chanSize.toNat)).map
              fun r => (.ok fd, r.2)
        else some (.ok fd, opened)

/-- `F_SETFL` replaces the flags of the description, the access mode with them. -/
def channelsSetfl (s : ChannelIo) (fd : Nat) (flags : OpenFlags) : Reply :=
  match s.fs.channelsEntry fd with
  | none => some (.error .enoent, s)
  | some item =>
      match ch.mount.matchByInode item.inode with
      | none => some (.error .ebadf, s)
      | some _ =>
          let pool := s.fs.files.pool.setFlags item.openFileDescriptionId flags
          some (.ok 0, { s with fs.files.pool := pool })

/-- A call that only changes the tables of descriptors. -/
def ofFs (s : ChannelIo) (r : FileSystem.Reply) : Reply :=
  r.map fun x => (x.1.map Int.ofNat, { s with fs := x.2 })

end ChannelIo

/-- The calls on a mount with so many channels. -/
inductive ChannelCall (channels : Nat) where
  | channelsOpen (path : AbsolutePath) (flags : OpenFlags)
  | dup (oldfd : Nat)
  | dup2 (oldfd newfd : Nat)
  | close (fd : Nat)
  | read (fd : Nat) (count : UInt32) (zvm : ZvmAnswer channels count)
  | write (fd : Nat) (count : UInt32) (zvm : ZvmAnswer channels count)
  | pread (fd : Nat) (count : UInt32) (zvm : ZvmAnswer channels count) (offset : Int64)
  | pwrite (fd : Nat) (count : UInt32) (zvm : ZvmAnswer channels count) (offset : Int64)
  | lseek (fd : Nat) (offset : Int64) (whence : Whence)
  | setfl (fd : Nat) (flags : OpenFlags)

namespace ChannelIo

variable (ch : SizedChannels)

def call (s : ChannelIo) : ChannelCall ch.mount.channels.length → Reply
  | .channelsOpen path flags => s.channelsOpen ch path flags
  | .dup oldfd => s.ofFs (s.fs.dup oldfd)
  | .dup2 oldfd newfd => s.ofFs (FileSystem.dup2 ch.toChannels s.fs oldfd newfd)
  | .close fd => s.ofFs (FileSystem.close ch.toChannels s.fs fd)
  | .read fd count zvm => s.channelsRead ch fd count zvm
  | .write fd count zvm => s.channelsWrite ch fd count zvm
  | .pread fd count zvm offset => s.channelsPread ch fd count zvm offset
  | .pwrite fd count zvm offset => s.channelsPwrite ch fd count zvm offset
  | .lseek fd offset whence => s.channelsLseek ch fd offset whence
  | .setfl fd flags => s.channelsSetfl ch fd flags

def step (s : ChannelIo) (c : ChannelCall ch.mount.channels.length) : Option ChannelIo :=
  (s.call ch c).map Prod.snd

end ChannelIo

end Zrt.Fs
