import Mathlib.Data.List.Nodup
import Mathlib.Data.List.Range
import Zrt.Fs.PathUtils

/-!
# Directories of the channels mount

The manifest names channels by flat absolute paths. Their directories are collected into a table,
and `getdents` enumerates a directory by testing every table entry and every channel name for a
common prefix. `none` stands for a failed assertion or a null pointer.
-/

namespace Zrt.Fs

/-! ## The directory table -/

def inodeFromZvmInode (zvmInode : Nat) : Nat := 11 + zvmInode

def directoriesMaxNumber : Nat := 255

structure DirData where
  dirInode : Nat
  parentDirInode : Nat
  nlink : Nat
  path : Text
deriving DecidableEq

def matchDirInDirectoryList (dirs : List DirData) (dirpath : Text) (len : Nat) : Option DirData :=
  let n := if 1 < len ∧ dirpath[len - 1]? = some '/' then len - 1 else len
  dirs.find? fun d => dirpath.take n == d.path.take n && d.path.length == n

def matchInodeInDirectoryList (dirs : List DirData) (inode : Nat) : Option DirData :=
  dirs.find? fun d => d.dirInode == inode

/-- Inode of the directory above, looked up among the directories added before. -/
def parentInodeOf (dirs : List DirData) (path : Text) : Nat :=
  match (parentSubpath path).bind (matchDirInDirectoryList dirs path) with
  | some parent => parent.dirInode
  | none => dirs.length

def callbackAddDir (dirs : List DirData) (dirpath : Text) (len : Nat) : List DirData :=
  if len = 0 then dirs
  else if (matchDirInDirectoryList dirs dirpath len).isSome then dirs
  else if dirs.length < directoriesMaxNumber then
    dirs ++ [⟨dirs.length, parentInodeOf dirs (dirpath.take len), 2, dirpath.take len⟩]
  else dirs

/-- Add the directories of a path, the outermost first. -/
def processSubdirsViaCallback (path : Text) : Nat → List DirData → Nat → List DirData
  | 0, dirs, _ => dirs
  | fuel + 1, dirs, len =>
      match locateLastOccurence path '/' len with
      | none => dirs
      | some i =>
          let subpathlen := if 1 < len ∧ i = 0 then 1 else i
          callbackAddDir (processSubdirsViaCallback path fuel dirs subpathlen) path subpathlen

/-- The test for a direct entry: the directory's path is a prefix, more than one character follows
it, and no slash stands behind the first of them. -/
def matchesContents (dirpath path : Text) : Bool :=
  dirpath.isPrefixOf path && decide (dirpath.length + 1 < path.length) &&
    !(path.drop (dirpath.length + 1)).contains '/'

def getSubDirIndex (dirs : List DirData) (dirpath : Text) (index : Nat) : Option Nat :=
  ((dirs.drop index).findIdx? fun d => matchesContents dirpath d.path).map (index + ·)

/-- The loop over `get_sub_dir_index` that counts subdirectories. -/
def subdirsCount (dirs : List DirData) (dirpath : Text) : Nat → Nat → Nat
  | 0, _ => 0
  | fuel + 1, index =>
      match getSubDirIndex dirs dirpath index with
      | none => 0
      | some i => subdirsCount dirs dirpath fuel (i + 1) + 1

/-- Second pass: make the inodes unique and count the subdirectories. -/
def finishDir (channelsCount : Nat) (dirs : List DirData) (d : DirData) : DirData :=
  { d with
    dirInode := inodeFromZvmInode (d.dirInode + channelsCount)
    parentDirInode := inodeFromZvmInode (d.parentDirInode + channelsCount)
    nlink := d.nlink + subdirsCount dirs d.path (dirs.length + 1) 0 }

def collectDirs (channels : List AbsolutePath) : List DirData :=
  channels.foldl
    (fun dirs c => processSubdirsViaCallback c.text c.text.length dirs c.text.length) []

def processChannelsCreateDirList (channels : List AbsolutePath) : List DirData :=
  let dirs := collectDirs channels
  dirs.map (finishDir channels.length dirs)

structure ChannelMounts where
  channels : List AbsolutePath
  manifestDirs : List DirData
deriving DecidableEq

/-- Construction asserts that the directory of every channel is in the table. -/
def channelsFilesystemConstruct (channels : List AbsolutePath) : Option ChannelMounts :=
  let dirs := processChannelsCreateDirList channels
  if ∀ c ∈ channels, ((parentSubpath c.text).bind
      (matchDirInDirectoryList dirs c.text)).isSome = true
  then some ⟨channels, dirs⟩ else none

/-! ## Enumerating a directory -/

structure Dirent where
  ino : Nat
  name : Text
deriving DecidableEq

/-- The loops of `iterate_dir_contents`: the element at which the running index meets `index`. -/
def iterateMatched {α : Type*} (p : α → Bool) (index : Nat) : List α → Nat → Option α
  | [], _ => none
  | a :: l, running =>
      if p a then
        if index = running then some a else iterateMatched p index l (running + 1)
      else iterateMatched p index l running

def subdirEntry (d : DirData) : Option Dirent :=
  (nameFromPath d.path).map fun name => ⟨d.dirInode, name⟩

def channelEntry (c : AbsolutePath × Nat) : Option Dirent :=
  (nameFromPath c.1.text).map fun name => ⟨inodeFromZvmInode c.2, name⟩

namespace ChannelMounts

/-- The entry at a position, if there is one. Both loops start counting at two. -/
def iterateDirContents (m : ChannelMounts) (inode index : Nat) : Option (Option Dirent) :=
  if index = 0 then some (some ⟨inode, ['.']⟩)
  else
    (matchInodeInDirectoryList m.manifestDirs inode).bind fun pattern =>
      if index = 1 then some (some ⟨pattern.parentDirInode, ['.', '.']⟩)
      else
        match iterateMatched (fun d => matchesContents pattern.path d.path) index
            m.manifestDirs 2 with
        | some d => (subdirEntry d).map some
        | none =>
            match iterateMatched (fun c => matchesContents pattern.path c.1.text) index
                m.channels.zipIdx 2 with
            | some c => (channelEntry c).map some
            | none => some none

/-- `GET_MODE_OF_ENTRY_BY_INODE` asserts that the inode is a channel's or a directory's. -/
def modeKnown (m : ChannelMounts) (inode : Nat) : Bool :=
  m.channels.zipIdx.any (fun c => inodeFromZvmInode c.2 == inode) ||
    (matchInodeInDirectoryList m.manifestDirs inode).isSome

end ChannelMounts

/-- Layout of `struct dirent` in the C library: where the name starts, and how many bytes follow it. -/
structure DirentLayout where
  nameOffset : Nat
  trailer : Nat

/-- Record sizes are rounded up to eight bytes. -/
def adjustedDirentSize (layout : DirentLayout) (e : Dirent) : Nat :=
  (layout.nameOffset + e.name.length + 1 + layout.trailer + 8 - 1) / 8 * 8

namespace ChannelMounts

variable (layout : DirentLayout) (m : ChannelMounts) (inode : Nat)

/-- The filling loop, from a position and with `space` bytes left. -/
def getdentsLoop : Nat → Nat → Nat → Option (List Dirent × Nat)
  | 0, index, _ => some ([], index)
  | fuel + 1, index, space =>
      (m.iterateDirContents inode index).bind fun item =>
        match item with
        | none => some ([], index)
        | some e =>
            if m.modeKnown e.ino then
              if adjustedDirentSize layout e ≤ space then
                (getdentsLoop fuel (index + 1) (space - adjustedDirentSize layout e)).map
                  fun r => (e :: r.1, r.2)
              else some ([], index)
            else none

/-- The entries put into a buffer and the new offset. Every record takes at least one byte, so the
buffer size bounds the number of rounds. -/
def channelsGetdents (offset bufSize : Nat) : Option (List Dirent × Nat) :=
  m.getdentsLoop layout inode (bufSize + 1) offset bufSize

/-- Successive calls on one descriptor: what each of them returned. -/
def getdentsCalls : Nat → List Nat → Option (List (List Dirent))
  | _, [] => some []
  | offset, bufSize :: bufs =>
      (m.channelsGetdents layout inode offset bufSize).bind fun r =>
        (getdentsCalls r.2 bufs).map (r.1 :: ·)

/-- Every buffer of the sequence can hold the entry that is next when it is used. -/
def BuffersHold : Nat → List Nat → Prop
  | _, [] => True
  | offset, bufSize :: bufs =>
      (∀ e, m.iterateDirContents inode offset = some (some e) →
        adjustedDirentSize layout e ≤ bufSize) ∧
      ∀ r, m.channelsGetdents layout inode offset bufSize = some r → BuffersHold r.2 bufs

end ChannelMounts

end Zrt.Fs
