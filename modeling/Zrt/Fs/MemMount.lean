import Zrt.Errno
import Zrt.Framework.SlotTable
import Zrt.Fs.OpenFiles
import Zrt.Fs.PathUtils

/-!
# The in-memory mount

Nodes live in slots that are reused lowest first. A node has a name and a parent slot of its own; its
type, counters and children are in a `MemData`, which all hard links of a file or of a directory
share. A `MemData` is an entry of a heap that never reuses positions, so that a pointer to freed data
is a position that holds nothing. `none` as the result of a call stands for a failed assertion or an
invalid memory access.
-/

namespace Zrt.Fs

open Zrt.Framework

structure MemData where
  isDir : Bool
  mode : Nat
  useCount : Nat := 0
  nlink : Nat := 1
  wantUnlink : Bool := false
  hardinode : Nat := 0
  contents : List UInt8 := []
  children : List Nat := []
deriving DecidableEq

/-- `nodedata` is the position of the shared data. -/
structure MemNode where
  name : Text
  parent : Nat
  nodedata : Nat
deriving DecidableEq

structure MemMount where
  slots : List (Option MemNode)
  heap : List (Option MemData)
deriving DecidableEq

def nameMax : Nat := 255

namespace MemMount

/-- Slot zero holds a node that is never constructed, and nobody sets the parent of the root in slot
one. Their memory is assumed to be zeroed: the data pointer of slot zero leads nowhere, and the parent
of the root is slot zero. -/
def fresh : MemMount :=
  ⟨[some ⟨[], 0, 0⟩, some ⟨['/'], 0, 1⟩], [none, some { isDir := true, mode := 0 }]⟩

def rootSlot : Nat := 1

/-! ## Slots and data -/

/-- `SlotAllocator::At`. -/
def nodeAt (m : MemMount) (slot : Nat) : Option MemNode := m.slots.getD slot none

def getData (m : MemMount) (id : Nat) : Option MemData := m.heap.getD id none

/-- The data behind a node; reading it from a null or a freed pointer fails. -/
def dataAt (m : MemMount) (slot : Nat) : Option MemData :=
  (m.nodeAt slot).bind fun n => m.getData n.nodedata

def updateData (m : MemMount) (id : Nat) (f : MemData → MemData) : MemMount :=
  { m with heap := m.heap.modify id (Option.map f) }

def updateDataAt (m : MemMount) (slot : Nat) (f : MemData → MemData) : MemMount :=
  match m.nodeAt slot with
  | none => m
  | some n => m.updateData n.nodedata f

/-- `SlotAllocator::Alloc`: the lowest free slot, or a new one behind the last. -/
def alloc (m : MemMount) (n : MemNode) : Nat × MemMount :=
  match m.slots.findIdx? Option.isNone with
  | some i => (i, { m with slots := m.slots.set i (some n) })
  | none => (m.slots.length, { m with slots := m.slots ++ [some n] })

/-- `SlotAllocator::Free` with the destructor of the node: one link less, and the data is deleted
with the last. -/
def free (m : MemMount) (slot : Nat) : MemMount :=
  match m.nodeAt slot with
  | none => m
  | some n =>
      ⟨m.slots.set slot none, m.heap.modify n.nodedata fun d =>
        d.bind fun d => if d.nlink ≤ 1 then none else some { d with nlink := d.nlink - 1 }⟩

def setName (m : MemMount) (slot : Nat) (name : Text) : MemMount :=
  match m.nodeAt slot with
  | none => m
  | some n => { m with slots := m.slots.set slot (some { n with name := name }) }

def addChild (m : MemMount) (slot child : Nat) : MemMount :=
  m.updateDataAt slot fun d => if d.isDir then { d with children := d.children ++ [child] } else d

def removeChild (m : MemMount) (slot child : Nat) : MemMount :=
  m.updateDataAt slot fun d =>
    if d.isDir then { d with children := d.children.filter (· ≠ child) } else d

/-- `second_phase_construct` and the setters after it: fresh data, or one more link to shared data. -/
def constructData (m : MemMount) (hardlink : Option Nat) (isDir : Bool) (mode : Nat) :
    Nat × MemMount :=
  match hardlink with
  | none => (m.heap.length, { m with heap := m.heap ++ [some { isDir := isDir, mode := mode }] })
  | some id => (id, m.updateData id fun d =>
      { d with nlink := d.nlink + 1, isDir := isDir, mode := mode })

/-- Make a node and enter it into its parent directory. -/
def makeNode (m : MemMount) (parentSlot : Nat) (name : Text) (isDir : Bool) (mode : Nat)
    (hardlink : Option Nat) : Nat × MemMount :=
  let data := m.constructData hardlink isDir mode
  let node := data.2.alloc ⟨name, parentSlot, data.1⟩
  (node.1, node.2.addChild parentSlot node.1)

/-! ## Looking up paths -/

/-- The loop over the children; each one's node is read to compare its name. -/
def findChild (m : MemMount) (name : Text) : List Nat → Option (Option Nat)
  | [] => some none
  | c :: cs => (m.nodeAt c).bind fun n => if n.name = name then some (some c) else findChild m name cs

/-- The walk of `GetSlot` from a slot. -/
def walk (m : MemMount) : Nat → List Text → Option (Except Errno Nat)
  | slot, [] => some (.ok slot)
  | slot, name :: rest =>
      (m.dataAt slot).bind fun d =>
        if d.isDir then
          (m.findChild name d.children).bind fun found =>
            match found with
            | none => some (.error .enoent)
            | some c => walk m c rest
        else some (.error .enotdir)

/-- The closing test for slot zero is left out: no child is ever there. -/
def getSlot (m : MemMount) (path : AbsolutePath) : Option (Except Errno Nat) :=
  m.walk rootSlot path.path

def getParentSlot (m : MemMount) (path : AbsolutePath) : Option (Except Errno Nat) :=
  m.getSlot path.dotdot

/-- The slot of the node at a path, if there is one. -/
def getMemNode (m : MemMount) (path : AbsolutePath) : Option (Option Nat) :=
  (m.getSlot path).map fun r =>
    match r with
    | .ok slot => if (m.nodeAt slot).isSome then some slot else none
    | .error _ => none

/-- The inode `Stat` answers. -/
def stat (m : MemMount) (slot : Nat) : Option (Except Errno Nat) :=
  match m.nodeAt slot with
  | none => some (.error .enoent)
  | some n => (m.getData n.nodedata).map fun _ => .ok slot

def pathTooLong (path : AbsolutePath) : Bool :=
  decide (nameMax < path.last.length) || decide (pathMax < path.text.length)

def getNode (m : MemMount) (path : AbsolutePath) : Option (Except Errno Nat) :=
  if pathTooLong path then some (.error .enametoolong)
  else
    (m.getParentSlot path).bind fun parent =>
      match parent with
      | .error _ => some (.error .enotdir)
      | .ok _ =>
          (m.getSlot path).bind fun r =>
            match r with
            | .error e => some (.error e)
            | .ok slot => m.stat slot

def getParentNode (m : MemMount) (path : AbsolutePath) : Option (Except Errno Nat) :=
  if pathTooLong path then some (.error .enametoolong)
  else
    (m.getParentSlot path).bind fun parent =>
      match parent with
      | .error _ => some (.error .enotdir)
      | .ok slot => m.stat slot

/-! ## Operations -/

/-- A call's result with the mount it leaves. -/
abbrev Outcome := Option (Except Errno Unit × MemMount)

def creat (m : MemMount) (path : AbsolutePath) (mode : Nat) (hardlink : Option Nat) : Outcome :=
  (m.getParentSlot path).bind fun parent =>
    match parent with
    | .error _ => some (.error .enoent, m)
    | .ok parentSlot =>
        match m.nodeAt parentSlot with
        | none => some (.error .einval, m)
        | some p =>
            (m.getData p.nodedata).bind fun pd =>
              if pd.isDir then
                (m.getMemNode path).bind fun child =>
                  match child with
                  | some _ => some (.error .eexist, m)
                  | none => some (.ok (), (m.makeNode parentSlot path.last false mode hardlink).2)
              else some (.error .enotdir, m)

def mkdir (m : MemMount) (path : AbsolutePath) (mode : Nat) (hardlink : Option Nat) : Outcome :=
  (m.getMemNode path).bind fun child =>
    match child with
    | some _ => some (.error .eexist, m)
    | none =>
        (m.getParentSlot path).bind fun parent =>
          match parent with
          | .error _ => some (.error .enoent, m)
          | .ok parentSlot =>
              (m.dataAt parentSlot).bind fun pd =>
                if pd.isDir then
                  if nameMax < path.last.length then some (.error .enametoolong, m)
                  else
                    some (.ok (), (m.makeNode parentSlot path.last true mode hardlink).2.updateDataAt
                      parentSlot fun d => { d with nlink := d.nlink + 1 })
                else some (.error .enotdir, m)

/-- `Open` with `O_CREAT`. An existing file is accepted unless `O_EXCL` is set. -/
def openCreat (m : MemMount) (path : AbsolutePath) (excl : Bool) (mode : Nat)
    (hardlink : Option Nat) : Outcome :=
  (m.creat path mode hardlink).bind fun created =>
    match created with
    | (.ok _, m') =>
        (m'.getMemNode path).map fun node =>
          (if node.isSome then .ok () else .error .enoent, m')
    | (.error e, m') =>
        if e ≠ .eexist ∨ excl then some (.error e, m')
        else
          (m'.getNode path).bind fun r =>
            match r with
            | .error e => some (.error e, m')
            | .ok _ =>
                (m'.getMemNode path).map fun node =>
                  (if node.isSome then .ok () else .error .enoent, m')

/-- Directories are counted too. -/
def ref (m : MemMount) (slot : Nat) : MemMount :=
  m.updateDataAt slot fun d => { d with useCount := d.useCount + 1 }

/-- Directories are left alone. -/
def unref (m : MemMount) (slot : Nat) : MemMount :=
  m.updateDataAt slot fun d => if d.isDir then d else { d with useCount := d.useCount - 1 }

/-- The parent of the old node is asserted to be there. A file's new link is made by `Open`, and its
use count is decremented although nothing has incremented it. -/
def link (m : MemMount) (oldpath newpath : AbsolutePath) : Outcome :=
  (m.getMemNode oldpath).bind fun oldnode =>
    match oldnode with
    | none => some (.error .enoent, m)
    | some oldslot =>
        (m.nodeAt oldslot).bind fun node =>
          (m.nodeAt node.parent).bind fun _ =>
            (m.getMemNode newpath).bind fun newnode =>
              match newnode with
              | some _ => some (.error .eexist, m)
              | none =>
                  (m.dataAt oldslot).bind fun d =>
                    let m₁ := m.updateData node.nodedata fun d => { d with hardinode := oldslot }
                    if d.isDir then m₁.mkdir newpath d.mode (some node.nodedata)
                    else
                      (m₁.openCreat newpath false 0o600 (some node.nodedata)).bind fun opened =>
                        (opened.2.getSlot newpath).map fun r =>
                          match r with
                          | .ok slot => (opened.1, opened.2.unref slot)
                          | .error e => (opened.1.mapError fun _ => e, opened.2)

/-- The name that makes an unlinked but open file unreachable. -/
def deletedName : Text := "//some deleted file//".toList

def unlinkInternal (m : MemMount) (inode : Nat) : Outcome :=
  (m.nodeAt inode).bind fun node =>
    (m.getData node.nodedata).bind fun d =>
      if (m.nodeAt node.parent).isNone ∧ d.wantUnlink = false then some (.error .ebusy, m)
      else if d.isDir ∧ d.nlink < 2 then some (.error .eisdir, m)
      else if d.useCount = 0 ∨ d.wantUnlink then
        if (m.nodeAt node.parent).isSome then
          (m.dataAt node.parent).map fun _ =>
            (.ok (), (m.removeChild node.parent inode).free inode)
        else some (.ok (), m.free inode)
      else
        some (.ok (), (m.setName inode deletedName).updateData node.nodedata fun d =>
          { d with wantUnlink := true })

def unlink (m : MemMount) (path : AbsolutePath) : Outcome :=
  (m.getMemNode path).bind fun node =>
    match node with
    | none => some (.error .enoent, m)
    | some slot => m.unlinkInternal slot

/-- The loop of `Rmdir`: whether all children are only waiting to be removed. -/
def onlyUnlinked (m : MemMount) : List Nat → Option Bool
  | [] => some true
  | c :: cs => (m.dataAt c).bind fun d => if d.wantUnlink then onlyUnlinked m cs else some false

def rmdir (m : MemMount) (slot : Nat) : Outcome :=
  match m.nodeAt slot with
  | none => some (.error .enoent, m)
  | some node =>
      (m.getData node.nodedata).bind fun d =>
        if d.isDir then
          (m.onlyUnlinked d.children).bind fun isEmpty =>
            if isEmpty then
              (m.dataAt node.parent).map fun _ =>
                let m₁ := m.updateDataAt node.parent fun d => { d with nlink := d.nlink - 1 }
                let m₂ := m₁.removeChild node.parent slot
                (.ok (), if d.wantUnlink then m₂ else m₂.free slot)
            else some (.error .enotempty, m)
        else some (.error .enotdir, m)

/-- The children `Getdents` shows, by slot and name. -/
def getdentsLoop (m : MemMount) : List Nat → Option (List (Nat × Text))
  | [] => some []
  | c :: cs =>
      (m.nodeAt c).bind fun n =>
        (m.getData n.nodedata).bind fun d =>
          (getdentsLoop m cs).map fun rest => if d.wantUnlink then rest else (c, n.name) :: rest

def getdents (m : MemMount) (slot : Nat) : Option (Except Errno (List (Nat × Text))) :=
  match m.nodeAt slot with
  | none => some (.error .enotdir)
  | some n =>
      (m.getData n.nodedata).bind fun d =>
        if d.isDir then (m.getdentsLoop d.children).map .ok else some (.error .enotdir)

end MemMount

end Zrt.Fs
