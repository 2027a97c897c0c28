import Zrt.Fs.MemRename
import Zrt.Fs.MountRouting
import Zrt.Nvram.Fstab

/-!
# The transparent mount

`stat` makes its path absolute, imports an archive that waits for it, and sends it to the mount that
the path leads to, with the path that this mount expects. `link` does this with both its paths and
refuses to cross mounts. `rename` takes its paths as they are and looks at the mount of the old one
only: it gives both paths to that mount, the new one as another mount may expect it.
-/

namespace Zrt.Fs

open Zrt.Framework Zrt.Nvram

/-- The `Path` class reads a path without a leading slash like one with it. The empty path is refused
before it is read. -/
def AbsolutePath.ofText (text : Text) : Option AbsolutePath :=
  if h : text.head? = some '/' then some ⟨text, h⟩
  else if text = [] then none
  else some (.fromRoot text)

theorem AbsolutePath.ofText_text (p : AbsolutePath) : AbsolutePath.ofText p.text = some p := by
  rw [ofText, dif_pos p.absolute]

namespace MemMount

/-- `Link` to the empty path. Nothing is found there, its parent is the root, and its last component is
a slash; a file that is made there is not found again. -/
def linkEmpty (m : MemMount) (oldpath : AbsolutePath) : Outcome :=
  (m.getMemNode oldpath).bind fun oldnode =>
    match oldnode with
    | none => some (.error .enoent, m)
    | some oldslot =>
        (m.nodeAt oldslot).bind fun node =>
          (m.nodeAt node.parent).bind fun _ =>
            (m.dataAt oldslot).bind fun d =>
              let m₁ := m.updateData node.nodedata fun d => { d with hardinode := oldslot }
              (m₁.dataAt rootSlot).bind fun pd =>
                if pd.isDir then
                  if d.isDir then
                    some (.ok (), (m₁.makeNode rootSlot ['/'] true d.mode
                      (some node.nodedata)).2.updateDataAt rootSlot fun d => { d with nlink := d.nlink + 1 })
                  else some (.error .enoent, (m₁.makeNode rootSlot ['/'] false 0o600 (some node.nodedata)).2)
                else some (.error .enotdir, m₁)

def linkText (m : MemMount) (oldpath newpath : Text) : Outcome :=
  match AbsolutePath.ofText oldpath, AbsolutePath.ofText newpath with
  | none, _ => some (.error .enoent, m)
  | some p, some q => m.link p q
  | some p, none => m.linkEmpty p

/-- Undoing the link to the empty path fails too. -/
def renameText (m : MemMount) (oldpath newpath : Text) : Outcome :=
  match AbsolutePath.ofText oldpath, AbsolutePath.ofText newpath with
  | none, _ => some (.error .enoent, m)
  | some p, some q => m.rename p q
  | some p, none =>
      (m.linkEmpty p).bind fun linked =>
        match linked with
        | (.error e, m₁) => some (.error e, m₁)
        | (.ok _, m₁) =>
            (m₁.unlink p).map fun removed =>
              match removed with
              | (.ok _, m₂) => (.ok (), m₂)
              | (.error _, m₂) => (.error .enoent, m₂)

/-- The data of the node that `GetNode` answers for a path. -/
def fileOf (m : MemMount) (path : Text) : Option Nat :=
  (AbsolutePath.ofText path).bind fun p =>
    match m.getNode p with
    | some (.ok slot) => (m.nodeAt slot).map MemNode.nodedata
    | _ => none

end MemMount

/-- The in-memory mount, or another one by number. -/
inductive MountId where
  | memory
  | other (k : Nat)
deriving DecidableEq

/-- The file systems that are mounted besides: what they resolve, and their own `link` and `rename`,
with whether these return zero. -/
structure FurtherMounts (σ : Type) where
  resolve : Nat → σ → Text → Option Nat
  link : Nat → σ → Text → Text → Bool × σ
  rename : Nat → σ → Text → Text → Bool × σ

/-- After a link both paths lead to one file. A rename moves the file, and does nothing if both paths
lead to it already. -/
structure FurtherMounts.Lawful {σ : Type} (ops : FurtherMounts σ) : Prop where
  link : ∀ k s p q s', ops.link k s p q = (true, s') →
    ∃ f, ops.resolve k s p = some f ∧ ops.resolve k s' q = some f
  rename : ∀ k s p q s', ops.rename k s p q = (true, s') →
    ∃ f, ops.resolve k s p = some f ∧ ops.resolve k s' q = some f ∧
      (ops.resolve k s q ≠ some f → ops.resolve k s' p = none)

structure World (σ : Type) where
  mem : MemMount
  others : Nat → σ
  fstab : FstabObserver

/-- What the transparent mount works with: the library, the table of mounts, the further file systems
and the import of a waiting record by its index. -/
structure TransparentMounts (σ : Type) where
  libc : Libc
  table : MountTable MountId
  ops : FurtherMounts σ
  mountImport : World σ → Nat → Option (World σ)

namespace World

variable {σ : Type} (E : TransparentMounts σ) (w : World σ)

/-- `lazy_mount`: the first record that waits for the path is imported. Builds with FUSE leave this out,
as if no record waited. -/
def lazyMount (path : Text) : Option (World σ) :=
  match handleLocatePostponeMount w.fstab path .waiting with
  | some i => E.mountImport w i
  | none => some w

def tryLazyMountVerifyAbsolutePath (path : Text) : Option (Text × World σ) :=
  (ensurePathIsAbsolute E.libc path).bind fun absPath =>
    (w.lazyMount E absPath).map fun w' => (absPath, w')

def ofMem (r : MemMount.Outcome) : Option (Bool × World σ) :=
  r.map fun r => (r.1.isOk, { w with mem := r.2 })

def ofOther (k : Nat) (r : Bool × σ) : Bool × World σ :=
  (r.1, { w with others := fun i => if i = k then r.2 else w.others i })

def rename : MountId → Text → Text → Option (Bool × World σ)
  | .memory, p, q => w.ofMem (w.mem.renameText p q)
  | .other k, p, q => some (w.ofOther k (E.ops.rename k (w.others k) p q))

def link : MountId → Text → Text → Option (Bool × World σ)
  | .memory, p, q => w.ofMem (w.mem.linkText p q)
  | .other k, p, q => some (w.ofOther k (E.ops.link k (w.others k) p q))

def stat : MountId → Text → Option (MountId × Nat)
  | .memory, p => (w.mem.fileOf p).map fun f => (.memory, f)
  | .other k, p => (E.ops.resolve k (w.others k) p).map fun f => (.other k, f)

/-- A path without a mount is passed on as a null pointer. -/
def transparentRename (oldpath newpath : Text) : Option (Bool × World σ) :=
  match E.table.items.mmMountBypath oldpath with
  | none => some (false, w)
  | some mount =>
      (E.table.items.mmConvertPathToMount oldpath).bind fun p =>
        (E.table.items.mmConvertPathToMount newpath).bind fun q => w.rename E mount p q

def transparentLink (oldpath newpath : Text) : Option (Bool × World σ) :=
  (w.tryLazyMountVerifyAbsolutePath E oldpath).bind fun old =>
    (old.2.tryLazyMountVerifyAbsolutePath E newpath).bind fun new =>
      match E.table.items.mmMountBypath old.1 with
      | none => some (false, new.2)
      | some mount =>
          if E.table.items.mmMountBypath new.1 = some mount then
            (E.table.items.mmConvertPathToMount old.1).bind fun p =>
              (E.table.items.mmConvertPathToMount new.1).bind fun q => new.2.link E mount p q
          else some (false, new.2)

/-- The file at an absolute path, with its mount. -/
def located (absPath : Text) : Option (MountId × Nat) :=
  (E.table.items.mmMountBypath absPath).bind fun mount =>
    (E.table.items.mmConvertPathToMount absPath).bind fun p => w.stat E mount p

def transparentStat (path : Text) : Option (Option (MountId × Nat) × World σ) :=
  (w.tryLazyMountVerifyAbsolutePath E path).map fun x => (x.2.located E x.1, x.2)

/-- The mount that `open` and `stat` send a path to. -/
def routeOf (path : Text) : Option MountId :=
  (ensurePathIsAbsolute E.libc path).bind E.table.items.mmMountBypath

end World

namespace MemMount

variable {m m' : MemMount} {a b p q : AbsolutePath} {id : Nat}

/-- In a sound state `GetNode` finds what the walk finds, if no name is too long. The path may be
spelled in another way. -/
theorem Sound.fileOf_of_memDataOf (h : m.Sound) (hpath : a.path = p.path)
    (hshort : pathTooLong a = false) (hp : m.memDataOf p = some id) : m.fileOf a.text = some id := by
  obtain ⟨s, n, hs, hn, rfl⟩ := memDataOf_eq_some.mp hp
  rw [getSlot, ← hpath, ← getSlot] at hs
  obtain ⟨parent, hparent⟩ := getParentSlot_ok hs
  obtain ⟨d, hd⟩ := h.exists_data (h.getSlot_ok hs).1 hn
  have hstat : m.stat s = some (.ok s) := by simp only [stat, hn, hd, Option.map_some]
  have hnode : m.getNode a = some (.ok s) := by
    simp only [getNode, hshort, Bool.false_eq_true, if_false, hparent, hs, hstat, Option.bind_some]
  rw [fileOf, AbsolutePath.ofText_text, Option.bind_some, hnode]
  simp only [hn, Option.map_some]

private theorem fileOf_of_error {e : Errno} (hpath : a.path = p.path)
    (hp : m.getSlot p = some (.error e)) : m.fileOf a.text = none := by
  rw [getSlot, ← hpath, ← getSlot] at hp
  rw [fileOf, AbsolutePath.ofText_text, Option.bind_some]
  split
  · rename_i slot hnode
    have hs := (getNode_ok hnode).1
    rw [hp] at hs
    cases hs
  · rfl

private theorem Sound.linkText_ok (h : m.Sound) (hshort : pathTooLong p = false)
    (hshort' : pathTooLong q = false) (hlink : m.linkText p.text q.text = some (.ok (), m')) :
    ∃ f, m.fileOf p.text = some f ∧ m'.fileOf q.text = some f := by
  simp only [linkText, AbsolutePath.ofText_text] at hlink
  obtain ⟨sp, n, hmade⟩ := h.link_made hlink
  obtain ⟨new, hseen⟩ := hmade.seen
  obtain ⟨qn, hqn, hqd⟩ := Option.map_eq_some_iff.mp hseen.found.2
  have hold : m.memDataOf p = some n.nodedata :=
    memDataOf_eq_some.mpr ⟨sp, n, h.getMemNode_iff.mp hmade.old, hmade.node, rfl⟩
  have hnew : m'.memDataOf q = some n.nodedata :=
    memDataOf_eq_some.mpr ⟨new, qn, hseen.found.1, hqn, hqd⟩
  exact ⟨n.nodedata, h.fileOf_of_memDataOf rfl hshort hold,
    (link_sound h hlink).fileOf_of_memDataOf rfl hshort' hnew⟩

private theorem renameText_missing (hp : m.getMemNode p = some none) (q : Text) :
    m.renameText p.text q = some (.error .enoent, m) := by
  rw [renameText, AbsolutePath.ofText_text]
  cases AbsolutePath.ofText q with
  | none => simp only [linkEmpty, hp, Option.bind_some]
  | some q' => simp [MemMount.rename, MemMount.link, hp]

/-- A rename that the in-memory mount does as a whole. -/
structure RenamesWhole (m : MemMount) (p q : AbsolutePath) : Prop where
  safe : m.renameSafe p q = true
  listed : ∀ x ∈ m.renameRemovals p q, x.1.keepsListing x.2 = true

/-- After a rename in the in-memory mount `stat` finds the file under the new path only, however the
two paths are spelled for it. -/
private theorem Sound.rename_ok (h : m.Sound) (hwhole : m.RenamesWhole p q) (hpa : a.path = p.path)
    (hqb : b.path = q.path) (hshort : pathTooLong a = false) (hshort' : pathTooLong b = false)
    (hrename : m.rename p q = some (.ok (), m')) :
    ∃ f, m.fileOf a.text = some f ∧ m'.fileOf b.text = some f ∧ m'.fileOf a.text = none := by
  have hall := h.rename_allOrNothing hwhole.safe hwhole.listed hrename
  have hm' : m'.Sound := (rename_evolves hrename hwhole.listed).preserves MemMount.Sound
    (fun _ _ hm hc => change_sound hm hc) h
  obtain ⟨id, hold, hnew⟩ := hall.target
  obtain ⟨e, hgone⟩ := hall.source
  exact ⟨id, h.fileOf_of_memDataOf hpa hshort hold, hm'.fileOf_of_memDataOf hqb hshort' hnew,
    fileOf_of_error hpa hgone⟩

end MemMount

/-! ## Paths as `stat` spells them -/

theorem ensure_of_not_relative (libc : Libc) {path : Text} (h : isRelativePath path = false) :
    ensurePathIsAbsolute libc path = some path := by
  rw [ensurePathIsAbsolute, h, if_neg Bool.false_ne_true]

private theorem components_canonical (path : Text) :
    components (canonical path) = pathCollapse (components path) :=
  components_render (proper_pathCollapse path).name

theorem Proper.collapse {cs : List Text} (h : Proper cs) : pathCollapse cs = cs :=
  pathCollapse_of_no_dots fun c hc => (h c hc).2.2

private theorem pathCollapse_canonical (path : Text) :
    pathCollapse (components (canonical path)) = pathCollapse (components path) := by
  rw [components_canonical, (proper_pathCollapse path).collapse]

private theorem AbsolutePath.path_of_ensure {libc : Libc} (hlibc : libc.Canonical) {a p : AbsolutePath}
    (hfits : isRelativePath p.text = true → p.text.length < pathMax)
    (h : ensurePathIsAbsolute libc p.text = some a.text) : a.path = p.path := by
  rw [AbsolutePath.path, AbsolutePath.path]
  by_cases hrel : isRelativePath p.text = true
  · obtain ⟨front, last, hcut, hlast⟩ := exists_cut p.absolute
    rw [ensurePathIsAbsolute_dotted hlibc p.absolute (hfits hrel)
      ((isRelativePath_iff p.absolute).mp hrel) hcut hlast, Option.some.injEq] at h
    rw [← h]
    split
    · exact pathCollapse_canonical _
    · split
      · rw [components_append, components_nil, List.append_nil]
        exact pathCollapse_canonical _
      · rename_i hdots hnil
        have hname := components_name hnil hlast
        rw [components_append, components_render (proper_pathCollapse front).name, hcut,
          components_append, hname, pathCollapse_snoc, pathCollapse_snoc,
          (proper_pathCollapse front).collapse]
  · rw [ensure_of_not_relative libc (Bool.not_eq_true _ ▸ hrel), Option.some.injEq] at h
    rw [h]

namespace World

open MemMount

variable {σ : Type} {E : TransparentMounts σ} {w w' w₁ w₂ : World σ} {p q a b : AbsolutePath}
  {path : Text} {r : Bool} {mount : MountId}

/-- The in-memory mount is on the root, and nowhere else. -/
def RootInMemory (t : MountTable MountId) : Prop :=
  ∀ m ∈ t.mounts, m.mount = .memory ↔ m.mountPath = ['/']

/-! ## What is promised -/

/-- What `stat` answers at a path. -/
def Resolves (E : TransparentMounts σ) (w : World σ) (path : Text) (f : Option (MountId × Nat)) :
    Prop := ∃ w', w.transparentStat E path = some (f, w')

/-- A rename that returns zero has moved the file, as `stat` sees it; one between mounts fails and
changes nothing. -/
def RenameKept (E : TransparentMounts σ) (w : World σ) (p q : Text) : Prop :=
  ∀ r w', w.transparentRename E p q = some (r, w') →
    (r = true → ∃ f, w.Resolves E p (some f) ∧ w'.Resolves E q (some f) ∧ w'.Resolves E p none) ∧
    (routeOf E p ≠ routeOf E q → r = false ∧ w' = w)

/-- Making the paths absolute overruns no buffer; a link that returns zero has made the file known
under the new path, as `stat` sees it, and one between mounts fails and changes nothing. -/
def LinkKept (E : TransparentMounts σ) (w : World σ) (p q : Text) : Prop :=
  (ensurePathIsAbsolute E.libc p).isSome ∧ (ensurePathIsAbsolute E.libc q).isSome ∧
  ∀ r w', w.transparentLink E p q = some (r, w') →
    (r = true → ∃ f, w.Resolves E p (some f) ∧ w'.Resolves E q (some f)) ∧
    (routeOf E p ≠ routeOf E q → r = false ∧ w' = w)

/-- Only a path with dots is copied into buffers. -/
def FitsBuffers (path : Text) : Prop := isRelativePath path = true → path.length < pathMax

instance (path : Text) : Decidable (FitsBuffers path) := inferInstanceAs (Decidable (_ → _))

/-- No record waits for the path. -/
def Settled (w : World σ) (path : Text) : Prop :=
  handleLocatePostponeMount w.fstab path .waiting = none

/-- `stat` looks for a path that fits its buffers in the mount, under the absolute path `a`, and no
record waits for it. -/
structure StatsIn (E : TransparentMounts σ) (w : World σ) (mount : MountId) (p a : AbsolutePath) :
    Prop where
  fits : FitsBuffers p.text
  absolute : ensurePathIsAbsolute E.libc p.text = some a.text
  mounted : E.table.items.mmMountBypath a.text = some mount
  settled : w.Settled a.text

/-- In the in-memory mount the old path leads nowhere, or `stat` looks for both paths in this mount,
where they are short enough, and the mount reads the new path as `stat` does and renames as a whole.
In another mount `stat` looks for both paths in it, they lead where the given ones lead and do not lead
to one file, or the mount never renames. -/
def RenameRoutable (E : TransparentMounts σ) (w : World σ) (p q : AbsolutePath) : MountId → Prop
  | .memory => w.mem.getMemNode p = some none ∨
      ∃ a b q' : AbsolutePath, w.StatsIn E .memory p a ∧ w.StatsIn E .memory q b ∧
        pathTooLong a = false ∧ pathTooLong b = false ∧
        (E.table.items.mmConvertPathToMount q.text).bind AbsolutePath.ofText = some q' ∧
        q'.path = q.path ∧ w.mem.RenamesWhole p q'
  | .other k =>
      (∃ (a b : AbsolutePath) (p₁ q₁ a₁ b₁ : Text), w.StatsIn E (.other k) p a ∧
        w.StatsIn E (.other k) q b ∧ E.table.items.mmConvertPathToMount p.text = some p₁ ∧
        E.table.items.mmConvertPathToMount q.text = some q₁ ∧
        E.table.items.mmConvertPathToMount a.text = some a₁ ∧
        E.table.items.mmConvertPathToMount b.text = some b₁ ∧
        (∀ s, E.ops.resolve k s a₁ = E.ops.resolve k s p₁) ∧
        (∀ s, E.ops.resolve k s b₁ = E.ops.resolve k s q₁) ∧
        E.ops.resolve k (w.others k) q₁ ≠ E.ops.resolve k (w.others k) p₁) ∨
      ∀ s p' q', E.ops.rename k s p' q' = (false, s)

/-- The mount of the old path can do it. -/
def RenameSafe (E : TransparentMounts σ) (w : World σ) (p q : AbsolutePath) : Prop :=
  ∀ mount, E.table.items.mmMountBypath p.text = some mount → w.RenameRoutable E p q mount

/-- The paths fit the buffers. Between mounts no record waits for either path. Within a mount, what is
imported for the paths leaves no further record for the new path, does not change where the old one
leads and, in the in-memory mount, keeps the tree sound; and the absolute paths are short enough for
`stat` there. -/
def LinkSafe (E : TransparentMounts σ) (w : World σ) (p q : Text) : Prop :=
  FitsBuffers p ∧ FitsBuffers q ∧ ∀ a b,
    ensurePathIsAbsolute E.libc p = some a → ensurePathIsAbsolute E.libc q = some b →
    if E.table.items.mmMountBypath a = E.table.items.mmMountBypath b then
      ∀ w₁ w₂, w.lazyMount E a = some w₁ → w₁.lazyMount E b = some w₂ →
        w₂.Settled b ∧ w₁.located E a = w₂.located E a ∧
          (E.table.items.mmMountBypath a = some .memory → (w.mem.Sound → w₂.mem.Sound) ∧
            ∀ a' b' : AbsolutePath, a'.text = a → b'.text = b →
              pathTooLong a' = false ∧ pathTooLong b' = false)
    else w.Settled a ∧ w.Settled b

/-! ## The mount of a path -/

section Mounts

variable {t : MountTable MountId}

private theorem exists_mount (t : MountTable MountId) (path : AbsolutePath) :
    ∃ mount rest, t.items.mmMountBypath path.text = some mount ∧
      t.items.mmConvertPathToMount path.text = some rest := by
  obtain ⟨l, hl, -⟩ := t.exists_located path.absolute
  have hmount : t.items.mmMountBypath path.text = some l.2.mount := by
    rw [MountItems.mmMountBypath, hl, Option.map_some]
  obtain ⟨rest, hrest⟩ : ∃ rest, t.items.mmConvertPathToMount path.text = some rest := by
    rw [MountItems.mmConvertPathToMount, hl, Option.map_some]
    exact ⟨_, rfl⟩
  exact ⟨l.2.mount, rest, hmount, hrest⟩

private theorem exists_absolutePath (h : t.items.mmMountBypath path = some mount) :
    ∃ p : AbsolutePath, p.text = path := by
  obtain ⟨l, hl, -⟩ := Option.map_eq_some_iff.mp h
  have hlocated := MountItems.mmMountinfoBypath_located t.items path
  rw [hl] at hlocated
  have habs := (t.normalized l.2 (MountTable.mem_items.mp (List.mem_of_getElem? hlocated.entry))).1
  obtain ⟨rest, hrest⟩ := hlocated.starts
  refine ⟨⟨path, ?_⟩, rfl⟩
  rw [← hrest, List.head?_append, habs]
  rfl

theorem RootInMemory.convert (h : RootInMemory t)
    (hmount : t.items.mmMountBypath a.text = some .memory) :
    t.items.mmConvertPathToMount a.text = some a.text := by
  obtain ⟨l, hl, hmem, -⟩ := t.exists_located a.absolute
  rw [MountItems.mmMountBypath, hl, Option.map_some] at hmount
  have hroot := (h l.2 hmem).mp (Option.some.inj hmount)
  rw [MountItems.mmConvertPathToMount, hl, Option.map_some, if_pos hroot, ite_self]

end Mounts

theorem located_memory (h : RootInMemory E.table)
    (hmount : E.table.items.mmMountBypath a.text = some .memory) :
    w.located E a.text = (w.mem.fileOf a.text).map fun f => (.memory, f) := by
  simp only [located, hmount, h.convert hmount, Option.bind_some, stat]

theorem located_other {rest : Text} {k : Nat}
    (hmount : E.table.items.mmMountBypath path = some (.other k))
    (hrest : E.table.items.mmConvertPathToMount path = some rest) :
    w.located E path = (E.ops.resolve k (w.others k) rest).map fun f => (.other k, f) := by
  simp only [located, hmount, hrest, Option.bind_some, stat]

theorem lazyMount_settled (h : w.Settled path) : w.lazyMount E path = some w := by
  rw [lazyMount, h]

theorem resolves_of_lazyMount {absPath : Text} (hens : ensurePathIsAbsolute E.libc path = some absPath)
    (hlazy : w.lazyMount E absPath = some w₁) : w.Resolves E path (w₁.located E absPath) :=
  ⟨w₁, by rw [transparentStat, tryLazyMountVerifyAbsolutePath, hens, Option.bind_some, hlazy]; rfl⟩

theorem resolves_of_settled {absPath : Text} (hens : ensurePathIsAbsolute E.libc path = some absPath)
    (h : w.Settled absPath) : w.Resolves E path (w.located E absPath) :=
  resolves_of_lazyMount hens (lazyMount_settled h)

theorem routeOf_eq {absPath : Text} (hens : ensurePathIsAbsolute E.libc path = some absPath) :
    routeOf E path = E.table.items.mmMountBypath absPath := by
  rw [routeOf, hens, Option.bind_some]

theorem StatsIn.routeOf_eq (h : w.StatsIn E mount p a) : routeOf E p.text = some mount := by
  rw [World.routeOf_eq h.absolute, h.mounted]

theorem ofMem_eq_some {x : MemMount.Outcome} (hcall : w.ofMem x = some (true, w')) :
    ∃ m', x = some (.ok (), m') ∧ w' = { w with mem := m' } := by
  obtain ⟨⟨r, m'⟩, hx, heq⟩ := Option.map_eq_some_iff.mp hcall
  cases r with
  | error e => cases heq
  | ok u =>
      cases heq
      exact ⟨m', hx, rfl⟩

private theorem ofOther_same (w : World σ) (k : Nat) (r : Bool) : w.ofOther k (r, w.others k) = (r, w) := by
  rw [ofOther]
  congr 2
  funext i
  split
  · rename_i hi
    rw [hi]
  · rfl

/-! ## Links -/

private theorem link_memory (h : w.mem.Sound) (hroot : RootInMemory E.table)
    (hshort : pathTooLong a = false) (hshort' : pathTooLong b = false)
    (ha : E.table.items.mmMountBypath a.text = some .memory)
    (hb : E.table.items.mmMountBypath b.text = some .memory) {a₁ b₁ : Text}
    (ha₁ : E.table.items.mmConvertPathToMount a.text = some a₁)
    (hb₁ : E.table.items.mmConvertPathToMount b.text = some b₁)
    (hcall : w.link E .memory a₁ b₁ = some (true, w')) :
    w'.fstab = w.fstab ∧ ∃ f, w.located E a.text = some f ∧ w'.located E b.text = some f := by
  rw [hroot.convert ha] at ha₁
  rw [hroot.convert hb] at hb₁
  cases ha₁
  cases hb₁
  obtain ⟨m', hlink, rfl⟩ := ofMem_eq_some hcall
  obtain ⟨f, hold, hnew⟩ := h.linkText_ok hshort hshort' hlink
  refine ⟨rfl, (.memory, f), ?_, ?_⟩
  · rw [located_memory hroot ha, hold, Option.map_some]
  · rw [located_memory hroot hb, hnew, Option.map_some]

private theorem link_other (hops : E.ops.Lawful) {a₁ b₁ absPath absPath' : Text} {k : Nat}
    (ha : E.table.items.mmMountBypath absPath = some (.other k))
    (hb : E.table.items.mmMountBypath absPath' = some (.other k))
    (ha₁ : E.table.items.mmConvertPathToMount absPath = some a₁)
    (hb₁ : E.table.items.mmConvertPathToMount absPath' = some b₁)
    (hcall : w.link E (.other k) a₁ b₁ = some (true, w')) :
    w'.fstab = w.fstab ∧ ∃ f, w.located E absPath = some f ∧ w'.located E absPath' = some f := by
  simp only [World.link, ofOther, Option.some.injEq, Prod.mk.injEq] at hcall
  obtain ⟨hr, rfl⟩ := hcall
  obtain ⟨f, hf, hf'⟩ := hops.link k (w.others k) a₁ b₁ _ (Prod.ext hr rfl)
  refine ⟨rfl, (.other k, f), ?_, ?_⟩
  · rw [located_other ha ha₁, hf, Option.map_some]
  · rw [located_other hb hb₁]
    simp only [if_true, hf', Option.map_some]

private theorem FitsBuffers.ensure_isSome (hlibc : E.libc.Canonical) (h : FitsBuffers p.text) :
    (ensurePathIsAbsolute E.libc p.text).isSome := by
  by_cases hrel : isRelativePath p.text = true
  · obtain ⟨a, ha, -⟩ := exists_ensurePathIsAbsolute hlibc p.absolute (h hrel)
    rw [ha]
    rfl
  · rw [ensure_of_not_relative _ (Bool.not_eq_true _ ▸ hrel)]
    rfl

private theorem linkKept_of_sound (hlibc : E.libc.Canonical) (h : w.mem.Sound) (hops : E.ops.Lawful)
    (hroot : RootInMemory E.table) (hsafe : w.LinkSafe E p.text q.text) :
    w.LinkKept E p.text q.text := by
  obtain ⟨hfits, hfits', hsafe⟩ := hsafe
  refine ⟨hfits.ensure_isSome hlibc, hfits'.ensure_isSome hlibc, ?_⟩
  intro r w' hcall
  obtain ⟨⟨a, w₁⟩, hold, hcall⟩ := Option.bind_eq_some_iff.mp hcall
  obtain ⟨⟨b, w₂⟩, hnew, hcall⟩ := Option.bind_eq_some_iff.mp hcall
  obtain ⟨a', ha, hold⟩ := Option.bind_eq_some_iff.mp hold
  obtain ⟨w₁', hlazy, hpair⟩ := Option.map_eq_some_iff.mp hold
  cases hpair
  obtain ⟨b', hb, hnew⟩ := Option.bind_eq_some_iff.mp hnew
  obtain ⟨w₂', hlazy', hpair⟩ := Option.map_eq_some_iff.mp hnew
  cases hpair
  have hsafe := hsafe a b ha hb
  rw [routeOf_eq ha, routeOf_eq hb]
  simp only at hcall hlazy'
  by_cases hsame : E.table.items.mmMountBypath a = E.table.items.mmMountBypath b
  · rw [if_pos hsame] at hsafe
    obtain ⟨hsettled, hwhere, hmemory⟩ := hsafe w₁ w₂ hlazy hlazy'
    refine ⟨?_, fun hne => absurd hsame hne⟩
    rintro rfl
    cases hmount : E.table.items.mmMountBypath a with
    | none =>
        simp only [hmount] at hcall
        cases hcall
    | some mount =>
        have hmount' : E.table.items.mmMountBypath b = some mount := hsame.symm.trans hmount
        simp only [hmount] at hcall
        rw [if_pos hmount'] at hcall
        obtain ⟨a₁, ha₁, hconverted⟩ := Option.bind_eq_some_iff.mp hcall
        obtain ⟨b₁, hb₁, hlink⟩ := Option.bind_eq_some_iff.mp hconverted
        have hlinked : w'.fstab = w₂.fstab ∧
            ∃ f, w₂.located E a = some f ∧ w'.located E b = some f := by
          cases mount with
          | memory =>
              obtain ⟨hsound, hshort⟩ := hmemory hmount
              obtain ⟨a', rfl⟩ := exists_absolutePath hmount
              obtain ⟨b', rfl⟩ := exists_absolutePath hmount'
              obtain ⟨hshort, hshort'⟩ := hshort a' b' rfl rfl
              exact link_memory (hsound h) hroot hshort hshort' hmount hmount' ha₁ hb₁ hlink
          | other k => exact link_other hops hmount hmount' ha₁ hb₁ hlink
        obtain ⟨hfstab, f, hf, hf'⟩ := hlinked
        have hsettled' : w'.Settled b := by
          rw [Settled, hfstab]
          exact hsettled
        have hbefore := resolves_of_lazyMount ha hlazy
        have hafter := resolves_of_settled hb hsettled'
        rw [hwhere, hf] at hbefore
        rw [hf'] at hafter
        exact ⟨f, hbefore, hafter⟩
  · rw [if_neg hsame] at hsafe
    rw [lazyMount_settled hsafe.1, Option.some.injEq] at hlazy
    subst hlazy
    rw [lazyMount_settled hsafe.2, Option.some.injEq] at hlazy'
    subst hlazy'
    have hfails : (r, w') = (false, w) := by
      cases hmount : E.table.items.mmMountBypath a with
      | none =>
          simp only [hmount, Option.some.injEq] at hcall
          exact hcall.symm
      | some mount =>
          have hother : E.table.items.mmMountBypath b ≠ some mount := fun hb =>
            hsame (hmount.trans hb.symm)
          simp only [hmount] at hcall
          rw [if_neg hother, Option.some.injEq] at hcall
          exact hcall.symm
    cases hfails
    exact ⟨fun hr => (Bool.false_ne_true hr).elim, fun _ => ⟨rfl, rfl⟩⟩

/-! ## Renames -/

private theorem renameKept_memory (hlibc : E.libc.Canonical) (h : w.mem.Sound)
    (hroot : RootInMemory E.table) (hcan : w.RenameRoutable E p q .memory) {q₁ : Text}
    (hq₁ : E.table.items.mmConvertPathToMount q.text = some q₁)
    (hcall : w.rename E .memory p.text q₁ = some (r, w')) :
    (r = true → ∃ f, w.Resolves E p.text (some f) ∧ w'.Resolves E q.text (some f) ∧
      w'.Resolves E p.text none) ∧
    (routeOf E p.text ≠ routeOf E q.text → r = false ∧ w' = w) := by
  rcases hcan with hmissing | ⟨a, b, q', ha, hb, hshort, hshort', hread, hpath, hwhole⟩
  · simp only [World.rename, renameText_missing hmissing] at hcall
    cases hcall
    exact ⟨fun hr => (Bool.false_ne_true hr).elim, fun _ => ⟨rfl, rfl⟩⟩
  · refine ⟨?_, fun hne => absurd (ha.routeOf_eq.trans hb.routeOf_eq.symm) hne⟩
    rintro rfl
    obtain ⟨m', hrename, rfl⟩ := ofMem_eq_some hcall
    rw [hq₁, Option.bind_some] at hread
    rw [renameText, AbsolutePath.ofText_text, hread] at hrename
    have hpa := AbsolutePath.path_of_ensure hlibc ha.fits ha.absolute
    have hqb := (AbsolutePath.path_of_ensure hlibc hb.fits hb.absolute).trans hpath.symm
    obtain ⟨f, hold, hnew, hgone⟩ := h.rename_ok hwhole hpa hqb hshort hshort' hrename
    have hbefore := resolves_of_settled ha.absolute ha.settled
    have hafter := resolves_of_settled (w := { w with mem := m' }) hb.absolute hb.settled
    have hafter' := resolves_of_settled (w := { w with mem := m' }) ha.absolute ha.settled
    rw [located_memory hroot ha.mounted, hold] at hbefore
    rw [located_memory hroot hb.mounted, hnew] at hafter
    rw [located_memory hroot ha.mounted, hgone] at hafter'
    exact ⟨_, hbefore, hafter, hafter'⟩

private theorem renameKept_other (hops : E.ops.Lawful) {k : Nat} {p₁ q₁ : Text}
    (hcan : w.RenameRoutable E p q (.other k))
    (hp₁ : E.table.items.mmConvertPathToMount p.text = some p₁)
    (hq₁ : E.table.items.mmConvertPathToMount q.text = some q₁)
    (hcall : w.rename E (.other k) p₁ q₁ = some (r, w')) :
    (r = true → ∃ f, w.Resolves E p.text (some f) ∧ w'.Resolves E q.text (some f) ∧
      w'.Resolves E p.text none) ∧
    (routeOf E p.text ≠ routeOf E q.text → r = false ∧ w' = w) := by
  rcases hcan with ⟨a, b, p₂, q₂, a₁, b₁, ha, hb, hp₂, hq₂, ha₁, hb₁, hpa, hqb, hdiffer⟩ | hnever
  · refine ⟨fun hr => ?_, fun hne => absurd (ha.routeOf_eq.trans hb.routeOf_eq.symm) hne⟩
    rw [hp₁, Option.some.injEq] at hp₂
    rw [hq₁, Option.some.injEq] at hq₂
    subst hp₂
    subst hq₂
    simp only [World.rename, ofOther, Option.some.injEq, Prod.mk.injEq] at hcall
    obtain ⟨hzero, rfl⟩ := hcall
    obtain ⟨f, hf, hf', hgone⟩ := hops.rename k (w.others k) p₁ q₁ _ (Prod.ext (hzero.trans hr) rfl)
    rw [hf] at hdiffer
    have hbefore := resolves_of_settled ha.absolute ha.settled
    rw [located_other ha.mounted ha₁, hpa, hf] at hbefore
    refine ⟨_, hbefore, ?_, ?_⟩
    · have hafter := resolves_of_settled (w := (w.ofOther k (E.ops.rename k (w.others k) p₁ q₁)).2)
        hb.absolute hb.settled
      rw [located_other hb.mounted hb₁, hqb] at hafter
      simpa only [ofOther, if_true, hf', Option.map_some] using hafter
    · have hafter := resolves_of_settled (w := (w.ofOther k (E.ops.rename k (w.others k) p₁ q₁)).2)
        ha.absolute ha.settled
      rw [located_other ha.mounted ha₁, hpa] at hafter
      simpa only [ofOther, if_true, hgone hdiffer, Option.map_none] using hafter
  · simp only [World.rename, hnever (w.others k) p₁ q₁, ofOther_same] at hcall
    cases hcall
    exact ⟨fun hr => (Bool.false_ne_true hr).elim, fun _ => ⟨rfl, rfl⟩⟩

private theorem renameKept_of_sound (hlibc : E.libc.Canonical) (h : w.mem.Sound) (hops : E.ops.Lawful)
    (hroot : RootInMemory E.table) (hsafe : w.RenameSafe E p q) : w.RenameKept E p.text q.text := by
  obtain ⟨mount, p₁, hp, hp₁⟩ := exists_mount E.table p
  obtain ⟨mount', q₁, hq, hq₁⟩ := exists_mount E.table q
  have hcan := hsafe mount hp
  intro r w' hcall
  simp only [transparentRename, hp, hp₁, hq₁, Option.bind_some] at hcall
  cases mount with
  | memory =>
      rw [hroot.convert hp] at hp₁
      cases hp₁
      exact renameKept_memory hlibc h hroot hcan hq₁ hcall
  | other k => exact renameKept_other hops hcan hp₁ hq₁ hcall

/-- The channels on `/dev`, the in-memory mount on the root. -/
def standardMounts : MountTable MountId where
  mounts := [⟨"/dev".toList, true, .other 0⟩, ⟨"/".toList, false, .memory⟩]
  distinct := by decide
  normalized := by decide
  root := by decide

/-- The channels mount renames and links nothing. -/
def channelsOnly : FurtherMounts Unit := ⟨fun _ _ _ => none, fun _ s _ _ => (false, s), fun _ s _ _ => (false, s)⟩

private theorem lawful_channelsOnly : channelsOnly.Lawful where
  link := by
    intro k s p q s' h
    cases h
  rename := by
    intro k s p q s' h
    cases h

/-- Archives are empty: an import only notes that it is complete. -/
def emptyArchives : TransparentMounts Unit where
  libc := MountTable.plainLibc
  table := standardMounts
  ops := channelsOnly
  mountImport w i := some { w with fstab := w.fstab.setStatus i .complete }

/-- A record that waits below `/mnt`. -/
def waitingRecord : FstabObserver where
  postponeMountsArray :=
    [⟨⟨"/dev/image".toList, "/mnt".toList, accessRead, removableNo, fsnameDefault⟩, .waiting⟩]
  updatedFstabRecords := false
  interfacesSet := true
  trace := []

/-- A file in the root, and the directory that stands for the channels. -/
def devAndFileCalls : List FsCall :=
  [.mkdir (.fromRoot "dev".toList) 0o777,
    .memOpen (.fromRoot "f".toList) { creat := true, rdwr := true } 0o600, .close 0]

private theorem eq_of_text {p q : AbsolutePath} (h : p.text = q.text) : p = q := by
  cases p
  cases q
  cases h
  rfl

end World

end Zrt.Fs
