import Zrt.Framework.Refinement
import Zrt.Fs.NameSpace

/-!
# Calls of the in-memory mount as operations on names

Every call answers as an operation on the graph of names does and leaves the graph that the operation
leaves. Left open are which opens are refused, the answers of `close`, `dup` and `dup2`, and whether
unlinking a directory is refused or done. Slots, counters, marks and the descriptors that keep an
unlinked file alive are not seen in the graph.
-/

namespace Zrt.Fs

open Zrt.Framework

namespace NameSpace

/-! ## Operations on names -/

/-- `target` is the object that a new link is for. -/
def creat (g : NameSpace) (path : AbsolutePath) (target : Option Nat) :
    Except Errno Unit × NameSpace :=
  match g.find path.dotdot with
  | .error _ => (.error .enoent, g)
  | .ok dir =>
      if g.names.isDir dir then
        match g.find path with
        | .ok _ => (.error .eexist, g)
        | .error _ => (.ok (), g.add dir path.last false target)
      else (.error .enotdir, g)

def mkdir (g : NameSpace) (path : AbsolutePath) (target : Option Nat) :
    Except Errno Unit × NameSpace :=
  match g.find path with
  | .ok _ => (.error .eexist, g)
  | .error _ =>
      match g.find path.dotdot with
      | .error _ => (.error .enoent, g)
      | .ok dir =>
          if g.names.isDir dir then
            if nameMax < path.last.length then (.error .enametoolong, g)
            else (.ok (), g.add dir path.last true target)
          else (.error .enotdir, g)

def getNode (g : NameSpace) (path : AbsolutePath) : Except Errno Nat :=
  if MemMount.pathTooLong path then .error .enametoolong
  else
    match g.find path.dotdot with
    | .error _ => .error .enotdir
    | .ok _ => (g.find path).mapError errnoOf

def memMkdir (g : NameSpace) (path : AbsolutePath) : Except Errno Unit × NameSpace :=
  match g.getNode path with
  | .ok _ => g.mkdir path none
  | .error e => if e = .enoent then g.mkdir path none else (.error e, g)

def link (g : NameSpace) (oldpath newpath : AbsolutePath) : Except Errno Unit × NameSpace :=
  match g.find oldpath with
  | .error _ => (.error .enoent, g)
  | .ok o =>
      match g.find newpath with
      | .ok _ => (.error .eexist, g)
      | .error e =>
          if g.names.isDir o then g.mkdir newpath (some o)
          else
            match g.creat newpath (some o) with
            | (.ok _, g') => (.ok (), g')
            | (.error _, _) => (.error (errnoOf e), g)

inductive Unlinks (g : NameSpace) (path : AbsolutePath) : Except Errno Unit → NameSpace → Prop
  | missing {e : NoSuch} (h : g.find path = .error e) : Unlinks g path (.error .enoent) g
  | refused {o : Nat} (h : g.find path = .ok o) (hdir : g.names.isDir o = true) :
      Unlinks g path (.error .eisdir) g
  | removed {dir o : Nat} (hparent : g.find path.dotdot = .ok dir) (h : g.find path = .ok o)
      (hne : path.path ≠ []) : Unlinks g path (.ok ()) (g.remove dir path.last)

/-- Only a directory that names nothing is removed. -/
inductive Rmdirs (g : NameSpace) (path : AbsolutePath) : Except Errno Unit → NameSpace → Prop
  | missing {e : Errno} (h : g.getNode path = .error e) : Rmdirs g path (.error e) g
  | dot {o : Nat} (h : g.getNode path = .ok o) (hdot : nameFromPath path.text = some ['.']) :
      Rmdirs g path (.error .einval) g
  | file {o : Nat} (h : g.getNode path = .ok o) (hdir : g.names.isDir o = false) :
      Rmdirs g path (.error .enotdir) g
  | used {o t : Nat} {name : Text} (h : g.getNode path = .ok o)
      (hname : g.names.look o name = .ok t) : Rmdirs g path (.error .enotempty) g
  | removed {dir o : Nat} (hparent : g.find path.dotdot = .ok dir) (h : g.getNode path = .ok o)
      (hne : path.path ≠ [])
      (hempty : ∀ name, '/' ∉ name → g.names.look o name = .error .missing) :
      Rmdirs g path (.ok ()) (g.remove dir path.last)

/-- The old name goes, or else the new one again. -/
inductive RenameUnlinks (g : NameSpace) (oldpath newpath : AbsolutePath) :
    Except Errno Unit → NameSpace → Prop
  | done {g' : NameSpace} (h : Unlinks g oldpath (.ok ()) g') :
      RenameUnlinks g oldpath newpath (.ok ()) g'
  | undone {e : Errno} {g' : NameSpace} (h : Unlinks g oldpath (.error e) g)
      (hundo : Unlinks g newpath (.ok ()) g') : RenameUnlinks g oldpath newpath (.error e) g'
  | stuck {e e' : Errno} (h : Unlinks g oldpath (.error e) g)
      (hundo : Unlinks g newpath (.error e') g) : RenameUnlinks g oldpath newpath (.error e') g

/-- One more link, and the old name goes. What is at the new path goes before. -/
inductive Renames (g : NameSpace) (oldpath newpath : AbsolutePath) :
    Except Errno Unit → NameSpace → Prop
  | moved {r : Except Errno Unit} {g' : NameSpace} (h : (g.link oldpath newpath).1 = .ok ())
      (hold : RenameUnlinks (g.link oldpath newpath).2 oldpath newpath r g') :
      Renames g oldpath newpath r g'
  | refused {e : Errno} (h : (g.link oldpath newpath).1 = .error e) (he : e ≠ .eexist) :
      Renames g oldpath newpath (.error e) (g.link oldpath newpath).2
  | kept {e : Errno} {g' : NameSpace} (h : (g.link oldpath newpath).1 = .error .eexist)
      (hnew : Unlinks (g.link oldpath newpath).2 newpath (.error e) g') :
      Renames g oldpath newpath (.error e) g'
  | lost {e : Errno} {g₁ : NameSpace} (h : (g.link oldpath newpath).1 = .error .eexist)
      (hnew : Unlinks (g.link oldpath newpath).2 newpath (.ok ()) g₁)
      (hlink : (g₁.link oldpath newpath).1 = .error e) :
      Renames g oldpath newpath (.error e) (g₁.link oldpath newpath).2
  | replaced {r : Except Errno Unit} {g₁ g' : NameSpace}
      (h : (g.link oldpath newpath).1 = .error .eexist)
      (hnew : Unlinks (g.link oldpath newpath).2 newpath (.ok ()) g₁)
      (hlink : (g₁.link oldpath newpath).1 = .ok ())
      (hold : RenameUnlinks (g₁.link oldpath newpath).2 oldpath newpath r g') :
      Renames g oldpath newpath r g'

/-- Opening makes a file where `O_CREAT` asks for it, and answers a descriptor only for what is there:
not for a directory to be written, and with `O_EXCL` not for what was there before. -/
structure Opens (g : NameSpace) (path : AbsolutePath) (flags : OpenFlags) (r : Except Errno Nat)
    (g' : NameSpace) : Prop where
  names : g' = if flags.creat then (g.creat path none).2 else g
  found : ∀ fd, r = .ok fd → ∃ o, g'.getNode path = .ok o ∧
    (g'.names.isDir o = true → ¬ (flags.trunc ∨ flags.wronly ∨ flags.rdwr))
  fresh : flags.creat → flags.excl → ∀ fd, r = .ok fd → (g.creat path none).1 = .ok ()

private theorem opens_refused {g g' : NameSpace} {path : AbsolutePath} {flags : OpenFlags} {e : Errno}
    (h : g' = if flags.creat then (g.creat path none).2 else g) :
    Opens g path flags (.error e) g' where
  names := h
  found fd hr := by cases hr
  fresh _ _ fd hr := by cases hr

/-- What a call answers and does to the names. -/
def Does (g : NameSpace) : FsCall → Except Errno Nat → NameSpace → Prop
  | .memOpen path flags _, r, g' => Opens g path flags r g'
  | .mkdir path _, r, g' => r = (g.memMkdir path).1.map (fun _ => 0) ∧ g' = (g.memMkdir path).2
  | .rmdir path, r, g' => ∃ x, Rmdirs g path x g' ∧ r = x.map fun _ => 0
  | .link oldpath newpath, r, g' =>
      r = (g.link oldpath newpath).1.map (fun _ => 0) ∧ g' = (g.link oldpath newpath).2
  | .unlink path, r, g' => ∃ x, Unlinks g path x g' ∧ r = x.map fun _ => 0
  | .rename oldpath newpath, r, g' => ∃ x, Renames g oldpath newpath x g' ∧ r = x.map fun _ => 0
  | _, _, g' => g' = g

end NameSpace

open NameSpace

namespace MemMount

variable {m m' : MemMount} {g : NameSpace} {path : AbsolutePath} {r : Except Errno Unit}

/-! ## Making entries -/

theorem Shows.creat (h : Shows m g) (hm : m.Sound) {mode : Nat} {target : Option Nat}
    (hshared : m.SharedData false target) (hcall : m.creat path mode target = some (r, m')) :
    r = (g.creat path target).1 ∧ Shows m' (g.creat path target).2 := by
  obtain ⟨parent, hparent, hcall⟩ := Option.bind_eq_some_iff.mp hcall
  unfold NameSpace.creat
  rcases h.getMemNode path.dotdot with ⟨p, pn, -, hp, hp0, hpn, hpvis, hpfind⟩ | ⟨e, -, hp, hpfind⟩
  · rw [getParentSlot, hp] at hparent
    cases hparent
    simp only [hpn] at hcall
    obtain ⟨pd, hpd, hcall⟩ := Option.bind_eq_some_iff.mp hcall
    have hkind := h.kind p pn pd hp0 hpn hpvis hpd
    rw [hpfind]
    simp only [hkind]
    split at hcall
    · rename_i hdir
      rw [if_pos hdir]
      obtain ⟨child, hchild, hcall⟩ := Option.bind_eq_some_iff.mp hcall
      rcases h.getMemNode path with ⟨s, n, hmem, -, -, -, -, hfind⟩ | ⟨e, hmem, -, hfind⟩
      · rw [hmem] at hchild
        cases hchild
        cases hcall
        rw [hfind]
        exact ⟨rfl, h⟩
      · rw [hmem] at hchild
        cases hchild
        cases hcall
        rw [hfind]
        obtain ⟨hmissing, hne⟩ := findChild_of_getMemNode_none hp hpn hpd hdir hmem
        have he : m.Enterable p path.last false target pn pd :=
          ⟨hpn, hpd, hdir, hmissing, AbsolutePath.slash_not_mem_last hne, hshared⟩
        exact ⟨rfl, h.enterNode hm hp0 hpvis he⟩
    · rename_i hdir
      cases hcall
      rw [if_neg hdir]
      exact ⟨rfl, h⟩
  · rw [getParentSlot, hp] at hparent
    cases hparent
    cases hcall
    rw [hpfind]
    exact ⟨rfl, h⟩

theorem Shows.mkdir (h : Shows m g) (hm : m.Sound) {mode : Nat} {target : Option Nat}
    (hshared : m.SharedData true target) (hcall : m.mkdir path mode target = some (r, m')) :
    r = (g.mkdir path target).1 ∧ Shows m' (g.mkdir path target).2 := by
  obtain ⟨child, hchild, hcall⟩ := Option.bind_eq_some_iff.mp hcall
  unfold NameSpace.mkdir
  rcases h.getMemNode path with ⟨s, n, hmem, -, -, -, -, hfind⟩ | ⟨e, hmem, -, hfind⟩
  · rw [hmem] at hchild
    cases hchild
    cases hcall
    rw [hfind]
    exact ⟨rfl, h⟩
  · rw [hmem] at hchild
    cases hchild
    obtain ⟨parent, hparent, hcall⟩ := Option.bind_eq_some_iff.mp hcall
    rw [hfind]
    rcases h.getMemNode path.dotdot with ⟨p, pn, -, hp, hp0, hpn, hpvis, hpfind⟩ | ⟨e, -, hp, hpfind⟩
    · rw [getParentSlot, hp] at hparent
      cases hparent
      obtain ⟨pd, hpd, hcall⟩ := Option.bind_eq_some_iff.mp hcall
      rw [dataAt_of hpn] at hpd
      have hkind := h.kind p pn pd hp0 hpn hpvis hpd
      rw [hpfind]
      simp only [hkind]
      split at hcall
      · rename_i hdir
        rw [if_pos hdir]
        split at hcall
        · rename_i hlong
          cases hcall
          rw [if_pos hlong]
          exact ⟨rfl, h⟩
        · rename_i hlong
          cases hcall
          rw [if_neg hlong]
          obtain ⟨hmissing, hne⟩ := findChild_of_getMemNode_none hp hpn hpd hdir hmem
          have he : m.Enterable p path.last true target pn pd :=
            ⟨hpn, hpd, hdir, hmissing, AbsolutePath.slash_not_mem_last hne, hshared⟩
          exact ⟨rfl, h.enterNode hm hp0 hpvis he⟩
      · rename_i hdir
        cases hcall
        rw [if_neg hdir]
        exact ⟨rfl, h⟩
    · rw [getParentSlot, hp] at hparent
      cases hparent
      cases hcall
      rw [hpfind]
      exact ⟨rfl, h⟩

theorem Shows.getNode (h : Shows m g) {x : Except Errno Nat} (hcall : m.getNode path = some x) :
    (∃ s n, x = .ok s ∧ m.getSlot path = some (.ok s) ∧ s ≠ 0 ∧ m.nodeAt s = some n ∧ Visible s n ∧
      g.find path = .ok n.nodedata ∧ g.getNode path = .ok n.nodedata) ∨
    ∃ e, x = .error e ∧ g.getNode path = .error e := by
  unfold MemMount.getNode at hcall
  unfold NameSpace.getNode
  split at hcall
  · rename_i hlong
    cases hcall
    exact Or.inr ⟨_, rfl, by rw [if_pos hlong]⟩
  · rename_i hlong
    rw [if_neg hlong]
    obtain ⟨parent, hparent, hcall⟩ := Option.bind_eq_some_iff.mp hcall
    rcases h.getMemNode path.dotdot with ⟨p, pn, -, hp, -, -, -, hpfind⟩ | ⟨e, -, hp, hpfind⟩
    · rw [getParentSlot, hp] at hparent
      cases hparent
      obtain ⟨found, hfound, hcall⟩ := Option.bind_eq_some_iff.mp hcall
      rw [hpfind]
      rcases h.getMemNode path with ⟨s, n, -, hs, hs0, hn, hvis, hfind⟩ | ⟨e, -, hs, hfind⟩
      · rw [hs] at hfound
        cases hfound
        simp only [stat, hn] at hcall
        obtain ⟨d, -, hd⟩ := Option.map_eq_some_iff.mp hcall
        exact Or.inl ⟨s, n, hd.symm, hs, hs0, hn, hvis, hfind, by rw [hfind]; rfl⟩
      · rw [hs] at hfound
        cases hfound
        cases hcall
        exact Or.inr ⟨_, rfl, by rw [hfind]; rfl⟩
    · rw [getParentSlot, hp] at hparent
      cases hparent
      cases hcall
      exact Or.inr ⟨_, rfl, by rw [hpfind]⟩

theorem Shows.memMkdir (h : Shows m g) (hm : m.Sound) {mode : Nat}
    (hcall : m.memMkdir path mode = some (r, m')) :
    r = (g.memMkdir path).1 ∧ Shows m' (g.memMkdir path).2 := by
  obtain ⟨node, hnode, hcall⟩ := Option.bind_eq_some_iff.mp hcall
  unfold NameSpace.memMkdir
  rcases h.getNode hnode with ⟨s, n, rfl, -, -, -, -, -, hg⟩ | ⟨e, rfl, hg⟩
  · rw [hg]
    exact h.mkdir hm sharedData_none hcall
  · rw [hg]
    simp only at hcall ⊢
    split at hcall
    · rename_i he
      rw [if_pos he]
      exact h.mkdir hm sharedData_none hcall
    · rename_i he
      cases hcall
      rw [if_neg he]
      exact ⟨rfl, h⟩

private theorem Shows.openCreat_missing (h : Shows m g) (hm : m.Sound) {mode : Nat} {target : Option Nat}
    (hshared : m.SharedData false target) (hpath : m.getMemNode path = some none)
    (hcall : m.openCreat path false mode target = some (r, m')) :
    (m' = m ∧ ∃ e, r = .error e ∧ (g.creat path target).1 = .error e) ∨
    (r = .ok () ∧ (g.creat path target).1 = .ok () ∧ Shows m' (g.creat path target).2 ∧
      ∃ s, m'.getSlot path = some (.ok s)) := by
  obtain ⟨⟨r₁, m₁⟩, hcreat, hopened⟩ := Option.bind_eq_some_iff.mp hcall
  obtain ⟨hr₁, hshows⟩ := h.creat hm hshared hcreat
  rcases creat_cases hcreat hshared with
    ⟨e, rfl, rfl, hexist⟩ | ⟨rfl, parent, pn, pd, hp, hne, hent, rfl⟩
  · simp only at hopened
    split at hopened
    · cases hopened
      exact Or.inl ⟨rfl, e, rfl, hr₁.symm⟩
    · rename_i hno
      rw [not_or, not_not] at hno
      obtain ⟨s, hs⟩ := hexist hno.1
      rw [hpath] at hs
      cases hs
  · have hslot := (hm.getSlot_enterNode mode hp hne hent).1
    have hmade : (m.enterNode parent path.last false mode target).Sound := hm.enterNode hent
    have hmem := hmade.getMemNode_iff.mpr hslot
    simp only [hmem, Option.map_some, Option.isSome_some, if_true, Option.some.injEq,
      Prod.mk.injEq] at hopened
    obtain ⟨rfl, rfl⟩ := hopened
    exact Or.inr ⟨rfl, hr₁.symm, hshows, _, hslot⟩

theorem Shows.link (h : Shows m g) (hm : m.Sound) {newpath : AbsolutePath}
    (hcall : m.link path newpath = some (r, m')) :
    r = (g.link path newpath).1 ∧ Shows m' (g.link path newpath).2 := by
  obtain ⟨oldnode, hold, hcall⟩ := Option.bind_eq_some_iff.mp hcall
  unfold NameSpace.link
  rcases h.getMemNode path with ⟨s, n, hs, -, hs0, hn, hvis, hfind⟩ | ⟨e, hs, -, hfind⟩
  · rw [hs] at hold
    cases hold
    simp only [hn, Option.bind_some] at hcall
    obtain ⟨pnode, hpnode, hcall⟩ := Option.bind_eq_some_iff.mp hcall
    obtain ⟨newnode, hnew, hcall⟩ := Option.bind_eq_some_iff.mp hcall
    rw [hfind]
    rcases h.getMemNode newpath with ⟨t, tn, ht, -, -, -, -, hnewfind⟩ | ⟨e, ht, hslot, hnewfind⟩
    · rw [ht] at hnew
      cases hnew
      cases hcall
      rw [hnewfind]
      exact ⟨rfl, h⟩
    · rw [ht] at hnew
      cases hnew
      obtain ⟨d, hd, hcall⟩ := Option.bind_eq_some_iff.mp hcall
      rw [dataAt_of hn] at hd
      have hl : m.Linkable path newpath s n d := ⟨hs, hn, by rw [hpnode]; rfl, ht, hd⟩
      have hkind := h.kind s n d hs0 hn hvis hd
      have hnoted : Shows (m.withHardinode n s) g := h.updateData (inert_hardinode s)
      have hsound := hm.withHardinode n s
      have hshared := hl.shared
      rw [hnewfind]
      simp only [hkind]
      split at hcall
      · rename_i hdir
        rw [hdir] at hshared
        rw [if_pos hdir]
        exact hnoted.mkdir hsound hshared hcall
      · rename_i hdir
        rw [Bool.not_eq_true] at hdir
        rw [hdir] at hshared ⊢
        simp only [Bool.false_eq_true, if_false]
        obtain ⟨⟨r₂, m₂⟩, hopened, hcall⟩ := Option.bind_eq_some_iff.mp hcall
        obtain ⟨found, hfound, heq⟩ := Option.map_eq_some_iff.mp hcall
        rcases hnoted.openCreat_missing hsound hshared hl.missing hopened with
          ⟨rfl, e', rfl, he'⟩ | ⟨rfl, hok, hshows, t, hts⟩
        · -- the walk of the new path fails as it did before
          have hsame : (m.withHardinode n s).getSlot newpath = m.getSlot newpath :=
            walk_updateData (inert_hardinode s) _
          rw [hsame, hslot] at hfound
          cases hfound
          have hcreat : g.creat newpath (some n.nodedata) =
              (.error e', (g.creat newpath (some n.nodedata)).2) := by rw [← he']
          rw [hcreat]
          cases heq
          exact ⟨rfl, hnoted⟩
        · rw [hts] at hfound
          cases hfound
          cases heq
          have hcreat : g.creat newpath (some n.nodedata) =
              (.ok (), (g.creat newpath (some n.nodedata)).2) := by rw [← hok]
          rw [hcreat]
          exact ⟨rfl, hshows.updateDataAt inert_unref⟩
  · rw [hs] at hold
    cases hold
    cases hcall
    rw [hfind]
    exact ⟨rfl, h⟩

/-! ## Removing entries -/

/-- What is renamed like a removed file is marked as one. -/
def HiddenMarked (m : MemMount) : Prop :=
  ∀ s n d, s ≠ 0 → s ≠ rootSlot → m.nodeAt s = some n → m.getData n.nodedata = some d →
    '/' ∈ n.name → d.wantUnlink = true

structure Regular (m : MemMount) : Prop where
  orderly : m.Orderly
  hidden : m.HiddenMarked

theorem change_hiddenMarked {ok : MemMount → Removal → Prop} (hg : m.Grounded) (h : m.HiddenMarked)
    (hc : Change ok m m') : m'.HiddenMarked := by
  intro s n' d' hs0 hsroot hn' hd' hslash
  cases hc with
  | @touch id f hf =>
      rw [getData_updateData] at hd'
      split at hd'
      · obtain ⟨d, hd, rfl⟩ := Option.map_eq_some_iff.mp hd'
        rw [(hf d).2.2.1]
        exact h s n' d hs0 hsroot hn' hd hslash
      · exact h s n' d' hs0 hsroot hn' hd' hslash
  | enter he =>
      rw [nodeAt_enterNode] at hn'
      split at hn'
      · cases hn'
        exact absurd hslash he.slashless
      · rcases he.backward hd' with ⟨b, hb, -, hw, -⟩ | ⟨-, hlen, -⟩
        · rw [hw]
          exact h s n' b hs0 hsroot hn' hb hslash
        · have hlt := hg.bounded s n' hn'
          omega
  | remove hr hok =>
      rw [nodeAt_removeNode hr.node] at hn'
      split at hn'
      · cases hn'
      · obtain ⟨b, hb, -, hw, -⟩ := backward_removeNode hr.node hd'
        rw [hw]
        exact h s n' b hs0 hsroot hn' hb hslash
  | hide hh hok =>
      obtain ⟨b, hb, -, -, -, hw⟩ := backward_hideNode hh.node hd'
      rw [nodeAt_hideNode hh.node] at hn'
      split at hn'
      · cases hn'
        rw [hw]
        simp
      · rw [hw, h s n' b hs0 hsroot hn' hb hslash, Bool.true_or]
  | rmdir hr hok =>
      rw [nodeAt_removeDir hr.node hr.data] at hn'
      split at hn'
      · cases hn'
      · obtain ⟨b, hb, -, hw, -⟩ := backward_removeDir hr.node hr.data hd'
        rw [hw]
        exact h s n' b hs0 hsroot hn' hb hslash

theorem Regular.evolves (h : m.Regular)
    (hev : Evolves (fun m r => m.removesOne r = true) m m') : m'.Regular := by
  apply hev.preserves Regular _ h
  intro m m' hm hc
  exact ⟨change_orderly hm.orderly hc, change_hiddenMarked hm.orderly.sound.grounded hm.hidden hc⟩

private theorem regular_fresh : fresh.Regular where
  orderly := orderly_fresh
  hidden := by
    intro s n d hs0 hsroot hn hd
    have hlt := lt_slots_length hn
    have htwo : fresh.slots.length = 2 := rfl
    rw [rootSlot] at hsroot
    omega

private theorem unlinkInternal_refusal {slot : Nat} {n : MemNode} {d : MemData} {e : Errno}
    (hn : m.nodeAt slot = some n) (hd : m.getData n.nodedata = some d)
    (hparent : (m.nodeAt n.parent).isSome) (hcall : m.unlinkInternal slot = some (.error e, m')) :
    e = .eisdir ∧ d.isDir = true ∧ m' = m := by
  have hsome : ¬ ((m.nodeAt n.parent).isNone = true ∧ d.wantUnlink = false) := by
    rintro ⟨hnone, -⟩
    rw [Option.isNone_iff_eq_none] at hnone
    rw [hnone] at hparent
    cases hparent
  simp only [unlinkInternal, hn, hd, Option.bind_some, if_neg hsome, if_pos hparent] at hcall
  split at hcall
  · rename_i hdir
    cases hcall
    exact ⟨rfl, hdir.1, rfl⟩
  · split at hcall
    · obtain ⟨x, -, heq⟩ := Option.map_eq_some_iff.mp hcall
      cases heq
    · cases hcall

theorem Shows.lastStep (h : Shows m g) {slot : Nat} (hslot : m.getSlot path = some (.ok slot))
    (hne : path.path ≠ []) :
    ∃ p pn, p ≠ 0 ∧ m.nodeAt p = some pn ∧ Visible p pn ∧ m.walk p [path.last] = some (.ok slot) ∧
      g.find path.dotdot = .ok pn.nodedata := by
  rw [MemMount.getSlot, AbsolutePath.path_eq_snoc hne] at hslot
  obtain ⟨p, hp, hstep⟩ := walk_snoc_ok hslot
  rcases h.getMemNode path.dotdot with ⟨t, tn, -, ht, ht0, htn, htvis, hfind⟩ | ⟨e, -, ht, -⟩
  · have hsame : p = t := by
      have hp' : m.getSlot path.dotdot = some (.ok p) := hp
      rw [ht] at hp'
      cases hp'
      rfl
    subst hsame
    exact ⟨p, tn, ht0, htn, htvis, hstep, hfind⟩
  · have hp' : m.getSlot path.dotdot = some (.ok p) := hp
    rw [ht] at hp'
    cases hp'

theorem getSlot_root {slot : Nat} (hslot : m.getSlot path = some (.ok slot)) (hroot : slot ≠ rootSlot) :
    path.path ≠ [] := by
  intro hnil
  rw [MemMount.getSlot, hnil] at hslot
  cases hslot
  exact hroot rfl

private theorem Orderly.parent_isSome (h : m.Orderly) {slot : Nat} {n : MemNode}
    (hslot : m.getSlot path = some (.ok slot)) (hn : m.nodeAt slot = some n) :
    (m.nodeAt n.parent).isSome := by
  rcases walk_ok hslot with rfl | ⟨⟨t, d, hd, hdir, hmem⟩, -⟩
  · obtain ⟨rn, hrn, hparent⟩ := h.sound.grounded.root
    obtain ⟨zn, hzn, -⟩ := h.sound.grounded.zero
    rw [hn] at hrn
    cases hrn
    rw [hparent, hzn]
    rfl
  · obtain ⟨tn, htn, hdata⟩ := dataAt_eq_some.mp hd
    obtain ⟨nc, p, hnc, hp, -⟩ := h.tree t tn d htn hdata hdir slot hmem
    rw [hn] at hnc
    cases hnc
    rw [hp]
    rfl

theorem Shows.unlink (h : Shows m g) (ho : m.Orderly) (hcall : m.unlink path = some (r, m'))
    (hone : ∀ x ∈ m.unlinkRemovals path, x.1.removesOne x.2 = true) :
    ∃ g', Unlinks g path r g' ∧ Shows m' g' := by
  rcases unlink_cases hcall with ⟨hnone, rfl, rfl⟩ | ⟨slot, hmem, hinternal⟩
  · rcases h.getMemNode path with ⟨s, n, hs, -⟩ | ⟨e, -, -, hfind⟩
    · rw [hnone] at hs
      cases hs
    · exact ⟨g, .missing hfind, h⟩
  · rcases h.getMemNode path with ⟨s, n, hs, hslot, hs0, hn, hvis, hfind⟩ | ⟨e, hs, -, -⟩
    · rw [hmem] at hs
      cases hs
      obtain ⟨n', d, hn', hd, hcases⟩ := unlinkInternal_cases hinternal
      rw [hn] at hn'
      cases hn'
      rcases hcases with ⟨e, rfl, -⟩ | ⟨rfl, hrem, rfl⟩ | ⟨rfl, hhide, rfl⟩
      · obtain ⟨rfl, hdir, rfl⟩ :=
          unlinkInternal_refusal hn hd (ho.parent_isSome hslot hn) hinternal
        exact ⟨g, .refused hfind (by rw [h.kind slot n d hs0 hn hvis hd, hdir]), h⟩
      · have hroot := ho.sound.grounded.removable_ne_root hrem
        have hne := getSlot_root hslot hroot
        obtain ⟨p, pn, hp0, hpn, hpvis, hstep, hpfind⟩ := h.lastStep hslot hne
        have hgone : Gone (m.removeNode slot) slot := by
          refine ⟨hroot, fun n' hn' => ?_⟩
          rw [nodeAt_removeNode hn, if_pos rfl] at hn'
          cases hn'
        exact ⟨_, .removed hpfind hfind hne, h.vanish ho.sound
          (ho.sound.vanishes_removeNode hrem (ho.tree.listedByParent slot)) hgone
          heap_length_removeNode hp0 hpn hpvis hstep⟩
      · have hsafe := hone (m, .hide slot) (by
          rw [unlinkRemovals, hmem]
          exact hhide.mem_removals hinternal)
        simp only [removesOne, Bool.and_eq_true, decide_eq_true_eq] at hsafe
        have hne := getSlot_root hslot hsafe.1
        obtain ⟨p, pn, hp0, hpn, hpvis, hstep, hpfind⟩ := h.lastStep hslot hne
        have hgone : Gone (m.hideNode slot) slot := by
          refine ⟨hsafe.1, fun n' hn' => ?_⟩
          rw [nodeAt_hideNode hn, if_pos rfl] at hn'
          cases hn'
          rfl
        exact ⟨_, .removed hpfind hfind hne, h.vanish ho.sound (ho.sound.vanishes_hideNode hhide)
          hgone heap_length_hideNode hp0 hpn hpvis hstep⟩
    · rw [hmem] at hs
      cases hs

private theorem onlyUnlinked_true {cs : List Nat} (h : m.onlyUnlinked cs = some true) :
    ∀ c ∈ cs, ∃ d, m.dataAt c = some d ∧ d.wantUnlink = true := by
  induction cs with
  | nil => exact fun c hc => absurd hc List.not_mem_nil
  | cons x cs ih =>
      obtain ⟨d, hd, hrest⟩ := Option.bind_eq_some_iff.mp h
      split at hrest
      · rename_i hw
        intro c hc
        rcases List.mem_cons.mp hc with rfl | hc
        · exact ⟨d, hd, hw⟩
        · exact ih hrest c hc
      · cases hrest

private theorem onlyUnlinked_false {cs : List Nat} (h : m.onlyUnlinked cs = some false) :
    ∃ c ∈ cs, ∃ d, m.dataAt c = some d ∧ d.wantUnlink = false := by
  induction cs with
  | nil => cases h
  | cons x cs ih =>
      obtain ⟨d, hd, hrest⟩ := Option.bind_eq_some_iff.mp h
      split at hrest
      · obtain ⟨c, hc, hfound⟩ := ih hrest
        exact ⟨c, List.mem_cons_of_mem _ hc, hfound⟩
      · rename_i hw
        exact ⟨x, List.mem_cons_self, d, hd, Bool.eq_false_iff.mpr hw⟩

private theorem Shows.look_unlinked (h : Shows m g) (ho : m.Orderly) {s : Nat} {n : MemNode} {d : MemData}
    (hs : s ≠ 0) (hn : m.nodeAt s = some n) (hvis : Visible s n) (hd : m.getData n.nodedata = some d)
    (hdir : d.isDir = true) (hempty : m.onlyUnlinked d.children = some true) {name : Text}
    (hslash : '/' ∉ name) : g.names.look n.nodedata name = .error .missing := by
  obtain ⟨r, hr, hfound⟩ := h.look s n name hs hn hvis hslash
  have hkind := h.kind s n d hs hn hvis hd
  generalize hx : g.names.look n.nodedata name = x at hfound
  cases hfound with
  | @ok t tn ht htn htvis =>
      exfalso
      obtain ⟨b, hb, -, hfind⟩ := walk_singleton_ok hr
      rw [dataAt_of hn, hd] at hb
      cases hb
      obtain ⟨hmem, cn, hcn, hname⟩ := findChild_found hfind
      obtain ⟨cd, hcd, hw⟩ := onlyUnlinked_true hempty t hmem
      rw [dataAt_of hcn] at hcd
      have hunmarked := ho.marked.unmarked hcn hcd (Or.inr (hname ▸ hslash))
      rw [hw] at hunmarked
      cases hunmarked
  | error e =>
      cases e with
      | missing => rfl
      | notDirectory =>
          rw [Naming.look, hkind, if_pos hdir] at hx
          split at hx
          · cases hx
          · cases hx

private theorem Shows.look_linked (h : Shows m g) (hr : m.Regular) {s : Nat} {n : MemNode} {d : MemData}
    (hs : s ≠ 0) (hn : m.nodeAt s = some n) (hvis : Visible s n) (hd : m.getData n.nodedata = some d)
    (hdir : d.isDir = true) (hused : m.onlyUnlinked d.children = some false) :
    ∃ name t, g.names.look n.nodedata name = .ok t := by
  obtain ⟨c, hc, cd, hcd, hw⟩ := onlyUnlinked_false hused
  obtain ⟨hc0, hcroot, hsome⟩ := hr.orderly.sound.children s n d hn hd hdir c hc
  obtain ⟨cn, hcn⟩ := Option.isSome_iff_exists.mp hsome
  rw [dataAt_of hcn] at hcd
  have hslash : '/' ∉ cn.name := by
    intro hmem
    have hmarked := hr.hidden c cn cd hc0 hcroot hcn hcd hmem
    rw [hw] at hmarked
    cases hmarked
  obtain ⟨r, hwalk, hfound⟩ := h.look s n cn.name hs hn hvis hslash
  refine ⟨cn.name, ?_⟩
  generalize hx : g.names.look n.nodedata cn.name = x at hfound
  cases hfound with
  | ok => exact ⟨_, rfl⟩
  | error e =>
      exfalso
      simp only [MemMount.walk, dataAt_of hn, hd, Option.bind_some, if_pos hdir] at hwalk
      obtain ⟨found, hfind, hwalk⟩ := Option.bind_eq_some_iff.mp hwalk
      cases found with
      | some t => cases hwalk
      | none =>
          obtain ⟨cn', hcn', hname⟩ := findChild_missing hfind c hc
          rw [hcn] at hcn'
          cases hcn'
          exact hname rfl

private theorem MarkedHidden.removeDir {slot : Nat} {n : MemNode} {d : MemData} (h : m.MarkedHidden)
    (hrem : m.DirRemovable slot n d) (hw : d.wantUnlink = false)
    (hparent : ∀ i b, m.parentData n = some i → m.getData i = some b → b.wantUnlink = false) :
    (m.removeDir slot).MarkedHidden := by
  intro s sn d' hsn hd' hw'
  obtain ⟨b, hb, hdir, hwb, hnlink, -⟩ := backward_removeDir hrem.node hrem.data hd'
  rw [nodeAt_removeDir hrem.node hrem.data] at hsn
  split at hsn
  · cases hsn
  · rename_i hs
    rw [hwb] at hw'
    obtain ⟨hroot, hname, hone, hlinks⟩ := h s sn b hsn hb hw'
    have hother : sn.nodedata ≠ n.nodedata := by
      intro hi
      rw [hi, hrem.data] at hb
      cases hb
      rw [hw] at hw'
      cases hw'
    have hnotparent : m.parentData n ≠ some sn.nodedata := by
      intro hp
      rw [hparent _ b hp hb] at hw'
      cases hw'
    have hnodes := nodesOf_removeDir hrem.node hrem.data sn.nodedata
    rw [if_neg (fun hi => hother hi.1.symm)] at hnodes
    rw [if_neg hnotparent, if_neg (fun hi => hother hi.1)] at hnlink
    exact ⟨hroot, hname, by omega, fun hd => by rw [hnlink]; exact hlinks (hdir ▸ hd)⟩

private theorem Shows.memRmdir (h : Shows m g) (hr : m.Regular) (hcall : m.memRmdir path = some (r, m'))
    (hone : ∀ x ∈ m.rmdirRemovals path, x.1.keepsParents x.2 = true) :
    ∃ g', Rmdirs g path r g' ∧ Shows m' g' ∧ m'.Regular := by
  have ho := hr.orderly
  have hwhole := hcall
  obtain ⟨node, hnode, hcall⟩ := Option.bind_eq_some_iff.mp hcall
  rcases h.getNode hnode with ⟨slot, n, rfl, hslot, hs0, hn, hvis, hfind, hg⟩ | ⟨e, rfl, hg⟩
  · simp only at hcall
    split at hcall
    · rename_i hdot
      cases hcall
      exact ⟨g, .dot hg hdot, h, hr⟩
    · obtain ⟨d, hd⟩ := ho.sound.exists_data hs0 hn
      have hkind := h.kind slot n d hs0 hn hvis hd
      have hw : d.wantUnlink = false := ho.marked.unmarked hn hd hvis
      have hmade := hcall
      simp only [MemMount.rmdir, hn, hd, Option.bind_some] at hcall
      split at hcall
      · rename_i hdir
        obtain ⟨isEmpty, hempty, hcall⟩ := Option.bind_eq_some_iff.mp hcall
        split at hcall
        · rename_i hall
          rw [hall] at hempty
          obtain ⟨pd, hpd, hcall⟩ := Option.map_eq_some_iff.mp hcall
          have hroot : slot ≠ rootSlot :=
            ho.sound.grounded.ne_root hn (by rw [hpd]; rfl)
          have hne := getSlot_root hslot hroot
          obtain ⟨p, pn, hp0, hpn, hpvis, hstep, hpfind⟩ := h.lastStep hslot hne
          have hlisted : m.Listed slot := by
            rcases walk_ok hslot with he | ⟨hl, -⟩
            · exact absurd he hroot
            · exact hl
          rcases rmdir_cases hmade (Or.inl hlisted) with ⟨e, he, -⟩ | ⟨-, n', d', hrem, hm⟩
          · rw [he] at hcall
            cases hcall
          · have hn' := hrem.node
            rw [hn] at hn'
            cases hn'
            have hd' := hrem.data
            rw [hd] at hd'
            cases hd'
            have hby := ho.tree.listedByParent slot
            have hgone : Gone (m.removeDir slot) slot := by
              refine ⟨hroot, fun n' hn' => ?_⟩
              rw [nodeAt_removeDir hn hd, if_pos ⟨rfl, hw⟩] at hn'
              cases hn'
            have hok : r = .ok () := by
              rw [Prod.mk.injEq] at hcall
              exact hcall.1.symm
            have hguard := hone (m, .rmdir slot) (by
              rw [rmdirRemovals, hnode, hwhole, hok]
              exact List.mem_singleton_self _)
            subst hok hm
            have hparent : ∀ i b, m.parentData n = some i → m.getData i = some b →
                b.wantUnlink = false := by
              intro i b hi hb
              obtain ⟨b', hb', hbdir, hfound⟩ := walk_singleton_ok hstep
              rw [dataAt_of hpn] at hb'
              have hpar := (listedByParent_iff hn).mp hby p pn b' hpn hb' hbdir
                (findChild_found hfound).1
              rw [hi, Option.some.injEq] at hpar
              rw [hpar] at hb
              exact ho.marked.unmarked hpn hb hpvis
            refine ⟨_, .removed hpfind hg hne fun name hslash =>
                h.look_unlinked ho hs0 hn hvis hd hdir hempty hslash,
              h.vanish ho.sound (ho.sound.vanishes_removeDir hrem hby hw) hgone
                heap_length_removeDir hp0 hpn hpvis hstep, ⟨?_, ?_, ?_⟩, ?_⟩
            · exact ho.sound.removeDir hrem hby
            · exact change_tree ho.tree (.rmdir hrem hguard)
            · exact ho.marked.removeDir hrem hw hparent
            · have hch : Change (fun _ _ => True) m _ := .rmdir hrem trivial
              exact change_hiddenMarked ho.sound.grounded hr.hidden hch
        · rename_i hsome
          rw [Bool.not_eq_true] at hsome
          rw [hsome] at hempty
          cases hcall
          obtain ⟨name, t, hname⟩ := h.look_linked hr hs0 hn hvis hd hdir hempty
          exact ⟨g, .used hg hname, h, hr⟩
      · rename_i hdir
        cases hcall
        exact ⟨g, .file hg (by rw [hkind]; exact Bool.eq_false_iff.mpr hdir), h, hr⟩
  · cases hcall
    exact ⟨g, .missing hg, h, hr⟩

/-! ## Renaming -/

private theorem Shows.link_regular (h : Shows m g) (hr : m.Regular) {newpath : AbsolutePath}
    (hcall : m.link path newpath = some (r, m')) :
    r = (g.link path newpath).1 ∧ Shows m' (g.link path newpath).2 ∧ m'.Regular := by
  obtain ⟨hr', hshows⟩ := h.link hr.orderly.sound hcall
  exact ⟨hr', hshows, hr.evolves (link_evolves hcall)⟩

theorem Shows.unlink_regular (h : Shows m g) (hr : m.Regular) (hcall : m.unlink path = some (r, m'))
    (hone : ∀ x ∈ m.unlinkRemovals path, x.1.removesOne x.2 = true) :
    ∃ g', Unlinks g path r g' ∧ Shows m' g' ∧ m'.Regular := by
  obtain ⟨g', hunlinks, hshows⟩ := h.unlink hr.orderly hcall hone
  exact ⟨g', hunlinks, hshows, hr.evolves (unlink_evolves hcall hone)⟩

private theorem unlinks_error {g' : NameSpace} {e : Errno} (h : Unlinks g path (.error e) g') : g' = g := by
  cases h with
  | missing => rfl
  | refused => rfl

private theorem Shows.renameUnlink (h : Shows m g) (hr : m.Regular) {newpath : AbsolutePath}
    (hcall : m.renameUnlink path newpath = some (r, m'))
    (hone : ∀ x ∈ m.renameUnlinkRemovals path newpath, x.1.removesOne x.2 = true) :
    ∃ g', RenameUnlinks g path newpath r g' ∧ Shows m' g' ∧ m'.Regular := by
  obtain ⟨⟨r₁, m₁⟩, h₁, hcall⟩ := Option.bind_eq_some_iff.mp hcall
  obtain ⟨g₁, hunlinks, hshows, hregular⟩ :=
    h.unlink_regular hr h₁ fun x hx => hone x (List.mem_append_left _ hx)
  cases r₁ with
  | ok u =>
      cases hcall
      exact ⟨g₁, .done hunlinks, hshows, hregular⟩
  | error e =>
      have hsame := unlinks_error hunlinks
      subst hsame
      obtain ⟨⟨r₂, m₂⟩, h₂, hcall⟩ := Option.map_eq_some_iff.mp hcall
      obtain ⟨g₂, hundo, hshows₂, hregular₂⟩ := hshows.unlink_regular hregular h₂ fun x hx => by
        apply hone
        rw [renameUnlinkRemovals, h₁]
        exact List.mem_append_right _ hx
      cases r₂ with
      | ok u =>
          cases hcall
          exact ⟨g₂, .undone hunlinks hundo, hshows₂, hregular₂⟩
      | error e' =>
          cases hcall
          have hsame := unlinks_error hundo
          subst hsame
          exact ⟨_, .stuck hunlinks hundo, hshows₂, hregular₂⟩

private theorem Shows.rename (h : Shows m g) (hr : m.Regular) {newpath : AbsolutePath}
    (hcall : m.rename path newpath = some (r, m'))
    (hone : ∀ x ∈ m.renameRemovals path newpath, x.1.removesOne x.2 = true) :
    ∃ g', Renames g path newpath r g' ∧ Shows m' g' ∧ m'.Regular := by
  obtain ⟨⟨r₁, m₁⟩, h₁, hcall⟩ := Option.bind_eq_some_iff.mp hcall
  obtain ⟨hr₁, hshows, hregular⟩ := h.link_regular hr h₁
  rw [renameRemovals, h₁] at hone
  cases r₁ with
  | ok u =>
      obtain ⟨g', hrest, hshows', hregular'⟩ := hshows.renameUnlink hregular hcall hone
      exact ⟨g', .moved hr₁.symm hrest, hshows', hregular'⟩
  | error e =>
      simp only at hcall
      split at hcall
      · rename_i he
        subst he
        obtain ⟨⟨r₂, m₂⟩, h₂, hcall⟩ := Option.bind_eq_some_iff.mp hcall
        simp only [h₂] at hone
        obtain ⟨g₂, hnew, hshows₂, hregular₂⟩ := hshows.unlink_regular hregular h₂
          fun x hx => hone x (List.mem_append_left _ hx)
        cases r₂ with
        | error e =>
            cases hcall
            exact ⟨g₂, .kept hr₁.symm hnew, hshows₂, hregular₂⟩
        | ok u =>
            obtain ⟨⟨r₃, m₃⟩, h₃, hcall⟩ := Option.bind_eq_some_iff.mp hcall
            simp only [h₃] at hone
            obtain ⟨hr₃, hshows₃, hregular₃⟩ := hshows₂.link_regular hregular₂ h₃
            cases r₃ with
            | error e =>
                cases hcall
                exact ⟨_, .lost hr₁.symm hnew hr₃.symm, hshows₃, hregular₃⟩
            | ok u =>
                obtain ⟨g', hrest, hshows', hregular'⟩ := hshows₃.renameUnlink hregular₃ hcall
                  fun x hx => hone x (List.mem_append_right _ hx)
                exact ⟨g', .replaced hr₁.symm hnew hr₃.symm hrest, hshows', hregular'⟩
      · rename_i he
        cases hcall
        exact ⟨_, .refused hr₁.symm he, hshows, hregular⟩

end MemMount

/-! ## Calls -/

namespace FileSystem

open MemMount

variable {ch : Channels} {fs fs' : FileSystem} {g : NameSpace} {r : Except Errno Nat}

/-- No removal frees the parent that entries of a shared directory record, and a deferred one takes the
only name of its object. -/
def takesOne (m : MemMount) (x : Removal) : FsCall → Bool
  | .rmdir _ => m.keepsParents x
  | _ => m.removesOne x

def OneEntry (fs : FileSystem) (c : FsCall) : Prop :=
  ∀ x ∈ fs.removals c, takesOne x.1 x.2 c = true

instance (fs : FileSystem) (c : FsCall) : Decidable (fs.OneEntry c) :=
  List.decidableBAll (fun x : MemMount × Removal => takesOne x.1 x.2 c = true) (fs.removals c)

/-- The names of the mount, in a state that calls have left. -/
structure Named (fs : FileSystem) (g : NameSpace) : Prop where
  shows : fs.mem.Shows g
  regular : fs.mem.Regular

private theorem memOpenNode_shows {ino parent : Nat} {flags : OpenFlags} (h : fs.mem.Shows g)
    (hcall : fs.memOpenNode ino parent flags = some (r, fs')) :
    fs'.mem.Shows g ∧ ∀ fd, r = .ok fd → ∃ d, fs.mem.dataAt ino = some d ∧
      (d.isDir = true → ¬ (flags.trunc ∨ flags.wronly ∨ flags.rdwr)) := by
  unfold memOpenNode at hcall
  cases hfd : (fs.files.openDescriptor .memory ino parent flags).1 with
  | none =>
      simp only [hfd] at hcall
      cases hcall
      exact ⟨h, fun fd hr => by cases hr⟩
  | some fd =>
      simp only [hfd] at hcall
      obtain ⟨d, hd, heq⟩ := Option.map_eq_some_iff.mp hcall
      have href : (fs.mem.ref ino).Shows g := h.updateDataAt (inert_useCount _)
      have hdata : ∃ d₀, fs.mem.dataAt ino = some d₀ ∧ d.isDir = d₀.isDir := by
        obtain ⟨n, hn, hd'⟩ := dataAt_eq_some.mp hd
        rw [ref, nodeAt_updateDataAt] at hn
        rw [ref, updateDataAt_eq hn, getData_updateData, if_pos rfl] at hd'
        obtain ⟨d₀, hd₀, rfl⟩ := Option.map_eq_some_iff.mp hd'
        exact ⟨d₀, by rw [dataAt_of hn, hd₀], rfl⟩
      obtain ⟨d₀, hd₀, hdir⟩ := hdata
      split at heq
      · cases heq
        exact ⟨href, fun fd hr => by cases hr⟩
      · rename_i hnot
        have hanswer : d₀.isDir = true → ¬ (flags.trunc ∨ flags.wronly ∨ flags.rdwr) :=
          fun hd₀dir hw => hnot ⟨by rw [hdir, hd₀dir], hw⟩
        split at heq
        · cases heq
          exact ⟨href.updateDataAt (inert_contents []), fun _ _ => ⟨d₀, hd₀, hanswer⟩⟩
        · cases heq
          exact ⟨href, fun _ _ => ⟨d₀, hd₀, hanswer⟩⟩

private theorem Named.memOpen (h : Named fs g) {path : AbsolutePath} {flags : OpenFlags} {mode : Nat}
    (hcall : fs.memOpen path flags mode = some (r, fs')) :
    ∃ g', Opens g path flags r g' ∧ fs'.mem.Shows g' := by
  obtain ⟨⟨r₁, mem⟩, hcreated, hcall⟩ := Option.bind_eq_some_iff.mp hcall
  have hsound := h.regular.orderly.sound
  obtain ⟨g', hg', hshows⟩ : ∃ g', g' = (if flags.creat then (g.creat path none).2 else g) ∧
      mem.Shows g' := by
    split at hcreated
    · rename_i hc
      obtain ⟨r₀, hmade⟩ := openCreat_creat hcreated
      exact ⟨_, rfl, by rw [if_pos hc]; exact (h.shows.creat hsound sharedData_none hmade).2⟩
    · rename_i hc
      cases hcreated
      exact ⟨_, rfl, by rw [if_neg hc]; exact h.shows⟩
  have hfresh : flags.creat → flags.excl → r₁ = .ok () → (g.creat path none).1 = .ok () := by
    intro hc hx hr₁
    rw [if_pos hc] at hcreated
    obtain ⟨⟨r₀, m₀⟩, hmade, hopened⟩ := Option.bind_eq_some_iff.mp hcreated
    rw [← (h.shows.creat hsound sharedData_none hmade).1]
    cases r₀ with
    | ok u => rfl
    | error e =>
        simp only [hx, or_true, if_true] at hopened
        rw [hr₁] at hopened
        cases hopened
  refine ⟨g', ?_⟩
  cases r₁ with
  | error e =>
      cases hcall
      exact ⟨opens_refused hg', hshows⟩
  | ok u =>
      obtain ⟨node, hnode, hcall⟩ := Option.bind_eq_some_iff.mp hcall
      rcases hshows.getNode hnode with ⟨s, n, rfl, -, hs0, hn, hvis, -, hfind⟩ | ⟨e, rfl, -⟩
      · obtain ⟨parent, -, hcall⟩ := Option.bind_eq_some_iff.mp hcall
        have hshows' : ({ fs with mem := mem } : FileSystem).mem.Shows g' := hshows
        obtain ⟨hend, hanswer⟩ := memOpenNode_shows hshows' hcall
        refine ⟨⟨hg', fun fd hr => ?_, fun hc hx _ _ => hfresh hc hx rfl⟩, hend⟩
        obtain ⟨d, hd, hdir⟩ := hanswer fd hr
        refine ⟨n.nodedata, hfind, fun hgdir => hdir ?_⟩
        rw [dataAt_of hn] at hd
        rw [← hshows.kind s n d hs0 hn hvis hd, hgdir]
      · cases hcall
        exact ⟨opens_refused hg', hshows⟩

private theorem Named.memClose (h : Named fs g) {fd : Nat} (hcall : fs.memClose fd = some (r, fs')) :
    fs'.mem.Shows g := by
  unfold FileSystem.memClose at hcall
  split at hcall
  · cases hcall
    exact h.shows
  · rename_i inode hinode
    obtain ⟨d, hd, hcall⟩ := Option.bind_eq_some_iff.mp hcall
    obtain ⟨⟨r₁, mem⟩, hremoved, hcall⟩ := Option.bind_eq_some_iff.mp hcall
    have hunref : (fs.mem.unref inode).Shows g := h.shows.updateDataAt inert_unref
    have hregular : (fs.mem.unref inode).Regular :=
      h.regular.evolves (Evolves.touchAt inert_unref)
    have hmem : mem.Shows g := by
      split at hremoved
      · rename_i hw
        obtain ⟨n, hn, hdata⟩ := dataAt_eq_some.mp hd
        obtain ⟨hroot, hname, hone, -⟩ := hregular.orderly.marked inode n d hn hdata hw
        have hby := hregular.orderly.tree.listedByParent inode
        obtain ⟨n', d', hn', hd', hcases⟩ := unlinkInternal_cases hremoved
        rw [hn] at hn'
        cases hn'
        rcases hcases with ⟨e, -, rfl⟩ | ⟨-, hrem, rfl⟩ | ⟨-, hhide, rfl⟩
        · exact hunref
        · have hgone : Gone ((fs.mem.unref inode).removeNode inode) inode := by
            refine ⟨hroot, fun n' hn' => ?_⟩
            rw [nodeAt_removeNode hn, if_pos rfl] at hn'
            cases hn'
          exact hunref.vanish_hidden (hregular.orderly.sound.vanishes_removeNode hrem hby) hgone
            heap_length_removeNode hn hname
        · have hunmarked := hhide.unmarked
          have hsame := hhide.data
          rw [hdata] at hsame
          cases hsame
          rw [hw] at hunmarked
          cases hunmarked
      · cases hremoved
        exact hunref
    cases r₁ with
    | error e => cases hcall
    | ok u =>
        obtain ⟨files, -, heq⟩ := Option.map_eq_some_iff.mp hcall
        cases heq
        exact hmem

theorem Named.close (h : Named fs g) {fd : Nat} (hcall : close ch fs fd = some (r, fs')) :
    fs'.mem.Shows g := by
  unfold FileSystem.close at hcall
  split at hcall
  · cases hcall
    exact h.shows
  · exact h.memClose hcall
  · rw [channelsClose_mem hcall]
    exact h.shows

private theorem Named.dup2 (h : Named fs g) {oldfd newfd : Nat}
    (hcall : dup2 ch fs oldfd newfd = some (r, fs')) : fs'.mem.Shows g := by
  unfold FileSystem.dup2 at hcall
  split at hcall
  · cases hcall
    exact h.shows
  · split at hcall
    · cases hcall
      exact h.shows
    · obtain ⟨closed, hclosed, hcall⟩ := Option.bind_eq_some_iff.mp hcall
      obtain ⟨item, -, hcall⟩ := Option.bind_eq_some_iff.mp hcall
      rw [duplicated_mem hcall]
      exact h.close hclosed

private theorem call_regular (h : Named fs g) {c : FsCall} (hone : fs.OneEntry c) (hc : ∀ p, c ≠ .rmdir p)
    (hcall : call ch fs c = some (r, fs')) : fs'.mem.Regular := by
  have hremoves : ∀ x ∈ fs.removals c, x.1.removesOne x.2 = true := by
    cases c with
    | rmdir path => exact absurd rfl (hc path)
    | _ => exact hone
  exact h.regular.evolves (call_evolves h.regular.orderly.sound.grounded.rootOutside hcall hremoves)

private theorem Named.call (h : Named fs g) {c : FsCall} (hone : fs.OneEntry c)
    (hcall : call ch fs c = some (r, fs')) : ∃ g', Does g c r g' ∧ Named fs' g' := by
  have hsound := h.regular.orderly.sound
  cases c with
  | memOpen path flags mode =>
      obtain ⟨g', hopens, hshows⟩ := h.memOpen hcall
      exact ⟨g', hopens, hshows, call_regular h hone (by simp) hcall⟩
  | channelsOpen path flags =>
      refine ⟨g, rfl, ?_, call_regular h hone (by simp) hcall⟩
      rw [channelsOpen_mem hcall]
      exact h.shows
  | close fd => exact ⟨g, rfl, h.close hcall, call_regular h hone (by simp) hcall⟩
  | dup oldfd =>
      refine ⟨g, rfl, ?_, call_regular h hone (by simp) hcall⟩
      rw [dup_mem hcall]
      exact h.shows
  | dup2 oldfd newfd => exact ⟨g, rfl, h.dup2 hcall, call_regular h hone (by simp) hcall⟩
  | mkdir path mode =>
      have hregular := call_regular h hone (by simp) hcall
      obtain ⟨-, x, hx, hr⟩ := ofMem_eq_some hcall
      obtain ⟨hr', hshows⟩ := h.shows.memMkdir hsound hx
      exact ⟨_, ⟨by rw [hr, hr'], rfl⟩, hshows, hregular⟩
  | link oldpath newpath =>
      have hregular := call_regular h hone (by simp) hcall
      obtain ⟨-, x, hx, hr⟩ := ofMem_eq_some hcall
      obtain ⟨hr', hshows⟩ := h.shows.link hsound hx
      exact ⟨_, ⟨by rw [hr, hr'], rfl⟩, hshows, hregular⟩
  | unlink path =>
      have hregular := call_regular h hone (by simp) hcall
      obtain ⟨-, x, hx, hr⟩ := ofMem_eq_some hcall
      obtain ⟨g', hunlinks, hshows⟩ := h.shows.unlink h.regular.orderly hx hone
      exact ⟨g', ⟨x, hunlinks, hr⟩, hshows, hregular⟩
  | rmdir path =>
      obtain ⟨-, x, hx, hr⟩ := ofMem_eq_some hcall
      obtain ⟨g', hrmdirs, hshows, hregular⟩ := h.shows.memRmdir h.regular hx hone
      exact ⟨g', ⟨x, hrmdirs, hr⟩, hshows, hregular⟩
  | rename oldpath newpath =>
      obtain ⟨-, x, hx, hr⟩ := ofMem_eq_some hcall
      obtain ⟨g', hrenames, hshows, hregular⟩ := h.shows.rename h.regular hx hone
      exact ⟨g', ⟨x, hrenames, hr⟩, hshows, hregular⟩

theorem named_start : Named start .fresh where
  regular := regular_fresh
  shows := by
    constructor
    · rfl
    · exact ⟨_, rfl, rfl⟩
    · intro s n d hs hn hvis hd
      obtain ⟨hone, rfl⟩ := getData_fresh hd
      rw [hone]
      rfl
    · intro s n name hs hn hvis hslash
      have hlt : s < 2 := lt_slots_length hn
      have hone : s = rootSlot := by
        rw [rootSlot]
        omega
      subst hone
      cases hn
      exact ⟨_, rfl, .error .missing⟩

/-- In a run whose removals each take one name away, the calls answer as operations on a graph of names,
and in the end every path leads where it leads in the graph. -/
theorem run_names (ch : Channels) (calls : List FsCall) (fs : FileSystem)
    (hguard : Guarded (step ch) OneEntry start calls)
    (hrun : runFrom (step ch) start calls = some fs) :
    ∃ rs g, replies (call ch) start calls = some rs ∧ Performs Does .fresh calls rs g ∧
      ∀ path, ∃ r, fs.mem.getSlot path = some r ∧ Found fs.mem r (g.find path) := by
  have hstep : ∀ fs g c r fs', Named fs g → fs.OneEntry c → call ch fs c = some (r, fs') →
      ∃ g', Does g c r g' ∧ Named fs' g' := fun _ _ _ _ _ h hone hcall => h.call hone hcall
  obtain ⟨rs, g, hreplies, hperforms, hnamed⟩ :=
    performs_of_step hstep calls start fs .fresh named_start hguard hrun
  exact ⟨rs, g, hreplies, hperforms, fun path => hnamed.shows.getSlot path⟩

/-- A directory with a file that is open when it is unlinked; a second one takes its name. -/
def reusedNameCalls : List FsCall :=
  [.mkdir (.fromRoot "d".toList) 0o700,
    .memOpen (.fromRoot "d/f".toList) { creat := true, rdwr := true } 0o600,
    .unlink (.fromRoot "d/f".toList),
    .memOpen (.fromRoot "d/f".toList) { creat := true, rdwr := true } 0o600,
    .rmdir (.fromRoot "d".toList), .close 0, .close 1,
    .rename (.fromRoot "d/f".toList) (.fromRoot "g".toList),
    .rmdir (.fromRoot "d".toList)]

theorem run_names_reused :
    RunEnds (step standardInput) start reusedNameCalls fun fs =>
      ∃ rs g, replies (call standardInput) start reusedNameCalls = some rs ∧
        Performs Does .fresh reusedNameCalls rs g ∧
        ∀ path, ∃ r, fs.mem.getSlot path = some r ∧ Found fs.mem r (g.find path) := by
  have hguard : Guarded (step standardInput) OneEntry start reusedNameCalls := by decide
  have hends : RunEnds (step standardInput) start reusedNameCalls fun _ => True := by decide
  obtain ⟨fs, hfs, -⟩ := hends
  exact ⟨fs, hfs, run_names standardInput reusedNameCalls fs hguard hfs⟩

end FileSystem

end Zrt.Fs
