import Zrt.Fs.FailedOpen
import Zrt.Fs.FileCalls

/-!
# What links and renames leave alone

A link is made by the functions that make new files and directories. They work on the data of the old
file: they set its mode, and taking back the use that opening would have counted takes a real one.
-/

namespace Zrt.Fs

open Zrt.Framework

/-- The same file, counters of links, marks and entries aside. -/
structure MemData.Same (d d' : MemData) : Prop where
  isDir : d'.isDir = d.isDir
  mode : d'.mode = d.mode
  useCount : d'.useCount = d.useCount
  contents : d'.contents = d.contents

theorem MemData.Same.refl (d : MemData) : d.Same d := ⟨rfl, rfl, rfl, rfl⟩

theorem MemData.Same.symm {d d' : MemData} (h : d.Same d') : d'.Same d :=
  ⟨h.isDir.symm, h.mode.symm, h.useCount.symm, h.contents.symm⟩

theorem MemData.Same.trans {d d' d'' : MemData} (h : d.Same d') (h' : d'.Same d'') : d.Same d'' :=
  ⟨h'.isDir.trans h.isDir, h'.mode.trans h.mode, h'.useCount.trans h.useCount,
    h'.contents.trans h.contents⟩

namespace MemMount

variable {m m' : MemMount} {p q : AbsolutePath} {slot i : Nat} {n : MemNode} {d b : MemData}

/-! ## Links -/

private theorem Enterable.shared_data {parent id : Nat} (mode : Nat) {name : Text} {isDir : Bool}
    {pn : MemNode} {pd : MemData} (he : m.Enterable parent name isDir (some id) pn pd)
    (hb : m.getData i = some b) :
    ∃ b', (m.enterNode parent name isDir mode (some id)).getData i = some b' ∧
      b'.isDir = b.isDir ∧ b'.contents = b.contents ∧ b'.useCount = b.useCount ∧
      b'.mode = (if i = id then mode else b.mode) ∧
      b'.nlink = b.nlink + (if i = id then 1 else 0) +
        if i = pn.nodedata ∧ isDir = true then 1 else 0 := by
  obtain ⟨s, sn, sd, -, -, hsd, hdir, -⟩ := he.shared id rfl
  rw [getData_enterNode he.node he.baseData_isDir, baseData, hb]
  by_cases hi : i = id
  · subst hi
    rw [hb] at hsd
    cases hsd
    by_cases hp : i = pn.nodedata
    · simp [hp, hdir]
    · simp [hp, hdir]
  · by_cases hp : i = pn.nodedata
    · simp [hp, hp ▸ hi]
    · simp [hp, hi]

private theorem Enterable.shared_none {parent id mode : Nat} {name : Text} {isDir : Bool} {pn : MemNode}
    {pd : MemData} (he : m.Enterable parent name isDir (some id) pn pd) (hb : m.getData i = none) :
    (m.enterNode parent name isDir mode (some id)).getData i = none := by
  rw [getData_enterNode he.node he.baseData_isDir, baseData, hb]
  simp

/-- There is another link to the data, and its mode and its use count have been set. -/
structure Linked (m m' : MemMount) (id : Nat) (d : MemData) (mode useCount : Nat) : Prop where
  gone : ∀ i, m.getData i = none → m'.getData i = none
  others : ∀ i b, i ≠ id → m.getData i = some b → ∃ b', m'.getData i = some b' ∧ b.Same b'
  self : ∃ d', m'.getData id = some d' ∧ d'.isDir = d.isDir ∧ d'.contents = d.contents ∧
    d'.mode = mode ∧ d'.useCount = useCount ∧ (d.isDir = false → d'.nlink = d.nlink + 1)

theorem Linked.same_iff {mode useCount : Nat} (h : Linked m m' i d mode useCount) :
    (∃ d', m'.getData i = some d' ∧ d.Same d') ↔ mode = d.mode ∧ useCount = d.useCount := by
  obtain ⟨d', hd', hdir, hcontents, hmode, huse, -⟩ := h.self
  constructor
  · rintro ⟨d'', hd'', hsame⟩
    rw [hd'] at hd''
    cases hd''
    exact ⟨hmode.symm.trans hsame.mode, huse.symm.trans hsame.useCount⟩
  · rintro ⟨hm, hu⟩
    exact ⟨d', hd', hdir, hmode.trans hm, huse.trans hu, hcontents⟩

private theorem Linkable.enter (hl : m.Linkable p q slot n d) {parent : Nat} (mode : Nat) {pn : MemNode}
    {pd : MemData}
    (he : (m.withHardinode n slot).Enterable parent q.last d.isDir (some n.nodedata) pn pd) :
    Linked m ((m.withHardinode n slot).enterNode parent q.last d.isDir mode (some n.nodedata))
        n.nodedata d mode d.useCount ∧
      ((m.withHardinode n slot).enterNode parent q.last d.isDir mode (some n.nodedata)).getMemNode p =
        some (some slot) := by
  have htouched : ∀ i, (m.withHardinode n slot).getData i =
      if i = n.nodedata then (m.getData i).map fun d => { d with hardinode := slot }
      else m.getData i := fun i => getData_updateData _
  refine ⟨⟨?_, ?_, ?_⟩, ?_⟩
  · intro i hi
    apply he.shared_none
    rw [htouched, hi]
    simp
  · intro i b hne hb
    obtain ⟨b', hb', hdir, hcontents, huse, hmode, -⟩ :=
      he.shared_data mode ((htouched i).trans ((if_neg hne).trans hb))
    rw [if_neg hne] at hmode
    exact ⟨b', hb', hdir, hmode, huse, hcontents⟩
  · have hd : (m.withHardinode n slot).getData n.nodedata = some { d with hardinode := slot } := by
      rw [htouched, if_pos rfl, hl.data, Option.map_some]
    obtain ⟨d', hd', hdir, hcontents, huse, hmode, hnlink⟩ := he.shared_data mode hd
    rw [if_pos rfl] at hmode
    refine ⟨d', hd', hdir, hcontents, hmode, huse, ?_⟩
    intro hfile
    simpa [hfile] using hnlink
  · obtain ⟨hslot, -⟩ := getMemNode_eq_some.mp hl.old
    have hwalk : (m.withHardinode n slot).walk rootSlot p.path = some (.ok slot) := by
      rw [(alike_withHardinode m n slot).walk]
      exact hslot
    have hnode : ((m.withHardinode n slot).enterNode parent q.last d.isDir mode
        (some n.nodedata)).nodeAt slot = some n := nodeAt_enterNode_of_some hl.node
    exact getMemNode_eq_some.mpr ⟨he.walk_ok mode hwalk, by rw [hnode]; rfl⟩

/-- The mode and the use count that a link leaves to the data. -/
def linkMode (d : MemData) : Nat := if d.isDir then d.mode else 0o600

def linkUseCount (d : MemData) : Nat := if d.isDir then d.useCount else d.useCount - 1

private theorem Linked.unref {mode useCount t : Nat} {tn : MemNode} (h : Linked m m' i d mode useCount)
    (ht : m'.nodeAt t = some tn) (hdata : tn.nodedata = i) (hfile : d.isDir = false) :
    Linked m (m'.unref t) i d mode (useCount - 1) := by
  have hunref : ∀ k, (m'.unref t).getData k = if k = i then (m'.getData k).map fun d =>
      if d.isDir then d else { d with useCount := d.useCount - 1 } else m'.getData k := by
    intro k
    rw [MemMount.unref, updateDataAt_eq ht, getData_updateData, hdata]
  refine ⟨?_, ?_, ?_⟩
  · intro k hk
    rw [hunref, h.gone k hk]
    simp
  · intro k b hne hb
    rw [hunref, if_neg hne]
    exact h.others k b hne hb
  · obtain ⟨d', hd', hdir, hcontents, hmode, huse, hnlink⟩ := h.self
    refine ⟨{ d' with useCount := d'.useCount - 1 }, ?_, hdir, hcontents, hmode, ?_, hnlink⟩
    · rw [hunref, if_pos rfl, hd', Option.map_some, hdir, hfile]
      rfl
    · rw [← huse]

theorem Linkable.of_link (hcall : m.link p q = some (.ok (), m')) :
    ∃ slot n d, m.Linkable p q slot n d ∧
      Linked m m' n.nodedata d (linkMode d) (linkUseCount d) ∧
      m'.getMemNode p = some (some slot) ∧ m'.nodeAt slot = some n := by
  rcases link_cases hcall with ⟨hr, -⟩ | ⟨s, t, -, -, hr, -⟩ | ⟨slot, n, d, hl, hmade⟩
  · cases hr
  · cases hr
  · have hshared := hl.shared
    refine ⟨slot, n, d, hl, ?_⟩
    rcases hmade with ⟨hdir, hcall⟩ | ⟨hfile, r₂, m₂, found, hopened, hfound, hends⟩
    · have hmode : linkMode d = d.mode := by rw [linkMode, if_pos hdir]
      have huse : linkUseCount d = d.useCount := by rw [linkUseCount, if_pos hdir]
      rw [hmode, huse]
      rw [hdir] at hshared
      rcases mkdir_cases hcall hshared with ⟨e, he, -⟩ | ⟨-, parent, pn, pd, -, -, he, rfl⟩
      · cases he
      · rw [← hdir] at he ⊢
        obtain ⟨hlinked, hpath⟩ := hl.enter d.mode he
        exact ⟨hlinked, hpath, nodeAt_enterNode_of_some hl.node⟩
    · have hmode : linkMode d = 0o600 := by rw [linkMode, hfile, if_neg Bool.false_ne_true]
      have huse : linkUseCount d = d.useCount - 1 := by
        rw [linkUseCount, hfile, if_neg Bool.false_ne_true]
      have hmissing := hl.missing
      rw [hmode, huse]
      rw [hfile] at hshared
      rcases openCreat_missing hopened hmissing hshared with
        ⟨e, rfl, -⟩ | ⟨parent, pn, pd, hparent, hne, he, rfl, -⟩
      · rcases hends with ⟨t, -, hr, -⟩ | ⟨e', -, hr, -⟩
        · cases hr
        · cases hr
      · -- the use is taken from the node that was entered
        have hnew := he.getSlot_new 0o600 hparent hne
        rw [hnew] at hfound
        rcases hends with ⟨t, rfl, -, rfl⟩ | ⟨e', rfl, -, -⟩
        · cases hfound
          rw [← hfile] at he ⊢
          obtain ⟨hlinked, hpath⟩ := hl.enter 0o600 he
          refine ⟨hlinked.unref (nodeAt_newSlot ..) rfl hfile, ?_, ?_⟩
          · rw [← hpath]
            exact (Alike.updateDataAt strip_unref).getMemNode p
          · rw [MemMount.unref, nodeAt_updateDataAt]
            exact nodeAt_enterNode_of_some hl.node
        · cases hfound

theorem linkData_eq_iff (d : MemData) :
    linkMode d = d.mode ∧ linkUseCount d = d.useCount ↔
      (d.isDir = false → d.mode = 0o600 ∧ d.useCount = 0) := by
  unfold linkMode linkUseCount
  cases d.isDir with
  | true => simp
  | false =>
      simp only [Bool.false_eq_true, if_false, true_imp_iff]
      constructor
      · omega
      · omega

/-! ## Removals -/

/-- A name of the data has been taken away, and the data with it if it was the last one of a file that
is not open. -/
structure Unlinked (m m' : MemMount) (id : Nat) (d : MemData) : Prop where
  gone : ∀ i, m.getData i = none → m'.getData i = none
  kept : ∀ i b, m.getData i = some b →
    (i = id ∧ m'.getData i = none) ∨ ∃ b', m'.getData i = some b' ∧ b.Same b'
  lost_iff : m'.getData id = none ↔ (d.useCount = 0 ∨ d.wantUnlink = true) ∧ d.nlink ≤ 1
  links : d.isDir = true → 2 ≤ d.nlink

private theorem removeChild_same (n : MemNode) (slot : Nat) (hb : m.getData i = some b) :
    ∃ b', (m.removeChild n.parent slot).getData i = some b' ∧ b.Same b' ∧ b'.nlink = b.nlink := by
  rw [getData_removeChild, hb, Option.map_some]
  split
  · exact ⟨_, rfl, ⟨rfl, rfl, rfl, rfl⟩, rfl⟩
  · exact ⟨b, rfl, .refl b, rfl⟩

private theorem Removable.unlinked (h : m.Removable slot n d) :
    Unlinked m (m.removeNode slot) n.nodedata d where
  gone := by
    intro i hi
    rw [getData_removeNode h.node, getData_removeChild, hi]
    simp
  kept := by
    intro i b hb
    obtain ⟨b', hb', hsame, -⟩ := removeChild_same n slot hb
    rw [getData_removeNode h.node, hb']
    split
    · rename_i hi
      rw [Option.bind_some, dropLink]
      split
      · exact .inl ⟨hi, rfl⟩
      · exact .inr ⟨_, rfl, hsame.isDir, hsame.mode, hsame.useCount, hsame.contents⟩
    · exact .inr ⟨b', rfl, hsame⟩
  lost_iff := by
    obtain ⟨d', hd', -, hnlink⟩ := removeChild_same n slot h.data
    rw [getData_removeNode h.node, if_pos rfl, hd', Option.bind_some, dropLink, hnlink]
    simp [h.idle]
  links := h.links

private theorem Hideable.unlinked (h : m.Hideable slot n d) :
    Unlinked m (m.hideNode slot) n.nodedata d where
  gone := by
    intro i hi
    rw [getData_hideNode h.node, hi]
    simp
  kept := by
    intro i b hb
    rw [getData_hideNode h.node, hb]
    split
    · exact .inr ⟨_, rfl, rfl, rfl, rfl, rfl⟩
    · exact .inr ⟨b, rfl, .refl b⟩
  lost_iff := by
    rw [getData_hideNode h.node, h.data, if_pos rfl]
    simp [h.used, h.unmarked]
  links := h.links

theorem Unlinked.of_unlinkInternal (hcall : m.unlinkInternal slot = some (.ok (), m')) :
    ∃ n d, m.nodeAt slot = some n ∧ m.getData n.nodedata = some d ∧ Unlinked m m' n.nodedata d := by
  obtain ⟨n, d, hn, hd, ⟨e, hr, -⟩ | ⟨-, h, rfl⟩ | ⟨-, h, rfl⟩⟩ := unlinkInternal_cases hcall
  · cases hr
  · exact ⟨n, d, hn, hd, h.unlinked⟩
  · exact ⟨n, d, hn, hd, h.unlinked⟩

theorem Unlinked.of_unlink (hcall : m.unlink p = some (.ok (), m')) :
    ∃ slot n d, m.getMemNode p = some (some slot) ∧ m.nodeAt slot = some n ∧
      m.getData n.nodedata = some d ∧ Unlinked m m' n.nodedata d := by
  rcases unlink_cases hcall with ⟨-, hr, -⟩ | ⟨slot, hslot, hcall⟩
  · cases hr
  · obtain ⟨n, d, hn, hd, h⟩ := Unlinked.of_unlinkInternal hcall
    exact ⟨slot, n, d, hslot, hn, hd, h⟩

/-! ## Renames -/

/-- The mount when the name at a path has been taken away. -/
def without (m : MemMount) (path : AbsolutePath) : MemMount := ((m.unlink path).map Prod.snd).getD m

theorem without_eq (hcall : m.unlink p = some (.ok (), m')) : m.without p = m' := by
  rw [without, hcall]
  rfl

private theorem without_missing (h : m.getMemNode p = some none) : m.without p = m := by
  rw [without, unlink, h]
  rfl

private theorem openCreat_ne_eexist {mode : Nat} {hardlink : Option Nat} {r : Except Errno Unit}
    (hcall : m.openCreat q false mode hardlink = some (r, m')) (hq : m.getMemNode q = some none)
    (hshared : m.SharedData false hardlink) : r ≠ .error .eexist := by
  obtain ⟨⟨r₁, m₁⟩, hcreat, hcall⟩ := Option.bind_eq_some_iff.mp hcall
  rcases creat_cases hcreat hshared with ⟨e, rfl, -, hexist⟩ | ⟨rfl, -⟩
  · have hne : e ≠ .eexist := by
      intro he
      obtain ⟨s, hs⟩ := hexist he
      rw [hq] at hs
      cases hs
    simp only [if_pos (Or.inl hne)] at hcall
    cases hcall
    intro he
    cases he
    exact hne rfl
  · obtain ⟨node, -, heq⟩ := Option.map_eq_some_iff.mp hcall
    obtain ⟨rfl, -⟩ := Prod.mk.inj heq
    split
    · intro he
      cases he
    · intro he
      cases he

private theorem link_eexist (hcall : m.link p q = some (.error .eexist, m')) : m' = m := by
  rcases link_cases hcall with ⟨hr, -⟩ | ⟨s, t, -, -, -, rfl⟩ | ⟨slot, n, d, hl, hmade⟩
  · cases hr
  · rfl
  · have hshared := hl.shared
    have hmissing := hl.missing
    rcases hmade with ⟨hdir, hcall⟩ | ⟨hfile, r₂, m₂, found, hopened, hfound, hends⟩
    · rw [hdir] at hshared
      rcases mkdir_cases hcall hshared with ⟨e, he, -, hexist⟩ | ⟨hr, -⟩
      · cases he
        obtain ⟨s, hs⟩ := hexist rfl
        rw [hmissing] at hs
        cases hs
      · cases hr
    · rw [hfile] at hshared
      have hne := openCreat_ne_eexist hopened hmissing hshared
      rcases hends with ⟨t, -, hr, -⟩ | ⟨e, rfl, hr, -⟩
      · exact absurd hr.symm hne
      · cases r₂ with
        | ok u => cases hr
        | error e' =>
            cases hr
            rcases walk_error hfound with he | he
            · cases he
            · cases he

private theorem rename_ok (hcall : m.rename p q = some (.ok (), m')) :
    ∃ m₁, (m.without q).link p q = some (.ok (), m₁) ∧ m₁.unlink p = some (.ok (), m') := by
  have hrest : ∀ m₁ : MemMount, m₁.renameUnlink p q = some (.ok (), m') →
      m₁.unlink p = some (.ok (), m') := by
    intro m₁ hcall
    obtain ⟨⟨r, m₂⟩, hremoved, hcall⟩ := Option.bind_eq_some_iff.mp hcall
    cases r with
    | ok u =>
        cases hcall
        exact hremoved
    | error e =>
        obtain ⟨⟨r', m₃⟩, -, heq⟩ := Option.map_eq_some_iff.mp hcall
        cases r' with
        | ok u => cases heq
        | error e' => cases heq
  obtain ⟨⟨r, m₁⟩, hlink, hcall⟩ := Option.bind_eq_some_iff.mp hcall
  cases r with
  | ok u =>
      obtain ⟨slot, n, d, hl, -⟩ := Linkable.of_link hlink
      rw [without_missing hl.new]
      exact ⟨m₁, hlink, hrest m₁ hcall⟩
  | error e =>
      simp only at hcall
      split at hcall
      · rename_i he
        subst he
        rw [link_eexist hlink] at hcall
        obtain ⟨⟨r₂, m₂⟩, hunlink, hcall⟩ := Option.bind_eq_some_iff.mp hcall
        cases r₂ with
        | error e => cases hcall
        | ok u =>
            obtain ⟨⟨r₃, m₃⟩, hrelink, hcall⟩ := Option.bind_eq_some_iff.mp hcall
            cases r₃ with
            | error e => cases hcall
            | ok u =>
                rw [without_eq hunlink]
                exact ⟨m₃, hrelink, hrest m₃ hcall⟩
      · cases hcall

/-- The data that went with the name at the new path, unless the old path led to it too. -/
def Replaced (m : MemMount) (p q : AbsolutePath) (id : Nat) : Prop :=
  (m.without q).getData id = none ∧ m.memDataOf p ≠ some id

/-- Every file is the same, or is one that may be gone. -/
def DataKept (m m' : MemMount) (mayGo : Nat → Prop) : Prop :=
  ∀ i d, m.getData i = some d →
    (∃ d', m'.getData i = some d' ∧ d.Same d') ∨ (m'.getData i = none ∧ mayGo i)

/-- The path leads to a directory, or to a file with the mode that links set and nobody has open. -/
def LinkNeutral (m : MemMount) (p : AbsolutePath) : Prop :=
  ∀ id d, m.memDataOf p = some id → m.getData id = some d → d.isDir = false →
    d.mode = 0o600 ∧ d.useCount = 0

/-- It does so when the name at the new path is gone; that has not taken the file away, and the links of
the file have not been counted too low. -/
structure RenameNeutral (m : MemMount) (p q : AbsolutePath) : Prop where
  link : (m.without q).LinkNeutral p
  counted : ∀ id d, (m.without q).memDataOf p = some id → (m.without q).getData id = some d →
    d.isDir = false → d.nlink ≠ 0
  survives : ∀ id, m.memDataOf p = some id → (m.getData id).isSome →
    ((m.without q).getData id).isSome

private theorem Linkable.memDataOf (hl : m.Linkable p q slot n d) : m.memDataOf p = some n.nodedata := by
  rw [MemMount.memDataOf, hl.old, Option.join_some, Option.bind_some, hl.node, Option.map_some]

theorem Linkable.forall_data_iff (hl : m.Linkable p q slot n d) {P : MemData → Prop} :
    (∀ id d, m.memDataOf p = some id → m.getData id = some d → P d) ↔ P d := by
  constructor
  · intro h
    exact h n.nodedata d hl.memDataOf hl.data
  · intro h id d' hid hd'
    rw [hl.memDataOf] at hid
    cases hid
    rw [hl.data] at hd'
    cases hd'
    exact h

private theorem link_dataKept_iff (hcall : m.link p q = some (.ok (), m')) :
    DataKept m m' (fun _ => False) ↔ m.LinkNeutral p := by
  obtain ⟨slot, n, d, hl, hlinked, -⟩ := Linkable.of_link hcall
  rw [LinkNeutral, hl.forall_data_iff, ← linkData_eq_iff, ← hlinked.same_iff]
  constructor
  · intro hkept
    exact (hkept n.nodedata d hl.data).resolve_right fun h => h.2
  · intro hself i b hb
    apply Or.inl
    by_cases hi : i = n.nodedata
    · subst hi
      rw [hl.data] at hb
      cases hb
      exact hself
    · exact hlinked.others i b hi hb

theorem without_cases (m : MemMount) (q : AbsolutePath) :
    m.without q = m ∨ ∃ slot n d, m.getMemNode q = some (some slot) ∧ m.nodeAt slot = some n ∧
      m.getData n.nodedata = some d ∧ Unlinked m (m.without q) n.nodedata d := by
  cases hcall : m.unlink q with
  | none => exact .inl (by rw [without, hcall]; rfl)
  | some x =>
      obtain ⟨r, m'⟩ := x
      cases r with
      | ok u =>
          rw [without_eq hcall]
          exact .inr (Unlinked.of_unlink hcall)
      | error e =>
          have hsame : m' = m := by
            rcases unlink_cases hcall with ⟨-, -, rfl⟩ | ⟨slot, -, hcall⟩
            · rfl
            · obtain ⟨n, d, -, -, ⟨e', -, rfl⟩ | ⟨hr, -⟩ | ⟨hr, -⟩⟩ := unlinkInternal_cases hcall
              · rfl
              · cases hr
              · cases hr
          exact .inl (by rw [without, hcall, hsame]; rfl)

private theorem without_gone (q : AbsolutePath) (hi : m.getData i = none) :
    (m.without q).getData i = none := by
  rcases m.without_cases q with hsame | ⟨slot, n, d, -, -, -, h⟩
  · rw [hsame, hi]
  · exact h.gone i hi

theorem without_kept (q : AbsolutePath) (hb : m.getData i = some b) :
    (m.without q).getData i = none ∨ ∃ b', (m.without q).getData i = some b' ∧ b.Same b' := by
  rcases m.without_cases q with hsame | ⟨slot, n, d, -, -, -, h⟩
  · exact .inr ⟨b, by rw [hsame, hb], .refl b⟩
  · exact (h.kept i b hb).imp_left fun h => h.2

private theorem without_same {b' : MemData} (q : AbsolutePath) (hb' : (m.without q).getData i = some b') :
    ∃ b, m.getData i = some b ∧ b.Same b' := by
  cases hb : m.getData i with
  | none =>
      rw [without_gone q hb] at hb'
      cases hb'
  | some b =>
      rcases without_kept q hb with hnone | ⟨b'', hb'', hsame⟩
      · rw [hb'] at hnone
        cases hnone
      · rw [hb'] at hb''
        cases hb''
        exact ⟨b, rfl, hsame⟩

private theorem Linked.unlinked_iff {m₁ : MemMount} {d₁ : MemData}
    (h : Linked m m₁ i d (linkMode d) (linkUseCount d)) (hd₁ : m₁.getData i = some d₁)
    (h' : Unlinked m₁ m' i d₁) :
    (∃ d', m'.getData i = some d' ∧ d.Same d') ↔
      (d.isDir = false → (d.mode = 0o600 ∧ d.useCount = 0) ∧ d.nlink ≠ 0) := by
  obtain ⟨d₁', hd₁', hdir, -, -, huse, hnlink⟩ := h.self
  rw [hd₁] at hd₁'
  cases hd₁'
  constructor
  · rintro ⟨d', hd', hsame⟩ hfile
    obtain ⟨d'', hd'', hsame₁⟩ := (h'.kept i d₁ hd₁).resolve_left fun hlost => by
      rw [hd'] at hlost
      cases hlost.2
    rw [hd'] at hd''
    cases hd''
    have hback := hsame.trans hsame₁.symm
    have hneutral := (linkData_eq_iff d).mp (h.same_iff.mp ⟨d₁, hd₁, hback⟩) hfile
    refine ⟨hneutral, ?_⟩
    intro hnone
    have hlost : m'.getData i = none := by
      apply h'.lost_iff.mpr
      have hidle := hback.useCount
      have hcount := hnlink hfile
      exact ⟨.inl (by omega), by omega⟩
    rw [hd'] at hlost
    cases hlost
  · intro hneutral
    obtain ⟨d₁', hd₁', hsame⟩ :=
      h.same_iff.mpr ((linkData_eq_iff d).mpr fun hfile => (hneutral hfile).1)
    rw [hd₁] at hd₁'
    cases hd₁'
    rcases h'.kept i d₁ hd₁ with ⟨-, hlost⟩ | ⟨d', hd', hsame'⟩
    · have hfew := (h'.lost_iff.mp hlost).2
      cases hfile : d.isDir with
      | true =>
          have hlinks := h'.links (hdir.trans hfile)
          omega
      | false =>
          have hcount := hnlink hfile
          have hpos := (hneutral hfile).2
          omega
    · exact ⟨d', hd', hsame.trans hsame'⟩

private theorem rename_dataKept_iff (hcall : m.rename p q = some (.ok (), m')) :
    DataKept m m' (m.Replaced p q) ↔ m.RenameNeutral p q := by
  obtain ⟨m₁, hlink, hunlink⟩ := rename_ok hcall
  obtain ⟨slot, n, d, hl, hlinked, hpath, hnode⟩ := Linkable.of_link hlink
  obtain ⟨slot', n', d₁, hslot, hn, hd₁, hunlinked⟩ := Unlinked.of_unlink hunlink
  -- the name that is removed last is the one that the link was made for
  rw [hpath] at hslot
  cases hslot
  rw [hnode] at hn
  cases hn
  have hself := hlinked.unlinked_iff hd₁ hunlinked
  constructor
  · intro hkept
    obtain ⟨b, hb, hsame⟩ := without_same q hl.data
    have hleft : ∃ d', m'.getData n.nodedata = some d' ∧ d.Same d' := by
      rcases hkept n.nodedata b hb with ⟨d', hd', hsame'⟩ | ⟨-, hgone, -⟩
      · exact ⟨d', hd', hsame.symm.trans hsame'⟩
      · rw [hl.data] at hgone
        cases hgone
    have hneutral := hself.mp hleft
    refine ⟨hl.forall_data_iff.mpr fun hfile => (hneutral hfile).1,
      hl.forall_data_iff.mpr fun hfile => (hneutral hfile).2, ?_⟩
    intro id hp hsome
    obtain ⟨b', hb'⟩ := Option.isSome_iff_exists.mp hsome
    rw [Option.isSome_iff_ne_none]
    intro hgone
    rcases hkept id b' hb' with ⟨d', hd', -⟩ | ⟨-, -, hne⟩
    · rw [hunlinked.gone id (hlinked.gone id hgone)] at hd'
      cases hd'
    · exact hne hp
  · intro hneutral i b hb
    have hleft := hself.mpr fun hfile =>
      ⟨hl.forall_data_iff.mp hneutral.link hfile, hl.forall_data_iff.mp hneutral.counted hfile⟩
    rcases without_kept q hb with hgone | ⟨b₂, hb₂, hsame⟩
    · refine .inr ⟨hunlinked.gone i (hlinked.gone i hgone), hgone, ?_⟩
      intro hp
      have hsome := hneutral.survives i hp (by rw [hb]; rfl)
      rw [hgone] at hsome
      cases hsome
    · apply Or.inl
      by_cases hi : i = n.nodedata
      · subst hi
        rw [hl.data] at hb₂
        cases hb₂
        obtain ⟨d', hd', hsame'⟩ := hleft
        exact ⟨d', hd', hsame.trans hsame'⟩
      · obtain ⟨b₃, hb₃, hsame₃⟩ := hlinked.others i b₂ hi hb₂
        obtain ⟨b₄, hb₄, hsame₄⟩ := (hunlinked.kept i b₃ hb₃).resolve_left fun h => hi h.1
        exact ⟨b₄, hb₄, (hsame.trans hsame₃).trans hsame₄⟩

end MemMount

/-! ## Owners and times -/

structure Timespec where
  tvSec : Int
  tvNsec : Int
deriving DecidableEq

/-- The fields of `MemData` that only their setters touch. -/
structure Recorded where
  uid : UInt32
  gid : UInt32
  atime : Timespec
  mtime : Timespec
deriving DecidableEq

/-- What is recorded about files, by the position of their data. -/
structure RecordedIo where
  io : Io
  recorded : Nat → Recorded

/-- Every call that sets a mode, an owner or times ends in one of the three setters, on the slot it has
found by a path or a descriptor; reading, writing, seeking and closing set the times. -/
inductive RecordedCall where
  | file (c : FileCall)
  | chmod (slot mode : Nat)
  | chown (slot : Nat) (owner group : UInt32)
  | setUtime (slot : Nat) (atime mtime : Timespec)

namespace RecordedIo

open MemMount

abbrev Reply := Option (Except Errno Int × RecordedIo)

/-- The constructor of `MemData` leaves the times as they are in memory. -/
def start (times : Nat → Timespec × Timespec) : RecordedIo :=
  ⟨.start, fun id => ⟨0, 0, (times id).1, (times id).2⟩⟩

def mem (s : RecordedIo) : MemMount := s.io.fs.mem

/-- A setter works on the data of the node at a slot. -/
def setAt (s : RecordedIo) (slot : Nat) (set : Nat → RecordedIo) : Reply :=
  match s.mem.nodeAt slot with
  | none => some (.error .enoent, s)
  | some n => (s.mem.getData n.nodedata).map fun _ => (.ok 0, set n.nodedata)

def chmod (s : RecordedIo) (slot mode : Nat) : Reply :=
  s.setAt slot fun id =>
    let mem := s.mem.updateData id fun d => { d with mode := mode }
    { s with io := { s.io with fs := { s.io.fs with mem := mem } } }

def chown (s : RecordedIo) (slot : Nat) (owner group : UInt32) : Reply :=
  s.setAt slot fun id =>
    { s with recorded :=
        Function.update s.recorded id { s.recorded id with uid := owner, gid := group } }

def setUtime (s : RecordedIo) (slot : Nat) (atime mtime : Timespec) : Reply :=
  s.setAt slot fun id =>
    { s with recorded :=
        Function.update s.recorded id { s.recorded id with atime := atime, mtime := mtime } }

def call (ch : Channels) (s : RecordedIo) : RecordedCall → Reply
  | .file c => (s.io.fileCall ch c).map fun x => (x.1, { s with io := x.2 })
  | .chmod slot mode => s.chmod slot mode
  | .chown slot owner group => s.chown slot owner group
  | .setUtime slot atime mtime => s.setUtime slot atime mtime

def step (ch : Channels) (s : RecordedIo) (c : RecordedCall) : Option RecordedIo :=
  (s.call ch c).map Prod.snd

/-- Modes, use counts, contents, lengths, owners and times are as they were, but for data that may be
gone. -/
structure FilesKept (s t : RecordedIo) (mayGo : Nat → Prop) : Prop where
  data : DataKept s.mem t.mem mayGo
  files : t.io.files = s.io.files
  recorded : t.recorded = s.recorded

/-- A link or a rename, if it succeeds, leaves all files alone. -/
def LeavesFiles (ch : Channels) (s : RecordedIo) : RecordedCall → Prop
  | .file (.names (.link p q)) => ∀ v t,
      s.call ch (.file (.names (.link p q))) = some (.ok v, t) → FilesKept s t fun _ => False
  | .file (.names (.rename p q)) => ∀ v t,
      s.call ch (.file (.names (.rename p q))) = some (.ok v, t) →
        FilesKept s t (s.mem.Replaced p q)
  | _ => True

/-- If it succeeds, it is made on a directory or on a file that it does not change. -/
def Neutral (ch : Channels) (s : RecordedIo) : RecordedCall → Prop
  | .file (.names (.link p q)) => ∀ v t,
      s.call ch (.file (.names (.link p q))) = some (.ok v, t) → s.mem.LinkNeutral p
  | .file (.names (.rename p q)) => ∀ v t,
      s.call ch (.file (.names (.rename p q))) = some (.ok v, t) → s.mem.RenameNeutral p q
  | _ => True

private theorem ofMem_ok {s t : RecordedIo} {v : Int} {out : MemMount.Outcome}
    (hcall : ((s.io.ofFs (s.io.fs.ofMem out)).map fun x => (x.1, { s with io := x.2 })) =
      some (.ok v, t)) :
    out = some (.ok (), t.mem) ∧ t.io.files = s.io.files ∧ t.recorded = s.recorded := by
  obtain ⟨x, hx, heq⟩ := Option.map_eq_some_iff.mp hcall
  obtain ⟨⟨reply, fs⟩, hreply, rfl⟩ := Option.map_eq_some_iff.mp hx
  obtain ⟨-, r, hr, hres⟩ := FileSystem.ofMem_eq_some hreply
  obtain ⟨hok, rfl⟩ := Prod.mk.inj heq
  cases r with
  | ok u => exact ⟨hr, rfl, rfl⟩
  | error e =>
      rw [hres] at hok
      cases hok

private theorem filesKept_iff {s t : RecordedIo} {mayGo : Nat → Prop} (hfiles : t.io.files = s.io.files)
    (hrecorded : t.recorded = s.recorded) :
    FilesKept s t mayGo ↔ DataKept s.mem t.mem mayGo :=
  ⟨fun h => h.data, fun h => ⟨h, hfiles, hrecorded⟩⟩

private theorem leavesFiles_iff_neutral (ch : Channels) (s : RecordedIo) (c : RecordedCall) :
    LeavesFiles ch s c ↔ Neutral ch s c := by
  unfold LeavesFiles Neutral
  split
  · apply forall_congr'
    intro v
    apply forall_congr'
    intro t
    apply imp_congr_right
    intro hcall
    obtain ⟨hlink, hfiles, hrecorded⟩ := ofMem_ok hcall
    rw [filesKept_iff hfiles hrecorded]
    exact link_dataKept_iff hlink
  · apply forall_congr'
    intro v
    apply forall_congr'
    intro t
    apply imp_congr_right
    intro hcall
    obtain ⟨hrename, hfiles, hrecorded⟩ := ofMem_ok hcall
    rw [filesKept_iff hfiles hrecorded]
    exact rename_dataKept_iff hrename
  · exact Iff.rfl

/-- In every run the links and renames leave the files alone exactly when they are made where they are
neutral. -/
theorem run_leavesFiles_iff (ch : Channels) (times : Nat → Timespec × Timespec)
    (calls : List RecordedCall) :
    Guarded (step ch) (LeavesFiles ch) (start times) calls ↔
      Guarded (step ch) (Neutral ch) (start times) calls := by
  have hiff : ∀ s c, True → (LeavesFiles ch s c ↔ Neutral ch s c) :=
    fun s c _ => leavesFiles_iff_neutral ch s c
  exact guarded_iff hiff (fun _ _ _ _ _ _ => trivial) calls (start times) trivial

/-- A link to a file that is open sets its mode and takes its only use away. -/
theorem link_changes_file :
    RunEnds (step FileSystem.standardInput) (start fun _ => (⟨0, 0⟩, ⟨0, 0⟩))
      [.file (.memOpen (.fromRoot "f".toList) { creat := true, rdwr := true } 0o644)] fun s =>
      ∃ id ∈ s.mem.memDataOf (.fromRoot "f".toList),
        (s.mem.getData id).map (fun d => (d.mode, d.useCount)) = some (0o644, 1) ∧
        (s.call FileSystem.standardInput
            (.file (.names (.link (.fromRoot "f".toList) (.fromRoot "g".toList))))).map
          (fun x => (x.1, (x.2.mem.getData id).map fun d => (d.mode, d.useCount))) =
            some (.ok 0, some (0o600, 0)) := by
  decide

end RecordedIo

end Zrt.Fs
