import Zrt.Fs.MemUnlink

/-!
# Renaming

A rename is a new link and the removal of the old name, after the removal of what the new name led to.
It undoes nothing. As long as the removals do not cut the paths that the later steps walk, the steps
after the first removal cannot fail.
-/

namespace Zrt.Fs

open Zrt.Framework

namespace MemMount

variable {m m' m'' : MemMount} {slot s t x : Nat} {n : MemNode} {d : MemData} {name : Text}
  {names : List Text}

/-! ## States that differ in counters only -/

/-- Data without the fields that resolution and contents do not depend on. -/
def strip (d : MemData) : MemData := { d with useCount := 0, hardinode := 0 }

structure Alike (m m' : MemMount) : Prop where
  slots : m'.slots = m.slots
  data : ∀ i, (m'.getData i).map strip = (m.getData i).map strip

theorem Alike.refl (m : MemMount) : Alike m m := ⟨rfl, fun _ => rfl⟩

theorem Alike.nodeAt (h : Alike m m') : m'.nodeAt s = m.nodeAt s := by
  rw [MemMount.nodeAt, h.slots, MemMount.nodeAt]

theorem Alike.updateData {id : Nat} {f : MemData → MemData} (hf : ∀ d, strip (f d) = strip d) :
    Alike m (m.updateData id f) where
  slots := rfl
  data := by
    intro i
    rw [getData_updateData]
    split
    · rw [Option.map_map]
      congr 1
      funext d
      exact hf d
    · rfl

theorem Alike.updateDataAt {f : MemData → MemData} (hf : ∀ d, strip (f d) = strip d) :
    Alike m (m.updateDataAt slot f) := by
  unfold MemMount.updateDataAt
  split
  · exact Alike.refl m
  · exact Alike.updateData hf

theorem Alike.exists_data (h : Alike m m') {i : Nat} (hd : m.getData i = some d) :
    ∃ d', m'.getData i = some d' ∧ strip d' = strip d := by
  have hi := h.data i
  rw [hd, Option.map_some] at hi
  exact Option.map_eq_some_iff.mp hi

private theorem Alike.symm (h : Alike m m') : Alike m' m := ⟨h.slots.symm, fun i => (h.data i).symm⟩

private theorem Alike.dataAt (h : Alike m m') : (m'.dataAt s).map strip = (m.dataAt s).map strip := by
  rw [MemMount.dataAt, MemMount.dataAt, h.nodeAt]
  cases m.nodeAt s with
  | none => rfl
  | some n => exact h.data n.nodedata

theorem Alike.walk (h : Alike m m') (s : Nat) (names : List Text) :
    m'.walk s names = m.walk s names := by
  apply walk_congr
  intro q _
  apply lookup_congr
  · have hd : ∀ o o' : Option MemData, o'.map strip = o.map strip →
        o'.map (fun d => (d.isDir, d.children)) = o.map fun d => (d.isDir, d.children) := by
      intro o o' heq
      have hmap := congrArg (Option.map fun d : MemData => (d.isDir, d.children)) heq
      rw [Option.map_map, Option.map_map] at hmap
      exact hmap
    exact hd _ _ h.dataAt
  · intro d _ _
    apply findChild_congr
    intro c _
    rw [h.nodeAt]

/-! ## Paths beside an entry -/

/-- The walk of the path never looks up the entry of the other path: its name, in a directory of the
same data. -/
def Outside (m : MemMount) (path other : AbsolutePath) : Prop :=
  ∀ p pn, m.getParentSlot other = some (.ok p) → m.nodeAt p = some pn →
    ∀ q ∈ m.lookups rootSlot path.path,
      ¬(q.2 = other.last ∧ (m.nodeAt q.1).map MemNode.nodedata = some pn.nodedata)

section Enter

variable {parent : Nat} {isDir : Bool} {hardlink : Option Nat} {pn : MemNode} {pd : MemData}
  {path other : AbsolutePath} (mode : Nat)

theorem Sound.lookups_enterNode (h : m.Sound) (he : m.Enterable parent other.last isDir hardlink pn pd)
    (hbeside : ∀ q ∈ m.lookups rootSlot names,
      ¬(q.2 = other.last ∧ (m.nodeAt q.1).map MemNode.nodedata = some pn.nodedata)) :
    ∀ q ∈ m.lookups rootSlot names,
      (m.enterNode parent other.last isDir mode hardlink).walk q.1 [q.2] = m.walk q.1 [q.2] := by
  intro q hq
  obtain ⟨rn, hrn, -⟩ := h.grounded.root
  obtain ⟨hq0, ⟨xn, hxn⟩, -, -, -⟩ := h.mem_lookups (by decide) hrn hq
  apply h.lookup_enterNode mode he hq0 hxn
  by_cases hname : q.2 = other.last
  · apply Or.inl
    intro hdata
    apply hbeside q hq
    exact ⟨hname, by rw [hxn, Option.map_some, hdata]⟩
  · exact Or.inr hname

theorem Enterable.beside (he : m.Enterable parent other.last isDir hardlink pn pd)
    (h : m.walk rootSlot names = some (.ok t)) :
    ∀ q ∈ m.lookups rootSlot names,
      ¬(q.2 = other.last ∧ (m.nodeAt q.1).map MemNode.nodedata = some pn.nodedata) := by
  intro q hq hboth
  obtain ⟨u, hu⟩ := lookup_ok_of_walk h hq
  obtain ⟨xn, hxn, hdata⟩ := Option.map_eq_some_iff.mp hboth.2
  obtain ⟨d, hd, -, hfind⟩ := walk_singleton_ok hu
  rw [dataAt_of hxn, hdata, he.data] at hd
  cases hd
  rw [hboth.1, he.missing] at hfind
  cases hfind

theorem Sound.getSlot_enterNode (h : m.Sound) (hparent : m.getParentSlot other = some (.ok parent))
    (hne : other.path ≠ []) (he : m.Enterable parent other.last isDir hardlink pn pd) :
    (m.enterNode parent other.last isDir mode hardlink).getSlot other =
        some (.ok (m.newSlot parent other.last isDir mode hardlink)) ∧
      (m.enterNode parent other.last isDir mode hardlink).arrivals rootSlot other.path =
        m.arrivals rootSlot other.dotdot.path ++ [m.newSlot parent other.last isDir mode hardlink] := by
  have hwalk : m.walk rootSlot other.dotdot.path = some (.ok parent) := hparent
  have hlookups := h.lookups_enterNode mode he (he.beside hwalk)
  have hp : (m.enterNode parent other.last isDir mode hardlink).walk rootSlot other.dotdot.path =
      some (.ok parent) := by
    rw [walk_congr hlookups, hwalk]
  have hnew := h.lookup_newSlot mode he (h.grounded.ne_zero he.node he.data) he.node rfl
  constructor
  · rw [getSlot, AbsolutePath.path_eq_snoc hne, walk_append, hp, Option.bind_some]
    exact hnew
  · rw [AbsolutePath.path_eq_snoc hne, arrivals_append hp, arrivals_congr hlookups]
    simp only [arrivals, hnew]

end Enter

/-! ## Links -/

section Links

variable {p q : AbsolutePath}

theorem Alike.getMemNode (h : Alike m m') (path : AbsolutePath) :
    m'.getMemNode path = m.getMemNode path := by
  rw [MemMount.getMemNode, MemMount.getMemNode, getSlot, h.walk, ← getSlot]
  congr 1
  funext r
  cases r with
  | error e => rfl
  | ok s => simp only [h.nodeAt]

theorem strip_unref (d : MemData) :
    strip (if d.isDir then d else { d with useCount := d.useCount - 1 }) = strip d := by
  split
  · rfl
  · rfl

/-- What a successful link has found and done: apart from counters, it entered a node of the old
path's data at the new path. -/
structure LinkMade (m m' : MemMount) (p q : AbsolutePath) (sp : Nat) (n : MemNode) : Prop where
  old : m.getMemNode p = some (some sp)
  node : m.nodeAt sp = some n
  parent : (m.nodeAt n.parent).isSome
  missing : m.getMemNode q = some none
  short : m.dirAt sp = true → q.last.length ≤ nameMax
  below : q.path ≠ []
  made : ∃ m₁ parent pn pd isDir mode, Alike m m₁ ∧ m₁.Sound ∧ m₁.getParentSlot q = some (.ok parent) ∧
    m₁.Enterable parent q.last isDir (some n.nodedata) pn pd ∧
    Alike (m₁.enterNode parent q.last isDir mode (some n.nodedata)) m'

private theorem mkdir_short {mode : Nat} {hardlink : Option Nat}
    (hcall : m.mkdir q mode hardlink = some (.ok (), m')) : q.last.length ≤ nameMax := by
  obtain ⟨child, -, hcall⟩ := Option.bind_eq_some_iff.mp hcall
  cases child with
  | some c => cases hcall
  | none =>
      obtain ⟨parent, -, hcall⟩ := Option.bind_eq_some_iff.mp hcall
      cases parent with
      | error e => cases hcall
      | ok s =>
          obtain ⟨pd, -, hcall⟩ := Option.bind_eq_some_iff.mp hcall
          split at hcall
          · split at hcall
            · cases hcall
            · rename_i hlong
              exact Nat.le_of_not_lt hlong
          · cases hcall

theorem openCreat_missing {mode : Nat} {hardlink : Option Nat} {r : Except Errno Unit}
    (hcall : m.openCreat q false mode hardlink = some (r, m')) (hq : m.getMemNode q = some none)
    (hshared : m.SharedData false hardlink) :
    (∃ e, r = .error e ∧ m' = m) ∨
      ∃ parent pn pd, m.getParentSlot q = some (.ok parent) ∧ q.path ≠ [] ∧
        m.Enterable parent q.last false hardlink pn pd ∧
        m' = m.enterNode parent q.last false mode hardlink ∧
        ∃ node, m'.getMemNode q = some node ∧
          r = if node.isSome then .ok () else .error .enoent := by
  obtain ⟨⟨r₁, m₁⟩, hcreat, hopened⟩ := Option.bind_eq_some_iff.mp hcall
  rcases creat_cases hcreat hshared with
    ⟨e, rfl, rfl, hexist⟩ | ⟨rfl, parent, pn, pd, hp, hne, hent, rfl⟩
  · simp only at hopened
    split at hopened
    · cases hopened
      exact .inl ⟨e, rfl, rfl⟩
    · rename_i hno
      rw [not_or, not_not] at hno
      obtain ⟨s, hs⟩ := hexist hno.1
      rw [hq] at hs
      cases hs
  · obtain ⟨node, hnode, heq⟩ := Option.map_eq_some_iff.mp hopened
    obtain ⟨rfl, rfl⟩ := Prod.mk.inj heq
    exact .inr ⟨parent, pn, pd, hp, hne, hent, rfl, node, hnode, rfl⟩

theorem alike_withHardinode (m : MemMount) (n : MemNode) (sp : Nat) :
    Alike m (m.withHardinode n sp) :=
  Alike.updateData fun _ => rfl

/-- Noting the old node brings no node to the new path. -/
theorem Linkable.missing (hl : m.Linkable p q slot n d) :
    (m.withHardinode n slot).getMemNode q = some none := by
  rw [(alike_withHardinode m n slot).getMemNode, hl.new]

theorem Sound.withHardinode (h : m.Sound) (n : MemNode) (sp : Nat) : (m.withHardinode n sp).Sound :=
  h.updateData (inert_hardinode sp)

theorem Sound.link_made (h : m.Sound) (hcall : m.link p q = some (.ok (), m')) :
    ∃ sp n, LinkMade m m' p q sp n := by
  rcases link_cases hcall with ⟨hr, -⟩ | ⟨s, t, -, -, hr, -⟩ | ⟨sp, n, d, hl, hmade⟩
  · cases hr
  · cases hr
  · have hshared := hl.shared
    have halike := alike_withHardinode m n sp
    have hsound := h.withHardinode n sp
    have hmissing := hl.missing
    rcases hmade with ⟨hdir, hcall⟩ | ⟨hdir, r₂, m₂, found, hopened, -, hends⟩
    · rw [hdir] at hshared
      have hshort : m.dirAt sp = true → q.last.length ≤ nameMax := fun _ => mkdir_short hcall
      rcases mkdir_cases hcall hshared with ⟨e, he, -⟩ | ⟨-, parent, pn, pd, hp, hne, hent, rfl⟩
      · cases he
      · exact ⟨sp, n, hl.old, hl.node, hl.parent, hl.new, hshort, hne, _, parent, pn, pd, _, _,
          halike, hsound, hp, hent, Alike.refl _⟩
    · rw [hdir] at hshared
      have hshort : m.dirAt sp = true → q.last.length ≤ nameMax := by
        intro hd'
        rw [dirAt, dataAt_of hl.node, hl.data, Option.any_some, hdir] at hd'
        cases hd'
      -- an error of `Open` is not turned into a success
      have hok : r₂ = .ok () := by
        rcases hends with ⟨slot, -, hr, -⟩ | ⟨e, -, hr, -⟩
        · exact hr.symm
        · cases r₂ with
          | ok u => rfl
          | error e' => cases hr
      have hkept : Alike m₂ m' := by
        rcases hends with ⟨slot, -, -, rfl⟩ | ⟨e, -, -, rfl⟩
        · exact Alike.updateDataAt strip_unref
        · exact Alike.refl _
      rcases openCreat_missing hopened hmissing hshared with
        ⟨e, he, -⟩ | ⟨parent, pn, pd, hp, hne, hent, rfl, -⟩
      · rw [hok] at he
        cases he
      · exact ⟨sp, n, hl.old, hl.node, hl.parent, hl.new, hshort, hne, _, parent, pn, pd, _, _,
          halike, hsound, hp, hent, hkept⟩

/-- A refused link has changed counters at most, and it is refused as existing only if the new path
leads somewhere. -/
private theorem Sound.link_refused (h : m.Sound) {e : Errno} (hcall : m.link p q = some (.error e, m')) :
    Alike m m' ∧ (e = .eexist → m' = m ∧ ∃ sp sq, m.getMemNode p = some (some sp) ∧
      m.getMemNode q = some (some sq)) := by
  rcases link_cases hcall with ⟨hr, rfl⟩ | ⟨s, t, hs, ht, -, rfl⟩ | ⟨sp, n, d, hl, hmade⟩
  · cases hr
    exact ⟨Alike.refl _, fun he => by cases he⟩
  · exact ⟨Alike.refl _, fun _ => ⟨rfl, s, t, hs, ht⟩⟩
  · have hshared := hl.shared
    have halike := alike_withHardinode m n sp
    have hsound := h.withHardinode n sp
    have hmissing := hl.missing
    rcases hmade with ⟨hdir, hcall⟩ | ⟨hdir, r₂, m₂, found, hopened, hfound, hends⟩
    · rw [hdir] at hshared
      rcases mkdir_cases hcall hshared with ⟨e', he, rfl, hexist⟩ | ⟨hr, -⟩
      · cases he
        refine ⟨halike, fun heq => ?_⟩
        obtain ⟨s, hs⟩ := hexist heq
        rw [hmissing] at hs
        cases hs
      · cases hr
    · rw [hdir] at hshared
      rcases openCreat_missing hopened hmissing hshared with
        ⟨e₁, rfl, rfl⟩ | ⟨parent, pn, pd, hp, hne, hent, rfl, node, hnode, hr₂⟩
      · rcases hends with ⟨slot, rfl, -, -⟩ | ⟨e₂, rfl, hr, rfl⟩
        · rw [hsound.getMemNode_iff.mpr hfound] at hmissing
          cases hmissing
        · cases hr
          refine ⟨halike, fun heq => ?_⟩
          rcases walk_error hfound with he | he
          · rw [he] at heq
            cases heq
          · rw [he] at heq
            cases heq
      · -- the node that was made is found, so that there is nothing to refuse
        have hslot := (hsound.getSlot_enterNode 0o600 hp hne hent).1
        rw [(hsound.enterNode hent).getMemNode_iff.mpr hslot] at hnode
        cases hnode
        rcases hends with ⟨slot, -, hr, -⟩ | ⟨e₂, rfl, -, -⟩
        · rw [hr₂] at hr
          cases hr
        · rw [hslot] at hfound
          cases hfound

private theorem mkdir_ok {mode : Nat} {hardlink : Option Nat} (hq : m.getMemNode q = some none)
    (hs : m.getParentSlot q = some (.ok s)) (hd : m.dataAt s = some d) (hdir : d.isDir = true)
    (hname : q.last.length ≤ nameMax) : ∃ m', m.mkdir q mode hardlink = some (.ok (), m') := by
  simp only [mkdir, hq, hs, hd, Option.bind_some, if_pos hdir, if_neg (Nat.not_lt.mpr hname)]
  exact ⟨_, rfl⟩

private theorem creat_ok (mode : Nat) (hardlink : Option Nat) (hq : m.getMemNode q = some none)
    (hs : m.getParentSlot q = some (.ok s)) (hn : m.nodeAt s = some n)
    (hd : m.getData n.nodedata = some d) (hdir : d.isDir = true) :
    ∃ m', m.creat q mode hardlink = some (.ok (), m') := by
  simp only [creat, hs, hn, hd, Option.bind_some, if_pos hdir, hq]
  exact ⟨_, rfl⟩

private theorem Sound.link_ok (h : m.Sound) {sp : Nat} (hp : m.getMemNode p = some (some sp))
    (hn : m.nodeAt sp = some n) (hpar : (m.nodeAt n.parent).isSome)
    (hq : m.getMemNode q = some none) (hs : m.getParentSlot q = some (.ok s))
    (hdir : m.dirAt s = true) (hname : m.dirAt sp = true → q.last.length ≤ nameMax) :
    ∃ m', m.link p q = some (.ok (), m') := by
  obtain ⟨sd, hsd, hsdir⟩ := (Option.any_eq_true _ _).mp hdir
  obtain ⟨sn, hsn, hsdata⟩ := dataAt_eq_some.mp hsd
  obtain ⟨d, hd⟩ := h.exists_data (h.getSlot_ok (h.getMemNode_iff.mp hp)).1 hn
  obtain ⟨pn, hpn⟩ := Option.isSome_iff_exists.mp hpar
  have hshared := sharedData_touch hn hd (getSlot_name (h.getMemNode_iff.mp hp) hn) _
    (inert_hardinode sp)
  have hsound : (m.updateData n.nodedata fun d => { d with hardinode := sp }).Sound :=
    h.updateData (inert_hardinode sp)
  have halike : Alike m (m.updateData n.nodedata fun d => { d with hardinode := sp }) :=
    Alike.updateData fun _ => rfl
  obtain ⟨sd', hsd', hstrip⟩ := halike.exists_data hsdata
  have hsdir' : sd'.isDir = true := by
    have hkeep : (strip sd').isDir = (strip sd).isDir := congrArg MemData.isDir hstrip
    exact hkeep.trans hsdir
  have hq' := (halike.getMemNode q).trans hq
  have hs' : (m.updateData n.nodedata fun d => { d with hardinode := sp }).getParentSlot q =
      some (.ok s) := by
    rw [getParentSlot, getSlot, halike.walk]
    exact hs
  simp only [link, hp, hn, hpn, hq, dataAt_of hn, hd, Option.bind_some]
  cases hdd : d.isDir with
  | true =>
      have hspdir : m.dirAt sp = true := by rw [dirAt, dataAt_of hn, hd, Option.any_some, hdd]
      simp only [if_true]
      have hsn' : (m.updateData n.nodedata fun d => { d with hardinode := sp }).nodeAt s = some sn := hsn
      exact mkdir_ok hq' hs' (by rw [dataAt_of hsn', hsd']) hsdir' (hname hspdir)
  | false =>
      rw [hdd] at hshared
      simp only [Bool.false_eq_true, if_false]
      obtain ⟨m₂, hcreat⟩ := creat_ok 0o600 (some n.nodedata) hq' hs' hsn hsd' hsdir'
      rcases creat_cases hcreat hshared with ⟨e, he, -⟩ | ⟨-, parent, pn', pd, hpp, hne, hent, rfl⟩
      · cases he
      · have hfound := (hsound.getSlot_enterNode 0o600 hpp hne hent).1
        have hmem := (hsound.enterNode hent).getMemNode_iff.mpr hfound
        simp only [openCreat, hcreat, hmem, hfound, Option.bind_some, Option.map_some]
        exact ⟨_, rfl⟩

end Links

/-! ## Removing the old name -/

/-- The files that paths lead to, with their contents. -/
def fileAt (m : MemMount) (path : AbsolutePath) : Option (Nat × List UInt8) :=
  (m.memDataOf path).bind fun id => (m.getData id).map fun d => (id, d.contents)

/-- Every path leads where it did, to the same contents. -/
def SameFiles (m m' : MemMount) : Prop :=
  ∀ path, m'.getSlot path = m.getSlot path ∧ m'.fileAt path = m.fileAt path

/-- The file has moved, and paths beside the two entries lead where they did. -/
structure Renamed (m m' : MemMount) (p q : AbsolutePath) : Prop where
  target : ∃ id, m.memDataOf p = some id ∧ m'.memDataOf q = some id
  source : ∃ e, m'.getSlot p = some (.error e)
  others : ∀ path, m.Outside path p → m.Outside path q →
    m'.getSlot path = m.getSlot path ∧ m'.memDataOf path = m.memDataOf path

section Removing

variable {p q path : AbsolutePath} {sp : Nat}

private theorem Alike.sameFiles (h : Alike m m') : SameFiles m m' := by
  intro path
  have hslot : m'.getSlot path = m.getSlot path := h.walk rootSlot path.path
  have hdata : m'.memDataOf path = m.memDataOf path := by
    simp only [memDataOf, h.getMemNode, h.nodeAt]
  refine ⟨hslot, ?_⟩
  rw [fileAt, hdata, fileAt]
  cases m.memDataOf path with
  | none => rfl
  | some id =>
      have hid := congrArg (Option.map fun d : MemData => (id, d.contents)) (h.data id)
      rw [Option.map_map, Option.map_map] at hid
      exact hid

theorem memDataOf_congr (hslot : m'.getSlot path = m.getSlot path)
    (hnode : ∀ s, m.getSlot path = some (.ok s) → m'.nodeAt s = m.nodeAt s) :
    m'.memDataOf path = m.memDataOf path := by
  unfold memDataOf getMemNode
  rw [hslot]
  cases hr : m.getSlot path with
  | none => rfl
  | some r =>
      cases r with
      | error e => rfl
      | ok s =>
          simp only [Option.map_some, hnode s hr]
          split
          · simp only [Option.join_some, Option.bind_some, hnode s hr]
          · rfl

theorem Sound.not_arrives (h : m.Sound) (hp : m.getSlot p = some (.ok sp)) (hroot : sp ≠ rootSlot)
    (hout : m.Outside path p) : sp ∉ m.arrivals rootSlot path.path := by
  intro hmem
  have hne : p.path ≠ [] := by
    intro hnil
    rw [getSlot, hnil] at hp
    cases hp
    exact hroot rfl
  have hwalk := hp
  rw [getSlot, AbsolutePath.path_eq_snoc hne] at hwalk
  obtain ⟨pp, hpp, hstep⟩ := walk_snoc_ok hwalk
  obtain ⟨pd, hpd, hpdir, hpfind⟩ := walk_singleton_ok hstep
  obtain ⟨pn, hpn, hpdata⟩ := dataAt_eq_some.mp hpd
  obtain ⟨hpmem, sn, hsn, hname⟩ := findChild_found hpfind
  obtain ⟨l, hl, hfound⟩ := exists_lookup_of_arrival hmem
  obtain ⟨xd, hxd, hxdir, hxfind⟩ := walk_singleton_ok hfound
  obtain ⟨xn, hxn, hxdata⟩ := dataAt_eq_some.mp hxd
  obtain ⟨hxmem, sn', hsn', hname'⟩ := findChild_found hxfind
  rw [hsn] at hsn'
  cases hsn'
  apply hout pp pn hpp hpn l hl
  refine ⟨by rw [← hname', hname], ?_⟩
  rw [hxn, Option.map_some, h.unique l.1 xn xd pp pn pd hxn hxdata hxdir hpn hpdata hpdir sp hxmem hpmem]

private theorem Sound.unlinkInternal_ok (h : m.Sound) (hs0 : slot ≠ 0) (hroot : slot ≠ rootSlot)
    (hn : m.nodeAt slot = some n) (hpar : (m.nodeAt n.parent).isSome)
    (htwo : 2 ≤ m.nodesOf n.nodedata) : ∃ m', m.unlinkInternal slot = some (.ok (), m') := by
  obtain ⟨d, hd, hle⟩ := h.counted slot n hs0 hn
  obtain ⟨pn, hpn⟩ := Option.isSome_iff_exists.mp hpar
  obtain ⟨pd, hpd⟩ := h.exists_data (h.parents slot n hs0 hroot hn) hpn
  simp only [unlinkInternal, hn, hd, Option.bind_some, hpn, Option.isNone_some, Bool.false_eq_true,
    false_and, if_false, Option.isSome_some, if_true, dataAt_of hpn, hpd, Option.map_some]
  rw [if_neg (by omega)]
  split
  · exact ⟨_, rfl⟩
  · exact ⟨_, rfl⟩

theorem Sound.unlink_vanishes (h : m.Sound) (hcall : m.unlinkInternal slot = some (.ok (), m'))
    (hlisted : ∀ x ∈ m.unlinkInternalRemovals slot, x.1.keepsListing x.2 = true) :
    Vanishes m m' slot := by
  obtain ⟨n, d, hn, hd, hcases⟩ := unlinkInternal_cases hcall
  rcases hcases with ⟨e, he, -⟩ | ⟨-, hrem, rfl⟩ | ⟨-, hhide, rfl⟩
  · cases he
  · exact h.vanishes_removeNode hrem (hlisted _ (hrem.mem_removals hcall))
  · exact h.vanishes_hideNode hhide

/-- The state after a link: the new node shares the data, nothing else that paths reach has
changed. -/
structure LinkSeen (m m' : MemMount) (q : AbsolutePath) (new id : Nat) : Prop where
  found : m'.ResolvesTo q new id
  free : m.nodeAt new = none
  route : m'.arrivals rootSlot q.path = m.arrivals rootSlot q.dotdot.path ++ [new]
  node : ∀ s sn, m.nodeAt s = some sn → m'.nodeAt s = some sn
  arrived : ∀ names t, m.walk rootSlot names = some (.ok t) →
    ∀ l ∈ m.lookups rootSlot names, m'.walk l.1 [l.2] = m.walk l.1 [l.2]
  beside : ∀ path, m.Outside path q →
    ∀ l ∈ m.lookups rootSlot path.path, m'.walk l.1 [l.2] = m.walk l.1 [l.2]

theorem LinkMade.seen (hl : LinkMade m m' p q sp n) : ∃ new, LinkSeen m m' q new n.nodedata := by
  obtain ⟨m₁, parent, pn, pd, isDir, mode, halike, hsound, hparent, he, halike'⟩ := hl.made
  have hlookups : ∀ names, m₁.lookups rootSlot names = m.lookups rootSlot names :=
    fun names => lookups_congr fun l _ => halike.walk l.1 [l.2]
  obtain ⟨hfound, hroute⟩ := hsound.getSlot_enterNode mode hparent hl.below he
  refine ⟨m₁.newSlot parent q.last isDir mode (some n.nodedata), ⟨?_, ?_⟩, ?_, ?_, ?_, ?_, ?_⟩
  · rw [getSlot, halike'.walk]
    exact hfound
  · rw [halike'.nodeAt, nodeAt_enterNode, if_pos rfl]
    rfl
  · rw [← halike.nodeAt]
    exact newSlot_free m₁ parent q.last isDir mode (some n.nodedata)
  · rw [arrivals_congr fun l _ => halike'.walk l.1 [l.2], hroute,
      arrivals_congr fun l _ => halike.walk l.1 [l.2]]
  · intro s sn hsn
    rw [halike'.nodeAt]
    exact nodeAt_enterNode_of_some (by rw [halike.nodeAt, hsn])
  · intro names t hwalk l hmem
    rw [halike'.walk, hsound.lookups_enterNode mode he
      (he.beside (by rw [halike.walk, hwalk])) l (by rw [hlookups]; exact hmem), halike.walk]
  · intro path hout l hmem
    rw [halike'.walk, hsound.lookups_enterNode mode he _ l (by rw [hlookups]; exact hmem), halike.walk]
    intro l' hl' hboth
    rw [hlookups] at hl'
    apply hout parent pn _ (by rw [← halike.nodeAt, he.node]) l' hl'
    · rw [halike.nodeAt] at hboth
      exact hboth
    · rw [getParentSlot, getSlot, ← halike.walk]
      exact hparent

theorem LinkMade.getSlot_old (h : m.Sound) (hl : LinkMade m m' p q sp n) {new : Nat}
    (hseen : LinkSeen m m' q new n.nodedata) : m'.getSlot p = some (.ok sp) := by
  have hold := h.getMemNode_iff.mp hl.old
  rw [getSlot, walk_congr (hseen.arrived p.path sp hold)]
  exact hold

theorem LinkMade.old_ne_new (hl : LinkMade m m' p q sp n) {new : Nat}
    (hseen : LinkSeen m m' q new n.nodedata) : sp ≠ new := by
  intro he
  have hfree := hseen.free
  rw [← he, hl.node] at hfree
  cases hfree

private theorem LinkMade.unlink_old (h : m.Sound) (hm' : m'.Sound) (hl : LinkMade m m' p q sp n)
    (hroot : sp ≠ rootSlot) {new : Nat} (hseen : LinkSeen m m' q new n.nodedata)
    (hlisted : ∀ x ∈ m'.renameUnlinkRemovals p q, x.1.keepsListing x.2 = true) :
    ∃ m₂, m'.unlink p = some (.ok (), m₂) ∧ Vanishes m' m₂ sp := by
  have hp := hl.getSlot_old h hseen
  have hn := hseen.node sp n hl.node
  obtain ⟨qn, hqn, hqd⟩ := Option.map_eq_some_iff.mp hseen.found.2
  have htwo : 2 ≤ m'.nodesOf n.nodedata :=
    two_le_nodesOf hn hqn (Ne.symm (hl.old_ne_new hseen)) hqd
  have hpar : (m'.nodeAt n.parent).isSome := by
    obtain ⟨pn, hpn⟩ := Option.isSome_iff_exists.mp hl.parent
    rw [hseen.node n.parent pn hpn]
    rfl
  obtain ⟨m₂, hinternal⟩ := hm'.unlinkInternal_ok (hm'.getSlot_ok hp).1 hroot hn hpar htwo
  have hmem := hm'.getMemNode_iff.mpr hp
  refine ⟨m₂, ?_, ?_⟩
  · simp only [unlink, hmem, Option.bind_some, hinternal]
  · apply hm'.unlink_vanishes hinternal
    intro x hx
    apply hlisted
    rw [renameUnlinkRemovals, unlinkRemovals, hmem]
    exact List.mem_append_left _ hx

private theorem LinkMade.renamed (h : m.Sound) (hm' : m'.Sound) (hl : LinkMade m m' p q sp n)
    (hroot : sp ≠ rootSlot) (hoff : sp ∉ m.arrivals rootSlot q.dotdot.path) {new : Nat}
    (hseen : LinkSeen m m' q new n.nodedata) (hv : Vanishes m' m'' sp) : Renamed m m'' p q := by
  obtain ⟨rn, hrn, -⟩ := hm'.grounded.root
  have hslash : ∀ (path : AbsolutePath), ∀ name ∈ path.path, '/' ∉ name :=
    fun path name hname => AbsolutePath.slash_not_mem_of_mem_path hname
  have hold := h.getMemNode_iff.mp hl.old
  have hp := hl.getSlot_old h hseen
  refine ⟨?_, ?_, ?_⟩
  · have hres : m''.ResolvesTo q new n.nodedata := by
      apply hv.resolvesTo hm' hroot hseen.found
      rw [hseen.route, List.mem_append, not_or]
      exact ⟨hoff, fun hmem => hl.old_ne_new hseen (List.mem_singleton.mp hmem)⟩
    obtain ⟨qn₂, hqn₂, hqd₂⟩ := Option.map_eq_some_iff.mp hres.2
    exact ⟨n.nodedata, memDataOf_eq_some.mpr ⟨sp, n, hold, hl.node, rfl⟩,
      memDataOf_eq_some.mpr ⟨new, qn₂, hres.1, hqn₂, hqd₂⟩⟩
  · have harr : sp ∈ m'.arrivals rootSlot p.path := by
      rcases mem_arrivals_of_walk hp with he | hmem
      · exact absurd he hroot
      · exact hmem
    exact ⟨.enoent, hv.walk_gone hm' (by decide) hrn (Ne.symm hroot) (hslash p) harr⟩
  · intro path hpout hqout
    have hlookups := hseen.beside path hqout
    have hnot : sp ∉ m'.arrivals rootSlot path.path := by
      rw [arrivals_congr hlookups]
      exact h.not_arrives hold hroot hpout
    have hslot : m''.getSlot path = m.getSlot path := by
      rw [getSlot, hv.walk_other hm' (by decide) hrn (Ne.symm hroot) (hslash path) hnot,
        walk_congr hlookups]
      rfl
    refine ⟨hslot, memDataOf_congr hslot fun t ht => ?_⟩
    obtain ⟨-, tn, htn⟩ := h.getSlot_ok ht
    have htsp : t ≠ sp := by
      intro he
      rcases mem_arrivals_of_walk ht with hroot' | hmem
      · exact hroot (he.symm.trans hroot')
      · exact h.not_arrives hold hroot hpout (he ▸ hmem)
    rw [hv.node t tn htsp (hseen.node t tn htn), htn]

theorem LinkMade.renameUnlink (h : m.Sound) (hm' : m'.Sound) (hl : LinkMade m m' p q sp n)
    (hoff : sp ∉ rootSlot :: m.arrivals rootSlot q.dotdot.path)
    (hlisted : ∀ x ∈ m'.renameUnlinkRemovals p q, x.1.keepsListing x.2 = true)
    {r : Except Errno Unit} (hcall : m'.renameUnlink p q = some (r, m'')) :
    r = .ok () ∧ Renamed m m'' p q := by
  obtain ⟨new, hseen⟩ := hl.seen
  rw [List.mem_cons, not_or] at hoff
  obtain ⟨m₂, hunlink, hv⟩ := hl.unlink_old h hm' hoff.1 hseen hlisted
  simp only [MemMount.renameUnlink, hunlink, Option.bind_some, Option.some.injEq,
    Prod.mk.injEq] at hcall
  obtain ⟨hr, rfl⟩ := hcall
  exact ⟨hr.symm, hl.renamed h hm' hoff.1 hoff.2 hseen hv⟩

end Removing

/-! ## Whole renames -/

/-- `UnlinkInternal` would remove the node. -/
def unlinkable (m : MemMount) (slot : Nat) : Bool :=
  match m.nodeAt slot, m.dataAt slot with
  | some n, some d => ((m.nodeAt n.parent).isSome || d.wantUnlink) &&
      !(d.isDir && decide (d.nlink < 2))
  | _, _ => false

/-- The new name does not lie below the old node; and when there is something to remove at the new
name, it is no node on the way to the old name or to the new one, and the new link will be made. -/
def renameSafe (m : MemMount) (p q : AbsolutePath) : Bool :=
  match m.getMemNode p, m.getParentSlot q, m.getMemNode q with
  | some (some sp), some (.ok s), some none =>
      !(m.dirAt s && !(m.dirAt sp && decide (nameMax < q.last.length))) ||
        decide (sp ∉ rootSlot :: m.arrivals rootSlot q.dotdot.path)
  | some (some sp), some (.ok _), some (some sq) =>
      !m.unlinkable sq || (decide (sp ∉ rootSlot :: m.arrivals rootSlot q.dotdot.path) &&
        decide (sq ∉ rootSlot :: m.arrivals rootSlot q.dotdot.path) &&
        decide (sq ∉ rootSlot :: m.arrivals rootSlot p.path) &&
        !(m.dirAt sp && decide (nameMax < q.last.length)))
  | _, _, _ => true

/-- Either nothing happened or everything. -/
def AllOrNothing (m m' : MemMount) (p q : AbsolutePath) : Except Errno Unit → Prop
  | .ok _ => Renamed m m' p q
  | .error _ => SameFiles m m'

section Whole

variable {p q path : AbsolutePath} {sp sq : Nat}

private theorem LinkMade.off (hl : LinkMade m m' p q sp n) (hsafe : m.renameSafe p q = true) :
    sp ∉ rootSlot :: m.arrivals rootSlot q.dotdot.path := by
  obtain ⟨m₁, parent, pn, pd, isDir, mode, halike, -, hparent, he, -⟩ := hl.made
  have hs : m.getParentSlot q = some (.ok parent) := by
    rw [getParentSlot, getSlot, ← halike.walk]
    exact hparent
  have hdir : m.dirAt parent = true := by
    obtain ⟨d, hd, hstrip⟩ := halike.symm.exists_data he.data
    have hkeep : (strip d).isDir = (strip pd).isDir := congrArg MemData.isDir hstrip
    rw [dirAt, dataAt_of (by rw [← halike.nodeAt, he.node]), hd, Option.any_some]
    exact hkeep.trans he.dir
  have hshort : (m.dirAt sp && decide (nameMax < q.last.length)) = false := by
    cases hd : m.dirAt sp with
    | false => rfl
    | true => simp [Nat.not_lt.mpr (hl.short hd)]
  simp only [renameSafe, hl.old, hs, hl.missing, hdir, hshort, Bool.not_false, Bool.and_self,
    Bool.not_true, Bool.false_or, decide_eq_true_eq] at hsafe
  exact hsafe

private theorem unlinkable_of_ok (hcall : m.unlinkInternal slot = some (.ok (), m')) :
    m.unlinkable slot = true := by
  obtain ⟨n, d, hn, hd, hcases⟩ := unlinkInternal_cases hcall
  simp only [unlinkable, hn, dataAt_of hn, hd]
  rcases hcases with ⟨e, he, -⟩ | ⟨-, hr, -⟩ | ⟨-, hh, -⟩
  · cases he
  · have hpar : ((m.nodeAt n.parent).isSome || d.wantUnlink) = true := by
      cases hp : m.nodeAt n.parent with
      | none => simp [hr.orphan hp]
      | some pn => rfl
    have hlinks : (d.isDir && decide (d.nlink < 2)) = false := by
      cases hd : d.isDir with
      | false => rfl
      | true => simp [Nat.not_lt.mpr (hr.links hd)]
    rw [hpar, hlinks]
    rfl
  · have hlinks : (d.isDir && decide (d.nlink < 2)) = false := by
      cases hd : d.isDir with
      | false => rfl
      | true => simp [Nat.not_lt.mpr (hh.links hd)]
    rw [hh.parent, hlinks]
    rfl

private theorem Vanishes.outside (hv : Vanishes m m' sq) (h : m.Sound) (hroot : sq ≠ rootSlot)
    {other : AbsolutePath} (hother : sq ∉ m.arrivals rootSlot other.dotdot.path)
    (hpath : sq ∉ m.arrivals rootSlot path.path) (hout : m.Outside path other) :
    m'.Outside path other := by
  obtain ⟨rn, hrn, -⟩ := h.grounded.root
  have hslash : ∀ (path : AbsolutePath), ∀ name ∈ path.path, '/' ∉ name :=
    fun path name hname => AbsolutePath.slash_not_mem_of_mem_path hname
  intro p pn hp hpn l hl hboth
  have hp' : m.getParentSlot other = some (.ok p) := by
    rw [← hp, getParentSlot, getSlot, getParentSlot, getSlot]
    exact (hv.walk_other h (by decide) hrn (Ne.symm hroot) (hslash other.dotdot) hother).symm
  obtain ⟨-, pn', hpn'⟩ := h.getSlot_ok hp'
  have hps : p ≠ sq := by
    intro he
    rcases mem_arrivals_of_walk hp' with he' | hmem
    · exact hroot (he.symm.trans he')
    · exact hother (he ▸ hmem)
  have hsame := hv.node p pn' hps hpn'
  rw [hpn] at hsame
  cases hsame
  have hlookups : m'.lookups rootSlot path.path = m.lookups rootSlot path.path :=
    lookups_congr fun l hl => hv.lookup_other h (by decide) hrn (Ne.symm hroot) (hslash path) hpath hl
  rw [hlookups] at hl
  obtain ⟨-, ⟨xn, hxn⟩, -, harr, -⟩ := h.mem_lookups (by decide) hrn hl
  have hls : l.1 ≠ sq := by
    intro he
    rcases harr with he' | hmem
    · exact hroot (he.symm.trans he')
    · exact hpath (he ▸ hmem)
  apply hout p pn hp' hpn' l hl
  refine ⟨hboth.1, ?_⟩
  rw [hxn, ← hboth.2, hv.node l.1 xn hls hxn]

/-- The target has been removed, and neither it nor the source is on a way that is still needed. -/
structure Cleared (m m' : MemMount) (p q : AbsolutePath) (sp sq : Nat) : Prop where
  sound : m.Sound
  vanishes : Vanishes m m' sq
  source : m.getSlot p = some (.ok sp)
  target : m.getSlot q = some (.ok sq)
  sourceOff : sp ∉ rootSlot :: m.arrivals rootSlot q.dotdot.path
  targetRoot : sq ≠ rootSlot
  targetOff : sq ∉ m.arrivals rootSlot q.dotdot.path
  targetOffSource : sq ∉ m.arrivals rootSlot p.path
  short : m.dirAt sp = true → q.last.length ≤ nameMax

theorem Cleared.walk (hc : Cleared m m' p q sp sq) {path : AbsolutePath}
    (hnot : sq ∉ m.arrivals rootSlot path.path) : m'.getSlot path = m.getSlot path := by
  obtain ⟨rn, hrn, -⟩ := hc.sound.grounded.root
  exact hc.vanishes.walk_other hc.sound (by decide) hrn (Ne.symm hc.targetRoot)
    (fun name hname => AbsolutePath.slash_not_mem_of_mem_path hname) hnot

theorem Cleared.ne_target (hc : Cleared m m' p q sp sq) {path : AbsolutePath} {t : Nat}
    (hnot : sq ∉ m.arrivals rootSlot path.path) (ht : m.getSlot path = some (.ok t)) : t ≠ sq := by
  intro he
  rcases mem_arrivals_of_walk ht with he' | hmem
  · exact hc.targetRoot (he.symm.trans he')
  · exact hnot (he ▸ hmem)

private theorem Cleared.renamed (hc : Cleared m m' p q sp sq) (hr : Renamed m' m'' p q) :
    Renamed m m'' p q := by
  have h := hc.sound
  have hv := hc.vanishes
  have hkeep : ∀ (path : AbsolutePath), sq ∉ m.arrivals rootSlot path.path →
      m'.getSlot path = m.getSlot path ∧ m'.memDataOf path = m.memDataOf path := by
    intro path hnot
    refine ⟨hc.walk hnot, memDataOf_congr (hc.walk hnot) fun t ht => ?_⟩
    obtain ⟨-, tn, htn⟩ := h.getSlot_ok ht
    rw [htn]
    exact hv.node t tn (hc.ne_target hnot ht) htn
  -- the way to the parent of the source is a part of the way to the source
  have hsp' : sq ∉ m.arrivals rootSlot p.dotdot.path := by
    by_cases hne : p.path = []
    · rw [AbsolutePath.path_dotdot, hne]
      exact List.not_mem_nil
    · have hwalk := hc.source
      rw [getSlot, AbsolutePath.path_eq_snoc hne] at hwalk
      obtain ⟨pp, hpp, -⟩ := walk_snoc_ok hwalk
      have hsp := hc.targetOffSource
      rw [AbsolutePath.path_eq_snoc hne, arrivals_append hpp, List.mem_append, not_or] at hsp
      exact hsp.1
  refine ⟨?_, hr.source, ?_⟩
  · rw [← (hkeep p hc.targetOffSource).2]
    exact hr.target
  · intro path hpout hqout
    have hnot := h.not_arrives hc.target hc.targetRoot hqout
    obtain ⟨hslot, hdata⟩ := hr.others path (hv.outside h hc.targetRoot hsp' hnot hpout)
      (hv.outside h hc.targetRoot hc.targetOff hnot hqout)
    rw [hslot, hdata]
    exact hkeep path hnot

private theorem Cleared.link_ok (hc : Cleared m m' p q sp sq) {r : Except Errno Unit}
    (hcall : m'.link p q = some (r, m'')) : r = .ok () := by
  have h := hc.sound
  have hv := hc.vanishes
  have hne : q.path ≠ [] := by
    intro hnil
    have hq := hc.target
    rw [getSlot, hnil] at hq
    cases hq
    exact hc.targetRoot rfl
  -- the source is still there
  have hp' := (hc.walk hc.targetOffSource).trans hc.source
  have hmp := hv.sound.getMemNode_iff.mpr hp'
  obtain ⟨-, n, hn⟩ := hv.sound.getSlot_ok hp'
  have hpar : (m'.nodeAt n.parent).isSome := by
    simp only [link, hmp, hn, Option.bind_some] at hcall
    obtain ⟨pn, hpn, -⟩ := Option.bind_eq_some_iff.mp hcall
    rw [hpn]
    rfl
  -- the target is gone from its directory, which stays
  have hwalk := hc.target
  rw [getSlot, AbsolutePath.path_eq_snoc hne] at hwalk
  obtain ⟨s, hs, hstep⟩ := walk_snoc_ok hwalk
  have hparent : m.getSlot q.dotdot = some (.ok s) := hs
  have hs' : m'.getParentSlot q = some (.ok s) := (hc.walk hc.targetOff).trans hparent
  obtain ⟨hs0, sn, hsn⟩ := h.getSlot_ok hparent
  have hss := hc.ne_target hc.targetOff hparent
  have hlast : q.last ∈ q.path := by
    rw [AbsolutePath.path_eq_snoc hne]
    exact List.mem_append_right _ (List.mem_singleton.mpr rfl)
  have hgone := hv.gone s sn q.last hs0 hsn hss (AbsolutePath.slash_not_mem_of_mem_path hlast) hstep
  have hdir : m'.dirAt s = true := by
    have hsn' := hv.node s sn hss hsn
    obtain ⟨d, hd⟩ := hv.sound.exists_data hs0 hsn'
    rw [dirAt, dataAt_of hsn', hd, Option.any_some]
    cases hdd : d.isDir with
    | true => rfl
    | false =>
        simp only [MemMount.walk, dataAt_of hsn', hd, Option.bind_some, hdd, Bool.false_eq_true,
          if_false, Option.some.injEq, Except.error.injEq] at hgone
        cases hgone
  have hmq : m'.getMemNode q = some none := by
    have hqgone : m'.getSlot q = some (.error .enoent) := by
      rw [getSlot, AbsolutePath.path_eq_snoc hne, walk_append]
      have hs'' : m'.walk rootSlot q.dotdot.path = some (.ok s) := hs'
      rw [hs'', Option.bind_some]
      exact hgone
    rw [getMemNode, hqgone, Option.map_some]
  obtain ⟨m₃, hlinked⟩ := hv.sound.link_ok hmp hn hpar hmq hs' hdir
    fun hd => hc.short (hv.shrinks.dirAt hd)
  rw [hcall] at hlinked
  cases hlinked
  rfl

theorem link_sound (h : m.Sound) {r : Except Errno Unit} (hcall : m.link p q = some (r, m')) :
    m'.Sound :=
  (link_evolves hcall).preserves Sound (fun _ _ hm hc => change_sound hm hc) h

theorem renameSafe_replace (hsafe : m.renameSafe p q = true) (hp : m.getMemNode p = some (some sp))
    (hs : m.getParentSlot q = some (.ok s)) (hq : m.getMemNode q = some (some sq))
    (hu : m.unlinkable sq = true) :
    sp ∉ rootSlot :: m.arrivals rootSlot q.dotdot.path ∧
      sq ∉ rootSlot :: m.arrivals rootSlot q.dotdot.path ∧
      sq ∉ rootSlot :: m.arrivals rootSlot p.path ∧
      (m.dirAt sp = true → q.last.length ≤ nameMax) := by
  simp only [renameSafe, hp, hs, hq, hu, Bool.not_true, Bool.false_or, Bool.and_eq_true,
    decide_eq_true_eq, Bool.not_eq_true', Bool.and_eq_false_iff] at hsafe
  obtain ⟨⟨⟨hsp, hsq⟩, hsq'⟩, hname⟩ := hsafe
  refine ⟨hsp, hsq, hsq', fun hd => ?_⟩
  rcases hname with hname | hname
  · rw [hd] at hname
    cases hname
  · exact Nat.le_of_not_lt (of_decide_eq_false hname)

theorem getParentSlot_ok (hq : m.getSlot q = some (.ok sq)) :
    ∃ s, m.getParentSlot q = some (.ok s) := by
  by_cases hne : q.path = []
  · exact ⟨rootSlot, by rw [getParentSlot, getSlot, AbsolutePath.path_dotdot, hne]; rfl⟩
  · rw [getSlot, AbsolutePath.path_eq_snoc hne] at hq
    obtain ⟨s, hs, -⟩ := walk_snoc_ok hq
    exact ⟨s, hs⟩

private theorem Sound.cleared (h : m.Sound) (hsafe : m.renameSafe p q = true)
    (hp : m.getMemNode p = some (some sp)) (hq : m.getMemNode q = some (some sq))
    (hremoved : m.unlinkInternal sq = some (.ok (), m'))
    (hlisted : ∀ x ∈ m.unlinkInternalRemovals sq, x.1.keepsListing x.2 = true) :
    Cleared m m' p q sp sq := by
  have hqs := h.getMemNode_iff.mp hq
  obtain ⟨s, hs⟩ := getParentSlot_ok hqs
  obtain ⟨hsp, hsq, hsqp, hname⟩ := renameSafe_replace hsafe hp hs hq (unlinkable_of_ok hremoved)
  rw [List.mem_cons, not_or] at hsq hsqp
  exact ⟨h, h.unlink_vanishes hremoved hlisted, h.getMemNode_iff.mp hp, hqs, hsp, hsq.1, hsq.2,
    hsqp.2, hname⟩

private theorem Cleared.renameUnlink (hc : Cleared m m' p q sp sq) {m₃ : MemMount}
    (hlink : m'.link p q = some (.ok (), m₃))
    (hlisted : ∀ x ∈ m₃.renameUnlinkRemovals p q, x.1.keepsListing x.2 = true)
    {r : Except Errno Unit} (hrest : m₃.renameUnlink p q = some (r, m'')) :
    r = .ok () ∧ Renamed m m'' p q := by
  have hv := hc.vanishes
  obtain ⟨sp', n, hl⟩ := hv.sound.link_made hlink
  have hsame : sp' = sp := by
    have hold := hv.sound.getMemNode_iff.mp hl.old
    rw [hc.walk hc.targetOffSource, hc.source] at hold
    cases hold
    rfl
  subst hsame
  have hoff : sp' ∉ rootSlot :: m'.arrivals rootSlot q.dotdot.path := by
    obtain ⟨rn, hrn, -⟩ := hc.sound.grounded.root
    rw [arrivals_congr fun l hl => hv.lookup_other hc.sound (by decide) hrn (Ne.symm hc.targetRoot)
      (fun name hname => AbsolutePath.slash_not_mem_of_mem_path hname) hc.targetOff hl]
    exact hc.sourceOff
  obtain ⟨hr, hrenamed⟩ := hl.renameUnlink hv.sound (link_sound hv.sound hlink) hoff hlisted hrest
  exact ⟨hr, hc.renamed hrenamed⟩

theorem Sound.rename_allOrNothing (h : m.Sound) (hsafe : m.renameSafe p q = true)
    (hlisted : ∀ x ∈ m.renameRemovals p q, x.1.keepsListing x.2 = true) {r : Except Errno Unit}
    (hcall : m.rename p q = some (r, m')) : AllOrNothing m m' p q r := by
  obtain ⟨⟨r₁, m₁⟩, hlink, hcall⟩ := Option.bind_eq_some_iff.mp hcall
  rw [renameRemovals, hlink] at hlisted
  cases r₁ with
  | ok u =>
      obtain ⟨sp, n, hl⟩ := h.link_made hlink
      obtain ⟨rfl, hrenamed⟩ := hl.renameUnlink h (link_sound h hlink) (hl.off hsafe) hlisted hcall
      exact hrenamed
  | error e =>
      obtain ⟨halike, hexists⟩ := h.link_refused hlink
      simp only at hcall
      split at hcall
      · rename_i he
        subst he
        obtain ⟨hm, sp, sq, hp, hq⟩ := hexists rfl
        have hm := hm.symm
        subst hm
        obtain ⟨⟨r₂, m₂⟩, hunlink, hcall⟩ := Option.bind_eq_some_iff.mp hcall
        have hinternal : m.unlinkInternal sq = some (r₂, m₂) := by
          rw [← hunlink, unlink, hq, Option.bind_some]
        simp only [hunlink, unlinkRemovals, hq] at hlisted
        cases r₂ with
        | error e =>
            cases hcall
            obtain ⟨n, d, -, -, hcases⟩ := unlinkInternal_cases hinternal
            rcases hcases with ⟨-, -, rfl⟩ | ⟨hr, -⟩ | ⟨hr, -⟩
            · exact (Alike.refl _).sameFiles
            · cases hr
            · cases hr
        | ok u =>
            have hc : Cleared m m₂ p q sp sq := h.cleared hsafe hp hq hinternal
              fun x hx => hlisted x (List.mem_append_left _ hx)
            obtain ⟨⟨r₃, m₃⟩, hrelink, hcall⟩ := Option.bind_eq_some_iff.mp hcall
            have hok := hc.link_ok hrelink
            subst hok
            simp only [hrelink] at hlisted
            obtain ⟨rfl, hrenamed⟩ := hc.renameUnlink hrelink
              (fun x hx => hlisted x (List.mem_append_right _ hx)) hcall
            exact hrenamed
      · cases hcall
        exact halike.sameFiles

/-- A file with a parent is on the way of a rename to itself, and without one the call does not
return. -/
theorem Sound.rename_self_unsafe (h : m.Sound) {s : Nat} (hs : m.getSlot p = some (.ok s))
    (hdir : m.dirAt s = false) {r : Except Errno Unit} (hcall : m.rename p p = some (r, m')) :
    m.renameSafe p p ≠ true := by
  intro hsafe
  have hmem := h.getMemNode_iff.mpr hs
  obtain ⟨hs0, n, hn⟩ := h.getSlot_ok hs
  obtain ⟨⟨r₁, m₁⟩, hlink, -⟩ := Option.bind_eq_some_iff.mp hcall
  simp only [link, hmem, hn, Option.bind_some] at hlink
  obtain ⟨pn, hpn, -⟩ := Option.bind_eq_some_iff.mp hlink
  obtain ⟨d, hd⟩ := h.exists_data hs0 hn
  rw [dirAt, dataAt_of hn, hd, Option.any_some] at hdir
  have hu : m.unlinkable s = true := by
    simp only [unlinkable, hn, dataAt_of hn, hd, hpn, hdir]
    rfl
  obtain ⟨parent, hparent⟩ := getParentSlot_ok hs
  obtain ⟨-, -, hoff, -⟩ := renameSafe_replace hsafe hmem hparent hmem hu
  exact absurd (List.mem_cons.mpr (mem_arrivals_of_walk hs)) hoff

end Whole

end MemMount

/-! ## Runs -/

namespace FileSystem

open MemMount

/-- Every node that the call removes is listed by its recorded parent and by no other directory. -/
def KeepsListing (fs : FileSystem) (c : FsCall) : Prop :=
  ∀ x ∈ fs.removals c, x.1.keepsListing x.2 = true

instance (fs : FileSystem) (c : FsCall) : Decidable (fs.KeepsListing c) :=
  List.decidableBAll (fun x : MemMount × Removal => x.1.keepsListing x.2 = true) (fs.removals c)

private theorem step_sound {ch : Channels} {fs fs' : FileSystem} {c : FsCall} (h : fs.mem.Sound)
    (hguard : fs.KeepsListing c) (hstep : step ch fs c = some fs') : fs'.mem.Sound := by
  obtain ⟨⟨r, fs₁⟩, hcall, rfl⟩ := Option.map_eq_some_iff.mp hstep
  have hev : Evolves (fun m r => m.keepsListing r = true) fs.mem fs₁.mem :=
    call_evolves h.grounded.rootOutside hcall hguard
  exact hev.preserves Sound (fun _ _ hm hc => change_sound hm hc) h

theorem run_sound {ch : Channels} {calls : List FsCall} {fs : FileSystem}
    (hguard : Guarded (step ch) KeepsListing start calls)
    (hrun : runFrom (step ch) start calls = some fs) : fs.mem.Sound :=
  runFrom_invariant (fun _ _ _ => step_sound) calls start fs sound_fresh hguard hrun

/-- Renaming a file to itself removes it and then fails. -/
theorem rename_loses_file :
    RunEnds (step standardInput) start
        [.memOpen (.fromRoot "f".toList) { creat := true, rdwr := true } 0o600, .close 0] fun fs =>
      (fs.mem.fileAt (.fromRoot "f".toList)).isSome ∧
        ∃ e fs', call standardInput fs (.rename (.fromRoot "f".toList) (.fromRoot "f".toList)) =
            some (.error e, fs') ∧
          fs'.mem.fileAt (.fromRoot "f".toList) = none ∧ ¬SameFiles fs.mem fs'.mem := by
  have hends : RunEnds (step standardInput) start
        [.memOpen (.fromRoot "f".toList) { creat := true, rdwr := true } 0o600, .close 0] fun fs =>
      (fs.mem.fileAt (.fromRoot "f".toList)).isSome ∧
        (call standardInput fs (.rename (.fromRoot "f".toList) (.fromRoot "f".toList))).map
          (fun r => (r.1, r.2.mem.fileAt (.fromRoot "f".toList))) = some (.error .enoent, none) := by
    decide
  obtain ⟨fs, hfs, hthere, hgone⟩ := hends
  obtain ⟨⟨r, fs'⟩, hcall, hr⟩ := Option.map_eq_some_iff.mp hgone
  obtain ⟨rfl, hnone⟩ := Prod.mk.inj hr
  refine ⟨fs, hfs, hthere, .enoent, fs', hcall, hnone, fun hsame => ?_⟩
  rw [← (hsame (.fromRoot "f".toList)).2, hnone] at hthere
  cases hthere

end FileSystem

end Zrt.Fs
