import Zrt.Fs.MemRename

/-!
# Inode numbers

Each hard link has a slot of its own. `Link` notes the slot of the old name in the shared data, and
`mem_stat` answers the noted slot where there is one; `mem_fstat` does not. The noted slot may be freed
with its name and given to a node of other data, and then two files have one number.
-/

namespace Zrt.Fs

open Zrt.Framework

namespace MemMount

/-- `mem_stat`, the inode of it. -/
def memStat (m : MemMount) (path : AbsolutePath) : Option (Except Errno Nat) :=
  (m.getNode path).bind fun r =>
    match r with
    | .error e => some (.error e)
    | .ok ino =>
        (m.stat ino).bind fun r =>
          match r with
          | .error e => some (.error e)
          | .ok buf =>
              (m.dataAt ino).map fun d => .ok (if 0 < d.hardinode then d.hardinode else buf)

/-! ## Nodes that are made -/

/-- The slot `Alloc` takes. -/
def nextSlot (m : MemMount) : Nat := (m.slots.findIdx? Option.isNone).getD m.slots.length

/-- Data that has a node, other than the given data, has the slot noted. -/
def noted (m : MemMount) (slot : Nat) (except : Option Nat) : Bool :=
  (List.range m.heap.length).any fun i =>
    decide (some i ≠ except) && decide (0 < m.nodesOf i) &&
      (m.getData i).any fun d => decide (d.hardinode = slot)

/-- The mounts a call makes nodes in, each with the data the node shares. -/
abbrev Makings := List (MemMount × Option Nat)

def creatMakings (m : MemMount) (path : AbsolutePath) (mode : Nat) (hardlink : Option Nat) : Makings :=
  match m.creat path mode hardlink with
  | some (.ok _, _) => [(m, hardlink)]
  | _ => []

def mkdirMakings (m : MemMount) (path : AbsolutePath) (mode : Nat) (hardlink : Option Nat) : Makings :=
  match m.mkdir path mode hardlink with
  | some (.ok _, _) => [(m, hardlink)]
  | _ => []

def linkMakings (m : MemMount) (oldpath newpath : AbsolutePath) : Makings :=
  match m.getMemNode oldpath, m.getMemNode newpath with
  | some (some oldslot), some none =>
      match m.nodeAt oldslot, m.dataAt oldslot with
      | some n, some d =>
          if d.isDir then (m.withHardinode n oldslot).mkdirMakings newpath d.mode (some n.nodedata)
          else (m.withHardinode n oldslot).creatMakings newpath 0o600 (some n.nodedata)
      | _, _ => []
  | _, _ => []

def renameMakings (m : MemMount) (oldpath newpath : AbsolutePath) : Makings :=
  m.linkMakings oldpath newpath ++
    match m.link oldpath newpath with
    | some (.error .eexist, m₁) =>
        match m₁.unlink newpath with
        | some (.ok _, m₂) => m₂.linkMakings oldpath newpath
        | _ => []
    | _ => []

/-! ## Numbered states -/

/-- Data with two nodes has a slot noted; the noted slot is free or has a node of the data; no two data
have the same slot noted. -/
structure Numbered (m : MemMount) : Prop where
  shared : ∀ s t a b d, s ≠ t → m.nodeAt s = some a → m.nodeAt t = some b →
    a.nodedata = b.nodedata → m.getData a.nodedata = some d → 0 < d.hardinode
  own : ∀ s a d b, m.nodeAt s = some a → m.getData a.nodedata = some d → 0 < d.hardinode →
    m.nodeAt d.hardinode = some b → b.nodedata = a.nodedata
  unique : ∀ s t a b d e, m.nodeAt s = some a → m.getData a.nodedata = some d →
    m.nodeAt t = some b → m.getData b.nodedata = some e → 0 < d.hardinode →
    d.hardinode = e.hardinode → a.nodedata = b.nodedata

/-- A change that makes no node and notes no slot. -/
structure Dwindles (m m' : MemMount) : Prop where
  node : ∀ t n', m'.nodeAt t = some n' → ∃ n, m.nodeAt t = some n ∧ n'.nodedata = n.nodedata
  data : ∀ i d', m'.getData i = some d' → ∃ d, m.getData i = some d ∧ d'.hardinode = d.hardinode

section Numbered

variable {m m' m'' : MemMount} {slot s i : Nat} {n : MemNode} {d d' : MemData}

private theorem noted_eq_false_iff {except : Option Nat} :
    m.noted slot except = false ↔ ∀ i d, m.getData i = some d → some i ≠ except →
      0 < m.nodesOf i → d.hardinode ≠ slot := by
  rw [noted, List.any_eq_false]
  constructor
  · intro h i d hd hne hpos heq
    apply h i (List.mem_range.mpr (lt_heap_length hd))
    rw [hd, Option.any_some]
    simp [hne, hpos, heq]
  · intro h i _ hall
    simp only [Bool.and_eq_true, decide_eq_true_eq, Option.any_eq_true] at hall
    obtain ⟨⟨hne, hpos⟩, d, hd, heq⟩ := hall
    exact h i d hd hne hpos heq

private theorem newSlot_eq_nextSlot (m : MemMount) (parent : Nat) (name : Text) (isDir : Bool) (mode : Nat)
    (hardlink : Option Nat) : m.newSlot parent name isDir mode hardlink = m.nextSlot := by
  rw [newSlot, makeNode, nextSlot, ← constructData_slots.1]
  simp only [alloc]
  cases (m.constructData hardlink isDir mode).2.slots.findIdx? Option.isNone with
  | none => rfl
  | some k => rfl

/-! What dwindles. -/

theorem Dwindles.refl (m : MemMount) : Dwindles m m :=
  ⟨fun _ n' hn' => ⟨n', hn', rfl⟩, fun _ d' hd' => ⟨d', hd', rfl⟩⟩

theorem Dwindles.trans (h : Dwindles m m') (h' : Dwindles m' m'') : Dwindles m m'' where
  node := by
    intro t n'' hn''
    obtain ⟨n', hn', heq'⟩ := h'.node t n'' hn''
    obtain ⟨n, hn, heq⟩ := h.node t n' hn'
    exact ⟨n, hn, heq'.trans heq⟩
  data := by
    intro i d'' hd''
    obtain ⟨d', hd', heq'⟩ := h'.data i d'' hd''
    obtain ⟨d, hd, heq⟩ := h.data i d' hd'
    exact ⟨d, hd, heq'.trans heq⟩

theorem dwindles_updateData {id : Nat} {f : MemData → MemData}
    (hf : ∀ d, (f d).hardinode = d.hardinode) : Dwindles m (m.updateData id f) where
  node := fun _ n' hn' => ⟨n', hn', rfl⟩
  data := by
    intro i d' hd'
    rw [getData_updateData] at hd'
    split at hd'
    · obtain ⟨d, hd, rfl⟩ := Option.map_eq_some_iff.mp hd'
      exact ⟨d, hd, hf d⟩
    · exact ⟨d', hd', rfl⟩

theorem dwindles_updateDataAt {f : MemData → MemData}
    (hf : ∀ d, (f d).hardinode = d.hardinode) : Dwindles m (m.updateDataAt slot f) := by
  unfold updateDataAt
  split
  · exact Dwindles.refl m
  · exact dwindles_updateData hf

theorem dwindles_removeChild {child : Nat} : Dwindles m (m.removeChild slot child) := by
  apply dwindles_updateDataAt
  intro d
  split
  · rfl
  · rfl

theorem dwindles_unref : Dwindles m (m.unref slot) := by
  apply dwindles_updateDataAt
  intro d
  split
  · rfl
  · rfl

theorem dwindles_free : Dwindles m (m.free slot) where
  node := by
    intro t n' hn'
    rw [nodeAt_free] at hn'
    split at hn'
    · cases hn'
    · exact ⟨n', hn', rfl⟩
  data := by
    intro i d' hd'
    cases hn : m.nodeAt slot with
    | none =>
        rw [free, hn] at hd'
        exact ⟨d', hd', rfl⟩
    | some n =>
        rw [getData_free hn] at hd'
        split at hd'
        · obtain ⟨d, hd, hdrop⟩ := Option.bind_eq_some_iff.mp hd'
          obtain ⟨rfl, -⟩ := dropLink_eq_some hdrop
          exact ⟨d, hd, rfl⟩
        · exact ⟨d', hd', rfl⟩

private theorem dwindles_setName {name : Text} : Dwindles m (m.setName slot name) where
  node := by
    intro t n' hn'
    cases hn : m.nodeAt slot with
    | none =>
        rw [setName, hn] at hn'
        exact ⟨n', hn', rfl⟩
    | some n =>
        rw [nodeAt_setName hn] at hn'
        split at hn'
        · rename_i ht
          cases hn'
          exact ⟨n, by rw [ht, hn], rfl⟩
        · exact ⟨n', hn', rfl⟩
  data := by
    intro i d' hd'
    rw [getData_setName] at hd'
    exact ⟨d', hd', rfl⟩

private theorem dwindles_removeNode : Dwindles m (m.removeNode slot) := by
  unfold removeNode
  split
  · exact Dwindles.refl m
  · exact dwindles_removeChild.trans dwindles_free

private theorem dwindles_hideNode : Dwindles m (m.hideNode slot) := by
  unfold hideNode
  split
  · exact Dwindles.refl m
  · exact dwindles_setName.trans (dwindles_updateData fun _ => rfl)

private theorem dwindles_removeDir : Dwindles m (m.removeDir slot) := by
  unfold removeDir
  split
  · exact Dwindles.refl m
  · rename_i n hn
    have hentry : Dwindles m ((m.updateDataAt n.parent fun d =>
        { d with nlink := d.nlink - 1 }).removeChild n.parent slot) := by
      apply Dwindles.trans _ dwindles_removeChild
      exact dwindles_updateDataAt fun _ => rfl
    simp only
    split
    · exact hentry
    · split
      · exact hentry
      · exact hentry.trans dwindles_free

theorem Numbered.of_dwindles (h : m.Numbered) (hd : Dwindles m m') : m'.Numbered where
  shared := by
    intro s t a' b' d' hst ha' hb' hab hd'
    obtain ⟨a, ha, haa⟩ := hd.node s a' ha'
    obtain ⟨b, hb, hbb⟩ := hd.node t b' hb'
    obtain ⟨d, hdat, heq⟩ := hd.data _ d' hd'
    rw [heq]
    exact h.shared s t a b d hst ha hb (by rw [← haa, hab, hbb]) (haa ▸ hdat)
  own := by
    intro s a' d' b' ha' hd' hpos hb'
    obtain ⟨a, ha, haa⟩ := hd.node s a' ha'
    obtain ⟨b, hb, hbb⟩ := hd.node _ b' hb'
    obtain ⟨d, hdat, heq⟩ := hd.data _ d' hd'
    rw [heq] at hpos hb
    rw [hbb, haa]
    exact h.own s a d b ha (haa ▸ hdat) hpos hb
  unique := by
    intro s t a' b' d' e' ha' hd' hb' he' hpos hsame
    obtain ⟨a, ha, haa⟩ := hd.node s a' ha'
    obtain ⟨b, hb, hbb⟩ := hd.node t b' hb'
    obtain ⟨d, hdat, hdd⟩ := hd.data _ d' hd'
    obtain ⟨e, heat, hee⟩ := hd.data _ e' he'
    rw [hdd] at hpos
    rw [hdd, hee] at hsame
    rw [haa, hbb]
    exact h.unique s t a b d e ha (haa ▸ hdat) hb (hbb ▸ heat) hpos hsame

private theorem Numbered.withHardinode (h : m.Numbered) (hs : s ≠ 0) (hn : m.nodeAt s = some n) :
    (m.withHardinode n s).Numbered := by
  have hread : ∀ i d', (m.withHardinode n s).getData i = some d' →
      ∃ d, m.getData i = some d ∧ d'.hardinode = if i = n.nodedata then s else d.hardinode := by
    intro i d' hd'
    rw [getData_updateData] at hd'
    split at hd'
    · rename_i hi
      obtain ⟨d, hd, rfl⟩ := Option.map_eq_some_iff.mp hd'
      exact ⟨d, hd, by rw [if_pos hi]⟩
    · rename_i hi
      exact ⟨d', hd', by rw [if_neg hi]⟩
  constructor
  · intro u t a b d' hut ha hb hab hd'
    obtain ⟨d, hd, heq⟩ := hread _ d' hd'
    rw [heq]
    split
    · exact Nat.pos_of_ne_zero hs
    · exact h.shared u t a b d hut ha hb hab hd
  · intro u a d' b ha hd' hpos hb
    obtain ⟨d, hd, heq⟩ := hread _ d' hd'
    rw [heq] at hpos hb
    split at hb
    · rename_i hi
      rw [nodeAt_updateData, hn] at hb
      cases hb
      exact hi.symm
    · rename_i hi
      rw [if_neg hi] at hpos
      exact h.own u a d b ha hd hpos hb
  · intro u t a b d' e' ha hd' hb he' hpos hsame
    obtain ⟨d, hd, hdd⟩ := hread _ d' hd'
    obtain ⟨e, he, hee⟩ := hread _ e' he'
    rw [hdd] at hpos
    rw [hdd, hee] at hsame
    by_cases hi : a.nodedata = n.nodedata
    · by_cases hj : b.nodedata = n.nodedata
      · rw [hi, hj]
      · -- the other data would have the slot noted, where a node of this data is
        rw [if_pos hi, if_neg hj] at hsame
        rw [hi]
        exact h.own t b e n hb he (by omega) (by rw [← hsame, hn])
    · rw [if_neg hi] at hpos hsame
      by_cases hj : b.nodedata = n.nodedata
      · rw [if_pos hj] at hsame
        rw [hj]
        exact (h.own u a d n ha hd hpos (by rw [hsame, hn])).symm
      · rw [if_neg hj] at hsame
        exact h.unique u t a b d e ha hd hb he hpos hsame

section Enter

variable {parent mode : Nat} {name : Text} {isDir : Bool} {hardlink : Option Nat} {pn : MemNode}
  {pd : MemData}

theorem Enterable.hardinode_backward (he : m.Enterable parent name isDir hardlink pn pd)
    (hd' : (m.enterNode parent name isDir mode hardlink).getData i = some d') :
    (∃ d, m.getData i = some d ∧ d'.hardinode = d.hardinode) ∨
      (hardlink = none ∧ i = m.heap.length ∧ d'.hardinode = 0) := by
  rw [getData_enterNode he.node he.baseData_isDir] at hd'
  obtain ⟨b, hb, rfl⟩ := Option.map_eq_some_iff.mp hd'
  have hsame : (if i = pn.nodedata then
      { b with
        children := b.children ++ [m.newSlot parent name isDir mode hardlink]
        nlink := b.nlink + if isDir = true then 1 else 0 }
      else b).hardinode = b.hardinode := by
    split
    · rfl
    · rfl
  rw [hsame]
  cases hardlink with
  | none =>
      simp only [baseData] at hb
      split at hb
      · rename_i hi
        cases hb
        exact Or.inr ⟨rfl, hi, rfl⟩
      · exact Or.inl ⟨b, hb, rfl⟩
  | some id =>
      simp only [baseData] at hb
      split at hb
      · obtain ⟨d, hd, rfl⟩ := Option.map_eq_some_iff.mp hb
        exact Or.inl ⟨d, hd, rfl⟩
      · exact Or.inl ⟨b, hb, rfl⟩

private theorem Enterable.old_holder (he : m.Enterable parent name isDir hardlink pn pd) {a : MemNode}
    (ha : (m.enterNode parent name isDir mode hardlink).nodeAt s = some a)
    (hd' : (m.enterNode parent name isDir mode hardlink).getData a.nodedata = some d')
    (hpos : 0 < d'.hardinode) :
    ∃ t b d, m.nodeAt t = some b ∧ b.nodedata = a.nodedata ∧ m.getData b.nodedata = some d ∧
      d'.hardinode = d.hardinode := by
  rcases he.hardinode_backward hd' with ⟨d, hd, heq⟩ | ⟨-, -, hzero⟩
  · rw [nodeAt_enterNode] at ha
    split at ha
    · cases ha
      cases hardlink with
      | none => exact absurd (lt_heap_length hd) (Nat.lt_irrefl _)
      | some id =>
          obtain ⟨t, b, bd, hb, hid, -⟩ := he.shared id rfl
          exact ⟨t, b, d, hb, hid, by rw [hid]; exact hd, heq⟩
    · exact ⟨s, a, d, ha, rfl, hd, heq⟩
  · omega

private theorem Enterable.hardinode_pos (hg : m.Grounded) (he : m.Enterable parent name isDir hardlink pn pd)
    (hnoted : ∀ id d, hardlink = some id → m.getData id = some d → 0 < d.hardinode) {a : MemNode}
    (ha : m.nodeAt s = some a) (hnew : a.nodedata = m.newData hardlink)
    (hd' : (m.enterNode parent name isDir mode hardlink).getData (m.newData hardlink) = some d') :
    0 < d'.hardinode := by
  cases hardlink with
  | none =>
      have hlt := hg.bounded s a ha
      rw [hnew] at hlt
      exact absurd hlt (Nat.lt_irrefl _)
  | some id =>
      rcases he.hardinode_backward hd' with ⟨d, hd, heq⟩ | ⟨hnone, -⟩
      · rw [heq]
        exact hnoted id d rfl hd
      · cases hnone

theorem Numbered.enterNode (h : m.Numbered) (hg : m.Grounded)
    (he : m.Enterable parent name isDir hardlink pn pd)
    (hfree : m.noted m.nextSlot hardlink = false)
    (hnoted : ∀ id d, hardlink = some id → m.getData id = some d → 0 < d.hardinode) :
    (m.enterNode parent name isDir mode hardlink).Numbered := by
  have hother := noted_eq_false_iff.mp hfree
  constructor
  · intro s t a b d' hst ha hb hab hd'
    rw [nodeAt_enterNode] at ha hb
    split at ha
    · rename_i hs
      cases ha
      rw [if_neg (fun ht => hst (hs.trans ht.symm))] at hb
      exact he.hardinode_pos hg hnoted hb hab.symm hd'
    · split at hb
      · cases hb
        rw [hab] at hd'
        exact he.hardinode_pos hg hnoted ha hab hd'
      · rcases he.hardinode_backward hd' with ⟨d, hd, heq⟩ | ⟨-, hlen, -⟩
        · rw [heq]
          exact h.shared s t a b d hst ha hb hab hd
        · exact absurd hlen (Nat.ne_of_lt (hg.bounded s a ha))
  · intro s a d' b ha hd' hpos hb
    obtain ⟨t, tn, d, htn, hta, hd, heq⟩ := he.old_holder ha hd' hpos
    rw [heq] at hpos hb
    rw [nodeAt_enterNode] at hb
    split at hb
    · rename_i hslot
      rw [newSlot_eq_nextSlot] at hslot
      cases hb
      by_cases hid : some tn.nodedata = hardlink
      · rw [← hta, newData, ← hid]
        rfl
      · exact absurd hslot (hother _ d hd hid (nodesOf_pos htn))
    · rw [← hta]
      exact h.own t tn d b htn hd hpos hb
  · intro s t a b d' e' ha hd' hb he' hpos hsame
    obtain ⟨s₀, a₀, d, ha₀, haa, hd, hdd⟩ := he.old_holder ha hd' hpos
    obtain ⟨t₀, b₀, e, hb₀, hbb, hee, hed⟩ := he.old_holder hb he' (hsame ▸ hpos)
    rw [hdd] at hpos
    rw [hdd, hed] at hsame
    rw [← haa, ← hbb]
    exact h.unique s₀ t₀ a₀ b₀ d e ha₀ hd hb₀ hee hpos hsame

end Enter

private theorem numbered_fresh : fresh.Numbered := by
  have hdata : ∀ i d, fresh.getData i = some d → d.hardinode = 0 := by
    intro i d hd
    obtain ⟨-, rfl⟩ := getData_fresh hd
    rfl
  constructor
  · intro s t a b d hst ha hb hab hd
    match s, t with
    | 0, 0 => exact absurd rfl hst
    | 0, 1 =>
        cases ha
        cases hd
    | 1, 0 =>
        cases ha
        cases hb
        cases hab
    | 1, 1 => exact absurd rfl hst
    | s + 2, _ => cases ha
    | _, t + 2 => cases hb
  · intro s a d b _ hd hpos
    rw [hdata _ d hd] at hpos
    exact absurd hpos (Nat.lt_irrefl 0)
  · intro s t a b d e _ hd _ _ hpos
    rw [hdata _ d hd] at hpos
    exact absurd hpos (Nat.lt_irrefl 0)

/-! ## Operations -/

variable {r : Except Errno Unit} {hardlink : Option Nat} {path : AbsolutePath} {mode : Nat}

/-- The nodes that are made get slots no other data has noted. -/
def FreshlyMade (makings : Makings) : Prop :=
  ∀ x ∈ makings, x.1.noted x.1.nextSlot x.2 = false

theorem Numbered.creat (h : m.Numbered) (hg : m.Grounded) (hshared : m.SharedData false hardlink)
    (hnoted : ∀ id d, hardlink = some id → m.getData id = some d → 0 < d.hardinode)
    (hfresh : FreshlyMade (m.creatMakings path mode hardlink))
    (hcall : m.creat path mode hardlink = some (r, m')) : m'.Numbered := by
  rcases creat_cases hcall hshared with ⟨e, -, rfl, -⟩ | ⟨rfl, parent, pn, pd, -, -, hent, rfl⟩
  · exact h
  · apply h.enterNode hg hent _ hnoted
    apply hfresh (m, hardlink)
    rw [creatMakings, hcall]
    exact List.mem_singleton_self _

theorem Numbered.mkdir (h : m.Numbered) (hg : m.Grounded) (hshared : m.SharedData true hardlink)
    (hnoted : ∀ id d, hardlink = some id → m.getData id = some d → 0 < d.hardinode)
    (hfresh : FreshlyMade (m.mkdirMakings path mode hardlink))
    (hcall : m.mkdir path mode hardlink = some (r, m')) : m'.Numbered := by
  rcases mkdir_cases hcall hshared with ⟨e, -, rfl, -⟩ | ⟨rfl, parent, pn, pd, -, -, hent, rfl⟩
  · exact h
  · apply h.enterNode hg hent _ hnoted
    apply hfresh (m, hardlink)
    rw [mkdirMakings, hcall]
    exact List.mem_singleton_self _

theorem Numbered.link (h : m.Numbered) (hg : m.Grounded) {p q : AbsolutePath}
    (hfresh : FreshlyMade (m.linkMakings p q)) (hcall : m.link p q = some (r, m')) :
    m'.Numbered := by
  rcases link_cases hcall with ⟨-, rfl⟩ | ⟨s, t, -, -, -, rfl⟩ | ⟨oldslot, n, d, hl, hmade⟩
  · exact h
  · exact h
  · have hshared := hl.shared
    have hslot : oldslot ≠ 0 := hg.ne_zero hl.node hl.data
    have hnumbered := h.withHardinode hslot hl.node
    have hgrounded : (m.withHardinode n oldslot).Grounded := hg.updateData
    have hnoted : ∀ id e, some n.nodedata = some id →
        (m.withHardinode n oldslot).getData id = some e → 0 < e.hardinode := by
      intro id e hid he
      cases hid
      rw [getData_updateData, if_pos rfl, hl.data] at he
      cases he
      exact Nat.pos_of_ne_zero hslot
    simp only [linkMakings, hl.old, hl.new, hl.node, dataAt_of hl.node, hl.data] at hfresh
    rcases hmade with ⟨hdir, hcall⟩ | ⟨hdir, r₂, m₂, found, hopened, -, hends⟩
    · rw [hdir] at hshared
      rw [if_pos hdir] at hfresh
      exact hnumbered.mkdir hgrounded hshared hnoted hfresh hcall
    · rw [hdir] at hshared
      rw [if_neg (by simp [hdir])] at hfresh
      obtain ⟨r₁, hcreat⟩ := openCreat_creat hopened
      have hmade := hnumbered.creat hgrounded hshared hnoted hfresh hcreat
      rcases hends with ⟨slot, -, -, rfl⟩ | ⟨e, -, -, rfl⟩
      · exact hmade.of_dwindles dwindles_unref
      · exact hmade

theorem unlinkInternal_dwindles (hcall : m.unlinkInternal slot = some (r, m')) : Dwindles m m' := by
  obtain ⟨n, d, -, -, hcases⟩ := unlinkInternal_cases hcall
  rcases hcases with ⟨e, -, rfl⟩ | ⟨-, -, rfl⟩ | ⟨-, -, rfl⟩
  · exact Dwindles.refl _
  · exact dwindles_removeNode
  · exact dwindles_hideNode

theorem unlink_dwindles (hcall : m.unlink path = some (r, m')) : Dwindles m m' := by
  rcases unlink_cases hcall with ⟨-, -, rfl⟩ | ⟨slot, -, hcall⟩
  · exact Dwindles.refl _
  · exact unlinkInternal_dwindles hcall

private theorem renameUnlink_dwindles {p q : AbsolutePath} (hcall : m.renameUnlink p q = some (r, m')) :
    Dwindles m m' := by
  obtain ⟨⟨r₁, m₁⟩, h₁, hcall⟩ := Option.bind_eq_some_iff.mp hcall
  cases r₁ with
  | ok u =>
      cases hcall
      exact unlink_dwindles h₁
  | error e =>
      obtain ⟨⟨r₂, m₂⟩, h₂, heq⟩ := Option.map_eq_some_iff.mp hcall
      have hboth := (unlink_dwindles h₁).trans (unlink_dwindles h₂)
      cases r₂ with
      | ok u =>
          cases heq
          exact hboth
      | error e' =>
          cases heq
          exact hboth

private theorem Numbered.rename (h : m.Numbered) (hg : m.Grounded) {p q : AbsolutePath}
    (hfresh : FreshlyMade (m.renameMakings p q)) (hcall : m.rename p q = some (r, m')) :
    m'.Numbered := by
  obtain ⟨⟨r₁, m₁⟩, hlink, hcall⟩ := Option.bind_eq_some_iff.mp hcall
  have hm₁ : m₁.Numbered := h.link hg (fun x hx => hfresh x (List.mem_append_left _ hx)) hlink
  rw [renameMakings, hlink] at hfresh
  cases r₁ with
  | ok u => exact hm₁.of_dwindles (renameUnlink_dwindles hcall)
  | error e =>
      simp only at hcall
      split at hcall
      · rename_i he
        subst he
        obtain ⟨⟨r₂, m₂⟩, hunlink, hcall⟩ := Option.bind_eq_some_iff.mp hcall
        have hm₂ := hm₁.of_dwindles (unlink_dwindles hunlink)
        simp only [hunlink] at hfresh
        cases r₂ with
        | error e =>
            cases hcall
            exact hm₂
        | ok u =>
            obtain ⟨⟨r₃, m₃⟩, hrelink, hcall⟩ := Option.bind_eq_some_iff.mp hcall
            have hev : Evolves (fun _ _ => True) m m₂ :=
              (link_evolves hlink).trans (unlink_evolves hunlink fun _ _ => trivial)
            have hg₂ := hev.preserves Grounded (fun _ _ hm hc => change_grounded hm hc) hg
            have hm₃ := hm₂.link hg₂ (fun x hx => hfresh x (List.mem_append_right _ hx)) hrelink
            cases r₃ with
            | error e =>
                cases hcall
                exact hm₃
            | ok u => exact hm₃.of_dwindles (renameUnlink_dwindles hcall)
      · cases hcall
        exact hm₁

private theorem rmdir_dwindles (hcall : m.rmdir slot = some (r, m')) : Dwindles m m' := by
  unfold MemMount.rmdir at hcall
  split at hcall
  · cases hcall
    exact Dwindles.refl _
  · rename_i n hn
    obtain ⟨d, hd, hcall⟩ := Option.bind_eq_some_iff.mp hcall
    split at hcall
    · obtain ⟨isEmpty, -, hcall⟩ := Option.bind_eq_some_iff.mp hcall
      split at hcall
      · obtain ⟨pd, -, heq⟩ := Option.map_eq_some_iff.mp hcall
        cases heq
        have hremoved : Dwindles m (m.removeDir slot) := dwindles_removeDir
        rw [removeDir, hn] at hremoved
        simp only [hd] at hremoved
        exact hremoved
      · cases hcall
        exact Dwindles.refl _
    · cases hcall
      exact Dwindles.refl _

private theorem memRmdir_dwindles (hcall : m.memRmdir path = some (r, m')) : Dwindles m m' := by
  obtain ⟨node, -, hcall⟩ := Option.bind_eq_some_iff.mp hcall
  cases node with
  | error e =>
      cases hcall
      exact Dwindles.refl m
  | ok ino =>
      simp only at hcall
      split at hcall
      · cases hcall
        exact Dwindles.refl m
      · exact rmdir_dwindles hcall

/-! ## Numbers that are reported -/

theorem memStat_eq_some {ino : Nat} (h : m.memStat path = some (.ok ino)) :
    ∃ s n d, m.getSlot path = some (.ok s) ∧ m.nodeAt s = some n ∧ m.getData n.nodedata = some d ∧
      m.memDataOf path = some n.nodedata ∧
      ino = if 0 < d.hardinode then d.hardinode else s := by
  obtain ⟨r, hr, h⟩ := Option.bind_eq_some_iff.mp h
  cases r with
  | error e => cases h
  | ok s =>
      obtain ⟨hslot, hsome⟩ := getNode_ok hr
      obtain ⟨n, hn⟩ := Option.isSome_iff_exists.mp hsome
      obtain ⟨buf, hbuf, h⟩ := Option.bind_eq_some_iff.mp h
      cases buf with
      | error e => cases h
      | ok b =>
          obtain ⟨rfl, -⟩ := stat_ok hbuf
          obtain ⟨d, hd, heq⟩ := Option.map_eq_some_iff.mp h
          rw [dataAt_of hn] at hd
          cases heq
          exact ⟨b, n, d, hslot, hn, hd, memDataOf_eq_some.mpr ⟨b, n, hslot, hn, rfl⟩, rfl⟩

private theorem Numbered.memStat_eq_iff (h : m.Numbered) {p q : AbsolutePath} {a b : Nat}
    (ha : m.memStat p = some (.ok a)) (hb : m.memStat q = some (.ok b)) :
    a = b ↔ m.memDataOf p = m.memDataOf q := by
  obtain ⟨s, n, d, -, hn, hd, hp, rfl⟩ := memStat_eq_some ha
  obtain ⟨t, k, e, -, hk, he, hq, rfl⟩ := memStat_eq_some hb
  rw [hp, hq, Option.some.injEq]
  constructor
  · intro hsame
    by_cases hdpos : 0 < d.hardinode
    · rw [if_pos hdpos] at hsame
      by_cases hepos : 0 < e.hardinode
      · rw [if_pos hepos] at hsame
        exact h.unique s t n k d e hn hd hk he hdpos hsame
      · rw [if_neg hepos] at hsame
        exact (h.own s n d k hn hd hdpos (by rw [hsame, hk])).symm
    · rw [if_neg hdpos] at hsame
      by_cases hepos : 0 < e.hardinode
      · rw [if_pos hepos] at hsame
        exact h.own t k e n hk he hepos (by rw [← hsame, hn])
      · rw [if_neg hepos] at hsame
        rw [hsame, hk] at hn
        cases hn
        rfl
  · intro hdata
    have hsame : d = e := by
      rw [hdata, he] at hd
      exact (Option.some.inj hd).symm
    rw [hsame] at hd ⊢
    split
    · rfl
    · rename_i hzero
      by_contra hne
      exact hzero (h.shared s t n k e hne hn hk hdata hd)

end Numbered

end MemMount

/-! ## Runs -/

namespace FileSystem

open MemMount

variable {ch : Channels} {fs fs' : FileSystem} {r : Except Errno Nat}

/-- `mem_fstat`, the inode of it. -/
def memFstat (fs : FileSystem) (fd : Nat) : Option (Except Errno Nat) :=
  match fs.mnodeByHandle fd with
  | none => some (.error .ebadf)
  | some inode => fs.mem.stat inode

/-- The nodes a call makes. -/
def makings (fs : FileSystem) : FsCall → Makings
  | .memOpen path flags mode => if flags.creat then fs.mem.creatMakings path mode none else []
  | .mkdir path mode => fs.mem.mkdirMakings path mode none
  | .link oldpath newpath => fs.mem.linkMakings oldpath newpath
  | .rename oldpath newpath => fs.mem.renameMakings oldpath newpath
  | _ => []

/-- No node is made in a slot that other data has noted. -/
def MakesFreshly (fs : FileSystem) (c : FsCall) : Prop := FreshlyMade (fs.makings c)

instance (fs : FileSystem) (c : FsCall) : Decidable (fs.MakesFreshly c) :=
  List.decidableBAll (fun x : MemMount × Option Nat => x.1.noted x.1.nextSlot x.2 = false)
    (fs.makings c)

private theorem memOpenNode_dwindles {ino parent : Nat} {flags : OpenFlags}
    (hcall : fs.memOpenNode ino parent flags = some (r, fs')) : Dwindles fs.mem fs'.mem := by
  unfold memOpenNode at hcall
  cases hfd : (fs.files.openDescriptor .memory ino parent flags).1 with
  | none =>
      simp only [hfd] at hcall
      cases hcall
      exact Dwindles.refl _
  | some fd =>
      simp only [hfd] at hcall
      have href : Dwindles fs.mem (fs.mem.ref ino) := dwindles_updateDataAt fun _ => rfl
      obtain ⟨d, -, heq⟩ := Option.map_eq_some_iff.mp hcall
      split at heq
      · cases heq
        exact href
      · split at heq
        · cases heq
          exact href.trans (dwindles_updateDataAt fun _ => rfl)
        · cases heq
          exact href

private theorem memOpen_numbered {path : AbsolutePath} {flags : OpenFlags} {mode : Nat}
    (h : fs.mem.Numbered) (hg : fs.mem.Grounded) (hfresh : fs.MakesFreshly (.memOpen path flags mode))
    (hcall : fs.memOpen path flags mode = some (r, fs')) : fs'.mem.Numbered := by
  obtain ⟨⟨r₁, mem⟩, hcreated, hcall⟩ := Option.bind_eq_some_iff.mp hcall
  have hmem : mem.Numbered := by
    split at hcreated
    · rename_i hflag
      obtain ⟨r₂, hcreat⟩ := openCreat_creat hcreated
      simp only [MakesFreshly, makings, if_pos hflag] at hfresh
      exact h.creat hg sharedData_none (fun _ _ hnone => by cases hnone) hfresh hcreat
    · cases hcreated
      exact h
  cases r₁ with
  | error e =>
      cases hcall
      exact hmem
  | ok u =>
      obtain ⟨node, -, hcall⟩ := Option.bind_eq_some_iff.mp hcall
      cases node with
      | error e =>
          cases hcall
          exact hmem
      | ok ino =>
          obtain ⟨parent, -, hcall⟩ := Option.bind_eq_some_iff.mp hcall
          have hopened := memOpenNode_dwindles hcall
          exact hmem.of_dwindles hopened

private theorem memClose_dwindles {fd : Nat} (hcall : fs.memClose fd = some (r, fs')) :
    Dwindles fs.mem fs'.mem := by
  unfold memClose at hcall
  split at hcall
  · cases hcall
    exact Dwindles.refl _
  · rename_i inode hinode
    obtain ⟨d, -, hcall⟩ := Option.bind_eq_some_iff.mp hcall
    obtain ⟨⟨r₁, mem⟩, hremoved, hcall⟩ := Option.bind_eq_some_iff.mp hcall
    have hmem : Dwindles (fs.mem.unref inode) mem := by
      split at hremoved
      · exact unlinkInternal_dwindles hremoved
      · cases hremoved
        exact Dwindles.refl _
    cases r₁ with
    | error e => cases hcall
    | ok u =>
        obtain ⟨files, -, heq⟩ := Option.map_eq_some_iff.mp hcall
        cases heq
        exact dwindles_unref.trans hmem

theorem close_dwindles {fd : Nat} (hcall : close ch fs fd = some (r, fs')) :
    Dwindles fs.mem fs'.mem := by
  unfold close at hcall
  split at hcall
  · cases hcall
    exact Dwindles.refl _
  · exact memClose_dwindles hcall
  · rw [channelsClose_mem hcall]
    exact Dwindles.refl _

private theorem dup2_dwindles {oldfd newfd : Nat} (hcall : dup2 ch fs oldfd newfd = some (r, fs')) :
    Dwindles fs.mem fs'.mem := by
  unfold dup2 at hcall
  split at hcall
  · cases hcall
    exact Dwindles.refl _
  · split at hcall
    · cases hcall
      exact Dwindles.refl _
    · obtain ⟨⟨r₁, fs₁⟩, hclosed, hcall⟩ := Option.bind_eq_some_iff.mp hcall
      obtain ⟨item, -, hcall⟩ := Option.bind_eq_some_iff.mp hcall
      rw [duplicated_mem hcall]
      exact close_dwindles hclosed

private theorem call_numbered {c : FsCall} (h : fs.mem.Numbered) (hg : fs.mem.Grounded)
    (hfresh : fs.MakesFreshly c) (hcall : call ch fs c = some (r, fs')) : fs'.mem.Numbered := by
  cases c with
  | memOpen path flags mode => exact memOpen_numbered h hg hfresh hcall
  | channelsOpen path flags =>
      rw [channelsOpen_mem hcall]
      exact h
  | close fd => exact h.of_dwindles (close_dwindles hcall)
  | dup oldfd =>
      rw [dup_mem hcall]
      exact h
  | dup2 oldfd newfd => exact h.of_dwindles (dup2_dwindles hcall)
  | mkdir path mode =>
      obtain ⟨-, x, hx, -⟩ := ofMem_eq_some hcall
      rcases memMkdir_cases hx with ⟨e, -, heq⟩ | hmkdir
      · rw [heq]
        exact h
      · exact h.mkdir hg sharedData_none (fun _ _ hnone => by cases hnone) hfresh hmkdir
  | rmdir path =>
      obtain ⟨-, x, hx, -⟩ := ofMem_eq_some hcall
      exact h.of_dwindles (memRmdir_dwindles hx)
  | link oldpath newpath =>
      obtain ⟨-, x, hx, -⟩ := ofMem_eq_some hcall
      exact h.link hg hfresh hx
  | unlink path =>
      obtain ⟨-, x, hx, -⟩ := ofMem_eq_some hcall
      exact h.of_dwindles (unlink_dwindles hx)
  | rename oldpath newpath =>
      obtain ⟨-, x, hx, -⟩ := ofMem_eq_some hcall
      exact h.rename hg hfresh hx

private theorem step_numbered {c : FsCall} (h : fs.mem.Grounded ∧ fs.mem.Numbered)
    (hfresh : fs.MakesFreshly c) (hstep : step ch fs c = some fs') :
    fs'.mem.Grounded ∧ fs'.mem.Numbered := by
  refine ⟨step_grounded h.1 hstep, ?_⟩
  obtain ⟨⟨r, fs₁⟩, hcall, rfl⟩ := Option.map_eq_some_iff.mp hstep
  exact call_numbered h.2 h.1 hfresh hcall

/-- A descriptor reports the node's own slot, so that it agrees with the path where no other slot is
noted. -/
private theorem memFstat_eq_memStat_iff {path : AbsolutePath} {fd s a : Nat} {d : MemData}
    (hslot : fs.mem.getSlot path = some (.ok s)) (hd : fs.mem.dataAt s = some d)
    (hfd : fs.mnodeByHandle fd = some s) (ha : fs.mem.memStat path = some (.ok a)) :
    fs.memFstat fd = some (.ok a) ↔ d.hardinode = 0 ∨ d.hardinode = s := by
  obtain ⟨t, n, e, ht, hn, he, -, rfl⟩ := memStat_eq_some ha
  rw [hslot] at ht
  cases ht
  rw [dataAt_of hn, he] at hd
  cases hd
  have hstat : fs.memFstat fd = some (.ok s) := by
    rw [memFstat, hfd]
    simp only [stat, hn, he, Option.map_some]
  rw [hstat, Option.some.injEq, Except.ok.injEq]
  split
  · rename_i hpos
    constructor
    · exact fun heq => Or.inr heq.symm
    · intro hcase
      omega
  · exact iff_of_true rfl (Or.inl (by omega))

/-- In every state of a run that makes no node in a slot other data has noted, paths report one number
exactly when they lead to one data, and a descriptor reports the number of a path to its node exactly
when no other slot is noted. -/
theorem run_inodes (ch : Channels) (calls : List FsCall) (fs : FileSystem)
    (hfresh : Guarded (step ch) MakesFreshly start calls)
    (hrun : runFrom (step ch) start calls = some fs) :
    (∀ p q a b, fs.mem.memStat p = some (.ok a) → fs.mem.memStat q = some (.ok b) →
      (a = b ↔ fs.mem.memDataOf p = fs.mem.memDataOf q)) ∧
    ∀ p fd s d a, fs.mem.getSlot p = some (.ok s) → fs.mem.dataAt s = some d →
      fs.mnodeByHandle fd = some s → fs.mem.memStat p = some (.ok a) →
      (fs.memFstat fd = some (.ok a) ↔ d.hardinode = 0 ∨ d.hardinode = s) := by
  have hnumbered : fs.mem.Grounded ∧ fs.mem.Numbered :=
    runFrom_invariant (fun _ _ _ => step_numbered) calls start fs ⟨grounded_fresh, numbered_fresh⟩
      hfresh hrun
  exact ⟨fun p q a b ha hb => hnumbered.2.memStat_eq_iff ha hb,
    fun p fd s d a hslot hd hfd ha => memFstat_eq_memStat_iff hslot hd hfd ha⟩

/-- A file with a second name and an open descriptor, beside another file. -/
def hardLinkCalls : List FsCall :=
  [.memOpen (.fromRoot "a".toList) { creat := true, rdwr := true } 0o600,
    .link (.fromRoot "a".toList) (.fromRoot "b".toList),
    .memOpen (.fromRoot "c".toList) { creat := true, rdwr := true } 0o600]

theorem run_inodes_hardLink :
    RunEnds (step standardInput) start hardLinkCalls fun fs =>
      (fs.mem.memDataOf (.fromRoot "a".toList) = fs.mem.memDataOf (.fromRoot "b".toList)) ∧
      (fs.mem.memDataOf (.fromRoot "a".toList) ≠ fs.mem.memDataOf (.fromRoot "c".toList)) ∧
      fs.memFstat 0 = some (.ok 2) := by
  have hfresh : Guarded (step standardInput) MakesFreshly start hardLinkCalls := by decide
  have hends : RunEnds (step standardInput) start hardLinkCalls fun fs =>
      fs.mem.memStat (.fromRoot "a".toList) = some (.ok 2) ∧
      fs.mem.memStat (.fromRoot "b".toList) = some (.ok 2) ∧
      fs.mem.memStat (.fromRoot "c".toList) = some (.ok 4) ∧
      fs.mem.getSlot (.fromRoot "a".toList) = some (.ok 2) ∧
      (fs.mem.dataAt 2).map MemData.hardinode = some 2 ∧ fs.mnodeByHandle 0 = some 2 := by
    decide
  obtain ⟨fs, hfs, ha, hb, hc, hslot, hnoted, hfd⟩ := hends
  obtain ⟨d, hd, hdn⟩ := Option.map_eq_some_iff.mp hnoted
  obtain ⟨hpaths, hdescriptors⟩ := run_inodes standardInput hardLinkCalls fs hfresh hfs
  refine ⟨fs, hfs, (hpaths _ _ _ _ ha hb).mp rfl, fun hsame => ?_, ?_⟩
  · have hfalse := (hpaths _ _ _ _ ha hc).mpr hsame
    cases hfalse
  · exact (hdescriptors _ 0 2 d 2 hslot hd hfd ha).mpr (Or.inr hdn)

/-- A renamed file keeps the number of the slot it has left, which the next file takes. -/
theorem rename_shares_inode :
    RunEnds (step standardInput) start
        [.memOpen (.fromRoot "a".toList) { creat := true, rdwr := true } 0o600, .close 0,
          .rename (.fromRoot "a".toList) (.fromRoot "b".toList),
          .memOpen (.fromRoot "c".toList) { creat := true, rdwr := true } 0o600] fun fs =>
      fs.mem.memStat (.fromRoot "b".toList) = fs.mem.memStat (.fromRoot "c".toList) ∧
        fs.mem.memStat (.fromRoot "b".toList) = some (.ok 2) ∧
        fs.mem.memDataOf (.fromRoot "b".toList) ≠ fs.mem.memDataOf (.fromRoot "c".toList) := by
  decide

end FileSystem

end Zrt.Fs
