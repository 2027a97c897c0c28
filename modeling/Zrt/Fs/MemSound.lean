import Zrt.Fs.MemTree
import Zrt.Fs.MemWalk

/-!
# Sound states of the in-memory mount

Every listed child is allocated, every node has its data, and links are counted high enough: each node
of the data and each subdirectory listed in it is one. No call can then follow a pointer to nothing.
The changes keep this as long as a removed node is listed nowhere but with its recorded parent.
-/

namespace Zrt.Fs

open Zrt.Framework

namespace MemMount

/-! ## Counting nodes -/

section Counting

variable {m : MemMount} {slot : Nat} {n : MemNode}

/-- How many nodes have the data. -/
def nodesOf (m : MemMount) (id : Nat) : Nat := holders (fun n : MemNode => some n.nodedata) m.slots id

theorem getElem?_of_nodeAt (hn : m.nodeAt slot = some n) : m.slots[slot]? = some (some n) := by
  rw [nodeAt, List.getD_eq_getElem?_getD] at hn
  cases hs : m.slots[slot]? with
  | none =>
      rw [hs] at hn
      cases hn
  | some o =>
      rw [hs, Option.getD_some] at hn
      rw [hn]

theorem nodesOf_pos (hn : m.nodeAt slot = some n) : 0 < m.nodesOf n.nodedata :=
  holders_pos_iff.mpr ⟨n, List.mem_of_getElem? (getElem?_of_nodeAt hn), rfl⟩

theorem nodesOf_set (hn : m.nodeAt slot = some n) (new : Option MemNode)
    (heap : List (Option MemData)) (id : Nat) :
    (MemMount.mk (m.slots.set slot new) heap).nodesOf id + (if n.nodedata = id then 1 else 0) =
      m.nodesOf id + if new.map MemNode.nodedata = some id then 1 else 0 := by
  have hset := holders_set (fun n : MemNode => some n.nodedata) (getElem?_of_nodeAt hn) new id
  cases new with
  | none => simpa [nodesOf, holdsKey] using hset
  | some n' => simpa [nodesOf, holdsKey] using hset

theorem two_le_nodesOf {t : Nat} {n' : MemNode} (hn : m.nodeAt slot = some n)
    (ht : m.nodeAt t = some n') (hne : t ≠ slot) (hdata : n'.nodedata = n.nodedata) :
    2 ≤ m.nodesOf n.nodedata := by
  have hset := nodesOf_set hn none m.heap n.nodedata
  have ht' : (MemMount.mk (m.slots.set slot none) m.heap).nodeAt t = some n' := by
    rw [nodeAt_set hn, if_neg hne, ht]
  have hpos := nodesOf_pos ht'
  rw [hdata] at hpos
  simp only [if_true, Option.map_none, reduceCtorEq, if_false] at hset
  omega

private theorem nodesOf_alloc (m : MemMount) (n : MemNode) (id : Nat) :
    (m.alloc n).2.nodesOf id = m.nodesOf id + if n.nodedata = id then 1 else 0 := by
  unfold alloc
  cases hf : m.slots.findIdx? Option.isNone with
  | some i =>
      obtain ⟨hlt, hfree, -⟩ := List.findIdx?_eq_some_iff_getElem.mp hf
      have hget : m.slots[i]? = some none := by
        rw [List.getElem?_eq_getElem hlt, Option.isNone_iff_eq_none.mp hfree]
      have hset := holders_set (fun n : MemNode => some n.nodedata) hget (some n) id
      simpa [nodesOf, holdsKey] using hset
  | none => simp [nodesOf, holders, holdsKey, List.countP_append, List.countP_singleton]

theorem nodesOf_updateDataAt (f : MemData → MemData) (id : Nat) :
    (m.updateDataAt slot f).nodesOf id = m.nodesOf id := by
  rw [nodesOf, slots_updateDataAt, nodesOf]

theorem nodesOf_removeNode (hn : m.nodeAt slot = some n) (id : Nat) :
    (m.removeNode slot).nodesOf id + (if n.nodedata = id then 1 else 0) = m.nodesOf id := by
  have hn' : (m.removeChild n.parent slot).nodeAt slot = some n := by
    rw [removeChild, nodeAt_updateDataAt, hn]
  rw [removeNode, hn]
  simp only [free, hn']
  rw [nodesOf_set hn', removeChild, nodesOf_updateDataAt]
  simp

theorem nodesOf_hideNode (hn : m.nodeAt slot = some n) (id : Nat) :
    (m.hideNode slot).nodesOf id = m.nodesOf id := by
  have hset := nodesOf_set hn (some { n with name := deletedName }) m.heap id
  rw [hideNode, hn]
  simp only [setName, hn]
  simp only [Option.map_some, Option.some.injEq] at hset
  rw [nodesOf, updateData]
  exact Nat.add_right_cancel hset

theorem nodesOf_removeDir {d : MemData} (hn : m.nodeAt slot = some n)
    (hd : m.getData n.nodedata = some d) (id : Nat) :
    (m.removeDir slot).nodesOf id +
      (if n.nodedata = id ∧ d.wantUnlink = false then 1 else 0) = m.nodesOf id := by
  have hn' : ((m.updateDataAt n.parent fun d => { d with nlink := d.nlink - 1 }).removeChild
      n.parent slot).nodeAt slot = some n := by
    rw [removeChild, nodeAt_updateDataAt, nodeAt_updateDataAt, hn]
  rw [removeDir, hn]
  simp only [hd]
  cases hw : d.wantUnlink with
  | true => simp [removeChild, nodesOf_updateDataAt]
  | false =>
      simp only [Bool.false_eq_true, if_false, free, hn', and_true]
      rw [nodesOf_set hn', removeChild, nodesOf_updateDataAt, nodesOf_updateDataAt]
      simp

theorem nodesOf_enterNode (m : MemMount) (parent : Nat) (name : Text) (isDir : Bool) (mode : Nat)
    (hardlink : Option Nat) (id : Nat) :
    (m.enterNode parent name isDir mode hardlink).nodesOf id =
      m.nodesOf id + if m.newData hardlink = id then 1 else 0 := by
  have hmake : (m.makeNode parent name isDir mode hardlink).2.nodesOf id =
      m.nodesOf id + if m.newData hardlink = id then 1 else 0 := by
    simp only [makeNode, addChild]
    rw [nodesOf_updateDataAt, nodesOf_alloc, nodesOf, constructData_slots.1, constructData_slots.2,
      nodesOf]
  unfold enterNode
  split
  · rw [nodesOf_updateDataAt, hmake]
  · exact hmake

end Counting

/-! ## Sound states -/

def dirAt (m : MemMount) (slot : Nat) : Bool := (m.dataAt slot).any MemData.isDir

/-- How many directories are listed. -/
def subdirs (m : MemMount) (d : MemData) : Nat := if d.isDir then d.children.countP m.dirAt else 0

structure Sound (m : MemMount) : Prop where
  grounded : m.Grounded
  children : ∀ s n d, m.nodeAt s = some n → m.getData n.nodedata = some d → d.isDir = true →
    ∀ c ∈ d.children, c ≠ 0 ∧ c ≠ rootSlot ∧ (m.nodeAt c).isSome
  counted : ∀ s n, s ≠ 0 → m.nodeAt s = some n → ∃ d, m.getData n.nodedata = some d ∧
    m.nodesOf n.nodedata + m.subdirs d ≤ d.nlink
  parents : ∀ s n, s ≠ 0 → s ≠ rootSlot → m.nodeAt s = some n → n.parent ≠ 0
  /-- No node is listed in two directories, except in their hard links. -/
  unique : ∀ s n d s' n' d', m.nodeAt s = some n → m.getData n.nodedata = some d →
    d.isDir = true → m.nodeAt s' = some n' → m.getData n'.nodedata = some d' → d'.isDir = true →
    ∀ c ∈ d.children, c ∈ d'.children → n.nodedata = n'.nodedata
  /-- Within a directory only hidden entries share a name. -/
  names : ∀ s n d, m.nodeAt s = some n → m.getData n.nodedata = some d → d.isDir = true →
    ∀ c ∈ d.children, ∀ c' ∈ d.children, ∀ nc nc', m.nodeAt c = some nc → m.nodeAt c' = some nc' →
      nc.name = nc'.name → c = c' ∨ nc.name = deletedName

/-- The node is listed nowhere but in the data of its recorded parent. -/
def listedByParent (m : MemMount) (slot : Nat) : Bool :=
  match m.nodeAt slot with
  | none => true
  | some n => (List.range m.slots.length).all fun s =>
      (m.nodeAt s).all fun sn => (m.getData sn.nodedata).all fun d =>
        !(d.isDir && decide (slot ∈ d.children)) || decide (m.parentData n = some sn.nodedata)

def keepsListing (m : MemMount) : Removal → Bool
  | .remove slot => m.listedByParent slot
  | .hide _ => true
  | .rmdir slot => m.listedByParent slot

section Sound

variable {m m' : MemMount} {slot : Nat} {n : MemNode} {d : MemData}

theorem listedByParent_iff (hn : m.nodeAt slot = some n) :
    m.listedByParent slot = true ↔ ∀ s sn d, m.nodeAt s = some sn → m.getData sn.nodedata = some d →
      d.isDir = true → slot ∈ d.children → m.parentData n = some sn.nodedata := by
  rw [listedByParent, hn]
  simp only [List.all_eq_true, List.mem_range]
  constructor
  · intro h s sn d hsn hd hdir hc
    have hall := h s (lt_slots_length hsn)
    simp only [hsn, Option.all_some, hd, hdir, hc, decide_true, Bool.and_self, Bool.not_true,
      Bool.false_or, decide_eq_true_eq] at hall
    exact hall
  · intro h s _
    cases hsn : m.nodeAt s with
    | none => rfl
    | some sn =>
        cases hd : m.getData sn.nodedata with
        | none => simp [hd]
        | some d =>
            simp only [Option.all_some, hd, Bool.or_eq_true, Bool.not_eq_true', Bool.and_eq_false_iff,
              decide_eq_false_iff_not, decide_eq_true_eq]
            by_cases hdir : d.isDir = true
            · by_cases hc : slot ∈ d.children
              · exact Or.inr (h s sn d hsn hd hdir hc)
              · exact Or.inl (Or.inr hc)
            · exact Or.inl (Or.inl (Bool.eq_false_iff.mpr hdir))

theorem Tree.listedByParent (h : m.Tree) (slot : Nat) : m.listedByParent slot = true := by
  cases hn : m.nodeAt slot with
  | none => rw [MemMount.listedByParent, hn]
  | some n =>
      apply (listedByParent_iff hn).mpr
      intro s sn d hsn hd hdir hc
      obtain ⟨nc, p, hnc, hp, hpd⟩ := h s sn d hsn hd hdir slot hc
      rw [hn] at hnc
      cases hnc
      rw [parentData, hp, Option.map_some, hpd]

/-- A change that makes no node and no entry. -/
structure Shrinks (m m' : MemMount) : Prop where
  node : ∀ t n', m'.nodeAt t = some n' → ∃ n, m.nodeAt t = some n ∧ n'.nodedata = n.nodedata ∧
    n'.parent = n.parent ∧ (n'.name = n.name ∨ n'.name = deletedName)
  data : ∀ i d', m'.getData i = some d' → ∃ d, m.getData i = some d ∧ d'.isDir = d.isDir ∧
    d'.children.Sublist d.children

theorem Shrinks.dirAt (h : Shrinks m m') (hd : m'.dirAt slot = true) : m.dirAt slot = true := by
  rw [MemMount.dirAt, Option.any_eq_true] at hd ⊢
  obtain ⟨d', hd', hdir'⟩ := hd
  obtain ⟨n', hn', hdata'⟩ := dataAt_eq_some.mp hd'
  obtain ⟨n, hn, hnd, -⟩ := h.node slot n' hn'
  obtain ⟨d, hdata, hdir, -⟩ := h.data _ d' hdata'
  exact ⟨d, by rw [dataAt_of hn, ← hnd, hdata], by rw [← hdir, hdir']⟩

theorem Shrinks.subdirs_le (h : Shrinks m m') {d' : MemData} (hdir : d'.isDir = d.isDir)
    (hc : d'.children.Sublist d.children) : m'.subdirs d' ≤ m.subdirs d := by
  unfold subdirs
  rw [hdir]
  split
  · calc d'.children.countP m'.dirAt ≤ d'.children.countP m.dirAt :=
          List.countP_mono_left fun c _ => h.dirAt
      _ ≤ d.children.countP m.dirAt := hc.countP_le
  · exact Nat.le_refl 0

theorem ite_filter_sublist {p : Prop} [Decidable p] {cs : List Nat} {q : Nat → Bool} :
    (if p then cs.filter q else cs).Sublist cs := by
  split
  · exact List.filter_sublist
  · exact List.Sublist.refl _

/-- The removed slot is left in no list, since the only one it was in has been filtered. -/
theorem ne_of_mem_filtered {s c : Nat} {sn : MemNode} {b : MemData} (hn : m.nodeAt slot = some n)
    (hlisted : m.listedByParent slot = true) (hsn : m.nodeAt s = some sn)
    (hb : m.getData sn.nodedata = some b) (hdir : b.isDir = true)
    (hc : c ∈ if m.parentData n = some sn.nodedata ∧ b.isDir = true then
      b.children.filter (· ≠ slot) else b.children) : c ≠ slot := by
  intro he
  subst he
  have hpar := (listedByParent_iff hn).mp hlisted s sn b hsn hb hdir (ite_filter_sublist.subset hc)
  rw [if_pos ⟨hpar, hdir⟩] at hc
  simpa using (List.mem_filter.mp hc).2

private theorem countP_filter_ne {p : Nat → Bool} {cs : List Nat} (hmem : slot ∈ cs) (hp : p slot = true) :
    (cs.filter (· ≠ slot)).countP p + 1 ≤ cs.countP p := by
  have hsplit := List.countP_eq_countP_filter_add cs p (· ≠ slot)
  have hpos : 0 < (cs.filter (fun c => !decide (c ≠ slot))).countP p :=
    List.countP_pos_iff.mpr ⟨slot, by simp [hmem], hp⟩
  omega

/-- What is left to show of a change that makes nothing: that it leaves no entry without a node, and
that it does not take more links than nodes and subdirectories. -/
theorem Sound.of_shrinks (h : m.Sound) (hs : Shrinks m m') (hg : m'.Grounded)
    (hkept : ∀ s n' d', m'.nodeAt s = some n' → m'.getData n'.nodedata = some d' →
      d'.isDir = true → ∀ c ∈ d'.children, (m'.nodeAt c).isSome)
    (hcount : ∀ s n' n d, s ≠ 0 → m'.nodeAt s = some n' → m.nodeAt s = some n →
      n'.nodedata = n.nodedata → m.getData n.nodedata = some d →
      m.nodesOf n.nodedata + m.subdirs d ≤ d.nlink →
      ∃ d', m'.getData n.nodedata = some d' ∧ m'.nodesOf n.nodedata + m'.subdirs d' ≤ d'.nlink) :
    m'.Sound where
  grounded := hg
  children := by
    intro s n' d' hn' hd' hdir' c hc
    obtain ⟨n, hn, hnd, -⟩ := hs.node s n' hn'
    obtain ⟨d, hd, hdir, hsub⟩ := hs.data _ d' hd'
    obtain ⟨h0, h1, -⟩ := h.children s n d hn (hnd ▸ hd) (hdir ▸ hdir') c (hsub.subset hc)
    exact ⟨h0, h1, hkept s n' d' hn' hd' hdir' c hc⟩
  counted := by
    intro s n' hs0 hn'
    obtain ⟨n, hn, hnd, -⟩ := hs.node s n' hn'
    obtain ⟨d, hd, hle⟩ := h.counted s n hs0 hn
    rw [hnd]
    exact hcount s n' n d hs0 hn' hn hnd hd hle
  parents := by
    intro s n' hs0 hs1 hn'
    obtain ⟨n, hn, -, hpar, -⟩ := hs.node s n' hn'
    rw [hpar]
    exact h.parents s n hs0 hs1 hn
  unique := by
    intro s n₁ d₁ t n₂ d₂ hn₁ hd₁ hdir₁ hn₂ hd₂ hdir₂ c hc₁ hc₂
    obtain ⟨b₁, hb₁, hnd₁, -⟩ := hs.node s n₁ hn₁
    obtain ⟨b₂, hb₂, hnd₂, -⟩ := hs.node t n₂ hn₂
    obtain ⟨e₁, he₁, hedir₁, hsub₁⟩ := hs.data _ d₁ hd₁
    obtain ⟨e₂, he₂, hedir₂, hsub₂⟩ := hs.data _ d₂ hd₂
    rw [hnd₁, hnd₂]
    exact h.unique s b₁ e₁ t b₂ e₂ hb₁ (hnd₁ ▸ he₁) (hedir₁ ▸ hdir₁) hb₂ (hnd₂ ▸ he₂) (hedir₂ ▸ hdir₂)
      c (hsub₁.subset hc₁) (hsub₂.subset hc₂)
  names := by
    intro s n' d' hn' hd' hdir' c hc c' hc' nc nc' hnc hnc' hname
    obtain ⟨n, hn, hnd, -⟩ := hs.node s n' hn'
    obtain ⟨d, hd, hdir, hsub⟩ := hs.data _ d' hd'
    obtain ⟨b, hb, -, -, hbname⟩ := hs.node c nc hnc
    obtain ⟨b', hb', -, -, hbname'⟩ := hs.node c' nc' hnc'
    rcases hbname with hb₁ | hdel
    · rcases hbname' with hb₂ | hdel'
      · rw [hb₁]
        exact h.names s n d hn (hnd ▸ hd) (hdir ▸ hdir') c (hsub.subset hc) c' (hsub.subset hc') b b'
          hb hb' (by rw [← hb₁, ← hb₂, hname])
      · exact Or.inr (hname.trans hdel')
    · exact Or.inr hdel

theorem Sound.updateData (h : m.Sound) {id : Nat} {f : MemData → MemData} (hf : Inert f) :
    (m.updateData id f).Sound := by
  have hshrink : Shrinks m (m.updateData id f) := by
    constructor
    · exact fun t n' hn' => ⟨n', hn', rfl, rfl, Or.inl rfl⟩
    · intro i d' hd'
      obtain ⟨d, hd, hdir, -, -, hchildren⟩ := hf.backward hd'
      exact ⟨d, hd, hdir, by rw [hchildren]⟩
  have hc : Change (fun _ _ => True) m (m.updateData id f) := .touch hf
  apply h.of_shrinks hshrink (change_grounded h.grounded hc)
  · intro s n' d' hn' hd' hdir' c hc
    obtain ⟨d, hd, hdir, -, -, hchildren⟩ := hf.backward hd'
    exact (h.children s n' d hn' hd (hdir ▸ hdir') c (hchildren ▸ hc)).2.2
  · intro s n' n d _ _ _ _ hd hle
    obtain ⟨d', hd'⟩ := forward_updateData hd
    obtain ⟨d₀, hd₀, hdir, hnlink, -, hchildren⟩ := hf.backward hd'
    rw [hd] at hd₀
    cases hd₀
    refine ⟨d', hd', ?_⟩
    have hsub := hshrink.subdirs_le hdir (by rw [hchildren])
    rw [hnlink]
    exact Nat.le_trans (Nat.add_le_add_left hsub _) hle

theorem shrinks_removeNode (hn : m.nodeAt slot = some n) : Shrinks m (m.removeNode slot) where
  node := by
    intro t n' hn'
    rw [nodeAt_removeNode hn] at hn'
    split at hn'
    · cases hn'
    · exact ⟨n', hn', rfl, rfl, Or.inl rfl⟩
  data := by
    intro i d' hd'
    obtain ⟨b, hb, hdir, -, -, -, hchildren⟩ := backward_removeNode hn hd'
    exact ⟨b, hb, hdir, by rw [hchildren]; exact ite_filter_sublist⟩

theorem Sound.removeNode (h : m.Sound) (hr : m.Removable slot n d)
    (hlisted : m.listedByParent slot = true) : (m.removeNode slot).Sound := by
  have hshrink := shrinks_removeNode hr.node
  have hchange : Change (fun _ _ => True) m (m.removeNode slot) := .remove hr trivial
  apply h.of_shrinks hshrink (change_grounded h.grounded hchange)
  · intro s n' d' hn' hd' hdir' c hc
    obtain ⟨b, hb, hdir, -, -, -, hchildren⟩ := backward_removeNode hr.node hd'
    obtain ⟨n₀, hn₀, hnd, -⟩ := hshrink.node s n' hn'
    rw [hdir] at hdir'
    rw [hnd] at hb
    rw [hchildren, hnd] at hc
    rw [nodeAt_removeNode hr.node, if_neg (ne_of_mem_filtered hr.node hlisted hn₀ hb hdir' hc)]
    exact (h.children s n₀ b hn₀ hb hdir' c (ite_filter_sublist.subset hc)).2.2
  · intro s n' n₀ b _ hn' hn₀ hnd hb hle
    have hs : s ≠ slot := by
      intro he
      rw [nodeAt_removeNode hr.node, if_pos he] at hn'
      cases hn'
    have htwo : n₀.nodedata = n.nodedata → 2 ≤ m.nodesOf n₀.nodedata := by
      intro hi
      rw [hi]
      exact two_le_nodesOf hr.node hn₀ hs hi
    obtain ⟨d', hd'⟩ := forward_removeNode hr.node hb fun hi => by
      have := htwo hi
      omega
    obtain ⟨b₀, hb₀, hdir, -, hnlink, -, hchildren⟩ := backward_removeNode hr.node hd'
    rw [hb] at hb₀
    cases hb₀
    have hsub : (m.removeNode slot).subdirs d' ≤ m.subdirs b := by
      apply hshrink.subdirs_le hdir
      rw [hchildren]
      exact ite_filter_sublist
    have hnodes := nodesOf_removeNode hr.node n₀.nodedata
    refine ⟨d', hd', ?_⟩
    rw [hnlink]
    by_cases hi : n₀.nodedata = n.nodedata
    · rw [if_pos hi]
      rw [if_pos hi.symm] at hnodes
      omega
    · rw [if_neg hi]
      rw [if_neg (Ne.symm hi)] at hnodes
      omega

theorem shrinks_hideNode (hn : m.nodeAt slot = some n) : Shrinks m (m.hideNode slot) where
  node := by
    intro t n' hn'
    rw [nodeAt_hideNode hn] at hn'
    split at hn'
    · rename_i ht
      cases hn'
      exact ⟨n, by rw [ht, hn], rfl, rfl, Or.inr rfl⟩
    · exact ⟨n', hn', rfl, rfl, Or.inl rfl⟩
  data := by
    intro i d' hd'
    obtain ⟨b, hb, hdir, -, hchildren, -⟩ := backward_hideNode hn hd'
    exact ⟨b, hb, hdir, by rw [hchildren]⟩

theorem Sound.hideNode (h : m.Sound) (hh : m.Hideable slot n d) : (m.hideNode slot).Sound := by
  have hshrink := shrinks_hideNode hh.node
  have hc : Change (fun _ _ => True) m (m.hideNode slot) := .hide hh trivial
  apply h.of_shrinks hshrink (change_grounded h.grounded hc)
  · intro s n' d' hn' hd' hdir' c hc
    obtain ⟨b, hb, hdir, -, hchildren, -⟩ := backward_hideNode hh.node hd'
    obtain ⟨n₀, hn₀, hnd, -⟩ := hshrink.node s n' hn'
    have hsome := (h.children s n₀ b hn₀ (hnd ▸ hb) (hdir ▸ hdir') c (hchildren ▸ hc)).2.2
    rw [nodeAt_hideNode hh.node]
    split
    · rfl
    · exact hsome
  · intro s n' n₀ b _ _ _ _ hb hle
    obtain ⟨d', hd'⟩ := forward_hideNode hh.node hb
    obtain ⟨b₀, hb₀, hdir, hnlink, hchildren, -⟩ := backward_hideNode hh.node hd'
    rw [hb] at hb₀
    cases hb₀
    have hsub : (m.hideNode slot).subdirs d' ≤ m.subdirs b :=
      hshrink.subdirs_le hdir (by rw [hchildren])
    refine ⟨d', hd', ?_⟩
    rw [hnlink, nodesOf_hideNode hh.node]
    omega

/-- A directory is listed by its parent, so that the parent has one subdirectory less. -/
theorem DirRemovable.shrinks (hr : m.DirRemovable slot n d) : Shrinks m (m.removeDir slot) := by
  constructor
  · intro t n' hn'
    rw [nodeAt_removeDir hr.node hr.data] at hn'
    split at hn'
    · cases hn'
    · exact ⟨n', hn', rfl, rfl, Or.inl rfl⟩
  · intro i d' hd'
    obtain ⟨b, hb, hdir, -, -, hchildren⟩ := backward_removeDir hr.node hr.data hd'
    exact ⟨b, hb, hdir, by rw [hchildren]; exact ite_filter_sublist⟩

theorem DirRemovable.dirAt (hr : m.DirRemovable slot n d) : m.dirAt slot = true := by
  rw [MemMount.dirAt, dataAt_of hr.node, hr.data, Option.any_some, hr.dir]

/-- The data of the recorded parent is where the directory is listed. -/
theorem DirRemovable.mem_parent (hr : m.DirRemovable slot n d)
    (hlisted : m.listedByParent slot = true) {i : Nat} {b : MemData} (hb : m.getData i = some b)
    (hp : m.parentData n = some i) : b.isDir = true ∧ slot ∈ b.children := by
  obtain ⟨t, td, htd, htdir, hmem⟩ := hr.listed
  obtain ⟨tn, htn, hdata⟩ := dataAt_eq_some.mp htd
  have hpar := (listedByParent_iff hr.node).mp hlisted t tn td htn hdata htdir hmem
  rw [hp] at hpar
  rw [← Option.some.inj hpar, hb] at hdata
  cases hdata
  exact ⟨htdir, hmem⟩

private theorem DirRemovable.subdirs_le (hr : m.DirRemovable slot n d)
    (hlisted : m.listedByParent slot = true) {i : Nat} {b d' : MemData}
    (hb : m.getData i = some b) (hdir' : d'.isDir = b.isDir)
    (hchildren : d'.children = if m.parentData n = some i ∧ b.isDir = true then
      b.children.filter (fun c => c ≠ slot) else b.children) :
    (m.removeDir slot).subdirs d' + (if m.parentData n = some i then 1 else 0) ≤ m.subdirs b := by
  split
  · rename_i hp
    obtain ⟨hdir, hmem⟩ := hr.mem_parent hlisted hb hp
    rw [if_pos ⟨hp, hdir⟩] at hchildren
    rw [subdirs, subdirs, if_pos hdir, if_pos (hdir'.trans hdir), hchildren]
    exact Nat.le_trans
      (Nat.add_le_add_right (List.countP_mono_left fun c _ => hr.shrinks.dirAt) 1)
      (countP_filter_ne hmem hr.dirAt)
  · apply hr.shrinks.subdirs_le hdir'
    rw [hchildren]
    exact ite_filter_sublist

private theorem DirRemovable.counted (hr : m.DirRemovable slot n d)
    (hlisted : m.listedByParent slot = true) {s : Nat} {n' n₀ : MemNode} {b : MemData}
    (hn' : (m.removeDir slot).nodeAt s = some n') (hn₀ : m.nodeAt s = some n₀)
    (hb : m.getData n₀.nodedata = some b)
    (hle : m.nodesOf n₀.nodedata + m.subdirs b ≤ b.nlink) :
    ∃ d', (m.removeDir slot).getData n₀.nodedata = some d' ∧
      (m.removeDir slot).nodesOf n₀.nodedata + (m.removeDir slot).subdirs d' ≤ d'.nlink := by
  have hsubdirs : m.parentData n = some n₀.nodedata → 1 ≤ m.subdirs b := by
    intro hp
    obtain ⟨hdir, hmem⟩ := hr.mem_parent hlisted hb hp
    rw [subdirs, if_pos hdir]
    exact List.countP_pos_iff.mpr ⟨slot, hmem, hr.dirAt⟩
  have htwo : n₀.nodedata = n.nodedata → d.wantUnlink = false → 2 ≤ m.nodesOf n₀.nodedata := by
    intro hi hw
    have hs : s ≠ slot := by
      intro he
      rw [nodeAt_removeDir hr.node hr.data, if_pos ⟨he, hw⟩] at hn'
      cases hn'
    rw [hi]
    exact two_le_nodesOf hr.node hn₀ hs hi
  obtain ⟨d', hd'⟩ := forward_removeDir hr.node hr.data hb fun hi hw => by
    have hnodes := htwo hi hw
    split
    · rename_i hp
      have := hsubdirs hp
      omega
    · omega
  obtain ⟨b₀, hb₀, hdir', -, hnlink, hchildren⟩ := backward_removeDir hr.node hr.data hd'
  rw [hb] at hb₀
  cases Option.some.inj hb₀
  have hsub := hr.subdirs_le hlisted hb hdir' hchildren
  have hnodes := nodesOf_removeDir hr.node hr.data n₀.nodedata
  refine ⟨d', hd', ?_⟩
  rw [hnlink]
  by_cases hi : n₀.nodedata = n.nodedata ∧ d.wantUnlink = false
  · rw [if_pos hi]
    rw [if_pos ⟨hi.1.symm, hi.2⟩] at hnodes
    have := htwo hi.1 hi.2
    omega
  · rw [if_neg hi]
    rw [if_neg (fun hs => hi ⟨hs.1.symm, hs.2⟩)] at hnodes
    omega

theorem Sound.removeDir (h : m.Sound) (hr : m.DirRemovable slot n d)
    (hlisted : m.listedByParent slot = true) : (m.removeDir slot).Sound := by
  apply h.of_shrinks hr.shrinks (h.grounded.removeDir hr)
  · intro s n' d' hn' hd' hdir' c hc
    obtain ⟨b, hb, hdir, -, -, hchildren⟩ := backward_removeDir hr.node hr.data hd'
    obtain ⟨n₀, hn₀, hnd, -⟩ := hr.shrinks.node s n' hn'
    rw [hdir] at hdir'
    rw [hnd] at hb
    rw [hchildren, hnd] at hc
    have hcs := ne_of_mem_filtered hr.node hlisted hn₀ hb hdir' hc
    rw [nodeAt_removeDir hr.node hr.data, if_neg (fun hs => hcs hs.1)]
    exact (h.children s n₀ b hn₀ hb hdir' c (ite_filter_sublist.subset hc)).2.2
  · intro s n' n₀ b _ hn' hn₀ _ hb hle
    exact hr.counted hlisted hn' hn₀ hb hle

section Enter

variable {parent mode : Nat} {name : Text} {isDir : Bool} {hardlink : Option Nat} {pn : MemNode}
  {pd : MemData}

theorem newData_eq_iff (hd : m.getData i = some d) : m.newData hardlink = i ↔ hardlink = some i := by
  cases hardlink with
  | none =>
      have hlt := lt_heap_length hd
      simp [newData, Nat.ne_of_gt hlt]
  | some id => simp [newData]

theorem Enterable.isDir_newData (he : m.Enterable parent name isDir hardlink pn pd)
    (hd' : (m.enterNode parent name isDir mode hardlink).getData (m.newData hardlink) = some d') :
    d'.isDir = isDir := by
  rcases he.backward hd' with ⟨b, hb, hdir, -⟩ | ⟨-, -, hdir, -⟩
  · cases hardlink with
    | none => exact absurd (lt_heap_length hb) (Nat.lt_irrefl _)
    | some id =>
        obtain ⟨s, sn, sd, -, -, hsd, hsdir, -⟩ := he.shared id rfl
        have hb' : m.getData id = some b := hb
        rw [hsd] at hb'
        cases hb'
        rw [hdir, hsdir]
  · exact hdir

private theorem Sound.dirAt_enterNode (h : m.Sound) (he : m.Enterable parent name isDir hardlink pn pd)
    {s : Nat} {sn : MemNode} (hsn : m.nodeAt s = some sn)
    (hd : (m.enterNode parent name isDir mode hardlink).dirAt s = true) : m.dirAt s = true := by
  rw [dirAt, Option.any_eq_true] at hd ⊢
  obtain ⟨d', hd', hdir'⟩ := hd
  rw [dataAt_of (nodeAt_enterNode_of_some hsn)] at hd'
  rcases he.backward hd' with ⟨b, hb, hdir, -⟩ | ⟨-, hlen, -⟩
  · exact ⟨b, by rw [dataAt_of hsn, hb], by rw [← hdir, hdir']⟩
  · have hlt := h.grounded.bounded s sn hsn
    omega

private theorem Enterable.dirAt_newSlot (he : m.Enterable parent name isDir hardlink pn pd)
    (hd : (m.enterNode parent name isDir mode hardlink).dirAt
      (m.newSlot parent name isDir mode hardlink) = true) : isDir = true := by
  rw [dirAt, Option.any_eq_true] at hd
  obtain ⟨d', hd', hdir'⟩ := hd
  have hnew : (m.enterNode parent name isDir mode hardlink).nodeAt
      (m.newSlot parent name isDir mode hardlink) = some ⟨name, parent, m.newData hardlink⟩ := by
    rw [nodeAt_enterNode, if_pos rfl]
  rw [dataAt_of hnew] at hd'
  rw [← he.isDir_newData hd', hdir']

private theorem Sound.counted_enterNode (h : m.Sound) (he : m.Enterable parent name isDir hardlink pn pd)
    {s : Nat} {sn : MemNode} (hs : s ≠ 0) (hsn : m.nodeAt s = some sn) :
    ∃ d', (m.enterNode parent name isDir mode hardlink).getData sn.nodedata = some d' ∧
      (m.enterNode parent name isDir mode hardlink).nodesOf sn.nodedata +
        (m.enterNode parent name isDir mode hardlink).subdirs d' ≤ d'.nlink := by
  obtain ⟨b, hb, hle⟩ := h.counted s sn hs hsn
  obtain ⟨d', hd'⟩ := he.forward (m := m) hb
  refine ⟨d', hd', ?_⟩
  rcases he.backward hd' with ⟨b₀, hb₀, hdir, -, hnlink, hchildren⟩ | ⟨-, hlen, -⟩
  · rw [hb] at hb₀
    cases Option.some.inj hb₀
    have hold : b.isDir = true → b.children.countP (m.enterNode parent name isDir mode hardlink).dirAt ≤
        b.children.countP m.dirAt := by
      intro hbdir
      apply List.countP_mono_left
      intro c hc hd
      obtain ⟨-, -, hsome⟩ := h.children s sn b hsn hb hbdir c hc
      obtain ⟨cn, hcn⟩ := Option.isSome_iff_exists.mp hsome
      exact h.dirAt_enterNode he hcn hd
    have hsub : (m.enterNode parent name isDir mode hardlink).subdirs d' ≤
        m.subdirs b + if sn.nodedata = pn.nodedata ∧ isDir = true then 1 else 0 := by
      unfold subdirs
      rw [hdir, hchildren]
      split
      · rename_i hbdir
        split
        · rename_i hp
          rw [List.countP_append, List.countP_singleton]
          apply Nat.add_le_add (hold hbdir)
          split
          · rename_i hnew
            rw [if_pos ⟨hp, he.dirAt_newSlot hnew⟩]
          · exact Nat.zero_le _
        · exact Nat.le_trans (hold hbdir) (Nat.le_add_right _ _)
      · exact Nat.zero_le _
    rw [nodesOf_enterNode, if_congr (newData_eq_iff hb) rfl rfl, hnlink]
    omega
  · have hlt := lt_heap_length hb
    omega

theorem Sound.newSlot_ne (h : m.Sound) (parent : Nat) (name : Text) (isDir : Bool) (mode : Nat)
    (hardlink : Option Nat) :
    m.newSlot parent name isDir mode hardlink ≠ 0 ∧
      m.newSlot parent name isDir mode hardlink ≠ rootSlot := by
  have hfree := newSlot_free m parent name isDir mode hardlink
  constructor
  · intro h0
    obtain ⟨n₀, hn₀, -⟩ := h.grounded.zero
    rw [h0, hn₀] at hfree
    cases hfree
  · intro h1
    obtain ⟨n₁, hn₁, -⟩ := h.grounded.root
    rw [h1, hn₁] at hfree
    cases hfree

theorem Sound.newSlot_not_listed (h : m.Sound) {u : Nat} {un : MemNode} {b : MemData}
    (hun : m.nodeAt u = some un) (hb : m.getData un.nodedata = some b) (hdir : b.isDir = true) :
    m.newSlot parent name isDir mode hardlink ∉ b.children := by
  intro hmem
  have hsome := (h.children u un b hun hb hdir _ hmem).2.2
  rw [newSlot_free m parent name isDir mode hardlink] at hsome
  cases hsome

private theorem Sound.children_enterNode (h : m.Sound)
    (he : m.Enterable parent name isDir hardlink pn pd) {s c : Nat} {sn : MemNode} {d' : MemData}
    (hsn : (m.enterNode parent name isDir mode hardlink).nodeAt s = some sn)
    (hd' : (m.enterNode parent name isDir mode hardlink).getData sn.nodedata = some d')
    (hdir' : d'.isDir = true) (hc : c ∈ d'.children) :
    c ≠ 0 ∧ c ≠ rootSlot ∧
      ((m.enterNode parent name isDir mode hardlink).nodeAt c).isSome := by
  rcases he.listed hsn hd' hdir' hc with ⟨t, tn, b, htn, hid, hb, hdir, hcb⟩ | ⟨-, rfl⟩
  · obtain ⟨h0, h1, hsome⟩ := h.children t tn b htn (hid ▸ hb) hdir c hcb
    obtain ⟨cn, hcn⟩ := Option.isSome_iff_exists.mp hsome
    exact ⟨h0, h1, by rw [nodeAt_enterNode_of_some hcn]; rfl⟩
  · obtain ⟨h0, h1⟩ := h.newSlot_ne parent name isDir mode hardlink
    exact ⟨h0, h1, by rw [nodeAt_newSlot]; rfl⟩

theorem Sound.nodesOf_heap_length (h : m.Sound) : m.nodesOf m.heap.length = 0 := by
  apply Nat.eq_zero_of_not_pos
  intro hpos
  obtain ⟨n', hn', hid⟩ := holders_pos_iff.mp hpos
  obtain ⟨i, hi⟩ := List.mem_iff_getElem?.mp hn'
  have hlt := h.grounded.bounded i n' (by
    rw [nodeAt, List.getD_eq_getElem?_getD, hi, Option.getD_some])
  rw [Option.some.inj hid] at hlt
  exact Nat.lt_irrefl _ hlt

private theorem Sound.counted_newNode (h : m.Sound) (he : m.Enterable parent name isDir none pn pd) :
    ∃ d', (m.enterNode parent name isDir mode none).getData m.heap.length = some d' ∧
      (m.enterNode parent name isDir mode none).nodesOf m.heap.length +
        (m.enterNode parent name isDir mode none).subdirs d' ≤ d'.nlink := by
  have hzero := h.nodesOf_heap_length
  have hdata : ∃ d', (m.enterNode parent name isDir mode none).getData m.heap.length =
      some d' := by
    rw [getData_enterNode he.node he.baseData_isDir]
    simp only [baseData, if_true]
    exact ⟨_, rfl⟩
  obtain ⟨d', hd'⟩ := hdata
  refine ⟨d', hd', ?_⟩
  rcases he.backward hd' with ⟨b, hb, -⟩ | ⟨-, -, -, hnil, hnlink, -⟩
  · exact absurd (lt_heap_length hb) (Nat.lt_irrefl _)
  · rw [hnlink, nodesOf_enterNode, subdirs, hnil]
    simp [newData, hzero]

private theorem Sound.unique_enterNode (h : m.Sound)
    (he : m.Enterable parent name isDir hardlink pn pd) {s t c : Nat} {sn tn : MemNode}
    {d₁ d₂ : MemData}
    (hsn : (m.enterNode parent name isDir mode hardlink).nodeAt s = some sn)
    (hd₁ : (m.enterNode parent name isDir mode hardlink).getData sn.nodedata = some d₁)
    (hdir₁ : d₁.isDir = true)
    (htn : (m.enterNode parent name isDir mode hardlink).nodeAt t = some tn)
    (hd₂ : (m.enterNode parent name isDir mode hardlink).getData tn.nodedata = some d₂)
    (hdir₂ : d₂.isDir = true) (hc₁ : c ∈ d₁.children) (hc₂ : c ∈ d₂.children) :
    sn.nodedata = tn.nodedata := by
  rcases he.listed hsn hd₁ hdir₁ hc₁ with ⟨u, un, b, hun, hid, hb, hdir, hcb⟩ | ⟨hp, rfl⟩
  · rcases he.listed htn hd₂ hdir₂ hc₂ with
      ⟨u', un', b', hun', hid', hb', hdir', hcb'⟩ | ⟨-, rfl⟩
    · rw [← hid, ← hid']
      exact h.unique u un b u' un' b' hun (hid ▸ hb) hdir hun' (hid' ▸ hb') hdir' c hcb hcb'
    · exact absurd hcb (h.newSlot_not_listed hun (hid ▸ hb) hdir)
  · rcases he.listed htn hd₂ hdir₂ hc₂ with
      ⟨u', un', b', hun', hid', hb', hdir', hcb'⟩ | ⟨hp', -⟩
    · exact absurd hcb' (h.newSlot_not_listed hun' (hid' ▸ hb') hdir')
    · rw [hp, hp']

private theorem Enterable.name_ne (he : m.Enterable parent name isDir hardlink pn pd) {x : Nat}
    {nx : MemNode} (hx : x ∈ pd.children)
    (hnx : (m.enterNode parent name isDir mode hardlink).nodeAt x = some nx) : nx.name ≠ name := by
  obtain ⟨n₀, hn₀, hne⟩ := findChild_missing he.missing x hx
  rw [nodeAt_enterNode_of_some hn₀] at hnx
  cases hnx
  exact hne

private theorem Sound.names_enterNode (h : m.Sound)
    (he : m.Enterable parent name isDir hardlink pn pd) {s c c' : Nat} {sn nc nc' : MemNode}
    {d' : MemData}
    (hsn : (m.enterNode parent name isDir mode hardlink).nodeAt s = some sn)
    (hd' : (m.enterNode parent name isDir mode hardlink).getData sn.nodedata = some d')
    (hdir' : d'.isDir = true) (hc : c ∈ d'.children) (hc' : c' ∈ d'.children)
    (hnc : (m.enterNode parent name isDir mode hardlink).nodeAt c = some nc)
    (hnc' : (m.enterNode parent name isDir mode hardlink).nodeAt c' = some nc')
    (hname : nc.name = nc'.name) : c = c' ∨ nc.name = deletedName := by
  have hnew := nodeAt_newSlot m parent name isDir mode hardlink
  rcases he.listed hsn hd' hdir' hc with ⟨t, tn, b, htn, hid, hb, hdir, hcb⟩ | ⟨hp, rfl⟩
  · rcases he.listed hsn hd' hdir' hc' with
      ⟨t', tn', b', htn', hid', hb', hdir'', hcb'⟩ | ⟨hp', rfl⟩
    · rw [hb] at hb'
      cases hb'
      obtain ⟨-, -, hsome⟩ := h.children t tn b htn (hid ▸ hb) hdir c hcb
      obtain ⟨-, -, hsome'⟩ := h.children t tn b htn (hid ▸ hb) hdir c' hcb'
      obtain ⟨cn, hcn⟩ := Option.isSome_iff_exists.mp hsome
      obtain ⟨cn', hcn'⟩ := Option.isSome_iff_exists.mp hsome'
      rw [nodeAt_enterNode_of_some hcn] at hnc
      rw [nodeAt_enterNode_of_some hcn'] at hnc'
      cases hnc
      cases hnc'
      exact h.names t tn b htn (hid ▸ hb) hdir c hcb c' hcb' nc nc' hcn hcn' hname
    · rw [hnew] at hnc'
      cases hnc'
      rw [hp', he.data] at hb
      cases hb
      exact absurd hname (he.name_ne hcb hnc)
  · rcases he.listed hsn hd' hdir' hc' with
      ⟨t', tn', b', htn', hid', hb', hdir'', hcb'⟩ | ⟨-, rfl⟩
    · rw [hnew] at hnc
      cases hnc
      rw [hp, he.data] at hb'
      cases hb'
      exact absurd hname.symm (he.name_ne hcb' hnc')
    · exact Or.inl rfl

theorem Sound.enterNode (h : m.Sound) (he : m.Enterable parent name isDir hardlink pn pd) :
    (m.enterNode parent name isDir mode hardlink).Sound where
  grounded := h.grounded.enterNode he
  children := fun _ _ _ hsn hd' hdir' _ hc => h.children_enterNode he hsn hd' hdir' hc
  counted := by
    intro s sn hs hsn
    rw [nodeAt_enterNode] at hsn
    split at hsn
    · cases hsn
      cases hardlink with
      | none => exact h.counted_newNode he
      | some id =>
          obtain ⟨t, tn, td, htn, hid, htd, -⟩ := he.shared id rfl
          have ht : t ≠ 0 := h.grounded.ne_zero htn (hid ▸ htd)
          have hnd : m.newData (some id) = tn.nodedata := hid.symm
          simp only [hnd]
          exact h.counted_enterNode he ht htn
    · exact h.counted_enterNode he hs hsn
  parents := by
    intro s sn hs hs1 hsn
    rw [nodeAt_enterNode] at hsn
    split at hsn
    · cases hsn
      exact h.grounded.ne_zero he.node he.data
    · exact h.parents s sn hs hs1 hsn
  unique := fun _ _ _ _ _ _ hsn hd₁ hdir₁ htn hd₂ hdir₂ _ hc₁ hc₂ =>
    h.unique_enterNode he hsn hd₁ hdir₁ htn hd₂ hdir₂ hc₁ hc₂
  names := fun _ _ _ hsn hd' hdir' _ hc _ hc' _ _ hnc hnc' hname =>
    h.names_enterNode he hsn hd' hdir' hc hc' hnc hnc' hname

end Enter

theorem change_sound (h : m.Sound) (hc : Change (fun m r => m.keepsListing r = true) m m') :
    m'.Sound := by
  cases hc with
  | touch hf => exact h.updateData hf
  | enter he => exact h.enterNode he
  | remove hr hok => exact h.removeNode hr hok
  | hide hh _ => exact h.hideNode hh
  | rmdir hr hok => exact h.removeDir hr hok

theorem sound_fresh : fresh.Sound where
  grounded := grounded_fresh
  children := by
    intro s n d hn hd hdir c hc
    obtain ⟨-, rfl⟩ := getData_fresh hd
    cases hc
  counted := by
    intro s n hs hn
    match s with
    | 0 => exact absurd rfl hs
    | 1 =>
        cases hn
        exact ⟨_, rfl, by decide⟩
    | s + 2 => cases hn
  parents := by
    intro s n h0 h1 hn
    match s with
    | 0 => exact absurd rfl h0
    | 1 => exact absurd rfl h1
    | s + 2 => cases hn
  unique := by
    intro s n d s' n' d' hn hd hdir hn' hd' hdir' c hc
    obtain ⟨-, rfl⟩ := getData_fresh hd
    cases hc
  names := by
    intro s n d hn hd hdir c hc
    obtain ⟨-, rfl⟩ := getData_fresh hd
    cases hc

end Sound

end MemMount

end Zrt.Fs
