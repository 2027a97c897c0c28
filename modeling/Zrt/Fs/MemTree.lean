import Zrt.Fs.Accounting
import Zrt.Fs.MemCalls

/-!
# The tree of the in-memory mount

Every child of a directory is a node whose parent is a node of that directory. Hard links of a
directory share one list of children, while each child records the slot of a single link; removing
that link while another remains leaves the children with a parent that is gone.
-/

namespace Zrt.Fs

open Zrt.Framework

namespace MemMount

/-! ## The two lowest slots -/

/-- Slot zero has no data, the root is the child of slot zero, and data positions exist. -/
structure Grounded (m : MemMount) : Prop where
  zero : ∃ n, m.nodeAt 0 = some n ∧ n.nodedata = 0
  void : m.getData 0 = none
  root : ∃ n, m.nodeAt rootSlot = some n ∧ n.parent = 0
  bounded : ∀ s n, m.nodeAt s = some n → n.nodedata < m.heap.length

section Grounded

variable {m : MemMount} {slot : Nat} {n : MemNode} {d : MemData}

theorem Grounded.dataAt_zero (h : m.Grounded) : m.dataAt 0 = none := by
  obtain ⟨n, hn, h0⟩ := h.zero
  rw [dataAt_of hn, h0, h.void]

theorem Grounded.rootOutside (h : m.Grounded) : m.RootOutside := by
  obtain ⟨n, hn, hp⟩ := h.root
  exact ⟨n, hn, by rw [hp, h.dataAt_zero]⟩

theorem Grounded.ne_zero (h : m.Grounded) (hn : m.nodeAt slot = some n)
    (hd : m.getData n.nodedata = some d) : slot ≠ 0 := by
  intro h0
  obtain ⟨n₀, hn₀, hz⟩ := h.zero
  rw [h0, hn₀] at hn
  cases hn
  rw [hz, h.void] at hd
  cases hd

/-- The root cannot be removed: its parent's data would have to be read. -/
theorem Grounded.ne_root (h : m.Grounded) (hn : m.nodeAt slot = some n)
    (hp : (m.dataAt n.parent).isSome) : slot ≠ rootSlot := by
  intro h1
  obtain ⟨n₁, hn₁, hpar⟩ := h.root
  rw [h1, hn₁] at hn
  cases hn
  rw [hpar, h.dataAt_zero] at hp
  cases hp

private theorem Removable.parent_isSome_or (h : m.Removable slot n d) :
    m.nodeAt n.parent = none ∨ (m.dataAt n.parent).isSome := by
  cases hp : m.nodeAt n.parent with
  | none => exact Or.inl rfl
  | some pn => exact Or.inr (h.parent (by rw [hp]; rfl))

theorem Grounded.removable_ne_root (h : m.Grounded) (hr : m.Removable slot n d) :
    slot ≠ rootSlot := by
  rcases hr.parent_isSome_or with hnone | hsome
  · intro h1
    obtain ⟨n₁, hn₁, hpar⟩ := h.root
    obtain ⟨n₀, hn₀, -⟩ := h.zero
    have hnode := hr.node
    rw [h1, hn₁] at hnode
    cases hnode
    rw [hpar, hn₀] at hnone
    cases hnone
  · exact h.ne_root hr.node hsome

theorem Grounded.of_kept {m' : MemMount} (h : m.Grounded)
    (hzero : ∀ n, m.nodeAt 0 = some n → m'.nodeAt 0 = some n)
    (hroot : ∀ n, m.nodeAt rootSlot = some n → ∃ n', m'.nodeAt rootSlot = some n' ∧
      n'.parent = n.parent)
    (hvoid : m.getData 0 = none → m'.getData 0 = none)
    (hheap : ∀ s n', m'.nodeAt s = some n' → n'.nodedata < m'.heap.length) : m'.Grounded := by
  constructor
  · obtain ⟨n, hn, h0⟩ := h.zero
    exact ⟨n, hzero n hn, h0⟩
  · exact hvoid h.void
  · obtain ⟨n, hn, hp⟩ := h.root
    obtain ⟨n', hn', hp'⟩ := hroot n hn
    exact ⟨n', hn', by rw [hp', hp]⟩
  · exact hheap

theorem heap_length_updateDataAt (f : MemData → MemData) :
    (m.updateDataAt slot f).heap.length = m.heap.length := by
  unfold updateDataAt
  split
  · rfl
  · exact List.length_modify ..

theorem heap_length_free : (m.free slot).heap.length = m.heap.length := by
  unfold free
  split
  · rfl
  · exact List.length_modify ..

theorem heap_length_removeNode : (m.removeNode slot).heap.length = m.heap.length := by
  unfold removeNode
  split
  · rfl
  · rw [heap_length_free, removeChild, heap_length_updateDataAt]

theorem heap_length_hideNode : (m.hideNode slot).heap.length = m.heap.length := by
  unfold hideNode
  split
  · rfl
  · simp only [updateData, List.length_modify]
    unfold setName
    split
    · rfl
    · rfl

theorem heap_length_removeDir : (m.removeDir slot).heap.length = m.heap.length := by
  unfold removeDir
  split
  · rfl
  · simp only
    split
    · rw [removeChild, heap_length_updateDataAt, heap_length_updateDataAt]
    · split
      · rw [removeChild, heap_length_updateDataAt, heap_length_updateDataAt]
      · rw [heap_length_free, removeChild, heap_length_updateDataAt, heap_length_updateDataAt]

private theorem heap_length_alloc (m : MemMount) (n : MemNode) :
    (m.alloc n).2.heap.length = m.heap.length := by
  rw [(alloc_spec m n).2.1]

theorem heap_length_enterNode (m : MemMount) (parent : Nat) (name : Text) (isDir : Bool) (mode : Nat)
    (hardlink : Option Nat) :
    (m.enterNode parent name isDir mode hardlink).heap.length =
      m.heap.length + if hardlink = none then 1 else 0 := by
  have hmake : (m.makeNode parent name isDir mode hardlink).2.heap.length =
      m.heap.length + if hardlink = none then 1 else 0 := by
    simp only [makeNode, addChild]
    rw [heap_length_updateDataAt, heap_length_alloc]
    cases hardlink with
    | none => simp [constructData]
    | some id => simp [constructData, updateData]
  unfold enterNode
  split
  · rw [heap_length_updateDataAt, hmake]
  · exact hmake

theorem Grounded.updateData {m : MemMount} {id : Nat} {f : MemData → MemData} (h : m.Grounded) :
    (m.updateData id f).Grounded := by
  apply h.of_kept
  · exact fun n hn => hn
  · exact fun n hn => ⟨n, hn, rfl⟩
  · intro hv
    rw [getData_updateData, hv]
    split
    · rfl
    · rfl
  · intro s n' hn'
    simp only [MemMount.updateData, List.length_modify]
    exact h.bounded s n' hn'

theorem nodeAt_enterNode_of_some {m : MemMount} {parent mode s : Nat} {name : Text} {isDir : Bool}
    {hardlink : Option Nat} {sn : MemNode} (hsn : m.nodeAt s = some sn) :
    (m.enterNode parent name isDir mode hardlink).nodeAt s = some sn := by
  rw [nodeAt_enterNode, if_neg, hsn]
  intro hs
  have hfree := newSlot_free m parent name isDir mode hardlink
  rw [← hs, hsn] at hfree
  cases hfree

theorem Grounded.enterNode {m : MemMount} {parent mode : Nat} {name : Text} {isDir : Bool}
    {hardlink : Option Nat} {pn : MemNode} {pd : MemData} (h : m.Grounded)
    (he : m.Enterable parent name isDir hardlink pn pd) :
    (m.enterNode parent name isDir mode hardlink).Grounded := by
  apply h.of_kept
  · exact fun n hn => nodeAt_enterNode_of_some hn
  · exact fun n hn => ⟨n, nodeAt_enterNode_of_some hn, rfl⟩
  · intro hv
    cases hd' : (m.enterNode parent name isDir mode hardlink).getData 0 with
    | none => rfl
    | some d' =>
        rcases he.backward hd' with ⟨d, hd, -⟩ | ⟨-, hlen, -⟩
        · rw [hv] at hd
          cases hd
        · have hpos := lt_heap_length he.data
          omega
  · intro s n' hn'
    rw [heap_length_enterNode]
    rw [nodeAt_enterNode] at hn'
    split at hn'
    · cases hn'
      cases hardlink with
      | none => simp [newData]
      | some id =>
          obtain ⟨t, sn, sd, -, -, hsd, -⟩ := he.shared id rfl
          exact Nat.lt_of_lt_of_le (lt_heap_length hsd) (Nat.le_add_right _ _)
    · exact Nat.lt_of_lt_of_le (h.bounded s n' hn') (Nat.le_add_right _ _)

private theorem Grounded.removeNode {m : MemMount} {slot : Nat} {n : MemNode} {d : MemData}
    (h : m.Grounded) (hr : m.Removable slot n d) : (m.removeNode slot).Grounded := by
  have hne0 := h.ne_zero hr.node hr.data
  have hne1 := h.removable_ne_root hr
  apply h.of_kept
  · intro n' hn'
    rw [nodeAt_removeNode hr.node, if_neg (Ne.symm hne0), hn']
  · intro n' hn'
    exact ⟨n', by rw [nodeAt_removeNode hr.node, if_neg (Ne.symm hne1), hn'], rfl⟩
  · intro hv
    cases hd' : (m.removeNode slot).getData 0 with
    | none => rfl
    | some d' =>
        obtain ⟨d₀, hd₀, -⟩ := backward_removeNode hr.node hd'
        rw [hv] at hd₀
        cases hd₀
  · intro s n' hn'
    rw [heap_length_removeNode]
    rw [nodeAt_removeNode hr.node] at hn'
    split at hn'
    · cases hn'
    · exact h.bounded s n' hn'

private theorem Grounded.hideNode {m : MemMount} {slot : Nat} {n : MemNode} {d : MemData}
    (h : m.Grounded) (hh : m.Hideable slot n d) : (m.hideNode slot).Grounded := by
  have hne0 := h.ne_zero hh.node hh.data
  apply h.of_kept
  · intro n' hn'
    rw [nodeAt_hideNode hh.node, if_neg (Ne.symm hne0), hn']
  · intro n' hn'
    rw [nodeAt_hideNode hh.node]
    split
    · rename_i hs
      rw [hs, hh.node] at hn'
      cases hn'
      exact ⟨_, rfl, rfl⟩
    · exact ⟨n', hn', rfl⟩
  · intro hv
    rw [getData_hideNode hh.node, hv]
    split
    · rfl
    · rfl
  · intro s n' hn'
    rw [heap_length_hideNode]
    rw [nodeAt_hideNode hh.node] at hn'
    split at hn'
    · cases hn'
      exact h.bounded slot n hh.node
    · exact h.bounded s n' hn'

theorem Grounded.removeDir {m : MemMount} {slot : Nat} {n : MemNode} {d : MemData}
    (h : m.Grounded) (hr : m.DirRemovable slot n d) : (m.removeDir slot).Grounded := by
  have hne0 := h.ne_zero hr.node hr.data
  have hne1 := h.ne_root hr.node hr.parent
  apply h.of_kept
  · intro n' hn'
    rw [nodeAt_removeDir hr.node hr.data, if_neg (fun hs => hne0 hs.1.symm), hn']
  · intro n' hn'
    exact ⟨n', by rw [nodeAt_removeDir hr.node hr.data, if_neg (fun hs => hne1 hs.1.symm), hn'],
      rfl⟩
  · intro hv
    cases hd' : (m.removeDir slot).getData 0 with
    | none => rfl
    | some d' =>
        obtain ⟨d₀, hd₀, -⟩ := backward_removeDir hr.node hr.data hd'
        rw [hv] at hd₀
        cases hd₀
  · intro s n' hn'
    rw [heap_length_removeDir]
    rw [nodeAt_removeDir hr.node hr.data] at hn'
    split at hn'
    · cases hn'
    · exact h.bounded s n' hn'

theorem change_grounded {ok : MemMount → Removal → Prop} {m m' : MemMount} (h : m.Grounded)
    (hc : Change ok m m') : m'.Grounded := by
  cases hc with
  | touch hf => exact h.updateData
  | enter he => exact h.enterNode he
  | remove hr hok => exact h.removeNode hr
  | hide hh hok => exact h.hideNode hh
  | rmdir hr hok => exact h.removeDir hr

theorem getData_fresh {i : Nat} {d : MemData} (hd : fresh.getData i = some d) :
    i = 1 ∧ d = { isDir := true, mode := 0 } := by
  match i with
  | 0 => cases hd
  | 1 =>
      cases hd
      exact ⟨rfl, rfl⟩
  | i + 2 => cases hd

theorem grounded_fresh : fresh.Grounded where
  zero := ⟨_, rfl, rfl⟩
  void := rfl
  root := ⟨_, rfl, rfl⟩
  bounded := by
    intro s n hn
    match s with
    | 0 =>
        cases hn
        decide
    | 1 =>
        cases hn
        decide
    | s + 2 => cases hn

end Grounded

/-! ## Children and parents -/

/-- The slot holds a node whose parent is a node of the given data. -/
def ParentIn (m : MemMount) (c id : Nat) : Prop :=
  ∃ nc p, m.nodeAt c = some nc ∧ m.nodeAt nc.parent = some p ∧ p.nodedata = id

/-- Each child of a directory is allocated, and its parent is allocated and shares the data that
lists the child. -/
def Tree (m : MemMount) : Prop :=
  ∀ s n d, m.nodeAt s = some n → m.getData n.nodedata = some d → d.isDir = true →
    ∀ c ∈ d.children, m.ParentIn c n.nodedata

/-- Another node has the same data, and a child records this one as its parent. -/
def sharedParent (m : MemMount) (slot : Nat) : Bool :=
  match m.nodeAt slot with
  | none => false
  | some n =>
      ((List.range m.slots.length).any fun t =>
        decide (t ≠ slot) && (m.nodeAt t).any fun n' => n'.nodedata == n.nodedata) &&
      match m.getData n.nodedata with
      | none => false
      | some d => d.children.any fun c => (m.nodeAt c).any fun nc => nc.parent == slot

/-- A removal that takes no shared parent away from its children. -/
def keepsParents (m : MemMount) : Removal → Bool
  | .remove slot => !m.sharedParent slot
  | .hide _ => true
  | .rmdir slot =>
      match m.dataAt slot with
      | some d => d.wantUnlink || !m.sharedParent slot
      | none => true

section Tree

variable {m : MemMount} {slot : Nat} {n : MemNode} {d : MemData}

theorem lt_slots_length {s : Nat} (h : m.nodeAt s = some n) : s < m.slots.length := by
  by_contra hge
  rw [nodeAt, List.getD_eq_getElem?_getD, List.getElem?_eq_none (Nat.le_of_not_lt hge)] at h
  cases h

private theorem parent_ne_of_not_sharedParent (hshared : m.sharedParent slot = false)
    (hn : m.nodeAt slot = some n) (hd : m.getData n.nodedata = some d) {t c : Nat}
    {n' nc : MemNode} (ht : m.nodeAt t = some n') (hts : t ≠ slot)
    (hdata : n'.nodedata = n.nodedata) (hc : c ∈ d.children) (hnc : m.nodeAt c = some nc) :
    nc.parent ≠ slot := by
  intro hp
  unfold sharedParent at hshared
  simp only [hn, hd, Bool.and_eq_false_iff] at hshared
  rcases hshared with hfalse | hfalse
  · rw [List.any_eq_false] at hfalse
    apply hfalse t (List.mem_range.mpr (lt_slots_length ht))
    simp [hts, ht, hdata]
  · rw [List.any_eq_false] at hfalse
    apply hfalse c hc
    simp [hnc, hp]

/-- The common part of the two removals that free a slot: the entry is gone from the data that
listed it, so that every child left was another one. -/
private theorem Tree.of_freed {m' : MemMount} (h : m.Tree) (hn : m.nodeAt slot = some n)
    (hd : m.getData n.nodedata = some d) (hshared : m.sharedParent slot = false)
    (hnodes : ∀ t, m'.nodeAt t = if t = slot then none else m.nodeAt t)
    (hdata : ∀ i d', m'.getData i = some d' → ∃ b, m.getData i = some b ∧ d'.isDir = b.isDir ∧
      d'.children = if m.parentData n = some i ∧ b.isDir = true then b.children.filter (· ≠ slot)
        else b.children) : m'.Tree := by
  intro s sn sd' hsn hsd' hdir' c hc
  rw [hnodes] at hsn
  split at hsn
  · cases hsn
  · rename_i hs
    obtain ⟨b, hb, hdir, hchildren⟩ := hdata _ _ hsd'
    rw [hdir] at hdir'
    have hcb : c ∈ b.children := by
      rw [hchildren] at hc
      split at hc
      · exact List.mem_of_mem_filter hc
      · exact hc
    obtain ⟨nc, p, hnc, hp, hpd⟩ := h s sn b hsn hb hdir' c hcb
    have hcs : c ≠ slot := by
      intro he
      subst he
      rw [hn] at hnc
      cases hnc
      -- the list that holds the freed slot is its recorded parent's, and has been filtered
      have hpar : m.parentData n = some sn.nodedata := by rw [parentData, hp, Option.map_some, hpd]
      rw [hchildren, if_pos ⟨hpar, hdir'⟩] at hc
      simpa using (List.mem_filter.mp hc).2
    have hps : nc.parent ≠ slot := by
      intro he
      rw [he, hn] at hp
      cases hp
      rw [← hpd, hd] at hb
      cases hb
      exact parent_ne_of_not_sharedParent hshared hn hd hsn hs hpd.symm hcb hnc he
    exact ⟨nc, p, by rw [hnodes, if_neg hcs, hnc], by rw [hnodes, if_neg hps, hp], hpd⟩

theorem nodeAt_newSlot (m : MemMount) (parent : Nat) (name : Text) (isDir : Bool) (mode : Nat)
    (hardlink : Option Nat) :
    (m.enterNode parent name isDir mode hardlink).nodeAt
      (m.newSlot parent name isDir mode hardlink) = some ⟨name, parent, m.newData hardlink⟩ := by
  rw [nodeAt_enterNode, if_pos rfl]

/-- A directory of the new state, and its children, in terms of the old one. -/
theorem Enterable.listed {m : MemMount} {parent mode s c : Nat} {name : Text} {isDir : Bool}
    {hardlink : Option Nat} {pn sn : MemNode} {pd d' : MemData}
    (he : m.Enterable parent name isDir hardlink pn pd)
    (hsn : (m.enterNode parent name isDir mode hardlink).nodeAt s = some sn)
    (hd' : (m.enterNode parent name isDir mode hardlink).getData sn.nodedata = some d')
    (hdir' : d'.isDir = true) (hc : c ∈ d'.children) :
    (∃ t tn b, m.nodeAt t = some tn ∧ tn.nodedata = sn.nodedata ∧
      m.getData sn.nodedata = some b ∧ b.isDir = true ∧ c ∈ b.children) ∨
    (sn.nodedata = pn.nodedata ∧ c = m.newSlot parent name isDir mode hardlink) := by
  rcases he.backward hd' with ⟨b, hb, hdir, -, -, hchildren⟩ | ⟨-, -, -, hnil, -⟩
  · have hold : ∃ t tn, m.nodeAt t = some tn ∧ tn.nodedata = sn.nodedata := by
      rw [nodeAt_enterNode] at hsn
      split at hsn
      · cases hsn
        cases hardlink with
        | none => exact absurd (lt_heap_length hb) (Nat.lt_irrefl _)
        | some id =>
            obtain ⟨t, tn, td, htn, hid, -⟩ := he.shared id rfl
            exact ⟨t, tn, htn, hid⟩
      · exact ⟨s, sn, hsn, rfl⟩
    obtain ⟨t, tn, htn, hid⟩ := hold
    rw [hchildren] at hc
    split at hc
    · rename_i hp
      rcases List.mem_append.mp hc with hc | hc
      · exact Or.inl ⟨t, tn, b, htn, hid, hb, hdir ▸ hdir', hc⟩
      · exact Or.inr ⟨hp, List.mem_singleton.mp hc⟩
    · exact Or.inl ⟨t, tn, b, htn, hid, hb, hdir ▸ hdir', hc⟩
  · rw [hnil] at hc
    cases hc

private theorem Tree.updateData {m : MemMount} {id : Nat} {f : MemData → MemData} (h : m.Tree)
    (hf : Inert f) : (m.updateData id f).Tree := by
  intro s sn sd' hsn hsd' hdir' c hc
  obtain ⟨sd, hsd, hdir, -, -, hchildren⟩ := hf.backward hsd'
  rw [hchildren] at hc
  rw [hdir] at hdir'
  exact h s sn sd hsn hsd hdir' c hc

private theorem Tree.enterNode {m : MemMount} {parent mode : Nat} {name : Text} {isDir : Bool}
    {hardlink : Option Nat} {pn : MemNode} {pd : MemData} (h : m.Tree)
    (he : m.Enterable parent name isDir hardlink pn pd) :
    (m.enterNode parent name isDir mode hardlink).Tree := by
  intro s sn sd' hsn hsd' hdir' c hc
  rcases he.listed hsn hsd' hdir' hc with ⟨t, tn, sd, htn, hid, hsd, hdir, hcs⟩ | ⟨hp, rfl⟩
  · obtain ⟨nc, p, hnc, hpn, hpd⟩ := h t tn sd htn (hid ▸ hsd) hdir c hcs
    exact ⟨nc, p, nodeAt_enterNode_of_some hnc, nodeAt_enterNode_of_some hpn, by rw [hpd, hid]⟩
  · exact ⟨_, pn, nodeAt_newSlot m parent name isDir mode hardlink,
      nodeAt_enterNode_of_some he.node, hp.symm⟩

private theorem Tree.hideNode {m : MemMount} {slot : Nat} {n : MemNode} {d : MemData} (h : m.Tree)
    (hh : m.Hideable slot n d) : (m.hideNode slot).Tree := by
  have hkeep : ∀ s sn, m.nodeAt s = some sn → ∃ sn', (m.hideNode slot).nodeAt s = some sn' ∧
      sn'.parent = sn.parent ∧ sn'.nodedata = sn.nodedata := by
    intro s sn hsn
    rw [nodeAt_hideNode hh.node]
    split
    · rename_i hs
      rw [hs, hh.node] at hsn
      cases hsn
      exact ⟨_, rfl, rfl, rfl⟩
    · exact ⟨sn, hsn, rfl, rfl⟩
  intro s sn sd' hsn hsd' hdir' c hc
  obtain ⟨sd, hsd, hdir, -, hchildren, -⟩ := backward_hideNode hh.node hsd'
  rw [hchildren] at hc
  rw [hdir] at hdir'
  have hold : ∃ t tn, m.nodeAt t = some tn ∧ tn.nodedata = sn.nodedata := by
    rw [nodeAt_hideNode hh.node] at hsn
    split at hsn
    · cases hsn
      exact ⟨slot, n, hh.node, rfl⟩
    · exact ⟨s, sn, hsn, rfl⟩
  obtain ⟨t, tn, htn, hid⟩ := hold
  obtain ⟨nc, p, hnc, hp, hpd⟩ := h t tn sd htn (hid ▸ hsd) hdir' c hc
  obtain ⟨nc', hnc', hpar, -⟩ := hkeep c nc hnc
  obtain ⟨p', hp', -, hdata⟩ := hkeep nc.parent p hp
  exact ⟨nc', p', hnc', by rw [hpar, hp'], by rw [hdata, hpd, hid]⟩

private theorem Tree.removeDir_marked {m : MemMount} {slot : Nat} {n : MemNode} {d : MemData} (h : m.Tree)
    (hr : m.DirRemovable slot n d) (hw : d.wantUnlink = true) : (m.removeDir slot).Tree := by
  have hnodes : ∀ t, (m.removeDir slot).nodeAt t = m.nodeAt t := by
    intro t
    rw [nodeAt_removeDir hr.node hr.data]
    simp [hw]
  intro s sn sd' hsn hsd' hdir' c hc
  rw [hnodes] at hsn
  obtain ⟨b, hb, hdir, -, -, hchildren⟩ := backward_removeDir hr.node hr.data hsd'
  have hcb : c ∈ b.children := by
    rw [hchildren] at hc
    split at hc
    · exact List.mem_of_mem_filter hc
    · exact hc
  obtain ⟨nc, p, hnc, hp, hpd⟩ := h s sn b hsn hb (hdir ▸ hdir') c hcb
  exact ⟨nc, p, by rw [hnodes, hnc], by rw [hnodes, hp], hpd⟩

theorem change_tree {m m' : MemMount} (h : m.Tree)
    (hc : Change (fun m r => m.keepsParents r = true) m m') : m'.Tree := by
  cases hc with
  | touch hf => exact h.updateData hf
  | enter he => exact h.enterNode he
  | @remove slot n d hr hok =>
      apply h.of_freed hr.node hr.data (by simpa [keepsParents] using hok)
        (fun t => nodeAt_removeNode hr.node)
      intro i d' hd'
      obtain ⟨b, hb, hdir, -, -, -, hchildren⟩ := backward_removeNode hr.node hd'
      exact ⟨b, hb, hdir, hchildren⟩
  | hide hh hok => exact h.hideNode hh
  | @rmdir slot n d hr hok =>
      have hdat : m.dataAt slot = some d := by rw [dataAt_of hr.node, hr.data]
      cases hw : d.wantUnlink with
      | false =>
          simp only [keepsParents, hdat, hw, Bool.false_or, Bool.not_eq_true'] at hok
          apply h.of_freed hr.node hr.data hok
          · intro t
            rw [nodeAt_removeDir hr.node hr.data]
            simp [hw]
          · intro i d' hd'
            obtain ⟨b, hb, hdir, -, -, hchildren⟩ := backward_removeDir hr.node hr.data hd'
            exact ⟨b, hb, hdir, hchildren⟩
      | true => exact h.removeDir_marked hr hw

theorem tree_fresh : fresh.Tree := by
  intro s n d hn hd hdir c hc
  obtain ⟨-, rfl⟩ := getData_fresh hd
  cases hc

end Tree

end MemMount

namespace FileSystem

open MemMount

/-- Every removal of the call keeps the parents of the directory that stays. -/
def KeepsParents (fs : FileSystem) (c : FsCall) : Prop :=
  ∀ x ∈ fs.removals c, x.1.keepsParents x.2 = true

instance (fs : FileSystem) (c : FsCall) : Decidable (fs.KeepsParents c) :=
  List.decidableBAll (fun x : MemMount × Removal => x.1.keepsParents x.2 = true) (fs.removals c)

theorem step_grounded {ch : Channels} {fs fs' : FileSystem} {c : FsCall} (h : fs.mem.Grounded)
    (hstep : step ch fs c = some fs') : fs'.mem.Grounded := by
  obtain ⟨⟨r, fs₁⟩, hcall, rfl⟩ := Option.map_eq_some_iff.mp hstep
  have hev : Evolves (fun _ _ => True) fs.mem fs₁.mem :=
    call_evolves h.rootOutside hcall fun _ _ => trivial
  exact hev.preserves Grounded (fun _ _ hm hc => change_grounded hm hc) h

theorem run_grounded {ch : Channels} {calls : List FsCall} {fs : FileSystem}
    (hrun : runFrom (step ch) start calls = some fs) : fs.mem.Grounded :=
  runFrom_preserves (fun _ _ _ => step_grounded) calls start fs grounded_fresh hrun

private theorem step_tree {ch : Channels} {fs fs' : FileSystem} {c : FsCall}
    (hinv : fs.mem.Grounded ∧ fs.mem.Tree) (hguard : fs.KeepsParents c)
    (hstep : step ch fs c = some fs') : fs'.mem.Grounded ∧ fs'.mem.Tree := by
  obtain ⟨⟨r, fs₁⟩, hcall, rfl⟩ := Option.map_eq_some_iff.mp hstep
  have hev : Evolves (fun m r => m.keepsParents r = true) fs.mem fs₁.mem :=
    call_evolves hinv.1.rootOutside hcall hguard
  apply hev.preserves (fun m => m.Grounded ∧ m.Tree) _ hinv
  intro m m' hm hc
  exact ⟨change_grounded hm.1 hc, change_tree hm.2 hc⟩

/-- After a run in which no shared directory loses the link its children record, the tree is well
formed. -/
theorem run_tree (ch : Channels) (calls : List FsCall) (fs : FileSystem)
    (hguard : Guarded (step ch) KeepsParents start calls)
    (hrun : runFrom (step ch) start calls = some fs) : fs.mem.Tree :=
  (runFrom_invariant (fun _ _ _ => step_tree) calls start fs ⟨grounded_fresh, tree_fresh⟩ hguard
    hrun).2

/-- A directory with an open file in it gets a second name, which is then removed. -/
def secondNameCalls : List FsCall :=
  [.mkdir (.fromRoot "a".toList) 0o700, .memOpen (.fromRoot "a/f".toList) { creat := true, rdwr := true } 0o600,
    .link (.fromRoot "a".toList) (.fromRoot "b".toList), .unlink (.fromRoot "b".toList),
    .unlink (.fromRoot "a/f".toList), .close 0, .rmdir (.fromRoot "a".toList)]

theorem run_tree_secondName :
    RunEnds (step standardInput) start secondNameCalls fun fs => fs.mem.Tree := by
  have hguard : Guarded (step standardInput) KeepsParents start secondNameCalls := by decide
  have hsome : (runFrom (step standardInput) start secondNameCalls).isSome := by decide
  obtain ⟨fs, hfs⟩ := Option.isSome_iff_exists.mp hsome
  exact ⟨fs, hfs, run_tree standardInput secondNameCalls fs hguard hfs⟩

/-- Renaming a directory frees the slot that its file has as parent. -/
def renameDirCalls : List FsCall :=
  [.mkdir (.fromRoot "a".toList) 0o700, .memOpen (.fromRoot "a/f".toList) { creat := true, rdwr := true } 0o600,
    .rename (.fromRoot "a".toList) (.fromRoot "b".toList)]

theorem rename_breaks_tree :
    RunEnds (step standardInput) start renameDirCalls fun fs => ¬fs.mem.Tree := by
  have hends : RunEnds (step standardInput) start renameDirCalls fun fs =>
      fs.mem.nodeAt 4 = some ⟨['b'], 1, 2⟩ ∧ fs.mem.nodeAt 3 = some ⟨['f'], 2, 3⟩ ∧
        (fs.mem.getData 2).map (fun d => (d.isDir, d.children)) = some (true, [3]) ∧
        fs.mem.nodeAt 2 = none := by decide
  obtain ⟨fs, hfs, hb, hf, hdata, hfreed⟩ := hends
  refine ⟨fs, hfs, fun htree => ?_⟩
  obtain ⟨d, hd, hpair⟩ := Option.map_eq_some_iff.mp hdata
  obtain ⟨hdir, hchildren⟩ := Prod.mk.inj hpair
  obtain ⟨nc, p, hnc, hp, -⟩ := htree 4 _ d hb hd hdir 3 (by rw [hchildren]; exact List.mem_singleton_self 3)
  rw [hf] at hnc
  cases hnc
  rw [hfreed] at hp
  cases hp

end FileSystem

end Zrt.Fs
