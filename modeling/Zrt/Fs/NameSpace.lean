import Zrt.Framework.Naming
import Zrt.Fs.DirectoryUnlink

/-!
# What the names of the in-memory mount mean

Apart from slots, counters and marks the mount is a graph of directories and files, in which every
entry is a link. A state shows a graph if the nodes that paths can reach look up their entries as the
graph does. The changes of the mount then are a new entry, or one entry less.
-/

namespace Zrt.Fs

open Zrt.Framework

/-- Objects from `next` on have not been made. -/
structure NameSpace where
  names : Naming Nat Text
  next : Nat

namespace NameSpace

def rootObject : Nat := 1

/-- A root directory without entries. -/
def fresh : NameSpace := ⟨⟨fun o => decide (o = rootObject), fun _ _ => none⟩, 2⟩

def find (g : NameSpace) (path : AbsolutePath) : Except NoSuch Nat :=
  g.names.resolve rootObject path.path

/-- A new object in a directory, or one more link to an object. -/
def add (g : NameSpace) (dir : Nat) (name : Text) (isDir : Bool) : Option Nat → NameSpace
  | none => ⟨(g.names.make g.next isDir).bind dir name g.next, g.next + 1⟩
  | some o => { g with names := g.names.bind dir name o }

def remove (g : NameSpace) (dir : Nat) (name : Text) : NameSpace :=
  { g with names := g.names.unbind dir name }

def errnoOf : NoSuch → Errno
  | .missing => .enoent
  | .notDirectory => .enotdir

end NameSpace

open NameSpace

namespace MemMount

/-- A node that paths can reach. -/
def Visible (slot : Nat) (n : MemNode) : Prop := slot = rootSlot ∨ '/' ∉ n.name

/-- A walk ends where a resolution does. -/
inductive Found (m : MemMount) : Except Errno Nat → Except NoSuch Nat → Prop
  | ok {s : Nat} {n : MemNode} (hs : s ≠ 0) (hn : m.nodeAt s = some n) (hvis : Visible s n) :
      Found m (.ok s) (.ok n.nodedata)
  | error (e : NoSuch) : Found m (.error (errnoOf e)) (.error e)

structure Shows (m : MemMount) (g : NameSpace) : Prop where
  next : g.next = m.heap.length
  root : ∃ n, m.nodeAt rootSlot = some n ∧ n.nodedata = rootObject
  kind : ∀ s n d, s ≠ 0 → m.nodeAt s = some n → Visible s n → m.getData n.nodedata = some d →
    g.names.isDir n.nodedata = d.isDir
  look : ∀ s n name, s ≠ 0 → m.nodeAt s = some n → Visible s n → '/' ∉ name →
    ∃ r, m.walk s [name] = some r ∧ Found m r (g.names.look n.nodedata name)

section Shows

variable {m m' : MemMount} {g : NameSpace} {slot : Nat} {n : MemNode} {d : MemData}

/-! ## Paths -/

theorem Shows.walk (h : Shows m g) {s : Nat} (hs : s ≠ 0) (hn : m.nodeAt s = some n)
    (hvis : Visible s n) (names : List Text) (hslash : ∀ name ∈ names, '/' ∉ name) :
    ∃ r, m.walk s names = some r ∧ Found m r (g.names.resolve n.nodedata names) := by
  induction names generalizing s n with
  | nil => exact ⟨.ok s, rfl, .ok hs hn hvis⟩
  | cons name names ih =>
      obtain ⟨r, hr, hfound⟩ := h.look s n name hs hn hvis (hslash name List.mem_cons_self)
      rw [walk_cons, hr, Naming.resolve]
      generalize g.names.look n.nodedata name = x at hfound
      cases hfound with
      | ok hs' hn' hvis' =>
          exact ih hs' hn' hvis' fun other hother => hslash other (List.mem_cons_of_mem _ hother)
      | error e => exact ⟨_, rfl, .error e⟩

theorem Shows.getSlot (h : Shows m g) (path : AbsolutePath) :
    ∃ r, m.getSlot path = some r ∧ Found m r (g.find path) := by
  obtain ⟨rn, hrn, hroot⟩ := h.root
  have hwalk := h.walk (by decide) hrn (Or.inl rfl) path.path
    fun name hname => AbsolutePath.slash_not_mem_of_mem_path hname
  rw [hroot] at hwalk
  exact hwalk

theorem Shows.parent (h : Shows m g) (path : AbsolutePath) :
    ∃ r, m.getParentSlot path = some r ∧ Found m r (g.find path.dotdot) :=
  h.getSlot path.dotdot

private theorem Found.getMemNode {r : Except Errno Nat} {x : Except NoSuch Nat} {path : AbsolutePath}
    (hslot : m.getSlot path = some r) (h : Found m r x) :
    (∃ s n, m.getMemNode path = some (some s) ∧ m.getSlot path = some (.ok s) ∧ s ≠ 0 ∧
      m.nodeAt s = some n ∧ Visible s n ∧ x = .ok n.nodedata) ∨
    ∃ e, m.getMemNode path = some none ∧ m.getSlot path = some (.error (errnoOf e)) ∧
      x = .error e := by
  cases h with
  | @ok s n hs hn hvis =>
      exact Or.inl ⟨s, n, by simp [MemMount.getMemNode, hslot, hn], hslot, hs, hn, hvis, rfl⟩
  | error e => exact Or.inr ⟨e, by simp [MemMount.getMemNode, hslot], hslot, rfl⟩

theorem Shows.getMemNode (h : Shows m g) (path : AbsolutePath) :
    (∃ s n, m.getMemNode path = some (some s) ∧ m.getSlot path = some (.ok s) ∧ s ≠ 0 ∧
      m.nodeAt s = some n ∧ Visible s n ∧ g.find path = .ok n.nodedata) ∨
    ∃ e, m.getMemNode path = some none ∧ m.getSlot path = some (.error (errnoOf e)) ∧
      g.find path = .error e := by
  obtain ⟨r, hr, hfound⟩ := h.getSlot path
  exact hfound.getMemNode hr

/-! ## Changes that no name sees -/

theorem Found.of_nodeAt {r : Except Errno Nat} {x : Except NoSuch Nat} (h : Found m r x)
    (hnodes : ∀ s n, m.nodeAt s = some n → Visible s n → r = .ok s → m'.nodeAt s = some n) :
    Found m' r x := by
  cases h with
  | ok hs hn hvis => exact .ok hs (hnodes _ _ hn hvis rfl) hvis
  | error e => exact .error e

theorem Shows.updateData (h : Shows m g) {id : Nat} {f : MemData → MemData} (hf : Inert f) :
    Shows (m.updateData id f) g where
  next := by rw [h.next, MemMount.updateData, List.length_modify]
  root := h.root
  kind := by
    intro s n d' hs hn hvis hd'
    rw [getData_updateData] at hd'
    split at hd'
    · obtain ⟨d, hd, rfl⟩ := Option.map_eq_some_iff.mp hd'
      rw [(hf d).1]
      exact h.kind s n d hs hn hvis hd
    · exact h.kind s n d' hs hn hvis hd'
  look := by
    intro s n name hs hn hvis hslash
    obtain ⟨r, hr, hfound⟩ := h.look s n name hs hn hvis hslash
    refine ⟨r, by rw [walk_updateData hf, hr], hfound.of_nodeAt fun s n hn _ _ => hn⟩

theorem Shows.updateDataAt (h : Shows m g) {f : MemData → MemData} (hf : Inert f) :
    Shows (m.updateDataAt slot f) g := by
  unfold MemMount.updateDataAt
  split
  · exact h
  · exact h.updateData hf

/-! ## A new entry -/

section Enter

variable {parent mode : Nat} {name : Text} {isDir : Bool} {hardlink : Option Nat} {pn : MemNode}
  {pd : MemData}

private theorem add_look_old (hn : n.nodedata < m.heap.length) (hnext : g.next = m.heap.length)
    {other : Text} (h : ¬ (n.nodedata = pn.nodedata ∧ other = name)) :
    (g.add pn.nodedata name isDir hardlink).names.look n.nodedata other =
      g.names.look n.nodedata other := by
  cases hardlink with
  | none =>
      have hne : n.nodedata ≠ g.next := by omega
      simp only [NameSpace.add]
      rw [Naming.look_bind_other h, Naming.look_make_other hne]
  | some o =>
      simp only [NameSpace.add]
      rw [Naming.look_bind_other h]

private theorem add_look_new (hp : pn.nodedata < m.heap.length) (hnext : g.next = m.heap.length)
    (hdir : g.names.isDir pn.nodedata = true) :
    (g.add pn.nodedata name isDir hardlink).names.look pn.nodedata name =
      .ok (m.newData hardlink) := by
  cases hardlink with
  | none =>
      have hne : pn.nodedata ≠ g.next := by omega
      simp only [NameSpace.add, newData, Option.getD_none]
      rw [Naming.look_bind_self, hnext]
      simpa [Naming.make, hne] using hdir
  | some o =>
      simp only [NameSpace.add, newData, Option.getD_some]
      rw [Naming.look_bind_self hdir]

private theorem add_isDir (hn : n.nodedata < m.heap.length) (hnext : g.next = m.heap.length) :
    (g.add pn.nodedata name isDir hardlink).names.isDir n.nodedata = g.names.isDir n.nodedata := by
  cases hardlink with
  | none =>
      have hne : n.nodedata ≠ g.next := by omega
      simp [NameSpace.add, Naming.bind, Naming.make, hne]
  | some o => rfl

theorem Shows.enterNode (h : Shows m g) (hm : m.Sound) (hp0 : parent ≠ 0) (hpvis : Visible parent pn)
    (he : m.Enterable parent name isDir hardlink pn pd) :
    Shows (m.enterNode parent name isDir mode hardlink) (g.add pn.nodedata name isDir hardlink) := by
  have hsound : (m.enterNode parent name isDir mode hardlink).Sound := hm.enterNode he
  have hpdir : g.names.isDir pn.nodedata = true := by
    rw [h.kind parent pn pd hp0 he.node hpvis he.data, he.dir]
  have hplt : pn.nodedata < m.heap.length := lt_heap_length he.data
  have hnew : (m.enterNode parent name isDir mode hardlink).nodeAt
      (m.newSlot parent name isDir mode hardlink) = some ⟨name, parent, m.newData hardlink⟩ := by
    rw [nodeAt_enterNode, if_pos rfl]
  have hnew0 : m.newSlot parent name isDir mode hardlink ≠ 0 := by
    obtain ⟨zn, hzn, -⟩ := hm.grounded.zero
    intro h0
    have hfree := newSlot_free m parent name isDir mode hardlink
    rw [h0, hzn] at hfree
    cases hfree
  -- what the nodes that were there before look up
  have hold : ∀ s n other, s ≠ 0 → m.nodeAt s = some n → Visible s n → '/' ∉ other →
      ∃ r, (m.enterNode parent name isDir mode hardlink).walk s [other] = some r ∧
        Found (m.enterNode parent name isDir mode hardlink) r
          ((g.add pn.nodedata name isDir hardlink).names.look n.nodedata other) := by
    intro s n other hs hn hvis hslash
    have hlt := hm.grounded.bounded s n hn
    by_cases hentry : n.nodedata = pn.nodedata ∧ other = name
    · obtain ⟨hdata, rfl⟩ := hentry
      refine ⟨_, hm.lookup_newSlot mode he hs hn hdata, ?_⟩
      rw [hdata, add_look_new hplt h.next hpdir]
      exact .ok hnew0 hnew (Or.inr hslash)
    · obtain ⟨r, hr, hfound⟩ := h.look s n other hs hn hvis hslash
      refine ⟨r, ?_, ?_⟩
      · rw [hm.lookup_enterNode mode he hs hn (by
          rcases not_and_or.mp hentry with hne | hne
          · exact Or.inl hne
          · exact Or.inr hne), hr]
      · rw [add_look_old hlt h.next hentry]
        exact hfound.of_nodeAt fun s n hn _ _ => nodeAt_enterNode_of_some hn
  constructor
  · rw [heap_length_enterNode]
    cases hardlink with
    | none => simp [NameSpace.add, h.next]
    | some o => simp [NameSpace.add, h.next]
  · obtain ⟨rn, hrn, hroot⟩ := h.root
    exact ⟨rn, nodeAt_enterNode_of_some hrn, hroot⟩
  · intro s n' d' hs hn' hvis hd'
    rw [nodeAt_enterNode] at hn'
    split at hn'
    · -- the new node has fresh data or shares that of a node that is there
      cases hn'
      cases hardlink with
      | none =>
          rcases he.backward hd' with ⟨b, hb, -⟩ | ⟨-, -, hdir, -⟩
          · exact absurd (lt_heap_length hb) (Nat.lt_irrefl _)
          · rw [hdir]
            simp [NameSpace.add, Naming.bind, Naming.make, newData, h.next]
      | some o =>
          obtain ⟨t, tn, td, htn, hto, htd, hdir, htvis⟩ := he.shared o rfl
          have ht0 := hm.grounded.ne_zero htn (hto ▸ htd)
          rcases he.backward hd' with ⟨b, hb, hbdir, -⟩ | ⟨hnone, -⟩
          · have hkind := h.kind t tn td ht0 htn htvis (hto ▸ htd)
            have hsame : b = td := by
              have hb' : m.getData o = some b := hb
              rw [htd] at hb'
              exact (Option.some.inj hb').symm
            rw [hbdir, hsame, ← hkind, hto]
            rfl
          · cases hnone
    · rcases he.backward hd' with ⟨b, hb, hbdir, -⟩ | ⟨-, hlen, -⟩
      · rw [add_isDir (lt_heap_length hb) h.next, hbdir]
        exact h.kind s n' b hs hn' hvis hb
      · have hlt := hm.grounded.bounded s n' hn'
        omega
  · intro s n' other hs hn' hvis hslash
    by_cases hsnew : s = m.newSlot parent name isDir mode hardlink
    · rw [hsnew, hnew] at hn'
      cases hn'
      rw [hsnew]
      cases hardlink with
      | none =>
          obtain ⟨d', hd'⟩ := hsound.exists_data hnew0 hnew
          have hne : ¬ (m.heap.length = pn.nodedata ∧ other = name) := by omega
          have hlook : (g.add pn.nodedata name isDir none).names.look m.heap.length other =
              .error (if isDir then .missing else .notDirectory) := by
            simp only [NameSpace.add, h.next]
            rw [Naming.look_bind_other hne, Naming.look_make_self]
          rcases he.backward hd' with ⟨b, hb, -⟩ | ⟨-, -, hdir, hchildren, -⟩
          · exact absurd (lt_heap_length hb) (Nat.lt_irrefl _)
          · simp only [newData, Option.getD_none] at hd' ⊢
            rw [hlook]
            simp only [MemMount.walk, dataAt_of hnew, newData, Option.getD_none, hd',
              Option.bind_some, hdir, hchildren, findChild]
            cases isDir with
            | true => exact ⟨_, rfl, .error .missing⟩
            | false => exact ⟨_, rfl, .error .notDirectory⟩
      | some o =>
          obtain ⟨t, tn, td, htn, hto, htd, -, htvis⟩ := he.shared o rfl
          have ht0 := hm.grounded.ne_zero htn (hto ▸ htd)
          obtain ⟨r, hr, hfound⟩ := hold t tn other ht0 htn htvis hslash
          rw [hto] at hfound
          refine ⟨r, ?_, hfound⟩
          rw [(walk_of_same_data hnew (nodeAt_enterNode_of_some htn) hto.symm (by simp)).1, hr]
    · rw [nodeAt_enterNode, if_neg hsnew] at hn'
      exact hold s n' other hs hn' hvis hslash

end Enter

/-! ## An entry less -/

/-- Nothing that is left at the slot can be reached. -/
def Gone (m : MemMount) (slot : Nat) : Prop :=
  slot ≠ rootSlot ∧ ∀ n, m.nodeAt slot = some n → n.name = deletedName

private theorem Gone.ne_of_visible (h : Gone m slot) {s : Nat} (hn : m.nodeAt s = some n)
    (hvis : Visible s n) : s ≠ slot := by
  rintro rfl
  have hname := h.2 n hn
  rcases hvis with hroot | hslash
  · exact h.1 hroot
  · exact ne_deletedName hslash hname

theorem Shows.vanish_of_look (h : Shows m g) (hv : Vanishes m m' slot) (hgone : Gone m' slot)
    (hheap : m'.heap.length = m.heap.length) {g' : NameSpace} (hnext : g'.next = g.next)
    (hkind : ∀ o, g'.names.isDir o = g.names.isDir o)
    (hfinds : ∀ s n name, s ≠ 0 → m.nodeAt s = some n → '/' ∉ name →
      m.walk s [name] = some (.ok slot) → g'.names.look n.nodedata name = .error .missing)
    (hother : ∀ s n name, s ≠ 0 → m.nodeAt s = some n → Visible s n → '/' ∉ name →
      m.walk s [name] ≠ some (.ok slot) →
      g'.names.look n.nodedata name = g.names.look n.nodedata name) : Shows m' g' := by
  have hback : ∀ s n', m'.nodeAt s = some n' → Visible s n' → s ≠ slot ∧ m.nodeAt s = some n' := by
    intro s n' hn' hvis
    have hs := hgone.ne_of_visible hn' hvis
    obtain ⟨n, hn, -⟩ := hv.shrinks.node s n' hn'
    have hsame := hv.node s n hs hn
    rw [hn'] at hsame
    exact ⟨hs, hn.trans hsame.symm⟩
  constructor
  · rw [hnext, h.next, hheap]
  · obtain ⟨rn, hrn, hroot⟩ := h.root
    exact ⟨rn, hv.node rootSlot rn (Ne.symm hgone.1) hrn, hroot⟩
  · intro s n' d' hs hn' hvis hd'
    obtain ⟨-, hn⟩ := hback s n' hn' hvis
    obtain ⟨d, hd, hdir, -⟩ := hv.shrinks.data _ d' hd'
    rw [hkind, hdir]
    exact h.kind s n' d hs hn hvis hd
  · intro s n' name hs hn' hvis hslash
    obtain ⟨hne, hn⟩ := hback s n' hn' hvis
    by_cases hw : m.walk s [name] = some (.ok slot)
    · refine ⟨_, hv.gone s n' name hs hn hne hslash hw, ?_⟩
      rw [hfinds s n' name hs hn hslash hw]
      exact .error .missing
    · obtain ⟨r, hr, hfound⟩ := h.look s n' name hs hn hvis hslash
      refine ⟨r, by rw [hv.other s n' name hs hn hne hslash hw, hr], ?_⟩
      rw [hother s n' name hs hn hvis hslash hw]
      apply hfound.of_nodeAt
      intro t tn htn _ hrt
      rw [hrt] at hr
      apply hv.node t tn _ htn
      rintro rfl
      exact hw hr

theorem Shows.vanish (h : Shows m g) (hm : m.Sound) (hv : Vanishes m m' slot) (hgone : Gone m' slot)
    (hheap : m'.heap.length = m.heap.length) {p : Nat} {pn : MemNode} {name : Text} (hp0 : p ≠ 0)
    (hp : m.nodeAt p = some pn) (hpvis : Visible p pn) (hwalk : m.walk p [name] = some (.ok slot)) :
    Shows m' (g.remove pn.nodedata name) := by
  obtain ⟨pd, hpd, hpdir, hpfind⟩ := walk_singleton_ok hwalk
  rw [dataAt_of hp] at hpd
  obtain ⟨hpmem, sn, hsn, hsname⟩ := findChild_found hpfind
  have hnext : (g.remove pn.nodedata name).next = g.next := rfl
  apply h.vanish_of_look hv hgone hheap hnext (fun _ => rfl)
  · intro s n other hs hn _ hw
    obtain ⟨d, hd, hdir, hfind⟩ := walk_singleton_ok hw
    rw [dataAt_of hn] at hd
    obtain ⟨hmem, sn', hsn', hsname'⟩ := findChild_found hfind
    rw [hsn] at hsn'
    cases hsn'
    have hdata : n.nodedata = pn.nodedata := hm.unique s n d p pn pd hn hd hdir hp hpd hpdir slot
      hmem hpmem
    rw [hdata, ← hsname', hsname]
    apply Naming.look_unbind_self
    rw [h.kind p pn pd hp0 hp hpvis hpd, hpdir]
  · intro s n other hs hn _ _ hw
    apply Naming.look_unbind_other
    rintro ⟨hdata, rfl⟩
    rw [(walk_of_same_data hn hp hdata (by simp)).1] at hw
    exact hw hwalk

/-- Removing a directory affects the lookups that found it, as removing a file does. -/
theorem Sound.vanishes_removeDir (h : m.Sound) (hr : m.DirRemovable slot n d)
    (hlisted : m.listedByParent slot = true) (hw : d.wantUnlink = false) :
    Vanishes m (m.removeDir slot) slot := by
  have hsound := h.removeDir hr hlisted
  have hnodes : ∀ t, (m.removeDir slot).nodeAt t = if t = slot then none else m.nodeAt t := by
    intro t
    rw [nodeAt_removeDir hr.node hr.data]
    simp [hw]
  constructor
  · exact hsound
  · exact hr.shrinks
  · intro t tn hts htn
    rw [hnodes, if_neg hts, htn]
  · intro x xn name hx0 hxn hxs _ hres
    have hxn' : (m.removeDir slot).nodeAt x = some xn := by rw [hnodes, if_neg hxs, hxn]
    obtain ⟨d', hd'⟩ := hsound.exists_data hx0 hxn'
    obtain ⟨b, hb, hdir, -, -, hchildren⟩ := backward_removeDir hr.node hr.data hd'
    simp only [MemMount.walk, dataAt_of hxn, dataAt_of hxn', hb, hd', Option.bind_some, hdir] at hres ⊢
    by_cases hbdir : b.isDir = true
    · simp only [hbdir, if_true] at hres ⊢
      have hfind : m.findChild name b.children ≠ some (some slot) := by
        intro he
        rw [he] at hres
        exact hres rfl
      have hnames : (m.removeDir slot).findChild name d'.children =
          m.findChild name d'.children := by
        apply findChild_congr
        intro c hc
        rw [hchildren] at hc
        rw [hnodes, if_neg (ne_of_mem_filtered hr.node hlisted hxn hb hbdir hc)]
      rw [hnames, hchildren]
      split
      · rw [findChild_filter hr.node hfind]
      · rfl
    · rw [if_neg hbdir, if_neg hbdir]
  · intro x xn name hx0 hxn hxs hslash hres
    have hxn' : (m.removeDir slot).nodeAt x = some xn := by rw [hnodes, if_neg hxs, hxn]
    apply h.lookup_gone hr.shrinks hsound hx0 hxn hxn' hslash _ hres
    intro n' hn'
    rw [hnodes, if_pos rfl] at hn'
    cases hn'

theorem Shows.vanish_hidden (h : Shows m g) (hv : Vanishes m m' slot) (hgone : Gone m' slot)
    (hheap : m'.heap.length = m.heap.length) (hn : m.nodeAt slot = some n)
    (hname : n.name = deletedName) : Shows m' g := by
  apply h.vanish_of_look hv hgone hheap rfl (fun _ => rfl)
  · intro s sn name hs hsn hslash hw
    obtain ⟨d, -, -, hfind⟩ := walk_singleton_ok hw
    obtain ⟨-, tn, htn, htname⟩ := findChild_found hfind
    rw [hn] at htn
    cases htn
    rw [hname] at htname
    exact absurd htname.symm (ne_deletedName hslash)
  · exact fun _ _ _ _ _ _ _ _ => rfl

end Shows

end MemMount

end Zrt.Fs
