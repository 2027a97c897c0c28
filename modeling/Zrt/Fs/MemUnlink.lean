import Zrt.Fs.MemDescriptors
import Zrt.Fs.MemFrame

/-!
# Unlinking one name

An unlinked file that is still in use is only renamed and marked, and the mark is in the data that its
hard links share: they disappear from the listings with it, and closing a descriptor of one of them
removes that link. Where the file has no other name, and where no shared directory loses the link its
children record, unlinking touches nothing but the one entry, also when descriptors are closed later.
-/

namespace Zrt.Fs

open Zrt.Framework

namespace MemMount

variable {m m' : MemMount} {slot : Nat} {n : MemNode} {d : MemData}

theorem Change.mono {ok ok' : MemMount → Removal → Prop} (h : ∀ r, ok m r → ok' m r)
    (hc : Change ok m m') : Change ok' m m' := by
  cases hc with
  | touch hf => exact .touch hf
  | enter he => exact .enter he
  | remove hr hok => exact .remove hr (h _ hok)
  | hide hh hok => exact .hide hh (h _ hok)
  | rmdir hr hok => exact .rmdir hr (h _ hok)

/-! ## Marked data -/

/-- A removal that concerns one name only: no shared parent is freed, and a deferred removal is that
of the file's only name. -/
def removesOne (m : MemMount) : Removal → Bool
  | .remove slot => !m.sharedParent slot
  | .hide slot => decide (slot ≠ rootSlot) &&
      (m.nodeAt slot).all fun n => decide (m.nodesOf n.nodedata ≤ 1)
  | .rmdir _ => false

/-- Marked data has a single node, which no path leads to and which can be removed. -/
def MarkedHidden (m : MemMount) : Prop :=
  ∀ s n d, m.nodeAt s = some n → m.getData n.nodedata = some d → d.wantUnlink = true →
    s ≠ rootSlot ∧ n.name = deletedName ∧ m.nodesOf n.nodedata = 1 ∧ (d.isDir = true → 2 ≤ d.nlink)

structure Orderly (m : MemMount) : Prop where
  sound : m.Sound
  tree : m.Tree
  marked : m.MarkedHidden

/-- Nodes that a path leads to are not marked. -/
theorem MarkedHidden.unmarked (h : m.MarkedHidden) (hn : m.nodeAt slot = some n)
    (hd : m.getData n.nodedata = some d) (hname : slot = rootSlot ∨ '/' ∉ n.name) :
    d.wantUnlink = false := by
  cases hw : d.wantUnlink with
  | false => rfl
  | true =>
      obtain ⟨hroot, hdel, -⟩ := h slot n d hn hd hw
      rcases hname with rfl | hslash
      · exact absurd rfl hroot
      · exact absurd hdel (ne_deletedName hslash)

private theorem MarkedHidden.updateData {id : Nat} {f : MemData → MemData} (h : m.MarkedHidden)
    (hf : Inert f) : (m.updateData id f).MarkedHidden := by
  intro s sn d' hsn hd' hw'
  obtain ⟨b, hb, hdir, hnlink, hw, -⟩ := hf.backward hd'
  obtain ⟨hroot, hname, hone, hlinks⟩ := h s sn b hsn hb (hw ▸ hw')
  exact ⟨hroot, hname, hone, fun hd => by rw [hnlink]; exact hlinks (hdir ▸ hd)⟩

private theorem MarkedHidden.newData_ne {parent i : Nat} {name : Text} {isDir : Bool}
    {hardlink : Option Nat} {pn : MemNode} {pd b : MemData} (h : m.MarkedHidden)
    (he : m.Enterable parent name isDir hardlink pn pd) (hb : m.getData i = some b)
    (hw : b.wantUnlink = true) : m.newData hardlink ≠ i := by
  cases hardlink with
  | none => exact Nat.ne_of_gt (lt_heap_length hb)
  | some id =>
      intro hid
      obtain ⟨t, tn, td, htn, hnd, htd, -, hreach⟩ := he.shared id rfl
      have hi : id = i := hid
      rw [hi, hb] at htd
      cases htd
      rw [h.unmarked htn (by rw [hnd, hi, hb]) hreach] at hw
      cases hw

private theorem MarkedHidden.enterNode {parent mode : Nat} {name : Text} {isDir : Bool}
    {hardlink : Option Nat} {pn : MemNode} {pd : MemData} (h : m.MarkedHidden)
    (he : m.Enterable parent name isDir hardlink pn pd) :
    (m.enterNode parent name isDir mode hardlink).MarkedHidden := by
  intro s sn d' hsn hd' hw'
  rcases he.backward hd' with ⟨b, hb, hdir, hw, hnlink, -⟩ | ⟨-, -, -, -, -, hw⟩
  · rw [hw] at hw'
    have hdata := h.newData_ne he hb hw'
    rw [nodeAt_enterNode] at hsn
    split at hsn
    · cases hsn
      exact absurd rfl hdata
    · obtain ⟨hroot, hname, hone, hlinks⟩ := h s sn b hsn hb hw'
      refine ⟨hroot, hname, by rw [nodesOf_enterNode, if_neg hdata, hone], fun hd => ?_⟩
      have hle := hlinks (hdir ▸ hd)
      rw [hnlink]
      omega
  · rw [hw] at hw'
    cases hw'

private theorem MarkedHidden.removeNode {slot : Nat} {n : MemNode} {d : MemData} (h : m.MarkedHidden)
    (hr : m.Removable slot n d) : (m.removeNode slot).MarkedHidden := by
  intro s sn d' hsn hd' hw'
  obtain ⟨b, hb, hdir, hw, hnlink, -, -⟩ := backward_removeNode hr.node hd'
  rw [nodeAt_removeNode hr.node] at hsn
  split at hsn
  · cases hsn
  · rename_i hs
    obtain ⟨hroot, hname, hone, hlinks⟩ := h s sn b hsn hb (hw ▸ hw')
    have hother : sn.nodedata ≠ n.nodedata := by
      intro hi
      have htwo := two_le_nodesOf hr.node hsn hs hi
      rw [← hi, hone] at htwo
      omega
    have hnodes := nodesOf_removeNode hr.node sn.nodedata
    rw [if_neg (Ne.symm hother)] at hnodes
    rw [if_neg hother] at hnlink
    exact ⟨hroot, hname, by omega, fun hd => by rw [hnlink]; exact hlinks (hdir ▸ hd)⟩

private theorem MarkedHidden.hideNode {slot : Nat} {n : MemNode} {d : MemData} (h : m.MarkedHidden)
    (hh : m.Hideable slot n d) (hok : m.removesOne (.hide slot) = true) :
    (m.hideNode slot).MarkedHidden := by
  simp only [removesOne, hh.node, Option.all_some, Bool.and_eq_true, decide_eq_true_eq] at hok
  intro s sn d' hsn hd' hw'
  obtain ⟨b, hb, hdir, hnlink, -, hw⟩ := backward_hideNode hh.node hd'
  rw [nodesOf_hideNode hh.node]
  rw [nodeAt_hideNode hh.node] at hsn
  split at hsn
  · rename_i hs
    cases hsn
    have hpos := nodesOf_pos hh.node
    have hb' : m.getData n.nodedata = some b := hb
    rw [hh.data] at hb'
    cases hb'
    refine ⟨by rw [hs]; exact hok.1, rfl, ?_, fun hd => ?_⟩
    · show m.nodesOf n.nodedata = 1
      omega
    · rw [hnlink]
      exact hh.links (hdir ▸ hd)
  · rename_i hs
    have hother : sn.nodedata ≠ n.nodedata := by
      intro hi
      have htwo := two_le_nodesOf hh.node hsn hs hi
      omega
    rw [hw, decide_eq_false hother, Bool.or_false] at hw'
    obtain ⟨hroot, hname, hone, hlinks⟩ := h s sn b hsn hb hw'
    exact ⟨hroot, hname, hone, fun hd => by rw [hnlink]; exact hlinks (hdir ▸ hd)⟩

private theorem change_markedHidden (h : m.MarkedHidden)
    (hc : Change (fun m r => m.removesOne r = true) m m') : m'.MarkedHidden := by
  cases hc with
  | touch hf => exact h.updateData hf
  | enter he => exact h.enterNode he
  | remove hr hok => exact h.removeNode hr
  | hide hh hok => exact h.hideNode hh hok
  | rmdir hr hok => cases hok

theorem change_orderly (h : m.Orderly) (hc : Change (fun m r => m.removesOne r = true) m m') :
    m'.Orderly where
  sound := by
    apply change_sound h.sound
    apply hc.mono
    intro r hr
    cases r with
    | remove slot => exact h.tree.listedByParent slot
    | hide slot => rfl
    | rmdir slot => cases hr
  tree := by
    apply change_tree h.tree
    apply hc.mono
    intro r hr
    cases r with
    | remove slot => exact hr
    | hide slot => rfl
    | rmdir slot => cases hr
  marked := change_markedHidden h.marked hc

theorem orderly_fresh : fresh.Orderly where
  sound := sound_fresh
  tree := tree_fresh
  marked := by
    intro s n d hn hd hw
    obtain ⟨-, rfl⟩ := getData_fresh hd
    cases hw

/-! ## Paths that a removal does not reach -/

/-- The path leads to the slot, whose node has the data. -/
def ResolvesTo (m : MemMount) (path : AbsolutePath) (slot id : Nat) : Prop :=
  m.getSlot path = some (.ok slot) ∧ (m.nodeAt slot).map MemNode.nodedata = some id

/-- `Getdents` of the parent directory shows the entry. -/
def ShownAt (m : MemMount) (path : AbsolutePath) (slot : Nat) : Prop :=
  ∃ p entries, m.getParentSlot path = some (.ok p) ∧ m.getdents p = some (.ok entries) ∧
    (slot, path.last) ∈ entries

variable {path : AbsolutePath} {s id : Nat}

private theorem ResolvesTo.updateData (h : m.ResolvesTo path s id) {i : Nat} {f : MemData → MemData}
    (hf : Inert f) : (m.updateData i f).ResolvesTo path s id := by
  refine ⟨?_, h.2⟩
  rw [getSlot, walk_updateData hf]
  exact h.1

private theorem ResolvesTo.updateDataAt (h : m.ResolvesTo path s id) {t : Nat} {f : MemData → MemData}
    (hf : Inert f) : (m.updateDataAt t f).ResolvesTo path s id := by
  unfold MemMount.updateDataAt
  split
  · exact h
  · exact h.updateData hf

theorem Vanishes.resolvesTo (hv : Vanishes m m' slot) (hm : m.Sound) (hroot : slot ≠ rootSlot)
    (h : m.ResolvesTo path s id) (hnot : slot ∉ m.arrivals rootSlot path.path) :
    m'.ResolvesTo path s id := by
  obtain ⟨rn, hrn, -⟩ := hm.grounded.root
  have hs : s ≠ slot := by
    rcases mem_arrivals_of_walk h.1 with rfl | hmem
    · exact Ne.symm hroot
    · intro he
      exact hnot (he ▸ hmem)
  obtain ⟨sn, hsn, hid⟩ := Option.map_eq_some_iff.mp h.2
  constructor
  · rw [getSlot, hv.walk_other hm (by decide) hrn (Ne.symm hroot)
      (fun name hname => AbsolutePath.slash_not_mem_of_mem_path hname) hnot]
    exact h.1
  · rw [hv.node s sn hs hsn, Option.map_some, hid]

private theorem Orderly.marked_not_mem_arrivals (h : m.Orderly) (hn : m.nodeAt slot = some n)
    (hd : m.getData n.nodedata = some d) (hw : d.wantUnlink = true) :
    slot ∉ m.arrivals rootSlot path.path := by
  intro hmem
  obtain ⟨rn, hrn, -⟩ := h.sound.grounded.root
  obtain ⟨-, -, xn, hxn, hname⟩ := h.sound.mem_arrivals (by decide) hrn hmem
  rw [hn] at hxn
  cases hxn
  have hslash := AbsolutePath.slash_not_mem_of_mem_path hname
  rw [h.marked.unmarked hn hd (Or.inr hslash)] at hw
  cases hw

private theorem Sound.getdentsLoop (h : m.Sound) {cs : List Nat}
    (hcs : ∀ c ∈ cs, c ≠ 0 ∧ (m.nodeAt c).isSome) :
    ∃ entries, m.getdentsLoop cs = some entries ∧ ∀ c ∈ cs, ∀ cn cd, m.nodeAt c = some cn →
      m.getData cn.nodedata = some cd → cd.wantUnlink = false → (c, cn.name) ∈ entries := by
  induction cs with
  | nil => exact ⟨[], rfl, fun c hc => absurd hc List.not_mem_nil⟩
  | cons c cs ih =>
      obtain ⟨entries, hentries, hall⟩ := ih fun c' hc' => hcs c' (List.mem_cons_of_mem c hc')
      obtain ⟨h0, hsome⟩ := hcs c List.mem_cons_self
      obtain ⟨cn, hcn⟩ := Option.isSome_iff_exists.mp hsome
      obtain ⟨cd, hcd⟩ := h.exists_data h0 hcn
      simp only [MemMount.getdentsLoop, hcn, hcd, hentries, Option.bind_some, Option.map_some]
      refine ⟨_, rfl, fun c' hc' cn' cd' hcn' hcd' hw => ?_⟩
      rcases List.mem_cons.mp hc' with rfl | hc'
      · rw [hcn] at hcn'
        cases hcn'
        rw [hcd] at hcd'
        cases hcd'
        rw [hw]
        exact List.mem_cons_self
      · split
        · exact hall c' hc' cn' cd' hcn' hcd' hw
        · exact List.mem_cons_of_mem _ (hall c' hc' cn' cd' hcn' hcd' hw)

private theorem Orderly.shownAt (h : m.Orderly) (hres : m.ResolvesTo path s id) (hne : path.path ≠ []) :
    m.ShownAt path s := by
  have hslot := hres.1
  rw [getSlot, AbsolutePath.path_eq_snoc hne] at hslot
  obtain ⟨p, hp, hstep⟩ := walk_snoc_ok hslot
  obtain ⟨pd, hpd, hdir, hfind⟩ := walk_singleton_ok hstep
  obtain ⟨pn, hpn, hdata⟩ := dataAt_eq_some.mp hpd
  obtain ⟨hmem, sn, hsn, hname⟩ := findChild_found hfind
  have hchildren := h.sound.children p pn pd hpn hdata hdir
  obtain ⟨entries, hentries, hall⟩ :=
    h.sound.getdentsLoop fun c hc => ⟨(hchildren c hc).1, (hchildren c hc).2.2⟩
  obtain ⟨sd, hsd⟩ := h.sound.exists_data (hchildren s hmem).1 hsn
  refine ⟨p, entries, hp, ?_, ?_⟩
  · simp only [getdents, hpn, hdata, Option.bind_some, if_pos hdir, hentries, Option.map_some]
  · rw [← hname]
    exact hall s hmem sn sd hsn hsd (h.marked.unmarked hsn hsd (getSlot_name hres.1 hsn))

/-! ## The deferred removal -/

private theorem not_sharedParent (hn : m.nodeAt slot = some n) (hone : m.nodesOf n.nodedata ≤ 1) :
    m.sharedParent slot = false := by
  unfold sharedParent
  simp only [hn, Bool.and_eq_false_iff]
  apply Or.inl
  rw [List.any_eq_false]
  intro t _ hany
  simp only [Bool.and_eq_true, decide_eq_true_eq, Option.any_eq_true, beq_iff_eq] at hany
  obtain ⟨hts, n', hn', hdata⟩ := hany
  have htwo := two_le_nodesOf hn hn' hts hdata
  omega

private theorem Orderly.unlinkInternal_marked (h : m.Orderly) (hs : slot ≠ 0) (hn : m.nodeAt slot = some n)
    (hd : m.getData n.nodedata = some d) (hw : d.wantUnlink = true) :
    m.unlinkInternal slot = some (.ok (), m.removeNode slot) ∧ m.Removable slot n d := by
  obtain ⟨hroot, -, -, hlinks⟩ := h.marked slot n d hn hd hw
  have hreturns : ∃ m', m.unlinkInternal slot = some (.ok (), m') := by
    simp only [unlinkInternal, hn, hd, Option.bind_some]
    rw [if_neg (fun hbusy => by simp [hw] at hbusy),
      if_neg (fun hdir => Nat.not_lt.mpr (hlinks hdir.1) hdir.2), if_pos (Or.inr hw)]
    split
    · rename_i hparent
      obtain ⟨pn, hpn⟩ := Option.isSome_iff_exists.mp hparent
      obtain ⟨pd, hpd⟩ := h.sound.exists_data (h.sound.parents slot n hs hroot hn) hpn
      rw [dataAt_of hpn, hpd]
      exact ⟨_, rfl⟩
    · exact ⟨_, rfl⟩
  obtain ⟨m', hcall⟩ := hreturns
  obtain ⟨n₀, d₀, hn₀, hd₀, hcases⟩ := unlinkInternal_cases hcall
  rw [hn] at hn₀
  cases hn₀
  rw [hd] at hd₀
  cases hd₀
  rcases hcases with ⟨e, he, -⟩ | ⟨-, hrem, rfl⟩ | ⟨-, hhide, -⟩
  · cases he
  · exact ⟨hcall, hrem⟩
  · have hunmarked := hhide.unmarked
    rw [hw] at hunmarked
    cases hunmarked

end MemMount

/-! ## Runs -/

namespace FileSystem

open MemMount

variable {ch : Channels} {fs fs' : FileSystem} {r : Except Errno Nat} {c : FsCall}

/-- The calls that open, name and close. -/
def namesOrCloses : FsCall → Bool
  | .memOpen _ _ _ | .mkdir _ _ | .link _ _ | .unlink _ | .close _ => true
  | _ => false

def RemovesOne (fs : FileSystem) (c : FsCall) : Prop :=
  namesOrCloses c = true ∧ ∀ x ∈ fs.removals c, x.1.removesOne x.2 = true

instance (fs : FileSystem) (c : FsCall) : Decidable (fs.RemovesOne c) :=
  have : Decidable (∀ x ∈ fs.removals c, x.1.removesOne x.2 = true) :=
    List.decidableBAll (fun x : MemMount × Removal => x.1.removesOne x.2 = true) (fs.removals c)
  inferInstanceAs (Decidable (_ ∧ _))

/-- The state of a run of these calls. -/
structure Tidy (fs : FileSystem) : Prop where
  accounts : fs.files.Accounts none
  handles : ∀ fd item, fs.files.handles.entry fd = some item →
    item.mountFs = .memory ∧ item.inode ≠ 0
  mem : fs.mem.Orderly

private theorem memOpenNode_entries {ino parent k : Nat} {flags : OpenFlags} {item : HandleItem}
    (hcall : fs.memOpenNode ino parent flags = some (r, fs'))
    (h : fs'.files.handles.entry k = some item) :
    fs.files.handles.entry k = some item ∨ (item.mountFs = .memory ∧ item.inode = ino) := by
  have hentry := OpenFiles.openDescriptor_entry fs.files .memory ino parent flags
  rw [memOpenNode_files hcall] at h
  split at hentry
  · obtain ⟨-, ofd, hall⟩ := hentry
    rw [hall] at h
    split at h
    · cases h
      exact Or.inr ⟨rfl, rfl⟩
    · exact Or.inl h
  · exact Or.inl (by rw [← hentry, h])

private theorem call_orderly (h : fs.Tidy) (hone : fs.RemovesOne c) (hcall : call ch fs c = some (r, fs')) :
    fs'.mem.Orderly := by
  have hev : Evolves (fun m r => m.removesOne r = true) fs.mem fs'.mem :=
    call_evolves h.mem.sound.grounded.rootOutside hcall hone.2
  exact hev.preserves Orderly (fun _ _ hm hc => change_orderly hm hc) h.mem

private theorem call_handles (h : fs.Tidy) (hnames : namesOrCloses c = true)
    (hcall : call ch fs c = some (r, fs')) {k : Nat} {item : HandleItem}
    (hk : fs'.files.handles.entry k = some item) : item.mountFs = .memory ∧ item.inode ≠ 0 := by
  cases c with
  | memOpen path flags mode =>
      rcases memOpen_node (fun _ _ => False) hcall with
        ⟨e, -, hfiles⟩ | ⟨mem, ino, parent, hev, hslot, hnode⟩
      · exact h.handles k item (hfiles ▸ hk)
      · rcases memOpenNode_entries hnode hk with hold | ⟨hmount, hinode⟩
        · exact h.handles k item hold
        · have hmem : mem.Sound := by
            apply hev.preserves Sound _ h.mem.sound
            intro m m' hm hc
            exact change_sound hm (hc.mono fun _ hfalse => absurd hfalse id)
          exact ⟨hmount, by rw [hinode]; exact (hmem.getSlot_ok hslot).1⟩
  | close fd =>
      rcases close_cases hcall with ⟨e, -, rfl⟩ | ⟨-, hclose⟩
      · exact h.handles k item hk
      · rw [OpenFiles.closeDescriptor_entry hclose] at hk
        split at hk
        · cases hk
        · exact h.handles k item hk
  | mkdir path mode => exact h.handles k item ((ofMem_eq_some hcall).1 ▸ hk)
  | link oldpath newpath => exact h.handles k item ((ofMem_eq_some hcall).1 ▸ hk)
  | unlink path => exact h.handles k item ((ofMem_eq_some hcall).1 ▸ hk)
  | channelsOpen path flags => cases hnames
  | dup oldfd => cases hnames
  | dup2 oldfd newfd => cases hnames
  | rmdir path => cases hnames
  | rename oldpath newpath => cases hnames

theorem call_tidy (h : fs.Tidy) (hone : fs.RemovesOne c) (hcall : call ch fs c = some (r, fs')) :
    fs'.Tidy where
  accounts := step_accounts h.accounts (Option.map_eq_some_iff.mpr ⟨_, hcall, rfl⟩)
  handles := fun _ _ hk => call_handles h hone.1 hcall hk
  mem := call_orderly h hone hcall

private theorem tidy_start : start.Tidy where
  accounts := OpenFiles.accounts_start
  handles := by
    intro fd item hentry
    have hmem := List.mem_of_getElem? (OpenFiles.handles_entry_eq_some.mp hentry)
    cases (List.mem_replicate.mp hmem).2
  mem := orderly_fresh

private theorem Tidy.memClose_resolves (h : fs.Tidy) (fd : Nat) :
    ∃ r fs', fs.memClose fd = some (r, fs') ∧
      (∀ x ∈ fs.memCloseRemovals fd, x.1.removesOne x.2 = true) ∧
      ∀ path s id, fs.mem.ResolvesTo path s id → fs'.mem.ResolvesTo path s id := by
  unfold memClose memCloseRemovals
  cases hinode : fs.mnodeByHandle fd with
  | none => exact ⟨_, _, rfl, fun x hx => absurd hx List.not_mem_nil, fun _ _ _ hres => hres⟩
  | some inode =>
      obtain ⟨item, hitem, hnode⟩ := Option.bind_eq_some_iff.mp hinode
      obtain ⟨n, hn, rfl⟩ := Option.map_eq_some_iff.mp hnode
      obtain ⟨hentry, -⟩ := Option.filter_eq_some_iff.mp hitem
      obtain ⟨-, h0⟩ := h.handles fd item hentry
      obtain ⟨files, hfiles⟩ := h.accounts.exists_closeDescriptor hentry
      have hord : (fs.mem.unref item.inode).Orderly := by
        rw [unref, updateDataAt_eq hn]
        exact change_orderly h.mem (.touch inert_unref)
      have hn' : (fs.mem.unref item.inode).nodeAt item.inode = some n := by
        rw [unref, nodeAt_updateDataAt, hn]
      have htouch : ∀ path s id, fs.mem.ResolvesTo path s id →
          (fs.mem.unref item.inode).ResolvesTo path s id :=
        fun path s id hres => hres.updateDataAt inert_unref
      obtain ⟨d, hd⟩ := hord.sound.exists_data h0 hn'
      have hdata : (fs.mem.unref item.inode).dataAt item.inode = some d := by rw [dataAt_of hn', hd]
      simp only [hdata, Option.bind_some]
      cases hw : d.wantUnlink with
      | false =>
          simp only [Bool.false_eq_true, if_false, Option.bind_some, hfiles, Option.map_some]
          exact ⟨_, _, rfl, fun x hx => absurd hx List.not_mem_nil, htouch⟩
      | true =>
          obtain ⟨hcall, hrem⟩ := hord.unlinkInternal_marked h0 hn' hd hw
          obtain ⟨-, -, hone, -⟩ := hord.marked item.inode n d hn' hd hw
          simp only [if_true, hcall, Option.bind_some, hfiles, Option.map_some]
          refine ⟨_, _, rfl, fun x hx => ?_, fun path s id hres => ?_⟩
          · simp only [unlinkInternalRemovals, hcall, hdata, hw, or_true, if_true,
              List.mem_singleton] at hx
            rw [hx]
            simp only [removesOne, not_sharedParent hn' (Nat.le_of_eq hone), Bool.not_false]
          · have hvanish := hord.sound.vanishes_removeNode hrem (hord.tree.listedByParent _)
            exact hvanish.resolvesTo hord.sound (hord.sound.grounded.removable_ne_root hrem)
              (htouch path s id hres) (hord.marked_not_mem_arrivals hn' hd hw)

private theorem Tidy.close_resolves (h : fs.Tidy) (ch : Channels) (fd : Nat) :
    ∃ r fs', close ch fs fd = some (r, fs') ∧ fs.RemovesOne (.close fd) ∧
      ∀ path s id, fs.mem.ResolvesTo path s id → fs'.mem.ResolvesTo path s id := by
  unfold RemovesOne close
  simp only [removals, closeRemovals]
  cases hmount : fs.files.mountByhandle fd with
  | none =>
      exact ⟨_, _, rfl, ⟨rfl, fun x hx => absurd hx List.not_mem_nil⟩, fun _ _ _ hres => hres⟩
  | some mount =>
      obtain ⟨item, hentry, hmap⟩ := Option.bind_eq_some_iff.mp hmount
      obtain ⟨f, -, hfs⟩ := Option.map_eq_some_iff.mp hmap
      rw [(h.handles fd item hentry).1] at hfs
      cases hfs
      obtain ⟨r, fs', hcall, hone, hkeep⟩ := h.memClose_resolves fd
      exact ⟨r, fs', hcall, ⟨rfl, hone⟩, hkeep⟩

private theorem Tidy.closes_resolve (h : fs.Tidy) (fds : List Nat) :
    ∃ fs', runFrom (step ch) fs (fds.map FsCall.close) = some fs' ∧ fs'.Tidy ∧
      ∀ path s id, fs.mem.ResolvesTo path s id → fs'.mem.ResolvesTo path s id := by
  induction fds generalizing fs with
  | nil => exact ⟨fs, rfl, h, fun _ _ _ hres => hres⟩
  | cons fd fds ih =>
      obtain ⟨r, fs₁, hcall, hone, hkeep⟩ := h.close_resolves ch fd
      have hcall' : call ch fs (.close fd) = some (r, fs₁) := hcall
      obtain ⟨fs₂, hrun, htidy, hkeep'⟩ := ih (call_tidy h hone hcall')
      refine ⟨fs₂, ?_, htidy, fun path s id hres => hkeep' path s id (hkeep path s id hres)⟩
      rw [List.map_cons, runFrom, step, hcall', Option.map_some, Option.bind_some, hrun]

private theorem Tidy.unlink_resolves (h : fs.Tidy) {path : AbsolutePath} (hone : fs.RemovesOne (.unlink path))
    (hcall : call ch fs (.unlink path) = some (r, fs')) {q : AbsolutePath} {s id : Nat}
    (hres : fs.mem.ResolvesTo q s id)
    (hnot : ∀ p, fs.mem.getSlot path = some (.ok p) → p ∉ fs.mem.arrivals rootSlot q.path) :
    fs'.mem.ResolvesTo q s id := by
  obtain ⟨-, x, hunlink, -⟩ := ofMem_eq_some hcall
  rcases unlink_cases hunlink with ⟨-, -, hsame⟩ | ⟨slot, hslot, hinternal⟩
  · rw [hsame]
    exact hres
  · have hoff := hnot slot (getMemNode_eq_some.mp hslot).1
    obtain ⟨n, d, hn, hd, hcases⟩ := unlinkInternal_cases hinternal
    rcases hcases with ⟨e, -, hsame⟩ | ⟨-, hrem, hm⟩ | ⟨hx, hhide, hm⟩
    · rw [hsame]
      exact hres
    · rw [hm]
      have hvanish := h.mem.sound.vanishes_removeNode hrem (h.mem.tree.listedByParent slot)
      exact hvanish.resolvesTo h.mem.sound (h.mem.sound.grounded.removable_ne_root hrem) hres hoff
    · rw [hm]
      have hsafe := hone.2 (fs.mem, .hide slot) (by
        rw [removals, unlinkRemovals, hslot]
        exact hhide.mem_removals (hx ▸ hinternal))
      simp only [removesOne, Bool.and_eq_true, decide_eq_true_eq] at hsafe
      exact (h.mem.sound.vanishes_hideNode hhide).resolvesTo h.mem.sound hsafe.1 hres hoff

/-- After a run in which every removal concerns one name, unlinking another one leaves all paths that
do not pass its entry: they lead to the same data and are shown in their directories, and closing any
descriptors later does not change that. -/
theorem unlink_local (ch : Channels) (calls : List FsCall) (fs fs₁ : FileSystem) (p : AbsolutePath)
    (hguard : Guarded (step ch) RemovesOne start calls)
    (hrun : runFrom (step ch) start calls = some fs) (hone : fs.RemovesOne (.unlink p))
    (hunlink : call ch fs (.unlink p) = some (.ok 0, fs₁)) (fds : List Nat) :
    ∃ fs₂, runFrom (step ch) fs₁ (fds.map FsCall.close) = some fs₂ ∧
      ∀ q s id, fs.mem.ResolvesTo q s id →
        (∀ t, fs.mem.getSlot p = some (.ok t) → t ∉ fs.mem.arrivals rootSlot q.path) →
        fs₂.mem.ResolvesTo q s id ∧ (q.path ≠ [] → fs₂.mem.ShownAt q s) := by
  have hkeep : ∀ s c t, Tidy s → RemovesOne s c → step ch s c = some t → Tidy t := by
    intro s c t hs hc hstep
    obtain ⟨⟨r, fs'⟩, hcall, rfl⟩ := Option.map_eq_some_iff.mp hstep
    exact call_tidy hs hc hcall
  have htidy : fs.Tidy := runFrom_invariant hkeep calls start fs tidy_start hguard hrun
  obtain ⟨fs₂, hcloses, htidy₂, hlater⟩ := (call_tidy htidy hone hunlink).closes_resolve fds
  refine ⟨fs₂, hcloses, fun q s id hres hnot => ?_⟩
  have hres₂ := hlater q s id (htidy.unlink_resolves hone hunlink hres hnot)
  exact ⟨hres₂, fun hne => htidy₂.mem.shownAt hres₂ hne⟩

/-- A file with two names, and a third file that is open and unlinked. -/
def twoNamesCalls : List FsCall :=
  [.memOpen (.fromRoot "f".toList) { creat := true, rdwr := true } 0o600, .close 0,
    .link (.fromRoot "f".toList) (.fromRoot "g".toList),
    .memOpen (.fromRoot "h".toList) { creat := true, rdwr := true } 0o600, .unlink (.fromRoot "h".toList)]

theorem unlink_local_twoNames :
    RunEnds (step standardInput) start twoNamesCalls fun fs =>
      ∃ fs₁, call standardInput fs (.unlink (.fromRoot "f".toList)) = some (.ok 0, fs₁) ∧
        RunEnds (step standardInput) fs₁ [.close 0] fun fs₂ =>
          fs₂.mem.ResolvesTo (.fromRoot "g".toList) 3 2 ∧ fs₂.mem.ShownAt (.fromRoot "g".toList) 3 := by
  have hguard : Guarded (step standardInput) RemovesOne start twoNamesCalls := by decide
  have hends : RunEnds (step standardInput) start twoNamesCalls fun fs =>
      fs.RemovesOne (.unlink (.fromRoot "f".toList)) ∧
      ((call standardInput fs (.unlink (.fromRoot "f".toList))).map Prod.fst = some (.ok 0) ∧
        fs.mem.getSlot (.fromRoot "f".toList) = some (.ok 2)) ∧
      fs.mem.getSlot (.fromRoot "g".toList) = some (.ok 3) ∧
      (fs.mem.nodeAt 3).map MemNode.nodedata = some 2 ∧
      2 ∉ fs.mem.arrivals rootSlot (AbsolutePath.path (.fromRoot "g".toList)) := by decide
  obtain ⟨fs, hfs, hone, ⟨hok, hf⟩, hg, hdata, hnot⟩ := hends
  obtain ⟨⟨r, fs₁⟩, hcall, hr⟩ := Option.map_eq_some_iff.mp hok
  cases hr
  obtain ⟨fs₂, hcloses, hall⟩ :=
    unlink_local standardInput twoNamesCalls fs fs₁ _ hguard hfs hone hcall [0]
  obtain ⟨hres, hshown⟩ := hall (.fromRoot "g".toList) 3 2 ⟨hg, hdata⟩ fun t ht => by
    rw [hf] at ht
    cases ht
    exact hnot
  exact ⟨fs, hfs, fs₁, hcall, fs₂, hcloses, hres, hshown (by decide)⟩

/-- The file is open under its other name. -/
def otherNameCalls : List FsCall :=
  [.memOpen (.fromRoot "f".toList) { creat := true, rdwr := true } 0o600, .close 0,
    .link (.fromRoot "f".toList) (.fromRoot "g".toList), .memOpen (.fromRoot "g".toList) { rdwr := true } 0o600]

/-- Unlinking one name and closing the descriptor of the other removes the other. -/
theorem unlink_loses_other_name :
    RunEnds (step standardInput) start otherNameCalls fun fs =>
      fs.mem.ResolvesTo (.fromRoot "g".toList) 3 2 ∧
      (∀ t, fs.mem.getSlot (.fromRoot "f".toList) = some (.ok t) →
        t ∉ fs.mem.arrivals rootSlot (AbsolutePath.path (.fromRoot "g".toList))) ∧
      ∃ fs₁, call standardInput fs (.unlink (.fromRoot "f".toList)) = some (.ok 0, fs₁) ∧
        RunEnds (step standardInput) fs₁ [.close 0] fun fs₂ =>
          ¬fs₂.mem.ResolvesTo (.fromRoot "g".toList) 3 2 := by
  have hends : RunEnds (step standardInput) start otherNameCalls fun fs =>
      ((call standardInput fs (.unlink (.fromRoot "f".toList))).map Prod.fst = some (.ok 0) ∧
        RunEnds (step standardInput) fs [.unlink (.fromRoot "f".toList), .close 0] fun fs₂ =>
          fs₂.mem.nodeAt 3 = none) ∧
      fs.mem.getSlot (.fromRoot "f".toList) = some (.ok 2) ∧
      fs.mem.getSlot (.fromRoot "g".toList) = some (.ok 3) ∧
      (fs.mem.nodeAt 3).map MemNode.nodedata = some 2 ∧
      2 ∉ fs.mem.arrivals rootSlot (AbsolutePath.path (.fromRoot "g".toList)) := by decide
  obtain ⟨fs, hfs, ⟨hok, fs₂, hrun, hgone⟩, hf, hg, hdata, hnot⟩ := hends
  obtain ⟨⟨r, fs₁⟩, hcall, hr⟩ := Option.map_eq_some_iff.mp hok
  cases hr
  refine ⟨fs, hfs, ⟨hg, hdata⟩, fun t ht => ?_, fs₁, hcall, fs₂, ?_, fun hres => ?_⟩
  · rw [hf] at ht
    cases ht
    exact hnot
  · simpa only [runFrom, step, hcall, Option.map_some, Option.bind_some] using hrun
  · have hnode := hres.2
    rw [hgone] at hnode
    cases hnode

end FileSystem

end Zrt.Fs
