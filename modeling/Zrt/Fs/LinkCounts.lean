import Zrt.Fs.MemRename

/-!
# Link counts of the in-memory mount

The counter of a `MemData` is meant to be the number of its nodes plus, for a directory, the number of
directories entered in it, and the data is meant to live as long as a node has it. Making nodes keeps
this, and so does the removal of a file. `Rmdir` takes the link of the directory from its parent;
`UnlinkInternal` does not, and lets a directory go that still has an entry of its own.
-/

namespace Zrt.Fs

open Zrt.Framework

namespace MemMount

/-! ## Counted states -/

/-- Every counter is right, and data lives exactly as long as a node has it. -/
structure LinksCounted (m : MemMount) : Prop where
  links : ∀ i d, m.getData i = some d → d.nlink = m.nodesOf i + m.subdirs d
  live : ∀ i, i ≠ 0 → ((m.getData i).isSome ↔ 0 < m.nodesOf i)

structure Counted (m : MemMount) : Prop where
  sound : m.Sound
  links : ∀ i d, m.getData i = some d → d.nlink = m.nodesOf i + m.subdirs d
  held : ∀ i d, m.getData i = some d → 0 < m.nodesOf i
  entries : ∀ i d, m.getData i = some d → d.children.Nodup

/-- The directory of the recorded parent has the entry. -/
def enteredInParent (m : MemMount) (slot : Nat) : Bool :=
  (m.nodeAt slot).any fun n =>
    (m.dataAt n.parent).any fun pd => pd.isDir && decide (slot ∈ pd.children)

/-- Another node has the same data. -/
def hasOtherName (m : MemMount) (slot : Nat) : Bool :=
  (m.nodeAt slot).any fun n => decide (2 ≤ m.nodesOf n.nodedata)

/-- A removal after which the counters are still right. -/
def keepsCounts (m : MemMount) : Removal → Bool
  | .remove slot => m.listedByParent slot &&
      (!m.dirAt slot || (!m.enteredInParent slot && m.hasOtherName slot))
  | .hide _ => true
  | .rmdir slot => m.listedByParent slot &&
      (m.dataAt slot).all fun d => d.wantUnlink || decide (m.subdirs d = 0) || m.hasOtherName slot

section Counted

variable {m m' : MemMount} {slot i : Nat} {n : MemNode} {d d' : MemData}

theorem exists_node_of_nodesOf (h : 0 < m.nodesOf i) :
    ∃ s n, m.nodeAt s = some n ∧ n.nodedata = i := by
  obtain ⟨n, hn, hi⟩ := holders_pos_iff.mp h
  obtain ⟨s, hs⟩ := List.mem_iff_getElem?.mp hn
  refine ⟨s, n, ?_, Option.some.inj hi⟩
  rw [nodeAt, List.getD_eq_getElem?_getD, hs, Option.getD_some]

private theorem Counted.linksCounted (h : m.Counted) : m.LinksCounted where
  links := h.links
  live := by
    intro i hi
    constructor
    · intro hsome
      obtain ⟨d, hd⟩ := Option.isSome_iff_exists.mp hsome
      exact h.held i d hd
    · intro hpos
      obtain ⟨s, n, hn, rfl⟩ := exists_node_of_nodesOf hpos
      have hs : s ≠ 0 := by
        rintro rfl
        obtain ⟨n₀, hn₀, hzero⟩ := h.sound.grounded.zero
        rw [hn] at hn₀
        cases hn₀
        exact hi hzero
      obtain ⟨d, hd⟩ := h.sound.exists_data hs hn
      rw [hd]
      rfl

private theorem Shrinks.dirAt_eq (hs : Shrinks m m') (h' : m'.Sound) (hslot : slot ≠ 0)
    (hn : (m'.nodeAt slot).isSome) : m'.dirAt slot = m.dirAt slot := by
  rw [Bool.eq_iff_iff]
  constructor
  · exact hs.dirAt
  · intro hdir
    obtain ⟨n', hn'⟩ := Option.isSome_iff_exists.mp hn
    obtain ⟨d', hd'⟩ := h'.exists_data hslot hn'
    obtain ⟨n, hn, hdata, -⟩ := hs.node slot n' hn'
    obtain ⟨d, hd, hsame, -⟩ := hs.data _ d' hd'
    have hleads : m.dirAt slot = d'.isDir := by
      rw [MemMount.dirAt, dataAt_of hn, ← hdata, hd, Option.any_some, hsame]
    rw [MemMount.dirAt, dataAt_of hn', hd', Option.any_some, ← hleads, hdir]

private theorem Shrinks.subdirs_eq (hs : Shrinks m m') (h' : m'.Sound) (hd' : m'.getData i = some d')
    (hpos : 0 < m'.nodesOf i) : m'.subdirs d' = m.subdirs d' := by
  obtain ⟨s, n', hn', rfl⟩ := exists_node_of_nodesOf hpos
  unfold subdirs
  split
  · rename_i hdir
    apply List.countP_congr
    intro c hc
    obtain ⟨hc0, -, hsome⟩ := h'.children s n' d' hn' hd' hdir c hc
    rw [hs.dirAt_eq h' hc0 hsome]
  · rfl

theorem Counted.of_shrinks (h : m.Counted) (hs : Shrinks m m') (h' : m'.Sound)
    (hkept : ∀ i d d', m.getData i = some d → m'.getData i = some d' →
      0 < m'.nodesOf i ∧ d'.nlink = m'.nodesOf i + m.subdirs d') : m'.Counted where
  sound := h'
  links := by
    intro i d' hd'
    obtain ⟨d, hd, -⟩ := hs.data i d' hd'
    obtain ⟨hpos, hlinks⟩ := hkept i d d' hd hd'
    rw [hs.subdirs_eq h' hd' hpos, hlinks]
  held := by
    intro i d' hd'
    obtain ⟨d, hd, -⟩ := hs.data i d' hd'
    exact (hkept i d d' hd hd').1
  entries := by
    intro i d' hd'
    obtain ⟨d, hd, -, hsub⟩ := hs.data i d' hd'
    exact hsub.nodup (h.entries i d hd)

private theorem shrinks_updateData {id : Nat} {f : MemData → MemData} (hf : Inert f) :
    Shrinks m (m.updateData id f) where
  node := fun t n' hn' => ⟨n', hn', rfl, rfl, Or.inl rfl⟩
  data := by
    intro i d' hd'
    obtain ⟨d, hd, hdir, -, -, hchildren⟩ := hf.backward hd'
    exact ⟨d, hd, hdir, by rw [hchildren]⟩

theorem subdirs_congr (hdir : d'.isDir = d.isDir) (hchildren : d'.children = d.children) :
    m.subdirs d' = m.subdirs d := by
  rw [subdirs, subdirs, hdir, hchildren]

private theorem Counted.updateData (h : m.Counted) {id : Nat} {f : MemData → MemData} (hf : Inert f) :
    (m.updateData id f).Counted := by
  apply h.of_shrinks (shrinks_updateData hf) (h.sound.updateData hf)
  intro i d d' hd hd'
  obtain ⟨d₀, hd₀, hdir, hnlink, -, hchildren⟩ := hf.backward hd'
  rw [hd] at hd₀
  cases hd₀
  refine ⟨h.held i d hd, ?_⟩
  rw [subdirs_congr hdir hchildren, hnlink]
  exact h.links i d hd

private theorem Counted.hideNode (h : m.Counted) (hh : m.Hideable slot n d) : (m.hideNode slot).Counted := by
  apply h.of_shrinks (shrinks_hideNode hh.node) (h.sound.hideNode hh)
  intro i b b' hb hb'
  obtain ⟨b₀, hb₀, hdir, hnlink, hchildren, -⟩ := backward_hideNode hh.node hb'
  rw [hb] at hb₀
  cases hb₀
  rw [nodesOf_hideNode hh.node]
  refine ⟨h.held i b hb, ?_⟩
  rw [subdirs_congr hdir hchildren, hnlink]
  exact h.links i b hb

/-! ## Entries that go -/

private theorem countP_eq_filter_ne {p : Nat → Bool} {cs : List Nat} (hcs : cs.Nodup) :
    cs.countP p =
      (cs.filter (· ≠ slot)).countP p + if slot ∈ cs ∧ p slot = true then 1 else 0 := by
  have herase : cs.filter (· ≠ slot) = cs.erase slot := by
    rw [hcs.erase_eq_filter]
    apply List.filter_congr
    intro c _
    by_cases hc : c = slot <;> simp [hc]
  rw [herase, List.countP_erase]
  split
  · rename_i hmem
    have hpos : 0 < cs.countP p := List.countP_pos_iff.mpr ⟨slot, hmem⟩
    omega
  · rfl

theorem subdirs_filtered (hcs : d.children.Nodup) (hdir : d'.isDir = d.isDir) {p : Prop}
    [Decidable p] (hchildren : d'.children =
      if p ∧ d.isDir = true then d.children.filter (· ≠ slot) else d.children) :
    m.subdirs d = m.subdirs d' + if p ∧ d.isDir = true ∧ slot ∈ d.children ∧ m.dirAt slot = true
      then 1 else 0 := by
  unfold subdirs
  rw [hdir, hchildren]
  by_cases hd : d.isDir = true
  · by_cases hp : p
    · simp only [hd, hp, and_self, if_true, true_and]
      exact countP_eq_filter_ne hcs
    · simp [hd, hp]
  · simp [hd]

private theorem enteredInParent_iff (hn : m.nodeAt slot = some n) (hd : m.getData i = some d)
    (hp : m.parentData n = some i) :
    m.enteredInParent slot = true ↔ d.isDir = true ∧ slot ∈ d.children := by
  obtain ⟨pn, hpn, rfl⟩ := Option.map_eq_some_iff.mp hp
  rw [enteredInParent, hn, Option.any_some, dataAt_of hpn, hd, Option.any_some, Bool.and_eq_true,
    decide_eq_true_eq]

private theorem Counted.removeNode (h : m.Counted) (hr : m.Removable slot n d)
    (hok : m.keepsCounts (.remove slot) = true) : (m.removeNode slot).Counted := by
  have hlisted : m.listedByParent slot = true := (Bool.and_eq_true_iff.mp hok).1
  have hdirAt : m.dirAt slot = d.isDir := by
    rw [dirAt, dataAt_of hr.node, hr.data, Option.any_some]
  have hguard : d.isDir = true → m.enteredInParent slot = false ∧ 2 ≤ m.nodesOf n.nodedata := by
    intro hdir
    have hright := (Bool.and_eq_true_iff.mp hok).2
    rw [hdirAt, hdir, hasOtherName, hr.node] at hright
    simpa using hright
  apply h.of_shrinks (shrinks_removeNode hr.node) (h.sound.removeNode hr hlisted)
  intro i b b' hb hb'
  obtain ⟨b₀, hb₀, hdir, -, hnlink, htwo, hchildren⟩ := backward_removeNode hr.node hb'
  rw [hb] at hb₀
  cases hb₀
  have hnodes := nodesOf_removeNode hr.node i
  have hheld := h.held i b hb
  have hlinks := h.links i b hb
  -- a directory is entered in no list that is filtered
  have hsub : m.subdirs b = m.subdirs b' := by
    rw [subdirs_filtered (h.entries i b hb) hdir hchildren, if_neg, Nat.add_zero]
    intro hcase
    obtain ⟨hp, hbdir, hmem, hd⟩ := hcase
    rw [hdirAt] at hd
    have hin := (enteredInParent_iff hr.node hb hp).mpr ⟨hbdir, hmem⟩
    rw [(hguard hd).1] at hin
    cases hin
  by_cases hi : i = n.nodedata
  · rw [if_pos hi] at hnlink
    rw [if_pos hi.symm] at hnodes
    have hlow := htwo hi
    have hother : 2 ≤ m.nodesOf i := by
      subst hi
      rw [hr.data] at hb
      cases hb
      by_cases hd : d.isDir = true
      · exact (hguard hd).2
      · rw [subdirs, if_neg hd] at hlinks
        omega
    exact ⟨by omega, by omega⟩
  · rw [if_neg hi] at hnlink
    rw [if_neg (Ne.symm hi)] at hnodes
    exact ⟨by omega, by omega⟩

private theorem DirRemovable.two_le_nlink (hr : m.DirRemovable slot n d) (hw : d.wantUnlink = false)
    (hd' : (m.removeDir slot).getData n.nodedata = some d') : 2 ≤ d.nlink := by
  rw [getData_removeDir hr.node hr.data, if_pos ⟨rfl, hw⟩, hr.data, Option.map_some,
    Option.bind_some] at hd'
  apply Nat.le_trans (dropLink_eq_some hd').2
  unfold dropEntry
  split
  · split
    · exact Nat.sub_le _ _
    · exact Nat.sub_le _ _
  · exact Nat.le_refl _

private theorem Counted.removeDir (h : m.Counted) (hr : m.DirRemovable slot n d)
    (hok : m.keepsCounts (.rmdir slot) = true) : (m.removeDir slot).Counted := by
  obtain ⟨hlisted, hguard⟩ := Bool.and_eq_true_iff.mp hok
  rw [dataAt_of hr.node, hr.data, Option.all_some, hasOtherName, hr.node, Option.any_some] at hguard
  simp only [Bool.or_eq_true, decide_eq_true_eq] at hguard
  apply h.of_shrinks hr.shrinks (h.sound.removeDir hr hlisted)
  intro i b b' hb hb'
  obtain ⟨b₀, hb₀, hdir, -, hnlink, hchildren⟩ := backward_removeDir hr.node hr.data hb'
  rw [hb] at hb₀
  cases hb₀
  have hnodes := nodesOf_removeDir hr.node hr.data i
  have hheld := h.held i b hb
  have hlinks := h.links i b hb
  -- the parent loses one entry and one link
  have hsub : m.subdirs b = m.subdirs b' + if m.parentData n = some i then 1 else 0 := by
    rw [subdirs_filtered (h.entries i b hb) hdir hchildren]
    congr 1
    by_cases hp : m.parentData n = some i
    · obtain ⟨hbdir, hmem⟩ := hr.mem_parent hlisted hb hp
      rw [if_pos ⟨hp, hbdir, hmem, hr.dirAt⟩, if_pos hp]
    · rw [if_neg (fun hcase => hp hcase.1), if_neg hp]
  by_cases hi : i = n.nodedata ∧ d.wantUnlink = false
  · rw [if_pos hi] at hnlink
    rw [if_pos ⟨hi.1.symm, hi.2⟩] at hnodes
    have hother : 2 ≤ m.nodesOf i := by
      obtain ⟨rfl, hw⟩ := hi
      rw [hr.data] at hb
      cases hb
      have hlow := hr.two_le_nlink hw hb'
      rcases hguard with (hw' | hnone) | htwo
      · rw [hw] at hw'
        cases hw'
      · omega
      · exact htwo
    exact ⟨by omega, by omega⟩
  · rw [if_neg hi] at hnlink
    rw [if_neg (fun hcase => hi ⟨hcase.1.symm, hcase.2⟩)] at hnodes
    exact ⟨by omega, by omega⟩

section Enter

variable {parent mode : Nat} {name : Text} {isDir : Bool} {hardlink : Option Nat} {pn : MemNode}
  {pd : MemData}

private theorem Sound.dirAt_enterNode_eq (h : m.Sound) (he : m.Enterable parent name isDir hardlink pn pd)
    {s : Nat} {sn : MemNode} (hs : s ≠ 0) (hsn : m.nodeAt s = some sn) :
    (m.enterNode parent name isDir mode hardlink).dirAt s = m.dirAt s := by
  obtain ⟨b, hb⟩ := h.exists_data hs hsn
  obtain ⟨d', hd'⟩ := he.forward (m := m) hb
  rw [dirAt, dirAt, dataAt_of (nodeAt_enterNode_of_some hsn), hd', dataAt_of hsn, hb,
    Option.any_some, Option.any_some]
  rcases he.backward hd' with ⟨b₀, hb₀, hdir, -⟩ | ⟨-, hlen, -⟩
  · rw [hb] at hb₀
    cases hb₀
    exact hdir
  · exact absurd hlen (Nat.ne_of_lt (lt_heap_length hb))

private theorem Sound.dirAt_newSlot_eq (h : m.Sound) (he : m.Enterable parent name isDir hardlink pn pd) :
    (m.enterNode parent name isDir mode hardlink).dirAt
      (m.newSlot parent name isDir mode hardlink) = isDir := by
  have hnew := nodeAt_newSlot m parent name isDir mode hardlink
  obtain ⟨d', hd'⟩ := (h.enterNode he).exists_data (h.newSlot_ne _ _ _ _ _).1 hnew
  rw [dirAt, dataAt_of hnew, hd', Option.any_some]
  exact he.isDir_newData hd'

private theorem Counted.links_enterNode (h : m.Counted) (he : m.Enterable parent name isDir hardlink pn pd)
    (hd : m.getData i = some d) (hdir : d'.isDir = d.isDir)
    (hnlink : d'.nlink = d.nlink + (if hardlink = some i then 1 else 0) +
      (if i = pn.nodedata ∧ isDir = true then 1 else 0))
    (hchildren : d'.children = if i = pn.nodedata then
      d.children ++ [m.newSlot parent name isDir mode hardlink] else d.children) :
    d'.nlink = (m.enterNode parent name isDir mode hardlink).nodesOf i +
      (m.enterNode parent name isDir mode hardlink).subdirs d' := by
  obtain ⟨s, sn, hsn, rfl⟩ := exists_node_of_nodesOf (h.held i d hd)
  have hold : d.isDir = true → d.children.countP (m.enterNode parent name isDir mode hardlink).dirAt =
      d.children.countP m.dirAt := by
    intro hddir
    apply List.countP_congr
    intro c hc
    obtain ⟨hc0, -, hsome⟩ := h.sound.children s sn d hsn hd hddir c hc
    obtain ⟨cn, hcn⟩ := Option.isSome_iff_exists.mp hsome
    rw [h.sound.dirAt_enterNode_eq he hc0 hcn]
  have hsub : (m.enterNode parent name isDir mode hardlink).subdirs d' =
      m.subdirs d + if sn.nodedata = pn.nodedata ∧ isDir = true then 1 else 0 := by
    by_cases hp : sn.nodedata = pn.nodedata
    · have hddir : d.isDir = true := by
        rw [hp, he.data] at hd
        cases hd
        exact he.dir
      rw [subdirs, subdirs, if_pos (hdir.trans hddir), if_pos hddir, hchildren, if_pos hp,
        List.countP_append, List.countP_singleton, hold hddir, h.sound.dirAt_newSlot_eq he]
      simp [hp]
    · rw [if_neg (fun hcase => hp hcase.1), Nat.add_zero, subdirs, subdirs, hdir, hchildren,
        if_neg hp]
      split
      · rename_i hddir
        exact hold hddir
      · rfl
  rw [nodesOf_enterNode, if_congr (newData_eq_iff hd) rfl rfl, hsub, hnlink, h.links _ d hd]
  omega

private theorem Counted.enterNode (h : m.Counted) (he : m.Enterable parent name isDir hardlink pn pd) :
    (m.enterNode parent name isDir mode hardlink).Counted where
  sound := h.sound.enterNode he
  links := by
    intro i d' hd'
    rcases he.backward hd' with ⟨d, hd, hdir, -, hnlink, hchildren⟩ | ⟨rfl, rfl, -, hnil, hone, -⟩
    · exact h.links_enterNode he hd hdir hnlink hchildren
    · rw [hone, nodesOf_enterNode, subdirs, hnil, h.sound.nodesOf_heap_length]
      simp [newData]
  held := by
    intro i d' hd'
    rw [nodesOf_enterNode]
    rcases he.backward hd' with ⟨d, hd, -⟩ | ⟨rfl, rfl, -⟩
    · exact Nat.lt_of_lt_of_le (h.held i d hd) (Nat.le_add_right _ _)
    · simp [newData]
  entries := by
    intro i d' hd'
    rcases he.backward hd' with ⟨d, hd, hdir, -, -, hchildren⟩ | ⟨-, -, -, hnil, -⟩
    · rw [hchildren]
      split
      · rename_i hp
        obtain ⟨s, sn, hsn, rfl⟩ := exists_node_of_nodesOf (h.held i d hd)
        have hddir : d.isDir = true := by
          rw [hp, he.data] at hd
          cases hd
          exact he.dir
        rw [List.nodup_append]
        refine ⟨h.entries _ d hd, List.nodup_singleton _, ?_⟩
        intro c hc c' hc' heq
        rw [List.mem_singleton.mp hc'] at heq
        rw [heq] at hc
        exact h.sound.newSlot_not_listed hsn hd hddir hc
      · exact h.entries i d hd
    · rw [hnil]
      exact List.nodup_nil

end Enter

private theorem change_counted (h : m.Counted) (hc : Change (fun m r => m.keepsCounts r = true) m m') :
    m'.Counted := by
  cases hc with
  | touch hf => exact h.updateData hf
  | enter he => exact h.enterNode he
  | remove hr hok => exact h.removeNode hr hok
  | hide hh _ => exact h.hideNode hh
  | rmdir hr hok => exact h.removeDir hr hok

private theorem counted_fresh : fresh.Counted where
  sound := sound_fresh
  links := by
    intro i d hd
    obtain ⟨rfl, rfl⟩ := getData_fresh hd
    decide
  held := by
    intro i d hd
    obtain ⟨rfl, rfl⟩ := getData_fresh hd
    decide
  entries := by
    intro i d hd
    obtain ⟨rfl, rfl⟩ := getData_fresh hd
    exact List.nodup_nil

end Counted

end MemMount

/-! ## Runs -/

namespace FileSystem

open MemMount

/-- Every removal of the call keeps the counters right. -/
def KeepsCounts (fs : FileSystem) (c : FsCall) : Prop :=
  ∀ x ∈ fs.removals c, x.1.keepsCounts x.2 = true

instance (fs : FileSystem) (c : FsCall) : Decidable (fs.KeepsCounts c) :=
  List.decidableBAll (fun x : MemMount × Removal => x.1.keepsCounts x.2 = true) (fs.removals c)

private theorem step_counted {ch : Channels} {fs fs' : FileSystem} {c : FsCall} (h : fs.mem.Counted)
    (hguard : fs.KeepsCounts c) (hstep : step ch fs c = some fs') : fs'.mem.Counted := by
  obtain ⟨⟨r, fs₁⟩, hcall, rfl⟩ := Option.map_eq_some_iff.mp hstep
  have hev : Evolves (fun m r => m.keepsCounts r = true) fs.mem fs₁.mem :=
    call_evolves h.sound.grounded.rootOutside hcall hguard
  exact hev.preserves Counted (fun _ _ hm hc => change_counted hm hc) h

/-- In every state of a run whose removals keep the counters right, the counters are right. -/
theorem run_linksCounted (ch : Channels) (calls : List FsCall) (fs : FileSystem)
    (hguard : Guarded (step ch) KeepsCounts start calls)
    (hrun : runFrom (step ch) start calls = some fs) : fs.mem.LinksCounted :=
  (runFrom_invariant (fun _ _ _ => step_counted) calls start fs counted_fresh hguard
    hrun).linksCounted

/-- A tree with a second name of a file and of an emptied directory, taken down again. -/
def linkedTreeCalls : List FsCall :=
  [.mkdir (.fromRoot "a".toList) 0o700, .mkdir (.fromRoot "a/b".toList) 0o700,
    .memOpen (.fromRoot "f".toList) { creat := true, rdwr := true } 0o600,
    .link (.fromRoot "f".toList) (.fromRoot "a/g".toList), .unlink (.fromRoot "f".toList), .close 0,
    .rename (.fromRoot "a/g".toList) (.fromRoot "h".toList), .rmdir (.fromRoot "a/b".toList),
    .rmdir (.fromRoot "a".toList)]

theorem run_linksCounted_linkedTree :
    RunEnds (step standardInput) start linkedTreeCalls fun fs => fs.mem.LinksCounted := by
  have hguard : Guarded (step standardInput) KeepsCounts start linkedTreeCalls := by decide
  have hsome : (runFrom (step standardInput) start linkedTreeCalls).isSome := by decide
  obtain ⟨fs, hfs⟩ := Option.isSome_iff_exists.mp hsome
  exact ⟨fs, hfs, run_linksCounted standardInput linkedTreeCalls fs hguard hfs⟩

/-- After a directory has been renamed, its parent counts it twice. -/
theorem rename_miscounts :
    RunEnds (step standardInput) start
        [.mkdir (.fromRoot "a".toList) 0o700,
          .rename (.fromRoot "a".toList) (.fromRoot "b".toList)] fun fs =>
      ¬fs.mem.LinksCounted := by
  have hends : RunEnds (step standardInput) start
        [.mkdir (.fromRoot "a".toList) 0o700,
          .rename (.fromRoot "a".toList) (.fromRoot "b".toList)] fun fs =>
      (fs.mem.getData 1).map (fun d => (d.nlink, fs.mem.nodesOf 1 + fs.mem.subdirs d)) =
        some (3, 2) := by decide
  obtain ⟨fs, hfs, hdata⟩ := hends
  refine ⟨fs, hfs, fun hcounted => ?_⟩
  obtain ⟨d, hd, hpair⟩ := Option.map_eq_some_iff.mp hdata
  obtain ⟨hnlink, hcount⟩ := Prod.mk.inj hpair
  have hlinks := hcounted.links 1 d hd
  omega

end FileSystem

end Zrt.Fs
