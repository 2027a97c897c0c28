import Zrt.Fs.MemRename
import Zrt.Fs.PathSpelling

/-!
# Unlinking a directory

`UnlinkInternal` lets a directory go when its counter is at least two. The counter is also that of the
directories entered in it, so that a directory with a single name and a subdirectory goes, and all below
it is lost. What the removal of an entry leaves reachable is what was reachable beside it.
-/

namespace Zrt.Fs

open Zrt.Framework

namespace MemMount

variable {m m' : MemMount} {p : AbsolutePath} {slot s t id : Nat} {n : MemNode}

/-! ## What should hold -/

/-- All that is found below the path can be found by some path afterwards. -/
def KeepsBelow (m m' : MemMount) (p : AbsolutePath) : Prop :=
  ∀ (b : AbsolutePath) (i : Nat), p.path <+: b.path → m.memDataOf b = some i →
    ∃ q, m'.memDataOf q = some i

/-- Unlinking the directory either fails and changes nothing, or leaves another entry for its data that
a path leads to. -/
def UnlinkKeeps (m : MemMount) (p : AbsolutePath) (slot id : Nat) : Prop :=
  ∃ r m', m.unlink p = some (r, m') ∧
    match r with
    | .ok _ => (∃ q s, m'.ResolvesTo q s id ∧ s ≠ slot) ∧ KeepsBelow m m' p
    | .error _ => m' = m

/-- A path leads to another entry for the data and does not arrive at this one. -/
def ReachedBeside (m : MemMount) (slot id : Nat) : Prop :=
  ∃ q s, m.ResolvesTo q s id ∧ s ≠ slot ∧ slot ∉ m.arrivals rootSlot q.path

/-- `UnlinkInternal` would only hide the node. -/
def deferred (m : MemMount) (slot : Nat) : Bool :=
  (m.dataAt slot).any fun d => decide (d.useCount ≠ 0) && !d.wantUnlink

/-! ## Ways around a node -/

private theorem exists_split_of_arrival {names : List Text} {x : Nat} (hx : x ∈ m.arrivals s names) :
    ∃ pre post, names = pre ++ post ∧ pre ≠ [] ∧ m.walk s pre = some (.ok x) := by
  induction names generalizing s with
  | nil => cases hx
  | cons name rest ih =>
      rw [arrivals] at hx
      split at hx
      · rename_i t ht
        rcases List.mem_cons.mp hx with rfl | hx
        · exact ⟨[name], rest, rfl, by simp, ht⟩
        · obtain ⟨pre, post, rfl, -, hpre⟩ := ih hx
          refine ⟨name :: pre, post, rfl, by simp, ?_⟩
          rw [walk_cons, ht]
          exact hpre
      · cases hx

/-- Nodes of the same data have the same entries. -/
theorem walk_of_same_data {a b : MemNode} (hs : m.nodeAt s = some a) (ht : m.nodeAt t = some b)
    (hdata : a.nodedata = b.nodedata) {names : List Text} (hne : names ≠ []) :
    m.walk s names = m.walk t names ∧ m.arrivals s names = m.arrivals t names := by
  obtain ⟨name, rest, rfl⟩ := List.exists_cons_of_ne_nil hne
  have hstep : m.walk s [name] = m.walk t [name] := by
    rw [walk, walk, dataAt_of hs, dataAt_of ht, hdata]
  constructor
  · rw [walk_cons, hstep, ← walk_cons]
  · rw [arrivals, arrivals, hstep]

private theorem ReachedBeside.detour (hb : m.ReachedBeside slot n.nodedata) (hn : m.nodeAt slot = some n)
    (rest : List Text) (hrest : Proper rest) {tn : MemNode} (hwalk : m.walk slot rest = some (.ok t))
    (htn : m.nodeAt t = some tn) : m.ReachedBeside slot tn.nodedata := by
  induction hlen : rest.length using Nat.strongRecOn generalizing rest with
  | _ k ih =>
      by_cases hmem : slot ∈ m.arrivals slot rest
      · obtain ⟨pre, post, rfl, hpre, hback⟩ := exists_split_of_arrival hmem
        rw [walk_append, hback, Option.bind_some] at hwalk
        have hshort : post.length < k := by
          have hpos := List.length_pos_iff.mpr hpre
          rw [List.length_append] at hlen
          omega
        exact ih post.length hshort post (fun c hc => hrest c (List.mem_append_right _ hc)) hwalk rfl
      · by_cases hnil : rest = []
        · subst hnil
          cases hwalk
          rw [hn] at htn
          cases htn
          exact hb
        · obtain ⟨q, s, ⟨hq, hid⟩, hs, hbeside⟩ := hb
          obtain ⟨sn, hsn, hsame⟩ := Option.map_eq_some_iff.mp hid
          obtain ⟨hwalks, harrivals⟩ := walk_of_same_data hsn hn hsame hnil
          have hproper : Proper (q.path ++ rest) := by
            intro c hc
            rcases List.mem_append.mp hc with hc | hc
            · exact proper_pathCollapse _ c hc
            · exact hrest c hc
          have hpath : (AbsolutePath.mk (render (q.path ++ rest)) (render_head _)).path =
              q.path ++ rest := by
            rw [AbsolutePath.path, components_render hproper.name,
              pathCollapse_of_no_dots fun c hc => (hproper c hc).2.2]
          have hqwalk : m.walk rootSlot q.path = some (.ok s) := hq
          refine ⟨⟨render (q.path ++ rest), render_head _⟩, t, ⟨?_, by rw [htn]; rfl⟩, ?_, ?_⟩
          · rw [getSlot, hpath, walk_append, hqwalk, Option.bind_some]
            exact hwalks.trans hwalk
          · rcases mem_arrivals_of_walk (hwalks.trans hwalk) with rfl | ht
            · exact hs
            · rw [harrivals] at ht
              exact fun he => hmem (he ▸ ht)
          · rw [hpath, arrivals_append hqwalk, List.mem_append, not_or, harrivals]
            exact ⟨hbeside, hmem⟩

/-! ## An entry that is gone -/

/-- Paths lead where they did unless they arrive at the node, and then they lead nowhere. -/
structure Detached (m m' : MemMount) (slot : Nat) : Prop where
  beside : ∀ q : AbsolutePath, slot ∉ m.arrivals rootSlot q.path → m'.getSlot q = m.getSlot q
  gone : ∀ (q : AbsolutePath) (s : Nat), m'.getSlot q = some (.ok s) →
    slot ∉ m.arrivals rootSlot q.path
  node : ∀ t, t ≠ slot → (m'.nodeAt t).map MemNode.nodedata = (m.nodeAt t).map MemNode.nodedata

theorem Detached.reachedBeside_iff (hd : Detached m m' slot) :
    (∃ q s, m'.ResolvesTo q s id ∧ s ≠ slot) ↔ m.ReachedBeside slot id := by
  constructor
  · intro h
    obtain ⟨q, s, ⟨hq, hid⟩, hs⟩ := h
    have hnot := hd.gone q s hq
    rw [hd.beside q hnot] at hq
    rw [hd.node s hs] at hid
    exact ⟨q, s, ⟨hq, hid⟩, hs, hnot⟩
  · intro h
    obtain ⟨q, s, ⟨hq, hid⟩, hs, hnot⟩ := h
    exact ⟨q, s, ⟨(hd.beside q hnot).trans hq, (hd.node s hs).trans hid⟩, hs⟩

private theorem ResolvesTo.memDataOf (h : m.ResolvesTo p s id) : m.memDataOf p = some id := by
  obtain ⟨n, hn, hid⟩ := Option.map_eq_some_iff.mp h.2
  exact memDataOf_eq_some.mpr ⟨s, n, h.1, hn, hid⟩

private theorem Detached.keepsBelow (hd : Detached m m' slot) (hres : m.ResolvesTo p slot id)
    (hb : m.ReachedBeside slot id) : KeepsBelow m m' p := by
  intro b i hprefix hdata
  obtain ⟨rest, hrest⟩ := hprefix
  obtain ⟨t, tn, ht, htn, rfl⟩ := memDataOf_eq_some.mp hdata
  obtain ⟨n, hn, rfl⟩ := Option.map_eq_some_iff.mp hres.2
  have hproper : Proper rest := by
    intro c hc
    have hmem : c ∈ b.path := by
      rw [← hrest]
      exact List.mem_append_right p.path hc
    exact proper_pathCollapse b.text c hmem
  have hwalk : m.walk slot rest = some (.ok t) := by
    have hp : m.walk rootSlot p.path = some (.ok slot) := hres.1
    rw [getSlot, ← hrest, walk_append, hp, Option.bind_some] at ht
    exact ht
  obtain ⟨q, s, hq, -⟩ := hd.reachedBeside_iff.mpr (hb.detour hn rest hproper hwalk htn)
  exact ⟨q, hq.memDataOf⟩

private theorem Vanishes.detached (hv : Vanishes m m' slot) (h : m.Sound) (hroot : slot ≠ rootSlot) :
    Detached m m' slot := by
  obtain ⟨rn, hrn, -⟩ := h.grounded.root
  have hslash : ∀ (path : AbsolutePath), ∀ name ∈ path.path, '/' ∉ name :=
    fun path name hname => AbsolutePath.slash_not_mem_of_mem_path hname
  constructor
  · intro q hnot
    exact hv.walk_other h (by decide) hrn (Ne.symm hroot) (hslash q) hnot
  · intro q s hq hmem
    rw [getSlot, hv.walk_gone h (by decide) hrn (Ne.symm hroot) (hslash q) hmem] at hq
    cases hq
  · intro t ht
    cases htn : m.nodeAt t with
    | some tn => rw [hv.node t tn ht htn]
    | none =>
        cases htn' : m'.nodeAt t with
        | none => rfl
        | some tn' =>
            obtain ⟨tn, hold, -⟩ := hv.shrinks.node t tn' htn'
            rw [htn] at hold
            cases hold

private theorem Sound.detached_root {d : MemData} (h : m.Sound) (hh : m.Hideable rootSlot n d) :
    Detached m (m.hideNode rootSlot) rootSlot := by
  obtain ⟨rn, hrn, -⟩ := h.grounded.root
  have hnot : ∀ q : AbsolutePath, rootSlot ∉ m.arrivals rootSlot q.path :=
    fun q hmem => (h.mem_arrivals (by decide) hrn hmem).2.1 rfl
  constructor
  · intro q _
    apply walk_congr
    intro l hl
    obtain ⟨-, -, hname, -, hall⟩ := h.mem_lookups (by decide) hrn hl
    apply lookup_hideNode hh.node (ne_deletedName (AbsolutePath.slash_not_mem_of_mem_path hname))
    exact fun hfound => hnot q (hall rootSlot hfound)
  · exact fun q _ _ => hnot q
  · intro t ht
    rw [nodeAt_hideNode hh.node, if_neg ht]

/-! ## Unlinking -/

private theorem unlinkInternal_refused {d : MemData} (hn : m.nodeAt slot = some n)
    (hd : m.getData n.nodedata = some d) (hu : m.unlinkable slot = false) :
    ∃ e, m.unlinkInternal slot = some (.error e, m) := by
  simp only [unlinkable, hn, dataAt_of hn, hd, Bool.and_eq_false_iff, Bool.or_eq_false_iff,
    Bool.not_eq_false', Bool.and_eq_true, decide_eq_true_eq] at hu
  simp only [unlinkInternal, hn, hd, Option.bind_some]
  rcases hu with ⟨hparent, hw⟩ | ⟨hdir, hlinks⟩
  · rw [if_pos ⟨by simpa using hparent, hw⟩]
    exact ⟨_, rfl⟩
  · split
    · exact ⟨_, rfl⟩
    · rw [if_pos ⟨hdir, hlinks⟩]
      exact ⟨_, rfl⟩

/-- Any other node goes. The root can only be hidden; to remove it, data that is not there would have to
be read. -/
private theorem Sound.unlinkInternal_removes {d : MemData} (h : m.Sound) (hs : slot ≠ 0)
    (hn : m.nodeAt slot = some n) (hd : m.getData n.nodedata = some d)
    (hu : m.unlinkable slot = true) :
    ((slot = rootSlot → m.deferred slot = true) ∧
        ∃ m', m.unlinkInternal slot = some (.ok (), m')) ∨
      (¬(slot = rootSlot → m.deferred slot = true) ∧ m.unlinkInternal slot = none) := by
  simp only [unlinkable, hn, dataAt_of hn, hd, Bool.and_eq_true, Bool.or_eq_true,
    Bool.not_eq_true', Bool.and_eq_false_iff, decide_eq_false_iff_not] at hu
  obtain ⟨hparent, hlinks⟩ := hu
  have hbusy : ¬((m.nodeAt n.parent).isNone = true ∧ d.wantUnlink = false) := by
    rintro ⟨hnone, hw⟩
    rcases hparent with hsome | hw'
    · rw [Option.isNone_iff_eq_none.mp hnone] at hsome
      cases hsome
    · rw [hw] at hw'
      cases hw'
  have hdir : ¬(d.isDir = true ∧ d.nlink < 2) := by
    rintro ⟨hdir, hlt⟩
    rcases hlinks with hfile | hle
    · rw [hdir] at hfile
      cases hfile
    · exact hle hlt
  simp only [unlinkInternal, deferred, hn, dataAt_of hn, hd, Option.bind_some, if_neg hbusy,
    if_neg hdir, Option.any_some, Bool.and_eq_true, decide_eq_true_eq, Bool.not_eq_true']
  by_cases hidle : d.useCount = 0 ∨ d.wantUnlink = true
  · rw [if_pos hidle]
    have hnot : ¬(¬d.useCount = 0 ∧ d.wantUnlink = false) := by
      rintro ⟨hused, hw⟩
      rcases hidle with h0 | hw'
      · exact hused h0
      · rw [hw] at hw'
        cases hw'
    obtain ⟨rn, hrn, hrp⟩ := h.grounded.root
    by_cases hroot : slot = rootSlot
    · rw [hroot, hrn] at hn
      cases hn
      obtain ⟨n₀, hn₀, -⟩ := h.grounded.zero
      rw [hrp, hn₀, h.grounded.dataAt_zero]
      exact Or.inr ⟨fun himp => hnot (himp hroot), rfl⟩
    · refine Or.inl ⟨fun he => absurd he hroot, ?_⟩
      split
      · rename_i hsome
        obtain ⟨pn, hpn⟩ := Option.isSome_iff_exists.mp hsome
        obtain ⟨pd, hpd⟩ := h.exists_data (h.parents slot n hs hroot hn) hpn
        rw [dataAt_of hpn, hpd]
        exact ⟨_, rfl⟩
      · exact ⟨_, rfl⟩
  · rw [if_neg hidle]
    rw [not_or, Bool.not_eq_true] at hidle
    exact Or.inl ⟨fun _ => hidle, _, rfl⟩

private theorem Sound.unlinkInternal_detached (h : m.Sound)
    (hcall : m.unlinkInternal slot = some (.ok (), m'))
    (hlisted : ∀ x ∈ m.unlinkInternalRemovals slot, x.1.keepsListing x.2 = true) :
    Detached m m' slot := by
  by_cases hroot : slot = rootSlot
  · obtain ⟨n, d, -, -, hcases⟩ := unlinkInternal_cases hcall
    rcases hcases with ⟨e, he, -⟩ | ⟨-, hrem, -⟩ | ⟨-, hhide, rfl⟩
    · cases he
    · exact absurd hroot (h.grounded.removable_ne_root hrem)
    · subst hroot
      exact h.detached_root hhide
  · exact (h.unlink_vanishes hcall hlisted).detached h hroot

/-- Unlinking a directory keeps what is below it exactly when the code refuses, or when another entry is
reached beside the removed one. -/
theorem Sound.unlinkKeeps_iff (h : m.Sound) (hres : m.ResolvesTo p slot id)
    (hlisted : ∀ x ∈ m.unlinkRemovals p, x.1.keepsListing x.2 = true) :
    m.UnlinkKeeps p slot id ↔ m.unlinkable slot = false ∨
      ((slot = rootSlot → m.deferred slot = true) ∧ m.ReachedBeside slot id) := by
  obtain ⟨hs, n, hn⟩ := h.getSlot_ok hres.1
  obtain ⟨d, hd⟩ := h.exists_data hs hn
  have hmem := h.getMemNode_iff.mpr hres.1
  have hunlink : m.unlink p = m.unlinkInternal slot := by
    rw [unlink, hmem, Option.bind_some]
  rw [unlinkRemovals, hmem] at hlisted
  unfold UnlinkKeeps
  rw [hunlink]
  cases hu : m.unlinkable slot with
  | false =>
      obtain ⟨e, he⟩ := unlinkInternal_refused hn hd hu
      exact iff_of_true ⟨_, m, he, rfl⟩ (Or.inl rfl)
  | true =>
      rw [or_iff_right (by decide)]
      rcases h.unlinkInternal_removes hs hn hd hu with ⟨hroot, m', hcall⟩ | ⟨hroot, hcall⟩
      · have hdet := h.unlinkInternal_detached hcall hlisted
        rw [hcall]
        constructor
        · intro hkeeps
          obtain ⟨r, m₁, heq, hafter⟩ := hkeeps
          cases heq
          exact ⟨hroot, hdet.reachedBeside_iff.mp hafter.1⟩
        · intro hcond
          exact ⟨.ok (), m', rfl, hdet.reachedBeside_iff.mpr hcond.2, hdet.keepsBelow hres hcond.2⟩
      · rw [hcall]
        apply iff_of_false
        · intro hkeeps
          obtain ⟨r, m₁, heq, -⟩ := hkeeps
          cases heq
        · exact fun hcond => hroot hcond.1

end MemMount

/-! ## Runs -/

namespace FileSystem

open MemMount

/-- The root stays in every run. In a run that frees only nodes listed by their parents, unlinking a
directory keeps what is below it exactly when the code refuses, or when another entry for the directory
is reached beside the removed one. -/
theorem run_unlinkKeeps_iff (ch : Channels) (calls : List FsCall) (fs : FileSystem)
    (hrun : runFrom (step ch) start calls = some fs) :
    (fs.mem.nodeAt rootSlot).isSome ∧
      (Guarded (step ch) KeepsListing start calls →
        ∀ (p : AbsolutePath) (slot id : Nat), fs.mem.ResolvesTo p slot id →
          fs.mem.dirAt slot = true → fs.KeepsListing (.unlink p) →
          (fs.mem.UnlinkKeeps p slot id ↔ fs.mem.unlinkable slot = false ∨
            ((slot = rootSlot → fs.mem.deferred slot = true) ∧ fs.mem.ReachedBeside slot id))) := by
  constructor
  · obtain ⟨n, hn, -⟩ := (run_grounded hrun).root
    rw [hn]
    rfl
  · intro hguard p slot id hres _ hlisted
    exact (run_sound hguard hrun).unlinkKeeps_iff hres hlisted

/-- A directory with a subdirectory and a second name. -/
def secondNameTreeCalls : List FsCall :=
  [.mkdir (.fromRoot "a".toList) 0o700, .mkdir (.fromRoot "a/b".toList) 0o700,
    .link (.fromRoot "a".toList) (.fromRoot "c".toList)]

theorem run_unlinkKeeps_secondName :
    RunEnds (step standardInput) start secondNameTreeCalls fun fs =>
      fs.mem.UnlinkKeeps (.fromRoot "a".toList) 2 2 := by
  have hguard : Guarded (step standardInput) KeepsListing start secondNameTreeCalls := by
    decide
  have hends : RunEnds (step standardInput) start secondNameTreeCalls fun fs =>
      (fs.mem.getSlot (.fromRoot "a".toList) = some (.ok 2) ∧
        (fs.mem.nodeAt 2).map MemNode.nodedata = some 2) ∧
      fs.mem.dirAt 2 = true ∧ fs.KeepsListing (.unlink (.fromRoot "a".toList)) ∧
      (fs.mem.getSlot (.fromRoot "c".toList) = some (.ok 4) ∧
        (fs.mem.nodeAt 4).map MemNode.nodedata = some 2) ∧
      2 ∉ fs.mem.arrivals rootSlot (AbsolutePath.fromRoot "c".toList).path := by decide
  obtain ⟨fs, hfs, hres, hdir, hlisted, hother, hbeside⟩ := hends
  refine ⟨fs, hfs, ?_⟩
  apply ((run_unlinkKeeps_iff standardInput secondNameTreeCalls fs hfs).2 hguard _ 2 2 hres hdir
    hlisted).mpr
  exact Or.inr ⟨fun he => absurd he (by decide), _, 4, hother, by decide, hbeside⟩

/-- A directory with a subdirectory in it has two links by that, and is removed with all that is below. -/
theorem unlink_loses_subtree :
    RunEnds (step standardInput) start
        [.mkdir (.fromRoot "a".toList) 0o700, .mkdir (.fromRoot "a/b".toList) 0o700] fun fs =>
      fs.mem.ResolvesTo (.fromRoot "a".toList) 2 2 ∧ fs.mem.dirAt 2 = true ∧
        ¬fs.mem.UnlinkKeeps (.fromRoot "a".toList) 2 2 := by
  have hguard : Guarded (step standardInput) KeepsListing start
      [.mkdir (.fromRoot "a".toList) 0o700, .mkdir (.fromRoot "a/b".toList) 0o700] := by
    decide
  have hends : RunEnds (step standardInput) start
        [.mkdir (.fromRoot "a".toList) 0o700, .mkdir (.fromRoot "a/b".toList) 0o700] fun fs =>
      (fs.mem.getSlot (.fromRoot "a".toList) = some (.ok 2) ∧
        (fs.mem.nodeAt 2).map MemNode.nodedata = some 2) ∧
      fs.mem.dirAt 2 = true ∧ fs.KeepsListing (.unlink (.fromRoot "a".toList)) ∧
      fs.mem.unlinkable 2 = true ∧ fs.mem.nodesOf 2 = 1 := by decide
  obtain ⟨fs, hfs, hres, hdir, hlisted, hunlinkable, hone⟩ := hends
  refine ⟨fs, hfs, hres, hdir, fun hkeeps => ?_⟩
  rcases ((run_sound hguard hfs).unlinkKeeps_iff hres hlisted).mp hkeeps with hrefused | ⟨-, hbeside⟩
  · rw [hunlinkable] at hrefused
    cases hrefused
  · -- no other node has the data
    obtain ⟨q, s, ⟨-, hs⟩, hne, -⟩ := hbeside
    obtain ⟨n, hn, hid⟩ := Option.map_eq_some_iff.mp hres.2
    obtain ⟨sn, hsn, hsid⟩ := Option.map_eq_some_iff.mp hs
    have htwo := two_le_nodesOf hn hsn hne (hsid.trans hid.symm)
    rw [hid, hone] at htwo
    omega

end FileSystem

end Zrt.Fs
