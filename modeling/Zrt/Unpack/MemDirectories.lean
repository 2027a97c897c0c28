import Zrt.Fs.FailedOpen
import Zrt.Fs.PathSpelling
import Zrt.Unpack.ParsePath

/-!
# The directories of the in-memory mount

The in-memory mount, as the cache of the unpacker sees it. The path of a directory is resolved part
by part, so that every part of it is a directory too.
-/

namespace Zrt.Fs

namespace MemMount

variable {m m' : MemMount} {path : AbsolutePath} {mode : Nat} {cs ds : List Text}

/-- The names lead to a directory. -/
def dirNamed (m : MemMount) (names : List Text) : Bool :=
  match m.walk rootSlot names with
  | some (.ok slot) => m.dirAt slot
  | _ => false

/-- Every part of the path leads to a directory. -/
def resolves (m : MemMount) (cs : List Text) : Bool :=
  cs.inits.all fun pre => m.dirNamed (pathCollapse pre)

theorem resolves_iff :
    m.resolves cs = true ↔ ∀ pre, pre <+: cs → m.dirNamed (pathCollapse pre) = true := by
  simp only [resolves, List.all_eq_true, List.mem_inits]

theorem dirNamed_eq_true {names : List Text} :
    m.dirNamed names = true ↔
      ∃ s d, m.walk rootSlot names = some (.ok s) ∧ m.dataAt s = some d ∧ d.isDir = true := by
  unfold dirNamed
  constructor
  · intro h
    split at h
    · rename_i s hs
      obtain ⟨d, hd, hdir⟩ := (Option.any_eq_true _ _).mp h
      exact ⟨s, d, hs, hd, hdir⟩
    · cases h
  · intro h
    obtain ⟨s, d, hs, hd, hdir⟩ := h
    rw [hs]
    simp only [dirAt, hd, Option.any_some, hdir]

theorem resolves_append (h : m.resolves (cs ++ ds) = true) : m.resolves cs = true := by
  rw [resolves_iff] at h ⊢
  exact fun pre hpre => h pre (hpre.trans (List.prefix_append cs ds))

theorem memMkdir_entered {r : Except Errno Unit} (hcall : m.memMkdir path mode = some (r, m')) :
    (∃ e, r = .error e ∧ m' = m) ∨
    (r = .ok () ∧ ∃ parent pn pd, m.getParentSlot path = some (.ok parent) ∧ path.path ≠ [] ∧
      m.Enterable parent path.last true none pn pd ∧
      m' = m.enterNode parent path.last true mode none) := by
  rcases memMkdir_cases hcall with hrefused | hmkdir
  · exact Or.inl hrefused
  · rcases mkdir_cases hmkdir sharedData_none with ⟨e, hr, hm, -⟩ | hmade
    · exact Or.inl ⟨e, hr, hm⟩
    · exact Or.inr hmade

theorem memMkdir_dirNamed {r : Except Errno Unit} (hcall : m.memMkdir path mode = some (r, m'))
    {names : List Text} (h : m.dirNamed names = true) : m'.dirNamed names = true := by
  rcases memMkdir_entered hcall with ⟨e, -, rfl⟩ | ⟨-, parent, pn, pd, -, -, he, rfl⟩
  · exact h
  · obtain ⟨s, d, hs, hd, hdir⟩ := dirNamed_eq_true.mp h
    obtain ⟨d', new, hd', hdir', -⟩ := he.dataAt_prefix mode hd
    exact dirNamed_eq_true.mpr ⟨s, d', he.walk_ok mode hs, hd', hdir'.trans hdir⟩

theorem memMkdir_resolves {r : Except Errno Unit} (hcall : m.memMkdir path mode = some (r, m'))
    (h : m.resolves cs = true) : m'.resolves cs = true := by
  rw [resolves_iff] at h ⊢
  exact fun pre hpre => memMkdir_dirNamed hcall (h pre hpre)

theorem memMkdir_made (hcall : m.memMkdir path mode = some (.ok (), m')) :
    m'.dirNamed path.path = true := by
  rcases memMkdir_entered hcall with ⟨e, hr, -⟩ | ⟨-, parent, pn, pd, hparent, hne, he, rfl⟩
  · cases hr
  · obtain ⟨d, hd, hdir⟩ := he.dataAt_new mode
    exact dirNamed_eq_true.mpr ⟨_, d, he.getSlot_new mode hparent hne, hd, hdir⟩

/-- A path whose parts in front of the last resolve, and that leads to a directory as a whole,
resolves. -/
theorem resolves_of_last (h : m.resolves cs.dropLast = true)
    (hlast : m.dirNamed (pathCollapse cs) = true) : m.resolves cs = true := by
  rw [resolves_iff] at h ⊢
  intro pre hpre
  by_cases heq : pre = cs
  · rw [heq]
    exact hlast
  · apply h
    rcases List.eq_nil_or_concat cs with rfl | ⟨init, c, rfl⟩
    · exact absurd (List.prefix_nil.mp hpre) heq
    · rw [List.concat_eq_append] at hpre heq ⊢
      rw [List.dropLast_concat]
      rcases List.prefix_concat_iff.mp hpre with hall | hinit
      · exact absurd hall heq
      · exact hinit

theorem Sound.exists_memMkdir (h : m.Sound) (path : AbsolutePath) (mode : Nat) :
    ∃ r, m.memMkdir path mode = some r := by
  obtain ⟨rn, hrn, -⟩ := h.grounded.root
  have hmk : ∃ r, m.mkdir path mode none = some r := by
    unfold mkdir getMemNode getParentSlot getSlot
    rcases h.walk_total (by decide) hrn path.path with ⟨e, he⟩ | ⟨t, tn, ht, -, htn⟩
    · rw [he, Option.map_some, Option.bind_some]
      rcases h.walk_total (by decide) hrn path.dotdot.path with ⟨e', he'⟩ | ⟨p, pn, hp, h0, hpn⟩
      · rw [he', Option.bind_some]
        exact ⟨_, rfl⟩
      · obtain ⟨pd, hpd⟩ := h.exists_data h0 hpn
        rw [hp, Option.bind_some]
        simp only [dataAt_of hpn, hpd, Option.bind_some]
        split
        · split
          · exact ⟨_, rfl⟩
          · exact ⟨_, rfl⟩
        · exact ⟨_, rfl⟩
    · rw [ht, Option.map_some, Option.bind_some]
      simp only [htn, Option.isSome_some, if_true]
      exact ⟨_, rfl⟩
  have hget : ∃ r, m.getNode path = some r := by
    unfold getNode getParentSlot getSlot
    split
    · exact ⟨_, rfl⟩
    · rcases h.walk_total (by decide) hrn path.dotdot.path with ⟨e, he⟩ | ⟨p, pn, hp, -, -⟩
      · rw [he, Option.bind_some]
        exact ⟨_, rfl⟩
      · rw [hp, Option.bind_some]
        rcases h.walk_total (by decide) hrn path.path with ⟨e, he⟩ | ⟨t, tn, ht, h0, htn⟩
        · rw [he]
          exact ⟨_, rfl⟩
        · obtain ⟨d, hd⟩ := h.exists_data h0 htn
          rw [ht, Option.bind_some]
          simp only [stat, htn, hd, Option.map_some]
          exact ⟨_, rfl⟩
  obtain ⟨node, hnode⟩ := hget
  rw [memMkdir, hnode, Option.bind_some]
  cases node with
  | ok s => exact hmk
  | error e =>
      simp only
      split
      · exact hmk
      · exact ⟨_, rfl⟩

private theorem Sound.memMkdir (h : m.Sound) {r : Except Errno Unit}
    (hcall : m.memMkdir path mode = some (r, m')) : m'.Sound := by
  have hev : Evolves (fun m r => m.keepsListing r = true) m m' := memMkdir_evolves hcall
  exact hev.preserves Sound (fun _ _ hm hc => change_sound hm hc) h

end MemMount

end Zrt.Fs

namespace Zrt.Unpack

open Zrt.Framework Zrt.Fs Zrt.Fs.MemMount

/-- A sound state whose root is a directory. -/
def MemWorld : Type := { m : MemMount // m.Sound ∧ m.dirNamed [] = true }

namespace MemWorld

def start : MemWorld := ⟨.fresh, sound_fresh, by decide⟩

/-- `mkdir` on a path whose parts in front of the last resolve. -/
def makeDir (w : MemWorld) (path : AbsolutePath) : Except Errno Unit × MemWorld :=
  match h : w.1.memMkdir path 0o700 with
  | some (r, m') => (r, ⟨m', w.2.1.memMkdir h, memMkdir_dirNamed h w.2.2⟩)
  | none => absurd h (by
      obtain ⟨r, hr⟩ := w.2.1.exists_memMkdir path 0o700
      rw [hr]
      exact Option.some_ne_none r)

theorem memMkdir_makeDir (w : MemWorld) (path : AbsolutePath) :
    w.1.memMkdir path 0o700 = some ((w.makeDir path).1, (w.makeDir path).2.1) := by
  unfold makeDir
  split
  · rename_i h
    exact h
  · rename_i h
    obtain ⟨r, hr⟩ := w.2.1.exists_memMkdir path 0o700
    rw [h] at hr
    cases hr

/-- A path that does not resolve is not found. -/
def mkdir (w : MemWorld) (p : Text) : Except Errno Unit × MemWorld :=
  if h : p.head? = some '/' ∧ w.1.resolves (components p).dropLast = true then w.makeDir ⟨p, h.1⟩
  else (.error .enoent, w)

end MemWorld

/-- The in-memory mount has the directories the cache relies on. -/
def memDirectories : Directories MemWorld where
  mkdir := MemWorld.mkdir
  isDir w p := w.1.resolves (components p)
  made := by
    intro w w' p hmk
    unfold MemWorld.mkdir at hmk
    split at hmk
    · rename_i h
      have hcall := MemWorld.memMkdir_makeDir w ⟨p, h.1⟩
      rw [hmk] at hcall
      exact resolves_of_last (memMkdir_resolves hcall h.2) (memMkdir_made hcall)
    · cases hmk
  kept := by
    intro w p q hq
    unfold MemWorld.mkdir
    split
    · rename_i h
      exact memMkdir_resolves (MemWorld.memMkdir_makeDir w ⟨p, h.1⟩) hq
    · exact hq
  refused := by
    intro w w' p e hmk
    unfold MemWorld.mkdir at hmk
    split at hmk
    · rename_i h
      have hcall := MemWorld.memMkdir_makeDir w ⟨p, h.1⟩
      rw [hmk] at hcall
      rcases memMkdir_entered hcall with ⟨e', -, hsame⟩ | ⟨hok, -⟩
      · exact Subtype.ext hsame
      · cases hok
    · cases hmk
      rfl
  ancestor := by
    intro w p q h _
    rw [components_append] at h
    exact resolves_append h
  slash := by
    intro w p h
    rw [components_append, components_nil, List.append_nil]
    exact h
  root := by
    intro w
    apply resolves_iff.mpr
    intro pre hpre
    have hnil : pre = [] := by
      have hcs : components ['/'] = [] := by decide
      rw [hcs] at hpre
      exact List.prefix_nil.mp hpre
    rw [hnil]
    exact w.2.2

/-! ## Runs -/

universe u

/-- In every run from an empty cache each call that returns zero leaves its directory behind exactly
if all calls are clear; and after clear calls `parse_path` leaves every ancestor behind. -/
theorem run_creates_iff {σ : Type u} (D : Directories σ) (w : σ) (steps : List (CacheStep D)) :
    (Guarded (step D) (Creates D) ⟨[], w⟩ steps ↔ Guarded (step D) (Clear D) ⟨[], w⟩ steps) ∧
      ∀ s path, Guarded (step D) (Clear D) ⟨[], w⟩ steps →
        runFrom (step D) ⟨[], w⟩ steps = some s →
        Guarded (step D) (Clear D) s ((parseCalls D s path).map CacheStep.create) →
        MkdirsFine D s path →
        ∃ n t, parsePath D s path.text = some (n, t) ∧
          ∀ dir, IsAncestor dir path.text → D.isDir t.world dir = true := by
  have hstart : Remembers D (⟨[], w⟩ : DirCache σ) := Or.inl rfl
  constructor
  · have hiff : ∀ s a, Remembers D s → (Creates D s a ↔ Clear D s a) :=
      fun s a hs => creates_iff hs a
    have hkeep : ∀ s a t, Remembers D s → Creates D s a → step D s a = some t → Remembers D t :=
      fun s a t hs ha ht => (hs.step ((hiff s a hs).mp ha) ht).1
    exact guarded_iff hiff hkeep steps _ hstart
  · intro s path hclear hrun hparse hfine
    have hs : Remembers D s := runFrom_invariant (fun s a t hs ha ht => (hs.step ha ht).1)
      steps _ s hstart hclear hrun
    exact parsePath_created hs hparse hfine

/-- Calls on parts of a path below the root. -/
def dirCall (text : Text) (len : Nat) (h : 0 < len ∧ len ≤ text.length + 1) : DirCall :=
  ⟨.fromRoot text, len, h.1, h.2⟩

/-- Two directories, one inside the other, and the outer one again. -/
def nestedSteps : List (CacheStep memDirectories) :=
  [.create (dirCall "a".toList 2 (by decide)), .create (dirCall "a/b".toList 4 (by decide)),
    .create (dirCall "a".toList 2 (by decide))]

/-- A file two levels further down finds its directories made. -/
theorem run_creates_iff_nested :
    ∃ s, runFrom (step memDirectories) ⟨[], .start⟩ nestedSteps = some s ∧
      ∃ n t, parsePath memDirectories s "/a/b/c/d/f".toList = some (n, t) ∧
        ∀ dir, IsAncestor dir "/a/b/c/d/f".toList → memDirectories.isDir t.world dir = true := by
  have hclear : Guarded (step memDirectories) (Clear memDirectories) ⟨[], .start⟩ nestedSteps := by
    decide
  have hends : RunEnds (step memDirectories) ⟨[], .start⟩ nestedSteps fun s =>
      Guarded (step memDirectories) (Clear memDirectories) s
          ((parseCalls memDirectories s (.fromRoot "a/b/c/d/f".toList)).map CacheStep.create) ∧
        MkdirsFine memDirectories s (.fromRoot "a/b/c/d/f".toList) := by
    decide +kernel
  obtain ⟨s, hrun, hcalls, hfine⟩ := hends
  exact ⟨s, hrun, (run_creates_iff memDirectories .start nestedSteps).2 s
    (.fromRoot "a/b/c/d/f".toList) hclear hrun hcalls hfine⟩

/-- Behind `/foobar` the cache takes `/foo` for made. -/
theorem create_prefix_of_name :
    ((runFrom (step memDirectories) ⟨[], .start⟩
        [.create (dirCall "foobar".toList 7 (by decide))]).bind fun s =>
      (createDirAndCacheName memDirectories s "/foo".toList 4).map fun r =>
        (r.1, memDirectories.isDir r.2.world "/foo".toList)) = some (0, false) := by
  decide

end Zrt.Unpack
