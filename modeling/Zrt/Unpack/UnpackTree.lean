import Zrt.Unpack.ImageTree
import Zrt.Unpack.UnpackTar

/-!
# The tree of an archive

An archive whose directories are named with a slash at their end is unpacked into the tree that its
entries describe. The cache of directories never misleads there: what it is asked for ends with a slash.
-/

namespace Zrt.Unpack

open Zrt.Framework Zrt.Fs NameSpace

/-! ## Directories -/

/-- The directories on the way to `ks` are made. -/
def makeDirs (T : Tree) (ks : List Text) : Tree := fun ls =>
  if ls <+: ks ∧ T ls = none then some .dir else T ls

private theorem makeDirs_nil {T : Tree} (h : T [] = some .dir) : makeDirs T [] = T := by
  funext ls
  rw [makeDirs, if_neg]
  rintro ⟨hls, hnone⟩
  rw [List.prefix_nil.mp hls, h] at hnone
  cases hnone

private theorem makeDirs_snoc (T : Tree) (ks : List Text) (k : Text) :
    makeDirs T (ks ++ [k]) =
      if T (ks ++ [k]) = none then Function.update (makeDirs T ks) (ks ++ [k]) (some .dir)
      else makeDirs T ks := by
  funext ls
  by_cases hls : ls = ks ++ [k]
  · subst hls
    by_cases hnone : T (ks ++ [k]) = none
    · rw [if_pos hnone, Function.update_self, makeDirs, if_pos ⟨List.prefix_refl _, hnone⟩]
    · rw [if_neg hnone, makeDirs, makeDirs, if_neg fun h => hnone h.2, if_neg fun h => hnone h.2]
  · have hprefix : ls <+: ks ++ [k] ↔ ls <+: ks := by
      rw [List.prefix_concat_iff]
      exact or_iff_right hls
    have hsame : makeDirs T (ks ++ [k]) ls = makeDirs T ks ls := by
      simp only [makeDirs, hprefix]
    rw [hsame]
    split
    · rw [Function.update_of_ne hls]
    · rfl

theorem makeDirs_elsewhere {T : Tree} {ks ls : List Text} (h : ¬ ls <+: ks) :
    makeDirs T ks ls = T ls := by
  rw [makeDirs, if_neg fun h' => h h'.1]

/-- The remembered path leads to a directory. -/
def RememberedIn (g : NameSpace) (cached : Text) : Prop :=
  cached = [] ∨
    ∃ d, g.names.resolve rootObject (components cached) = .ok d ∧ g.names.isDir d = true

theorem RememberedIn.kept {g g' : NameSpace} {cached : Text} (h : RememberedIn g cached)
    (hkept : g.names.KeptFrom g'.names rootObject) : RememberedIn g' cached := by
  rcases h with hnil | ⟨d, hd, hdir⟩
  · exact Or.inl hnil
  · obtain ⟨hd', hdir'⟩ := hkept _ _ hd
    exact Or.inr ⟨d, hd', hdir'.trans hdir⟩

/-- The unpacker between two entries: the tree below the mount point, a free handle, and a remembered
path that leads to a directory. -/
structure Deploying (g₀ : NameSpace) (c₀ : Nat → List UInt8) (mount : List Text) (o : Nat)
    (c : DirCache ImageWorld) (T : Tree) (input : List Char) : Prop where
  grown : ∃ s g, c.world.io = some s ∧ Grown g₀ c₀ mount o s g T ∧ s.fs.handlesFull = false ∧
    RememberedIn g c.cachedFullPath
  input_eq : c.world.input = input
  root : T [] = some .dir

namespace Deploying

variable {g₀ : NameSpace} {c₀ : Nat → List UInt8} {mount ks : List Text} {o len : Nat}
  {c : DirCache ImageWorld} {T : Tree} {input : List Char} {path : Text} {k : Text}

/-- The spelling of a directory, with a slash behind it. -/
def dirText (cs : List Text) : Text := cs.flatMap ('/' :: ·) ++ ['/']

theorem dirText_of_ne_nil {cs : List Text} (hne : cs ≠ []) : dirText cs = render cs ++ ['/'] := by
  rw [dirText, render_of_ne_nil hne]

theorem components_dirText {cs : List Text} (h : Proper cs) (rest : Text) :
    components (dirText cs ++ rest) = cs ++ components rest := by
  rw [dirText, List.append_assoc, List.singleton_append, components_append,
    components_flatMap h.name]

private theorem dir_of_isSome (h : Deploying g₀ c₀ mount o c T input) {ls : List Text}
    (hT : (T (ks ++ ls)).isSome) (hne : ls ≠ []) : T ks = some .dir := by
  obtain ⟨s, g, -, hg, -⟩ := h.grown
  rw [← hg.tree] at hT ⊢
  exact Naming.tree_dir_of_isSome hT hne

private theorem makeDirs_eq (h : Deploying g₀ c₀ mount o c T input) (hT : T ks = some .dir) :
    makeDirs T ks = T := by
  funext ls
  rw [makeDirs, if_neg]
  rintro ⟨⟨rest, rfl⟩, hnone⟩
  by_cases hrest : rest = []
  · rw [hrest, List.append_nil, hnone] at hT
    cases hT
  · rw [h.dir_of_isSome (by rw [hT]; rfl) hrest] at hnone
    cases hnone

private theorem dir_of_hit {s : Io} {g : NameSpace} (h : Grown g₀ c₀ mount o s g T) {cached : Text}
    (hcached : RememberedIn g cached) (hcs : Proper (mount ++ ks)) {len : Nat}
    (hit : dirText (mount ++ ks) = cached.take len) : T ks = some .dir := by
  obtain ⟨rest, hrest⟩ := List.take_prefix len cached
  rw [← hit] at hrest
  rcases hcached with hnil | ⟨d, hd, hdir⟩
  · rw [hnil] at hrest
    simp [dirText] at hrest
  · rw [← hrest, components_dirText hcs] at hd
    have htree : g.names.tree s.contents rootObject (mount ++ ks) = some .dir := by
      by_cases hnil : components rest = []
      · rw [hnil, List.append_nil] at hd
        exact Naming.tree_eq_dir.mpr ⟨d, hd, hdir⟩
      · exact Naming.tree_dir_of_isSome (by simp only [Naming.tree, hd, Option.isSome_some]) hnil
    rw [Naming.tree_append h.mounted, h.tree] at htree
    exact htree

theorem length_dirText {cs : List Text} (h : Io.Plain cs) : (dirText cs).length < cachedPathSize := by
  have hshort : (render cs).length + 1 < 4096 := h.short
  by_cases hne : cs = []
  · rw [hne]
    decide
  · rw [dirText_of_ne_nil hne, List.length_append, List.length_singleton]
    exact hshort

theorem create_miss {s : Io} {r : Except Errno Unit} {m : MemMount} (hio : c.world.io = some s)
    (hmiss : path.take len ≠ c.cachedFullPath.take len) (hlen : (path.take len).length = len)
    (hsize : len < cachedPathSize)
    (hmk : s.fs.mem.zrtZcallMkdir (path.take len) 0o700 = some (r, m)) :
    createDirAndCacheName imageDirectories c path len =
      match r with
      | .ok _ => some (0, ⟨path.take len,
          { c.world with io := some { s with fs := { s.fs with mem := m } } }⟩)
      | .error e =>
          if e = .eexist then some (0, ⟨path.take len,
            { c.world with io := some { s with fs := { s.fs with mem := m } } }⟩)
          else some (-1, ⟨[], { c.world with io := some { s with fs := { s.fs with mem := m } } }⟩) := by
  have hcall : imageDirectories.mkdir c.world (path.take len) =
      (r, { c.world with io := some { s with fs := { s.fs with mem := m } } }) := by
    show c.world.mkdir 0o700 (path.take len) = _
    rw [ImageWorld.mkdir, hio]
    simp only [hmk]
  rw [createDirAndCacheName, if_neg hmiss, if_neg (by omega), hcall]
  cases r <;> rfl

private theorem components_dirText_self {cs : List Text} (h : Proper cs) : components (dirText cs) = cs := by
  have hcs := components_dirText h []
  rw [List.append_nil, components_nil, List.append_nil] at hcs
  exact hcs

/-- What is asked for with a slash behind it, and is a directory, is found in the cache or by
`mkdir`. -/
theorem create_dir (h : Deploying g₀ c₀ mount o c T input) (hcs : Io.Plain (mount ++ ks))
    (htake : path.take len = dirText (mount ++ ks)) (hlen : (path.take len).length = len)
    (hT : T ks = some .dir) :
    ∃ c', createDirAndCacheName imageDirectories c path len = some (0, c') ∧
      Deploying g₀ c₀ mount o c' T input := by
  obtain ⟨s, g, hio, hg, hfree, hcached⟩ := h.grown
  by_cases hit : path.take len = c.cachedFullPath.take len
  · exact ⟨c, by rw [createDirAndCacheName, if_pos hit], h⟩
  · have hexists : s.fs.mem.zrtZcallMkdir (path.take len) 0o700 =
        some (.error .eexist, s.fs.mem) := by
      rw [htake]
      by_cases hne : mount ++ ks = []
      · have hmk : s.fs.mem.zrtZcallMkdir (render (mount ++ ks)) 0o700 = _ :=
          hg.mkdir_exists hcs (by rw [hT]; rfl)
        rw [hne] at hmk ⊢
        exact hmk
      · rw [dirText_of_ne_nil hne]
        exact hg.mkdir_slash hcs hne (by rw [hT]; rfl)
    have hsize : len < cachedPathSize := by
      rw [← hlen, htake]
      exact length_dirText hcs
    obtain ⟨d, hd, hdir⟩ := hg.exists_dir hT
    refine ⟨_, create_miss hio hit hlen hsize hexists, ⟨s, g, by rw [← hio], hg, hfree, Or.inr ⟨d, ?_, hdir⟩⟩,
      h.input_eq, h.root⟩
    rw [htake, components_dirText_self hcs.proper, hg.resolve_mount, hd]

private theorem create_missing (h : Deploying g₀ c₀ mount o c T input) (hcs : Io.Plain (mount ++ ks))
    (htake : path.take len = dirText (mount ++ ks)) (hlen : (path.take len).length = len)
    (hT : T ks = none) :
    ∃ c', createDirAndCacheName imageDirectories c path len = some (-1, c') ∧
      Deploying g₀ c₀ mount o c' T input ∧ c'.cachedFullPath = [] := by
  obtain ⟨s, g, hio, hg, hfree, hcached⟩ := h.grown
  have hmiss : path.take len ≠ c.cachedFullPath.take len := by
    intro hit
    rw [htake] at hit
    have hdir := dir_of_hit hg hcached hcs.proper hit
    rw [hT] at hdir
    cases hdir
  have hne : mount ++ ks ≠ [] := by
    intro hnil
    rw [(List.append_eq_nil_iff.mp hnil).2, h.root] at hT
    cases hT
  have hmk : s.fs.mem.zrtZcallMkdir (path.take len) 0o700 = some (.error .enoent, s.fs.mem) := by
    rw [htake, dirText_of_ne_nil hne]
    exact hg.mkdir_slash_missing hcs hT
  have hsize : len < cachedPathSize := by
    rw [← hlen, htake]
    exact length_dirText hcs
  exact ⟨_, create_miss hio hmiss hlen hsize hmk, ⟨⟨s, g, by rw [← hio], hg, hfree, Or.inl rfl⟩,
    h.input_eq, h.root⟩, rfl⟩

theorem miss_of_length (hlen : (path.take len).length = len)
    (hcached : c.cachedFullPath.length < len) : path.take len ≠ c.cachedFullPath.take len := by
  intro hit
  have hlength := congrArg List.length hit
  rw [hlen, List.length_take] at hlength
  omega

private theorem create_found (h : Deploying g₀ c₀ mount o c T input) {cs : List Text} (hcs : Io.Plain cs)
    (hdir : ∀ s g, Grown g₀ c₀ mount o s g T →
      ∃ d, g.names.resolve rootObject cs = .ok d ∧ g.names.isDir d = true)
    (htake : path.take len = render cs) (hlen : (path.take len).length = len)
    (hcached : c.cachedFullPath.length < len) :
    ∃ c', createDirAndCacheName imageDirectories c path len = some (0, c') ∧
      Deploying g₀ c₀ mount o c' T input ∧ c'.cachedFullPath.length ≤ len := by
  obtain ⟨s, g, hio, hg, hfree, -⟩ := h.grown
  obtain ⟨d, hd, hisDir⟩ := hdir s g hg
  have hshort : (render cs).length + 1 < 4096 := hcs.short
  have hsize : len < cachedPathSize := by
    rw [← hlen, htake, cachedPathSize]
    omega
  have hmk : s.fs.mem.zrtZcallMkdir (path.take len) 0o700 = some (.error .eexist, s.fs.mem) := by
    rw [htake]
    exact hg.stores.zrtZcallMkdir_exists hcs hd
  refine ⟨_, create_miss hio (miss_of_length hlen hcached) hlen hsize hmk,
    ⟨⟨s, g, by rw [← hio], hg, hfree, Or.inr ⟨d, ?_, hisDir⟩⟩, h.input_eq, h.root⟩, hlen.le⟩
  rw [htake, components_render hcs.proper.name, hd]

private theorem create_new (h : Deploying g₀ c₀ mount o c T input)
    (hcs : Io.Plain (mount ++ (ks ++ [k]))) (hdir : T ks = some .dir) (hT : T (ks ++ [k]) = none)
    (htake : path.take len = render (mount ++ (ks ++ [k]))) (hlen : (path.take len).length = len)
    (hcached : c.cachedFullPath.length < len) :
    ∃ c', createDirAndCacheName imageDirectories c path len = some (0, c') ∧
      Deploying g₀ c₀ mount o c' (Function.update T (ks ++ [k]) (some .dir)) input ∧
      c'.cachedFullPath.length ≤ len := by
  obtain ⟨s, g, hio, hg, hfree, -⟩ := h.grown
  have hshort : (render (mount ++ (ks ++ [k]))).length + 1 < 4096 := hcs.short
  have hsize : len < cachedPathSize := by
    rw [← hlen, htake, cachedPathSize]
    omega
  obtain ⟨m, g', hmk, hg', -⟩ := hg.mkdir_new 0o700 hcs hdir hT
  rw [← htake] at hmk
  have hroot : Function.update T (ks ++ [k]) (some .dir) [] = some .dir := by
    rw [Function.update_of_ne (by simp), h.root]
  obtain ⟨d, hd, hisDir⟩ := hg'.exists_dir (Function.update_self _ _ _)
  refine ⟨_, create_miss hio (miss_of_length hlen hcached) hlen hsize hmk,
    ⟨⟨_, g', rfl, hg', hfree, Or.inr ⟨d, ?_, hisDir⟩⟩, h.input_eq, hroot⟩, hlen.le⟩
  rw [htake, components_render hcs.proper.name, hg'.resolve_mount, hd]

/-- Nothing but directories, or nothing, is on the way. -/
def Passable (T : Tree) (ks : List Text) : Prop := ∀ ls, ls <+: ks → T ls = none ∨ T ls = some .dir

theorem makeDirs_self {T : Tree} (h : Passable T ks) : makeDirs T ks ks = some .dir := by
  rw [makeDirs]
  split
  · rfl
  · rename_i hsome
    rcases h ks (List.prefix_refl _) with hnone | hdir
    · exact absurd ⟨List.prefix_refl _, hnone⟩ hsome
    · exact hdir

private theorem dir_above {s : Io} {g : NameSpace} (h : Grown g₀ c₀ mount o s g T)
    (hroot : T [] = some .dir) {cs : List Text} (hcs : cs <+: mount) :
    ∃ d, g.names.resolve rootObject cs = .ok d ∧ g.names.isDir d = true := by
  have hmount : g.names.tree s.contents rootObject mount = some .dir := by
    have happend : g.names.tree s.contents rootObject (mount ++ []) = _ :=
      Naming.tree_append h.mounted []
    rw [List.append_nil, h.tree, hroot] at happend
    exact happend
  obtain ⟨rest, rfl⟩ := hcs
  apply Naming.tree_eq_dir.mp
  by_cases hrest : rest = []
  · rw [hrest, List.append_nil] at hmount
    exact hmount
  · exact Naming.tree_dir_of_isSome (by rw [hmount]; rfl) hrest

private theorem create_next {cs : List Text} {x : Text} (hcs : cs ++ [x] <+: mount ++ ks) (hplain : Io.Plain (mount ++ ks)) (hpass : Passable T ks)
    (h : Deploying g₀ c₀ mount o c (makeDirs T (cs.drop mount.length)) input)
    (htake : path.take len = render (cs ++ [x])) (hlen : (path.take len).length = len)
    (hcached : c.cachedFullPath.length < len) :
    ∃ c', createDirAndCacheName imageDirectories c path len = some (0, c') ∧
      Deploying g₀ c₀ mount o c' (makeDirs T ((cs ++ [x]).drop mount.length)) input ∧
      c'.cachedFullPath.length ≤ len := by
  have hplain' : Io.Plain (cs ++ [x]) := by
    obtain ⟨rest, hrest⟩ := hcs
    rw [← hrest] at hplain
    exact hplain.of_append_left
  rcases Nat.lt_or_ge cs.length mount.length with hlt | hge
  · have hnone : (cs ++ [x]).drop mount.length = [] := by
      rw [List.drop_eq_nil_iff, List.length_append, List.length_singleton]
      exact hlt
    have hnone' : cs.drop mount.length = [] := List.drop_eq_nil_iff.mpr (Nat.le_of_lt hlt)
    rw [hnone'] at h
    rw [hnone]
    have habove : cs ++ [x] <+: mount := by
      apply List.prefix_of_prefix_length_le hcs (List.prefix_append mount ks)
      rw [List.length_append, List.length_singleton]
      exact hlt
    exact h.create_found hplain' (fun s g hg => dir_above hg h.root habove) htake hlen hcached
  · have hbelow : mount <+: cs := by
      apply List.prefix_of_prefix_length_le (List.prefix_append mount ks) _ hge
      exact (List.prefix_append cs [x]).trans hcs
    obtain ⟨ls, rfl⟩ := hbelow
    rw [List.drop_left] at h
    rw [List.append_assoc, List.drop_left]
    rw [List.append_assoc] at htake hplain' hcs
    have hls : ls ++ [x] <+: ks := (List.prefix_append_right_inj mount).mp hcs
    have hdir : makeDirs T ls ls = some .dir :=
      makeDirs_self fun pre hpre => hpass pre ((hpre.trans (List.prefix_append ls [x])).trans hls)
    have hnot : ¬ ls ++ [x] <+: ls := by
      intro hle
      have hlength := hle.length_le
      rw [List.length_append, List.length_singleton] at hlength
      omega
    have hsame := makeDirs_elsewhere (T := T) hnot
    rw [makeDirs_snoc]
    rcases hpass (ls ++ [x]) hls with hT | hT
    · rw [if_pos hT]
      exact h.create_new hplain' hdir (hsame.trans hT) htake hlen hcached
    · rw [if_neg (by rw [hT]; exact Option.some_ne_none _)]
      apply h.create_found hplain' _ htake hlen hcached
      intro s g hg
      obtain ⟨d, hd, hisDir⟩ := hg.exists_dir (hsame.trans hT)
      exact ⟨d, (hg.resolve_mount _).trans hd, hisDir⟩

private theorem processSubdirs_makes {cs : List Text} (hpath : cs.flatMap ('/' :: ·) <+: path)
    (hhead : path.head? = some '/') (hcs : cs <+: mount ++ ks) (hplain : Io.Plain (mount ++ ks))
    (hpass : Passable T ks) (h : Deploying g₀ c₀ mount o c T input)
    (hcached : c.cachedFullPath = []) (hlen : 1 < len)
    (hlocate : locateLastOccurence path '/' len = some (cs.flatMap ('/' :: ·)).length) :
    ∃ n c', processSubdirs imageDirectories path len c = some (n, c') ∧
      Deploying g₀ c₀ mount o c' (makeDirs T (cs.drop mount.length)) input ∧
      c'.cachedFullPath.length ≤ (cs.flatMap ('/' :: ·)).length := by
  induction cs using List.reverseRecOn generalizing len with
  | nil =>
      -- the root alone is handled as a slash of its own, and skipped
      have hfirst : path[0]? = some '/' := by rw [← List.head?_eq_getElem?, hhead]
      have hone : locateLastOccurence path '/' 1 = some 0 := by
        rw [locateLastOccurence, if_pos hfirst]
      have hzero : locateLastOccurence path '/' 0 = none := rfl
      have hbottom : processSubdirs imageDirectories path 0 c = some (0, c) := by
        rw [processSubdirs]
        simp [locateLastOccurence]
      have hroot : processSubdirs imageDirectories path 1 c = some (1, c) := by
        rw [processSubdirs]
        split
        · rename_i hnone
          rw [hone] at hnone
          cases hnone
        · rename_i i hi
          rw [hone] at hi
          cases hi
          simp [subpathLen, hbottom, callbackParse]
      refine ⟨1, c, ?_, ?_, ?_⟩
      · rw [processSubdirs]
        split
        · rename_i hnone
          rw [hlocate] at hnone
          cases hnone
        · rename_i i hi
          rw [hlocate] at hi
          cases hi
          simp [subpathLen, hlen, hroot, callbackParse]
      · rw [List.drop_nil, makeDirs_nil h.root]
        exact h
      · rw [hcached]
        exact Nat.zero_le _
  | append_singleton cs x ih =>
      have hne : cs ++ [x] ≠ [] := by simp
      have hproper : Proper (cs ++ [x]) := by
        obtain ⟨rest, hrest⟩ := hcs
        have hall := hplain.proper
        rw [← hrest] at hall
        exact hall.of_append_left
      obtain ⟨hx, hslash, -⟩ := hproper x (List.mem_append_right _ List.mem_cons_self)
      have hxlen : 0 < x.length := List.length_pos_of_ne_nil hx
      rw [← render_of_ne_nil hne] at hpath hlocate
      have hrender := length_render_snoc cs x
      have hsub : subpathLen (render (cs ++ [x])).length len = (render (cs ++ [x])).length := by
        rw [subpathLen, if_neg]
        omega
      have hfront : cs.flatMap ('/' :: ·) <+: path := by
        rw [render_snoc] at hpath
        exact (List.prefix_append _ _).trans hpath
      obtain ⟨n, c₁, hrec, hmade, hshort⟩ := ih hfront ((List.prefix_append cs [x]).trans hcs)
        (by omega) (locateLastOccurence_render hslash hpath)
      have htake : path.take (render (cs ++ [x])).length = render (cs ++ [x]) :=
        List.prefix_iff_eq_take.mp hpath |>.symm
      obtain ⟨c', hcreate, hmade', hshort'⟩ := create_next hcs hplain hpass hmade htake
        (by rw [htake]) (by omega)
      refine ⟨1, c', ?_, hmade', ?_⟩
      · rw [processSubdirs]
        split
        · rename_i hnone
          rw [hlocate] at hnone
          cases hnone
        · rename_i i hi
          rw [hlocate] at hi
          cases hi
          rw [hsub, hrec, Option.bind_some, callbackParse, if_neg (by omega), hcreate]
          rfl
      · rw [← render_of_ne_nil hne]
        exact hshort'

private theorem parsePath_makes (h : Deploying g₀ c₀ mount o c T input) (hplain : Io.Plain (mount ++ ks))
    (hpass : Passable T ks) {b : Text} (hb : '/' ∉ b)
    (hpath : path = (mount ++ ks).flatMap ('/' :: ·) ++ '/' :: b) :
    ∃ n c', parsePath imageDirectories c path = some (n, c') ∧
      Deploying g₀ c₀ mount o c' (makeDirs T ks) input := by
  have hlocate : locateLastOccurence path '/' path.length =
      some ((mount ++ ks).flatMap ('/' :: ·)).length := by
    rw [hpath]
    exact locateLastOccurence_cut hb
  have hdirlen : dirPathLen path = ((mount ++ ks).flatMap ('/' :: ·)).length + 1 := by
    rw [dirPathLen, hlocate]
  have hstart : dirText (mount ++ ks) <+: path := by
    rw [hpath, dirText]
    exact ⟨b, by simp⟩
  have hlength : (dirText (mount ++ ks)).length = dirPathLen path := by
    rw [hdirlen, dirText, List.length_append, List.length_singleton]
  have htake : path.take (dirPathLen path) = dirText (mount ++ ks) := by
    rw [← hlength]
    exact (List.prefix_iff_eq_take.mp hstart).symm
  have hlen : (path.take (dirPathLen path)).length = dirPathLen path := by rw [htake, hlength]
  rcases hpass ks (List.prefix_refl _) with hT | hT
  · obtain ⟨c₁, hcreate, h₁, hcached⟩ := h.create_missing hplain htake hlen hT
    have hne : mount ++ ks ≠ [] := by
      intro hnil
      rw [(List.append_eq_nil_iff.mp hnil).2, h.root] at hT
      cases hT
    have hpos := length_flatMap_pos hne
    have hhead : path.head? = some '/' := by
      obtain ⟨rest, hrest⟩ := hstart
      rw [← hrest, dirText_of_ne_nil hne, List.append_assoc, List.head?_append, render_head]
      rfl
    have hdirtext : locateLastOccurence path '/' (dirPathLen path) =
        some ((mount ++ ks).flatMap ('/' :: ·)).length := by
      rw [hdirlen, locateLastOccurence, if_pos]
      rw [hpath, List.getElem?_append_right (Nat.le_refl _), Nat.sub_self]
      rfl
    obtain ⟨n, c', hsubdirs, hmade, -⟩ := processSubdirs_makes
      ((List.prefix_append _ _).trans hstart) hhead (List.prefix_refl _) hplain hpass h₁ hcached
      (by omega) hdirtext
    rw [List.drop_left] at hmade
    refine ⟨n, c', ?_, hmade⟩
    rw [parsePath, hcreate, Option.bind_some, if_pos (by simp), hsubdirs]
  · obtain ⟨c', hcreate, h'⟩ := h.create_dir hplain htake hlen hT
    refine ⟨0, c', ?_, ?_⟩
    · rw [parsePath, hcreate, Option.bind_some, if_neg (by simp)]
    · rw [h.makeDirs_eq hT]
      exact h'

end Deploying

/-! ## Files -/

open ImageWorld

section Files

variable {g₀ g : NameSpace} {c₀ : Nat → List UInt8} {mount ks : List Text} {o t fd : Nat} {st : Io}
  {T : Tree} {old : List UInt8} {s : Extraction ImageWorld}

private theorem Grown.contents_eq (h : Grown g₀ c₀ mount o st g T) (hT : T ks = some (.file old))
    (ht : g.names.resolve o ks = .ok t) : st.contents t = old := by
  rw [← h.tree] at hT
  obtain ⟨u, hu, -, hcontents⟩ := Naming.tree_eq_file.mp hT
  rw [hu] at ht
  cases ht
  exact hcontents

private theorem copyBlock_grown (ch : Channels) (junk : Nat → UInt8) {size : Int} {block rest : List Char}
    (hpos : 0 < size) (hblock : block.length = blockSize) (hio : s.dirs.world.io = some st)
    (hg : Grown g₀ c₀ mount o st g T) (hT : T ks = some (.file old)) (hks : ks ≠ [])
    (ht : g.names.resolve o ks = .ok t) (hfile : g.names.isDir t = false)
    (happending : st.Appending fd t) (hinput : s.dirs.world.input = block ++ rest)
    (hsmall : old.length + chunkSize size < 2 ^ 29) :
    ∃ s' st', copyBlocks (mounts ch junk) fd size s =
        copyBlocks (mounts ch junk) fd (size - blockSize) s' ∧
      s'.dirs.cachedFullPath = s.dirs.cachedFullPath ∧ s'.dirs.world.io = some st' ∧
      Grown g₀ c₀ mount o st' g
        (Function.update T ks (some (.file (old ++ (block.take (chunkSize size)).map byteOf)))) ∧
      st'.Appending fd t ∧ s'.dirs.world.input = rest := by
  let chunk := block.take (chunkSize size)
  have hchunklen : (chunk.map byteOf).length = chunkSize size := by
    rw [List.length_map, List.length_take, hblock, Nat.min_eq_left (chunkSize_le size)]
  have hold := hg.contents_eq hT ht
  obtain ⟨st', hwrite, hstores, happending', -, hcontents⟩ :=
    hg.stores.write happending junk (chunk.map byteOf) (by
      rw [hold, hchunklen]
      exact hsmall)
  rw [hold] at hcontents
  let w : ImageWorld := { s.dirs.world with input := rest }
  let read : Extraction ImageWorld := s.note w (.read (.ok block))
  let wrote : Extraction ImageWorld := read.note { w with io := some st' }
    (.wrote fd chunk (chunkSize size))
  have hread : readBlock (mounts ch junk) s = (.ok block, read) := by
    have htake : (block ++ rest).take blockSize = block := by rw [← hblock, List.take_left]
    have hdrop : (block ++ rest).drop blockSize = rest := by rw [← hblock, List.drop_left]
    simp only [readBlock, mounts, hinput, htake, hdrop, read, w]
  have hwritten : writeData (mounts ch junk) read fd chunk = ((chunkSize size : Int), wrote) := by
    have hmount : (mounts ch junk).write w fd chunk =
        ((chunkSize size : Int), { w with io := some st' }) := by
      have hio' : w.io = some st := hio
      simp only [mounts, hio', Int.toNat_natCast, hwrite, answer, hchunklen]
    simp only [writeData, read, Extraction.note_world, hmount, wrote]
  refine ⟨wrote, st', ?_, rfl, rfl, hg.setContents hks ht hfile hstores hcontents, happending', rfl⟩
  rw [copyBlocks, dif_pos hpos, hread]
  simp only [hblock, if_true]
  show (if writeError size (writeData (mounts ch junk) read fd chunk).1 = true then _ else _) = _
  rw [hwritten, writeError_full, if_neg Bool.false_ne_true]

private theorem copyBlocks_grown (ch : Channels) (junk : Nat → UInt8) (n : Nat) {size : Int}
    {data rest : List Char} (hn : blocks size = n) (hlen : data.length = blockSize * n)
    (hio : s.dirs.world.io = some st) (hg : Grown g₀ c₀ mount o st g T)
    (hT : T ks = some (.file old)) (hks : ks ≠ []) (ht : g.names.resolve o ks = .ok t)
    (hfile : g.names.isDir t = false) (happending : st.Appending fd t)
    (hinput : s.dirs.world.input = data ++ rest) (hsmall : old.length + size.toNat < 2 ^ 29) :
    ∃ s' st', copyBlocks (mounts ch junk) fd size s = (0, s') ∧
      s'.dirs.cachedFullPath = s.dirs.cachedFullPath ∧ s'.dirs.world.io = some st' ∧
      Grown g₀ c₀ mount o st' g
        (Function.update T ks (some (.file (old ++ (data.take size.toNat).map byteOf)))) ∧
      st'.fs.handlesFull = false ∧ s'.dirs.world.input = rest := by
  induction n generalizing size data s st T old with
  | zero =>
      have hneg : ¬ 0 < size := by
        intro hpos
        rw [blocks_of_pos hpos] at hn
        cases hn
      rw [Nat.mul_zero, List.length_eq_zero_iff] at hlen
      rw [hlen, List.nil_append] at hinput
      obtain ⟨st', hclose, hstores, hfree, hcontents⟩ := hg.stores.close happending ch
      have hworld : (mounts ch junk).close s.dirs.world fd =
          { s.dirs.world with io := some st' } := by
        simp only [mounts, hio, Int.toNat_natCast, hclose, answer]
      rw [copyBlocks, dif_neg hneg, hworld]
      refine ⟨_, st', rfl, rfl, rfl, ?_, hfree, hinput⟩
      have hsame : Function.update T ks (some (.file (old ++ (data.take size.toNat).map byteOf))) =
          T := by
        rw [hlen, List.take_nil, List.map_nil, List.append_nil, ← hT, Function.update_eq_self]
      rw [hsame]
      exact { hg with
        stores := hstores
        contents := by rw [hcontents]; exact hg.contents
        tree := by rw [hcontents]; exact hg.tree }
  | succ n ih =>
      have hpos := pos_of_blocks hn
      have hchunk := chunkSize_add hpos
      rw [blocks_of_pos hpos, Nat.add_right_cancel_iff] at hn
      rw [Nat.mul_succ] at hlen
      have hblock : (data.take blockSize).length = blockSize := by
        rw [List.length_take]
        omega
      have hrestlen : (data.drop blockSize).length = blockSize * n := by
        rw [List.length_drop]
        omega
      have hsplit : s.dirs.world.input = data.take blockSize ++ (data.drop blockSize ++ rest) := by
        rw [hinput, ← List.append_assoc, List.take_append_drop]
      have hchunklen : (((data.take blockSize).take (chunkSize size)).map byteOf).length =
          chunkSize size := by
        rw [List.length_map, List.length_take, hblock, Nat.min_eq_left (chunkSize_le size)]
      obtain ⟨s₁, st₁, hround, hcached₁, hio₁, hg₁, happending₁, hinput₁⟩ :=
        copyBlock_grown ch junk hpos hblock hio hg hT hks ht hfile happending hsplit (by omega)
      obtain ⟨s', st', hcopy, hcached, hio', hg', hfree, hinput'⟩ :=
        ih hn hrestlen hio₁ hg₁ (Function.update_self _ _ _) happending₁ hinput₁ (by
          rw [List.length_append, hchunklen]
          omega)
      refine ⟨s', st', hround.trans hcopy, hcached.trans hcached₁, hio', ?_, hfree, hinput'⟩
      have hbytes : old ++ (data.take size.toNat).map byteOf =
          old ++ ((data.take blockSize).take (chunkSize size)).map byteOf ++
            ((data.drop blockSize).take (size - blockSize).toNat).map byteOf := by
        rw [List.append_assoc, ← List.map_append, take_chunk_append hpos]
      rw [Function.update_idem] at hg'
      rw [hbytes]
      exact hg'

end Files

/-! ## Entries -/

namespace TarEntry

def parts (e : TarEntry) : List Text := components e.name

def bytes (e : TarEntry) : List UInt8 := (e.data.take e.size).map byteOf

/-- What stands behind the name of an entry. -/
def ending : TypeFlag → Text
  | .dir => ['/']
  | .file => []

/-- The name is spelled without empty components or dots, and with a slash behind it exactly for a
directory; the path and the file are not too large. -/
structure Regular (mount : List Text) (e : TarEntry) : Prop where
  spelled : '/' :: e.name = e.parts.flatMap ('/' :: ·) ++ ending e.type
  plain : Io.Plain (mount ++ e.parts)
  small : e.size < 2 ^ 29

end TarEntry

/-- What an archive describes: a file with the data of its last entry, and the directories on the way
to every entry. -/
def imageTree (entries : List TarEntry) : Tree := fun ls =>
  match entries.reverse.find? fun e => decide (e.type = .file ∧ e.parts = ls) with
  | some e => some (.file e.bytes)
  | none => if ls = [] ∨ ∃ e ∈ entries, ls <+: e.parts then some .dir else none

/-- Nothing is inside of a file, or a directory at the same place. -/
def Consistent (entries : List TarEntry) : Prop :=
  ∀ e ∈ entries, ∀ e' ∈ entries, e.type = .file → e.parts <+: e'.parts →
    e'.type = .file ∧ e'.parts = e.parts

section Entries

variable {entries : List TarEntry} {e : TarEntry} {ls ks : List Text} {k : Text}

private theorem imageTree_file {e : TarEntry} (he : e ∈ entries) (htype : e.type = .file)
    (hls : e.parts = ls) : ∃ bytes, imageTree entries ls = some (.file bytes) := by
  unfold imageTree
  cases hfind : entries.reverse.find? fun e => decide (e.type = .file ∧ e.parts = ls) with
  | some e' => exact ⟨e'.bytes, rfl⟩
  | none =>
      have hno := List.find?_eq_none.mp hfind e (List.mem_reverse.mpr he)
      simp [htype, hls] at hno

theorem imageTree_cases (entries : List TarEntry) (ls : List Text) :
    (∃ e ∈ entries, e.type = .file ∧ e.parts = ls ∧ imageTree entries ls = some (.file e.bytes)) ∨
      imageTree entries ls = some .dir ∨ imageTree entries ls = none := by
  unfold imageTree
  cases hfind : entries.reverse.find? fun e => decide (e.type = .file ∧ e.parts = ls) with
  | some e =>
      have hmem := List.mem_reverse.mp (List.mem_of_find?_eq_some hfind)
      have hfound := List.find?_some hfind
      simp only [decide_eq_true_eq] at hfound
      exact Or.inl ⟨e, hmem, hfound.1, hfound.2, rfl⟩
  | none =>
      right
      by_cases hdir : ls = [] ∨ ∃ e ∈ entries, ls <+: e.parts
      · left
        exact if_pos hdir
      · right
        exact if_neg hdir

theorem imageTree_snoc (hls : ¬ (e.type = .file ∧ e.parts = ls)) :
    imageTree (entries ++ [e]) ls =
      if ls <+: e.parts ∧ imageTree entries ls = none then some .dir else imageTree entries ls := by
  have hfind : (entries ++ [e]).reverse.find? (fun e => decide (e.type = .file ∧ e.parts = ls)) =
      entries.reverse.find? fun e => decide (e.type = .file ∧ e.parts = ls) := by
    rw [List.reverse_append, List.reverse_singleton, List.singleton_append, List.find?_cons_of_neg]
    simpa using hls
  have hexists : (∃ e' ∈ entries ++ [e], ls <+: e'.parts) ↔
      (∃ e' ∈ entries, ls <+: e'.parts) ∨ ls <+: e.parts := by
    simp [or_and_right, exists_or]
  unfold imageTree
  rw [hfind]
  cases entries.reverse.find? fun e => decide (e.type = .file ∧ e.parts = ls) with
  | some e' => simp
  | none =>
      simp only [hexists]
      by_cases hbefore : ls = [] ∨ ∃ e' ∈ entries, ls <+: e'.parts
      · have hafter : ls = [] ∨ (∃ e' ∈ entries, ls <+: e'.parts) ∨ ls <+: e.parts :=
          hbefore.imp_right Or.inl
        simp [hbefore, hafter]
      · by_cases hle : ls <+: e.parts
        · simp [hbefore, hle]
        · simp [hbefore, hle]

private theorem imageTree_snoc_dir (htype : e.type = .dir) :
    imageTree (entries ++ [e]) = makeDirs (imageTree entries) e.parts := by
  funext ls
  rw [imageTree_snoc (by rw [htype]; exact fun h => by cases h.1), makeDirs]

private theorem imageTree_snoc_file (htype : e.type = .file) (hparts : e.parts = ks ++ [k]) :
    imageTree (entries ++ [e]) =
      Function.update (makeDirs (imageTree entries) ks) (ks ++ [k]) (some (.file e.bytes)) := by
  funext ls
  by_cases hls : ls = ks ++ [k]
  · rw [hls, Function.update_self, imageTree, List.reverse_append, List.reverse_singleton,
      List.singleton_append, List.find?_cons_of_pos]
    simp [htype, hparts]
  · have hprefix : ls <+: e.parts ↔ ls <+: ks := by
      rw [hparts, List.prefix_concat_iff]
      exact or_iff_right hls
    rw [Function.update_of_ne hls, imageTree_snoc fun h => hls (h.2.symm.trans hparts)]
    simp only [makeDirs, hprefix]

theorem imageTree_nil : imageTree [] = fun ls => if ls = [] then some .dir else none := by
  funext ls
  simp [imageTree]

private theorem passable (hcons : Consistent (entries ++ [e]))
    (hls : ∀ pre, pre <+: ls → pre <+: e.parts ∧ (e.type = .file → pre ≠ e.parts)) :
    Deploying.Passable (imageTree entries) ls := by
  intro pre hpre
  obtain ⟨hle, hne⟩ := hls pre hpre
  rcases imageTree_cases entries pre with ⟨e', he', htype, hparts, -⟩ | hdir | hnone
  · rw [← hparts] at hle
    obtain ⟨hfile, hsame⟩ := hcons e' (List.mem_append_left _ he') e
      (List.mem_append_right _ List.mem_cons_self) htype hle
    exact absurd (hparts.symm.trans hsame.symm) (hne hfile)
  · exact Or.inr hdir
  · exact Or.inl hnone

private theorem file_or_none (hcons : Consistent (entries ++ [e])) (htype : e.type = .file)
    (hne : e.parts ≠ []) :
    imageTree entries e.parts = none ∨ ∃ bytes, imageTree entries e.parts = some (.file bytes) := by
  by_cases hnone : imageTree entries e.parts = none
  · exact Or.inl hnone
  · by_cases hle : ∃ e' ∈ entries, e.parts <+: e'.parts
    · obtain ⟨e', he', hprefix⟩ := hle
      obtain ⟨hfile, hsame⟩ := hcons e (List.mem_append_right _ List.mem_cons_self) e'
        (List.mem_append_left _ he') htype hprefix
      exact Or.inr (imageTree_file he' hfile hsame)
    · right
      rcases imageTree_cases entries e.parts with ⟨e', -, -, -, hfile⟩ | hdir | hnone'
      · exact ⟨e'.bytes, hfile⟩
      · unfold imageTree at hdir
        split at hdir
        · cases hdir
        · rw [if_neg (not_or.mpr ⟨hne, hle⟩)] at hdir
          cases hdir
      · exact absurd hnone' hnone

end Entries

/-! ## The archive -/

section Archive

variable {g₀ : NameSpace} {c₀ : Nat → List UInt8} {mount ks : List Text} {o : Nat} {T : Tree}
  {entries done : List TarEntry} {e : TarEntry} {s : Extraction ImageWorld} {input rest : List Char}

namespace TarEntry

variable {k : Text}

theorem Regular.path_eq (h : e.Regular mount) (hmount : Proper mount) :
    e.path (render mount) = (mount ++ e.parts).flatMap ('/' :: ·) ++ ending e.type := by
  have hjoin : joinPath (render mount) e.name = mount.flatMap ('/' :: ·) ++ '/' :: e.name := by
    by_cases hne : mount = []
    · rw [hne, joinPath, if_pos (by rfl)]
      rfl
    · rw [joinPath, if_neg (getLast?_render hmount hne), render_of_ne_nil hne, List.append_assoc]
      rfl
  rw [TarEntry.path, hjoin, h.spelled, List.flatMap_append, List.append_assoc]

theorem Regular.parts_ne_nil (h : e.Regular mount) : e.parts ≠ [] := by
  intro hnil
  have hspelled := h.spelled
  rw [hnil, List.flatMap_nil, List.nil_append] at hspelled
  cases htype : e.type with
  | dir =>
      rw [htype] at hspelled
      exact e.name_ne (List.cons.inj hspelled).2
  | file =>
      rw [htype] at hspelled
      cases hspelled

private theorem dir_data (htype : e.type = .dir) : e.data = [] := by
  have hsize : e.size = 0 := by
    apply e.dir_size
    by_contra hother
    rw [TarEntry.type, if_neg hother] at htype
    cases htype
  have hlen := e.data_length
  rw [hsize] at hlen
  exact List.length_eq_zero_iff.mp hlen

end TarEntry

private theorem isRelativePath_plainPath {cs : List Text} (h : Proper cs) :
    isRelativePath (plainPath cs).text = false := by
  apply Bool.eq_false_iff.mpr
  intro hrel
  obtain ⟨c, hc, hdots⟩ := (isRelativePath_iff (plainPath cs).absolute).mp hrel
  rw [plainPath, components_render h.name] at hc
  obtain ⟨-, -, hdot, hdotdot⟩ := h c hc
  exact hdots.elim hdot hdotdot

private theorem extractEntry_grown (ch : Channels) (junk : Nat → UInt8) (hregular : e.Regular mount)
    (hmount : Proper mount) (hcons : Consistent (done ++ [e]))
    (h : Deploying g₀ c₀ mount o s.dirs (imageTree done) (e.data ++ rest)) :
    ∃ s', extractEntry imageDirectories (mounts ch junk) s e.type (e.path (render mount)) e.size =
        some (0, s') ∧ Deploying g₀ c₀ mount o s'.dirs (imageTree (done ++ [e])) rest := by
  have hpath := hregular.path_eq hmount
  have hnil : ('/' : Char) ∉ ([] : Text) := List.not_mem_nil
  cases htype : e.type with
  | dir =>
      rw [htype] at hpath
      have hpass := passable hcons fun pre hpre => ⟨hpre, by
        rw [htype]
        exact fun hfile => by cases hfile⟩
      obtain ⟨n, c, hparse, hmade⟩ := h.parsePath_makes hregular.plain hpass hnil hpath
      have htake : (e.path (render mount)).take (e.path (render mount)).length =
          Deploying.dirText (mount ++ e.parts) := by
        rw [List.take_length]
        exact hpath
      obtain ⟨c', hcreate, h'⟩ := hmade.create_dir hregular.plain htake (by rw [List.take_length])
        (Deploying.makeDirs_self hpass)
      rw [TarEntry.dir_data htype, List.nil_append] at h'
      refine ⟨⟨c', s.log ++ [.extract .dir (e.path (render mount)) e.size]⟩, ?_, ?_⟩
      · simp only [extractEntry, hparse, Option.bind_some, hcreate, Option.map_some]
      · rw [imageTree_snoc_dir htype]
        exact h'
  | file =>
      rw [htype, TarEntry.ending, List.append_nil] at hpath
      obtain ⟨ks, k, hparts⟩ := List.eq_nil_or_concat e.parts |>.resolve_left hregular.parts_ne_nil
      rw [List.concat_eq_append] at hparts
      have hplain := hregular.plain
      have hfiles := file_or_none hcons htype hregular.parts_ne_nil
      rw [hparts] at hplain hfiles
      have hk := hplain.proper k (by simp)
      have hks : Io.Plain (mount ++ ks) := by
        rw [← List.append_assoc] at hplain
        exact hplain.of_append_left
      have hnot : ¬ ks ++ [k] <+: ks := by
        intro hle
        have hlength := hle.length_le
        rw [List.length_append, List.length_singleton] at hlength
        omega
      have hpass : Deploying.Passable (imageTree done) ks := by
        apply passable hcons
        intro pre hpre
        rw [hparts]
        refine ⟨hpre.trans (List.prefix_append ks [k]), ?_⟩
        rintro - rfl
        exact hnot hpre
      have hcut : e.path (render mount) = (mount ++ ks).flatMap ('/' :: ·) ++ '/' :: k := by
        rw [hpath, hparts, ← List.append_assoc, List.flatMap_append, List.flatMap_singleton]
      have htext : e.path (render mount) = render (mount ++ (ks ++ [k])) := by
        rw [hpath, hparts, render_of_ne_nil (by simp)]
      obtain ⟨n, c, hparse, hmade⟩ := h.parsePath_makes hks hpass hk.2.1 hcut
      obtain ⟨st, g, hio, hg, hfree, hcached⟩ := hmade.grown
      obtain ⟨fd, st₁, g₁, t, hopen, hg₁, happending, ht, hfile, hkept⟩ :=
        hg.openFile 0o700 hplain hfree (Deploying.makeDirs_self hpass) (by
          rw [makeDirs_elsewhere hnot]
          exact hfiles)
      have hopened : (mounts ch junk).openFile c.world (e.path (render mount)) =
          ((fd : Int), { c.world with io := some st₁ }) := by
        have habs : ensurePathIsAbsolute st.fs.mem.libc (e.path (render mount)) =
            some (plainPath (mount ++ (ks ++ [k]))).text := by
          rw [htext]
          exact ensure_of_not_relative _ (isRelativePath_plainPath hplain.proper)
        simp only [mounts, hio, habs, AbsolutePath.ofText_text, hopen, answer]
      -- the file is filled
      let s₁ : Extraction ImageWorld :=
        Extraction.note ⟨c, s.log ++ [.extract .file (e.path (render mount)) e.size]⟩
          { c.world with io := some st₁ } (.opened (e.path (render mount)) fd)
      have hinput : s₁.dirs.world.input = e.data ++ rest := hmade.input_eq
      obtain ⟨s', st', hcopy, hcached', hio', hg', hfree', hinput'⟩ :=
        copyBlocks_grown (s := s₁) ch junk (blocks e.size) rfl e.data_length rfl hg₁
          (Function.update_self _ _ _) (by simp) ht hfile happending hinput (by
            have hsmall := hregular.small
            simpa using hsmall)
      have htree : Function.update (Function.update (makeDirs (imageTree done) ks) (ks ++ [k])
          (some (.file []))) (ks ++ [k])
            (some (.file ([] ++ (e.data.take (e.size : Int).toNat).map byteOf))) =
              imageTree (done ++ [e]) := by
        rw [Function.update_idem, imageTree_snoc_file htype hparts]
        rfl
      rw [htree] at hg'
      refine ⟨s', ?_, ⟨st', g₁, hio', hg', hfree', ?_⟩, hinput', ?_⟩
      · have hpos : ¬ ((fd : Int) < 0) := by omega
        simp only [extractEntry, hparse, Option.bind_some, hopened, hpos, if_false]
        exact congrArg some hcopy
      · rw [hcached']
        exact hcached.kept hkept
      · rw [← htree, Function.update_of_ne (by simp), Function.update_of_ne (by simp)]
        exact hmade.root

private theorem readBlock_deploying (ch : Channels) (junk : Nat → UInt8) {block : List Char}
    (hlen : block.length = blockSize) (h : Deploying g₀ c₀ mount o s.dirs T (block ++ rest)) :
    ∃ s', readBlock (mounts ch junk) s = (.ok block, s') ∧
      Deploying g₀ c₀ mount o s'.dirs T rest := by
  have htake : (block ++ rest).take blockSize = block := by rw [← hlen, List.take_left]
  have hdrop : (block ++ rest).drop blockSize = rest := by rw [← hlen, List.drop_left]
  refine ⟨s.note { s.dirs.world with input := rest } (.read (.ok block)), ?_, h.grown, rfl, h.root⟩
  simp only [readBlock, mounts, h.input_eq, htake, hdrop]

private theorem fits_of_regular (h : e.Regular mount) (hmount : Proper mount) :
    e.fits 4096 (render mount) = true := by
  have hshort : (render (mount ++ e.parts)).length + 1 < 4096 := h.plain.short
  have hne : mount ++ e.parts ≠ [] := by
    intro hnil
    exact h.parts_ne_nil (List.append_eq_nil_iff.mp hnil).2
  have hending : (TarEntry.ending e.type).length ≤ 1 := by
    cases e.type <;> decide
  rw [TarEntry.fits, decide_eq_true_eq, h.path_eq hmount, List.length_append, ← render_of_ne_nil hne]
  omega

/-- The loop over the headers: each entry extends the tree by what it describes. -/
theorem unpackLoop_grown (ch : Channels) (junk : Nat → UInt8) {trailing : List Char}
    (hmount : Proper mount) (hregular : ∀ e ∈ entries, e.Regular mount)
    (hcons : Consistent (done ++ entries))
    (h : Deploying g₀ c₀ mount o s.dirs (imageTree done) (archive entries ++ trailing))
    (fuel : Nat) (hfuel : entries.length < fuel) (count : Int) :
    ∃ s', unpackLoop 4096 (readBlock (mounts ch junk))
        (extractEntry imageDirectories (mounts ch junk)) (render mount) fuel count s =
        some (count + entries.length, s') ∧
      Deploying g₀ c₀ mount o s'.dirs (imageTree (done ++ entries)) trailing := by
  obtain ⟨fuel, rfl⟩ := Nat.exists_eq_succ_of_ne_zero (Nat.ne_of_gt (Nat.zero_lt_of_lt hfuel))
  induction entries generalizing done s fuel count with
  | nil =>
      obtain ⟨s', hread, h'⟩ := readBlock_deploying ch junk length_endBlock h
      refine ⟨s', ?_, ?_⟩
      · rw [unpackLoop, hread]
        simp [headerBlock_ne_nil length_endBlock, length_endBlock, headerAction_endBlock]
      · rw [List.append_nil]
        exact h'
  | cons e es ih =>
      have he := hregular e List.mem_cons_self
      rw [archive_cons, List.append_assoc, List.append_assoc] at h
      obtain ⟨s₁, hread, h₁⟩ := readBlock_deploying ch junk e.header_length h
      have hassoc : done ++ [e] ++ es = done ++ e :: es := by simp
      have hcons₁ : Consistent (done ++ [e]) := by
        intro a ha b hb
        rw [← hassoc] at hcons
        exact hcons a (List.mem_append_left _ ha) b (List.mem_append_left _ hb)
      obtain ⟨s₂, hextract, h₂⟩ := extractEntry_grown ch junk he hmount hcons₁ h₁
      obtain ⟨fuel, rfl⟩ := Nat.exists_eq_succ_of_ne_zero
        (Nat.ne_of_gt (Nat.lt_of_le_of_lt (Nat.zero_le _) (Nat.lt_of_succ_lt_succ hfuel)))
      obtain ⟨s', hloop, h'⟩ := ih (fun e' he' => hregular e' (List.mem_cons_of_mem _ he'))
        (by rw [hassoc]; exact hcons) h₂ (count + 1) fuel (Nat.lt_of_succ_lt_succ hfuel)
      have haction := e.headerAction 4096 (render mount)
      rw [fits_of_regular he hmount, if_pos rfl] at haction
      refine ⟨s', ?_, ?_⟩
      · rw [unpackLoop, hread]
        simp only [headerBlock_ne_nil e.header_length, e.header_length, haction, Option.bind_some,
          hextract, ne_eq, not_true_eq_false, if_false, if_true]
        rw [hloop, List.length_cons]
        congr 2
        push_cast
        omega
      · rw [← hassoc]
        exact h'

end Archive

end Zrt.Unpack
