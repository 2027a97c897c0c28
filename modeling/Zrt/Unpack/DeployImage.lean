import Zrt.Fs.PathWalks
import Zrt.Unpack.UnpackTree

/-!
# Deploying an image

The mount point is made with all directories above it, and the archive is unpacked into it.
-/

namespace Zrt.Fs

open Zrt.Framework NameSpace

namespace MemMount

/-- `stat`, which resolves the path: whether there is a directory. -/
def zrtZcallStatRealpath (m : MemMount) (pathname : Text) : Option (Except Errno Bool) :=
  match (m.realpath pathname).bind AbsolutePath.ofText with
  | none => some (.error .enoent)
  | some path =>
      (m.getNode path).bind fun r =>
        match r with
        | .error e => some (.error e)
        | .ok slot => (m.dataAt slot).map fun d => .ok d.isDir

end MemMount

private theorem length_le_render (ds : List Text) : ds.length ≤ (render ds).length := by
  cases ds with
  | nil => exact Nat.zero_le _
  | cons d ds =>
      rw [render_of_ne_nil (by simp)]
      generalize d :: ds = cs
      induction cs with
      | nil => exact Nat.le_refl 0
      | cons c cs ih =>
          rw [List.flatMap_cons, List.length_append, List.length_cons, List.length_cons]
          omega

namespace Io

variable {s : Io} {g : NameSpace} {cs : List Text} {o : Nat}

private theorem Stores.realpath_root (h : s.Stores g) (hdir : g.names.isDir rootObject = true) :
    s.fs.mem.realpath ['/'] = some ['/'] := by
  have hroot : s.fs.mem.dirNamed [] = true :=
    h.dirNamed (fun c hc => absurd hc List.not_mem_nil) (o := rootObject) rfl hdir
  have hresolves : s.fs.mem.resolves (MemMount.passedComponents ['/']) = true := by
    apply MemMount.resolves_iff.mpr
    intro pre hpre
    have hnil : MemMount.passedComponents ['/'] = [] := by decide
    rw [hnil] at hpre
    rw [List.prefix_nil.mp hpre]
    exact hroot
  have hcomponents : components ['/'] = [] := by decide
  unfold MemMount.realpath
  rw [if_pos hresolves, hcomponents]
  rfl

theorem Stores.stat_ok (h : s.Stores g) (hcs : Plain cs)
    (ho : g.names.resolve rootObject cs = .ok o) (hdir : g.names.isDir o = true) :
    s.fs.mem.zrtZcallStatRealpath (render cs) = some (.ok true) := by
  have hreal : s.fs.mem.realpath (render cs) = some (render cs) := by
    by_cases hne : cs = []
    · rw [hne] at ho ⊢
      cases ho
      exact h.realpath_root hdir
    · exact h.realpath_ok hcs.proper hne ho
  have htext : AbsolutePath.ofText (render cs) = some (plainPath cs) :=
    AbsolutePath.ofText_text (plainPath cs)
  obtain ⟨slot, n, p, hnode, -, h0, hn, hvis, hdata⟩ := h.named.shows.getNode_of_find h.sound
    hcs.pathTooLong_plainPath ((find_plainPath hcs.proper).trans ho)
  obtain ⟨d, hd⟩ := h.sound.exists_data h0 hn
  have hkind := h.named.shows.kind slot n d h0 hn hvis hd
  rw [hdata, hdir] at hkind
  simp [MemMount.zrtZcallStatRealpath, hreal, htext, hnode, MemMount.dataAt_of hn, hd, ← hkind]

private theorem Stores.stat_missing (h : s.Stores g) (hcs : Proper cs) {e : NoSuch}
    (he : g.names.resolve rootObject cs = .error e) :
    s.fs.mem.zrtZcallStatRealpath (render cs) = some (.error .enoent) := by
  rw [MemMount.zrtZcallStatRealpath, h.realpath_none hcs he]
  rfl

end Io

end Zrt.Fs

namespace Zrt.Unpack

open Zrt.Framework Zrt.Fs NameSpace ImageWorld

/-! ## The calls -/

/-- The loop over the subpaths, with what the last `mkdir` has answered. -/
def mkpathLoop (filePath : Text) (mode : Nat) :
    Nat → Option Text → Option (Except Errno Unit) → ImageWorld →
      Option (Except Errno Unit) × ImageWorld
  | 0, _, mkdirerr, w => (mkdirerr, w)
  | fuel + 1, cursor, mkdirerr, w =>
      match pathSubpathForward filePath cursor with
      | (none, _) => (mkdirerr, w)
      | (some len, cursor) =>
          if 1 < len then
            let made := w.mkdir mode (filePath.take len)
            mkpathLoop filePath mode fuel cursor (some made.1) made.2
          else mkpathLoop filePath mode fuel cursor mkdirerr w

/-- The answer is that of the last `mkdir`, whatever the others have answered; it is not defined when
none was called. -/
def mkpathRecursively (w : ImageWorld) (filePath : Text) (mode : Nat) :
    Option (Except Errno Unit × ImageWorld) :=
  if filePath = [] then none
  else
    w.io.bind fun s =>
      (s.fs.mem.zrtZcallStatRealpath filePath).bind fun st =>
        match st with
        | .ok _ => some (.error .eexist, w)
        | .error _ =>
            let made := mkpathLoop filePath mode (filePath.length + 2) (some filePath) none w
            made.1.map fun r => (r, made.2)

/-- The second part of `deploy_image`. A `stat` that fails leaves its result undefined. -/
def unpackInto (ch : Channels) (junk : Nat → UInt8) (dstFilename : Vector Char (4096 + 1))
    (mountPath : Text) (fuel : Nat) (x : Extraction ImageWorld) :
    Option (Int × Extraction ImageWorld) :=
  x.dirs.world.io.bind fun s =>
    (s.fs.mem.zrtZcallStatRealpath mountPath).bind fun st =>
      match st with
      | .error _ => none
      | .ok false => some (-1, x)
      | .ok true =>
          unpackTar 4096 (readBlock (mounts ch junk))
            (extractEntry imageDirectories (mounts ch junk)) dstFilename mountPath fuel x

def deployImage (ch : Channels) (junk : Nat → UInt8) (dstFilename : Vector Char (4096 + 1))
    (mountPath : Text) (fuel : Nat) (x : Extraction ImageWorld) :
    Option (Int × Extraction ImageWorld) :=
  (mkpathRecursively x.dirs.world mountPath 0o666).bind fun made =>
    let x : Extraction ImageWorld := { x with dirs := { x.dirs with world := made.2 } }
    if made.1 = .ok () ∨ made.1 = .error .eexist then
      unpackInto ch junk dstFilename mountPath fuel x
    else some (-1, x)

/-! ## The mount point -/

/-- Directories have been made, and everything else is as it was. -/
structure Made (s : Io) (g : NameSpace) (s' : Io) (g' : NameSpace) : Prop where
  stores : s'.Stores g'
  kept : g.names.KeptFrom g'.names rootObject
  next_le : g.next ≤ g'.next
  contents : s'.contents = s.contents
  free : s'.fs.handlesFull = s.fs.handlesFull

/-- The path `cs` leads to a directory, which was there or is new. -/
structure OnTheWay (s : Io) (g : NameSpace) (input : List Char) (cs : List Text) (w : ImageWorld) :
    Prop where
  made : ∃ s' g' d, w.io = some s' ∧ Made s g s' g' ∧ g'.names.resolve rootObject cs = .ok d ∧
    g'.names.isDir d = true ∧ (g' = g ∨ ∀ k, g'.names.look d k = .error .missing)
  input_eq : w.input = input

section MountPoint

variable {s : Io} {g : NameSpace} {input : List Char} {cs ds : List Text} {c : Text}
  {w : ImageWorld} {mode : Nat}

private theorem mkdir_world {s' : Io} {r : Except Errno Unit} {m : MemMount} {p : Text}
    (hio : w.io = some s') (hmk : s'.fs.mem.zrtZcallMkdir p mode = some (r, m)) :
    w.mkdir mode p = (r, { w with io := some { s' with fs := { s'.fs with mem := m } } }) := by
  rw [ImageWorld.mkdir, hio]
  simp only [hmk]

private theorem OnTheWay.mkdir (h : OnTheWay s g input cs w) (mode : Nat) (hcs : Io.Plain (cs ++ [c]))
    (hpass : ∀ t, g.names.resolve rootObject (cs ++ [c]) = .ok t → g.names.isDir t = true) :
    ∃ r w', w.mkdir mode (render (cs ++ [c])) = (r, w') ∧
      (r = .ok () ∨ r = .error .eexist) ∧ OnTheWay s g input (cs ++ [c]) w' := by
  obtain ⟨s', g', d, hio, hmade, hd, hdir, hnew⟩ := h.made
  have hlook := Naming.resolve_snoc (g := g'.names) (o := rootObject) cs c
  rw [hd] at hlook
  have hlook : g'.names.resolve rootObject (cs ++ [c]) = g'.names.look d c := hlook
  cases hfound : g'.names.look d c with
  | ok t =>
      have hsame : g' = g := by
        rcases hnew with hsame | hempty
        · exact hsame
        · rw [hempty c] at hfound
          cases hfound
      rw [hfound] at hlook
      have hmk : s'.fs.mem.zrtZcallMkdir (render (cs ++ [c])) mode =
          some (.error .eexist, s'.fs.mem) := hmade.stores.zrtZcallMkdir_exists hcs hlook
      refine ⟨_, _, mkdir_world hio hmk, Or.inr rfl, ⟨s', g', t, rfl, hmade, hlook, ?_, Or.inl hsame⟩,
        h.input_eq⟩
      rw [hsame] at hlook ⊢
      exact hpass t hlook
  | error e =>
      have hmissing : g'.names.look d c = .error .missing := by
        unfold Naming.look at hfound ⊢
        rw [if_pos hdir] at hfound ⊢
        split at hfound
        · cases hfound
        · rfl
      obtain ⟨m, hmk, hstores⟩ := hmade.stores.zrtZcallMkdir_new mode hcs hd hdir hmissing
      have hroot := hmade.stores.root_lt
      have hunreached := hmade.stores.formed.unreached hroot
      have hkept : g'.names.KeptFrom (g'.add d c true none).names rootObject :=
        Naming.keptFrom_enter true hunreached hmissing
      have hne : d ≠ g'.next := fun heq => hunreached cs (heq ▸ hd)
      have hentered : (g'.add d c true none).names.look d c = .ok g'.next :=
        Naming.look_enter_new hne hdir
      refine ⟨_, _, mkdir_world hio hmk, Or.inl rfl, ⟨_, g'.add d c true none, g'.next, rfl,
        ⟨hstores, hmade.kept.trans hkept, Nat.le_succ_of_le hmade.next_le, hmade.contents,
          hmade.free⟩, ?_, ?_, Or.inr ?_⟩, h.input_eq⟩
      · rw [Naming.resolve_snoc, (hkept cs d hd).1]
        exact hentered
      · have hisDir := Naming.isDir_enter g'.names d c g'.next true g'.next
        rw [if_pos rfl] at hisDir
        exact hisDir
      · intro k
        exact Naming.look_enter_inside hne

private theorem pathSubpathForward_first (c : Text) (ds : List Text) :
    pathSubpathForward (render (c :: ds)) (some (render (c :: ds))) =
      (some 1, some (c ++ ds.flatMap ('/' :: ·))) := by
  have htext : render (c :: ds) = [] ++ '/' :: (c ++ ds.flatMap ('/' :: ·)) := by
    rw [render_of_ne_nil (by simp)]
    rfl
  have hcut := pathComponentForward_cut (render (c :: ds)) (c ++ ds.flatMap ('/' :: ·))
    (s := []) List.not_mem_nil
  rw [if_pos ⟨rfl, render_head _⟩, ← htext] at hcut
  rw [pathSubpathForward, hcut]
  simp

private theorem pathSubpathForward_render (hproper : Proper (cs ++ c :: ds)) :
    pathSubpathForward (render (cs ++ c :: ds)) (some (c ++ ds.flatMap ('/' :: ·))) =
      (some (render (cs ++ [c])).length,
        match ds with
        | [] => none
        | d :: ds' => some (d ++ ds'.flatMap ('/' :: ·))) := by
  obtain ⟨hne, hslash, -⟩ := hproper c (by simp)
  have hlength : (render (cs ++ c :: ds)).length - (c ++ ds.flatMap ('/' :: ·)).length + c.length =
      (render (cs ++ [c])).length := by
    rw [render_of_ne_nil (by simp), render_of_ne_nil (by simp), List.flatMap_append,
      List.flatMap_append, List.flatMap_cons, List.flatMap_singleton]
    simp only [List.length_append, List.length_cons]
    omega
  cases ds with
  | nil =>
      rw [List.flatMap_nil, List.append_nil] at hlength ⊢
      rw [pathSubpathForward, pathComponentForward_last _ hslash, if_neg hne]
      simp only [Option.map_some, Option.getD_some, hlength]
  | cons d ds' =>
      rw [pathSubpathForward, List.flatMap_cons, List.cons_append, pathComponentForward_cut _ _ hslash,
        if_neg fun h => hne h.1]
      rw [List.flatMap_cons, List.cons_append] at hlength
      simp only [Option.map_some, Option.getD_some, hlength]

/-- The loop from the cursor in front of a component on: the induction is over what is left of the
path. -/
private theorem mkpathLoop_makes (mode : Nat) (hplain : Io.Plain (cs ++ c :: ds))
    (hpass : ∀ ls t, ls <+: cs ++ c :: ds → g.names.resolve rootObject ls = .ok t →
      g.names.isDir t = true)
    (h : OnTheWay s g input cs w) (mkdirerr : Option (Except Errno Unit)) (fuel : Nat)
    (hfuel : ds.length < fuel) :
    ∃ r w', mkpathLoop (render (cs ++ c :: ds)) mode fuel (some (c ++ ds.flatMap ('/' :: ·))) mkdirerr
        w = (some r, w') ∧ (r = .ok () ∨ r = .error .eexist) ∧
      OnTheWay s g input (cs ++ c :: ds) w' := by
  induction ds generalizing cs c w mkdirerr fuel with
  | nil =>
      obtain ⟨fuel, rfl⟩ := Nat.exists_eq_succ_of_ne_zero (Nat.ne_of_gt (Nat.zero_lt_of_lt hfuel))
      obtain ⟨r, w', hmk, hr, h'⟩ := h.mkdir mode hplain (hpass _ · (List.prefix_refl _))
      have hne := (hplain.proper c (by simp)).1
      have hlong : 1 < (render (cs ++ [c])).length := by
        have hpos := List.length_pos_of_ne_nil hne
        rw [length_render_snoc]
        omega
      refine ⟨r, w', ?_, hr, h'⟩
      have hnone : ∀ mkdirerr w, mkpathLoop (render (cs ++ [c])) mode fuel none mkdirerr w =
          (mkdirerr, w) := by
        intro mkdirerr w
        cases fuel with
        | zero => rfl
        | succ fuel => rfl
      rw [mkpathLoop, pathSubpathForward_render hplain.proper]
      simp only [hlong, if_true, List.take_length, hmk, hnone]
  | cons d ds ih =>
      obtain ⟨fuel, rfl⟩ := Nat.exists_eq_succ_of_ne_zero (Nat.ne_of_gt (Nat.zero_lt_of_lt hfuel))
      have hassoc : cs ++ c :: d :: ds = cs ++ [c] ++ d :: ds := by simp
      have hstart : cs ++ [c] <+: cs ++ c :: d :: ds := by
        rw [hassoc]
        exact List.prefix_append _ _
      have hplain' : Io.Plain (cs ++ [c]) := by
        rw [hassoc] at hplain
        exact hplain.of_append_left
      obtain ⟨r, w', hmk, -, h'⟩ := h.mkdir mode hplain' (hpass _ · hstart)
      have hne := (hplain.proper c (by simp)).1
      have hlong : 1 < (render (cs ++ [c])).length := by
        have hpos := List.length_pos_of_ne_nil hne
        rw [length_render_snoc]
        omega
      have htake : (render (cs ++ c :: d :: ds)).take (render (cs ++ [c])).length =
          render (cs ++ [c]) := (List.prefix_iff_eq_take.mp (render_starts hstart)).symm
      rw [hassoc] at hplain hpass
      obtain ⟨r', w'', hloop, hr', h''⟩ :=
        ih hplain hpass h' (some r) fuel (Nat.lt_of_succ_lt_succ hfuel)
      rw [← hassoc] at hloop h'' hplain
      refine ⟨r', w'', ?_, hr', h''⟩
      rw [mkpathLoop, pathSubpathForward_render hplain.proper]
      simp only [hlong, if_true, htake, hmk]
      exact hloop

private theorem mkpathRecursively_makes (mode : Nat) {mount : List Text} (hs : s.Stores g)
    (hio : w.io = some s) (hplain : Io.Plain mount)
    (hpass : ∀ ls t, ls <+: mount → g.names.resolve rootObject ls = .ok t → g.names.isDir t = true) :
    ∃ r w', mkpathRecursively w (render mount) mode = some (r, w') ∧
      (r = .ok () ∨ r = .error .eexist) ∧ OnTheWay s g w.input mount w' := by
  have hne : render mount ≠ [] := by
    intro hnil
    have hpos := length_render_pos mount
    rw [hnil] at hpos
    cases hpos
  have hrefl : Made s g s g := ⟨hs, .refl _ _, Nat.le_refl _, rfl, rfl⟩
  cases hmount : g.names.resolve rootObject mount with
  | ok o =>
      have hdir := hpass mount o (List.prefix_refl _) hmount
      refine ⟨.error .eexist, w, ?_, Or.inr rfl, ⟨s, g, o, hio, hrefl, hmount, hdir, Or.inl rfl⟩, rfl⟩
      rw [mkpathRecursively, if_neg hne, hio, Option.bind_some, hs.stat_ok hplain hmount hdir]
      rfl
  | error e =>
      cases mount with
      | nil => cases hmount
      | cons c ds =>
          have hroot := hpass [] rootObject List.nil_prefix rfl
          have hlen : ds.length < (render (c :: ds)).length + 1 := by
            have hds := length_le_render (c :: ds)
            rw [List.length_cons] at hds
            omega
          have hway : OnTheWay s g w.input [] w :=
            ⟨⟨s, g, rootObject, hio, hrefl, rfl, hroot, Or.inl rfl⟩, rfl⟩
          obtain ⟨r, w', hloop, hr, h'⟩ := mkpathLoop_makes mode
            (show Io.Plain ([] ++ c :: ds) from hplain) hpass hway none _ hlen
          refine ⟨r, w', ?_, hr, h'⟩
          have hstep : mkpathLoop (render (c :: ds)) mode ((render (c :: ds)).length + 2)
              (some (render (c :: ds))) none w = (some r, w') := by
            rw [mkpathLoop, pathSubpathForward_first]
            exact hloop
          rw [mkpathRecursively, if_neg hne, hio, Option.bind_some,
            hs.stat_missing hplain.proper hmount, Option.bind_some]
          simp only [hstep, Option.map_some]

end MountPoint

/-! ## The image -/

/-- The unpacker before and after an image: a handle is free, and the remembered path leads to a
directory. -/
structure Ready (c : DirCache ImageWorld) (s : Io) : Prop where
  io : c.world.io = some s
  stores : ∃ g, s.Stores g ∧ RememberedIn g c.cachedFullPath
  free : s.fs.handlesFull = false

/-- An image for an empty directory, or for one that is not there: what it describes can be unpacked at
the mount point. -/
structure Deployable (s : Io) (mount : List Text) (entries : List TarEntry) : Prop where
  plain : Io.Plain mount
  passable : ∀ ls, ls <+: mount → s.lookupNames ls = none ∨ s.lookupNames ls = some .dir
  vacant : ∀ k, '/' ∉ k → s.lookupNames (mount ++ [k]) = none
  regular : ∀ e ∈ entries, e.Regular mount
  consistent : Consistent entries

section Image

variable {s : Io} {g : NameSpace} {mount : List Text} {entries : List TarEntry} {o : Nat}

private theorem look_vacant {s' : Io} {g' : NameSpace} (hs : s.Stores g) (hmade : Made s g s' g')
    (h : Deployable s mount entries) (ho : g'.names.resolve rootObject mount = .ok o)
    (hdir : g'.names.isDir o = true)
    (hnew : g' = g ∨ ∀ k, g'.names.look o k = .error .missing) (k : Text) :
    g'.names.look o k = .error .missing := by
  rcases hnew with hsame | hempty
  · have hmissing : ∀ t, g'.names.look o k ≠ .ok t := by
      intro t ht
      have hslash := (hmade.stores.formed.lt_of_look ht).1
      have hvacant := h.vacant k hslash
      rw [hs.lookupNames_eq (by
        intro c hc
        rcases List.mem_append.mp hc with hc | hc
        · exact h.plain.proper.slashless c hc
        · rw [List.mem_singleton.mp hc]
          exact hslash)] at hvacant
      obtain ⟨e, he⟩ := Naming.tree_eq_none.mp hvacant
      rw [← hsame, Naming.resolve_snoc, ho] at he
      have hlook : g'.names.look o k = .error e := he
      rw [ht] at hlook
      cases hlook
    unfold Naming.look at hmissing ⊢
    rw [if_pos hdir] at hmissing ⊢
    split
    · rename_i t ht
      exact absurd (by rw [ht]) (hmissing t)
    · rfl
  · exact hempty k

private theorem grown_start (hs : s.Stores g) (ho : g.names.resolve rootObject mount = .ok o)
    (hdir : g.names.isDir o = true) (hvacant : ∀ k, g.names.look o k = .error .missing) :
    Grown g s.contents mount o s g (imageTree []) := by
  have hbelow : ∀ ks t, g.names.resolve o ks = .ok t → ks = [] := by
    intro ks t ht
    cases ks with
    | nil => rfl
    | cons k ks =>
        rw [Naming.resolve, hvacant k] at ht
        cases ht
  constructor
  · exact hs
  · exact ho
  · exact hs.formed.lt_of_resolve hs.root_lt ho
  · exact Nat.le_refl _
  · intro ks ks' t ht ht'
    rw [hbelow ks t ht, hbelow ks' t ht']
  · intro ks t hks ht
    exact absurd (hbelow ks t ht) hks
  · exact .refl _ _
  · exact fun _ _ => rfl
  · funext ks
    simp only [imageTree_nil]
    by_cases hks : ks = []
    · rw [hks, if_pos rfl]
      exact Naming.tree_eq_dir.mpr ⟨o, rfl, hdir⟩
    · rw [if_neg hks]
      cases ht : g.names.resolve o ks with
      | ok t => exact absurd (hbelow ks t ht) hks
      | error e => exact Naming.tree_eq_none.mpr ⟨e, ht⟩

end Image

/-- A directory `d` and a file of one byte in it. -/
def imageDir : TarEntry where
  header := ustarHeader "d/".toList "00000000000".toList ['5'] []
  data := []
  name := "d/".toList
  size := 0
  header_length := by decide +kernel
  name_ne := by decide
  name_nul := by decide
  name_eq := ⟨List.replicate 97 nul, by decide +kernel⟩
  prefix_eq := by decide +kernel
  size_eq := ⟨[], "00000000000".toList, nul, [], by decide +kernel, List.forall_mem_nil _, by decide,
    List.all_eq_true.mp (by decide), Or.inl rfl, by decide⟩
  size_lt := by decide
  dir_size := fun _ => rfl
  data_length := by decide

def imageFile : TarEntry where
  header := ustarHeader "d/f".toList "00000000001".toList ['0'] []
  data := padded ['d'] blockSize
  name := "d/f".toList
  size := 1
  header_length := by decide +kernel
  name_ne := by decide
  name_nul := by decide
  name_eq := ⟨List.replicate 96 nul, by decide +kernel⟩
  prefix_eq := by decide +kernel
  size_eq := ⟨[], "00000000001".toList, nul, [], by decide +kernel, List.forall_mem_nil _, by decide,
    List.all_eq_true.mp (by decide), Or.inl rfl, by decide⟩
  size_lt := one_lt_size_bound
  dir_size := by decide +kernel
  data_length := by decide +kernel

private theorem stores_start : Io.start.Stores NameSpace.fresh.trimmed :=
  Io.stores_of_named FileSystem.named_start OpenFiles.accounts_start Io.sane_start

private theorem ready_start (input : List Char) : Ready ⟨[], ⟨some .start, input⟩⟩ .start where
  io := rfl
  stores := ⟨_, stores_start, Or.inl rfl⟩
  free := by decide

private theorem plain_nested : Io.Plain ["mnt".toList, "d".toList, "f".toList] where
  proper := by
    unfold Proper
    decide
  names := by decide
  short := by decide

private theorem consistent_nested : Consistent [imageDir, imageFile] := by
  intro e he e' he' htype hprefix
  have hfile : imageDir.type = .dir := by decide +kernel
  have hnot : ¬ imageFile.parts <+: imageDir.parts := by decide
  simp only [List.mem_cons, List.not_mem_nil, or_false] at he he'
  rcases he with rfl | rfl
  · rw [hfile] at htype
    cases htype
  · rcases he' with rfl | rfl
    · exact absurd hprefix hnot
    · exact ⟨htype, rfl⟩

private theorem deployable_nested : Deployable .start ["mnt".toList] [imageDir, imageFile] where
  plain := plain_nested.of_append_left
  passable := by
    intro ls hls
    have hls : ls <+: [] ++ ["mnt".toList] := hls
    rcases List.prefix_concat_iff.mp hls with rfl | hnil
    · exact Or.inl rfl
    · rw [List.prefix_nil.mp hnil]
      exact Or.inr rfl
  vacant := fun k _ => rfl
  regular := by
    intro e he
    simp only [List.mem_cons, List.not_mem_nil, or_false] at he
    rcases he with rfl | rfl
    · exact ⟨by decide +kernel, plain_nested.of_append_left, by decide⟩
    · exact ⟨by decide +kernel, plain_nested, by decide⟩
  consistent := consistent_nested

end Zrt.Unpack
