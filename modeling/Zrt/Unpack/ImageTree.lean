import Zrt.Fs.DirectoryTable
import Zrt.Unpack.ImageWorld

/-!
# The tree below the mount point

While an image is unpacked, the directory it is unpacked into is the root of a tree of new objects. A
call of the unpacker changes this tree in one place, and what was there before stays as it is.
-/

namespace Zrt.Fs

open Zrt.Framework NameSpace

/-- The path with the given components. -/
def plainPath (cs : List Text) : AbsolutePath := ⟨render cs, render_head cs⟩

theorem path_plainPath {cs : List Text} (h : Proper cs) : (plainPath cs).path = cs := by
  rw [AbsolutePath.path, plainPath, components_render h.name]
  exact pathCollapse_of_no_dots fun c hc => (h c hc).2.2

theorem Proper.of_append_left {cs ds : List Text} (h : Proper (cs ++ ds)) : Proper cs :=
  fun c hc => h c (List.mem_append_left _ hc)

theorem Proper.slashless {cs : List Text} (h : Proper cs) : ∀ c ∈ cs, '/' ∉ c :=
  fun c hc => (h c hc).2.1

theorem render_of_ne_nil {cs : List Text} (hne : cs ≠ []) :
    render cs = cs.flatMap ('/' :: ·) := by rw [render, if_neg hne]

theorem getLast?_render {cs : List Text} (h : Proper cs) (hne : cs ≠ []) :
    (render cs).getLast? ≠ some '/' := by
  rcases List.eq_nil_or_concat cs with rfl | ⟨init, c, rfl⟩
  · exact absurd rfl hne
  · rw [List.concat_eq_append] at h ⊢
    obtain ⟨hc, hslash, -⟩ := h c (List.mem_append_right _ List.mem_cons_self)
    rw [render_snoc, List.getLast?_append_cons, List.getLast?_cons]
    intro hlast
    rw [Option.some_inj] at hlast
    cases hgetLast : c.getLast? with
    | none => exact hc (List.getLast?_eq_none_iff.mp hgetLast)
    | some x =>
        rw [hgetLast, Option.getD_some] at hlast
        rw [hlast] at hgetLast
        exact hslash (List.mem_of_getLast? hgetLast)

namespace Io

variable {s : Io} {g : NameSpace} {cs : List Text} {o mode : Nat}

/-! ## `mkdir` on spelled paths -/

theorem Stores.dirNamed (h : s.Stores g) (hcs : ∀ c ∈ cs, '/' ∉ c)
    (ho : g.names.resolve rootObject cs = .ok o) (hdir : g.names.isDir o = true) :
    s.fs.mem.dirNamed cs = true := by
  obtain ⟨r, hr, hfound⟩ := h.walk hcs
  rw [ho] at hfound
  generalize hx : (Except.ok o : Except NoSuch Nat) = x at hfound
  cases hfound with
  | error e => cases hx
  | @ok slot n hs hn hvis =>
      cases hx
      obtain ⟨d, hd⟩ := h.sound.exists_data hs hn
      have hkind := h.named.shows.kind slot n d hs hn hvis hd
      refine MemMount.dirNamed_eq_true.mpr ⟨slot, d, hr, ?_, ?_⟩
      · rw [MemMount.dataAt_of hn, hd]
      · rw [← hkind]
        exact hdir

theorem Stores.realpath_ok (h : s.Stores g) (hcs : Proper cs) (hne : cs ≠ [])
    (ho : g.names.resolve rootObject cs = .ok o) :
    s.fs.mem.realpath (render cs) = some (render cs) := by
  have hcollapse := pathCollapse_of_no_dots fun c hc => (hcs c hc).2.2
  have hcomponents := components_render hcs.name
  have hresolves : s.fs.mem.resolves cs.dropLast = true := by
    apply MemMount.resolves_iff.mpr
    intro pre hpre
    obtain ⟨ls, hls⟩ := hpre
    have hsplit : cs = pre ++ (ls ++ [cs.getLast hne]) := by
      rw [← List.append_assoc, hls, List.dropLast_append_getLast]
    rw [hsplit] at hcs ho
    have hsome : (g.names.tree (fun _ => ()) rootObject (pre ++ (ls ++ [cs.getLast hne]))).isSome := by
      simp [Naming.tree, ho]
    obtain ⟨d, hd, hdir⟩ := Naming.tree_eq_dir.mp (Naming.tree_dir_of_isSome hsome (by simp))
    rw [pathCollapse_of_no_dots fun c hc => (hcs.of_append_left c hc).2.2]
    exact h.dirNamed hcs.of_append_left.slashless hd hdir
  obtain ⟨r, hr, hfound⟩ := h.walk hcs.slashless
  rw [ho] at hfound
  generalize hx : (Except.ok o : Except NoSuch Nat) = x at hfound
  cases hfound with
  | error e => cases hx
  | ok hs hn hvis =>
      simp [MemMount.realpath, MemMount.passedComponents, getLast?_render hcs hne, hcollapse,
        hresolves, hr, canonical, hcomponents]

theorem Stores.realpath_none (h : s.Stores g) (hcs : Proper cs) {e : NoSuch}
    (he : g.names.resolve rootObject cs = .error e) : s.fs.mem.realpath (render cs) = none := by
  have hcollapse := path_plainPath hcs
  obtain ⟨r, hr, hfound⟩ := h.walk hcs.slashless
  rw [he] at hfound
  cases hfound with
  | error e =>
      rw [AbsolutePath.path, plainPath] at hcollapse
      simp only [MemMount.realpath, hcollapse, hr]
      split <;> rfl

theorem render_ne_nil (cs : List Text) : render cs ≠ [] := by
  intro hnil
  have hpos := length_render_pos cs
  rw [hnil] at hpos
  cases hpos

private theorem zrealpath_render_snoc (libc : Libc) {c : Text} (hc : Proper (cs ++ [c]))
    (hlen : (render (cs ++ [c])).length < pathMax)
    (hreal : cs ≠ [] → libc.realpath (render cs) = some (render cs)) :
    zrealpath libc (render (cs ++ [c])) = some (some (render (cs ++ [c]))) := by
  obtain ⟨-, hslash, hdot, hdots⟩ := hc c (List.mem_append_right _ List.mem_cons_self)
  rw [render_snoc] at hlen
  rw [render_snoc, zrealpath_cut libc hslash, if_neg fun h => h.elim hdots hdot]
  by_cases hcs : cs = []
  · subst hcs
    exact (if_pos rfl).trans (if_pos hlen)
  · have hfront : cs.flatMap ('/' :: ·) ≠ [] := by
      rw [← render_of_ne_nil hcs]
      exact render_ne_nil cs
    have hshort : (cs.flatMap ('/' :: ·)).length < pathMax := by
      rw [List.length_append] at hlen
      omega
    have hbase := hreal hcs
    rw [render_of_ne_nil hcs] at hbase
    rw [if_neg hfront, if_pos hshort, hbase, Option.elim_some, mergePathComponents_slash hlen,
      Option.map_some]

theorem zrealpath_slash (libc : Libc) {cs : List Text} (hlen : (render cs).length + 1 < pathMax)
    {resolved : Option Text} (hreal : libc.realpath (render cs) = resolved)
    (hsame : ∀ base ∈ resolved, base = render cs) :
    zrealpath libc (render cs ++ ['/']) = some (resolved.map (· ++ ['/'])) := by
  have hnil : ('/' : Char) ∉ ([] : Text) := List.not_mem_nil
  have hnodots : ¬(([] : Text) = ['.', '.'] ∨ ([] : Text) = ['.']) := by decide
  rw [zrealpath_cut libc hnil, if_neg hnodots, if_neg (render_ne_nil cs),
    if_pos (Nat.lt_of_succ_lt hlen), hreal]
  cases resolved with
  | none => rfl
  | some base =>
      have hmerged : (render cs ++ ['/']).length < pathMax := by
        rw [List.length_append]
        exact hlen
      rw [hsame base rfl, Option.elim_some, mergePathComponents_slash hmerged]
      rfl

private theorem zrealpath_root (libc : Libc) : zrealpath libc ['/'] = some (some ['/']) := by
  have hnil : ('/' : Char) ∉ ([] : Text) := List.not_mem_nil
  have hnodots : ¬(([] : Text) = ['.', '.'] ∨ ([] : Text) = ['.']) := by decide
  have hcut := zrealpath_cut libc (a := []) hnil
  rw [if_neg hnodots, if_pos rfl] at hcut
  exact hcut.trans (if_pos (by decide))

theorem Stores.memMkdir_exists (h : s.Stores g) {path : AbsolutePath}
    (hshort : MemMount.pathTooLong path = false) (ho : g.find path = .ok o) :
    s.fs.mem.memMkdir path mode = some (.error .eexist, s.fs.mem) := by
  obtain ⟨⟨r, m⟩, hcall⟩ := h.sound.exists_memMkdir path mode
  obtain ⟨hr, -⟩ := h.named.shows.memMkdir h.sound hcall
  obtain ⟨d, hd⟩ := MemMount.NameSpace.find_dotdot ho
  have heexist : r = .error .eexist := by
    rw [hr]
    simp [NameSpace.memMkdir, NameSpace.getNode, hshort, hd, ho, NameSpace.mkdir, Except.mapError]
  rw [heexist] at hcall
  rcases MemMount.memMkdir_entered hcall with ⟨e, -, hsame⟩ | ⟨hok, -⟩
  · rw [hcall, hsame]
  · cases hok

private theorem Stores.memMkdir_new (h : s.Stores g) {path : AbsolutePath} (mode : Nat) {dir : Nat}
    (hshort : MemMount.pathTooLong path = false) (hdir : g.find path.dotdot = .ok dir)
    (hisDir : g.names.isDir dir = true) {e : NoSuch} (he : g.find path = .error e)
    (hmissing : e = .missing) :
    ∃ m, s.fs.mem.memMkdir path mode = some (.ok (), m) ∧
      Stores { s with fs := { s.fs with mem := m } } (g.add dir path.last true none) := by
  subst hmissing
  obtain ⟨⟨r, m⟩, hcall⟩ := h.sound.exists_memMkdir path mode
  obtain ⟨hr, hstores⟩ := h.memMkdir hcall
  have hname : ¬ nameMax < path.last.length := by
    intro hlong
    simp [MemMount.pathTooLong, hlong] at hshort
  have hmade : g.memMkdir path = (.ok (), g.add dir path.last true none) := by
    simp [NameSpace.memMkdir, NameSpace.getNode, hshort, hdir, he, NameSpace.mkdir, hisDir, hname,
      Except.mapError, errnoOf]
  rw [hmade] at hr hstores
  rw [hr] at hcall
  exact ⟨m, hcall, hstores⟩

/-- Components whose path is not too long, with a slash behind it too. -/
structure Plain (cs : List Text) : Prop where
  proper : Proper cs
  names : ∀ c ∈ cs, c.length ≤ nameMax
  short : (render cs).length + 1 < pathMax

theorem Plain.of_append_left {ds : List Text} (h : Plain (cs ++ ds)) : Plain cs where
  proper := h.proper.of_append_left
  names := fun c hc => h.names c (List.mem_append_left _ hc)
  short := Nat.lt_of_le_of_lt
    (Nat.succ_le_succ (render_starts (List.prefix_append cs ds)).length_le) h.short

theorem Plain.pathTooLong (h : Plain cs) {path : AbsolutePath} (hpath : path.path = cs)
    (hlen : path.text.length ≤ pathMax) : MemMount.pathTooLong path = false := by
  have hlast : path.last.length ≤ nameMax := by
    rw [AbsolutePath.last, hpath]
    cases hc : cs.getLast? with
    | none => decide
    | some c => exact h.names c (List.mem_of_getLast? hc)
  simp [MemMount.pathTooLong, hlast, hlen]

theorem Plain.pathTooLong_plainPath (h : Plain cs) : MemMount.pathTooLong (plainPath cs) = false :=
  h.pathTooLong (path_plainPath h.proper) (Nat.le_of_lt (Nat.lt_of_succ_lt h.short))

theorem find_plainPath (hcs : Proper cs) :
    g.find (plainPath cs) = g.names.resolve rootObject cs := by
  rw [NameSpace.find, path_plainPath hcs]

theorem find_dotdot_plainPath {c : Text} (hcs : Proper (cs ++ [c])) :
    g.find (plainPath (cs ++ [c])).dotdot = g.names.resolve rootObject cs := by
  rw [NameSpace.find, AbsolutePath.path_dotdot, path_plainPath hcs, List.dropLast_concat]

theorem last_plainPath {c : Text} (hcs : Proper (cs ++ [c])) :
    (plainPath (cs ++ [c])).last = c := by
  rw [AbsolutePath.last, path_plainPath hcs, List.getLast?_concat, Option.getD_some]

theorem Stores.zrealpath_ok (h : s.Stores g) {c : Text} (hcs : Plain (cs ++ [c]))
    (ho : g.names.resolve rootObject cs = .ok o) :
    zrealpath s.fs.mem.libc (render (cs ++ [c])) = some (some (render (cs ++ [c]))) := by
  apply zrealpath_render_snoc _ hcs.proper (Nat.lt_of_succ_lt hcs.short)
  intro hne
  rw [MemMount.libc_realpath]
  exact h.realpath_ok hcs.proper.of_append_left hne ho

theorem Stores.zrtZcallMkdir_exists (h : s.Stores g) (hcs : Plain cs)
    (ho : g.names.resolve rootObject cs = .ok o) :
    s.fs.mem.zrtZcallMkdir (render cs) mode = some (.error .eexist, s.fs.mem) := by
  have hreal : zrealpath s.fs.mem.libc (render cs) = some (some (render cs)) := by
    rcases List.eq_nil_or_concat cs with rfl | ⟨init, c, rfl⟩
    · exact zrealpath_root _
    · rw [List.concat_eq_append] at hcs ho ⊢
      obtain ⟨d, hd, -⟩ := Naming.isDir_of_resolve_snoc ho
      exact h.zrealpath_ok hcs hd
  have hfind := find_plainPath (g := g) hcs.proper
  have htext : AbsolutePath.ofText (render cs) = some (plainPath cs) :=
    AbsolutePath.ofText_text (plainPath cs)
  simp only [MemMount.zrtZcallMkdir, hreal, Option.bind_some, htext]
  exact h.memMkdir_exists hcs.pathTooLong_plainPath (hfind.trans ho)

theorem Stores.zrtZcallMkdir_new (h : s.Stores g) {c : Text} (mode : Nat) {dir : Nat} (hcs : Plain (cs ++ [c]))
    (hdir : g.names.resolve rootObject cs = .ok dir) (hisDir : g.names.isDir dir = true)
    (hmissing : g.names.look dir c = .error .missing) :
    ∃ m, s.fs.mem.zrtZcallMkdir (render (cs ++ [c])) mode = some (.ok (), m) ∧
      Stores { s with fs := { s.fs with mem := m } } (g.add dir c true none) := by
  have hreal := h.zrealpath_ok hcs hdir
  have hfind : g.find (plainPath (cs ++ [c])) = .error .missing := by
    rw [find_plainPath hcs.proper, Naming.resolve_snoc, hdir]
    exact hmissing
  have hdotdot := (find_dotdot_plainPath (g := g) hcs.proper).trans hdir
  have htext : AbsolutePath.ofText (render (cs ++ [c])) = some (plainPath (cs ++ [c])) :=
    AbsolutePath.ofText_text (plainPath (cs ++ [c]))
  have hnew := h.memMkdir_new mode hcs.pathTooLong_plainPath hdotdot hisDir hfind rfl
  rw [last_plainPath hcs.proper] at hnew
  simp only [MemMount.zrtZcallMkdir, hreal, Option.bind_some, htext]
  exact hnew

private theorem Stores.zrtZcallMkdir_slash (h : s.Stores g) (hcs : Plain cs) (hne : cs ≠ [])
    (ho : g.names.resolve rootObject cs = .ok o) :
    s.fs.mem.zrtZcallMkdir (render cs ++ ['/']) mode = some (.error .eexist, s.fs.mem) := by
  have hhead : (render cs ++ ['/']).head? = some '/' := by
    rw [List.head?_append, render_head]
    rfl
  have htext : AbsolutePath.ofText (render cs ++ ['/']) = some ⟨render cs ++ ['/'], hhead⟩ :=
    AbsolutePath.ofText_text ⟨render cs ++ ['/'], hhead⟩
  have hpath : (⟨render cs ++ ['/'], hhead⟩ : AbsolutePath).path = cs := by
    rw [AbsolutePath.path]
    show pathCollapse (components (render cs ++ ['/'])) = cs
    rw [components_append, components_nil, List.append_nil]
    exact path_plainPath hcs.proper
  have hshort := hcs.pathTooLong hpath (by
    have hlt := hcs.short
    simp only [List.length_append, List.length_singleton]
    omega)
  have hfind : g.find ⟨render cs ++ ['/'], hhead⟩ = .ok o := by rw [NameSpace.find, hpath, ho]
  have hreal := zrealpath_slash s.fs.mem.libc hcs.short (h.realpath_ok hcs.proper hne ho)
    fun base hbase => (Option.some.inj hbase).symm
  simp only [MemMount.zrtZcallMkdir, hreal, Option.map_some, Option.bind_some, htext]
  exact h.memMkdir_exists hshort hfind

private theorem Stores.zrtZcallMkdir_slash_missing (h : s.Stores g) (hcs : Plain cs) {e : NoSuch}
    (he : g.names.resolve rootObject cs = .error e) :
    s.fs.mem.zrtZcallMkdir (render cs ++ ['/']) mode = some (.error .enoent, s.fs.mem) := by
  have hreal := zrealpath_slash s.fs.mem.libc hcs.short (h.realpath_none hcs.proper he) nofun
  rw [MemMount.zrtZcallMkdir, hreal]
  rfl

end Io

end Zrt.Fs

namespace Zrt.Unpack

open Zrt.Framework Zrt.Fs NameSpace

/-- What the names below the mount point lead to. -/
abbrev Tree : Type := List Text → Option (Item (List UInt8))

/-- The state `s` stores the tree `T` below the object `o` of the mount point, with new objects only;
the graph `g₀` and the contents `c₀` of before are still there. -/
structure Grown (g₀ : NameSpace) (c₀ : Nat → List UInt8) (mount : List Text) (o : Nat) (s : Io)
    (g : NameSpace) (T : Tree) : Prop where
  stores : s.Stores g
  mounted : g.names.resolve rootObject mount = .ok o
  old : o < g₀.next
  next_le : g₀.next ≤ g.next
  oneName : g.names.OneName o
  new : ∀ ks t, ks ≠ [] → g.names.resolve o ks = .ok t → g₀.next ≤ t
  kept : g₀.names.KeptFrom g.names rootObject
  contents : ∀ t < g₀.next, s.contents t = c₀ t
  tree : g.names.tree s.contents o = T

namespace Grown

variable {g₀ g : NameSpace} {c₀ : Nat → List UInt8} {mount ks : List Text} {o mode : Nat} {s : Io}
  {T : Tree} {k : Text}

theorem unreached (h : Grown g₀ c₀ mount o s g T) (ls : List Text) :
    g.names.resolve o ls ≠ .ok g.next :=
  h.stores.formed.unreached (Nat.lt_of_lt_of_le h.old h.next_le) ls

theorem resolve_mount (h : Grown g₀ c₀ mount o s g T) (ls : List Text) :
    g.names.resolve rootObject (mount ++ ls) = g.names.resolve o ls :=
  Naming.resolve_append_of_ok h.mounted ls

theorem exists_dir (h : Grown g₀ c₀ mount o s g T) (hT : T ks = some .dir) :
    ∃ d, g.names.resolve o ks = .ok d ∧ g.names.isDir d = true := by
  rw [← h.tree] at hT
  exact Naming.tree_eq_dir.mp hT

theorem look_missing (h : Grown g₀ c₀ mount o s g T) {d : Nat} (hd : g.names.resolve o ks = .ok d)
    (hdir : g.names.isDir d = true) (hT : T (ks ++ [k]) = none) :
    g.names.look d k = .error .missing := by
  rw [← h.tree] at hT
  obtain ⟨e, he⟩ := Naming.tree_eq_none.mp hT
  rw [Naming.resolve_snoc, hd] at he
  have hlook : g.names.look d k = .error e := he
  unfold Naming.look at hlook ⊢
  rw [if_pos hdir] at hlook ⊢
  split at hlook
  · cases hlook
  · rfl

theorem kept_add (h : Grown g₀ c₀ mount o s g T) {d : Nat} (hd : g.names.resolve o ks = .ok d)
    (hdir : g.names.isDir d = true) (hT : T (ks ++ [k]) = none) (isDir : Bool) :
    g.names.KeptFrom (g.add d k isDir none).names rootObject :=
  Naming.keptFrom_enter isDir (h.stores.formed.unreached h.stores.root_lt) (h.look_missing hd hdir hT)

theorem add (h : Grown g₀ c₀ mount o s g T) {s' : Io} {d : Nat} {isDir : Bool}
    (hd : g.names.resolve o ks = .ok d) (hdir : g.names.isDir d = true)
    (hT : T (ks ++ [k]) = none) (hstores : s'.Stores (g.add d k isDir none))
    (hcontents : ∀ t, t ≠ g.next → s'.contents t = s.contents t) :
    Grown g₀ c₀ mount o s' (g.add d k isDir none)
      (Function.update T (ks ++ [k])
        (some (if isDir then .dir else .file (s'.contents g.next)))) := by
  have hmissing := h.look_missing hd hdir hT
  have hkept := h.kept_add hd hdir hT isDir
  have hsame : s'.contents = Function.update s.contents g.next (s'.contents g.next) := by
    funext t
    by_cases ht : t = g.next
    · rw [ht, Function.update_self]
    · rw [Function.update_of_ne ht, hcontents t ht]
  constructor
  · exact hstores
  · exact (hkept mount o h.mounted).1
  · exact h.old
  · exact Nat.le_succ_of_le h.next_le
  · exact Naming.oneName_enter h.oneName h.unreached hd hdir hmissing
  · intro ls t hls ht
    have hresolve := Naming.resolve_enter isDir h.oneName h.unreached hd hdir hmissing ls
    by_cases heq : ls = ks ++ [k]
    · have hnew : (g.add d k isDir none).names.resolve o ls = .ok g.next := hresolve.1 heq
      rw [hnew] at ht
      cases ht
      exact h.next_le
    · exact h.new ls t hls ((hresolve.2 heq t).mp ht)
  · exact h.kept.trans hkept
  · intro t ht
    have hne : t ≠ g.next := Nat.ne_of_lt (Nat.lt_of_lt_of_le ht h.next_le)
    rw [hcontents t hne, h.contents t ht]
  · have henter := Naming.tree_enter s'.contents isDir h.oneName h.unreached hd
      hdir hmissing
    have hbefore : g.names.tree s'.contents o = T := by
      rw [hsame, Naming.tree_update_unreached h.unreached, h.tree]
    rw [hbefore] at henter
    exact henter

theorem setContents (h : Grown g₀ c₀ mount o s g T) {s' : Io} {t : Nat} {bytes : List UInt8}
    (hks : ks ≠ []) (ht : g.names.resolve o ks = .ok t) (hfile : g.names.isDir t = false)
    (hstores : s'.Stores g) (hcontents : s'.contents = Function.update s.contents t bytes) :
    Grown g₀ c₀ mount o s' g (Function.update T ks (some (.file bytes))) := by
  have hnew := h.new ks t hks ht
  refine { h with stores := hstores, contents := ?_, tree := ?_ }
  · intro u hu
    have hne : u ≠ t := Nat.ne_of_lt (Nat.lt_of_lt_of_le hu hnew)
    rw [hcontents, Function.update_of_ne hne, h.contents u hu]
  · rw [hcontents, Naming.tree_update h.oneName ht hfile, h.tree]

/-! ## The calls of the unpacker -/

theorem mkdir_exists (h : Grown g₀ c₀ mount o s g T) (hcs : Io.Plain (mount ++ ks))
    (hT : (T ks).isSome) :
    s.fs.mem.zrtZcallMkdir (render (mount ++ ks)) mode = some (.error .eexist, s.fs.mem) := by
  rw [← h.tree, Naming.tree] at hT
  cases ht : g.names.resolve o ks with
  | ok t => exact h.stores.zrtZcallMkdir_exists hcs ((h.resolve_mount ks).trans ht)
  | error e =>
      rw [ht] at hT
      cases hT

theorem mkdir_slash (h : Grown g₀ c₀ mount o s g T) (hcs : Io.Plain (mount ++ ks))
    (hne : mount ++ ks ≠ []) (hT : (T ks).isSome) :
    s.fs.mem.zrtZcallMkdir (render (mount ++ ks) ++ ['/']) mode =
      some (.error .eexist, s.fs.mem) := by
  rw [← h.tree, Naming.tree] at hT
  cases ht : g.names.resolve o ks with
  | ok t => exact h.stores.zrtZcallMkdir_slash hcs hne ((h.resolve_mount ks).trans ht)
  | error e =>
      rw [ht] at hT
      cases hT

theorem mkdir_slash_missing (h : Grown g₀ c₀ mount o s g T) (hcs : Io.Plain (mount ++ ks))
    (hT : T ks = none) :
    s.fs.mem.zrtZcallMkdir (render (mount ++ ks) ++ ['/']) mode =
      some (.error .enoent, s.fs.mem) := by
  rw [← h.tree] at hT
  obtain ⟨e, he⟩ := Naming.tree_eq_none.mp hT
  exact h.stores.zrtZcallMkdir_slash_missing hcs ((h.resolve_mount ks).trans he)

theorem mkdir_new (h : Grown g₀ c₀ mount o s g T) (mode : Nat) (hcs : Io.Plain (mount ++ (ks ++ [k])))
    (hdir : T ks = some .dir) (hT : T (ks ++ [k]) = none) :
    ∃ m g', s.fs.mem.zrtZcallMkdir (render (mount ++ (ks ++ [k]))) mode = some (.ok (), m) ∧
      Grown g₀ c₀ mount o { s with fs := { s.fs with mem := m } } g'
        (Function.update T (ks ++ [k]) (some .dir)) ∧ g.names.KeptFrom g'.names rootObject := by
  obtain ⟨d, hd, hisDir⟩ := h.exists_dir hdir
  have hmissing := h.look_missing hd hisDir hT
  rw [← List.append_assoc] at hcs ⊢
  obtain ⟨m, hcall, hstores⟩ :=
    h.stores.zrtZcallMkdir_new mode hcs ((h.resolve_mount ks).trans hd) hisDir hmissing
  exact ⟨m, _, hcall, h.add hd hisDir hT hstores fun _ _ => rfl, h.kept_add hd hisDir hT true⟩

theorem openFile (h : Grown g₀ c₀ mount o s g T) (mode : Nat) (hcs : Io.Plain (mount ++ (ks ++ [k])))
    (hfree : s.fs.handlesFull = false) (hdir : T ks = some .dir)
    (hT : T (ks ++ [k]) = none ∨ ∃ bytes, T (ks ++ [k]) = some (.file bytes)) :
    ∃ fd : Nat, ∃ s' g' t, s.memOpen (plainPath (mount ++ (ks ++ [k]))) Io.newFileFlags mode =
        some (.ok fd, s') ∧
      Grown g₀ c₀ mount o s' g' (Function.update T (ks ++ [k]) (some (.file []))) ∧
      s'.Appending fd t ∧ g'.names.resolve o (ks ++ [k]) = .ok t ∧ g'.names.isDir t = false ∧
      g.names.KeptFrom g'.names rootObject := by
  obtain ⟨d, hd, hisDir⟩ := h.exists_dir hdir
  have hshort := hcs.pathTooLong_plainPath
  have hassoc : mount ++ (ks ++ [k]) = mount ++ ks ++ [k] := (List.append_assoc mount ks [k]).symm
  have hproper : Proper (mount ++ ks ++ [k]) := hassoc ▸ hcs.proper
  have hdotdot : g.find (plainPath (mount ++ (ks ++ [k]))).dotdot = .ok d := by
    rw [hassoc, Io.find_dotdot_plainPath hproper, h.resolve_mount, hd]
  have hfind : g.find (plainPath (mount ++ (ks ++ [k]))) = g.names.resolve o (ks ++ [k]) := by
    rw [Io.find_plainPath hcs.proper, h.resolve_mount]
  have hlast : (plainPath (mount ++ (ks ++ [k]))).last = k := by
    rw [hassoc, Io.last_plainPath hproper]
  rcases hT with hT | ⟨bytes, hT⟩
  · have hmissing := h.look_missing hd hisDir hT
    have hnone : g.find (plainPath (mount ++ (ks ++ [k]))) = .error .missing := by
      rw [hfind, Naming.resolve_snoc, hd]
      exact hmissing
    have hcreat : (g.creat (plainPath (mount ++ (ks ++ [k]))) none).2 = g.add d k false none := by
      simp [NameSpace.creat, hdotdot, hisDir, hnone, hlast]
    have hresolve := Naming.resolve_enter false h.oneName h.unreached hd hisDir hmissing
      (ks ++ [k])
    have hnew : (g.add d k false none).names.resolve o (ks ++ [k]) = .ok g.next := hresolve.1 rfl
    have hkept := h.kept_add hd hisDir hT false
    have hfile : (g.add d k false none).names.isDir g.next = false := by
      simp [NameSpace.add, Naming.bind, Naming.make]
    have hmounted := Naming.resolve_append_of_ok (hkept mount o h.mounted).1 (ks ++ [k])
    have hopen := h.stores.memOpen mode hfree hshort hdotdot hisDir (o := g.next)
    rw [hcreat] at hopen
    obtain ⟨fd, s', hcall, hstores, happending, hcontents⟩ :=
      hopen (by rw [Io.find_plainPath hcs.proper, hmounted, hnew]) hfile
    have hgrown := h.add hd hisDir hT hstores (by
      intro t ht
      rw [hcontents, Function.update_of_ne ht])
    rw [hcontents, Function.update_self] at hgrown
    exact ⟨fd, s', _, g.next, hcall, hgrown, happending, hnew, hfile, hkept⟩
  · rw [← h.tree] at hT
    obtain ⟨t, ht, hfile, -⟩ := Naming.tree_eq_file.mp hT
    have hok : g.find (plainPath (mount ++ (ks ++ [k]))) = .ok t := hfind.trans ht
    have hcreat : (g.creat (plainPath (mount ++ (ks ++ [k]))) none).2 = g := by
      simp [NameSpace.creat, hdotdot, hisDir, hok]
    have hopen := h.stores.memOpen mode hfree hshort hdotdot hisDir (o := t)
    rw [hcreat] at hopen
    obtain ⟨fd, s', hcall, hstores, happending, hcontents⟩ := hopen hok hfile
    exact ⟨fd, s', g, t, hcall, h.setContents (by simp) ht hfile hstores hcontents, happending, ht,
      hfile, .refl _ _⟩

end Grown

end Zrt.Unpack
