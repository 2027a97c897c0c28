import Zrt.Fs.AbsolutePaths
import Zrt.Fs.StoredFiles
import Zrt.Fs.TransparentMount
import Zrt.Unpack.MemDirectories
import Zrt.Unpack.TarHeader

/-!
# Unpacking into the in-memory mount

What the unpacker calls, with the calls of the in-memory mount behind it. `mkdir` resolves what stands
before the last component of a path, so a path with a slash at its end is resolved as a whole and
nothing is made at it. All paths lead to the in-memory mount here, and the working directory is the
root.
-/

namespace Zrt.Fs

private theorem zrealpath_name (libc : Libc) {p : Text} (hp : '/' ∉ p) :
    zrealpath libc p = (mergePathComponents libc.getcwd p).map some := by
  cases hlocate : locateLastOccurence p '/' p.length with
  | none => simp only [zrealpath, hlocate]
  | some i =>
      obtain ⟨-, hslash, -⟩ := locateLastOccurence_eq_some hlocate
      exact absurd (List.mem_of_getElem? hslash) hp

private theorem mergePathComponents_eq {base b merged : Text}
    (h : mergePathComponents base ('/' :: b) = some merged) : merged = base ++ '/' :: b := by
  have hslash : ¬(base ≠ [] ∧ base.getLast? ≠ some '/' ∧ ('/' :: b) ≠ [] ∧
      ('/' :: b).head? ≠ some '/') := fun h => h.2.2.2 rfl
  rw [mergePathComponents, if_neg hslash] at h
  simp only [Option.ite_none_right_eq_some, Option.some.injEq] at h
  exact h.2.symm

private theorem mergePathComponents_root {b merged : Text}
    (h : mergePathComponents ['/'] b = some merged) : merged = '/' :: b := by
  have hroot : ¬(['/'] ≠ [] ∧ ['/'].getLast? ≠ some '/' ∧ b ≠ [] ∧ b.head? ≠ some '/') :=
    fun h => h.2.1 rfl
  rw [mergePathComponents, if_neg hroot] at h
  simp only [Option.ite_none_right_eq_some, Option.some.injEq] at h
  exact h.2.symm

private theorem exists_cut_of_slash {w : Text} (hw : '/' ∈ w) : ∃ a b, w = a ++ '/' :: b ∧ '/' ∉ b := by
  obtain ⟨s, t, hst, hs⟩ := List.eq_append_cons_of_mem (List.mem_reverse.mpr hw)
  refine ⟨t.reverse, s.reverse, ?_, fun h => hs (List.mem_reverse.mp h)⟩
  have hrev := congrArg List.reverse hst
  rw [List.reverse_reverse, List.reverse_append, List.reverse_cons, List.append_assoc] at hrev
  exact hrev

namespace MemMount

variable {m m' : MemMount} {p q : Text} {mode : Nat} {cs : List Text}

/-- The components that must be directories: behind the last one a slash may follow. -/
def passedComponents (path : Text) : List Text :=
  if path.getLast? = some '/' then components path else (components path).dropLast

def realpath (m : MemMount) (path : Text) : Option Text :=
  if m.resolves (passedComponents path) then
    match m.walk rootSlot (pathCollapse (components path)) with
    | some (.ok _) => some (canonical path)
    | _ => none
  else none

def libc (m : MemMount) : Libc := ⟨m.realpath, ['/']⟩

@[simp] theorem libc_realpath (m : MemMount) (path : Text) :
    m.libc.realpath path = m.realpath path := rfl

/-- A path that cannot be resolved is answered as missing. -/
def zrtZcallMkdir (m : MemMount) (pathname : Text) (mode : Nat) : Outcome :=
  (zrealpath m.libc pathname).bind fun resolved =>
    match resolved.bind AbsolutePath.ofText with
    | some path => m.memMkdir path mode
    | none => some (.error .enoent, m)

theorem realpath_spec (h : m.realpath p = some q) :
    q = canonical p ∧ m.resolves (components p).dropLast = true ∧
      ∃ s, m.walk rootSlot (pathCollapse (components p)) = some (.ok s) := by
  unfold realpath at h
  split at h
  · rename_i hresolves
    split at h
    · rename_i s hs
      cases h
      refine ⟨rfl, ?_, s, hs⟩
      unfold passedComponents at hresolves
      split at hresolves
      · rcases List.eq_nil_or_concat (components p) with hnil | ⟨init, c, hsnoc⟩
        · rw [hnil] at hresolves ⊢
          exact hresolves
        · rw [hsnoc, List.concat_eq_append] at hresolves ⊢
          rw [List.dropLast_concat]
          exact resolves_append hresolves
      · exact hresolves
    · cases h
  · cases h

private theorem memMkdir_ne_ok {path : AbsolutePath} {s : Nat} (hslot : m.getSlot path = some (.ok s)) :
    m.memMkdir path mode ≠ some (.ok (), m') := by
  intro hcall
  rcases memMkdir_entered hcall with ⟨e, hr, -⟩ | ⟨-, parent, pn, pd, hparent, hne, he, -⟩
  · cases hr
  · rw [getSlot, AbsolutePath.path_eq_snoc hne] at hslot
    obtain ⟨t, ht, hchild⟩ := walk_snoc_ok hslot
    have hsame : some (Except.ok (ε := Errno) t) = some (.ok parent) := ht.symm.trans hparent
    cases hsame
    obtain ⟨d, hd, -, hfound⟩ := walk_singleton_ok hchild
    rw [dataAt_of he.node, he.data] at hd
    cases hd
    rw [he.missing] at hfound
    cases hfound

theorem memMkdir_parent {path : AbsolutePath} (hcall : m.memMkdir path mode = some (.ok (), m')) :
    m.dirNamed path.path.dropLast = true ∧ path.path ≠ [] := by
  rcases memMkdir_entered hcall with ⟨e, hr, -⟩ | ⟨-, parent, pn, pd, hparent, hne, he, -⟩
  · cases hr
  · refine ⟨dirNamed_eq_true.mpr ⟨parent, pd, ?_, ?_, he.dir⟩, hne⟩
    · rw [← AbsolutePath.path_dotdot]
      exact hparent
    · rw [dataAt_of he.node, he.data]

theorem memMkdir_resolves_snoc {path : AbsolutePath} {c : Text}
    (hcall : m.memMkdir path mode = some (.ok (), m'))
    (hpath : path.path = pathCollapse (cs ++ [c])) (hc : c ≠ ['.'] ∧ c ≠ ['.', '.'])
    (hcs : cs = [] ∨ m.resolves cs.dropLast = true) : m'.resolves (cs ++ [c]) = true := by
  obtain ⟨hparent, hne⟩ := memMkdir_parent hcall
  have hdrop : path.path.dropLast = pathCollapse cs := by
    rw [hpath, pathCollapse_snoc, collapseStep, if_neg hc.1, if_neg hc.2, List.dropLast_concat]
  rw [hdrop] at hparent
  have hfront : m.resolves cs = true := by
    rcases hcs with rfl | hresolves
    · apply resolves_iff.mpr
      intro pre hpre
      rw [List.prefix_nil.mp hpre]
      exact hparent
    · exact resolves_of_last hresolves hparent
  apply resolves_of_last
  · rw [List.dropLast_concat]
    exact memMkdir_resolves hcall hfront
  · rw [← hpath]
    exact memMkdir_made hcall

private theorem ofText_path {path : AbsolutePath} (h : AbsolutePath.ofText p = some path) :
    path.path = pathCollapse (components p) := by
  unfold AbsolutePath.ofText at h
  split at h
  · cases h
    rfl
  · split at h
    · cases h
    · cases h
      rw [AbsolutePath.path, AbsolutePath.fromRoot, components_slash]

private theorem memMkdir_resolves_name {path : AbsolutePath} {c : Text}
    (hcall : m.memMkdir path mode = some (.ok (), m')) (hslash : '/' ∉ c)
    (hpath : path.path = pathCollapse (components c)) : m'.resolves (components c) = true := by
  obtain ⟨-, hne⟩ := memMkdir_parent hcall
  by_cases hnil : c = []
  · rw [hnil] at hpath
    exact absurd hpath hne
  · rw [components_name hnil hslash] at hpath ⊢
    have hdots : c ≠ ['.'] ∧ c ≠ ['.', '.'] := by
      constructor
      · rintro rfl
        exact hne hpath
      · rintro rfl
        exact hne hpath
    show m'.resolves ([] ++ [c]) = true
    exact memMkdir_resolves_snoc hcall hpath hdots (Or.inl rfl)

private theorem getSlot_canonical {path : AbsolutePath} (h : m.realpath p = some q)
    (hpath : path.path = pathCollapse (components q)) : ∃ s, m.getSlot path = some (.ok s) := by
  obtain ⟨rfl, -, s, hs⟩ := realpath_spec h
  have hproper := proper_pathCollapse p
  have hsame : path.path = pathCollapse (components p) := by
    rw [hpath, canonical, components_render hproper.name]
    exact pathCollapse_of_no_dots fun c hc => (hproper c hc).2.2
  exact ⟨s, by rw [getSlot, hsame, hs]⟩

private theorem zrtZcallMkdir_made (h : m.zrtZcallMkdir p mode = some (.ok (), m')) :
    m'.resolves (components p) = true := by
  obtain ⟨resolved, hreal, hmade⟩ := Option.bind_eq_some_iff.mp h
  split at hmade
  · rename_i path hpath
    obtain ⟨abs, rfl, hof⟩ := Option.bind_eq_some_iff.mp hpath
    have hcollapse := ofText_path hof
    by_cases hslash : '/' ∈ p
    · obtain ⟨a, b, rfl, hb⟩ := exists_cut_of_slash hslash
      rw [zrealpath_cut m.libc hb] at hreal
      split at hreal
      · obtain ⟨s, hs⟩ := getSlot_canonical (Option.some.inj hreal) hcollapse
        exact absurd hmade (memMkdir_ne_ok hs)
      · rename_i hdots
        split at hreal
        · rename_i hnil
          split at hreal
          · cases hreal
            rw [hnil, List.nil_append, components_slash] at hcollapse ⊢
            exact memMkdir_resolves_name hmade hb hcollapse
          · cases hreal
        · split at hreal
          · cases hbase : m.realpath a with
            | none =>
                rw [libc_realpath, hbase] at hreal
                cases hreal
            | some base =>
                rw [libc_realpath, hbase, Option.elim_some, Option.map_eq_some_iff] at hreal
                obtain ⟨merged, hmerged, hsome⟩ := hreal
                cases hsome
                obtain rfl := mergePathComponents_eq hmerged
                obtain ⟨rfl, hresolves, -⟩ := realpath_spec hbase
                rw [components_append] at hcollapse ⊢
                by_cases hnil : b = []
                · -- nothing is made at a path that ends with a slash
                  rw [hnil, components_nil, List.append_nil] at hcollapse
                  obtain ⟨s, hs⟩ := getSlot_canonical hbase hcollapse
                  exact absurd hmade (memMkdir_ne_ok hs)
                · rw [components_name hnil hb] at hcollapse ⊢
                  apply memMkdir_resolves_snoc hmade _ ⟨fun hdot => hdots (Or.inr hdot),
                    fun hdot => hdots (Or.inl hdot)⟩ (Or.inr hresolves)
                  have hproper := proper_pathCollapse a
                  rw [hcollapse, pathCollapse_snoc, pathCollapse_snoc, canonical,
                    components_render hproper.name,
                    pathCollapse_of_no_dots fun c hc => (hproper c hc).2.2]
          · cases hreal
    · rw [zrealpath_name m.libc hslash, Option.map_eq_some_iff] at hreal
      obtain ⟨merged, hmerged, hsome⟩ := hreal
      cases hsome
      have hmerge := mergePathComponents_root hmerged
      apply memMkdir_resolves_name hmade hslash
      rw [hcollapse, hmerge, components_slash]
  · cases hmade

private theorem zrtZcallMkdir_resolves {r : Except Errno Unit}
    (h : m.zrtZcallMkdir p mode = some (r, m')) (hcs : m.resolves cs = true) :
    m'.resolves cs = true := by
  obtain ⟨resolved, -, h⟩ := Option.bind_eq_some_iff.mp h
  split at h
  · exact memMkdir_resolves h hcs
  · cases h
    exact hcs

private theorem zrtZcallMkdir_refused {e : Errno} (h : m.zrtZcallMkdir p mode = some (.error e, m')) :
    m' = m := by
  obtain ⟨resolved, -, h⟩ := Option.bind_eq_some_iff.mp h
  split at h
  · rcases memMkdir_entered h with ⟨e', -, hsame⟩ | ⟨hok, -⟩
    · exact hsame
    · cases hok
  · cases h
    rfl

end MemMount

end Zrt.Fs

namespace Zrt.Unpack

open Zrt.Framework Zrt.Fs

/-- The file system and what the reader of the image has yet to deliver. There is no file system once
an assertion has failed or a buffer has been overrun. -/
structure ImageWorld where
  io : Option Io
  input : List Char

namespace ImageWorld

def mkdir (w : ImageWorld) (mode : Nat) (p : Text) : Except Errno Unit × ImageWorld :=
  match w.io with
  | none => (.ok (), w)
  | some s =>
      match s.fs.mem.zrtZcallMkdir p mode with
      | some (r, m) => (r, { w with io := some { s with fs := { s.fs with mem := m } } })
      | none => (.ok (), { w with io := none })

def isDir (w : ImageWorld) (p : Text) : Bool :=
  w.io.all fun s => decide (components p = []) || s.fs.mem.resolves (components p)

/-- The answer of a call, with minus one for an error. -/
def answer (w : ImageWorld) (r : Io.Reply) : Int × ImageWorld :=
  match r with
  | some (.ok n, s) => (n, { w with io := some s })
  | some (.error _, s) => (-1, { w with io := some s })
  | none => (-1, { w with io := none })

def byteOf (c : Char) : UInt8 := c.toNat.toUInt8

/-- `junk` is what the allocator leaves in new storage. -/
def mounts (ch : Channels) (junk : Nat → UInt8) : Mounts ImageWorld where
  read w := (.ok (w.input.take blockSize), { w with input := w.input.drop blockSize })
  openFile w name :=
    match w.io with
    | none => (-1, w)
    | some s =>
        match ensurePathIsAbsolute s.fs.mem.libc name with
        | none => (-1, { w with io := none })
        | some absPath =>
            match AbsolutePath.ofText absPath with
            | none => (-1, w)
            | some path => w.answer (s.memOpen path Io.newFileFlags 0o700)
  write w fd data :=
    match w.io with
    | none => (-1, w)
    | some s => w.answer (s.write fd.toNat junk (data.map byteOf))
  close w fd :=
    match w.io with
    | none => w
    | some s => (w.answer (s.ofFs (FileSystem.close ch s.fs fd.toNat))).2

end ImageWorld

/-- A world that has stopped agrees with every path. -/
def imageDirectories : Directories ImageWorld where
  mkdir w p := w.mkdir 0o700 p
  isDir := ImageWorld.isDir
  made := by
    intro w w' p h
    unfold ImageWorld.mkdir at h
    split at h
    · rename_i hnone
      cases h
      simp [ImageWorld.isDir, hnone]
    · split at h
      · rename_i r m hcall
        cases h
        simp [ImageWorld.isDir, MemMount.zrtZcallMkdir_made hcall]
      · cases h
        rfl
  kept := by
    intro w p q hq
    unfold ImageWorld.mkdir
    split
    · exact hq
    · rename_i s hs
      split
      · rename_i r m hcall
        simp only [ImageWorld.isDir, hs, Option.all_some, Bool.or_eq_true, decide_eq_true_eq] at hq ⊢
        exact hq.imp_right (MemMount.zrtZcallMkdir_resolves hcall)
      · rfl
  refused := by
    intro w w' p e h
    unfold ImageWorld.mkdir at h
    split at h
    · cases h
    · rename_i s hs
      split at h
      · rename_i r m hcall
        cases h
        rw [MemMount.zrtZcallMkdir_refused hcall, ← hs]
      · cases h
  ancestor := by
    intro w p q h _
    cases hio : w.io with
    | none => simp [ImageWorld.isDir, hio]
    | some s =>
        simp only [ImageWorld.isDir, hio, Option.all_some, Bool.or_eq_true, decide_eq_true_eq,
          components_append, List.append_eq_nil_iff] at h ⊢
        exact h.imp And.left MemMount.resolves_append
  slash := by
    intro w p h
    have hsame : components (p ++ ['/']) = components p := by
      rw [components_append, components_nil, List.append_nil]
    unfold ImageWorld.isDir at h ⊢
    rw [hsame]
    exact h
  root := by
    intro w
    have hnil : components ['/'] = [] := by decide
    cases hio : w.io <;> simp [ImageWorld.isDir, hio, hnil]

end Zrt.Unpack
