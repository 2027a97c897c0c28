import Mathlib.Data.List.Induction
import Mathlib.Logic.Function.Basic
import Zrt.Framework.Naming

/-!
# Trees in naming graphs

What the names below an object lead to: a directory, a file with its contents, or nothing. Where every
object below has one row of names only, a new entry changes the tree in one place, and so do new
contents.
-/

namespace Zrt.Framework

inductive Item (β : Type*) where
  | dir
  | file (contents : β)
deriving DecidableEq

namespace Naming

variable {ι κ β : Type*}

def item (g : Naming ι κ) (contents : ι → β) (o : ι) : Item β :=
  if g.isDir o then .dir else .file (contents o)

/-- What the names lead to from the object. -/
def tree (g : Naming ι κ) (contents : ι → β) (o : ι) (ks : List κ) : Option (Item β) :=
  match g.resolve o ks with
  | .ok t => some (g.item contents t)
  | .error _ => none

/-- Every object is reached from `o` in one way at most. -/
def OneName (g : Naming ι κ) (o : ι) : Prop :=
  ∀ ks ks' t, g.resolve o ks = .ok t → g.resolve o ks' = .ok t → ks = ks'

/-- Whatever a row of names leads to in `g`, it leads to in `g'`. -/
def KeptFrom (g g' : Naming ι κ) (o : ι) : Prop :=
  ∀ ks t, g.resolve o ks = .ok t → g'.resolve o ks = .ok t ∧ g'.isDir t = g.isDir t

variable {g g' : Naming ι κ} {o d n t : ι} {k : κ} {ks ls : List κ} {dir : Bool}
  {contents : ι → β}

theorem KeptFrom.refl (g : Naming ι κ) (o : ι) : g.KeptFrom g o := fun _ _ h => ⟨h, rfl⟩

theorem KeptFrom.trans {g'' : Naming ι κ} (h : g.KeptFrom g' o) (h' : g'.KeptFrom g'' o) :
    g.KeptFrom g'' o := by
  intro ks t ht
  obtain ⟨hks, hdir⟩ := h ks t ht
  obtain ⟨hks', hdir'⟩ := h' ks t hks
  exact ⟨hks', hdir'.trans hdir⟩

theorem resolve_append (ks ls : List κ) :
    g.resolve o (ks ++ ls) =
      match g.resolve o ks with
      | .ok t => g.resolve t ls
      | .error e => .error e := by
  induction ks generalizing o with
  | nil => rfl
  | cons k ks ih =>
      simp only [List.cons_append, resolve]
      cases g.look o k with
      | ok t => exact ih
      | error e => rfl

theorem resolve_append_of_ok (h : g.resolve o ks = .ok t) (ls : List κ) :
    g.resolve o (ks ++ ls) = g.resolve t ls := by
  simp [resolve_append, h]

theorem tree_append (h : g.resolve o ks = .ok t) (ls : List κ) :
    g.tree contents o (ks ++ ls) = g.tree contents t ls := by
  simp [tree, resolve_append, h]

theorem tree_eq_dir : g.tree contents o ks = some .dir ↔
    ∃ t, g.resolve o ks = .ok t ∧ g.isDir t = true := by
  unfold tree item
  cases g.resolve o ks with
  | ok t => cases h : g.isDir t <;> simp [h]
  | error e => simp

theorem tree_eq_file {b : β} : g.tree contents o ks = some (.file b) ↔
    ∃ t, g.resolve o ks = .ok t ∧ g.isDir t = false ∧ contents t = b := by
  unfold tree item
  cases g.resolve o ks with
  | ok t => cases h : g.isDir t <;> simp [h]
  | error e => simp

theorem tree_eq_none : g.tree contents o ks = none ↔ ∃ e, g.resolve o ks = .error e := by
  unfold tree
  cases g.resolve o ks <;> simp

/-- What leads somewhere goes through directories. -/
theorem isDir_of_resolve_snoc (h : g.resolve o (ks ++ [k]) = .ok t) :
    ∃ d, g.resolve o ks = .ok d ∧ g.isDir d = true ∧ g.look d k = .ok t := by
  rw [resolve_snoc] at h
  cases hks : g.resolve o ks with
  | error e =>
      rw [hks] at h
      cases h
  | ok d =>
      rw [hks] at h
      refine ⟨d, rfl, ?_, h⟩
      by_contra hfile
      simp only [look, hfile, if_false] at h
      cases h

/-- Above what is there, there are directories. -/
theorem tree_dir_of_isSome (h : (g.tree contents o (ks ++ ls)).isSome) (hne : ls ≠ []) :
    g.tree contents o ks = some .dir := by
  obtain ⟨l, ls', rfl⟩ := List.exists_cons_of_ne_nil hne
  cases hks : g.resolve o ks with
  | error e => simp [tree, resolve_append, hks] at h
  | ok t =>
      apply tree_eq_dir.mpr
      refine ⟨t, hks, ?_⟩
      by_contra hfile
      simp [tree, resolve_append, hks, resolve, look, hfile] at h

/-! ## New contents -/

variable [DecidableEq ι]

/-- The contents of an object are seen under its one name. -/
theorem tree_update (hone : g.OneName o) (hks : g.resolve o ks = .ok t) (hfile : g.isDir t = false)
    [DecidableEq κ] (b : β) :
    g.tree (Function.update contents t b) o =
      Function.update (g.tree contents o) ks (some (.file b)) := by
  funext ls
  by_cases hls : ls = ks
  · subst hls
    simp [tree, item, hks, hfile]
  · rw [Function.update_of_ne hls]
    unfold tree
    cases h : g.resolve o ls with
    | error e => rfl
    | ok u =>
        have hne : u ≠ t := by
          rintro rfl
          exact hls (hone ls ks u h hks)
        simp [item, Function.update_of_ne hne]

/-- Contents that no name leads to are not seen. -/
theorem tree_update_unreached (h : ∀ ls, g.resolve o ls ≠ .ok n) (b : β) :
    g.tree (Function.update contents n b) o = g.tree contents o := by
  funext ls
  unfold tree
  cases hls : g.resolve o ls with
  | error e => rfl
  | ok u =>
      have hne : u ≠ n := by
        rintro rfl
        exact h ls hls
      simp [item, Function.update_of_ne hne]

/-! ## A new entry -/

variable [DecidableEq κ]

section Enter

/-- A new object, entered into a directory under a name that was free. -/
def enter (g : Naming ι κ) (d : ι) (k : κ) (n : ι) (dir : Bool) : Naming ι κ :=
  (g.make n dir).bind d k n

theorem isDir_enter (g : Naming ι κ) (d : ι) (k : κ) (n : ι) (dir : Bool) (t : ι) :
    (g.enter d k n dir).isDir t = if t = n then dir else g.isDir t := rfl

theorem look_enter_old {l : κ} (hn : t ≠ n) (h : ¬ (t = d ∧ l = k)) :
    (g.enter d k n dir).look t l = g.look t l := by
  rw [enter, look_bind_other h, look_make_other hn]

theorem look_enter_new (hne : d ≠ n) (hd : g.isDir d = true) :
    (g.enter d k n dir).look d k = .ok n := by
  apply look_bind_self
  simpa [make, hne] using hd

theorem look_enter_inside {l : κ} (hne : d ≠ n) :
    (g.enter d k n dir).look n l = .error (if dir then .missing else .notDirectory) := by
  have hother : ¬ (n = d ∧ l = k) := fun h => hne h.1.symm
  rw [enter, look_bind_other hother, look_make_self]

/-- What was there is still there, whatever the names start from. -/
theorem keptFrom_enter {x : ι} (dir : Bool) (hn : ∀ ls, g.resolve x ls ≠ .ok n)
    (hk : g.look d k = .error .missing) : g.KeptFrom (g.enter d k n dir) x := by
  intro ls t hls
  have hne : t ≠ n := by
    rintro rfl
    exact hn ls hls
  refine ⟨?_, by rw [isDir_enter, if_neg hne]⟩
  clear hne
  induction ls using List.reverseRecOn generalizing t with
  | nil => exact hls
  | append_singleton ls l ih =>
      obtain ⟨u, hu, -, hlook⟩ := isDir_of_resolve_snoc hls
      have hun : u ≠ n := by
        rintro rfl
        exact hn ls hu
      have hother : ¬ (u = d ∧ l = k) := by
        rintro ⟨rfl, rfl⟩
        rw [hk] at hlook
        cases hlook
      rw [resolve_snoc, ih u hu]
      simp only [look_enter_old hun hother, hlook]

/-- The new entry, and nothing else, is seen below `o`. -/
theorem resolve_enter (dir : Bool) (hone : g.OneName o) (hn : ∀ ls, g.resolve o ls ≠ .ok n)
    (hks : g.resolve o ks = .ok d) (hd : g.isDir d = true) (hk : g.look d k = .error .missing)
    (ls : List κ) :
    (ls = ks ++ [k] → (g.enter d k n dir).resolve o ls = .ok n) ∧
      (ls ≠ ks ++ [k] → ∀ t, (g.enter d k n dir).resolve o ls = .ok t ↔ g.resolve o ls = .ok t) := by
  have hdn : d ≠ n := by
    rintro rfl
    exact hn ks hks
  induction ls using List.reverseRecOn with
  | nil =>
      refine ⟨fun h => ?_, fun _ t => Iff.rfl⟩
      have hlength := congrArg List.length h
      simp at hlength
  | append_singleton ls l ih =>
      have hkept := (keptFrom_enter dir hn hk)
      constructor
      · intro heq
        obtain ⟨rfl, hl⟩ := List.append_inj' heq rfl
        cases hl
        rw [resolve_snoc, (hkept _ _ hks).1]
        exact look_enter_new hdn hd
      · intro hne t
        constructor
        · intro ht
          obtain ⟨u, hu, -, hlook⟩ := isDir_of_resolve_snoc ht
          by_cases hls : ls = ks ++ [k]
          · -- nothing is inside the new object
            rw [ih.1 hls] at hu
            cases hu
            rw [look_enter_inside hdn] at hlook
            cases hlook
          · have hu' := (ih.2 hls u).mp hu
            have hun : u ≠ n := by
              rintro rfl
              exact hn ls hu'
            have hother : ¬ (u = d ∧ l = k) := by
              rintro ⟨rfl, rfl⟩
              rw [hone ls ks u hu' hks] at hne
              exact hne rfl
            rw [resolve_snoc, hu']
            rw [look_enter_old hun hother] at hlook
            exact hlook
        · intro ht
          exact (hkept _ _ ht).1

theorem tree_enter (contents : ι → β) (dir : Bool) (hone : g.OneName o) (hn : ∀ ls, g.resolve o ls ≠ .ok n)
    (hks : g.resolve o ks = .ok d) (hd : g.isDir d = true) (hk : g.look d k = .error .missing) :
    (g.enter d k n dir).tree contents o =
      Function.update (g.tree contents o) (ks ++ [k])
        (some (if dir then .dir else .file (contents n))) := by
  funext ls
  obtain ⟨hnew, hold⟩ := resolve_enter dir hone hn hks hd hk ls
  by_cases hls : ls = ks ++ [k]
  · rw [hls, Function.update_self, tree, ← hls, hnew hls]
    simp [item, isDir_enter]
  · rw [Function.update_of_ne hls]
    cases h : g.resolve o ls with
    | ok t =>
        have hne : t ≠ n := by
          rintro rfl
          exact hn ls h
        simp [tree, h, (hold hls t).mpr h, item, isDir_enter, hne]
    | error e =>
        rw [tree_eq_none.mpr ⟨e, h⟩]
        cases h' : (g.enter d k n dir).resolve o ls with
        | ok t =>
            rw [(hold hls t).mp h'] at h
            cases h
        | error e' => exact tree_eq_none.mpr ⟨e', h'⟩

theorem oneName_enter (hone : g.OneName o) (hn : ∀ ls, g.resolve o ls ≠ .ok n)
    (hks : g.resolve o ks = .ok d) (hd : g.isDir d = true) (hk : g.look d k = .error .missing) :
    (g.enter d k n dir).OneName o := by
  intro ls ls' t h h'
  obtain ⟨hnew, hold⟩ := resolve_enter dir hone hn hks hd hk ls
  obtain ⟨hnew', hold'⟩ := resolve_enter dir hone hn hks hd hk ls'
  by_cases hls : ls = ks ++ [k]
  · by_cases hls' : ls' = ks ++ [k]
    · rw [hls, hls']
    · rw [hnew hls] at h
      cases h
      exact absurd ((hold' hls' _).mp h') (hn ls')
  · have ht := (hold hls t).mp h
    by_cases hls' : ls' = ks ++ [k]
    · rw [hnew' hls'] at h'
      cases h'
      exact absurd ht (hn ls)
    · exact hone ls ls' t ht ((hold' hls' t).mp h')

end Enter

end Naming

end Zrt.Framework
