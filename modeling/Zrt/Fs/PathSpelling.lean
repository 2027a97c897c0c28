import Mathlib.Data.List.Induction
import Mathlib.Data.List.TakeWhile
import Zrt.Fs.PathUtils

/-!
# Components and their spelling

A path can be spelled in many ways. The canonical spelling of its components has one slash before each
of them; what starts a text as a string also starts the canonical spelling of the text's components.
-/

namespace Zrt.Fs

/-- The canonical spelling of components. -/
def render (cs : List Text) : Text := if cs = [] then ['/'] else cs.flatMap ('/' :: ·)

/-- What `realpath` answers where there are no symbolic links. -/
def canonical (path : Text) : Text := render (pathCollapse (components path))

def Normalized (path : Text) : Prop := path.head? = some '/' ∧ canonical path = path

instance (path : Text) : Decidable (Normalized path) := inferInstanceAs (Decidable (_ ∧ _))

/-- Components that name something. -/
def Proper (cs : List Text) : Prop := ∀ c ∈ cs, c ≠ [] ∧ '/' ∉ c ∧ c ≠ ['.'] ∧ c ≠ ['.', '.']

variable {a b c rest w : Text} {cs ds : List Text}

@[elab_as_elim]
theorem slash_induction {P : Text → Prop} (name : ∀ s, '/' ∉ s → P s)
    (cut : ∀ s r, '/' ∉ s → P r → P (s ++ '/' :: r)) (path : Text) : P path := by
  induction hn : path.length using Nat.strongRecOn generalizing path with
  | ind n ih =>
      by_cases hslash : '/' ∈ path
      · obtain ⟨s, r, rfl, hs⟩ := List.eq_append_cons_of_mem hslash
        exact cut s r hs (ih r.length (by rw [← hn]; simp; omega) r rfl)
      · exact name path hslash

theorem components_append (a b : Text) : components (a ++ '/' :: b) = components a ++ components b := by
  rw [components, List.splitOn_append_cons_self, List.filter_append]
  rfl

theorem components_name (hne : c ≠ []) (hslash : '/' ∉ c) : components c = [c] := by
  rw [components, List.splitOn_eq_singleton hslash, List.filter_singleton]
  simp [hne]

@[simp] theorem components_nil : components [] = [] := rfl

theorem components_slash (b : Text) : components ('/' :: b) = components b :=
  components_append [] b

theorem mem_components (h : c ∈ components w) : c ≠ [] ∧ '/' ∉ c := by
  obtain ⟨hsplit, hne⟩ := List.mem_filter.mp h
  exact ⟨by simpa using hne, slash_not_mem_of_mem_splitOn hsplit⟩

/-- At the end of a component the components can be taken apart. -/
theorem components_append_of_boundary (h : b = [] ∨ b.head? = some '/') :
    components (a ++ b) = components a ++ components b := by
  cases b with
  | nil => rw [List.append_nil, components_nil, List.append_nil]
  | cons x b =>
      have hx : x = '/' := by simpa using h
      rw [hx, components_append, components_slash]

theorem components_name_append (hne : c ≠ []) (hslash : '/' ∉ c) (rest : Text) :
    components (c ++ rest) = (c ++ rest.takeWhile (· ≠ '/')) ::
      components (rest.dropWhile (· ≠ '/')) := by
  have hboundary : rest.dropWhile (· ≠ '/') = [] ∨ (rest.dropWhile (· ≠ '/')).head? = some '/' := by
    cases hd : rest.dropWhile (· ≠ '/') with
    | nil => exact Or.inl rfl
    | cons x xs =>
        have hx := List.head?_dropWhile_not (fun x => decide (x ≠ '/')) rest
        rw [hd] at hx
        exact Or.inr (by simpa using hx)
  have hname : '/' ∉ c ++ rest.takeWhile (· ≠ '/') := by
    rw [List.mem_append, not_or]
    refine ⟨hslash, fun hmem => ?_⟩
    have hall := List.mem_takeWhile_imp hmem
    simp at hall
  calc components (c ++ rest)
      = components ((c ++ rest.takeWhile (· ≠ '/')) ++ rest.dropWhile (· ≠ '/')) := by
        rw [List.append_assoc, List.takeWhile_append_dropWhile]
    _ = components (c ++ rest.takeWhile (· ≠ '/')) ++ components (rest.dropWhile (· ≠ '/')) :=
        components_append_of_boundary hboundary
    _ = _ := by
        rw [components_name (by simp [hne]) hname]
        rfl

theorem components_flatMap (h : ∀ c ∈ cs, c ≠ [] ∧ '/' ∉ c) :
    components (cs.flatMap ('/' :: ·)) = cs := by
  induction cs using List.reverseRecOn with
  | nil => rfl
  | append_singleton cs c ih =>
      obtain ⟨hne, hslash⟩ := h c (by simp)
      rw [List.flatMap_append, List.flatMap_singleton, components_append, components_name hne hslash,
        ih fun c hc => h c (List.mem_append_left _ hc)]

theorem components_render (h : ∀ c ∈ cs, c ≠ [] ∧ '/' ∉ c) : components (render cs) = cs := by
  unfold render
  split
  · rename_i hnil
    rw [hnil]
    rfl
  · exact components_flatMap h

theorem render_head (cs : List Text) : (render cs).head? = some '/' := by
  unfold render
  split
  · rfl
  · rename_i hne
    cases cs with
    | nil => exact absurd rfl hne
    | cons c cs => rfl

theorem render_starts (h : cs <+: ds) : render cs <+: render ds := by
  obtain ⟨es, rfl⟩ := h
  by_cases hcs : cs = []
  · rw [hcs, List.nil_append]
    cases hr : render es with
    | nil =>
        have hhead := render_head es
        rw [hr] at hhead
        cases hhead
    | cons x xs =>
        have hhead := render_head es
        rw [hr] at hhead
        cases hhead
        exact ⟨xs, rfl⟩
  · have happend : cs ++ es ≠ [] := fun h => hcs (List.append_eq_nil_iff.mp h).1
    rw [render, if_neg hcs, render, if_neg happend, List.flatMap_append]
    exact List.prefix_append _ _

theorem render_snoc (cs : List Text) (c : Text) :
    render (cs ++ [c]) = cs.flatMap ('/' :: ·) ++ '/' :: c := by
  rw [render, if_neg (by simp), List.flatMap_append, List.flatMap_singleton]

theorem render_length_lt (h : cs <+: ds) (hne : cs ≠ ds) (hds : ∀ c ∈ ds, c ≠ []) :
    (render cs).length < (render ds).length := by
  obtain ⟨es, rfl⟩ := h
  have hes : es ≠ [] := by
    rintro rfl
    exact hne (List.append_nil cs).symm
  obtain ⟨e, es', rfl⟩ := List.exists_cons_of_ne_nil hes
  have he : e ≠ [] := hds e (by simp)
  have hlen : 0 < e.length := List.length_pos_of_ne_nil he
  by_cases hcs : cs = []
  · rw [hcs, List.nil_append, render, if_pos rfl, render, if_neg (by simp)]
    simp
    omega
  · rw [render, if_neg hcs, render, if_neg (by simp), List.flatMap_append, List.length_append,
      List.flatMap_cons]
    simp

/-- A spelling that a text starts with also starts the canonical spelling of the text. -/
theorem render_starts_components (hcs : ∀ c ∈ cs, c ≠ [] ∧ '/' ∉ c) (h : render cs <+: w) :
    render cs <+: render (components w) := by
  induction cs using List.reverseRecOn with
  | nil => exact render_starts List.nil_prefix
  | append_singleton cs c ih =>
      obtain ⟨hne, hslash⟩ := hcs c (by simp)
      obtain ⟨rest, rfl⟩ := h
      rw [render_snoc, List.append_assoc, List.cons_append, components_append,
        components_flatMap fun c hc => hcs c (List.mem_append_left _ hc),
        components_name_append hne hslash, render, if_neg (by simp), List.flatMap_append,
        List.flatMap_cons]
      rw [← List.append_assoc, ← List.cons_append, ← List.append_assoc, List.append_assoc]
      exact List.prefix_append _ _

/-- The components of a spelling are kept only if what follows starts a new component. -/
theorem head_of_components_starts (hne : cs ≠ []) (hcs : ∀ c ∈ cs, c ≠ [] ∧ '/' ∉ c)
    (hrest : rest ≠ []) (h : cs <+: components (render cs ++ rest)) : rest.head? = some '/' := by
  obtain ⟨ds, c, rfl⟩ := List.eq_nil_or_concat cs |>.resolve_left hne
  rw [List.concat_eq_append] at hcs h
  obtain ⟨hc, hslash⟩ := hcs c (by simp)
  rw [render_snoc, List.append_assoc, List.cons_append, components_append,
    components_flatMap fun c hc => hcs c (List.mem_append_left _ hc),
    components_name_append hc hslash, List.prefix_append_right_inj, List.singleton_prefix_cons_iff] at h
  cases rest with
  | nil => exact absurd rfl hrest
  | cons x xs =>
      by_cases hx : x = '/'
      · rw [hx]
        rfl
      · rw [List.takeWhile_cons_of_pos (by simpa using hx)] at h
        have hlen := congrArg List.length h
        rw [List.length_append, List.length_cons] at hlen
        omega

theorem starts_snoc_slash (hcs : ∀ c ∈ cs, c ≠ [] ∧ '/' ∉ c) :
    render cs <+: render ds ++ ['/'] ↔ render cs <+: render ds := by
  constructor
  · intro h
    rcases List.prefix_concat_iff.mp h with heq | h
    · -- the last component does not end with a slash
      induction cs using List.reverseRecOn with
      | nil => exact render_starts List.nil_prefix
      | append_singleton cs c ih =>
          obtain ⟨hne, hslash⟩ := hcs c (by simp)
          rw [render_snoc] at heq
          have hlast := congrArg List.getLast? heq
          rw [List.getLast?_append_cons, List.getLast?_concat, List.getLast?_cons,
            List.getLast?_eq_getLast_of_ne_nil hne] at hlast
          exact absurd (Option.some.inj hlast ▸ List.getLast_mem hne) hslash
    · exact h
  · intro h
    exact h.trans (List.prefix_append _ _)

/-- Nothing but the root's path starts a text with two slashes. -/
theorem not_starts_slashes (hne : cs ≠ []) (hcs : ∀ c ∈ cs, c ≠ [] ∧ '/' ∉ c) :
    ¬render cs <+: '/' :: '/' :: w := by
  obtain ⟨c, cs, rfl⟩ := List.exists_cons_of_ne_nil hne
  obtain ⟨hc, hslash⟩ := hcs c List.mem_cons_self
  obtain ⟨x, xs, rfl⟩ := List.exists_cons_of_ne_nil hc
  rw [render, if_neg (by simp)]
  rintro ⟨rest, heq⟩
  simp only [List.flatMap_cons, List.cons_append, List.cons.injEq, true_and] at heq
  exact hslash (heq.1 ▸ List.mem_cons_self)

theorem proper_pathCollapse (w : Text) : Proper (pathCollapse (components w)) := by
  have key : ∀ (cs acc : List Text), Proper acc → (∀ c ∈ cs, c ≠ [] ∧ '/' ∉ c) →
      Proper (cs.foldl collapseStep acc) := by
    intro cs
    induction cs with
    | nil => exact fun acc hacc _ => hacc
    | cons c cs ih =>
        intro acc hacc hcs
        apply ih _ _ fun c hc => hcs c (List.mem_cons_of_mem _ hc)
        unfold collapseStep
        split
        · exact hacc
        split
        · exact fun t ht => hacc t (List.dropLast_subset acc ht)
        · rename_i hdot hdots
          intro t ht
          rcases List.mem_append.mp ht with ht | ht
          · exact hacc t ht
          · rw [List.mem_singleton.mp ht]
            obtain ⟨hne, hslash⟩ := hcs c List.mem_cons_self
            exact ⟨hne, hslash, hdot, hdots⟩
  exact key (components w) [] (fun c hc => absurd hc List.not_mem_nil) fun c hc => mem_components hc

theorem Proper.name (h : Proper cs) : ∀ c ∈ cs, c ≠ [] ∧ '/' ∉ c := fun c hc => ⟨(h c hc).1, (h c hc).2.1⟩

theorem pathCollapse_of_no_dots (h : ∀ c ∈ cs, c ≠ ['.'] ∧ c ≠ ['.', '.']) : pathCollapse cs = cs := by
  have key : ∀ (cs acc : List Text), (∀ c ∈ cs, c ≠ ['.'] ∧ c ≠ ['.', '.']) →
      cs.foldl collapseStep acc = acc ++ cs := by
    intro cs
    induction cs with
    | nil => exact fun acc _ => (List.append_nil acc).symm
    | cons c cs ih =>
        intro acc hcs
        obtain ⟨hdot, hdots⟩ := hcs c List.mem_cons_self
        rw [List.foldl_cons, ih _ fun c hc => hcs c (List.mem_cons_of_mem _ hc), collapseStep,
          if_neg hdot, if_neg hdots, List.append_assoc, List.singleton_append]
  exact key cs [] h

theorem pathCollapse_snoc (cs : List Text) (c : Text) :
    pathCollapse (cs ++ [c]) = collapseStep (pathCollapse cs) c := by
  rw [pathCollapse, List.foldl_append]
  rfl

theorem Normalized.eq_render (h : Normalized w) :
    w = render (components w) ∧ Proper (components w) := by
  have hproper := proper_pathCollapse w
  have hcomponents : components w = pathCollapse (components w) := by
    have hc := components_render hproper.name
    rw [← hc]
    exact congrArg components h.2.symm
  rw [← hcomponents] at hproper
  refine ⟨?_, hproper⟩
  have hcanonical := h.2
  rw [canonical, ← hcomponents] at hcanonical
  exact hcanonical.symm

/-! ## Canonical paths are not longer -/

theorem length_flatMap_components (w : Text) :
    ((components w).flatMap ('/' :: ·)).length ≤ w.length + 1 := by
  induction w using slash_induction with
  | name s hs =>
      by_cases hnil : s = []
      · simp [hnil]
      · simp [components_name hnil hs]
  | cut s r hs ih =>
      have hname : ((components s).flatMap ('/' :: ·)).length ≤ s.length + 1 := by
        by_cases hnil : s = []
        · simp [hnil]
        · simp [components_name hnil hs]
      rw [components_append, List.flatMap_append, List.length_append, List.length_append,
        List.length_cons]
      omega

private theorem length_flatMap_collapseStep (acc : List Text) (c : Text) :
    ((collapseStep acc c).flatMap ('/' :: ·)).length ≤
      (acc.flatMap ('/' :: ·)).length + (c.length + 1) := by
  unfold collapseStep
  split
  · omega
  · split
    · obtain rfl | ⟨before, last, rfl⟩ := List.eq_nil_or_concat acc
      · simp
      · simp
        omega
    · simp

private theorem length_flatMap_pathCollapse (cs : List Text) :
    ((pathCollapse cs).flatMap ('/' :: ·)).length ≤ (cs.flatMap ('/' :: ·)).length := by
  have key : ∀ acc : List Text, ((cs.foldl collapseStep acc).flatMap ('/' :: ·)).length ≤
      (acc.flatMap ('/' :: ·)).length + (cs.flatMap ('/' :: ·)).length := by
    induction cs with
    | nil => exact fun acc => Nat.le_add_right _ _
    | cons c cs ih =>
        intro acc
        have hstep := length_flatMap_collapseStep acc c
        have hrest := ih (collapseStep acc c)
        rw [List.foldl_cons, List.flatMap_cons, List.length_append, List.length_cons]
        omega
  have hall := key []
  rw [List.flatMap_nil, List.length_nil, Nat.zero_add] at hall
  exact hall

theorem length_canonical_le (hw : w.head? = some '/') : (canonical w).length ≤ w.length := by
  obtain ⟨t, rfl⟩ := List.head?_eq_some_iff.mp hw
  have hcollapse := length_flatMap_pathCollapse (components ('/' :: t))
  have hspelled := length_flatMap_components t
  rw [components_slash] at hcollapse
  rw [canonical, components_slash, render, List.length_cons]
  split
  · simp
  · omega

theorem render_components_ne_inserted (hb : b = [] ∨ b.head? = some '/')
    (hw : (a ++ '/' :: b).head? = some '/') (hroot : a ++ '/' :: b ≠ ['/']) :
    render (components (a ++ '/' :: b)) ≠ a ++ '/' :: b := by
  have hcomponents : components (a ++ '/' :: b) = components (a ++ b) := by
    rw [components_append, components_append_of_boundary hb]
  have hhead : (a ++ b).head? = some '/' := by
    cases a with
    | nil =>
        apply hb.resolve_left
        rintro rfl
        exact hroot rfl
    | cons x a => exact hw
  intro heq
  obtain ⟨t, ht⟩ := List.head?_eq_some_iff.mp hhead
  have hspelled := length_flatMap_components t
  have hlen := congrArg List.length heq
  have hshort := congrArg List.length ht
  rw [hcomponents, ht, components_slash, render] at hlen
  rw [List.length_append, List.length_cons] at hlen hshort
  split at hlen
  · rw [List.length_singleton] at hlen
    have hnil : a = [] ∧ b = [] :=
      ⟨List.length_eq_zero_iff.mp (by omega), List.length_eq_zero_iff.mp (by omega)⟩
    rw [hnil.1, hnil.2] at hroot
    exact hroot rfl
  · omega

end Zrt.Fs
