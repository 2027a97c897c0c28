import Zrt.Fs.PathSpelling

/-!
# Making paths absolute

A path with a component of dots is taken for relative and resolved, up to its last component. Other
absolute paths stay as they are, with all their slashes.
-/

namespace Zrt.Fs

variable {a b w : Text}

/-! ## Making a path absolute -/

/-- One step over the components, from the part of the path behind the cursor; `none` when the cursor
has passed the end. In an absolute path an empty component is answered as a slash. -/
def pathComponentForward (path : Text) : Option Text → Option Text × Option Text
  | none => (none, none)
  | some current =>
      if '/' ∈ current then
        let component := current.takeWhile (· ≠ '/')
        (some (if component = [] ∧ path.head? = some '/' then ['/'] else component),
          some (current.drop (component.length + 1)))
      else if current = [] then (none, none)
      else (some current, none)

/-- The comparison with two dots is as long as the component: a single dot passes it too. -/
def relativeLoop (path : Text) : Nat → Option Text → Bool
  | 0, _ => false
  | fuel + 1, current =>
      match pathComponentForward path current with
      | (none, _) => false
      | (some component, next) =>
          if component.isPrefixOf ['.', '.'] then true else relativeLoop path fuel next

def isRelativePath (path : Text) : Bool :=
  match pathComponentForward path (some path) with
  | (none, _) => true
  | (some component, next) =>
      if component.head? ≠ some '/' then true else relativeLoop path (path.length + 1) next

/-- The functions of the C library. -/
structure Libc where
  realpath : Text → Option Text
  getcwd : Text

/-- What does not fit into the buffer is cut off, and nothing terminates the rest. -/
def mergePathComponents (path1 path2 : Text) : Option Text :=
  let merged :=
    if path1 ≠ [] ∧ path1.getLast? ≠ some '/' ∧ path2 ≠ [] ∧ path2.head? ≠ some '/' then
      path1 ++ '/' :: path2
    else path1 ++ path2
  if merged.length < pathMax then some merged else none

/-- The last component need not exist: unless it is made of dots, only what stands before it is
resolved. The part before it and a path of one component are copied into buffers with no regard to
their size; `none` is for what overruns them, `some none` for the null pointer. -/
def zrealpath (libc : Libc) (path : Text) : Option (Option Text) :=
  match locateLastOccurence path '/' path.length with
  | some i =>
      if path.drop i = ['/', '.', '.'] ∨ path.drop i = ['/', '.'] then some (libc.realpath path)
      else if i ≠ 0 then
        if i < pathMax then
          match libc.realpath (path.take i) with
          | none => some none
          | some base => (mergePathComponents base (path.drop i)).map some
        else none
      else if path.length < pathMax then some (some path)
      else none
  | none => (mergePathComponents libc.getcwd path).map some

def ensurePathIsAbsolute (libc : Libc) (path : Text) : Option Text :=
  if isRelativePath path then (zrealpath libc path).map fun resolved => resolved.getD []
  else some path

/-- `realpath` answers canonical paths. -/
def Libc.Canonical (libc : Libc) : Prop :=
  ∀ path : Text, path.head? = some '/' → path.length < pathMax →
    libc.realpath path = some (canonical path)

/-- Some component is made of one or two dots. -/
def Dotted (cs : List Text) : Prop := ∃ c ∈ cs, c = ['.'] ∨ c = ['.', '.']

private theorem isPrefixOf_dots {c : Text} (hne : c ≠ []) :
    c.isPrefixOf ['.', '.'] = true ↔ c = ['.'] ∨ c = ['.', '.'] := by
  rw [List.isPrefixOf_iff_prefix]
  constructor
  · rintro ⟨t, ht⟩
    match c with
    | [] => exact absurd rfl hne
    | [x] =>
        simp only [List.cons_append, List.nil_append, List.cons.injEq] at ht
        exact Or.inl (by rw [ht.1])
    | [x, y] =>
        simp only [List.cons_append, List.nil_append, List.cons.injEq] at ht
        exact Or.inr (by rw [ht.1, ht.2.1])
    | x :: y :: z :: c =>
        simp only [List.cons_append, List.cons.injEq] at ht
        exact absurd ht.2.2 (by simp)
  · rintro (rfl | rfl)
    · exact ⟨['.'], rfl⟩
    · exact ⟨[], rfl⟩

private theorem takeWhile_to_slash (ha : '/' ∉ a) (b : Text) : (a ++ '/' :: b).takeWhile (· ≠ '/') = a := by
  rw [List.takeWhile_append_of_pos]
  · simp
  · intro x hx
    simp only [ne_eq, decide_eq_true_eq]
    rintro rfl
    exact ha hx

theorem pathComponentForward_cut (path r : Text) {s : Text} (hs : '/' ∉ s) :
    pathComponentForward path (some (s ++ '/' :: r)) =
      (some (if s = [] ∧ path.head? = some '/' then ['/'] else s), some r) := by
  have hmem : '/' ∈ s ++ '/' :: r := by simp
  rw [pathComponentForward, if_pos hmem, takeWhile_to_slash hs]
  simp

theorem pathComponentForward_last (path : Text) {s : Text} (hs : '/' ∉ s) :
    pathComponentForward path (some s) = (if s = [] then none else some s, none) := by
  rw [pathComponentForward, if_neg hs]
  split <;> rfl

private theorem dotted_singleton {c : Text} (hne : c ≠ []) :
    Dotted [c] ↔ c.isPrefixOf ['.', '.'] = true := by
  rw [isPrefixOf_dots hne, Dotted]
  simp

private theorem dotted_append (cs ds : List Text) : Dotted (cs ++ ds) ↔ Dotted cs ∨ Dotted ds := by
  simp only [Dotted, List.mem_append, or_and_right, exists_or]

private theorem relativeLoop_iff {path : Text} (hpath : path.head? = some '/') (fuel : Nat) (current : Text)
    (hfuel : current.length < fuel) :
    relativeLoop path fuel (some current) = true ↔ Dotted (components current) := by
  induction current using slash_induction generalizing fuel with
  | name s hs =>
      obtain ⟨fuel, rfl⟩ : ∃ k, fuel = k + 1 := ⟨fuel - 1, by omega⟩
      rw [relativeLoop, pathComponentForward_last path hs]
      by_cases hnil : s = []
      · subst hnil
        simp [Dotted]
      · rw [if_neg hnil, components_name hnil hs, dotted_singleton hnil]
        cases hdots : s.isPrefixOf ['.', '.'] with
        | true => simp [hdots]
        | false => cases fuel <;> simp [hdots, relativeLoop, pathComponentForward]
  | cut s r hs ih =>
      obtain ⟨fuel, rfl⟩ : ∃ k, fuel = k + 1 := ⟨fuel - 1, by omega⟩
      have hrest := ih fuel (by simp at hfuel; omega)
      rw [relativeLoop, pathComponentForward_cut path r hs, components_append]
      by_cases hnil : s = []
      · simp [hnil, hpath, hrest]
      · rw [components_name hnil hs, dotted_append, dotted_singleton hnil, ← hrest]
        simp [hnil]

/-- An absolute path is taken for relative exactly if a component is made of dots. -/
theorem isRelativePath_iff (hw : w.head? = some '/') :
    isRelativePath w = true ↔ Dotted (components w) := by
  obtain ⟨t, rfl⟩ := List.head?_eq_some_iff.mp hw
  have hloop := relativeLoop_iff hw (t.length + 2) t (by omega)
  rw [components_slash, ← hloop]
  simp [isRelativePath, pathComponentForward]

/-! ## What paths with dots become -/

theorem locateLastOccurence_cut (ha : '/' ∉ b) :
    locateLastOccurence (a ++ '/' :: b) '/' (a ++ '/' :: b).length = some a.length := by
  have hslash : (a ++ '/' :: b)[a.length]? = some '/' := by simp
  have hlt : a.length < (a ++ '/' :: b).length := by simp
  obtain ⟨i, hi⟩ := Option.isSome_iff_exists.mp (locateLastOccurence_isSome hlt hslash)
  obtain ⟨hilt, hic, hlast⟩ := locateLastOccurence_eq_some hi
  rw [hi]
  rcases Nat.lt_trichotomy i a.length with hlt' | heq | hgt
  · exact absurd hslash (hlast a.length hlt' hlt)
  · rw [heq]
  · -- behind the cut there is no slash
    rw [List.getElem?_append_right (by omega), List.getElem?_cons,
      if_neg (by omega)] at hic
    exact absurd (List.mem_of_getElem? hic) ha

theorem exists_cut (hw : w.head? = some '/') : ∃ a b, w = a ++ '/' :: b ∧ '/' ∉ b := by
  have hmem : '/' ∈ w := List.mem_of_mem_head? hw
  obtain ⟨s, t, hst, hs⟩ := List.eq_append_cons_of_mem (List.mem_reverse.mpr hmem)
  refine ⟨t.reverse, s.reverse, ?_, fun h => hs (List.mem_reverse.mp h)⟩
  have hrev := congrArg List.reverse hst
  rw [List.reverse_reverse, List.reverse_append, List.reverse_cons, List.append_assoc] at hrev
  exact hrev

variable {libc : Libc}

theorem mergePathComponents_slash {base : Text} (hlen : (base ++ '/' :: b).length < pathMax) :
    mergePathComponents base ('/' :: b) = some (base ++ '/' :: b) := by
  have hslash : ¬(base ≠ [] ∧ base.getLast? ≠ some '/' ∧ ('/' :: b) ≠ [] ∧
      ('/' :: b).head? ≠ some '/') := fun h => h.2.2.2 rfl
  rw [mergePathComponents, if_neg hslash]
  exact if_pos hlen

/-- What stands before the last slash is resolved, unless there is nothing, or dots stand behind it. -/
theorem zrealpath_cut (libc : Libc) (hb : '/' ∉ b) :
    zrealpath libc (a ++ '/' :: b) =
      if b = ['.', '.'] ∨ b = ['.'] then some (libc.realpath (a ++ '/' :: b))
      else if a = [] then if (a ++ '/' :: b).length < pathMax then some (some (a ++ '/' :: b)) else none
      else if a.length < pathMax then
        (libc.realpath a).elim (some none) fun base => (mergePathComponents base ('/' :: b)).map some
      else none := by
  have hdrop : (a ++ '/' :: b).drop a.length = '/' :: b := List.drop_left
  have htake : (a ++ '/' :: b).take a.length = a := List.take_left
  simp only [zrealpath, locateLastOccurence_cut hb, hdrop, htake, List.cons.injEq, true_and, ne_eq,
    List.length_eq_zero_iff, ite_not]
  cases libc.realpath a with
  | none => rfl
  | some base => rfl

/-- The absolute path that a path with dots becomes. -/
theorem ensurePathIsAbsolute_dotted (hlibc : libc.Canonical) (hw : w.head? = some '/')
    (hlen : w.length < pathMax) (hdots : Dotted (components w)) (hcut : w = a ++ '/' :: b)
    (hb : '/' ∉ b) :
    ensurePathIsAbsolute libc w = some
      (if b = ['.'] ∨ b = ['.', '.'] then canonical w
        else if b = [] then canonical w ++ ['/']
        else render (pathCollapse (components a)) ++ '/' :: b) := by
  rw [ensurePathIsAbsolute, if_pos ((isRelativePath_iff hw).mpr hdots)]
  by_cases hbdots : b = ['.'] ∨ b = ['.', '.']
  · rw [if_pos hbdots, hcut, zrealpath_cut libc hb, if_pos hbdots.symm, ← hcut, hlibc w hw hlen]
    rfl
  · rw [if_neg hbdots]
    -- the dots stand before the last slash
    have hcomponents : components w = components a ++ components b := by rw [hcut, components_append]
    have ha : a ≠ [] := by
      rintro rfl
      obtain ⟨c, hc, hcdots⟩ := hdots
      rw [hcomponents, components_nil, List.nil_append] at hc
      have hbne : b ≠ [] := by
        rintro rfl
        exact absurd hc List.not_mem_nil
      rw [components_name hbne hb, List.mem_singleton] at hc
      exact hbdots (hc ▸ hcdots)
    have hahead : a.head? = some '/' := by
      rw [hcut, List.head?_append_of_ne_nil _ ha] at hw
      exact hw
    have hsum : w.length = a.length + (b.length + 1) := by
      rw [hcut, List.length_append, List.length_cons]
    have halen : a.length < pathMax := by omega
    have hbase : (canonical a ++ '/' :: b).length < pathMax := by
      have hle := length_canonical_le hahead
      rw [List.length_append, List.length_cons]
      omega
    rw [hcut, zrealpath_cut libc hb, if_neg fun h => hbdots h.symm, if_neg ha, if_pos halen,
      hlibc a hahead halen, Option.elim_some, mergePathComponents_slash hbase]
    simp only [Option.map_some, Option.getD_some]
    rw [← hcut]
    split
    · rename_i hbnil
      rw [hbnil, canonical, canonical, hcomponents, hbnil, components_nil, List.append_nil]
    · rfl

/-- Unless the result has a single component that stands behind dots, the path becomes canonical, up
to a closing slash. -/
theorem ensurePathIsAbsolute_canonical (hlibc : libc.Canonical) (hw : w.head? = some '/')
    (hlen : w.length < pathMax) (hdots : Dotted (components w)) (hcut : w = a ++ '/' :: b)
    (hb : '/' ∉ b)
    (hlast : (b = [] ∨ b = ['.'] ∨ b = ['.', '.']) ∨ (pathCollapse (components w)).length ≠ 1) :
    ensurePathIsAbsolute libc w = some (canonical w) ∨
      ensurePathIsAbsolute libc w = some (canonical w ++ ['/']) := by
  rw [ensurePathIsAbsolute_dotted hlibc hw hlen hdots hcut hb]
  split
  · exact Or.inl rfl
  split
  · exact Or.inr rfl
  · rename_i hbdots hbnil
    apply Or.inl
    have hname : components b = [b] := components_name hbnil hb
    have hdot : b ≠ ['.'] ∧ b ≠ ['.', '.'] := not_or.mp hbdots
    have hcollapse : pathCollapse (components w) = pathCollapse (components a) ++ [b] := by
      rw [hcut, components_append, hname, pathCollapse_snoc, collapseStep, if_neg hdot.1,
        if_neg hdot.2]
    have hne : pathCollapse (components a) ≠ [] := by
      intro hnil
      rcases hlast with hlast | hlast
      · rcases hlast with h | h
        · exact hbnil h
        · exact hbdots h
      · rw [hcollapse, hnil] at hlast
        exact hlast rfl
    rw [canonical, hcollapse, render_snoc, render, if_neg hne]

/-- A single component behind dots gets two slashes. -/
theorem ensurePathIsAbsolute_single (hlibc : libc.Canonical) (hw : w.head? = some '/')
    (hlen : w.length < pathMax) (hdots : Dotted (components w)) (hcut : w = a ++ '/' :: b)
    (hb : '/' ∉ b) (hbnil : b ≠ []) (hbdots : ¬(b = ['.'] ∨ b = ['.', '.']))
    (hone : (pathCollapse (components w)).length = 1) :
    ensurePathIsAbsolute libc w = some ('/' :: '/' :: b) := by
  rw [ensurePathIsAbsolute_dotted hlibc hw hlen hdots hcut hb, if_neg hbdots, if_neg hbnil]
  have hdot : b ≠ ['.'] ∧ b ≠ ['.', '.'] := not_or.mp hbdots
  rw [hcut, components_append, components_name hbnil hb, pathCollapse_snoc, collapseStep, if_neg hdot.1,
    if_neg hdot.2, List.length_append, List.length_singleton, Nat.add_eq_right,
    List.length_eq_zero_iff] at hone
  rw [hone]
  rfl

theorem exists_ensurePathIsAbsolute (hlibc : libc.Canonical) (hw : w.head? = some '/')
    (hlen : w.length < pathMax) :
    ∃ v, ensurePathIsAbsolute libc w = some v ∧ v.head? = some '/' := by
  by_cases hdots : Dotted (components w)
  · obtain ⟨a, b, hcut, hb⟩ := exists_cut hw
    refine ⟨_, ensurePathIsAbsolute_dotted hlibc hw hlen hdots hcut hb, ?_⟩
    split
    · exact render_head _
    split
    · rw [canonical, List.head?_append, render_head]
      rfl
    · rw [List.head?_append, render_head]
      rfl
  · refine ⟨w, ?_, hw⟩
    rw [ensurePathIsAbsolute, if_neg fun hr => hdots ((isRelativePath_iff hw).mp hr)]

/-! ## Inserting slashes and dots -/

/-- Redundant slashes and single dots inserted behind components of a path. -/
inductive Inserted (path : Text) : Text → Prop where
  | refl : Inserted path path
  | slash (a b : Text) : (b = [] ∨ b.head? = some '/') → Inserted path (a ++ b) →
      Inserted path (a ++ '/' :: b)
  | dot (a b : Text) : (b = [] ∨ b.head? = some '/') → Inserted path (a ++ b) →
      Inserted path (a ++ '/' :: '.' :: b)

theorem Inserted.length_le {path : Text} (h : Inserted path w) :
    w = path ∨ path.length < w.length := by
  induction h with
  | refl => exact Or.inl rfl
  | slash a b hb h ih =>
      right
      rw [List.length_append, List.length_cons]
      rcases ih with heq | hlt
      · rw [← heq, List.length_append]
        omega
      · rw [List.length_append] at hlt
        omega
  | dot a b hb h ih =>
      right
      rw [List.length_append, List.length_cons, List.length_cons]
      rcases ih with heq | hlt
      · rw [← heq, List.length_append]
        omega
      · rw [List.length_append] at hlt
        omega

/-- With room for one more character nothing but a slash can be inserted. -/
theorem Inserted.slash_of_length {path : Text} (h : Inserted path w)
    (hlen : w.length ≤ path.length + 1) :
    w = path ∨ ∃ a b, (b = [] ∨ b.head? = some '/') ∧ path = a ++ b ∧ w = a ++ '/' :: b := by
  cases h with
  | refl => exact Or.inl rfl
  | slash a b hb h =>
      right
      rw [List.length_append, List.length_cons] at hlen
      rcases h.length_le with heq | hlt
      · exact ⟨a, b, hb, heq.symm, rfl⟩
      · rw [List.length_append] at hlt
        omega
  | dot a b hb h =>
      rw [List.length_append, List.length_cons, List.length_cons] at hlen
      rcases h.length_le with heq | hlt
      · rw [← heq, List.length_append] at hlen
        omega
      · rw [List.length_append] at hlt
        omega

/-- The path ends with a slash or with dots. -/
def PlainEnd (path : Text) : Prop :=
  nameFromPath path = none ∨ nameFromPath path = some ['.'] ∨ nameFromPath path = some ['.', '.']

instance (path : Text) : Decidable (PlainEnd path) := inferInstanceAs (Decidable (_ ∨ _ ∨ _))

private theorem nameFromPath_cut (hb : '/' ∉ b) :
    nameFromPath (a ++ '/' :: b) = if b = [] then none else some b := by
  have hdrop : (a ++ '/' :: b).drop (a.length + 1) = b := by
    rw [← List.singleton_append, ← List.append_assoc]
    exact List.drop_left' (by simp)
  simp only [nameFromPath, locateLastOccurence_cut hb, hdrop]

theorem plainEnd_cut (hb : '/' ∉ b) :
    PlainEnd (a ++ '/' :: b) ↔ b = [] ∨ b = ['.'] ∨ b = ['.', '.'] := by
  rw [PlainEnd, nameFromPath_cut hb]
  by_cases hnil : b = []
  · simp [hnil]
  · simp [hnil]

private theorem plainEnd_append (hb : b.head? = some '/') : PlainEnd (a ++ b) ↔ PlainEnd b := by
  obtain ⟨s, t, rfl, ht⟩ := exists_cut hb
  rw [← List.append_assoc, plainEnd_cut ht, plainEnd_cut ht]

theorem head_append (h : (a ++ b).head? = some '/') (rest : Text) :
    (a ++ '/' :: rest).head? = some '/' := by
  cases a with
  | nil => rfl
  | cons x a => exact h

/-- What insertions do not change. -/
structure Respelled (path w : Text) : Prop where
  absolute : w.head? = some '/'
  collapsed : pathCollapse (components w) = pathCollapse (components path)
  dotted : Dotted (components path) → Dotted (components w)
  plain : PlainEnd path → PlainEnd w

private theorem pathCollapse_insert_dot (cs ds : List Text) :
    pathCollapse (cs ++ ['.'] :: ds) = pathCollapse (cs ++ ds) := by
  rw [pathCollapse, List.foldl_append, List.foldl_cons, pathCollapse, List.foldl_append]
  rfl

theorem Inserted.respelled {path : Text} (hpath : path.head? = some '/') (h : Inserted path w) :
    Respelled path w := by
  induction h with
  | refl => exact ⟨hpath, rfl, id, id⟩
  | slash a b hb h ih =>
      have hcomponents : components (a ++ '/' :: b) = components (a ++ b) := by
        rw [components_append, components_append_of_boundary hb]
      refine ⟨head_append ih.absolute b, ?_, fun hd => ?_, fun hp => ?_⟩
      · rw [hcomponents, ih.collapsed]
      · rw [hcomponents]
        exact ih.dotted hd
      · rcases hb with rfl | hb
        · exact (plainEnd_cut List.not_mem_nil).mpr (Or.inl rfl)
        · have hend := ih.plain hp
          rw [plainEnd_append hb] at hend
          rw [← List.singleton_append, ← List.append_assoc, plainEnd_append hb]
          exact hend
  | dot a b hb h ih =>
      have hcomponents : components (a ++ '/' :: '.' :: b) = components a ++ ['.'] :: components b := by
        have hdot : components ('.' :: b) = components ['.'] ++ components b :=
          components_append_of_boundary (a := ['.']) hb
        rw [components_append, hdot]
        rfl
      have hold : components (a ++ b) = components a ++ components b := components_append_of_boundary hb
      refine ⟨head_append ih.absolute ('.' :: b), ?_, fun _ => ?_, fun hp => ?_⟩
      · rw [hcomponents, pathCollapse_insert_dot, ← hold, ih.collapsed]
      · rw [hcomponents]
        exact ⟨['.'], List.mem_append_right _ List.mem_cons_self, Or.inl rfl⟩
      · rcases hb with rfl | hb
        · exact (plainEnd_cut (by decide)).mpr (Or.inr (Or.inl rfl))
        · have hend := ih.plain hp
          rw [plainEnd_append hb] at hend
          have happend : a ++ '/' :: '.' :: b = (a ++ ['/', '.']) ++ b := by simp
          rw [happend, plainEnd_append hb]
          exact hend

end Zrt.Fs
