import Zrt.Fs.AbsolutePaths
import Zrt.Fs.MountsManager

/-!
# Sending paths to mounts

A path is made absolute and then looked up in the table of mounts. The lookup compares strings, not
components: a mount path is found only where the given path spells it in the same way, and also in the
middle of a longer name.
-/

namespace Zrt.Fs

variable {libc : Libc}

/-! ## Tables of mounts -/

/-- Mounts added one after the other. -/
def buildMounts {μ : Type} (mounts : List (MountInfo μ)) : MountItems μ :=
  mounts.foldl (fun items m => (items.mmMountAdd m.mountPath m.mount m.expectAbsolutePath).2) []

/-- Distinct normalized mount paths, with the root among them. -/
structure MountTable (μ : Type) where
  mounts : List (MountInfo μ)
  distinct : (mounts.map MountInfo.mountPath).Nodup
  normalized : ∀ m ∈ mounts, Normalized m.mountPath
  root : ∃ m ∈ mounts, m.mountPath = ['/']

private theorem buildMounts_eq {μ : Type} {mounts : List (MountInfo μ)}
    (h : (mounts.map MountInfo.mountPath).Nodup) : buildMounts mounts = mounts.map some := by
  have key : ∀ (rest done : List (MountInfo μ)), ((done ++ rest).map MountInfo.mountPath).Nodup →
      rest.foldl (fun items m => (MountItems.mmMountAdd items m.mountPath m.mount
        m.expectAbsolutePath).2) (done.map some) = (done ++ rest).map some := by
    intro rest
    induction rest with
    | nil =>
        intro done _
        rw [List.append_nil]
        rfl
    | cons m rest ih =>
        intro done hnodup
        have hnew : MountItems.mounted (done.map some) m.mountPath = none := by
          rw [MountItems.mounted_eq_none]
          intro info hinfo heq
          rw [List.mem_map] at hinfo
          obtain ⟨info', hinfo', hsome⟩ := hinfo
          cases hsome
          rw [List.map_append, List.nodup_append] at hnodup
          exact hnodup.2.2 _ (List.mem_map_of_mem hinfo') _ (List.mem_map_of_mem List.mem_cons_self) heq
        have hfree : ¬(MountItems.mmMountinfoBypath (done.map some) m.mountPath).any
            (fun l => l.2.mountPath == m.mountPath) = true := by
          rw [MountItems.any_located_iff, hnew]
          exact Bool.false_ne_true
        have hnext := ih (done ++ [m]) (by rwa [List.append_assoc, List.singleton_append])
        rw [List.append_assoc, List.singleton_append, List.map_append] at hnext
        rw [List.foldl_cons, MountItems.mmMountAdd, if_neg hfree]
        exact hnext
  exact key mounts [] h

namespace MountTable

variable {μ : Type} {t : MountTable μ} {m n : MountInfo μ} {path : Text} {l : Nat × MountInfo μ}

def items (t : MountTable μ) : MountItems μ := buildMounts t.mounts

/-- The mount that `open` and `stat` are sent to. -/
def transparentRoute (libc : Libc) (t : MountTable μ) (path : Text) : Option (Nat × MountInfo μ) :=
  (ensurePathIsAbsolute libc path).bind t.items.mmMountinfoBypath

theorem mem_items : some m ∈ t.items ↔ m ∈ t.mounts := by
  rw [items, buildMounts_eq t.distinct, List.mem_map]
  constructor
  · rintro ⟨m', hm', heq⟩
    cases heq
    exact hm'
  · intro hm
    exact ⟨m, hm, rfl⟩

theorem spelling (hm : m ∈ t.mounts) :
    m.mountPath = render (components m.mountPath) ∧ ∀ c ∈ components m.mountPath, c ≠ [] ∧ '/' ∉ c := by
  obtain ⟨heq, hproper⟩ := (t.normalized m hm).eq_render
  exact ⟨heq, hproper.name⟩

/-- Every absolute path has a mount, at least the root's. -/
theorem exists_located (hpath : path.head? = some '/') :
    ∃ l, t.items.mmMountinfoBypath path = some l ∧ l.2 ∈ t.mounts ∧ l.2.mountPath <+: path ∧
      ∀ m ∈ t.mounts, m.mountPath <+: path → m.mountPath.length ≤ l.2.mountPath.length := by
  have hlocated := MountItems.mmMountinfoBypath_located t.items path
  cases hl : t.items.mmMountinfoBypath path with
  | none =>
      rw [hl] at hlocated
      obtain ⟨m, hm, hroot⟩ := t.root
      have hstarts : m.mountPath <+: path := by
        rw [hroot]
        cases path with
        | nil => cases hpath
        | cons x xs =>
            cases hpath
            exact ⟨xs, rfl⟩
      exact absurd hstarts (hlocated m (mem_items.mpr hm))
  | some l =>
      rw [hl] at hlocated
      exact ⟨l, rfl, mem_items.mp (List.mem_of_getElem? hlocated.entry), hlocated.starts,
        fun m hm => hlocated.longest m (mem_items.mpr hm)⟩

theorem eq_of_mountPath (hm : m ∈ t.mounts) (hn : n ∈ t.mounts) (h : m.mountPath = n.mountPath) :
    m = n :=
  List.inj_on_of_nodup_map t.distinct hm hn h

/-! ## The nearest mount -/

/-- The mount with the most components that the path starts with. -/
structure Nearest (t : MountTable μ) (path : Text) (m : MountInfo μ) : Prop where
  mem : m ∈ t.mounts
  starts : components m.mountPath <+: components path
  nearest : ∀ n ∈ t.mounts, components n.mountPath <+: components path →
    (components n.mountPath).length ≤ (components m.mountPath).length

/-- Mounts that the path starts with as a string, or by components, are no longer than one that it
starts with in both ways. -/
def SpelledOut (t : MountTable μ) (path : Text) : Prop :=
  ∀ m ∈ t.mounts, (m.mountPath <+: path ∨ components m.mountPath <+: components path) →
    ∃ n ∈ t.mounts, n.mountPath <+: path ∧ components n.mountPath <+: components path ∧
      m.mountPath.length ≤ n.mountPath.length

private theorem length_le_of_components (hm : m ∈ t.mounts) (hn : n ∈ t.mounts)
    (h : components m.mountPath <+: components n.mountPath) :
    m.mountPath.length ≤ n.mountPath.length := by
  have hle := (render_starts h).length_le
  rw [← (spelling hm).1, ← (spelling hn).1] at hle
  exact hle

private theorem components_le_of_length (hm : m ∈ t.mounts) (hn : n ∈ t.mounts)
    (hmp : components m.mountPath <+: components path)
    (hnp : components n.mountPath <+: components path)
    (hlen : m.mountPath.length ≤ n.mountPath.length) :
    (components m.mountPath).length ≤ (components n.mountPath).length := by
  apply Nat.le_of_not_lt
  intro hlt
  have hnm := List.prefix_of_prefix_length_le hnp hmp (Nat.le_of_lt hlt)
  have hne : components n.mountPath ≠ components m.mountPath := by
    intro he
    rw [he] at hlt
    exact Nat.lt_irrefl _ hlt
  have hlonger := render_length_lt hnm hne fun c hc => ((spelling hm).2 c hc).1
  rw [← (spelling hm).1, ← (spelling hn).1] at hlonger
  omega

private theorem nearest_iff (hpath : path.head? = some '/')
    (hl : t.items.mmMountinfoBypath path = some l) : t.Nearest path l.2 ↔ t.SpelledOut path := by
  obtain ⟨l', hl', hmem, hstarts, hlongest⟩ := t.exists_located hpath
  rw [hl] at hl'
  cases hl'
  constructor
  · intro hnear m hm hor
    refine ⟨l.2, hmem, hstarts, hnear.starts, ?_⟩
    rcases hor with hraw | hcomponents
    · exact hlongest m hm hraw
    · have hle := hnear.nearest m hm hcomponents
      exact length_le_of_components hm hmem
        (List.prefix_of_prefix_length_le hcomponents hnear.starts hle)
  · intro hspelled
    -- the longest mount is the one that the path starts with in both ways
    obtain ⟨n, hn, hnraw, hncomp, hnlen⟩ := hspelled l.2 hmem (Or.inl hstarts)
    have hsame : n = l.2 := by
      apply eq_of_mountPath hn hmem
      exact MountItems.eq_of_starts hnraw hstarts (Nat.le_antisymm (hlongest n hn hnraw) hnlen)
    subst hsame
    refine ⟨hmem, hncomp, fun m hm hmcomp => ?_⟩
    obtain ⟨k, hk, hkraw, hkcomp, hklen⟩ := hspelled m hm (Or.inr hmcomp)
    exact components_le_of_length hm hmem hmcomp hncomp (Nat.le_trans hklen (hlongest k hk hkraw))

/-! ## Where inserted slashes and dots lead -/

/-- The buffers leave no room for a longer spelling, or room for one more slash in a path without
dots that starts with no mount but the root's. -/
def NoRoom (t : MountTable μ) (path : Text) : Prop :=
  pathMax ≤ path.length + 1 ∨
    (pathMax = path.length + 2 ∧ isRelativePath path = false ∧
      ∀ m ∈ t.mounts, m.mountPath <+: path → m.mountPath = ['/'])

/-- No mount but the root's starts the canonical path, or else the path has dots and does not become a
single component behind two slashes. -/
def StaysPut (t : MountTable μ) (path : Text) : Prop :=
  (∀ m ∈ t.mounts, m.mountPath <+: canonical path → m.mountPath = ['/']) ∨
    (isRelativePath path = true ∧ (PlainEnd path ∨ (pathCollapse (components path)).length ≠ 1)) ∨
    t.NoRoom path

theorem mmMountinfoBypath_congr {w w' : Text}
    (h : ∀ m ∈ t.mounts, m.mountPath <+: w ↔ m.mountPath <+: w') :
    t.items.mmMountinfoBypath w = t.items.mmMountinfoBypath w' := by
  have key : ∀ (items : MountItems μ) (i : Nat) (located : Option (Nat × MountInfo μ)),
      (∀ m, some m ∈ items → (m.mountPath <+: w ↔ m.mountPath <+: w')) →
      MountItems.mountinfoLoop w items i located = MountItems.mountinfoLoop w' items i located := by
    intro items
    induction items with
    | nil => exact fun i located _ => rfl
    | cons item items ih =>
        intro i located hall
        have hrest := fun m hm => hall m (List.mem_cons_of_mem _ hm)
        cases item with
        | none => exact ih _ _ hrest
        | some m =>
            have hm := hall m List.mem_cons_self
            rw [MountItems.mountinfoLoop, MountItems.mountinfoLoop, ih _ _ hrest]
            simp only [List.isPrefixOf_iff_prefix, hm]
  exact key t.items 0 none fun m hm => h m (mem_items.mp hm)

theorem root_starts {w : Text} (hw : w.head? = some '/') : ['/'] <+: w := by
  cases w with
  | nil => cases hw
  | cons x xs =>
      cases hw
      exact ⟨xs, rfl⟩

theorem components_ne_nil (hm : m ∈ t.mounts) (hroot : m.mountPath ≠ ['/']) :
    components m.mountPath ≠ [] := by
  intro hnil
  apply hroot
  rw [(spelling hm).1, hnil]
  rfl

/-- A mount other than the root's that an absolute path without dots starts with, or what a path with
dots becomes, starts the canonical path. -/
private theorem starts_canonical (hlibc : libc.Canonical) {w v : Text} (hw : w.head? = some '/')
    (hlen : w.length < pathMax) (hm : m ∈ t.mounts) (hroot : m.mountPath ≠ ['/'])
    (hens : ensurePathIsAbsolute libc w = some v) (h : m.mountPath <+: v) :
    m.mountPath <+: canonical w := by
  obtain ⟨heq, hname⟩ := spelling hm
  have hne := components_ne_nil hm hroot
  by_cases hdots : Dotted (components w)
  · obtain ⟨a, b, hcut, hb⟩ := exists_cut hw
    by_cases hlast : (b = [] ∨ b = ['.'] ∨ b = ['.', '.']) ∨ (pathCollapse (components w)).length ≠ 1
    · rcases ensurePathIsAbsolute_canonical hlibc hw hlen hdots hcut hb hlast with hcan | hcan
      · rw [hens, Option.some.injEq] at hcan
        rwa [hcan] at h
      · rw [hens, Option.some.injEq] at hcan
        rw [hcan, heq, canonical, starts_snoc_slash hname] at h
        rwa [heq]
    · rw [not_or, not_or, not_not] at hlast
      rw [ensurePathIsAbsolute_single hlibc hw hlen hdots hcut hb hlast.1.1 hlast.1.2 hlast.2,
        Option.some.injEq] at hens
      rw [← hens, heq] at h
      exact absurd h (not_starts_slashes hne hname)
  · have hcollapse : pathCollapse (components w) = components w := by
      apply pathCollapse_of_no_dots
      intro c hc
      exact ⟨fun he => hdots ⟨c, hc, Or.inl he⟩, fun he => hdots ⟨c, hc, Or.inr he⟩⟩
    have hrel : ¬isRelativePath w = true := fun hr => hdots ((isRelativePath_iff hw).mp hr)
    rw [ensurePathIsAbsolute, if_neg hrel, Option.some.injEq] at hens
    rw [← hens, heq] at h
    rw [canonical, hcollapse, heq]
    exact render_starts_components hname h

private theorem ensurePathIsAbsolute_trailing_dot (hlibc : libc.Canonical) (hpath : path.head? = some '/')
    (hlen : path.length + 2 < pathMax) :
    ensurePathIsAbsolute libc (path ++ ['/', '.']) = some (canonical path) := by
  have hw : Inserted path (path ++ ['/', '.']) :=
    .dot path [] (Or.inl rfl) (by rw [List.append_nil]; exact .refl)
  have hres := hw.respelled hpath
  have hlen' : (path ++ ['/', '.']).length < pathMax := by
    rw [List.length_append]
    exact hlen
  rw [ensurePathIsAbsolute_dotted hlibc hres.absolute hlen' _ rfl (by decide), if_pos (Or.inl rfl),
    canonical, hres.collapsed, canonical]
  rw [components_append]
  exact ⟨['.'], List.mem_append_right _ (List.mem_singleton.mpr rfl), Or.inl rfl⟩

private theorem ensurePathIsAbsolute_trailing_slash (hlibc : libc.Canonical) (hpath : path.head? = some '/')
    (hdots : Dotted (components path)) (hlen : path.length + 1 < pathMax) :
    ensurePathIsAbsolute libc (path ++ ['/']) = some (canonical path ++ ['/']) := by
  have hw : Inserted path (path ++ ['/']) :=
    .slash path [] (Or.inl rfl) (by rw [List.append_nil]; exact .refl)
  have hres := hw.respelled hpath
  have hlen' : (path ++ ['/']).length < pathMax := by
    rw [List.length_append]
    exact hlen
  rw [ensurePathIsAbsolute_dotted hlibc hres.absolute hlen' (hres.dotted hdots) rfl
    List.not_mem_nil, if_neg (by decide), if_pos rfl, canonical, hres.collapsed, canonical]

private theorem exists_double_slash (hlibc : libc.Canonical) (hpath : path.head? = some '/')
    (hlen : path.length + 1 < pathMax)
    (hrel : ¬ (isRelativePath path = true ∧
      (PlainEnd path ∨ (pathCollapse (components path)).length ≠ 1))) :
    ∃ w b, Inserted path w ∧ w.length < pathMax ∧
      ensurePathIsAbsolute libc w = some ('/' :: '/' :: b) := by
  by_cases hdots : isRelativePath path = true
  · obtain ⟨a, b, hcut, hb⟩ := exists_cut hpath
    rw [not_and] at hrel
    obtain ⟨hplain, hone⟩ := not_or.mp (hrel hdots)
    rw [hcut, plainEnd_cut hb, not_or] at hplain
    rw [not_not] at hone
    have hshort : path.length < pathMax := by omega
    exact ⟨path, b, .refl, hshort, ensurePathIsAbsolute_single hlibc hpath hshort
      ((isRelativePath_iff hpath).mp hdots) hcut hb hplain.1 hplain.2 hone⟩
  · have hundotted : ¬isRelativePath ('/' :: path) = true := by
      rw [isRelativePath_iff rfl, components_slash, ← isRelativePath_iff hpath]
      exact hdots
    cases hp : path with
    | nil =>
        rw [hp] at hpath
        cases hpath
    | cons x xs =>
        rw [hp] at hpath hundotted hlen
        cases hpath
        refine ⟨'/' :: '/' :: xs, xs, .slash [] ('/' :: xs) (Or.inr rfl) .refl, hlen, ?_⟩
        rw [ensurePathIsAbsolute, if_neg hundotted]

private theorem starts_iff_root (hlibc : libc.Canonical) {w v : Text} (hm : m ∈ t.mounts)
    (hroot : m.mountPath <+: canonical path → m.mountPath = ['/']) (hw : w.head? = some '/')
    (hlen : w.length < pathMax) (hc : canonical w = canonical path)
    (hens : ensurePathIsAbsolute libc w = some v) (hv : v.head? = some '/') :
    m.mountPath <+: v ↔ m.mountPath = ['/'] := by
  constructor
  · intro hstarts
    by_contra hne
    have hcan := starts_canonical hlibc hw hlen hm hne hens hstarts
    rw [hc] at hcan
    exact hne (hroot hcan)
  · intro he
    rw [he]
    exact root_starts hv

private theorem starts_iff_canonical (hlibc : libc.Canonical) {w v : Text} (hm : m ∈ t.mounts)
    (hdots : Dotted (components path))
    (hend : PlainEnd path ∨ (pathCollapse (components path)).length ≠ 1)
    (hres : Respelled path w) (hlen : w.length < pathMax)
    (hens : ensurePathIsAbsolute libc w = some v) :
    m.mountPath <+: v ↔ m.mountPath <+: canonical path := by
  have hcan : canonical w = canonical path := by rw [canonical, hres.collapsed, canonical]
  obtain ⟨a, b, hcut, hb⟩ := exists_cut hres.absolute
  have hlast : (b = [] ∨ b = ['.'] ∨ b = ['.', '.']) ∨
      (pathCollapse (components w)).length ≠ 1 := by
    rcases hend with hplain | hone
    · have hplain' := hres.plain hplain
      rw [hcut, plainEnd_cut hb] at hplain'
      exact Or.inl hplain'
    · rw [hres.collapsed]
      exact Or.inr hone
  rcases ensurePathIsAbsolute_canonical hlibc hres.absolute hlen (hres.dotted hdots) hcut hb hlast with
    hcanonical | hcanonical
  · rw [hens, Option.some.injEq] at hcanonical
    rw [hcanonical, hcan]
  · rw [hens, Option.some.injEq] at hcanonical
    rw [hcanonical, hcan, (spelling hm).1, canonical, starts_snoc_slash (spelling hm).2]

/-- A mount other than the root's that starts a path with one redundant slash starts it without that
slash. -/
private theorem starts_of_slash {a b : Text} (hm : m ∈ t.mounts) (hroot : m.mountPath ≠ ['/'])
    (hb : b = [] ∨ b.head? = some '/') (h : m.mountPath <+: a ++ '/' :: b) :
    m.mountPath <+: a ++ b := by
  rcases Nat.lt_or_ge a.length m.mountPath.length with hlong | hshort
  · -- the mount path would have a redundant slash itself
    obtain ⟨rest, hrest⟩ := h
    obtain ⟨c, hc, hcrest⟩ : ∃ c, m.mountPath = a ++ '/' :: c ∧ '/' :: b = '/' :: c ++ rest := by
      rcases List.append_eq_append_iff.mp hrest with ⟨x, hax, hx⟩ | ⟨x, hmx, hx⟩
      · rw [hax, List.length_append] at hlong
        omega
      · cases x with
        | nil =>
            rw [hmx, List.append_nil] at hlong
            exact absurd hlong (Nat.lt_irrefl _)
        | cons y c =>
            rw [List.cons_append, List.cons.injEq] at hx
            rw [← hx.1] at hmx
            exact ⟨c, hmx, by rw [List.cons_append, hx.2]⟩
    have hcb : c = [] ∨ c.head? = some '/' := by
      cases c with
      | nil => exact Or.inl rfl
      | cons y c =>
          rw [List.cons_append, List.cons_append, List.cons.injEq] at hcrest
          rw [hcrest.2] at hb
          exact Or.inr (hb.resolve_left (List.cons_ne_nil _ _))
    have hspelled := (spelling hm).1
    rw [hc] at hspelled hroot
    have hhead := (t.normalized m hm).1
    rw [hc] at hhead
    exact absurd hspelled.symm (render_components_ne_inserted hcb hhead hroot)
  · exact (List.prefix_of_prefix_length_le h (List.prefix_append _ _) hshort).trans
      (List.prefix_append _ _)

private theorem mmMountinfoBypath_slashes_ne {b v : Text} (hm : m ∈ t.mounts) (hroot : m.mountPath ≠ ['/'])
    (hstarts : m.mountPath <+: v) (hv : v.head? = some '/') :
    t.items.mmMountinfoBypath ('/' :: '/' :: b) ≠ t.items.mmMountinfoBypath v := by
  intro heq
  obtain ⟨l, hl, hlmem, -, hlongest⟩ := t.exists_located hv
  obtain ⟨l', hl', -, hstarts', -⟩ := t.exists_located (show ('/' :: '/' :: b).head? = some '/' from rfl)
  rw [heq, hl] at hl'
  cases hl'
  have hlroot : l.2.mountPath = ['/'] := by
    by_contra hne
    rw [(spelling hlmem).1] at hstarts'
    exact not_starts_slashes (components_ne_nil hlmem hne) (spelling hlmem).2 hstarts'
  have hle := hlongest m hm hstarts
  have hlt := render_length_lt (List.nil_prefix (l := components m.mountPath))
    (Ne.symm (components_ne_nil hm hroot)) fun c hc => ((spelling hm).2 c hc).1
  rw [← (spelling hm).1, render, if_pos rfl, List.length_singleton] at hlt
  rw [hlroot, List.length_singleton] at hle
  omega

/-- The spellings of the path that fit the buffers are sent to its mount. -/
def KeepsMount (libc : Libc) (t : MountTable μ) (path : Text) : Prop :=
  ∀ w, Inserted path w → w.length < pathMax →
    ∃ l, t.transparentRoute libc w = some l ∧ t.transparentRoute libc path = some l

private theorem not_keepsMount {w w' b v : Text} (hm : m ∈ t.mounts) (hroot : m.mountPath ≠ ['/'])
    (hw : Inserted path w) (hlen : w.length < pathMax)
    (hens : ensurePathIsAbsolute libc w = some ('/' :: '/' :: b)) (hw' : Inserted path w')
    (hlen' : w'.length < pathMax) (hens' : ensurePathIsAbsolute libc w' = some v)
    (hstarts : m.mountPath <+: v) (hv : v.head? = some '/') : ¬t.KeepsMount libc path := by
  intro hkeeps
  obtain ⟨l, hl, hpath⟩ := hkeeps w hw hlen
  obtain ⟨l', hl', hpath'⟩ := hkeeps w' hw' hlen'
  rw [hpath] at hpath'
  cases hpath'
  rw [transparentRoute, hens, Option.bind_some] at hl
  rw [transparentRoute, hens', Option.bind_some] at hl'
  exact mmMountinfoBypath_slashes_ne hm hroot hstarts hv (hl.trans hl'.symm)

private theorem staysPut_of_keepsMount (hlibc : libc.Canonical) (hpath : path.head? = some '/')
    (hkeeps : t.KeepsMount libc path) : t.StaysPut path := by
  by_contra hnot
  simp only [StaysPut, NoRoom, not_or] at hnot
  obtain ⟨hmount, hrel, hroom, hslash⟩ := hnot
  simp only [not_forall] at hmount
  obtain ⟨m, hm, hstarts, hroot⟩ := hmount
  have hone : path.length + 1 < pathMax := by omega
  obtain ⟨w, b, hw, hlen, hens⟩ := exists_double_slash hlibc hpath hone hrel
  rcases Nat.lt_or_ge (path.length + 2) pathMax with htwo | htwo
  · -- a dot at the end makes the path canonical
    have hw' : Inserted path (path ++ ['/', '.']) :=
      .dot path [] (Or.inl rfl) (by rw [List.append_nil]; exact .refl)
    have hlen' : (path ++ ['/', '.']).length < pathMax := by
      rw [List.length_append]
      exact htwo
    exact not_keepsMount hm hroot hw hlen hens hw' hlen'
      (ensurePathIsAbsolute_trailing_dot hlibc hpath htwo) hstarts (render_head _) hkeeps
  · have heq : pathMax = path.length + 2 := by omega
    by_cases hdots : isRelativePath path = true
    · have hw' : Inserted path (path ++ ['/']) :=
        .slash path [] (Or.inl rfl) (by rw [List.append_nil]; exact .refl)
      have hlen' : (path ++ ['/']).length < pathMax := by
        rw [List.length_append]
        exact hone
      have hhead : (canonical path ++ ['/']).head? = some '/' := by
        rw [canonical, List.head?_append, render_head]
        rfl
      exact not_keepsMount hm hroot hw hlen hens hw' hlen'
        (ensurePathIsAbsolute_trailing_slash hlibc hpath ((isRelativePath_iff hpath).mp hdots) hone)
        (hstarts.trans (List.prefix_append _ _)) hhead hkeeps
    · have hother : ∃ n ∈ t.mounts, n.mountPath <+: path ∧ n.mountPath ≠ ['/'] := by
        by_contra hnone
        apply hslash
        refine ⟨heq, Bool.not_eq_true _ ▸ hdots, fun n hn hnstarts => ?_⟩
        by_contra hne
        exact hnone ⟨n, hn, hnstarts, hne⟩
      obtain ⟨n, hn, hnstarts, hnroot⟩ := hother
      have hself : ensurePathIsAbsolute libc path = some path := by
        rw [ensurePathIsAbsolute, if_neg hdots]
      exact not_keepsMount hn hnroot hw hlen hens .refl (Nat.lt_of_succ_lt hone) hself hnstarts hpath
        hkeeps

private theorem keepsMount_of_noRoom (hlibc : libc.Canonical) (hpath : path.head? = some '/')
    (hroom : t.NoRoom path) : t.KeepsMount libc path := by
  intro w hw hlen
  rcases hw.length_le with rfl | hlt
  · obtain ⟨v, hens, hv⟩ := exists_ensurePathIsAbsolute hlibc hpath hlen
    obtain ⟨l, hl, -⟩ := t.exists_located hv
    rw [transparentRoute, hens, Option.bind_some]
    exact ⟨l, hl, hl⟩
  rcases hroom with hfull | ⟨heq, hdots, hroots⟩
  · omega
  · have hdots' : ¬Dotted (components path) := by
      rw [← isRelativePath_iff hpath, hdots]
      exact Bool.false_ne_true
    rcases hw.slash_of_length (by omega) with rfl | ⟨a, b, hb, rfl, rfl⟩
    · exact absurd hlt (Nat.lt_irrefl _)
    have hhead := head_append hpath b
    have hcomponents : components (a ++ '/' :: b) = components (a ++ b) := by
      rw [components_append, components_append_of_boundary hb]
    have hrel : ¬isRelativePath (a ++ '/' :: b) = true := by
      rw [isRelativePath_iff hhead, hcomponents]
      exact hdots'
    have hrel' : ¬isRelativePath (a ++ b) = true := by
      rw [isRelativePath_iff hpath]
      exact hdots'
    have hsame : t.items.mmMountinfoBypath (a ++ '/' :: b) =
        t.items.mmMountinfoBypath (a ++ b) := by
      apply mmMountinfoBypath_congr
      intro m hm
      constructor
      · intro hstarts
        by_cases hroot : m.mountPath = ['/']
        · rw [hroot]
          exact root_starts hpath
        · exact starts_of_slash hm hroot hb hstarts
      · intro hstarts
        rw [hroots m hm hstarts]
        exact root_starts hhead
    obtain ⟨l, hl, -⟩ := t.exists_located hpath
    rw [transparentRoute, ensurePathIsAbsolute, if_neg hrel, Option.bind_some, hsame, transparentRoute,
      ensurePathIsAbsolute, if_neg hrel', Option.bind_some]
    exact ⟨l, hl, hl⟩

private theorem keepsMount_iff (hlibc : libc.Canonical) (hpath : path.head? = some '/') :
    t.KeepsMount libc path ↔ t.StaysPut path := by
  constructor
  · exact staysPut_of_keepsMount hlibc hpath
  · intro hput w hw hlen
    rcases hput with hput | hput | hroom
    all_goals
      have hlen' : path.length < pathMax := by
        rcases hw.length_le with rfl | hlt
        · exact hlen
        · omega
      have hres := hw.respelled hpath
      have hcanonical : canonical w = canonical path := by rw [canonical, hres.collapsed, canonical]
      obtain ⟨v, hens, hv⟩ := exists_ensurePathIsAbsolute hlibc hres.absolute hlen
      obtain ⟨v', hens', hv'⟩ := exists_ensurePathIsAbsolute hlibc hpath hlen'
      obtain ⟨l, hl, -⟩ := t.exists_located hv'
    · have hsame : t.items.mmMountinfoBypath v = t.items.mmMountinfoBypath v' := by
        apply mmMountinfoBypath_congr
        intro m hm
        rw [starts_iff_root hlibc hm (hput m hm) hres.absolute hlen hcanonical hens hv,
          starts_iff_root hlibc hm (hput m hm) hpath hlen' rfl hens' hv']
      rw [transparentRoute, hens, Option.bind_some, hsame, transparentRoute, hens', Option.bind_some]
      exact ⟨l, hl, hl⟩
    · have hdots := (isRelativePath_iff hpath).mp hput.1
      have hsame : t.items.mmMountinfoBypath v = t.items.mmMountinfoBypath v' := by
        apply mmMountinfoBypath_congr
        intro m hm
        rw [starts_iff_canonical hlibc hm hdots hput.2 hres hlen hens,
          starts_iff_canonical hlibc hm hdots hput.2 (Inserted.refl.respelled hpath) hlen' hens']
      rw [transparentRoute, hens, Option.bind_some, hsame, transparentRoute, hens', Option.bind_some]
      exact ⟨l, hl, hl⟩
    · exact keepsMount_of_noRoom hlibc hpath hroom w hw hlen

/-! ## Paths inside a mount -/

/-- The path a mount is given: the whole path, or the rest behind the mount's own components, which
starts with a slash. -/
def Converted (t : MountTable μ) (path : Text) (m : MountInfo μ) : Prop :=
  ∃ rest, t.items.mmConvertPathToMount path = some rest ∧
    (m.expectAbsolutePath = true → rest = path) ∧
    (m.expectAbsolutePath = false →
      components path = components m.mountPath ++ components rest ∧ rest.head? = some '/')

private theorem converted_iff (hpath : path.head? = some '/')
    (hl : t.items.mmMountinfoBypath path = some l) (hnear : t.Nearest path l.2) :
    t.Converted path l.2 ↔
      ∀ m ∈ t.mounts, m.mountPath = path → m.mountPath = ['/'] ∨ m.expectAbsolutePath = true := by
  obtain ⟨l', hl', hmem, hstarts, hlongest⟩ := t.exists_located hpath
  rw [hl] at hl'
  cases hl'
  have hconvert : t.items.mmConvertPathToMount path = some (if l.2.expectAbsolutePath then path
      else if l.2.mountPath = ['/'] then path else path.drop l.2.mountPath.length) := by
    rw [MountItems.mmConvertPathToMount, hl, Option.map_some]
  constructor
  · rintro ⟨rest, hrest, -, hinside⟩ m hm hmpath
    have hself : m.mountPath <+: path := ⟨[], by rw [List.append_nil, hmpath]⟩
    have hfull : l.2.mountPath = path := by
      have hle := hlongest m hm hself
      rw [hmpath] at hle
      exact hstarts.eq_of_length (Nat.le_antisymm hstarts.length_le hle)
    have hsame : m = l.2 := eq_of_mountPath hm hmem (hmpath.trans hfull.symm)
    by_contra hneither
    rw [not_or, Bool.not_eq_true] at hneither
    rw [hsame] at hneither
    have hhead := (hinside hneither.2).2
    rw [hconvert, if_neg (by rw [hneither.2]; exact Bool.false_ne_true), if_neg hneither.1, hfull,
      List.drop_length] at hrest
    cases hrest
    cases hhead
  · intro hsafe
    refine ⟨_, hconvert, fun hea => by rw [if_pos hea], fun hea => ?_⟩
    rw [if_neg (by rw [hea]; exact Bool.false_ne_true)]
    split
    · rename_i hroot
      rw [hroot]
      exact ⟨rfl, hpath⟩
    · rename_i hroot
      obtain ⟨rest, hrest⟩ := hstarts
      have hdrop : path.drop l.2.mountPath.length = rest := by rw [← hrest, List.drop_left]
      rw [hdrop]
      have hne : rest ≠ [] := by
        rintro rfl
        rw [List.append_nil] at hrest
        rcases hsafe l.2 hmem hrest with h | h
        · exact hroot h
        · rw [hea] at h
          cases h
      have hhead : rest.head? = some '/' := by
        apply head_of_components_starts (components_ne_nil hmem hroot) (spelling hmem).2 hne
        rw [← (spelling hmem).1, hrest]
        exact hnear.starts
      refine ⟨?_, hhead⟩
      rw [← hrest]
      exact components_append_of_boundary (Or.inr hhead)

/-! ## Routing -/

/-- What is promised of a path: the mount with the most components is selected, inserted slashes and
dots do not change the mount, and the mount is given a path of its own. -/
structure Routed (libc : Libc) (t : MountTable μ) (path : Text) : Prop where
  selected : ∃ l, t.items.mmMountinfoBypath path = some l ∧ t.Nearest path l.2 ∧ t.Converted path l.2
  inserted : t.KeepsMount libc path

structure RouteSafe (t : MountTable μ) (path : Text) : Prop where
  spelled : t.SpelledOut path
  put : t.StaysPut path
  below : ∀ m ∈ t.mounts, m.mountPath = path → m.mountPath = ['/'] ∨ m.expectAbsolutePath = true

theorem routed_iff (libc : Libc) (hlibc : libc.Canonical) (t : MountTable μ) (path : AbsolutePath) :
    t.Routed libc path.text ↔ t.RouteSafe path.text := by
  obtain ⟨l, hl, -⟩ := t.exists_located path.absolute
  have hnearest := nearest_iff path.absolute hl
  constructor
  · intro h
    obtain ⟨l', hl', hnear, hconverted⟩ := h.selected
    rw [hl] at hl'
    cases hl'
    exact ⟨hnearest.mp hnear, (keepsMount_iff hlibc path.absolute).mp h.inserted,
      (converted_iff path.absolute hl hnear).mp hconverted⟩
  · intro h
    have hnear := hnearest.mpr h.spelled
    exact ⟨⟨l, hl, hnear, (converted_iff path.absolute hl hnear).mpr h.below⟩,
      (keepsMount_iff hlibc path.absolute).mpr h.put⟩

/-- The table of the start: the channels and the in-memory mount, by number. -/
def standard : MountTable Nat where
  mounts := [⟨"/dev".toList, true, 0⟩, ⟨"/".toList, false, 1⟩]
  distinct := by decide
  normalized := by decide
  root := by decide

/-- A library without symbolic links and without missing files. -/
def plainLibc : Libc := ⟨fun path => some (canonical path), ['/']⟩

theorem routed_iff_file :
    standard.RouteSafe "/tmp/f".toList ∧ standard.Routed plainLibc "/tmp/f".toList := by
  have hsafe : standard.RouteSafe "/tmp/f".toList := by
    refine ⟨?_, Or.inl (by decide), by decide⟩
    unfold SpelledOut
    decide
  exact ⟨hsafe, (routed_iff plainLibc (fun _ _ _ => rfl) standard (.fromRoot "tmp/f".toList)).mpr hsafe⟩

/-- A name that merely starts like a mount path is sent to that mount. -/
theorem devel_routed_to_dev :
    standard.items.mmMountinfoBypath "/devel".toList = some (0, ⟨"/dev".toList, true, 0⟩) ∧
      ¬standard.Nearest "/devel".toList ⟨"/dev".toList, true, 0⟩ ∧
      standard.transparentRoute plainLibc "/dev/stdin".toList = some (0, ⟨"/dev".toList, true, 0⟩) ∧
      standard.transparentRoute plainLibc "//dev/stdin".toList = some (1, ⟨"/".toList, false, 1⟩) ∧
      ¬standard.Routed plainLibc "/devel".toList := by
  have hfar : ¬standard.Nearest "/devel".toList ⟨"/dev".toList, true, 0⟩ := by
    intro h
    have hstarts := h.starts
    revert hstarts
    decide
  refine ⟨by decide, hfar, by decide, by decide, fun h => ?_⟩
  obtain ⟨l, hl, hnear, -⟩ := h.selected
  have hdev : standard.items.mmMountinfoBypath "/devel".toList =
      some (0, ⟨"/dev".toList, true, 0⟩) := by decide
  rw [hdev] at hl
  cases hl
  exact hfar hnear

end MountTable

end Zrt.Fs
