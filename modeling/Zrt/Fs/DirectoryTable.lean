import Mathlib.Data.Finset.Card
import Zrt.Fs.AbsolutePaths
import Zrt.Fs.ChannelsListing

/-!
# The directory table

The directories of a channel name are added from the root on, so that a directory finds the one
above it in the table. A path that spells its components with one slash each ends, up to any slash
of it, where one of its ancestors ends.
-/

namespace Zrt.Fs

/-- The path is absolute and has no empty component. -/
def Spelled (p : Text) : Prop := p = render (components p)

instance (p : Text) : Decidable (Spelled p) := inferInstanceAs (Decidable (_ = _))

/-- The directories above a path, from the root on. -/
def properAncestors (p : Text) : List Text :=
  (List.range (components p).length).map fun k => render ((components p).take k)

/-- The directory above a directory; the root is above itself. -/
def parentPath (p : Text) : Text := render (components p).dropLast

/-- The distinct directories above the channels. -/
def ancestorDirs (channels : List AbsolutePath) : Finset Text :=
  (channels.flatMap fun c => properAncestors c.text).toFinset

/-! ## Walking over a spelled path -/

section Walking

variable {ds : List Text} {c p : Text}

theorem locateLastOccurence_append (a b : Text) (ch : Char) (len : Nat) (hlen : len ≤ a.length) :
    locateLastOccurence (a ++ b) ch len = locateLastOccurence a ch len := by
  induction len with
  | zero => rfl
  | succ len ih =>
      rw [locateLastOccurence, locateLastOccurence, List.getElem?_append_left hlen,
        ih (Nat.le_of_succ_le hlen)]

/-- The last slash of an ancestor stands behind the spelling of the components before. -/
theorem locateLastOccurence_render (hc : '/' ∉ c) (hp : render (ds ++ [c]) <+: p) :
    locateLastOccurence p '/' (render (ds ++ [c])).length =
      some (ds.flatMap ('/' :: ·)).length := by
  obtain ⟨rest, rfl⟩ := hp
  rw [locateLastOccurence_append _ _ _ _ (Nat.le_refl _), render_snoc]
  exact locateLastOccurence_cut hc

theorem length_render (ds : List Text) :
    (render ds).length = if ds = [] then 1 else (ds.flatMap ('/' :: ·)).length := by
  rw [render]
  split
  · rfl
  · rfl

theorem length_render_snoc (ds : List Text) (c : Text) :
    (render (ds ++ [c])).length = (ds.flatMap ('/' :: ·)).length + c.length + 1 := by
  rw [render_snoc, List.length_append, List.length_cons, Nat.add_assoc]

theorem length_flatMap_pos (hds : ds ≠ []) : 0 < (ds.flatMap ('/' :: ·)).length := by
  obtain ⟨d, es, rfl⟩ := List.exists_cons_of_ne_nil hds
  simp

theorem length_render_pos (ds : List Text) : 0 < (render ds).length := by
  have hhead := render_head ds
  cases hr : render ds with
  | nil =>
      rw [hr] at hhead
      cases hhead
  | cons x xs => exact Nat.succ_pos _

private theorem getElem?_render_ne (hds : ∀ c ∈ ds, c ≠ [] ∧ '/' ∉ c) (hlen : 1 < (render ds).length) :
    (render ds)[(render ds).length - 1]? ≠ some '/' := by
  rcases List.eq_nil_or_concat ds with rfl | ⟨es, c, rfl⟩
  · exact absurd hlen (by decide)
  · rw [List.concat_eq_append] at hds ⊢
    obtain ⟨hne, hslash⟩ := hds c (by simp)
    rw [← List.getLast?_eq_getElem?, render_snoc, List.getLast?_append_of_ne_nil _ (by simp),
      List.getLast?_cons_of_ne_nil hne]
    exact fun h => hslash (List.mem_of_getLast? h)

/-- One step back from where a directory ends is its own end, and the cursor is left where the
directory above it ends. -/
private theorem pathSubpathBackward_render (hc : c ≠ [] ∧ '/' ∉ c) (hp : render (ds ++ [c]) <+: p) :
    pathSubpathBackward p (render (ds ++ [c])).length =
      (some (render (ds ++ [c])).length, ((ds.flatMap ('/' :: ·)).length : Int)) := by
  have hpos := List.length_pos_iff.mpr hc.1
  have hlen := length_render_snoc ds c
  rw [pathSubpathBackward, pathComponentBackward, Int.toNat_natCast,
    locateLastOccurence_render hc.2 hp]
  simp only
  rw [if_neg (by omega)]
  simp only [Option.map_some, Prod.mk.injEq, Option.some.injEq, and_true]
  omega

private theorem pathSubpathBackward_zero (hp : p.head? = some '/') :
    pathSubpathBackward p (0 : Nat) = (some 1, -1) := by
  rw [pathSubpathBackward, pathComponentBackward, Int.toNat_natCast, locateLastOccurence]
  simp [hp]

private theorem parentSubpath_render (hds : ∀ e ∈ ds, e ≠ [] ∧ '/' ∉ e) (hc : c ≠ [] ∧ '/' ∉ c) :
    parentSubpath (render (ds ++ [c])) = some (render ds).length := by
  rw [parentSubpath, pathSubpathBackward_render hc (List.prefix_refl _)]
  rcases List.eq_nil_or_concat ds with rfl | ⟨es, e, rfl⟩
  · exact congrArg Prod.fst (pathSubpathBackward_zero (render_head _))
  · rw [List.concat_eq_append] at hds ⊢
    have hstarts : render (es ++ [e]) <+: render (es ++ [e] ++ [c]) :=
      render_starts (List.prefix_append _ _)
    have hflat : ((es ++ [e]).flatMap ('/' :: ·)).length = (render (es ++ [e])).length := by
      rw [length_render, if_neg (by simp)]
    rw [hflat, pathSubpathBackward_render (hds e (by simp)) hstarts]

private theorem parentSubpath_root : parentSubpath (render []) = none := by decide

end Walking

/-! ## Adding directories -/

section Adding

variable {ds : List Text} {c p : Text} {dirs : List DirData}

theorem matchDirInDirectoryList_render (hds : ∀ c ∈ ds, c ≠ [] ∧ '/' ∉ c) (hp : render ds <+: p) :
    matchDirInDirectoryList dirs p (render ds).length = dirs.find? fun d => d.path = render ds := by
  have htake := List.prefix_iff_eq_take.mp hp
  have hplain : ¬ (1 < (render ds).length ∧ p[(render ds).length - 1]? = some '/') := by
    rintro ⟨hlen, hslash⟩
    obtain ⟨rest, rfl⟩ := hp
    rw [List.getElem?_append_left (by omega)] at hslash
    exact getElem?_render_ne hds hlen hslash
  rw [matchDirInDirectoryList]
  simp only [if_neg hplain, ← htake]
  congr 1
  funext d
  rw [Bool.eq_iff_iff, Bool.and_eq_true, beq_iff_eq, beq_iff_eq, decide_eq_true_iff]
  constructor
  · rintro ⟨hpath, hlen⟩
    rw [hpath, ← hlen, List.take_length]
  · intro hpath
    rw [hpath, List.take_length]
    exact ⟨rfl, rfl⟩

private theorem parentInodeOf_render (hds : ∀ e ∈ ds, e ≠ [] ∧ '/' ∉ e) (hc : c ≠ [] ∧ '/' ∉ c)
    {parent : DirData} (hparent : (dirs.find? fun d => d.path = render ds) = some parent) :
    parentInodeOf dirs (render (ds ++ [c])) = parent.dirInode := by
  rw [parentInodeOf, parentSubpath_render hds hc, Option.bind_some,
    matchDirInDirectoryList_render hds (render_starts (List.prefix_append _ _)), hparent]

private theorem parentInodeOf_root : parentInodeOf dirs (render []) = dirs.length := by
  rw [parentInodeOf, parentSubpath_root, Option.bind_none]

/-- The entry of a directory that is added to the table. -/
def newDir (dirs : List DirData) (ds : List Text) : DirData :=
  ⟨dirs.length, parentInodeOf dirs (render ds), 2, render ds⟩

private theorem callbackAddDir_render (hds : ∀ c ∈ ds, c ≠ [] ∧ '/' ∉ c) (hp : render ds <+: p) :
    callbackAddDir dirs p (render ds).length =
      if render ds ∈ dirs.map DirData.path then dirs
      else if dirs.length < directoriesMaxNumber then dirs ++ [newDir dirs ds] else dirs := by
  have hpos := length_render_pos ds
  have hfound : (dirs.find? fun d => d.path = render ds).isSome ↔
      render ds ∈ dirs.map DirData.path := by
    rw [List.find?_isSome, List.mem_map]
    simp only [decide_eq_true_iff]
  rw [callbackAddDir, if_neg (by omega), matchDirInDirectoryList_render hds hp]
  simp only [hfound, ← List.prefix_iff_eq_take.mp hp, newDir]

private theorem processSubdirsViaCallback_root (hp : p.head? = some '/') (fuel : Nat) :
    processSubdirsViaCallback p fuel dirs (render []).length = dirs := by
  have hroot : locateLastOccurence p '/' (render []).length = some 0 := by
    obtain ⟨t, rfl⟩ := List.head?_eq_some_iff.mp hp
    rfl
  cases fuel with
  | zero => rfl
  | succ fuel =>
      rw [processSubdirsViaCallback, hroot]
      cases fuel with
      | zero => rfl
      | succ fuel => rfl

private theorem processSubdirsViaCallback_snoc (hc : c ≠ [] ∧ '/' ∉ c) (hp : render (ds ++ [c]) <+: p)
    (fuel : Nat) :
    processSubdirsViaCallback p (fuel + 1) dirs (render (ds ++ [c])).length =
      callbackAddDir (processSubdirsViaCallback p fuel dirs (render ds).length) p
        (render ds).length := by
  have hpos := List.length_pos_iff.mpr hc.1
  have hlen := length_render_snoc ds c
  have hsubpath : (if 1 < (render (ds ++ [c])).length ∧ (ds.flatMap ('/' :: ·)).length = 0 then 1
      else (ds.flatMap ('/' :: ·)).length) = (render ds).length := by
    rw [length_render ds]
    by_cases hds : ds = []
    · rw [if_pos hds, if_pos ⟨by omega, by rw [hds]; rfl⟩]
    · have hflat := length_flatMap_pos hds
      rw [if_neg hds, if_neg (by omega)]
  rw [processSubdirsViaCallback, locateLastOccurence_render hc.2 hp]
  simp only [hsubpath]

end Adding

/-! ## The table of a list of channels -/

/-- Every path once, only ancestors, and with each directory the one above it. -/
structure DirTable (ancestors : Finset Text) (dirs : List DirData) : Prop where
  wf : TableWF dirs
  nodup : (dirs.map DirData.path).Nodup
  mem : ∀ d ∈ dirs, d.path ∈ ancestors
  parents : ∀ d ∈ dirs, ∃ e ∈ dirs, e.dirInode = d.parentDirInode ∧ e.path = parentPath d.path

section Table

variable {ancestors : Finset Text} {dirs : List DirData} {ds : List Text} {c p : Text}

private theorem dirTable_nil : DirTable ancestors [] where
  wf := ⟨rfl, by simp, by simp, by simp⟩
  nodup := by simp
  mem := by simp
  parents := by simp

private theorem DirTable.length_lt (h : DirTable ancestors dirs)
    (hcard : ancestors.card ≤ directoriesMaxNumber) (hmem : p ∈ ancestors)
    (hnew : p ∉ dirs.map DirData.path) : dirs.length < directoriesMaxNumber := by
  have hsub : insert p (dirs.map DirData.path).toFinset ⊆ ancestors := by
    intro q hq
    rcases Finset.mem_insert.mp hq with rfl | hq
    · exact hmem
    · obtain ⟨d, hd, rfl⟩ := List.mem_map.mp (List.mem_toFinset.mp hq)
      exact h.mem d hd
  have hle := Finset.card_le_card hsub
  rw [Finset.card_insert_of_notMem (by simpa using hnew), List.toFinset_card_of_nodup h.nodup,
    List.length_map] at hle
  omega

private theorem parentPath_render (hds : ∀ c ∈ ds, c ≠ [] ∧ '/' ∉ c) :
    parentPath (render ds) = render ds.dropLast := by
  rw [parentPath, components_render hds]

private theorem DirTable.newDir_parent (hds : ∀ c ∈ ds, c ≠ [] ∧ '/' ∉ c)
    (habove : ds = [] ∨ render ds.dropLast ∈ dirs.map DirData.path) :
    ∃ e ∈ dirs ++ [newDir dirs ds], e.dirInode = (newDir dirs ds).parentDirInode ∧
      e.path = parentPath (newDir dirs ds).path := by
  rcases List.eq_nil_or_concat ds with rfl | ⟨es, c, rfl⟩
  · exact ⟨newDir dirs [], by simp, parentInodeOf_root.symm, (parentPath_render hds).symm⟩
  · rw [List.concat_eq_append] at hds habove ⊢
    rw [List.dropLast_concat] at habove
    have hfound : (dirs.find? fun d => d.path = render es).isSome := by
      obtain ⟨d, hd, hpath⟩ := List.mem_map.mp (habove.resolve_left (by simp))
      exact List.find?_isSome.mpr ⟨d, hd, by simp [hpath]⟩
    obtain ⟨e, he⟩ := Option.isSome_iff_exists.mp hfound
    have hpath : e.path = render es := by simpa using List.find?_some he
    have hinode := parentInodeOf_render (fun x hx => hds x (by simp [hx])) (hds c (by simp)) he
    refine ⟨e, List.mem_append_left _ (List.mem_of_find?_eq_some he), hinode.symm, ?_⟩
    rw [newDir, parentPath_render hds, List.dropLast_concat, hpath]

private theorem DirTable.add (h : DirTable ancestors dirs) (hcard : ancestors.card ≤ directoriesMaxNumber)
    (hds : ∀ c ∈ ds, c ≠ [] ∧ '/' ∉ c) (hmem : render ds ∈ ancestors)
    (habove : ds = [] ∨ render ds.dropLast ∈ dirs.map DirData.path) (hp : render ds <+: p) :
    DirTable ancestors (callbackAddDir dirs p (render ds).length) ∧
      ∀ q, q ∈ (callbackAddDir dirs p (render ds).length).map DirData.path ↔
        q ∈ dirs.map DirData.path ∨ q = render ds := by
  have hhead : p.head? = some '/' := by
    obtain ⟨rest, rfl⟩ := hp
    rw [List.head?_append, render_head]
    rfl
  have hwf := callbackAddDir_wf h.wf hhead (render ds).length
  have hstep : callbackAddDir dirs p (render ds).length = _ := callbackAddDir_render hds hp
  by_cases hold : render ds ∈ dirs.map DirData.path
  · rw [if_pos hold] at hstep
    rw [hstep]
    refine ⟨h, fun q => (or_iff_left_of_imp ?_).symm⟩
    rintro rfl
    exact hold
  · rw [if_neg hold, if_pos (h.length_lt hcard hmem hold)] at hstep
    rw [hstep] at hwf ⊢
    refine ⟨⟨hwf, ?_, ?_, ?_⟩, fun q => ?_⟩
    · rw [List.map_append, List.map_singleton, ← List.concat_eq_append]
      exact h.nodup.concat hold
    · intro d hd
      rcases List.mem_append.mp hd with hd | hd
      · exact h.mem d hd
      · rw [List.mem_singleton.mp hd]
        exact hmem
    · intro d hd
      rcases List.mem_append.mp hd with hd | hd
      · obtain ⟨e, he, hparent⟩ := h.parents d hd
        exact ⟨e, List.mem_append_left _ he, hparent⟩
      · rw [List.mem_singleton.mp hd]
        exact DirTable.newDir_parent hds habove
    · simp [newDir]

private theorem properPrefix_snoc {es : List Text} : es <+: ds ++ [c] ∧ es ≠ ds ++ [c] ↔ es <+: ds := by
  constructor
  · rintro ⟨hes, hne⟩
    rcases List.prefix_concat_iff.mp hes with heq | hes
    · exact absurd heq hne
    · exact hes
  · intro hes
    refine ⟨hes.trans (List.prefix_append ds [c]), ?_⟩
    rintro rfl
    have hle := hes.length_le
    rw [List.length_append, List.length_singleton] at hle
    omega

private theorem DirTable.process (hcard : ancestors.card ≤ directoriesMaxNumber)
    (h : DirTable ancestors dirs) (hds : ∀ c ∈ ds, c ≠ [] ∧ '/' ∉ c)
    (hmem : ∀ es, es <+: ds → es ≠ ds → render es ∈ ancestors) (hp : render ds <+: p)
    (fuel : Nat) (hfuel : ds.length ≤ fuel) :
    DirTable ancestors (processSubdirsViaCallback p fuel dirs (render ds).length) ∧
      ∀ q, q ∈ (processSubdirsViaCallback p fuel dirs (render ds).length).map DirData.path ↔
        q ∈ dirs.map DirData.path ∨ ∃ es, es <+: ds ∧ es ≠ ds ∧ q = render es := by
  induction ds using List.reverseRecOn generalizing fuel with
  | nil =>
      have hhead : p.head? = some '/' := by
        obtain ⟨rest, rfl⟩ := hp
        rfl
      rw [processSubdirsViaCallback_root hhead]
      refine ⟨h, fun q => (or_iff_left ?_).symm⟩
      rintro ⟨es, hes, hne, -⟩
      exact hne (List.prefix_nil.mp hes)
  | append_singleton ds c ih =>
      obtain ⟨fuel, rfl⟩ : ∃ f, fuel = f + 1 :=
        ⟨fuel - 1, by rw [List.length_append, List.length_singleton] at hfuel; omega⟩
      have hstart : ds <+: ds ++ [c] := List.prefix_append _ _
      have hp' : render ds <+: p := (render_starts hstart).trans hp
      have hds' : ∀ c ∈ ds, c ≠ [] ∧ '/' ∉ c := fun x hx => hds x (by simp [hx])
      have hmem' : ∀ es, es <+: ds → render es ∈ ancestors := fun es hes =>
        hmem es (properPrefix_snoc.mpr hes).1 (properPrefix_snoc.mpr hes).2
      obtain ⟨htable, hpaths⟩ := ih hds' (fun es hes _ => hmem' es hes) hp' fuel
        (by rw [List.length_append, List.length_singleton] at hfuel; omega)
      have habove : ds = [] ∨ render ds.dropLast ∈
          (processSubdirsViaCallback p fuel dirs (render ds).length).map DirData.path := by
        by_cases hnil : ds = []
        · exact Or.inl hnil
        · refine Or.inr ((hpaths _).mpr (Or.inr ⟨ds.dropLast, List.dropLast_prefix ds, ?_, rfl⟩))
          intro heq
          have hlen := congrArg List.length heq
          have hpos := List.length_pos_iff.mpr hnil
          rw [List.length_dropLast] at hlen
          omega
      rw [processSubdirsViaCallback_snoc (hds c (by simp)) hp]
      obtain ⟨hadded, hq⟩ := htable.add hcard hds' (hmem' ds (List.prefix_refl _)) habove hp'
      refine ⟨hadded, fun q => ?_⟩
      rw [hq, hpaths, or_assoc]
      refine or_congr_right ?_
      constructor
      · rintro (⟨es, hes, -, rfl⟩ | rfl)
        · exact ⟨es, (properPrefix_snoc.mpr hes).1, (properPrefix_snoc.mpr hes).2, rfl⟩
        · have hself := properPrefix_snoc (c := c).mpr (List.prefix_refl ds)
          exact ⟨ds, hself.1, hself.2, rfl⟩
      · rintro ⟨es, hes, hne, rfl⟩
        by_cases heq : es = ds
        · exact Or.inr (by rw [heq])
        · exact Or.inl ⟨es, properPrefix_snoc.mp ⟨hes, hne⟩, heq, rfl⟩

private theorem mem_properAncestors (p q : Text) :
    q ∈ properAncestors p ↔ ∃ es, es <+: components p ∧ es ≠ components p ∧ q = render es := by
  rw [properAncestors, List.mem_map]
  constructor
  · rintro ⟨k, hk, rfl⟩
    have hlt := List.mem_range.mp hk
    refine ⟨_, List.take_prefix k _, fun heq => ?_, rfl⟩
    have hlen := congrArg List.length heq
    rw [List.length_take] at hlen
    omega
  · rintro ⟨es, hes, hne, rfl⟩
    have hlt : es.length < (components p).length :=
      Nat.lt_of_le_of_ne hes.length_le fun h => hne (hes.eq_of_length h)
    exact ⟨es.length, List.mem_range.mpr hlt, by rw [← List.prefix_iff_eq_take.mp hes]⟩

private theorem length_le_length_render (ds : List Text) : ds.length ≤ (render ds).length := by
  induction ds using List.reverseRecOn with
  | nil => exact Nat.zero_le _
  | append_singleton ds c ih =>
      rw [length_render] at ih
      rw [length_render_snoc, List.length_append, List.length_singleton]
      by_cases hds : ds = []
      · simp [hds]
      · rw [if_neg hds] at ih
        omega

private theorem DirTable.collect (hcard : ancestors.card ≤ directoriesMaxNumber)
    (h : DirTable ancestors dirs) (channels : List AbsolutePath)
    (hspelled : ∀ c ∈ channels, Spelled c.text)
    (hmem : ∀ c ∈ channels, ∀ q ∈ properAncestors c.text, q ∈ ancestors) :
    let dirs' := channels.foldl
      (fun dirs c => processSubdirsViaCallback c.text c.text.length dirs c.text.length) dirs
    DirTable ancestors dirs' ∧
      ∀ q, q ∈ dirs'.map DirData.path ↔
        q ∈ dirs.map DirData.path ∨ ∃ c ∈ channels, q ∈ properAncestors c.text := by
  induction channels generalizing dirs with
  | nil => exact ⟨h, by simp⟩
  | cons c channels ih =>
      have hrender : c.text = render (components c.text) := hspelled c List.mem_cons_self
      have hlen := congrArg List.length hrender
      obtain ⟨htable, hpaths⟩ := DirTable.process hcard h (fun _ => mem_components)
        (fun es hes hne => hmem c List.mem_cons_self _
          ((mem_properAncestors c.text _).mpr ⟨es, hes, hne, rfl⟩))
        (hrender ▸ List.prefix_refl _ : render (components c.text) <+: c.text) c.text.length
        (hlen ▸ length_le_length_render _)
      rw [← hlen] at htable hpaths
      obtain ⟨hrest, hq⟩ := ih htable (fun d hd => hspelled d (List.mem_cons_of_mem _ hd))
        fun d hd => hmem d (List.mem_cons_of_mem _ hd)
      refine ⟨hrest, fun q => ?_⟩
      rw [List.foldl_cons, hq, hpaths, ← mem_properAncestors, or_assoc]
      simp

end Table

/-- The table has each ancestor of a channel once, with the inode of the directory above it, and all
inodes of directories and channels are distinct. -/
theorem processChannelsCreateDirList_ancestors (channels : List AbsolutePath)
    (hspelled : ∀ c ∈ channels, Spelled c.text)
    (hcard : (ancestorDirs channels).card ≤ directoriesMaxNumber) :
    (∀ q, q ∈ (processChannelsCreateDirList channels).map DirData.path ↔
        ∃ c ∈ channels, q ∈ properAncestors c.text) ∧
      ((processChannelsCreateDirList channels).map DirData.path).Nodup ∧
      (∀ d ∈ processChannelsCreateDirList channels,
        ∃ e ∈ processChannelsCreateDirList channels,
          e.dirInode = d.parentDirInode ∧ e.path = parentPath d.path) ∧
      ((processChannelsCreateDirList channels).map DirData.dirInode ++
        channels.zipIdx.map fun c => inodeFromZvmInode c.2).Nodup := by
  have hmem : ∀ c ∈ channels, ∀ q ∈ properAncestors c.text, q ∈ ancestorDirs channels :=
    fun c hc q hq => List.mem_toFinset.mpr (List.mem_flatMap.mpr ⟨c, hc, hq⟩)
  obtain ⟨htable, hpaths⟩ := dirTable_nil.collect hcard channels hspelled hmem
  change DirTable _ (collectDirs channels) at htable
  change ∀ q, q ∈ (collectDirs channels).map DirData.path ↔ _ at hpaths
  have hpath : (processChannelsCreateDirList channels).map DirData.path =
      (collectDirs channels).map DirData.path := by
    rw [processChannelsCreateDirList, List.map_map]
    rfl
  have hinode : (processChannelsCreateDirList channels).map DirData.dirInode =
      (List.range (collectDirs channels).length).map fun i =>
        inodeFromZvmInode (i + channels.length) := by
    rw [processChannelsCreateDirList, ← htable.wf.inodes, List.map_map, List.map_map]
    rfl
  refine ⟨?_, hpath ▸ htable.nodup, ?_, ?_⟩
  · simpa [hpath] using hpaths
  · intro d hd
    obtain ⟨x, hx, rfl⟩ := List.mem_map.mp hd
    obtain ⟨e, he, hparent, habove⟩ := htable.parents x hx
    refine ⟨_, List.mem_map_of_mem he, ?_, habove⟩
    simp only [finishDir, hparent]
  · rw [hinode, List.nodup_append]
    refine ⟨List.Nodup.map (fun i j hij => ?_) List.nodup_range, ?_, ?_⟩
    · simp only [inodeFromZvmInode] at hij
      omega
    · have hzip : channels.zipIdx.map (fun c => inodeFromZvmInode c.2) =
          (List.range' 0 channels.length).map inodeFromZvmInode := by
        rw [← List.zipIdx_map_snd 0 channels, List.map_map]
        rfl
      rw [hzip]
      exact List.Nodup.map (fun i j hij => Nat.add_left_cancel hij) List.nodup_range'
    · intro i hi j hj hij
      obtain ⟨k, -, rfl⟩ := List.mem_map.mp hi
      obtain ⟨c, hc, rfl⟩ := List.mem_map.mp hj
      have hlt := List.snd_lt_of_mem_zipIdx hc
      simp only [inodeFromZvmInode] at hij
      omega

/-- A channel in a directory of its own, named before the channels that stand above it. -/
def nestedChannels : List AbsolutePath :=
  [⟨"/dev/mount/data.tar".toList, rfl⟩, ⟨"/dev/stderr".toList, rfl⟩, ⟨"/bin".toList, rfl⟩]

theorem processChannelsCreateDirList_ancestors_nested :
    (∀ q, q ∈ (processChannelsCreateDirList nestedChannels).map DirData.path ↔
        ∃ c ∈ nestedChannels, q ∈ properAncestors c.text) ∧
      ((processChannelsCreateDirList nestedChannels).map DirData.path).Nodup ∧
      (∀ d ∈ processChannelsCreateDirList nestedChannels,
        ∃ e ∈ processChannelsCreateDirList nestedChannels,
          e.dirInode = d.parentDirInode ∧ e.path = parentPath d.path) ∧
      ((processChannelsCreateDirList nestedChannels).map DirData.dirInode ++
        nestedChannels.zipIdx.map fun c => inodeFromZvmInode c.2).Nodup :=
  processChannelsCreateDirList_ancestors nestedChannels (by decide) (by decide)

example : (processChannelsCreateDirList nestedChannels).map DirData.path =
    ["/".toList, "/dev".toList, "/dev/mount".toList] := by decide

end Zrt.Fs
