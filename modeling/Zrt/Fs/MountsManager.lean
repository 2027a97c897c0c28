import Mathlib.Data.List.Nodup
import Zrt.Errno
import Zrt.Fs.PathUtils

/-!
# The table of mounts

Mounts stand in an array of pointers, in the order in which they were added; a removed one leaves a
null pointer. The lookup by path compares whole strings: it takes the longest mount path that the
given path starts with. Adding and removing look up their entry in the same way.
-/

namespace Zrt.Fs

structure MountInfo (μ : Type) where
  mountPath : Text
  expectAbsolutePath : Bool
  mount : μ
deriving DecidableEq

/-- `mount_items`; a null pointer is `none`. -/
abbrev MountItems (μ : Type) := List (Option (MountInfo μ))

namespace MountItems

variable {μ : Type}

/-- The loop of `mm_mountinfo_bypath` from an index, with the mount located so far. -/
def mountinfoLoop (path : Text) : MountItems μ → Nat → Option (Nat × MountInfo μ) →
    Option (Nat × MountInfo μ)
  | [], _, located => located
  | none :: items, i, located => mountinfoLoop path items (i + 1) located
  | some info :: items, i, located =>
      mountinfoLoop path items (i + 1)
        (if info.mountPath.isPrefixOf path ∧
            ∀ l ∈ located, l.2.mountPath.length < info.mountPath.length
          then some (i, info) else located)

def mmMountinfoBypath (items : MountItems μ) (path : Text) : Option (Nat × MountInfo μ) :=
  mountinfoLoop path items 0 none

def mmMountAdd (items : MountItems μ) (path : Text) (mount : μ) (expectAbsolutePath : Bool) :
    Except Errno Unit × MountItems μ :=
  if (items.mmMountinfoBypath path).any fun l => l.2.mountPath == path then (.error .ebusy, items)
  else (.ok (), items ++ [some ⟨path, expectAbsolutePath, mount⟩])

/-- Whether zero was returned. The errno is not set. -/
def mmMountRemove (items : MountItems μ) (path : Text) : Bool × MountItems μ :=
  match items.mmMountinfoBypath path with
  | some (i, _) => (true, items.set i none)
  | none => (false, items)

def mmMountBypath (items : MountItems μ) (path : Text) : Option μ :=
  (items.mmMountinfoBypath path).map fun l => l.2.mount

/-- Paths of a mount on the root and of mounts that expect absolute paths are passed on as they are. -/
def mmConvertPathToMount (items : MountItems μ) (fullPath : Text) : Option Text :=
  (items.mmMountinfoBypath fullPath).map fun l =>
    if l.2.expectAbsolutePath then fullPath
    else if l.2.mountPath = ['/'] then fullPath
    else fullPath.drop l.2.mountPath.length

/-! ## The lookup -/

variable {items : MountItems μ} {path p q : Text} {i j : Nat} {info info' : MountInfo μ}

/-- Among the mounts whose path the given one starts with, none is longer. -/
structure Located (items : MountItems μ) (path : Text) (i : Nat) (info : MountInfo μ) : Prop where
  entry : items[i]? = some (some info)
  starts : info.mountPath <+: path
  longest : ∀ info', some info' ∈ items → info'.mountPath <+: path →
    info'.mountPath.length ≤ info.mountPath.length

/-- What the loop has located after a first part of the table. -/
def LocatedIn (items : MountItems μ) (path : Text) : Option (Nat × MountInfo μ) → Prop
  | some l => Located items path l.1 l.2
  | none => ∀ info, some info ∈ items → ¬info.mountPath <+: path

private theorem LocatedIn.snoc_none {located : Option (Nat × MountInfo μ)} (h : LocatedIn items path located) :
    LocatedIn (items ++ [none]) path located := by
  have hmem : ∀ info : MountInfo μ, some info ∈ items ++ [none] → some info ∈ items := by
    intro info hinfo
    simpa using hinfo
  cases located with
  | none => exact fun info hinfo => h info (hmem info hinfo)
  | some l =>
      obtain ⟨hentry, hstarts, hlongest⟩ := h
      refine ⟨?_, hstarts, fun info' hinfo' => hlongest info' (hmem info' hinfo')⟩
      rw [List.getElem?_append_left (List.getElem?_eq_some_iff.mp hentry).1]
      exact hentry

private theorem LocatedIn.snoc_some {located : Option (Nat × MountInfo μ)} (h : LocatedIn items path located)
    (info : MountInfo μ) :
    LocatedIn (items ++ [some info]) path
      (if info.mountPath.isPrefixOf path ∧ ∀ l ∈ located, l.2.mountPath.length < info.mountPath.length
        then some (items.length, info) else located) := by
  have hmem : ∀ info' : MountInfo μ, some info' ∈ items ++ [some info] →
      some info' ∈ items ∨ info' = info := by
    intro info' hinfo'
    simpa using hinfo'
  split
  · rename_i hbetter
    refine ⟨by simp, List.isPrefixOf_iff_prefix.mp hbetter.1, fun info' hinfo' hstarts => ?_⟩
    rcases hmem info' hinfo' with hold | rfl
    · cases located with
      | none => exact absurd hstarts (h info' hold)
      | some l => exact Nat.le_trans (h.longest info' hold hstarts) (Nat.le_of_lt (hbetter.2 l rfl))
    · exact Nat.le_refl _
  · rename_i hworse
    cases located with
    | none =>
        intro info' hinfo' hstarts
        rcases hmem info' hinfo' with hold | rfl
        · exact h info' hold hstarts
        · exact hworse ⟨List.isPrefixOf_iff_prefix.mpr hstarts, fun l hl => by cases hl⟩
    | some l =>
        obtain ⟨hentry, hstarts, hlongest⟩ := h
        refine ⟨?_, hstarts, fun info' hinfo' hstarts' => ?_⟩
        · rw [List.getElem?_append_left (List.getElem?_eq_some_iff.mp hentry).1]
          exact hentry
        · rcases hmem info' hinfo' with hold | rfl
          · exact hlongest info' hold hstarts'
          · apply Nat.le_of_not_lt
            intro hlt
            apply hworse
            refine ⟨List.isPrefixOf_iff_prefix.mpr hstarts', fun l' hl' => ?_⟩
            cases hl'
            exact hlt

private theorem mountinfoLoop_located (rest : MountItems μ) {located : Option (Nat × MountInfo μ)}
    (h : LocatedIn items path located) :
    LocatedIn (items ++ rest) path (mountinfoLoop path rest items.length located) := by
  induction rest generalizing items located with
  | nil =>
      rw [List.append_nil]
      exact h
  | cons item rest ih =>
      have hlen : ∀ item : Option (MountInfo μ), (items ++ [item]).length = items.length + 1 := by
        intro item
        rw [List.length_append, List.length_singleton]
      cases item with
      | none =>
          have hnext := ih h.snoc_none
          rw [hlen, List.append_assoc, List.singleton_append] at hnext
          exact hnext
      | some info =>
          have hnext := ih (h.snoc_some info)
          rw [hlen, List.append_assoc, List.singleton_append] at hnext
          exact hnext

theorem mmMountinfoBypath_located (items : MountItems μ) (path : Text) :
    LocatedIn items path (items.mmMountinfoBypath path) := by
  have hempty : LocatedIn ([] : MountItems μ) path none :=
    fun info hinfo => absurd hinfo List.not_mem_nil
  exact mountinfoLoop_located items hempty

theorem eq_of_starts (hp : p <+: path) (hq : q <+: path) (hlen : p.length = q.length) : p = q :=
  (List.prefix_of_prefix_length_le hp hq (Nat.le_of_eq hlen)).eq_of_length hlen

/-! ## The table as a map -/

/-- The mount with exactly this path. -/
def mounted (items : MountItems μ) (path : Text) : Option (MountInfo μ) :=
  (items.filterMap id).find? fun info => info.mountPath == path

/-- No two mounts have the same path. -/
def Distinct (items : MountItems μ) : Prop := ((items.filterMap id).map MountInfo.mountPath).Nodup

theorem mem_filterMap_id : info ∈ items.filterMap id ↔ some info ∈ items := by
  rw [List.mem_filterMap]
  constructor
  · rintro ⟨a, ha, hid⟩
    cases hid
    exact ha
  · intro h
    exact ⟨some info, h, rfl⟩

theorem mounted_spec (h : items.mounted p = some info) : some info ∈ items ∧ info.mountPath = p := by
  have hp := List.find?_some h
  exact ⟨mem_filterMap_id.mp (List.mem_of_find?_eq_some h), by simpa using hp⟩

theorem mounted_eq_none : items.mounted p = none ↔ ∀ info, some info ∈ items → info.mountPath ≠ p := by
  rw [mounted, List.find?_eq_none]
  constructor
  · intro h info hinfo heq
    exact h info (mem_filterMap_id.mpr hinfo) (by simpa using heq)
  · intro h info hinfo heq
    exact h info (mem_filterMap_id.mp hinfo) (by simpa using heq)

private theorem Distinct.mounted_of_mem (h : items.Distinct) (hinfo : some info ∈ items) :
    items.mounted info.mountPath = some info := by
  cases hm : items.mounted info.mountPath with
  | none => exact absurd rfl (mounted_eq_none.mp hm info hinfo)
  | some info' =>
      obtain ⟨hinfo', hpath⟩ := mounted_spec hm
      have hinj := List.inj_on_of_nodup_map h (mem_filterMap_id.mpr hinfo') (mem_filterMap_id.mpr hinfo)
        hpath
      rw [hinj]

theorem located_of_mounted (h : items.mounted p = some info) :
    ∃ i info', items.mmMountinfoBypath p = some (i, info') ∧ Located items p i info' ∧
      info'.mountPath = p := by
  obtain ⟨hinfo, rfl⟩ := mounted_spec h
  have hlocated := mmMountinfoBypath_located items info.mountPath
  cases hl : items.mmMountinfoBypath info.mountPath with
  | none =>
      rw [hl] at hlocated
      exact absurd (List.prefix_refl _) (hlocated info hinfo)
  | some l =>
      rw [hl] at hlocated
      refine ⟨l.1, l.2, rfl, hlocated, ?_⟩
      have hle := hlocated.longest info hinfo (List.prefix_refl _)
      exact hlocated.starts.eq_of_length (Nat.le_antisymm hlocated.starts.length_le hle)

theorem any_located_iff :
    (items.mmMountinfoBypath p).any (fun l => l.2.mountPath == p) = true ↔
      (items.mounted p).isSome := by
  constructor
  · intro hany
    obtain ⟨l, hl, hpath⟩ := (Option.any_eq_true _ _).mp hany
    have hlocated := mmMountinfoBypath_located items p
    rw [hl] at hlocated
    rw [Option.isSome_iff_ne_none]
    intro hnone
    exact mounted_eq_none.mp hnone l.2 (List.mem_of_getElem? hlocated.entry) (by simpa using hpath)
  · intro hsome
    obtain ⟨info, hinfo⟩ := Option.isSome_iff_exists.mp hsome
    obtain ⟨i, info', hl, -, hpath⟩ := located_of_mounted hinfo
    rw [hl, Option.any_some, hpath]
    exact beq_self_eq_true p

private theorem filterMap_set_none (hi : items[i]? = some (some info)) :
    ∃ before after, items.filterMap id = before ++ info :: after ∧
      (items.set i none).filterMap id = before ++ after := by
  obtain ⟨hlt, hget⟩ := List.getElem?_eq_some_iff.mp hi
  refine ⟨(items.take i).filterMap id, (items.drop (i + 1)).filterMap id, ?_, ?_⟩
  · conv_lhs => rw [← List.take_append_drop i items, List.drop_eq_getElem_cons hlt, hget]
    rw [List.filterMap_append]
    rfl
  · rw [List.set_eq_take_append_cons_drop, if_pos hlt, List.filterMap_append,
      List.filterMap_cons_none rfl]

theorem Distinct.set_none (h : items.Distinct) (hi : items[i]? = some (some info)) :
    Distinct (items.set i none) ∧ mounted (items.set i none) info.mountPath = none ∧
      ∀ q, q ≠ info.mountPath → mounted (items.set i none) q = items.mounted q := by
  obtain ⟨before, after, hitems, hset⟩ := filterMap_set_none hi
  rw [Distinct, hitems, List.map_append, List.map_cons] at h
  obtain ⟨hb, ha, hdisjoint⟩ := List.nodup_append.mp h
  obtain ⟨hnot, ha⟩ := List.nodup_cons.mp ha
  refine ⟨?_, ?_, fun q hq => ?_⟩
  · rw [Distinct, hset, List.map_append, List.nodup_append]
    exact ⟨hb, ha, fun a hx b hy => hdisjoint a hx b (List.mem_cons_of_mem _ hy)⟩
  · rw [mounted, hset, List.find?_eq_none]
    intro info' hinfo' heq
    have hpath : info'.mountPath = info.mountPath := by simpa using heq
    rcases List.mem_append.mp hinfo' with hmem | hmem
    · exact hdisjoint _ (List.mem_map_of_mem hmem) _ List.mem_cons_self hpath
    · exact hnot (hpath ▸ List.mem_map_of_mem hmem)
  · have hskip : (info.mountPath == q) = false := by
      simpa using Ne.symm hq
    rw [mounted, mounted, hset, hitems, List.find?_append, List.find?_append, List.find?_cons, hskip]

theorem Distinct.snoc (h : items.Distinct) (info : MountInfo μ) (hnew : items.mounted info.mountPath = none) :
    Distinct (items ++ [some info]) ∧ mounted (items ++ [some info]) info.mountPath = some info ∧
      ∀ q, q ≠ info.mountPath → mounted (items ++ [some info]) q = items.mounted q := by
  have happend : (items ++ [some info]).filterMap id = items.filterMap id ++ [info] := by
    rw [List.filterMap_append]
    rfl
  have hdistinct : Distinct (items ++ [some info]) := by
    rw [Distinct, happend, List.map_append, List.nodup_append]
    refine ⟨h, List.nodup_singleton _, fun a ha b hb => ?_⟩
    obtain ⟨info', hinfo', rfl⟩ := List.mem_map.mp ha
    rw [List.map_singleton, List.mem_singleton] at hb
    rw [hb]
    exact mounted_eq_none.mp hnew info' (mem_filterMap_id.mp hinfo')
  refine ⟨hdistinct, hdistinct.mounted_of_mem (by simp), fun q hq => ?_⟩
  have hskip : (info.mountPath == q) = false := by
    simpa using Ne.symm hq
  rw [mounted, mounted, happend, List.find?_append, List.find?_singleton, hskip]
  simp

/-! ## Adding and removing -/

/-- Adding succeeds exactly if there is no mount with the path, and then adds it to the map; otherwise
the table stays as it is. -/
def AddsExactly (items : MountItems μ) (path : Text) (mount : μ) (expectAbsolutePath : Bool) : Prop :=
  let r := items.mmMountAdd path mount expectAbsolutePath
  (r.1 = .ok () ↔ items.mounted path = none) ∧
    (r.1 = .ok () → r.2.mounted path = some ⟨path, expectAbsolutePath, mount⟩ ∧
      ∀ q, q ≠ path → r.2.mounted q = items.mounted q) ∧
    (r.1 ≠ .ok () → r.2 = items)

/-- Removing takes the mount with the path from the map if there is one, and otherwise fails and leaves
the table as it is. -/
def RemovesExactly (items : MountItems μ) (path : Text) : Prop :=
  let r := items.mmMountRemove path
  ((items.mounted path).isSome → r.1 = true ∧ r.2.mounted path = none ∧
      ∀ q, q ≠ path → r.2.mounted q = items.mounted q) ∧
    (items.mounted path = none → r.1 = false ∧ r.2 = items)

private theorem Distinct.addsExactly (h : items.Distinct) (path : Text) (mount : μ)
    (expectAbsolutePath : Bool) : items.AddsExactly path mount expectAbsolutePath := by
  unfold AddsExactly mmMountAdd
  cases hm : items.mounted path with
  | none =>
      have hfree : ¬(items.mmMountinfoBypath path).any (fun l => l.2.mountPath == path) = true := by
        rw [any_located_iff, hm]
        exact Bool.false_ne_true
      rw [if_neg hfree]
      obtain ⟨-, hnew, hother⟩ := h.snoc ⟨path, expectAbsolutePath, mount⟩ hm
      exact ⟨iff_of_true rfl rfl, fun _ => ⟨hnew, hother⟩, fun hne => absurd rfl hne⟩
  | some info =>
      have hbusy : (items.mmMountinfoBypath path).any (fun l => l.2.mountPath == path) = true := by
        rw [any_located_iff, hm]
        rfl
      rw [if_pos hbusy]
      refine ⟨iff_of_false ?_ ?_, ?_, fun _ => rfl⟩
      · intro he
        cases he
      · intro he
        cases he
      · intro he
        cases he

private theorem Distinct.removesExactly_iff (h : items.Distinct) (path : Text) :
    items.RemovesExactly path ↔
      (items.mounted path).isSome ∨ ∀ info, some info ∈ items → ¬info.mountPath <+: path := by
  have hlocated := mmMountinfoBypath_located items path
  cases hm : items.mounted path with
  | some info =>
      obtain ⟨i, info', hl, hloc, rfl⟩ := located_of_mounted hm
      obtain ⟨-, hgone, hother⟩ := h.set_none hloc.entry
      refine iff_of_true ?_ (Or.inl rfl)
      unfold RemovesExactly mmMountRemove
      rw [hl, hm]
      refine ⟨fun _ => ⟨rfl, hgone, hother⟩, ?_⟩
      intro he
      cases he
  | none =>
      unfold RemovesExactly mmMountRemove
      rw [hm]
      cases hl : items.mmMountinfoBypath path with
      | none =>
          rw [hl] at hlocated
          refine iff_of_true ⟨?_, fun _ => ⟨rfl, rfl⟩⟩ (Or.inr hlocated)
          intro hs
          cases hs
      | some l =>
          rw [hl] at hlocated
          apply iff_of_false
          · intro hremoves
            cases (hremoves.2 rfl).1
          · intro hsafe
            rcases hsafe with hs | hnone
            · cases hs
            · exact hnone l.2 (List.mem_of_getElem? hlocated.entry) hlocated.starts

end MountItems

/-! ## Runs -/

inductive MountCall (μ : Type) where
  | add (path : Text) (mount : μ) (expectAbsolutePath : Bool)
  | remove (path : Text)

namespace MountItems

variable {μ : Type}

def step (items : MountItems μ) : MountCall μ → MountItems μ
  | .add path mount expectAbsolutePath => (items.mmMountAdd path mount expectAbsolutePath).2
  | .remove path => (items.mmMountRemove path).2

private theorem step_distinct {items : MountItems μ} (h : items.Distinct) (c : MountCall μ) :
    (items.step c).Distinct := by
  cases c with
  | add path mount expectAbsolutePath =>
      rw [step, mmMountAdd]
      split
      · exact h
      · rename_i hfree
        rw [any_located_iff, Option.not_isSome_iff_eq_none] at hfree
        exact (h.snoc ⟨path, expectAbsolutePath, mount⟩ hfree).1
  | remove path =>
      have hlocated := mmMountinfoBypath_located items path
      rw [step, mmMountRemove]
      split
      · rename_i i info hl
        rw [hl] at hlocated
        exact (h.set_none hlocated.entry).1
      · exact h

private theorem run_distinct (calls : List (MountCall μ)) {items : MountItems μ} (h : items.Distinct) :
    (calls.foldl step items).Distinct := by
  induction calls generalizing items with
  | nil => exact h
  | cons c calls ih => exact ih (step_distinct h c)

/-- After any calls, adding is exact for every path, and removing is exact for the paths that are
mounted and for those that no mount path is the beginning of. -/
theorem run_addsExactly_removesExactly_iff (calls : List (MountCall μ)) :
    (∀ path mount expectAbsolutePath,
      AddsExactly (calls.foldl step []) path mount expectAbsolutePath) ∧
    ∀ path, RemovesExactly (calls.foldl step []) path ↔
      (mounted (calls.foldl step []) path).isSome ∨
        ∀ info, some info ∈ calls.foldl step [] → ¬info.mountPath <+: path := by
  have hdistinct : Distinct (calls.foldl step []) := run_distinct calls List.nodup_nil
  exact ⟨hdistinct.addsExactly, hdistinct.removesExactly_iff⟩

/-- The mounts of the start, by number. -/
def startMounts : List (MountCall Nat) :=
  [.add "/dev".toList 0 true, .add "/".toList 1 false]

/-- Removing a path that is not mounted removes the root. -/
theorem mmMountRemove_removes_root :
    mounted (startMounts.foldl step []) "/tmp".toList = none ∧
      (mounted (startMounts.foldl step []) "/".toList).isSome ∧
      (mmMountRemove (startMounts.foldl step []) "/tmp".toList).1 = true ∧
      mounted (mmMountRemove (startMounts.foldl step []) "/tmp".toList).2 "/".toList = none ∧
      ¬RemovesExactly (startMounts.foldl step []) "/tmp".toList := by
  refine ⟨by decide, by decide, by decide, by decide, fun h => ?_⟩
  have hfails := (h.2 (by decide)).1
  revert hfails
  decide

end MountItems

end Zrt.Fs
