import Zrt.Fs.MemChanges

/-!
# Calls as sequences of changes

For each operation, what it can have done when it returned. The removals a call makes are listed with
the state each of them is made in; conditions on a call are conditions on that list.
-/

namespace Zrt.Fs

namespace MemMount

variable {m m' : MemMount} {ok : MemMount → Removal → Prop} {r : Except Errno Unit}

theorem Evolves.touch {id : Nat} {f : MemData → MemData} (hf : Inert f) :
    Evolves ok m (m.updateData id f) :=
  Relation.ReflTransGen.single (.touch hf)

theorem Evolves.touchAt {slot : Nat} {f : MemData → MemData} (hf : Inert f) :
    Evolves ok m (m.updateDataAt slot f) := by
  unfold updateDataAt
  split
  · exact Relation.ReflTransGen.refl
  · exact Evolves.touch hf

theorem inert_useCount (g : MemData → Nat) : Inert fun d => { d with useCount := g d } :=
  fun _ => ⟨rfl, rfl, rfl, rfl⟩

theorem inert_unref :
    Inert fun d => if d.isDir then d else { d with useCount := d.useCount - 1 } := by
  intro d
  dsimp only
  split
  · exact ⟨rfl, rfl, rfl, rfl⟩
  · exact ⟨rfl, rfl, rfl, rfl⟩

theorem inert_hardinode (i : Nat) : Inert fun d => { d with hardinode := i } :=
  fun _ => ⟨rfl, rfl, rfl, rfl⟩

theorem inert_contents (c : List UInt8) : Inert fun d => { d with contents := c } :=
  fun _ => ⟨rfl, rfl, rfl, rfl⟩

/-! ## Making nodes -/

theorem sharedData_none {isDir : Bool} : m.SharedData isDir none := fun _ h => by cases h

theorem creat_cases {path : AbsolutePath} {mode : Nat} {hardlink : Option Nat}
    (hcall : m.creat path mode hardlink = some (r, m')) (hshared : m.SharedData false hardlink) :
    (∃ e, r = .error e ∧ m' = m ∧ (e = .eexist → ∃ s, m.getMemNode path = some (some s))) ∨
    (r = .ok () ∧ ∃ parent pn pd, m.getParentSlot path = some (.ok parent) ∧ path.path ≠ [] ∧
      m.Enterable parent path.last false hardlink pn pd ∧
      m' = m.enterNode parent path.last false mode hardlink) := by
  obtain ⟨parent, hparent, hcall⟩ := Option.bind_eq_some_iff.mp hcall
  cases parent with
  | error e =>
      cases hcall
      exact Or.inl ⟨_, rfl, rfl, fun h => by cases h⟩
  | ok p =>
      simp only at hcall
      cases hn : m.nodeAt p with
      | none =>
          rw [hn] at hcall
          cases hcall
          exact Or.inl ⟨_, rfl, rfl, fun h => by cases h⟩
      | some pn =>
          rw [hn] at hcall
          obtain ⟨pd, hd, hcall⟩ := Option.bind_eq_some_iff.mp hcall
          split at hcall
          · rename_i hdir
            obtain ⟨child, hchild, hcall⟩ := Option.bind_eq_some_iff.mp hcall
            cases child with
            | some c =>
                cases hcall
                exact Or.inl ⟨_, rfl, rfl, fun _ => ⟨c, hchild⟩⟩
            | none =>
                cases hcall
                obtain ⟨hmissing, hne⟩ := findChild_of_getMemNode_none hparent hn hd hdir hchild
                have hslash := AbsolutePath.slash_not_mem_last hne
                exact Or.inr ⟨rfl, p, pn, pd, hparent, hne,
                  ⟨hn, hd, hdir, hmissing, hslash, hshared⟩, rfl⟩
          · cases hcall
            exact Or.inl ⟨_, rfl, rfl, fun h => by cases h⟩

theorem mkdir_cases {path : AbsolutePath} {mode : Nat} {hardlink : Option Nat}
    (hcall : m.mkdir path mode hardlink = some (r, m')) (hshared : m.SharedData true hardlink) :
    (∃ e, r = .error e ∧ m' = m ∧ (e = .eexist → ∃ s, m.getMemNode path = some (some s))) ∨
    (r = .ok () ∧ ∃ parent pn pd, m.getParentSlot path = some (.ok parent) ∧ path.path ≠ [] ∧
      m.Enterable parent path.last true hardlink pn pd ∧
      m' = m.enterNode parent path.last true mode hardlink) := by
  obtain ⟨child, hchild, hcall⟩ := Option.bind_eq_some_iff.mp hcall
  cases child with
  | some c =>
      cases hcall
      exact Or.inl ⟨_, rfl, rfl, fun _ => ⟨c, hchild⟩⟩
  | none =>
      obtain ⟨parent, hparent, hcall⟩ := Option.bind_eq_some_iff.mp hcall
      cases parent with
      | error e =>
          cases hcall
          exact Or.inl ⟨_, rfl, rfl, fun h => by cases h⟩
      | ok p =>
          obtain ⟨pd, hpd, hcall⟩ := Option.bind_eq_some_iff.mp hcall
          obtain ⟨pn, hn, hd⟩ := dataAt_eq_some.mp hpd
          split at hcall
          · rename_i hdir
            split at hcall
            · cases hcall
              exact Or.inl ⟨_, rfl, rfl, fun h => by cases h⟩
            · cases hcall
              obtain ⟨hmissing, hne⟩ := findChild_of_getMemNode_none hparent hn hd hdir hchild
              have hslash := AbsolutePath.slash_not_mem_last hne
              exact Or.inr ⟨rfl, p, pn, pd, hparent, hne,
                ⟨hn, hd, hdir, hmissing, hslash, hshared⟩, rfl⟩
          · cases hcall
            exact Or.inl ⟨_, rfl, rfl, fun h => by cases h⟩

theorem openCreat_creat {path : AbsolutePath} {excl : Bool} {mode : Nat} {hardlink : Option Nat}
    (hcall : m.openCreat path excl mode hardlink = some (r, m')) :
    ∃ r₁, m.creat path mode hardlink = some (r₁, m') := by
  obtain ⟨⟨r₁, m₁⟩, hcreat, hcall⟩ := Option.bind_eq_some_iff.mp hcall
  have hm : m' = m₁ := by
    cases r₁ with
    | ok u =>
        obtain ⟨node, -, heq⟩ := Option.map_eq_some_iff.mp hcall
        cases heq
        rfl
    | error e =>
        simp only at hcall
        split at hcall
        · cases hcall
          rfl
        · obtain ⟨node, -, hcall⟩ := Option.bind_eq_some_iff.mp hcall
          cases node with
          | error e' =>
              cases hcall
              rfl
          | ok s =>
              obtain ⟨node, -, heq⟩ := Option.map_eq_some_iff.mp hcall
              cases heq
              rfl
  exact ⟨r₁, by rw [hm, hcreat]⟩

theorem openCreat_evolves {path : AbsolutePath} {excl : Bool} {mode : Nat} {hardlink : Option Nat}
    (hcall : m.openCreat path excl mode hardlink = some (r, m'))
    (hshared : m.SharedData false hardlink) : Evolves ok m m' := by
  obtain ⟨r₁, hcreat⟩ := openCreat_creat hcall
  rcases creat_cases hcreat hshared with ⟨e, -, rfl, -⟩ | ⟨-, p, pn, pd, -, -, hent, rfl⟩
  · exact Relation.ReflTransGen.refl
  · exact Relation.ReflTransGen.single (.enter hent)

theorem mkdir_evolves {path : AbsolutePath} {mode : Nat} {hardlink : Option Nat}
    (hcall : m.mkdir path mode hardlink = some (r, m')) (hshared : m.SharedData true hardlink) :
    Evolves ok m m' := by
  rcases mkdir_cases hcall hshared with ⟨e, -, rfl, -⟩ | ⟨-, p, pn, pd, -, -, hent, rfl⟩
  · exact Relation.ReflTransGen.refl
  · exact Relation.ReflTransGen.single (.enter hent)

theorem sharedData_touch {s : Nat} {n : MemNode} {d : MemData} (hn : m.nodeAt s = some n)
    (hd : m.getData n.nodedata = some d) (hname : s = rootSlot ∨ '/' ∉ n.name)
    (f : MemData → MemData) (hf : Inert f) :
    (m.updateData n.nodedata f).SharedData d.isDir (some n.nodedata) := by
  intro id hid
  cases hid
  refine ⟨s, n, f d, hn, rfl, ?_, (hf d).1, hname⟩
  rw [getData_updateData, if_pos rfl, hd]
  rfl

/-- `Link` has noted the old node in its data. -/
abbrev withHardinode (m : MemMount) (node : MemNode) (oldslot : Nat) : MemMount :=
  m.updateData node.nodedata fun d => { d with hardinode := oldslot }

/-- There is a node at the old path, not at the root, and none at the new path. -/
structure Linkable (m : MemMount) (oldpath newpath : AbsolutePath) (oldslot : Nat) (n : MemNode)
    (d : MemData) : Prop where
  old : m.getMemNode oldpath = some (some oldslot)
  node : m.nodeAt oldslot = some n
  parent : (m.nodeAt n.parent).isSome
  new : m.getMemNode newpath = some none
  data : m.getData n.nodedata = some d

theorem Linkable.shared {oldpath newpath : AbsolutePath} {oldslot : Nat} {n : MemNode}
    {d : MemData} (h : m.Linkable oldpath newpath oldslot n d) :
    (m.withHardinode n oldslot).SharedData d.isDir (some n.nodedata) :=
  sharedData_touch h.node h.data (getSlot_name (getMemNode_eq_some.mp h.old).1 h.node) _
    (inert_hardinode oldslot)

/-- The outcomes of `Link`: an error before anything is done, or what `Mkdir` or `Open` do. -/
theorem link_cases {oldpath newpath : AbsolutePath}
    (hcall : m.link oldpath newpath = some (r, m')) :
    (r = .error .enoent ∧ m' = m) ∨
    (∃ s t, m.getMemNode oldpath = some (some s) ∧ m.getMemNode newpath = some (some t) ∧
      r = .error .eexist ∧ m' = m) ∨
    ∃ oldslot n d, m.Linkable oldpath newpath oldslot n d ∧
      ((d.isDir = true ∧ (m.withHardinode n oldslot).mkdir newpath d.mode (some n.nodedata) =
          some (r, m')) ∨
        (d.isDir = false ∧ ∃ r₂ m₂ found,
          (m.withHardinode n oldslot).openCreat newpath false 0o600 (some n.nodedata) =
            some (r₂, m₂) ∧ m₂.getSlot newpath = some found ∧
          ((∃ slot, found = .ok slot ∧ r = r₂ ∧ m' = m₂.unref slot) ∨
            (∃ e, found = .error e ∧ r = r₂.mapError (fun _ => e) ∧ m' = m₂)))) := by
  obtain ⟨oldnode, hold, hcall⟩ := Option.bind_eq_some_iff.mp hcall
  cases oldnode with
  | none =>
      cases hcall
      exact .inl ⟨rfl, rfl⟩
  | some oldslot =>
      obtain ⟨n, hn, hcall⟩ := Option.bind_eq_some_iff.mp hcall
      obtain ⟨pnode, hpnode, hcall⟩ := Option.bind_eq_some_iff.mp hcall
      obtain ⟨newnode, hnew, hcall⟩ := Option.bind_eq_some_iff.mp hcall
      cases newnode with
      | some t =>
          cases hcall
          exact .inr (.inl ⟨oldslot, t, hold, hnew, rfl, rfl⟩)
      | none =>
          obtain ⟨d, hd, hcall⟩ := Option.bind_eq_some_iff.mp hcall
          rw [dataAt_of hn] at hd
          refine .inr (.inr ⟨oldslot, n, d, ⟨hold, hn, by rw [hpnode]; rfl, hnew, hd⟩, ?_⟩)
          simp only at hcall
          split at hcall
          · rename_i hdir
            exact .inl ⟨hdir, hcall⟩
          · rename_i hdir
            obtain ⟨⟨r₂, m₂⟩, hopened, hcall⟩ := Option.bind_eq_some_iff.mp hcall
            obtain ⟨found, hfound, heq⟩ := Option.map_eq_some_iff.mp hcall
            refine .inr ⟨Bool.not_eq_true _ ▸ hdir, r₂, m₂, found, hopened, hfound, ?_⟩
            cases found with
            | ok slot =>
                cases heq
                exact .inl ⟨slot, rfl, rfl, rfl⟩
            | error e =>
                cases heq
                exact .inr ⟨e, rfl, rfl, rfl⟩

theorem link_evolves {oldpath newpath : AbsolutePath}
    (hcall : m.link oldpath newpath = some (r, m')) : Evolves ok m m' := by
  rcases link_cases hcall with ⟨-, rfl⟩ | ⟨s, t, -, -, -, rfl⟩ | ⟨oldslot, n, d, hl, hmade⟩
  · exact Relation.ReflTransGen.refl
  · exact Relation.ReflTransGen.refl
  · have hshared := hl.shared
    have htouch : Evolves ok m (m.withHardinode n oldslot) :=
      Evolves.touch (inert_hardinode oldslot)
    apply htouch.trans
    rcases hmade with ⟨hdir, hcall⟩ | ⟨hdir, r₂, m₂, found, hopened, -, hends⟩
    · rw [hdir] at hshared
      exact mkdir_evolves hcall hshared
    · rw [hdir] at hshared
      apply Relation.ReflTransGen.trans (openCreat_evolves hopened hshared)
      rcases hends with ⟨slot, -, -, rfl⟩ | ⟨e, -, -, rfl⟩
      · exact Evolves.touchAt inert_unref
      · exact Relation.ReflTransGen.refl

/-! ## Removing nodes -/

theorem unlinkInternal_cases {slot : Nat} (hcall : m.unlinkInternal slot = some (r, m')) :
    ∃ n d, m.nodeAt slot = some n ∧ m.getData n.nodedata = some d ∧
      ((∃ e, r = .error e ∧ m' = m) ∨
      (r = .ok () ∧ m.Removable slot n d ∧ m' = m.removeNode slot) ∨
      (r = .ok () ∧ m.Hideable slot n d ∧ m' = m.hideNode slot)) := by
  obtain ⟨n, hn, hcall⟩ := Option.bind_eq_some_iff.mp hcall
  obtain ⟨d, hd, hcall⟩ := Option.bind_eq_some_iff.mp hcall
  refine ⟨n, d, hn, hd, ?_⟩
  split at hcall
  · cases hcall
    exact Or.inl ⟨_, rfl, rfl⟩
  · rename_i horphan
    have horphan' : m.nodeAt n.parent = none → d.wantUnlink = true := by
      intro hnone
      by_contra hw
      exact horphan ⟨by rw [hnone]; rfl, Bool.eq_false_iff.mpr hw⟩
    split at hcall
    · cases hcall
      exact Or.inl ⟨_, rfl, rfl⟩
    · rename_i hlinks
      have hlinks' : d.isDir = true → 2 ≤ d.nlink := by
        intro hdir
        by_contra hlt
        exact hlinks ⟨hdir, by omega⟩
      split at hcall
      · rename_i hidle
        apply Or.inr
        apply Or.inl
        split at hcall
        · obtain ⟨pd, hpd, heq⟩ := Option.map_eq_some_iff.mp hcall
          cases heq
          exact ⟨rfl, ⟨hn, hd, fun _ => by rw [hpd]; rfl, horphan', hlinks', hidle⟩,
            by rw [removeNode, hn]⟩
        · rename_i hparent
          cases hcall
          have hnone : m.nodeAt n.parent = none := by simpa using hparent
          refine ⟨rfl, ⟨hn, hd, fun h => absurd h hparent, horphan', hlinks', hidle⟩, ?_⟩
          simp only [removeNode, hn, removeChild, updateDataAt, hnone]
      · rename_i hidle
        cases hcall
        rw [not_or, Bool.not_eq_true] at hidle
        refine Or.inr (Or.inr ⟨rfl, ⟨hn, hd, ?_, hlinks', hidle.1, hidle.2⟩, by rw [hideNode, hn]⟩)
        rw [Option.isSome_iff_ne_none]
        intro hnone
        rw [horphan' hnone] at hidle
        cases hidle.2

def unlinkInternalRemovals (m : MemMount) (slot : Nat) : List (MemMount × Removal) :=
  match m.unlinkInternal slot, m.dataAt slot with
  | some (.ok _, _), some d =>
      if d.useCount = 0 ∨ d.wantUnlink then [(m, .remove slot)] else [(m, .hide slot)]
  | _, _ => []

def unlinkRemovals (m : MemMount) (path : AbsolutePath) : List (MemMount × Removal) :=
  match m.getMemNode path with
  | some (some slot) => m.unlinkInternalRemovals slot
  | _ => []

def renameUnlinkRemovals (m : MemMount) (oldpath newpath : AbsolutePath) :
    List (MemMount × Removal) :=
  m.unlinkRemovals oldpath ++
    match m.unlink oldpath with
    | some (.error _, m') => m'.unlinkRemovals newpath
    | _ => []

def renameRemovals (m : MemMount) (oldpath newpath : AbsolutePath) : List (MemMount × Removal) :=
  match m.link oldpath newpath with
  | some (.ok _, m₁) => m₁.renameUnlinkRemovals oldpath newpath
  | some (.error .eexist, m₁) =>
      m₁.unlinkRemovals newpath ++
        match m₁.unlink newpath with
        | some (.ok _, m₂) =>
            match m₂.link oldpath newpath with
            | some (.ok _, m₃) => m₃.renameUnlinkRemovals oldpath newpath
            | _ => []
        | _ => []
  | _ => []

def rmdirRemovals (m : MemMount) (path : AbsolutePath) : List (MemMount × Removal) :=
  match m.getNode path, m.memRmdir path with
  | some (.ok slot), some (.ok _, _) => [(m, .rmdir slot)]
  | _, _ => []

theorem Removable.mem_removals {slot : Nat} {n : MemNode} {d : MemData} {m' : MemMount}
    (h : m.Removable slot n d) (hcall : m.unlinkInternal slot = some (.ok (), m')) :
    (m, Removal.remove slot) ∈ m.unlinkInternalRemovals slot := by
  have hdata : m.dataAt slot = some d := by rw [dataAt_of h.node, h.data]
  rw [unlinkInternalRemovals, hcall, hdata]
  simp only
  rw [if_pos h.idle]
  exact List.mem_singleton_self _

theorem Hideable.mem_removals {slot : Nat} {n : MemNode} {d : MemData} {m' : MemMount}
    (h : m.Hideable slot n d) (hcall : m.unlinkInternal slot = some (.ok (), m')) :
    (m, Removal.hide slot) ∈ m.unlinkInternalRemovals slot := by
  have hdata : m.dataAt slot = some d := by rw [dataAt_of h.node, h.data]
  rw [unlinkInternalRemovals, hcall, hdata]
  simp only
  rw [if_neg (not_or.mpr ⟨h.used, by simp [h.unmarked]⟩)]
  exact List.mem_singleton_self _

theorem unlinkInternal_evolves {slot : Nat} (hcall : m.unlinkInternal slot = some (r, m'))
    (hok : ∀ x ∈ m.unlinkInternalRemovals slot, ok x.1 x.2) : Evolves ok m m' := by
  obtain ⟨n, d, -, -, hcases⟩ := unlinkInternal_cases hcall
  rcases hcases with ⟨e, -, rfl⟩ | ⟨rfl, hrem, rfl⟩ | ⟨rfl, hhide, rfl⟩
  · exact Relation.ReflTransGen.refl
  · exact Relation.ReflTransGen.single (.remove hrem (hok _ (hrem.mem_removals hcall)))
  · exact Relation.ReflTransGen.single (.hide hhide (hok _ (hhide.mem_removals hcall)))

/-- `Unlink` either finds nothing or does what `UnlinkInternal` does. -/
theorem unlink_cases {path : AbsolutePath} (hcall : m.unlink path = some (r, m')) :
    (m.getMemNode path = some none ∧ r = .error .enoent ∧ m' = m) ∨
    ∃ slot, m.getMemNode path = some (some slot) ∧ m.unlinkInternal slot = some (r, m') := by
  obtain ⟨node, hnode, hcall⟩ := Option.bind_eq_some_iff.mp hcall
  cases node with
  | none =>
      cases hcall
      exact Or.inl ⟨hnode, rfl, rfl⟩
  | some slot => exact Or.inr ⟨slot, hnode, hcall⟩

theorem unlink_evolves {path : AbsolutePath} (hcall : m.unlink path = some (r, m'))
    (hok : ∀ x ∈ m.unlinkRemovals path, ok x.1 x.2) : Evolves ok m m' := by
  rcases unlink_cases hcall with ⟨-, -, rfl⟩ | ⟨slot, hslot, hcall⟩
  · exact Relation.ReflTransGen.refl
  · rw [unlinkRemovals, hslot] at hok
    exact unlinkInternal_evolves hcall hok

private theorem renameUnlink_evolves {oldpath newpath : AbsolutePath}
    (hcall : m.renameUnlink oldpath newpath = some (r, m'))
    (hok : ∀ x ∈ m.renameUnlinkRemovals oldpath newpath, ok x.1 x.2) : Evolves ok m m' := by
  obtain ⟨⟨r₁, m₁⟩, h₁, hcall⟩ := Option.bind_eq_some_iff.mp hcall
  have hev : Evolves ok m m₁ :=
    unlink_evolves h₁ fun x hx => hok x (List.mem_append_left _ hx)
  cases r₁ with
  | ok u =>
      cases hcall
      exact hev
  | error e =>
      apply hev.trans
      obtain ⟨⟨r₂, m₂⟩, h₂, heq⟩ := Option.map_eq_some_iff.mp hcall
      have hm : m' = m₂ := by
        cases r₂ with
        | ok u =>
            cases heq
            rfl
        | error e' =>
            cases heq
            rfl
      rw [hm]
      apply unlink_evolves h₂
      intro x hx
      apply hok
      rw [renameUnlinkRemovals, h₁]
      exact List.mem_append_right _ hx

theorem rename_evolves {oldpath newpath : AbsolutePath}
    (hcall : m.rename oldpath newpath = some (r, m'))
    (hok : ∀ x ∈ m.renameRemovals oldpath newpath, ok x.1 x.2) : Evolves ok m m' := by
  obtain ⟨⟨r₁, m₁⟩, h₁, hcall⟩ := Option.bind_eq_some_iff.mp hcall
  rw [renameRemovals, h₁] at hok
  apply Relation.ReflTransGen.trans (link_evolves h₁)
  cases r₁ with
  | ok u => exact renameUnlink_evolves hcall hok
  | error e =>
      simp only at hcall
      split at hcall
      · rename_i he
        subst he
        obtain ⟨⟨r₂, m₂⟩, h₂, hcall⟩ := Option.bind_eq_some_iff.mp hcall
        simp only [h₂] at hok
        have hev : Evolves ok m₁ m₂ :=
          unlink_evolves h₂ fun x hx => hok x (List.mem_append_left _ hx)
        apply hev.trans
        cases r₂ with
        | error e =>
            cases hcall
            exact Relation.ReflTransGen.refl
        | ok u =>
            obtain ⟨⟨r₃, m₃⟩, h₃, hcall⟩ := Option.bind_eq_some_iff.mp hcall
            simp only [h₃] at hok
            apply Relation.ReflTransGen.trans (link_evolves h₃)
            cases r₃ with
            | error e =>
                cases hcall
                exact Relation.ReflTransGen.refl
            | ok u =>
                exact renameUnlink_evolves hcall fun x hx => hok x (List.mem_append_right _ hx)
      · cases hcall
        exact Relation.ReflTransGen.refl

theorem stat_ok {slot s : Nat} (h : m.stat slot = some (.ok s)) :
    s = slot ∧ (m.nodeAt slot).isSome := by
  unfold stat at h
  split at h
  · cases h
  · rename_i n hn
    obtain ⟨d, -, heq⟩ := Option.map_eq_some_iff.mp h
    cases heq
    exact ⟨rfl, by rw [hn]; rfl⟩

theorem getNode_ok {path : AbsolutePath} {slot : Nat} (h : m.getNode path = some (.ok slot)) :
    m.getSlot path = some (.ok slot) ∧ (m.nodeAt slot).isSome := by
  unfold getNode at h
  split at h
  · cases h
  · obtain ⟨parent, -, h⟩ := Option.bind_eq_some_iff.mp h
    cases parent with
    | error e => cases h
    | ok p =>
        obtain ⟨res, hres, h⟩ := Option.bind_eq_some_iff.mp h
        cases res with
        | error e => cases h
        | ok t =>
            obtain ⟨rfl, hnode⟩ := stat_ok h
            exact ⟨hres, hnode⟩

theorem rmdir_cases {slot : Nat} (hcall : m.rmdir slot = some (r, m'))
    (hlisted : m.Listed slot ∨ m.dataAt slot = none ∨
      ∀ n, m.nodeAt slot = some n → m.dataAt n.parent = none) :
    (∃ e, r = .error e ∧ m' = m) ∨
    (r = .ok () ∧ ∃ n d, m.DirRemovable slot n d ∧ m' = m.removeDir slot) := by
  unfold rmdir at hcall
  split at hcall
  · cases hcall
    exact Or.inl ⟨_, rfl, rfl⟩
  · rename_i n hn
    obtain ⟨d, hd, hcall⟩ := Option.bind_eq_some_iff.mp hcall
    split at hcall
    · rename_i hdir
      obtain ⟨isEmpty, hempty, hcall⟩ := Option.bind_eq_some_iff.mp hcall
      split at hcall
      · rename_i hall
        obtain ⟨pd, hpd, heq⟩ := Option.map_eq_some_iff.mp hcall
        cases heq
        have hl : m.Listed slot := by
          rcases hlisted with hl | hnone | hroot
          · exact hl
          · rw [dataAt_of hn, hd] at hnone
            cases hnone
          · rw [hroot n hn] at hpd
            cases hpd
        refine Or.inr ⟨rfl, n, d, ⟨hn, hd, hdir, hl, by rw [hempty, hall], by rw [hpd]; rfl⟩, ?_⟩
        rw [removeDir, hn]
        simp only [hd]
      · cases hcall
        exact Or.inl ⟨_, rfl, rfl⟩
    · cases hcall
      exact Or.inl ⟨_, rfl, rfl⟩

/-- The root's parent is the slot that is never constructed. -/
def RootOutside (m : MemMount) : Prop := ∃ n, m.nodeAt rootSlot = some n ∧ m.dataAt n.parent = none

theorem memRmdir_cases {path : AbsolutePath} (hroot : m.RootOutside)
    (hcall : m.memRmdir path = some (r, m')) :
    (∃ e, r = .error e ∧ m' = m) ∨
    (r = .ok () ∧ ∃ slot n d, m.getNode path = some (.ok slot) ∧ m.DirRemovable slot n d ∧
      m' = m.removeDir slot) := by
  obtain ⟨node, hnode, hcall⟩ := Option.bind_eq_some_iff.mp hcall
  cases node with
  | error e =>
      cases hcall
      exact Or.inl ⟨e, rfl, rfl⟩
  | ok slot =>
      simp only at hcall
      split at hcall
      · cases hcall
        exact Or.inl ⟨_, rfl, rfl⟩
      · have hlisted : m.Listed slot ∨ m.dataAt slot = none ∨
            ∀ n, m.nodeAt slot = some n → m.dataAt n.parent = none := by
          rcases walk_ok (getNode_ok hnode).1 with rfl | ⟨hl, -⟩
          · obtain ⟨n, hn, hp⟩ := hroot
            refine Or.inr (Or.inr fun n' hn' => ?_)
            rw [hn] at hn'
            cases hn'
            exact hp
          · exact Or.inl hl
        rcases rmdir_cases hcall hlisted with herror | ⟨hr, n, d, hrem, hm⟩
        · exact Or.inl herror
        · exact Or.inr ⟨hr, slot, n, d, hnode, hrem, hm⟩

private theorem memRmdir_evolves {path : AbsolutePath} (hroot : m.RootOutside)
    (hcall : m.memRmdir path = some (r, m'))
    (hok : ∀ x ∈ m.rmdirRemovals path, ok x.1 x.2) : Evolves ok m m' := by
  rcases memRmdir_cases hroot hcall with ⟨e, -, rfl⟩ | ⟨rfl, slot, n, d, hnode, hrem, rfl⟩
  · exact Relation.ReflTransGen.refl
  · apply Relation.ReflTransGen.single
    apply Change.rmdir hrem
    apply hok (m, .rmdir slot)
    rw [rmdirRemovals, hnode, hcall]
    exact List.mem_singleton_self _

theorem memMkdir_cases {path : AbsolutePath} {mode : Nat}
    (hcall : m.memMkdir path mode = some (r, m')) :
    (∃ e, r = .error e ∧ m' = m) ∨ m.mkdir path mode none = some (r, m') := by
  obtain ⟨node, -, hcall⟩ := Option.bind_eq_some_iff.mp hcall
  cases node with
  | ok s => exact Or.inr hcall
  | error e =>
      simp only at hcall
      split at hcall
      · exact Or.inr hcall
      · cases hcall
        exact Or.inl ⟨e, rfl, rfl⟩

theorem memMkdir_evolves {path : AbsolutePath} {mode : Nat}
    (hcall : m.memMkdir path mode = some (r, m')) : Evolves ok m m' := by
  rcases memMkdir_cases hcall with ⟨e, -, rfl⟩ | hmkdir
  · exact Relation.ReflTransGen.refl
  · exact mkdir_evolves hmkdir sharedData_none

end MemMount

/-! ## Calls -/

namespace FileSystem

open MemMount

variable {ch : Channels} {fs fs' : FileSystem} {ok : MemMount → Removal → Prop}
  {r : Except Errno Nat}

def memCloseRemovals (fs : FileSystem) (fd : Nat) : List (MemMount × Removal) :=
  match fs.mnodeByHandle fd with
  | none => []
  | some inode =>
      match (fs.mem.unref inode).dataAt inode with
      | none => []
      | some d => if d.wantUnlink then (fs.mem.unref inode).unlinkInternalRemovals inode else []

def closeRemovals (fs : FileSystem) (fd : Nat) : List (MemMount × Removal) :=
  match fs.files.mountByhandle fd with
  | some .memory => fs.memCloseRemovals fd
  | _ => []

/-- The removals a call makes, each with the mount it is made on. -/
def removals (fs : FileSystem) : FsCall → List (MemMount × Removal)
  | .close fd => fs.closeRemovals fd
  | .dup2 oldfd newfd =>
      if (fs.files.mountByhandle oldfd).isSome ∧ oldfd ≠ newfd then fs.closeRemovals newfd else []
  | .rmdir path => fs.mem.rmdirRemovals path
  | .unlink path => fs.mem.unlinkRemovals path
  | .rename oldpath newpath => fs.mem.renameRemovals oldpath newpath
  | _ => []

/-- Without a free handle nothing is counted. -/
theorem memOpenNode_mem {ino parent : Nat} {flags : OpenFlags}
    (hcall : fs.memOpenNode ino parent flags = some (r, fs')) :
    ((∃ e, r = .error e) ∧ fs'.mem = fs.mem) ∨ fs'.mem = fs.mem.ref ino ∨
      fs'.mem = (fs.mem.ref ino).updateDataAt ino fun d => { d with contents := [] } := by
  unfold memOpenNode at hcall
  cases hfd : (fs.files.openDescriptor .memory ino parent flags).1 with
  | none =>
      simp only [hfd] at hcall
      cases hcall
      exact Or.inl ⟨⟨_, rfl⟩, rfl⟩
  | some fd =>
      simp only [hfd] at hcall
      obtain ⟨d, -, heq⟩ := Option.map_eq_some_iff.mp hcall
      split at heq
      · cases heq
        exact Or.inr (Or.inl rfl)
      · split at heq
        · cases heq
          exact Or.inr (Or.inr rfl)
        · cases heq
          exact Or.inr (Or.inl rfl)

private theorem memOpenNode_evolves {ino parent : Nat} {flags : OpenFlags}
    (hcall : fs.memOpenNode ino parent flags = some (r, fs')) : Evolves ok fs.mem fs'.mem := by
  have href : Evolves ok fs.mem (fs.mem.ref ino) := Evolves.touchAt (inert_useCount _)
  rcases memOpenNode_mem hcall with ⟨-, hmem⟩ | hmem | hmem
  · rw [hmem]
    exact Relation.ReflTransGen.refl
  · rw [hmem]
    exact href
  · rw [hmem]
    exact href.trans (Evolves.touchAt (inert_contents []))

private theorem memOpen_evolves {path : AbsolutePath} {flags : OpenFlags} {mode : Nat}
    (hcall : fs.memOpen path flags mode = some (r, fs')) : Evolves ok fs.mem fs'.mem := by
  obtain ⟨⟨r₁, mem⟩, hcreated, hcall⟩ := Option.bind_eq_some_iff.mp hcall
  have hcreat : Evolves ok fs.mem mem := by
    split at hcreated
    · exact openCreat_evolves hcreated sharedData_none
    · cases hcreated
      exact Relation.ReflTransGen.refl
  apply hcreat.trans
  cases r₁ with
  | error e =>
      cases hcall
      exact Relation.ReflTransGen.refl
  | ok u =>
      obtain ⟨node, -, hcall⟩ := Option.bind_eq_some_iff.mp hcall
      cases node with
      | error e =>
          cases hcall
          exact Relation.ReflTransGen.refl
      | ok ino =>
          obtain ⟨parent, -, hcall⟩ := Option.bind_eq_some_iff.mp hcall
          exact memOpenNode_evolves hcall

private theorem memClose_evolves {fd : Nat} (hcall : fs.memClose fd = some (r, fs'))
    (hok : ∀ x ∈ fs.memCloseRemovals fd, ok x.1 x.2) : Evolves ok fs.mem fs'.mem := by
  unfold memClose at hcall
  unfold memCloseRemovals at hok
  split at hcall
  · cases hcall
    exact Relation.ReflTransGen.refl
  · rename_i inode hinode
    obtain ⟨d, hd, hcall⟩ := Option.bind_eq_some_iff.mp hcall
    obtain ⟨⟨r₁, mem⟩, hremoved, hcall⟩ := Option.bind_eq_some_iff.mp hcall
    have hunref : Evolves ok fs.mem (fs.mem.unref inode) := Evolves.touchAt inert_unref
    have hmem : Evolves ok (fs.mem.unref inode) mem := by
      simp only [hinode, hd] at hok
      split at hremoved
      · rename_i hw
        rw [if_pos hw] at hok
        exact unlinkInternal_evolves hremoved hok
      · cases hremoved
        exact Relation.ReflTransGen.refl
    cases r₁ with
    | error e => cases hcall
    | ok u =>
        obtain ⟨files, -, heq⟩ := Option.map_eq_some_iff.mp hcall
        cases heq
        exact hunref.trans hmem

theorem channelsOpen_mem {path : AbsolutePath} {flags : OpenFlags}
    (hcall : channelsOpen ch fs path flags = some (r, fs')) : fs'.mem = fs.mem := by
  rcases channelsOpen_cases hcall with rfl | ⟨inode, parent, rfl⟩
  · rfl
  · rfl

theorem channelsClose_mem {fd : Nat} (hcall : channelsClose ch fs fd = some (r, fs')) :
    fs'.mem = fs.mem := by
  rcases channelsClose_cases hcall with ⟨e, -, rfl⟩ | ⟨-, files, -, rfl⟩
  · rfl
  · rfl

theorem close_evolves {fd : Nat} (hcall : close ch fs fd = some (r, fs'))
    (hok : ∀ x ∈ fs.closeRemovals fd, ok x.1 x.2) : Evolves ok fs.mem fs'.mem := by
  unfold close at hcall
  unfold closeRemovals at hok
  split at hcall
  · cases hcall
    exact Relation.ReflTransGen.refl
  · rename_i hmount
    rw [hmount] at hok
    exact memClose_evolves hcall hok
  · rw [channelsClose_mem hcall]
    exact Relation.ReflTransGen.refl

theorem duplicated_mem {d : Option (Option Nat × OpenFiles)}
    (hcall : fs.duplicated d = some (r, fs')) : fs'.mem = fs.mem := by
  obtain ⟨x, -, heq⟩ := Option.map_eq_some_iff.mp hcall
  split at heq
  · cases heq
    rfl
  · cases heq
    rfl

theorem dup_mem {oldfd : Nat} (hcall : fs.dup oldfd = some (r, fs')) : fs'.mem = fs.mem := by
  unfold dup at hcall
  split at hcall
  · cases hcall
    rfl
  · obtain ⟨item, -, hcall⟩ := Option.bind_eq_some_iff.mp hcall
    exact duplicated_mem hcall

private theorem dup2_evolves {oldfd newfd : Nat} (hcall : dup2 ch fs oldfd newfd = some (r, fs'))
    (hok : ∀ x ∈ fs.removals (.dup2 oldfd newfd), ok x.1 x.2) : Evolves ok fs.mem fs'.mem := by
  unfold dup2 at hcall
  simp only [removals] at hok
  split at hcall
  · cases hcall
    exact Relation.ReflTransGen.refl
  · rename_i hmount
    split at hcall
    · cases hcall
      exact Relation.ReflTransGen.refl
    · rename_i hne
      rw [hmount, if_pos ⟨rfl, hne⟩] at hok
      obtain ⟨closed, hclosed, hcall⟩ := Option.bind_eq_some_iff.mp hcall
      obtain ⟨item, -, hcall⟩ := Option.bind_eq_some_iff.mp hcall
      rw [duplicated_mem hcall]
      exact close_evolves hclosed hok

/-- Every call is a sequence of changes whose removals are the listed ones. -/
theorem call_evolves (hroot : fs.mem.RootOutside) {c : FsCall}
    (hcall : call ch fs c = some (r, fs')) (hok : ∀ x ∈ fs.removals c, ok x.1 x.2) :
    Evolves ok fs.mem fs'.mem := by
  cases c with
  | memOpen path flags mode => exact memOpen_evolves hcall
  | channelsOpen path flags =>
      rw [channelsOpen_mem hcall]
      exact Relation.ReflTransGen.refl
  | close fd => exact close_evolves hcall hok
  | dup oldfd =>
      rw [dup_mem hcall]
      exact Relation.ReflTransGen.refl
  | dup2 oldfd newfd => exact dup2_evolves hcall hok
  | mkdir path mode =>
      obtain ⟨-, x, hx, -⟩ := ofMem_eq_some hcall
      exact memMkdir_evolves hx
  | rmdir path =>
      obtain ⟨-, x, hx, -⟩ := ofMem_eq_some hcall
      exact memRmdir_evolves hroot hx hok
  | link oldpath newpath =>
      obtain ⟨-, x, hx, -⟩ := ofMem_eq_some hcall
      exact link_evolves hx
  | unlink path =>
      obtain ⟨-, x, hx, -⟩ := ofMem_eq_some hcall
      exact unlink_evolves hx hok
  | rename oldpath newpath =>
      obtain ⟨-, x, hx, -⟩ := ofMem_eq_some hcall
      exact rename_evolves hx hok

end FileSystem

end Zrt.Fs
