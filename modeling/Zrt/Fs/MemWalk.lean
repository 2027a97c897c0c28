import Zrt.Fs.MemCalls

/-!
# Walks that changes do not reach

A walk looks names up in directories one after the other. As long as a change leaves each of these
lookups alone, it leaves the walk alone.
-/

namespace Zrt.Fs

namespace MemMount

variable {m m' : MemMount} {slot t : Nat}

/-- The lookups of a walk: directory slot and name. -/
def lookups (m : MemMount) : Nat → List Text → List (Nat × Text)
  | _, [] => []
  | slot, name :: rest =>
      (slot, name) ::
        match m.walk slot [name] with
        | some (.ok t) => lookups m t rest
        | _ => []

/-- The data of the node at a path. -/
def memDataOf (m : MemMount) (path : AbsolutePath) : Option Nat :=
  (m.getMemNode path).join.bind fun slot => (m.nodeAt slot).map MemNode.nodedata

theorem memDataOf_eq_some {path : AbsolutePath} {id : Nat} :
    m.memDataOf path = some id ↔
      ∃ s n, m.getSlot path = some (.ok s) ∧ m.nodeAt s = some n ∧ n.nodedata = id := by
  unfold memDataOf
  rw [Option.bind_eq_some_iff]
  constructor
  · intro h
    obtain ⟨s, hs, h⟩ := h
    obtain ⟨n, hn, hid⟩ := Option.map_eq_some_iff.mp h
    exact ⟨s, n, (getMemNode_eq_some.mp (Option.join_eq_some_iff.mp hs)).1, hn, hid⟩
  · intro h
    obtain ⟨s, n, hs, hn, hid⟩ := h
    have hmem := getMemNode_eq_some.mpr ⟨hs, by rw [hn]; rfl⟩
    exact ⟨s, Option.join_eq_some_iff.mpr hmem, by rw [hn, Option.map_some, hid]⟩

theorem walk_cons (name : Text) (rest : List Text) :
    m.walk slot (name :: rest) = (m.walk slot [name]).bind fun r =>
      match r with
      | .error e => some (.error e)
      | .ok t => m.walk t rest :=
  walk_append [name] rest

theorem walk_error {names : List Text} {e : Errno} (h : m.walk slot names = some (.error e)) :
    e = .enoent ∨ e = .enotdir := by
  induction names generalizing slot with
  | nil => cases h
  | cons name rest ih =>
      obtain ⟨d, -, h⟩ := Option.bind_eq_some_iff.mp h
      split at h
      · obtain ⟨found, -, h⟩ := Option.bind_eq_some_iff.mp h
        cases found with
        | none =>
            cases h
            exact Or.inl rfl
        | some c => exact ih h
      · cases h
        exact Or.inr rfl

theorem mem_lookups_cons {name : Text} {rest : List Text} {q : Nat × Text}
    (hstep : m.walk slot [name] = some (.ok t)) (hq : q ∈ m.lookups t rest) :
    q ∈ m.lookups slot (name :: rest) := by
  rw [lookups, hstep]
  exact List.mem_cons_of_mem _ hq

theorem walk_congr {names : List Text}
    (h : ∀ x ∈ m.lookups slot names, m'.walk x.1 [x.2] = m.walk x.1 [x.2]) :
    m'.walk slot names = m.walk slot names := by
  induction names generalizing slot with
  | nil => rfl
  | cons name rest ih =>
      rw [walk_cons name rest, h (slot, name) List.mem_cons_self, walk_cons (m := m) name rest]
      cases hstep : m.walk slot [name] with
      | none => rfl
      | some r =>
          cases r with
          | error e => rfl
          | ok t =>
              apply ih
              intro x hx
              exact h x (mem_lookups_cons hstep hx)

theorem lookup_ok_of_walk {names : List Text} {q : Nat × Text} (h : m.walk slot names = some (.ok t))
    (hq : q ∈ m.lookups slot names) : ∃ u, m.walk q.1 [q.2] = some (.ok u) := by
  induction names generalizing slot with
  | nil => cases hq
  | cons name rest ih =>
      rw [walk_cons] at h
      obtain ⟨r, hr, h⟩ := Option.bind_eq_some_iff.mp h
      cases r with
      | error e => cases h
      | ok u =>
          rw [lookups, hr] at hq
          rcases List.mem_cons.mp hq with rfl | hq
          · exact ⟨u, hr⟩
          · exact ih h hq

theorem findChild_congr {name : Text} {cs : List Nat}
    (h : ∀ c ∈ cs, (m'.nodeAt c).map MemNode.name = (m.nodeAt c).map MemNode.name) :
    m'.findChild name cs = m.findChild name cs := by
  induction cs with
  | nil => rfl
  | cons c cs ih =>
      have hc := h c List.mem_cons_self
      have hrest := ih fun x hx => h x (List.mem_cons_of_mem c hx)
      simp only [findChild]
      cases hn : m.nodeAt c with
      | none =>
          rw [hn, Option.map_none, Option.map_eq_none_iff] at hc
          rw [hc]
          rfl
      | some n =>
          rw [hn, Option.map_some] at hc
          obtain ⟨n', hn', hname⟩ := Option.map_eq_some_iff.mp hc
          rw [hn', Option.bind_some, Option.bind_some, hname, hrest]

theorem lookup_congr {name : Text}
    (hdata : (m'.dataAt slot).map (fun d => (d.isDir, d.children)) =
      (m.dataAt slot).map fun d => (d.isDir, d.children))
    (hnames : ∀ d, m.dataAt slot = some d → d.isDir = true →
      m'.findChild name d.children = m.findChild name d.children) :
    m'.walk slot [name] = m.walk slot [name] := by
  simp only [walk]
  cases hd : m.dataAt slot with
  | none =>
      rw [hd, Option.map_none, Option.map_eq_none_iff] at hdata
      rw [hdata]
      rfl
  | some d =>
      rw [hd, Option.map_some] at hdata
      obtain ⟨d', hd', heq⟩ := Option.map_eq_some_iff.mp hdata
      obtain ⟨hdir, hchildren⟩ := Prod.mk.inj heq
      rw [hd', Option.bind_some, Option.bind_some, hdir, hchildren]
      split
      · rename_i hdir
        rw [hnames d hd hdir]
      · rfl

theorem walk_updateData {id : Nat} {f : MemData → MemData} (hf : Inert f) (names : List Text) :
    (m.updateData id f).walk slot names = m.walk slot names := by
  apply walk_congr
  intro x _
  apply lookup_congr
  · unfold dataAt
    rw [nodeAt_updateData]
    cases m.nodeAt x.1 with
    | none => rfl
    | some n =>
        simp only [Option.bind_some, getData_updateData]
        split
        · rw [Option.map_map]
          congr 1
          funext d
          obtain ⟨hdir, -, -, hchildren⟩ := hf d
          simp only [Function.comp_apply, hdir, hchildren]
        · rfl
  · intro d _ _
    apply findChild_congr
    intro c _
    rw [nodeAt_updateData]

theorem walk_updateDataAt {s : Nat} {f : MemData → MemData} (hf : Inert f) (names : List Text) :
    (m.updateDataAt s f).walk slot names = m.walk slot names := by
  unfold updateDataAt
  split
  · rfl
  · exact walk_updateData hf names

theorem memDataOf_updateDataAt {s : Nat} {f : MemData → MemData} (hf : Inert f)
    (path : AbsolutePath) : (m.updateDataAt s f).memDataOf path = m.memDataOf path := by
  simp only [memDataOf, getMemNode, getSlot, walk_updateDataAt hf, nodeAt_updateDataAt]

end MemMount

end Zrt.Fs
