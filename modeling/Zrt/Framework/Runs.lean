import Mathlib.Logic.Basic

/-!
# Guarded runs of a partial step function

A step either yields the next state or aborts. A run executes a list of actions from left to
right; a guard restricts which actions may be taken in which states.
-/

namespace Zrt.Framework

variable {σ α : Type*}

/-- Execute a list of actions. An aborted action aborts the run. -/
def runFrom (step : σ → α → Option σ) : σ → List α → Option σ
  | s, [] => some s
  | s, a :: as => (step s a).bind fun t => runFrom step t as

/-- Every action of the run meets the guard in the state it is taken from. -/
def Guarded (step : σ → α → Option σ) (guard : σ → α → Prop) : σ → List α → Prop
  | _, [] => True
  | s, a :: as => guard s a ∧ ∀ t, step s a = some t → Guarded step guard t as

/-- The run completes, in a state with the property. -/
def RunEnds (step : σ → α → Option σ) (s : σ) (as : List α) (P : σ → Prop) : Prop :=
  ∃ t, runFrom step s as = some t ∧ P t

variable {step : σ → α → Option σ} {guard : σ → α → Prop} {inv : σ → Prop}

theorem guarded_cons_iff {s : σ} {a : α} {as : List α} :
    Guarded step guard s (a :: as) ↔
      guard s a ∧ (step s a).elim True fun t => Guarded step guard t as := by
  cases h : step s a <;> simp [Guarded, h]

instance decidableGuarded [∀ s a, Decidable (guard s a)] :
    ∀ (as : List α) (s : σ), Decidable (Guarded step guard s as)
  | [], _ => isTrue trivial
  | a :: as, s =>
      have : Decidable ((step s a).elim True fun t => Guarded step guard t as) :=
        match step s a with
        | none => isTrue trivial
        | some t => decidableGuarded as t
      decidable_of_iff _ guarded_cons_iff.symm

theorem runEnds_iff_elim {P : σ → Prop} {s : σ} {as : List α} :
    RunEnds step s as P ↔ (runFrom step s as).elim False P := by
  cases h : runFrom step s as <;> simp [RunEnds, h]

instance decidableRunEnds {P : σ → Prop} [DecidablePred P] (s : σ) (as : List α) :
    Decidable (RunEnds step s as P) :=
  have : Decidable ((runFrom step s as).elim False P) :=
    match runFrom step s as with
    | none => isFalse id
    | some t => inferInstanceAs (Decidable (P t))
  decidable_of_iff _ runEnds_iff_elim.symm

theorem runFrom_cons {s t : σ} {a : α} {as : List α} (h : runFrom step s (a :: as) = some t) :
    ∃ u, step s a = some u ∧ runFrom step u as = some t := by
  simpa only [runFrom, Option.bind_eq_some_iff] using h

/-- A run goes on from where its first actions lead. -/
theorem runFrom_append (as bs : List α) (s : σ) :
    runFrom step s (as ++ bs) = (runFrom step s as).bind fun t => runFrom step t bs := by
  induction as generalizing s with
  | nil => rfl
  | cons a as ih =>
      rw [List.cons_append, runFrom, runFrom, Option.bind_assoc]
      exact congrArg _ (funext fun t => ih t)

/-- Every run meets the trivial guard. -/
theorem guarded_true (as : List α) (s : σ) : Guarded step (fun _ _ => True) s as := by
  induction as generalizing s with
  | nil => trivial
  | cons a as ih => exact ⟨trivial, fun t _ => ih t⟩

/-- Guards that an invariant makes equivalent, and that keep it, restrict runs alike. -/
theorem guarded_iff {guard' : σ → α → Prop} (hiff : ∀ s a, inv s → (guard s a ↔ guard' s a))
    (hstep : ∀ s a t, inv s → guard s a → step s a = some t → inv t) (as : List α) (s : σ)
    (hs : inv s) : Guarded step guard s as ↔ Guarded step guard' s as := by
  induction as generalizing s with
  | nil => exact Iff.rfl
  | cons a as ih =>
      constructor
      · rintro ⟨ha, hrest⟩
        exact ⟨(hiff s a hs).mp ha,
          fun t ht => (ih t (hstep s a t hs ha ht)).mp (hrest t ht)⟩
      · rintro ⟨ha, hrest⟩
        have hguard := (hiff s a hs).mpr ha
        exact ⟨hguard, fun t ht => (ih t (hstep s a t hs hguard ht)).mpr (hrest t ht)⟩

/-- A guard that keeps an invariant gives every guard that follows from both. -/
theorem guarded_of_invariant (inv : σ → Prop) {guard' : σ → α → Prop}
    (himp : ∀ s a, inv s → guard s a → guard' s a)
    (hstep : ∀ s a t, inv s → guard s a → step s a = some t → inv t) (as : List α) (s : σ)
    (hs : inv s) (h : Guarded step guard s as) : Guarded step guard' s as := by
  induction as generalizing s with
  | nil => trivial
  | cons a as ih =>
      exact ⟨himp s a hs h.1, fun t ht => ih t (hstep s a t hs h.1 ht) (h.2 t ht)⟩

/-- In a run that completes, guards need only be equivalent where a step is taken. -/
theorem guarded_iff_of_runFrom {guard' : σ → α → Prop}
    (hiff : ∀ s a t, inv s → step s a = some t → (guard s a ↔ guard' s a))
    (hstep : ∀ s a t, inv s → step s a = some t → inv t) (as : List α) (s t : σ) (hs : inv s)
    (hrun : runFrom step s as = some t) :
    Guarded step guard s as ↔ Guarded step guard' s as := by
  induction as generalizing s with
  | nil => exact Iff.rfl
  | cons a as ih =>
      obtain ⟨u, hu, hrest⟩ := runFrom_cons hrun
      have hnext := ih u (hstep s a u hs hu) hrest
      simp only [Guarded, hu, Option.some.injEq, forall_eq', hiff s a u hs hu, hnext]

/-- An invariant kept by every guarded step holds in every state a guarded run reaches. -/
theorem runFrom_invariant
    (hstep : ∀ s a t, inv s → guard s a → step s a = some t → inv t)
    (as : List α) (s t : σ) (hs : inv s) (hg : Guarded step guard s as)
    (hrun : runFrom step s as = some t) : inv t := by
  induction as generalizing s with
  | nil =>
      have he : s = t := by simpa [runFrom] using hrun
      exact he ▸ hs
  | cons a as ih =>
      obtain ⟨u, hu, hrest⟩ := runFrom_cons hrun
      exact ih u (hstep s a u hs hg.1 hu) (hg.2 u hu) hrest

theorem runFrom_preserves (hstep : ∀ s a t, inv s → step s a = some t → inv t)
    (as : List α) (s t : σ) (hs : inv s) (hrun : runFrom step s as = some t) : inv t :=
  runFrom_invariant (fun s a t hi _ ht => hstep s a t hi ht) as s t hs (guarded_true as s) hrun

/-- Steps that never abort and keep an invariant make up runs that complete with it. -/
theorem runEnds_of_steps (hstep : ∀ s a, inv s → ∃ t, step s a = some t ∧ inv t)
    (as : List α) (s : σ) (hs : inv s) : RunEnds step s as inv := by
  induction as generalizing s with
  | nil => exact ⟨s, rfl, hs⟩
  | cons a as ih =>
      obtain ⟨u, hu, hinv⟩ := hstep s a hs
      obtain ⟨t, ht, hend⟩ := ih u hinv
      exact ⟨t, by rw [runFrom, hu, Option.bind_some, ht], hend⟩

/-! ## Steps that never abort -/

/-- The actions of a list with the states that they are taken in. -/
def visits (next : σ → α → σ) : σ → List α → List (α × σ)
  | _, [] => []
  | s, a :: as => (a, s) :: visits next (next s a) as

variable {next : σ → α → σ} {le : σ → σ → Prop}

section Order

variable (hrefl : ∀ s, le s s) (htrans : ∀ s t u, le s t → le t u → le s u)
  (hnext : ∀ s a, inv s → inv (next s a)) (hle : ∀ s a, inv s → le s (next s a))

include hrefl htrans hnext hle

theorem visits_above (as : List α) (s : σ) (hs : inv s) : ∀ x ∈ visits next s as, le s x.2 := by
  induction as generalizing s with
  | nil => simp [visits]
  | cons a as ih =>
      intro x hx
      rcases List.mem_cons.mp hx with rfl | hx
      · exact hrefl s
      · exact htrans _ _ _ (hle s a hs) (ih (next s a) (hnext s a hs) x hx)

/-- A state that is visited later lies higher when every step goes up. -/
theorem visits_pairwise (as : List α) (s : σ) (hs : inv s) :
    (visits next s as).Pairwise fun x y => le x.2 y.2 := by
  induction as generalizing s with
  | nil => exact List.Pairwise.nil
  | cons a as ih =>
      refine List.Pairwise.cons ?_ (ih (next s a) (hnext s a hs))
      intro x hx
      exact htrans _ _ _ (hle s a hs)
        (visits_above hrefl htrans hnext hle as (next s a) (hnext s a hs) x hx)

end Order

end Zrt.Framework
