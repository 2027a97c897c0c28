import Zrt.Framework.Runs

/-!
# Answers of an implementation and of its specification

An implementation answers each action or aborts; its specification always answers. Related states
answer alike as long as the actions are good ones, and the first bad action tells the two apart.
-/

namespace Zrt.Framework

variable {σ τ α ρ : Type*}

/-- The answers of an implementation to a list of actions. An aborted action aborts the run. -/
def replies (step : σ → α → Option (ρ × σ)) : σ → List α → Option (List ρ)
  | _, [] => some []
  | s, a :: as => (step s a).bind fun x => (replies step x.2 as).map (x.1 :: ·)

/-- The answers that are specified. -/
def specified (spec : τ → α → ρ × τ) : τ → List α → List ρ
  | _, [] => []
  | t, a :: as => (spec t a).1 :: specified spec (spec t a).2 as

/-- Every action has the property in the specified state it is taken from. -/
def Along (spec : τ → α → ρ × τ) (good : τ → α → Prop) : τ → List α → Prop
  | _, [] => True
  | t, a :: as => good t a ∧ Along spec good (spec t a).2 as

instance decidableAlong {spec : τ → α → ρ × τ} {good : τ → α → Prop} [∀ t a, Decidable (good t a)] :
    ∀ (as : List α) (t : τ), Decidable (Along spec good t as)
  | [], _ => isTrue trivial
  | a :: as, t =>
      have : Decidable (Along spec good (spec t a).2 as) := decidableAlong as (spec t a).2
      inferInstanceAs (Decidable (good t a ∧ Along spec good (spec t a).2 as))

/-- Under admissible actions the implementation keeps to the specification in the good ones, and in
no other. -/
structure Refines (step : σ → α → Option (ρ × σ)) (spec : τ → α → ρ × τ) (R : σ → τ → Prop)
    (admissible good : τ → α → Prop) : Prop where
  keeps : ∀ s t a, R s t → admissible t a → good t a →
    ∃ s', step s a = some ((spec t a).1, s') ∧ R s' (spec t a).2
  differs : ∀ s t a, R s t → admissible t a → ¬good t a →
    ∀ s', step s a ≠ some ((spec t a).1, s')

variable {step : σ → α → Option (ρ × σ)} {spec : τ → α → ρ × τ} {R : σ → τ → Prop}
  {admissible good : τ → α → Prop}

/-- The answers are the specified ones if and only if all actions are good. -/
theorem Refines.replies_eq_iff (h : Refines step spec R admissible good) (as : List α) (s : σ) (t : τ)
    (hR : R s t) (hadm : Along spec admissible t as) :
    replies step s as = some (specified spec t as) ↔ Along spec good t as := by
  induction as generalizing s t with
  | nil => exact ⟨fun _ => trivial, fun _ => rfl⟩
  | cons a as ih =>
      obtain ⟨hfirst, hrest⟩ := hadm
      by_cases hgood : good t a
      · obtain ⟨s', hs', hR'⟩ := h.keeps s t a hR hfirst hgood
        rw [replies, hs', Option.bind_some, specified]
        constructor
        · intro heq
          obtain ⟨rs, hrs, hcons⟩ := Option.map_eq_some_iff.mp heq
          rw [List.cons.injEq] at hcons
          rw [hcons.2] at hrs
          exact ⟨hgood, (ih s' _ hR' hrest).mp hrs⟩
        · intro halong
          rw [(ih s' _ hR' hrest).mpr halong.2, Option.map_some]
      · constructor
        · intro heq
          obtain ⟨⟨r, s'⟩, hs', heq⟩ := Option.bind_eq_some_iff.mp heq
          obtain ⟨rs, -, hcons⟩ := Option.map_eq_some_iff.mp heq
          rw [specified, List.cons.injEq] at hcons
          obtain rfl : r = (spec t a).1 := hcons.1
          exact absurd hs' (h.differs s t a hR hfirst hgood s')
        · intro halong
          exact absurd halong.1 hgood

/-! ## Specifications that leave a choice -/

/-- The answers and the last state are among those that a relation allows. -/
def Performs (allows : τ → α → ρ → τ → Prop) : τ → List α → List ρ → τ → Prop
  | t, [], [], t' => t' = t
  | t, a :: as, r :: rs, t' => ∃ u, allows t a r u ∧ Performs allows u as rs t'
  | _, _, _, _ => False

variable {allows : τ → α → ρ → τ → Prop} {guard : σ → α → Prop}

/-- A run whose steps are allowed is allowed, and ends in a related state. -/
theorem performs_of_step
    (hstep : ∀ s t a r s', R s t → guard s a → step s a = some (r, s') →
      ∃ t', allows t a r t' ∧ R s' t')
    (as : List α) (s s' : σ) (t : τ) (hR : R s t)
    (hguard : Guarded (fun s a => (step s a).map Prod.snd) guard s as)
    (hrun : runFrom (fun s a => (step s a).map Prod.snd) s as = some s') :
    ∃ rs t', replies step s as = some rs ∧ Performs allows t as rs t' ∧ R s' t' := by
  induction as generalizing s t with
  | nil =>
      cases hrun
      exact ⟨[], t, rfl, rfl, hR⟩
  | cons a as ih =>
      obtain ⟨u, hu, hrest⟩ := runFrom_cons hrun
      obtain ⟨⟨r, s₁⟩, hs₁, rfl⟩ := Option.map_eq_some_iff.mp hu
      obtain ⟨t₁, hallows, hR₁⟩ := hstep s t a r s₁ hR hguard.1 hs₁
      obtain ⟨rs, t', hreplies, hperforms, hR'⟩ := ih s₁ t₁ hR₁ (hguard.2 s₁ hu) hrest
      refine ⟨r :: rs, t', ?_, ⟨t₁, hallows, hperforms⟩, hR'⟩
      rw [replies, hs₁, Option.bind_some, hreplies, Option.map_some]

/-! ## Parts of a system -/

section Parts

variable {β : Type*} {whole : σ → α → Option σ} {part : τ → β → Option τ} {proj : σ → τ}
  {seen : α → Option β} {guard : σ → α → Prop}

/-- A step of the whole is a step of the part, or the part does not see it. -/
def StepsOnPart (whole : σ → α → Option σ) (part : τ → β → Option τ) (proj : σ → τ)
    (seen : α → Option β) : Prop :=
  ∀ s a t, whole s a = some t →
    (seen a).elim (proj t = proj s) fun b => part (proj s) b = some (proj t)

/-- A run of the whole is a run of the part, under the guard that the part has for what it sees. -/
theorem StepsOnPart.run (h : StepsOnPart whole part proj seen) (guard' : τ → β → Prop)
    (hguard : ∀ s a, guard s a → ∀ b ∈ seen a, guard' (proj s) b) (as : List α) (s t : σ)
    (hg : Guarded whole guard s as) (hrun : runFrom whole s as = some t) :
    Guarded part guard' (proj s) (as.filterMap seen) ∧
      runFrom part (proj s) (as.filterMap seen) = some (proj t) := by
  induction as generalizing s with
  | nil =>
      obtain rfl : s = t := Option.some.inj hrun
      exact ⟨trivial, rfl⟩
  | cons a as ih =>
      obtain ⟨u, hu, hrest⟩ := runFrom_cons hrun
      have hstep := h s a u hu
      obtain ⟨hgrest, hrest⟩ := ih u (hg.2 u hu) hrest
      cases hseen : seen a with
      | none =>
          rw [hseen, Option.elim_none] at hstep
          rw [List.filterMap_cons_none hseen, ← hstep]
          exact ⟨hgrest, hrest⟩
      | some b =>
          rw [hseen, Option.elim_some] at hstep
          rw [List.filterMap_cons_some hseen]
          refine ⟨⟨hguard s a hg.1 b hseen, fun v hv => ?_⟩, ?_⟩
          · rw [hstep, Option.some.injEq] at hv
            rw [← hv]
            exact hgrest
          · rw [runFrom, hstep, Option.bind_some]
            exact hrest

end Parts

end Zrt.Framework
