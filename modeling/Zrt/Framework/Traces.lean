import Mathlib.Data.List.Basic

/-!
# Traces

What a growing list of events says of starts that must not follow one another: between two of them
either a barrier stands or the second one was released. The lemmas say when one more event keeps
such a property, so that a system that writes a trace proves it step by step.
-/

namespace Zrt.Framework

variable {α : Type*}

/-- Every start is followed by a release or by a barrier. -/
def Released (start barrier release : α → Prop) (l : List α) : Prop :=
  ∀ pre a mid, l = pre ++ a :: mid → start a → (∀ x ∈ mid, ¬ barrier x) → ∃ x ∈ mid, release x

/-- Between two starts a release or a barrier stands. -/
def Separated (start barrier release : α → Prop) (l : List α) : Prop :=
  ∀ pre a mid b post, l = pre ++ a :: (mid ++ b :: post) → start a → start b →
    (∀ x ∈ mid, ¬ barrier x) → ∃ x ∈ mid, release x

/-- Nothing bad comes after a barrier. -/
def CleanAfter (barrier bad : α → Prop) (l : List α) : Prop :=
  ∀ pre a post, l = pre ++ a :: post → barrier a → ∀ x ∈ post, ¬ bad x

variable {start barrier release : α → Prop} {l : List α} {x : α}

theorem snoc_eq_append_cons {pre mid : List α} {a : α} (h : l ++ [x] = pre ++ a :: mid) :
    (l = pre ∧ x = a ∧ mid = []) ∨ ∃ m, mid = m ++ [x] ∧ l = pre ++ a :: m := by
  rcases List.eq_nil_or_concat mid with rfl | ⟨m, y, rfl⟩
  · obtain ⟨rfl, hx⟩ := List.append_inj' h rfl
    exact Or.inl ⟨rfl, by simpa using hx, rfl⟩
  · rw [List.concat_eq_append, ← List.cons_append, ← List.append_assoc] at h
    obtain ⟨hl, hx⟩ := List.append_inj' h rfl
    obtain rfl : x = y := by simpa using hx
    exact Or.inr ⟨m, List.concat_eq_append, hl⟩

namespace Released

theorem nil : Released start barrier release [] := by
  intro pre a mid h
  simp at h

theorem snoc (h : Released start barrier release l) (hx : ¬ start x) :
    Released start barrier release (l ++ [x]) := by
  intro pre a mid hl ha hmid
  rcases snoc_eq_append_cons hl with ⟨-, rfl, -⟩ | ⟨m, rfl, rfl⟩
  · exact absurd ha hx
  · obtain ⟨y, hy, hr⟩ := h pre a m rfl ha fun y hy => hmid y (List.mem_append_left _ hy)
    exact ⟨y, List.mem_append_left _ hy, hr⟩

/-- A release serves every start before it. -/
theorem of_release (hr : release x) (hx : ¬ start x) :
    Released start barrier release (l ++ [x]) := by
  intro pre a mid hl ha _
  rcases snoc_eq_append_cons hl with ⟨-, rfl, -⟩ | ⟨m, rfl, -⟩
  · exact absurd ha hx
  · exact ⟨x, List.mem_append_right _ List.mem_cons_self, hr⟩

theorem of_barrier (hb : barrier x) (hx : ¬ start x) :
    Released start barrier release (l ++ [x]) := by
  intro pre a mid hl ha hmid
  rcases snoc_eq_append_cons hl with ⟨-, rfl, -⟩ | ⟨m, rfl, -⟩
  · exact absurd ha hx
  · exact absurd hb (hmid x (List.mem_append_right _ List.mem_cons_self))

end Released

theorem Separated.nil : Separated start barrier release [] := by
  intro pre a mid b post h
  simp at h

/-- A start may follow once the earlier ones are released. -/
theorem Separated.snoc (h : Separated start barrier release l)
    (hx : start x → Released start barrier release l) :
    Separated start barrier release (l ++ [x]) := by
  intro pre a mid b post hl ha hb hmid
  rw [← List.cons_append, ← List.append_assoc] at hl
  rcases snoc_eq_append_cons hl with ⟨rfl, rfl, -⟩ | ⟨m, -, rfl⟩
  · exact hx hb pre a mid rfl ha hmid
  · exact h pre a mid b m (by simp) ha hb hmid

theorem CleanAfter.nil {bad : α → Prop} : CleanAfter barrier bad [] := by
  intro pre a post h
  simp at h

theorem CleanAfter.snoc {bad : α → Prop} (h : CleanAfter barrier bad l)
    (hx : bad x → ∀ y ∈ l, ¬ barrier y) : CleanAfter barrier bad (l ++ [x]) := by
  intro pre a post hl ha y hy
  rcases snoc_eq_append_cons hl with ⟨-, -, rfl⟩ | ⟨m, rfl, rfl⟩
  · simp at hy
  · rcases List.mem_append.mp hy with hy | hy
    · exact h pre a m rfl ha y hy
    · obtain rfl := List.mem_singleton.mp hy
      exact fun hbad => hx hbad a (by simp) ha

end Zrt.Framework
