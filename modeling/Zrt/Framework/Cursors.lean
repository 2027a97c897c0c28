import Mathlib.Data.List.Basic

/-!
# Walks with a cursor

An iterator takes a cursor and answers an item, or nothing at the end, with the cursor for the next
call. A walk calls it until it answers nothing.
-/

namespace Zrt.Framework

variable {σ β γ : Type*}

/-- The items of at most so many calls; `none` where the end is not reached. -/
def walk (next : σ → Option β × σ) : Nat → σ → Option (List β)
  | 0, _ => none
  | n + 1, c =>
      match next c with
      | (none, _) => some []
      | (some b, c') => (walk next n c').map (b :: ·)

/-- The walk ends, with these items. -/
def Yields (next : σ → Option β × σ) (c : σ) (l : List β) : Prop := ∃ n, walk next n c = some l

variable {next : σ → Option β × σ} {c c' : σ} {b : β} {l : List β}

theorem Yields.nil (h : (next c).1 = none) : Yields next c [] := by
  refine ⟨1, ?_⟩
  cases hn : next c with
  | mk item c' =>
      rw [hn] at h
      cases h
      rw [walk, hn]

theorem Yields.cons (h : next c = (some b, c')) (hl : Yields next c' l) :
    Yields next c (b :: l) := by
  obtain ⟨n, hn⟩ := hl
  exact ⟨n + 1, by simp only [walk, h, hn, Option.map_some]⟩

/-- A walk is at its end, or it goes on behind its first item. -/
theorem Yields.cases_first (h : Yields next c l) :
    ((next c).1 = none ∧ l = []) ∨
      ∃ b c' rest, next c = (some b, c') ∧ l = b :: rest ∧ Yields next c' rest := by
  obtain ⟨n, hn⟩ := h
  cases n with
  | zero => cases hn
  | succ n =>
      rw [walk] at hn
      cases hnext : next c with
      | mk item c' =>
          rw [hnext] at hn
          cases item with
          | none => exact Or.inl ⟨rfl, (Option.some.inj hn).symm⟩
          | some b =>
              obtain ⟨rest, hrest, hl⟩ := Option.map_eq_some_iff.mp hn
              exact Or.inr ⟨b, c', rest, rfl, hl.symm, n, hrest⟩

theorem Yields.unique {l' : List β} (h : Yields next c l) (h' : Yields next c l') : l = l' := by
  induction l generalizing c l' with
  | nil =>
      rcases h.cases_first with ⟨hend, -⟩ | ⟨b, c', rest, -, hl, -⟩
      · rcases h'.cases_first with ⟨-, hl⟩ | ⟨b, c', rest, hnext, -, -⟩
        · exact hl.symm
        · rw [hnext] at hend
          cases hend
      · cases hl
  | cons x xs ih =>
      rcases h.cases_first with ⟨-, hl⟩ | ⟨b, c', rest, hnext, hl, hrest⟩
      · cases hl
      · rcases h'.cases_first with ⟨hend, -⟩ | ⟨b', c'', rest', hnext', hl', hrest'⟩
        · rw [hnext] at hend
          cases hend
        · rw [hnext, Prod.mk.injEq, Option.some.injEq] at hnext'
          obtain ⟨rfl, rfl⟩ := hnext'
          obtain ⟨rfl, rfl⟩ := List.cons.inj hl
          rw [hl', ih hrest hrest']

/-- An iterator that answers something about the items of another. -/
theorem Yields.map {next' : σ → Option γ × σ} (f : β → γ)
    (hnext : ∀ c, next' c = ((next c).1.map f, (next c).2)) (h : Yields next c l) :
    Yields next' c (l.map f) := by
  induction l generalizing c with
  | nil =>
      rcases h.cases_first with ⟨hend, -⟩ | ⟨b, c', rest, -, hl, -⟩
      · exact Yields.nil (by rw [hnext, hend]; rfl)
      · cases hl
  | cons x xs ih =>
      rcases h.cases_first with ⟨-, hl⟩ | ⟨b, c', rest, hb, hl, hrest⟩
      · cases hl
      · obtain ⟨rfl, rfl⟩ := List.cons.inj hl
        exact Yields.cons (by rw [hnext, hb]; rfl) (ih hrest)

end Zrt.Framework
