import Mathlib.Algebra.BigOperators.Fin
import Mathlib.Algebra.Order.Group.Multiset

/-!
# Totals of weighed lists

Every item has a key and a weight, and weights can be added up. A list is condensed to another one
of the same total whose keys all occur in the first.
-/

namespace Zrt.Framework

variable {α κ M : Type*} [AddCommMonoid M]

def total (weigh : α → M) (items : List α) : M := (items.map weigh).sum

section

variable (weigh : α → M)

@[simp] theorem total_nil : total weigh [] = 0 := rfl

@[simp] theorem total_append (items items' : List α) :
    total weigh (items ++ items') = total weigh items + total weigh items' := by
  simp [total]

theorem total_flatten (lists : List (List α)) :
    total weigh lists.flatten = (lists.map (total weigh)).sum := by
  induction lists with
  | nil => rfl
  | cons l lists ih => simp [ih]

theorem total_flatMap_finRange {n : Nat} (f : Fin n → List α) :
    total weigh ((List.finRange n).flatMap f) = ∑ k, total weigh (f k) := by
  rw [List.flatMap_def, total_flatten, List.map_map, Fin.sum_univ_def]
  rfl

theorem sum_total_getD (lists : List (List α)) :
    ∑ r : Fin lists.length, total weigh (lists.getD r []) = total weigh lists.flatten := by
  simp [total_flatten]

theorem total_perm {items items' : List α} (h : items.Perm items') :
    total weigh items = total weigh items' :=
  (h.map weigh).sum_eq

end

/-- Weighed by itself a list totals the multiset of its items. -/
theorem total_singleton (items : List α) :
    total (fun x => ({x} : Multiset α)) items = (items : Multiset α) := by
  induction items with
  | nil => rfl
  | cons x items ih =>
      rw [← List.singleton_append, total_append, ih]
      rfl

/-- The same total, and no new key. -/
structure Condenses (key : α → κ) (weigh : α → M) (items out : List α) : Prop where
  total : total weigh out = total weigh items
  keys : ∀ x ∈ out, ∃ y ∈ items, key x = key y

namespace Condenses

variable {key : α → κ} {weigh : α → M} {items items' out out' : List α}

theorem of_perm (h : out.Perm items) : Condenses key weigh items out where
  total := total_perm weigh h
  keys := fun x hx => ⟨x, h.mem_iff.mp hx, rfl⟩

theorem refl (items : List α) : Condenses key weigh items items := of_perm (List.Perm.refl _)

theorem trans (h : Condenses key weigh items out) (h' : Condenses key weigh out out') :
    Condenses key weigh items out' where
  total := h'.total.trans h.total
  keys := by
    intro x hx
    obtain ⟨y, hy, hxy⟩ := h'.keys x hx
    obtain ⟨z, hz, hyz⟩ := h.keys y hy
    exact ⟨z, hz, hxy.trans hyz⟩

theorem append (h : Condenses key weigh items out) (h' : Condenses key weigh items' out') :
    Condenses key weigh (items ++ items') (out ++ out') where
  total := by rw [total_append, total_append, h.total, h'.total]
  keys := by
    intro x hx
    rcases List.mem_append.mp hx with hx | hx
    · obtain ⟨y, hy, hxy⟩ := h.keys x hx
      exact ⟨y, List.mem_append_left _ hy, hxy⟩
    · obtain ⟨y, hy, hxy⟩ := h'.keys x hx
      exact ⟨y, List.mem_append_right _ hy, hxy⟩

/-- What all keys have in common is kept. -/
theorem forall_keys (h : Condenses key weigh items out) {P : κ → Prop}
    (hall : ∀ x ∈ items, P (key x)) : ∀ x ∈ out, P (key x) := by
  intro x hx
  obtain ⟨y, hy, hxy⟩ := h.keys x hx
  exact hxy ▸ hall y hy

end Condenses

end Zrt.Framework
