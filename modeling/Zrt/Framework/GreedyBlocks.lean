import Mathlib.Algebra.GroupWithZero.Nat
import Mathlib.Data.List.Basic
import Mathlib.Order.Lattice

/-!
# Greedy blocks

A list of weighted items is cut into blocks from left to right. A block is closed by the item with
which its weight reaches the goal, so that it exceeds the goal by less than one item.
-/

namespace Zrt.Framework

variable {α : Type*} (weight : α → Nat) (goal : Nat)

/-- At most `n` closed blocks, the first of which starts with `block`. Items behind the last closed
block are left over. -/
def greedyBlocks : Nat → List α → List α → List (List α)
  | 0, _, _ => []
  | _ + 1, _, [] => []
  | n + 1, block, x :: xs =>
      if goal ≤ ((block ++ [x]).map weight).sum then (block ++ [x]) :: greedyBlocks n [] xs
      else greedyBlocks (n + 1) (block ++ [x]) xs

@[simp] theorem greedyBlocks_zero (block xs : List α) :
    greedyBlocks weight goal 0 block xs = [] := by
  cases xs with
  | nil => rfl
  | cons x xs => rfl

@[simp] theorem greedyBlocks_nil (n : Nat) (block : List α) :
    greedyBlocks weight goal n block [] = [] := by
  cases n with
  | zero => rfl
  | succ n => rfl

theorem greedyBlocks_cons (n : Nat) (block : List α) (x : α) (xs : List α) :
    greedyBlocks weight goal (n + 1) block (x :: xs) =
      if goal ≤ ((block ++ [x]).map weight).sum
      then (block ++ [x]) :: greedyBlocks weight goal n [] xs
      else greedyBlocks weight goal (n + 1) (block ++ [x]) xs := rfl

theorem greedyBlocks_length_le (n : Nat) (block xs : List α) :
    (greedyBlocks weight goal n block xs).length ≤ n := by
  induction xs generalizing n block with
  | nil => simp
  | cons x xs ih =>
      cases n with
      | zero => simp
      | succ n =>
          rw [greedyBlocks_cons]
          split
          · exact Nat.succ_le_succ (ih n [])
          · exact ih (n + 1) (block ++ [x])

theorem greedyBlocks_flatten (n : Nat) (block xs : List α) :
    ∃ rest, block ++ xs = (greedyBlocks weight goal n block xs).flatten ++ rest := by
  induction xs generalizing n block with
  | nil => exact ⟨block, by simp⟩
  | cons x xs ih =>
      cases n with
      | zero => exact ⟨block ++ x :: xs, by simp⟩
      | succ n =>
          rw [greedyBlocks_cons]
          split
          · obtain ⟨rest, hrest⟩ := ih n []
            refine ⟨rest, ?_⟩
            rw [List.flatten_cons, List.append_assoc, ← hrest, List.nil_append, List.append_assoc,
              List.singleton_append]
          · obtain ⟨rest, hrest⟩ := ih (n + 1) (block ++ [x])
            refine ⟨rest, ?_⟩
            rw [← hrest, List.append_assoc, List.singleton_append]

theorem greedyBlocks_ne_nil (n : Nat) (block xs : List α) :
    ∀ b ∈ greedyBlocks weight goal n block xs, b ≠ [] := by
  induction xs generalizing n block with
  | nil => simp
  | cons x xs ih =>
      cases n with
      | zero => simp
      | succ n =>
          rw [greedyBlocks_cons]
          split
          · exact List.forall_mem_cons.mpr ⟨by simp, ih n []⟩
          · exact ih (n + 1) (block ++ [x])

/-- A closed block has reached the goal, and its items but the last one had not. A goal of zero is
reached by every item. -/
theorem greedyBlocks_weight {limit : Nat} (n : Nat) (block xs : List α)
    (hlimit : ∀ x ∈ xs, weight x ≤ limit) (hopen : (block.map weight).sum ≤ max goal 1 - 1) :
    ∀ b ∈ greedyBlocks weight goal n block xs,
      goal ≤ (b.map weight).sum ∧ (b.map weight).sum ≤ max goal 1 - 1 + limit := by
  induction xs generalizing n block with
  | nil => simp
  | cons x xs ih =>
      have hx := hlimit x List.mem_cons_self
      have hrest : ∀ y ∈ xs, weight y ≤ limit := fun y hy => hlimit y (List.mem_cons_of_mem x hy)
      have hsum : ((block ++ [x]).map weight).sum = (block.map weight).sum + weight x := by simp
      cases n with
      | zero => simp
      | succ n =>
          rw [greedyBlocks_cons]
          split
          · rename_i hgoal
            refine List.forall_mem_cons.mpr ⟨⟨hgoal, ?_⟩, ih n [] hrest (by simp)⟩
            rw [hsum]
            omega
          · rename_i hgoal
            exact ih (n + 1) (block ++ [x]) hrest (by omega)

/-- The items that close consecutive blocks stand in the order of the list. -/
theorem filterMap_getLast?_sublist (blocks : List (List α)) :
    (blocks.filterMap List.getLast?).Sublist blocks.flatten := by
  induction blocks with
  | nil => exact List.Sublist.refl _
  | cons b blocks ih =>
      rw [List.flatten_cons]
      cases hlast : b.getLast? with
      | none =>
          rw [List.filterMap_cons_none hlast]
          exact ih.trans (List.sublist_append_right b _)
      | some x =>
          have hx : [x].Sublist b := List.singleton_sublist.mpr (List.mem_of_getLast? hlast)
          rw [List.filterMap_cons_some hlast, ← List.singleton_append]
          exact hx.append ih

end Zrt.Framework
