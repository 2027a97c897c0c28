import Mathlib.Data.Fintype.EquivFin
import Mathlib.Data.List.Basic

/-!
# Slot tables with a cursor

A fixed array of slots, searched upwards for a free one from a cursor. The cursor may stand low, but
no free slot may be below it; then the search fails only when the table is full. A second group of
facts counts how many slots of such a table hold a given key.
-/

namespace Zrt.Framework

section Cursor

variable {α : Type*} {free : α → Bool} {slots : List α} {cursor : Option Nat}

/-- The first free slot from the cursor on. A lost cursor restarts at the bottom. -/
def seekUnusedSlot (free : α → Bool) (slots : List α) (cursor : Option Nat) : Option Nat :=
  ((slots.drop (cursor.getD 0)).findIdx? free).map (cursor.getD 0 + ·)

/-- No free slot stands below the cursor. -/
def CursorLow (free : α → Bool) (slots : List α) (cursor : Option Nat) : Prop :=
  ∀ i < cursor.getD 0, ∀ a, slots[i]? = some a → free a = false

theorem seekUnusedSlot_eq_some {i : Nat} (h : seekUnusedSlot free slots cursor = some i) :
    ∃ a, slots[i]? = some a ∧ free a = true := by
  obtain ⟨k, hk, rfl⟩ := Option.map_eq_some_iff.mp h
  obtain ⟨hlt, hfree, -⟩ := List.findIdx?_eq_some_iff_getElem.mp hk
  rw [List.getElem_drop] at hfree
  rw [List.length_drop] at hlt
  exact ⟨slots[cursor.getD 0 + k], List.getElem?_eq_getElem (by omega), hfree⟩

theorem seekUnusedSlot_cursorLow {i : Nat} (hc : CursorLow free slots cursor)
    (h : seekUnusedSlot free slots cursor = some i) : CursorLow free slots (some i) := by
  obtain ⟨k, hk, rfl⟩ := Option.map_eq_some_iff.mp h
  obtain ⟨hlt, -, hbefore⟩ := List.findIdx?_eq_some_iff_getElem.mp hk
  intro j hj a ha
  rw [Option.getD_some] at hj
  by_cases hlow : j < cursor.getD 0
  · exact hc j hlow a ha
  · have hja : j - cursor.getD 0 < k := by omega
    have hfree := hbefore (j - cursor.getD 0) hja
    rw [List.getElem_drop] at hfree
    have hget : slots[cursor.getD 0 + (j - cursor.getD 0)]? = some a := by
      rw [Nat.add_sub_cancel' (by omega)]
      exact ha
    rw [List.getElem?_eq_getElem (by
      have := (List.getElem?_eq_some_iff.mp hget).1
      omega)] at hget
    rw [Option.some.inj hget] at hfree
    exact Bool.eq_false_iff.mpr hfree

theorem seekUnusedSlot_eq_none (hc : CursorLow free slots cursor)
    (h : seekUnusedSlot free slots cursor = none) : ∀ a ∈ slots, free a = false := by
  intro a ha
  obtain ⟨i, hi⟩ := List.mem_iff_getElem?.mp ha
  by_cases hlow : i < cursor.getD 0
  · exact hc i hlow a hi
  · apply List.findIdx?_eq_none_iff.mp (Option.map_eq_none_iff.mp h)
    apply List.mem_iff_getElem?.mpr
    exact ⟨i - cursor.getD 0, by rw [List.getElem?_drop, Nat.add_sub_cancel' (by omega)]; exact hi⟩

theorem CursorLow.set_used (hc : CursorLow free slots cursor) {a : α} (ha : free a = false)
    (i : Nat) : CursorLow free (slots.set i a) cursor := by
  intro j hj b hb
  rw [List.getElem?_set] at hb
  split at hb
  · split at hb
    · exact Option.some.inj hb ▸ ha
    · cases hb
  · exact hc j hj b hb

/-- A freed slot below the cursor pulls the cursor down. -/
theorem CursorLow.set_lowered (hc : CursorLow free slots cursor) (i : Nat) (a : α) :
    CursorLow free (slots.set i a) (cursor.map fun c => if i < c then i else c) := by
  intro j hj b hb
  cases cursor with
  | none => exact absurd hj (Nat.not_lt_zero j)
  | some c =>
      simp only [Option.map_some, Option.getD_some] at hj
      have hji : i ≠ j := by split at hj <;> omega
      rw [List.getElem?_set_ne hji] at hb
      exact hc j (by simp only [Option.getD_some]; split at hj <;> omega) b hb

end Cursor

section Holders

variable {β : Type*} {key : β → Option Nat}

def holdsKey (key : β → Option Nat) (id : Nat) (h : Option β) : Bool := decide (h.bind key = some id)

/-- How many slots hold an element with the key. -/
def holders (key : β → Option Nat) (slots : List (Option β)) (id : Nat) : Nat :=
  slots.countP (holdsKey key id)

theorem holders_set (key : β → Option Nat) {slots : List (Option β)} {i : Nat} {old : Option β}
    (hi : slots[i]? = some old) (new : Option β) (id : Nat) :
    holders key (slots.set i new) id + (if holdsKey key id old then 1 else 0) =
      holders key slots id + (if holdsKey key id new then 1 else 0) := by
  obtain ⟨hlt, hget⟩ := List.getElem?_eq_some_iff.mp hi
  have hle := List.boole_getElem_le_countP (p := holdsKey key id) hlt
  rw [hget] at hle
  simp only [holders, List.countP_set hlt, hget]
  omega

theorem holders_pos_iff {slots : List (Option β)} {id : Nat} :
    0 < holders key slots id ↔ ∃ b, some b ∈ slots ∧ key b = some id := by
  rw [holders, List.countP_pos_iff]
  constructor
  · intro h
    obtain ⟨a, ha, hk⟩ := h
    rw [holdsKey, decide_eq_true_iff] at hk
    obtain ⟨b, rfl, hb⟩ := Option.bind_eq_some_iff.mp hk
    exact ⟨b, ha, hb⟩
  · intro h
    obtain ⟨b, hb, hk⟩ := h
    exact ⟨some b, hb, by simp [holdsKey, hk]⟩

/-- When every key below the table's length is held, the table is full: each slot holds one key. -/
theorem full_of_all_held {slots : List (Option β)}
    (h : ∀ id < slots.length, 0 < holders key slots id) : ∀ a ∈ slots, a.isSome = true := by
  have hex : ∀ id : Fin slots.length, ∃ i : Fin slots.length,
      (slots.get i).bind key = some id.val := by
    intro id
    obtain ⟨b, hb, hk⟩ := holders_pos_iff.mp (h id.val id.isLt)
    obtain ⟨i, hi⟩ := List.mem_iff_get.mp hb
    exact ⟨i, by rw [hi, Option.bind_some, hk]⟩
  choose f hf using hex
  have hinj : Function.Injective f := by
    intro x y hxy
    have hx := hf x
    rw [hxy, hf y] at hx
    exact Fin.ext (Option.some.inj hx).symm
  intro a ha
  obtain ⟨i, rfl⟩ := List.mem_iff_get.mp ha
  obtain ⟨id, rfl⟩ := Finite.surjective_of_injective hinj i
  obtain ⟨b, hb, -⟩ := Option.bind_eq_some_iff.mp (hf id)
  rw [hb]
  rfl

end Holders

end Zrt.Framework
