import Mathlib.Logic.Basic

/-!
# First-fit scanning of an occupancy map

A scanner walks the cells of an occupancy map upwards and keeps the length of the free run that
ends at its position. The invariant here says what it may conclude at every position, whatever
portions of the map one step of the scanner consumes.
-/

namespace Zrt.Framework

/-- The `len` cells from `start` on are free. -/
def FreeRun (used : Nat → Bool) (start len : Nat) : Prop :=
  ∀ k, start ≤ k → k < start + len → used k = false

/-- What a scanner for `want` free cells knows at position `p` with a current run of `run`. -/
structure ScanInv (used : Nat → Bool) (want p run : Nat) : Prop where
  lt_want : run < want
  le_pos : run ≤ p
  free : ∀ k, p ≤ k + run → k < p → used k = false
  maximal : run < p → used (p - run - 1) = true
  none_before : ∀ start, start + want ≤ p → ¬ FreeRun used start want

variable {used : Nat → Bool} {want p run : Nat}

theorem ScanInv.start (hw : 0 < want) : ScanInv used want 0 0 :=
  ⟨hw, Nat.le_refl 0, by intro k _ hk; omega, by intro h; omega,
    by intro start hs; omega⟩

theorem ScanInv.of_used (h : ScanInv used want p run) (hp : used p = true) :
    ScanInv used want (p + 1) 0 := by
  refine ⟨Nat.zero_lt_of_lt h.lt_want, Nat.zero_le _, by intro k hk hk'; omega,
    by intro _; simpa using hp, ?_⟩
  intro start hs hfree
  rcases Nat.lt_or_ge p (start + want) with hin | hout
  · have hle : start ≤ p := by have := h.lt_want; omega
    rw [hfree p hle hin] at hp
    exact Bool.false_ne_true hp
  · exact h.none_before start hout hfree

theorem ScanInv.of_free (h : ScanInv used want p run) (hp : used p = false)
    (hlt : run + 1 < want) : ScanInv used want (p + 1) (run + 1) := by
  refine ⟨hlt, Nat.succ_le_succ h.le_pos, ?_, ?_, ?_⟩
  · intro k hk hk'
    rcases Nat.lt_or_eq_of_le (Nat.le_of_lt_succ hk') with hlt' | rfl
    · exact h.free k (by omega) hlt'
    · exact hp
  · intro hr
    have heq : p + 1 - (run + 1) - 1 = p - run - 1 := by omega
    rw [heq]
    exact h.maximal (by omega)
  · intro start hs hfree
    rcases Nat.lt_or_ge p (start + want) with hin | hout
    · have hlong : run < p := by omega
      have hused := h.maximal hlong
      rw [hfree (p - run - 1) (by omega) (by omega)] at hused
      exact Bool.false_ne_true hused
    · exact h.none_before start hout hfree

/-- Completing the wanted length yields the least free run. -/
theorem ScanInv.found (h : ScanInv used want p run) (hp : used p = false)
    (heq : run + 1 = want) :
    FreeRun used (p + 1 - want) want ∧ want ≤ p + 1 ∧
      ∀ start, start < p + 1 - want → ¬ FreeRun used start want := by
  have hle := h.le_pos
  refine ⟨?_, by omega, ?_⟩
  · intro k hk hk'
    rcases Nat.lt_or_ge k p with hlt | hge
    · exact h.free k (by omega) hlt
    · have hkp : k = p := by omega
      exact hkp ▸ hp
  · intro start hs
    exact h.none_before start (by omega)

end Zrt.Framework
