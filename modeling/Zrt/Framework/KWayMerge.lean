import Mathlib.Data.List.Basic
import Mathlib.Data.List.Perm.Basic
import Mathlib.Data.List.Pairwise
import Mathlib.Algebra.Order.BigOperators.Group.List
import Mathlib.Algebra.Order.Ring.Nat

/-!
# Merging many lists

A scan over the heads of several lists remembers a head that is not above the one remembered so
far, so it ends at the last list with a minimal head. Taking that head again and again merges the
lists.
-/

namespace Zrt.Framework

variable {α : Type*} (le : α → α → Bool)

/-- The scan from list number `i` on, with the position and the head remembered so far. -/
def minimalHead : List (List α) → Nat → Option (Nat × α) → Option (Nat × α)
  | [], _, best => best
  | [] :: ls, i, best => minimalHead ls (i + 1) best
  | (x :: _) :: ls, i, best =>
      minimalHead ls (i + 1) (if best.all fun b => le x b.2 then some (i, x) else best)

/-- Take minimal heads until every list is empty, at most `fuel` of them. -/
def mergeLists : Nat → List (List α) → Option (List α)
  | fuel, ls =>
      match minimalHead le ls 0 none with
      | none => some []
      | some (i, x) =>
          match fuel with
          | 0 => none
          | fuel + 1 => (mergeLists fuel (ls.modify i List.tail)).map (x :: ·)

variable {le}

theorem minimalHead_eq_none (ls : List (List α)) (i : Nat) (best : Option (Nat × α)) :
    minimalHead le ls i best = none ↔ best = none ∧ ∀ l ∈ ls, l = [] := by
  induction ls generalizing i best with
  | nil => simp [minimalHead]
  | cons l ls ih =>
      cases l with
      | nil => simp [minimalHead, ih]
      | cons x l =>
          rw [minimalHead, ih]
          by_cases h : best.all (fun b => le x b.2) = true
          · simp [h]
          · cases best with
            | none => simp at h
            | some b => simp [h]

/-- A scan that compares images finds the image of what a scan of the items finds. -/
theorem minimalHead_map {β : Type*} (f : β → α) (ls : List (List β)) (i : Nat)
    (best : Option (Nat × β)) :
    minimalHead le (ls.map (List.map f)) i (best.map (Prod.map id f)) =
      (minimalHead (fun x y => le (f x) (f y)) ls i best).map (Prod.map id f) := by
  induction ls generalizing i best with
  | nil => rfl
  | cons l ls ih =>
      cases l with
      | nil => exact ih (i + 1) best
      | cons x l =>
          have hall : (best.map (Prod.map id f)).all (fun b => le (f x) b.2) =
              best.all (fun b => le (f x) (f b.2)) := by cases best <;> rfl
          simp only [List.map_cons, minimalHead, hall, ← ih]
          split
          · rfl
          · rfl

theorem map_modify_tail {β : Type*} (f : β → α) (ls : List (List β)) (i : Nat) :
    (ls.map (List.map f)).modify i List.tail = (ls.modify i List.tail).map (List.map f) := by
  apply List.ext_getElem?
  intro j
  simp only [List.getElem?_modify, List.getElem?_map, Option.map_eq_map, Option.map_map]
  congr 1
  funext l
  by_cases hj : i = j <;> simp [hj]

theorem minimalHead_of_length_zero (ls : List (List α)) (h : (ls.map List.length).sum = 0) :
    minimalHead le ls 0 none = none := by
  refine (minimalHead_eq_none ls 0 none).mpr ⟨rfl, ?_⟩
  intro l hl
  have hle := List.le_sum_of_mem (List.mem_map_of_mem (f := List.length) hl)
  exact List.length_eq_zero_iff.mp (by omega)

theorem mergeLists_of_none {ls : List (List α)} (fuel : Nat)
    (h : minimalHead le ls 0 none = none) : mergeLists le fuel ls = some [] := by
  rw [mergeLists, h]

theorem mergeLists_zero {ls : List (List α)} {i : Nat} {x : α}
    (h : minimalHead le ls 0 none = some (i, x)) : mergeLists le 0 ls = none := by
  rw [mergeLists, h]

theorem mergeLists_succ {ls : List (List α)} {i : Nat} {x : α} (fuel : Nat)
    (h : minimalHead le ls 0 none = some (i, x)) :
    mergeLists le (fuel + 1) ls = (mergeLists le fuel (ls.modify i List.tail)).map (x :: ·) := by
  rw [mergeLists, h]

/-- What the scan remembers of the lists it has passed: a head at the position it stands, not above
any other head; nothing only while all of them were empty. -/
structure Remembers (le : α → α → Bool) (ls : List (List α)) (best : Option (Nat × α)) : Prop where
  position : ∀ b ∈ best, ∃ t, ls[b.1]? = some (b.2 :: t)
  minimal : ∀ b ∈ best, ∀ y t, (y :: t) ∈ ls → le b.2 y
  empty : best = none → ∀ l ∈ ls, l = []

namespace Remembers

variable {ls : List (List α)} {best : Option (Nat × α)}

private theorem position_snoc (h : Remembers le ls best) (l : List α) :
    ∀ b ∈ best, ∃ t, (ls ++ [l])[b.1]? = some (b.2 :: t) := by
  intro b hb
  obtain ⟨t, ht⟩ := h.position b hb
  have hlt := (List.getElem?_eq_some_iff.mp ht).1
  exact ⟨t, by rw [List.getElem?_append_left hlt, ht]⟩

theorem skip (h : Remembers le ls best) : Remembers le (ls ++ [[]]) best where
  position := h.position_snoc []
  minimal := by
    intro b hb y t hy
    exact h.minimal b hb y t (by simpa using hy)
  empty := by
    intro hb l hl
    rcases List.mem_append.mp hl with hl | hl
    · exact h.empty hb l hl
    · simpa using hl

theorem replace (total : ∀ x y, le x y || le y x) (trans : ∀ x y z, le x y → le y z → le x z)
    (h : Remembers le ls best) (x : α) (t : List α) (hx : best.all fun b => le x b.2) :
    Remembers le (ls ++ [x :: t]) (some (ls.length, x)) where
  position := by simp
  minimal := by
    intro b hb y u hy
    simp only [Option.mem_def, Option.some.injEq] at hb
    subst b
    rcases List.mem_append.mp hy with hy | hy
    · cases hbest : best with
      | none => exact absurd (h.empty hbest _ hy) (by simp)
      | some b =>
          have hxb : le x b.2 := by simpa [hbest] using hx
          exact trans _ _ _ hxb (h.minimal b hbest y u hy)
    · have hyx : y = x := by simpa using (List.cons.inj (List.mem_singleton.mp hy)).1
      simpa [hyx] using total x x
  empty := by simp

theorem keep (h : Remembers le ls best) (x : α) (t : List α) (hne : best ≠ none)
    (hx : ∀ b ∈ best, le b.2 x) : Remembers le (ls ++ [x :: t]) best where
  position := h.position_snoc (x :: t)
  minimal := by
    intro b hb y u hy
    rcases List.mem_append.mp hy with hy | hy
    · exact h.minimal b hb y u hy
    · have hyx : y = x := by simpa using (List.cons.inj (List.mem_singleton.mp hy)).1
      simpa [hyx] using hx b hb
  empty := fun hb => absurd hb hne

end Remembers

section

variable (total : ∀ x y, le x y || le y x) (trans : ∀ x y z, le x y → le y z → le x z)
include total trans

theorem minimalHead_remembers (before ls : List (List α)) (best : Option (Nat × α))
    (h : Remembers le before best) :
    Remembers le (before ++ ls) (minimalHead le ls before.length best) := by
  induction ls generalizing before best with
  | nil => simpa [minimalHead] using h
  | cons l ls ih =>
      have hnext := ih (before ++ [l])
      simp only [List.append_assoc, List.singleton_append, List.length_append,
        List.length_singleton] at hnext
      cases l with
      | nil => exact hnext best h.skip
      | cons x t =>
          rw [minimalHead]
          by_cases hx : best.all (fun b => le x b.2) = true
          · rw [if_pos hx]
            exact hnext _ (h.replace total trans x t hx)
          · rw [if_neg hx]
            apply hnext best
            apply h.keep x t
            · intro hb
              simp [hb] at hx
            · intro b hb
              have hnot : le x b.2 = false := by simpa [Option.mem_def.mp hb] using hx
              simpa [hnot] using total x b.2

/-- The head the scan ends with, and the lists around it. -/
theorem minimalHead_split (ls : List (List α)) (i : Nat) (x : α)
    (h : minimalHead le ls 0 none = some (i, x)) :
    (∃ pre t post, ls = pre ++ (x :: t) :: post ∧ ls.modify i List.tail = pre ++ t :: post) ∧
      ∀ y t, (y :: t) ∈ ls → le x y := by
  have hrem := minimalHead_remembers total trans [] ls none ⟨by simp, by simp, by simp⟩
  simp only [List.nil_append, List.length_nil, h] at hrem
  obtain ⟨t, ht⟩ := hrem.position _ rfl
  refine ⟨⟨ls.take i, t, ls.drop (i + 1), ?_, ?_⟩, hrem.minimal _ rfl⟩
  · obtain ⟨hlt, hget⟩ := List.getElem?_eq_some_iff.mp ht
    rw [← hget, List.cons_getElem_drop_succ, List.take_append_drop]
  · rw [List.modify_eq_take_cons_drop (List.getElem?_eq_some_iff.mp ht).1,
      (List.getElem?_eq_some_iff.mp ht).2, List.tail_cons]

theorem minimalHead_rest_length (ls : List (List α)) (i : Nat) (x : α)
    (h : minimalHead le ls 0 none = some (i, x)) :
    (ls.map List.length).sum = ((ls.modify i List.tail).map List.length).sum + 1 := by
  obtain ⟨⟨pre, t, post, hls, hmod⟩, -⟩ := minimalHead_split total trans ls i x h
  rw [hmod, hls]
  simp only [List.map_append, List.map_cons, List.sum_append, List.sum_cons, List.length_cons]
  omega

omit total in
/-- A head that is not above the other heads is not above any item of sorted lists. -/
theorem head_le_of_mem (pre post : List (List α)) (x : α) (t : List α)
    (hleast : ∀ y u, (y :: u) ∈ pre ++ (x :: t) :: post → le x y)
    (hall : ∀ l ∈ pre ++ (x :: t) :: post, l.Pairwise fun a b => le a b) (y : α)
    (hy : y ∈ (pre ++ t :: post).flatten) : le x y := by
  obtain ⟨l, hl, hyl⟩ := List.mem_flatten.mp hy
  have hcases : l = t ∨ l ∈ pre ++ (x :: t) :: post := by
    simp only [List.mem_append, List.mem_cons] at hl ⊢
    tauto
  rcases hcases with rfl | hin
  · exact List.rel_of_pairwise_cons (hall _ (by simp)) hyl
  · cases l with
    | nil => simp at hyl
    | cons z u =>
        have hxz := hleast z u hin
        rcases List.mem_cons.mp hyl with rfl | hyu
        · exact hxz
        · exact trans _ _ _ hxz (List.rel_of_pairwise_cons (hall _ hin) hyu)

omit total trans in
theorem sorted_tail (pre post : List (List α)) (x : α) (t : List α)
    (hall : ∀ l ∈ pre ++ (x :: t) :: post, l.Pairwise fun a b => le a b) :
    ∀ l ∈ pre ++ t :: post, l.Pairwise fun a b => le a b := by
  intro l hl
  rcases List.mem_append.mp hl with hl | hl
  · exact hall l (List.mem_append_left _ hl)
  · rcases List.mem_cons.mp hl with rfl | hl
    · exact (hall (x :: l) (by simp)).tail
    · exact hall l (by simp [hl])

/-- The merged list has the items of all the lists, in order when each of them is. -/
theorem mergeLists_spec (fuel : Nat) (ls : List (List α))
    (hfuel : (ls.map List.length).sum ≤ fuel) :
    ∃ out, mergeLists le fuel ls = some out ∧ out.Perm ls.flatten ∧
      ((∀ l ∈ ls, l.Pairwise fun x y => le x y) → out.Pairwise fun x y => le x y) := by
  induction fuel generalizing ls with
  | zero =>
      have hnone : minimalHead le ls 0 none = none := minimalHead_of_length_zero ls (by omega)
      have hempty := ((minimalHead_eq_none ls 0 none).mp hnone).2
      refine ⟨[], mergeLists_of_none 0 hnone, ?_, fun _ => List.Pairwise.nil⟩
      rw [List.flatten_eq_nil_iff.mpr hempty]
  | succ fuel ih =>
      cases hmin : minimalHead le ls 0 none with
      | none =>
          have hempty := ((minimalHead_eq_none ls 0 none).mp hmin).2
          refine ⟨[], mergeLists_of_none _ hmin, ?_, fun _ => List.Pairwise.nil⟩
          rw [List.flatten_eq_nil_iff.mpr hempty]
      | some r =>
          obtain ⟨i, x⟩ := r
          have hlength := minimalHead_rest_length total trans ls i x hmin
          obtain ⟨⟨pre, t, post, hls, hmod⟩, hleast⟩ :=
            minimalHead_split total trans ls i x hmin
          rw [hmod] at hlength
          obtain ⟨out, hout, hperm, hsorted⟩ := ih (pre ++ t :: post) (by omega)
          refine ⟨x :: out, by rw [mergeLists_succ fuel hmin, hmod, hout, Option.map_some], ?_, ?_⟩
          · rw [hls]
            simp only [List.flatten_append, List.flatten_cons, List.cons_append] at hperm ⊢
            exact (hperm.cons x).trans List.perm_middle.symm
          · intro hall
            rw [hls] at hleast hall
            refine List.pairwise_cons.mpr ⟨?_, hsorted (sorted_tail pre post x t hall)⟩
            intro y hy
            exact head_le_of_mem trans pre post x t hleast hall y (hperm.mem_iff.mp hy)

end

/-! ## Order within each list -/

/-- The list arises from the lists by taking one head after the other until all are empty. -/
inductive Interleaves : List (List α) → List α → Prop
  | done {ls : List (List α)} (hempty : ∀ l ∈ ls, l = []) : Interleaves ls []
  | take {ls : List (List α)} {out : List α} (i : Nat) (x : α) (t : List α)
      (hget : ls[i]? = some (x :: t)) (hrest : Interleaves (ls.modify i List.tail) out) :
      Interleaves ls (x :: out)

/-- The items that come from list number `i`, when `origins` says where each item comes from. -/
def itemsFrom (origins : List Nat) (out : List α) (i : Nat) : List α :=
  ((origins.zip out).filter fun p => p.1 = i).map Prod.snd

@[simp] theorem itemsFrom_nil (out : List α) (i : Nat) : itemsFrom [] out i = [] := rfl

@[simp] theorem itemsFrom_cons (j : Nat) (origins : List Nat) (x : α) (out : List α) (i : Nat) :
    itemsFrom (j :: origins) (x :: out) i =
      if j = i then x :: itemsFrom origins out i else itemsFrom origins out i := by
  by_cases hj : j = i <;> simp [itemsFrom, hj]

/-- Every item of an interleaving can be labelled with the list it comes from, so that the items of
one list stand in their order. -/
theorem Interleaves.exists_origins {ls : List (List α)} {out : List α} (h : Interleaves ls out) :
    ∃ origins : List Nat, origins.length = out.length ∧
      ∀ i, itemsFrom origins out i = ls.getD i [] := by
  induction h with
  | @done ls hempty =>
      refine ⟨[], rfl, fun i => ?_⟩
      rw [itemsFrom_nil, List.getD_eq_getElem?_getD]
      cases hi : ls[i]? with
      | none => rfl
      | some l => exact (hempty l (List.mem_of_getElem? hi)).symm
  | @take ls out j x t hget hrest ih =>
      obtain ⟨origins, hlength, hitems⟩ := ih
      refine ⟨j :: origins, by rw [List.length_cons, List.length_cons, hlength], fun i => ?_⟩
      rw [itemsFrom_cons, hitems, List.getD_eq_getElem?_getD, List.getD_eq_getElem?_getD,
        List.getElem?_modify]
      by_cases hj : j = i
      · subst hj
        simp [hget]
      · simp [hj]

theorem minimalHead_getElem? (total : ∀ x y, le x y || le y x)
    (trans : ∀ x y z, le x y → le y z → le x z) (ls : List (List α)) (i : Nat) (x : α)
    (h : minimalHead le ls 0 none = some (i, x)) : ∃ t, ls[i]? = some (x :: t) := by
  have hrem := minimalHead_remembers total trans [] ls none ⟨by simp, by simp, by simp⟩
  simp only [List.nil_append, List.length_nil, h] at hrem
  exact hrem.position _ rfl

/-- The merge takes heads only. -/
theorem mergeLists_interleaves (total : ∀ x y, le x y || le y x)
    (trans : ∀ x y z, le x y → le y z → le x z) (fuel : Nat) (ls : List (List α)) (out : List α)
    (h : mergeLists le fuel ls = some out) : Interleaves ls out := by
  induction fuel generalizing ls out with
  | zero =>
      cases hmin : minimalHead le ls 0 none with
      | none =>
          rw [mergeLists_of_none 0 hmin, Option.some.injEq] at h
          exact h ▸ Interleaves.done ((minimalHead_eq_none ls 0 none).mp hmin).2
      | some r =>
          rw [mergeLists_zero hmin] at h
          cases h
  | succ fuel ih =>
      cases hmin : minimalHead le ls 0 none with
      | none =>
          rw [mergeLists_of_none _ hmin, Option.some.injEq] at h
          exact h ▸ Interleaves.done ((minimalHead_eq_none ls 0 none).mp hmin).2
      | some r =>
          obtain ⟨i, x⟩ := r
          obtain ⟨t, ht⟩ := minimalHead_getElem? total trans ls i x hmin
          rw [mergeLists_succ fuel hmin, Option.map_eq_some_iff] at h
          obtain ⟨rest, hrest, rfl⟩ := h
          exact Interleaves.take i x t ht (ih _ rest hrest)

end Zrt.Framework
