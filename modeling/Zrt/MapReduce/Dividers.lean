import Mathlib.Data.List.Basic
import Zrt.Framework.KWayMerge
import Zrt.MapReduce.Baskets

/-!
# Histograms and reducer dividers

A mapper samples the hashes of its first sorted buffer into a histogram. From the histograms of all
mappers it then picks the hashes at which the items are cut into equal shares, one share for each
reducer.
-/

namespace Zrt.MapReduce

open Zrt.Framework

variable {H I : Type*}

/-- Items a buffer allocated by `AllocBuffer` has room for. -/
def allocBufferCount (granularity : Nat) : Nat := if granularity = 0 then 1 else granularity

/-- Every entry stands for `step_hist_common` items, the last one for `step_hist_last`. The two agree
for a single entry, as the divider computation asserts. The spare room of the hash buffer and the
unused `src_nodeid` are not part of the value. -/
structure Histogram (H : Type*) where
  stepHistCommon : UInt16
  stepHistLast : UInt16
  hashes : List H
  single : hashes.length = 1 → stepHistLast = stepHistCommon

namespace Histogram

/-- The slot of a histogram nothing was stored in yet. -/
def empty : Histogram H := ⟨0, 0, [], by simp⟩

/-- The items a histogram stands for, in the arithmetic of `uint32_t`. -/
def itemsCount (h : Histogram H) : UInt32 :=
  if 1 < h.hashes.length then
    h.stepHistCommon.toUInt32 * UInt32.ofNat (h.hashes.length - 1) + h.stepHistLast.toUInt32
  else if h.hashes.length = 1 then h.stepHistLast.toUInt32
  else 0

end Histogram

/-- The sampling loop after `i` items. The step just taken is stored in sixteen bits: when they are
all zero the source reads before the buffer or samples the same item for ever. -/
def histogramLoop (keyHash : I → H) (map : List I) (step : Nat) :
    Nat → Nat → List H → Option (UInt16 × List H)
  | 0, _, _ => none
  | fuel + 1, i, hashes =>
      let stepHistLast := UInt16.ofNat (min step (map.length - i))
      if stepHistLast = 0 then none
      else
        let next := i + stepHistLast.toNat
        let sampled := hashes ++ (map[next - 1]?.map keyHash).toList
        if next < map.length then histogramLoop keyHash map step fuel next sampled
        else some (stepHistLast, sampled)

private theorem sample_bounds (map : List I) (i step : Nat) (hi : i < map.length)
    (hlast : UInt16.ofNat (min step (map.length - i)) ≠ 0) :
    0 < (UInt16.ofNat (min step (map.length - i))).toNat ∧
      i + (UInt16.ofNat (min step (map.length - i))).toNat ≤ map.length := by
  have hne : (UInt16.ofNat (min step (map.length - i))).toNat ≠ 0 := by
    intro hz
    exact hlast (UInt16.toNat_inj.mp hz)
  have hval : (UInt16.ofNat (min step (map.length - i))).toNat =
      min step (map.length - i) % 65536 := UInt16.toNat_ofNat'
  have hle := Nat.mod_le (min step (map.length - i)) 65536
  omega

private theorem histogramLoop_length (keyHash : I → H) (map : List I) (step fuel i : Nat)
    (hashes out : List H) (last : UInt16) (hi : i < map.length)
    (h : histogramLoop keyHash map step fuel i hashes = some (last, out)) :
    hashes.length < out.length := by
  induction fuel generalizing i hashes with
  | zero => simp [histogramLoop] at h
  | succ fuel ih =>
      simp only [histogramLoop] at h
      split at h
      · cases h
      · rename_i hlast
        obtain ⟨hpos, hle⟩ := sample_bounds map i step hi hlast
        have hget : ∀ j, i < j → j ≤ map.length →
            (hashes ++ (map[j - 1]?.map keyHash).toList).length = hashes.length + 1 := by
          intro j hj hj'
          have hlt : j - 1 < map.length := by omega
          simp [hlt]
        split at h
        · rename_i hnext
          have hrec := ih _ _ hnext h
          rw [hget _ (by omega) (by omega)] at hrec
          omega
        · simp only [Option.some.injEq, Prod.mk.injEq] at h
          rw [← h.2, hget _ (by omega) hle]
          omega

private theorem histogramLoop_single (keyHash : I → H) (map : List I) (step fuel : Nat) (out : List H)
    (last : UInt16) (hmap : map ≠ [])
    (h : histogramLoop keyHash map step fuel 0 [] = some (last, out)) (hone : out.length = 1) :
    last = UInt16.ofNat (min step map.length) := by
  have hpos := List.length_pos_of_ne_nil hmap
  cases fuel with
  | zero => simp [histogramLoop] at h
  | succ fuel =>
      simp only [histogramLoop, Nat.sub_zero] at h
      split at h
      · cases h
      · rename_i hlast
        obtain ⟨hnz, hle⟩ := sample_bounds map 0 step hpos hlast
        simp only [Nat.sub_zero, Nat.zero_add] at hnz hle
        split at h
        · rename_i hnext
          have hlen := histogramLoop_length keyHash map step fuel _ _ out last hnext h
          have hlt : (UInt16.ofNat (min step map.length)).toNat - 1 < map.length := by omega
          simp only [Nat.zero_add, List.nil_append, List.getElem?_eq_getElem hlt, Option.map_some,
            Option.toList_some, List.length_singleton, hone] at hlen
          omega
        · simp only [Option.some.injEq, Prod.mk.injEq] at h
          exact h.1.symm

/-- Sample every `step`-th hash of a sorted buffer, and the last one. -/
def getHistogram (keyHash : I → H) (map : List I) (step : Nat) : Option (Histogram H) :=
  if hmap : map = [] then some Histogram.empty
  else if step = 0 then
    some ⟨UInt16.ofNat map.length, UInt16.ofNat map.length, [keyHash (map.getLast hmap)],
      fun _ => rfl⟩
  else
    match h : histogramLoop keyHash map step map.length 0 [] with
    | none => none
    | some (stepHistLast, hashes) =>
        some ⟨UInt16.ofNat (min step map.length), stepHistLast, hashes,
          histogramLoop_single keyHash map step _ hashes stepHistLast hmap h⟩

private theorem histogramLoop_isSome (keyHash : I → H) (map : List I) (step fuel i : Nat)
    (hashes : List H) (hstep : 0 < step) (hi : i < map.length) (hfuel : map.length ≤ i + fuel)
    (hfits : step < 65536 ∨ map.length - i < 65536) :
    (histogramLoop keyHash map step fuel i hashes).isSome = true := by
  induction fuel generalizing i hashes with
  | zero => omega
  | succ fuel ih =>
      have hval : (UInt16.ofNat (min step (map.length - i))).toNat = min step (map.length - i) := by
        have hmod : (UInt16.ofNat (min step (map.length - i))).toNat =
            min step (map.length - i) % 65536 := UInt16.toNat_ofNat'
        rw [hmod, Nat.mod_eq_of_lt (by omega)]
      have hne : UInt16.ofNat (min step (map.length - i)) ≠ 0 := by
        intro hz
        rw [hz] at hval
        have hzero : (0 : UInt16).toNat = 0 := rfl
        omega
      simp only [histogramLoop, hne, if_false, hval]
      split
      · rename_i hnext
        exact ih _ _ hnext (by omega) (by omega)
      · rfl

private theorem histogramLoop_stuck (keyHash : I → H) (map : List I) (step fuel i : Nat) (hashes : List H)
    (hstep : 65536 ≤ step) (hi : i + 65536 ≤ map.length) :
    histogramLoop keyHash map step fuel i hashes = none := by
  induction fuel generalizing i hashes with
  | zero => rfl
  | succ fuel ih =>
      have hval : (UInt16.ofNat (min step (map.length - i))).toNat =
          min step (map.length - i) % 65536 := UInt16.toNat_ofNat'
      simp only [histogramLoop]
      split
      · rfl
      · have hnext : i + (UInt16.ofNat (min step (map.length - i))).toNat + 65536 ≤
            map.length := by
          rw [hval]
          omega
        rw [if_pos (by omega)]
        exact ih _ _ hnext

theorem getHistogram_isSome_iff (keyHash : I → H) (map : List I) (step : Nat) :
    (getHistogram keyHash map step).isSome = true ↔ step < 65536 ∨ map.length < 65536 := by
  by_cases hmap : map = []
  · simp [getHistogram, hmap]
  · have hpos := List.length_pos_of_ne_nil hmap
    by_cases hstep : step = 0
    · simp [getHistogram, hmap, hstep]
    · have hloop : (getHistogram keyHash map step).isSome =
          (histogramLoop keyHash map step map.length 0 []).isSome := by
        simp only [getHistogram, hmap, hstep, dite_false, if_false]
        split
        · rename_i h
          exact (congrArg Option.isSome h).symm
        · rename_i h
          exact (congrArg Option.isSome h).symm
      rw [hloop]
      constructor
      · intro hsome
        by_contra hlarge
        have hnone := histogramLoop_stuck keyHash map step map.length 0 [] (by omega) (by omega)
        simp [hnone] at hsome
      · intro hfits
        exact histogramLoop_isSome keyHash map step map.length 0 [] (by omega) hpos (by omega)
          (by omega)

def calculateItemsCountBasedOnHistograms (histograms : List (Histogram H)) : UInt32 :=
  histograms.foldl (fun ret h => ret + h.itemsCount) 0

/-- `HASH_CMP` as a test. -/
def HashComparator.le (c : HashComparator H) (a b : H) : Bool := c.cmp a b ≤ 0

/-- The histogram whose current hash is minimal, the last one of them. Instead of an index into each
histogram the hashes from that index on are kept. -/
def selectNextHistogramWithMinimalHash (c : HashComparator H) (current : List (List H)) :
    Option (Nat × H) :=
  minimalHead c.le current 0 none

/-- The loop over the hashes of all histograms in ascending order. An entry that is not the last of
its histogram adds the common step to the current block. -/
def dividerLoop (c : HashComparator H) (histograms : List (Histogram H)) (dividersCountMax : Nat)
    (genericDividerBlockSize : UInt32) :
    Nat → List (List H) → UInt32 → List H → Option (List H)
  | fuel, current, currentDividerBlockSize, dividers =>
      if dividers.length + 1 < dividersCountMax then
        match selectNextHistogramWithMinimalHash c current with
        | none => some dividers
        | some (i, hash) =>
            match fuel with
            | 0 => none
            | fuel + 1 =>
                let histogram := histograms.getD i Histogram.empty
                let step :=
                  if 1 < (current.getD i []).length then histogram.stepHistCommon
                  else histogram.stepHistLast
                let size := currentDividerBlockSize + step.toUInt32
                if genericDividerBlockSize ≤ size then
                  dividerLoop c histograms dividersCountMax genericDividerBlockSize fuel
                    (current.modify i List.tail) 0 (dividers ++ [hash])
                else
                  dividerLoop c histograms dividersCountMax genericDividerBlockSize fuel
                    (current.modify i List.tail) size dividers
      else some dividers

/-- The dividers, filled up with the maximal hash. There is an iteration for each entry of the
histograms at most. -/
def getReducersDividerArrayBasedOnSummarizedHistograms (c : HashComparator H) (maxHash : H)
    (histograms : List (Histogram H)) (dividersCountMax : Nat) : Option (List H) :=
  let sizeAllHistogramsData := calculateItemsCountBasedOnHistograms histograms
  let genericDividerBlockSize := sizeAllHistogramsData / UInt32.ofNat dividersCountMax
  let current := histograms.map Histogram.hashes
  (dividerLoop c histograms dividersCountMax genericDividerBlockSize (current.map List.length).sum
    current 0 []).map fun dividers =>
      dividers ++ List.replicate (dividersCountMax - dividers.length) maxHash

theorem HashComparator.le_total (c : HashComparator H) (a b : H) : c.le a b || c.le b a := by
  simpa [HashComparator.le] using c.total a b

theorem HashComparator.le_trans (c : HashComparator H) (a b d : H) (hab : c.le a b)
    (hbd : c.le b d) : c.le a d := by
  simp only [HashComparator.le, decide_eq_true_eq] at hab hbd ⊢
  exact c.trans a b d hab hbd

private theorem dividerLoop_eq_some (c : HashComparator H) (histograms : List (Histogram H))
    (dividersCountMax : Nat) (block : UInt32) (fuel : Nat) (current : List (List H))
    (size : UInt32) (dividers : List H) (hfuel : (current.map List.length).sum ≤ fuel)
    (hroom : dividers.length < dividersCountMax) :
    ∃ ds, dividerLoop c histograms dividersCountMax block fuel current size dividers = some ds ∧
      ds.length < dividersCountMax := by
  induction fuel generalizing current size dividers with
  | zero =>
      have hnone : selectNextHistogramWithMinimalHash c current = none :=
        minimalHead_of_length_zero current (by omega)
      exact ⟨dividers, by simp [dividerLoop, hnone], hroom⟩
  | succ fuel ih =>
      rw [dividerLoop]
      by_cases hmore : dividers.length + 1 < dividersCountMax
      · cases hsel : selectNextHistogramWithMinimalHash c current with
        | none => exact ⟨dividers, by simp [hmore], hroom⟩
        | some r =>
            obtain ⟨i, hash⟩ := r
            have hlength := minimalHead_rest_length c.le_total c.le_trans current i hash hsel
            have hrest : ((current.modify i List.tail).map List.length).sum ≤ fuel := by omega
            simp only [hmore, if_true]
            generalize size + UInt16.toUInt32 _ = blockSize
            split
            · exact ih _ _ _ hrest (by simp only [List.length_append, List.length_singleton]; omega)
            · exact ih _ _ _ hrest hroom
      · exact ⟨dividers, by simp [hmore], hroom⟩

/-- The computation returns as many dividers as there are reducers, the last one maximal. -/
theorem getReducersDividerArrayBasedOnSummarizedHistograms_eq (c : HashComparator H) (maxHash : H)
    (histograms : List (Histogram H)) (dividersCountMax : Nat) (hmax : 0 < dividersCountMax) :
    ∃ ds, getReducersDividerArrayBasedOnSummarizedHistograms c maxHash histograms
        dividersCountMax = some (ds ++ [maxHash]) ∧ ds.length + 1 = dividersCountMax := by
  obtain ⟨ds, hds, hlen⟩ := dividerLoop_eq_some c histograms dividersCountMax
    (calculateItemsCountBasedOnHistograms histograms / UInt32.ofNat dividersCountMax)
    ((histograms.map Histogram.hashes).map List.length).sum (histograms.map Histogram.hashes) 0 []
    (Nat.le_refl _) hmax
  obtain ⟨k, hk⟩ : ∃ k, dividersCountMax - ds.length = k + 1 := ⟨dividersCountMax - ds.length - 1,
    by omega⟩
  refine ⟨ds ++ List.replicate k maxHash, ?_, ?_⟩
  · simp only [getReducersDividerArrayBasedOnSummarizedHistograms, hds, Option.map_some, hk,
      List.replicate_succ', List.append_assoc]
  · simp only [List.length_append, List.length_replicate]
    omega

end Zrt.MapReduce
