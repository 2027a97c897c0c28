import Zrt.MapReduce.Histograms

/-!
# Dividers in ascending order

Whatever the histograms weigh, the dividers computed from sorted ones ascend. They form the list that
a buffer is distributed by.
-/

namespace Zrt.MapReduce

open Zrt.Framework

variable {H I : Type*}

private theorem getHistogram_sublist (keyHash : I → H) (map : List I) (step : Nat) (hstep : step < 65536)
    (h : Histogram H) (hget : getHistogram keyHash map step = some h) :
    h.hashes.Sublist (map.map keyHash) := by
  by_cases hmap : map = []
  · subst map
    simp only [getHistogram, dite_true, Option.some.injEq] at hget
    subst h
    exact List.Sublist.slnil
  · by_cases hzero : step = 0
    · subst step
      rw [getHistogram_zero keyHash map hmap, Option.some.injEq] at hget
      subst h
      exact List.singleton_sublist.mpr (List.mem_map_of_mem (List.getLast_mem hmap))
    · obtain ⟨last, sampled, hloop, hsamples⟩ := histogramLoop_samples keyHash map step map.length 0
        [] (by omega) (List.length_pos_of_ne_nil hmap) (by omega) (.inl hstep)
      rw [List.nil_append] at hloop
      obtain ⟨h', hget', -, -, hhashes⟩ :=
        getHistogram_of_loop keyHash map step hmap hzero last sampled hloop
      rw [hget, Option.some.injEq] at hget'
      subst h'
      rw [hhashes]
      exact hsamples.sublist

theorem getHistogram_sorted (c : HashComparator H) (keyHash : I → H) (map : List I)
    (hmap : SortedByHash c keyHash map) (step : Nat) (hstep : step < 65536) (h : Histogram H)
    (hget : getHistogram keyHash map step = some h) : SortedByHash c id h.hashes := by
  have hhashes : SortedByHash c id (map.map keyHash) := List.pairwise_map.mpr hmap
  exact hhashes.sublist (getHistogram_sublist keyHash map step hstep h hget)

/-- The dividers found so far ascend, up to the hashes that are left. -/
structure Ascending (c : HashComparator H) (current : List (List H)) (dividers : List H) : Prop where
  sorted : dividers.Pairwise fun a b => c.le a b
  left : ∀ l ∈ current, l.Pairwise fun a b => c.le a b
  below : ∀ d ∈ dividers, ∀ x ∈ current.flatten, c.le d x

section

variable {c : HashComparator H} {current : List (List H)} {dividers : List H} {i : Nat} {hash : H}

theorem Ascending.skip (h : Ascending c current dividers)
    (hsel : selectNextHistogramWithMinimalHash c current = some (i, hash)) :
    Ascending c (current.modify i List.tail) dividers := by
  obtain ⟨⟨pre, t, post, hls, hmod⟩, -⟩ :=
    minimalHead_split c.le_total c.le_trans current i hash hsel
  have hleft := h.left
  rw [hls] at hleft
  refine ⟨h.sorted, ?_, ?_⟩
  · rw [hmod]
    exact sorted_tail pre post hash t hleft
  · intro d hd x hx
    apply h.below d hd x
    rw [hmod] at hx
    rw [hls]
    simp only [List.flatten_append, List.flatten_cons, List.mem_append, List.mem_cons] at hx ⊢
    tauto

private theorem Ascending.take (h : Ascending c current dividers)
    (hsel : selectNextHistogramWithMinimalHash c current = some (i, hash)) :
    Ascending c (current.modify i List.tail) (dividers ++ [hash]) := by
  have hskip := h.skip hsel
  obtain ⟨⟨pre, t, post, hls, hmod⟩, hleast⟩ :=
    minimalHead_split c.le_total c.le_trans current i hash hsel
  have hleft := h.left
  rw [hls] at hleft hleast
  have hhash : ∀ x ∈ (current.modify i List.tail).flatten, c.le hash x := by
    intro x hx
    rw [hmod] at hx
    exact head_le_of_mem c.le_trans pre post hash t hleast hleft x hx
  refine ⟨?_, hskip.left, ?_⟩
  · refine List.pairwise_append.mpr ⟨h.sorted, List.pairwise_singleton _ _, ?_⟩
    intro d hd y hy
    rw [List.mem_singleton.mp hy]
    exact h.below d hd hash (by simp [hls])
  · intro d hd x hx
    rcases List.mem_append.mp hd with hd | hd
    · exact hskip.below d hd x hx
    · rw [List.mem_singleton.mp hd]
      exact hhash x hx

end

private theorem dividerLoop_sorted (c : HashComparator H) (histograms : List (Histogram H))
    (dividersCountMax : Nat) (block : UInt32) (fuel : Nat) (current : List (List H))
    (size : UInt32) (dividers ds : List H) (h : Ascending c current dividers)
    (hloop : dividerLoop c histograms dividersCountMax block fuel current size dividers = some ds) :
    ds.Pairwise fun a b => c.le a b := by
  induction fuel generalizing current size dividers with
  | zero =>
      by_cases hmore : dividers.length + 1 < dividersCountMax
      · cases hsel : selectNextHistogramWithMinimalHash c current with
        | none =>
            rw [dividerLoop_exhausted c _ _ _ _ _ _ _ hsel, Option.some.injEq] at hloop
            exact hloop ▸ h.sorted
        | some r => simp [dividerLoop, hmore, hsel] at hloop
      · rw [dividerLoop_full c _ _ _ _ _ _ _ hmore, Option.some.injEq] at hloop
        exact hloop ▸ h.sorted
  | succ fuel ih =>
      by_cases hmore : dividers.length + 1 < dividersCountMax
      · cases hsel : selectNextHistogramWithMinimalHash c current with
        | none =>
            rw [dividerLoop_exhausted c _ _ _ _ _ _ _ hsel, Option.some.injEq] at hloop
            exact hloop ▸ h.sorted
        | some r =>
            obtain ⟨i, hash⟩ := r
            rw [dividerLoop, if_pos hmore, hsel] at hloop
            simp only at hloop
            generalize size + UInt16.toUInt32 _ = blockSize at hloop
            split at hloop
            · exact ih _ _ _ (h.take hsel) hloop
            · exact ih _ _ _ (h.skip hsel) hloop
      · rw [dividerLoop_full c _ _ _ _ _ _ _ hmore, Option.some.injEq] at hloop
        exact hloop ▸ h.sorted

theorem exists_dividerList (c : HashComparator H) (maxHash : H)
    (hmax : ∀ hash, c.cmp hash maxHash ≤ 0) (histograms : List (Histogram H))
    (hsorted : ∀ h ∈ histograms, SortedByHash c id h.hashes) (dividersCountMax : Nat)
    (hpos : 0 < dividersCountMax) :
    ∃ ds : DividerList c, ds.hashes.length = dividersCountMax ∧
      getReducersDividerArrayBasedOnSummarizedHistograms c maxHash histograms dividersCountMax =
        some ds.hashes := by
  obtain ⟨lower, hds, hlen⟩ := getReducersDividerArrayBasedOnSummarizedHistograms_eq c maxHash
    histograms dividersCountMax hpos
  have hstart : Ascending c (histograms.map Histogram.hashes) [] := by
    refine ⟨List.Pairwise.nil, ?_, by simp⟩
    intro l hl
    obtain ⟨h, hh, rfl⟩ := List.mem_map.mp hl
    exact (sortedByHash_iff c id h.hashes).mp (hsorted h hh)
  have hresult := hds
  simp only [getReducersDividerArrayBasedOnSummarizedHistograms, Option.map_eq_some_iff] at hresult
  obtain ⟨found, hloop, hfound⟩ := hresult
  have hascend := dividerLoop_sorted c histograms dividersCountMax _ _ _ _ _ found hstart hloop
  have hordered : (lower ++ [maxHash]).Pairwise fun a b => c.cmp a b ≤ 0 := by
    rw [← hfound]
    refine List.pairwise_append.mpr ⟨hascend.imp fun hle => of_decide_eq_true hle, ?_, ?_⟩
    · exact List.pairwise_replicate.mpr (Or.inr (hmax maxHash))
    · intro d _ m hm
      rw [List.eq_of_mem_replicate hm]
      exact hmax d
  refine ⟨⟨lower ++ [maxHash], by simp, hordered, by simpa using hmax⟩, by simpa using hlen, hds⟩

end Zrt.MapReduce
