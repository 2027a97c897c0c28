import Mathlib.Data.List.Basic
import Mathlib.Data.List.MinMax
import Zrt.Framework.GreedyBlocks
import Zrt.MapReduce.Reducer

/-!
# Balance of the reducer dividers

An entry of a histogram weighs as many items as its step. The divider computation merges the entries
of all histograms and cuts the merged list greedily: a divider is the hash with which a block has
the weight of one reducer's share.
-/

namespace Zrt.MapReduce

open Zrt.Framework

variable {H : Type*}

namespace Histogram

/-- The hashes from some index on, each with the step it stands for. -/
def entries (h : Histogram H) : List H → List (H × Nat)
  | [] => []
  | hash :: hashes =>
      (hash, (if hashes.isEmpty then h.stepHistLast else h.stepHistCommon).toNat) :: h.entries hashes

/-- All entries of a histogram. -/
def allEntries (h : Histogram H) : List (H × Nat) := h.entries h.hashes

@[simp] theorem map_fst_entries (h : Histogram H) (hashes : List H) :
    (h.entries hashes).map Prod.fst = hashes := by
  induction hashes with
  | nil => rfl
  | cons hash hashes ih => rw [entries, List.map_cons, ih]

theorem sum_entries (h : Histogram H) (hash : H) (hashes : List H) :
    ((h.entries (hash :: hashes)).map Prod.snd).sum =
      h.stepHistCommon.toNat * hashes.length + h.stepHistLast.toNat := by
  induction hashes generalizing hash with
  | nil => simp [entries]
  | cons next hashes ih =>
      rw [entries, List.map_cons, List.sum_cons, ih]
      simp only [List.isEmpty_cons, Bool.false_eq_true, if_false, List.length_cons]
      rw [Nat.mul_add_one]
      omega

/-- The weight of a histogram. -/
def weight (h : Histogram H) : Nat := (h.allEntries.map Prod.snd).sum

private theorem toNat_itemsCount (h : Histogram H) (hlt : h.weight < 2 ^ 32) :
    h.itemsCount.toNat = h.weight := by
  obtain ⟨common, last, hashes, single⟩ := h
  match hashes with
  | [] => rfl
  | [hash] => simp [itemsCount, weight, allEntries, entries]
  | hash :: next :: hashes =>
      rw [weight, allEntries, sum_entries] at hlt ⊢
      simp only [itemsCount, List.length_cons] at hlt ⊢
      have hcount : (UInt32.ofNat (hashes.length + 1 + 1 - 1)).toNat =
          (hashes.length + 1) % 2 ^ 32 := UInt32.toNat_ofNat'
      rw [if_pos (by omega), UInt32.toNat_add, UInt32.toNat_mul, UInt16.toNat_toUInt32,
        UInt16.toNat_toUInt32, hcount]
      rw [Nat.mul_mod_mod, Nat.mod_add_mod]
      exact Nat.mod_eq_of_lt hlt

end Histogram

/-- The items that all histograms stand for. -/
def totalWeight (histograms : List (Histogram H)) : Nat := (histograms.map Histogram.weight).sum

theorem toNat_calculateItemsCountBasedOnHistograms (histograms : List (Histogram H))
    (hlt : totalWeight histograms < 2 ^ 32) :
    (calculateItemsCountBasedOnHistograms histograms).toNat = totalWeight histograms := by
  have hfold : ∀ (hs : List (Histogram H)) (ret : UInt32), ret.toNat + totalWeight hs < 2 ^ 32 →
      (hs.foldl (fun ret h => ret + h.itemsCount) ret).toNat = ret.toNat + totalWeight hs := by
    intro hs
    induction hs with
    | nil => simp [totalWeight]
    | cons h hs ih =>
        intro ret hret
        simp only [totalWeight, List.map_cons, List.sum_cons] at hret ih ⊢
        have hitems := h.toNat_itemsCount (by omega)
        have hadd : (ret + h.itemsCount).toNat = ret.toNat + h.weight := by
          rw [UInt32.toNat_add, hitems]
          exact Nat.mod_eq_of_lt (by omega)
        rw [List.foldl_cons, ih _ (by omega), hadd, Nat.add_assoc]
  have hzero := hfold histograms 0 (by simpa using hlt)
  simpa [calculateItemsCountBasedOnHistograms] using hzero

/-! ## The loop as a greedy cut -/

/-- Every list holds the entries of its histogram from some index on. -/
def EntriesLeft (histograms : List (Histogram H)) (left : List (List (H × Nat))) : Prop :=
  ∀ i l, left[i]? = some l → l = (histograms.getD i Histogram.empty).entries (l.map Prod.fst)

private theorem entriesLeft_start (histograms : List (Histogram H)) :
    EntriesLeft histograms (histograms.map Histogram.allEntries) := by
  intro i l hl
  rw [List.getElem?_map, Option.map_eq_some_iff] at hl
  obtain ⟨h, hi, rfl⟩ := hl
  rw [List.getD_eq_getElem?_getD, hi, Option.getD_some, Histogram.allEntries,
    Histogram.map_fst_entries]

private theorem EntriesLeft.modify_tail {histograms : List (Histogram H)} {left : List (List (H × Nat))}
    (h : EntriesLeft histograms left) (i : Nat) :
    EntriesLeft histograms (left.modify i List.tail) := by
  intro j l hl
  rw [List.getElem?_modify, Option.map_eq_map, Option.map_eq_some_iff] at hl
  obtain ⟨l', hl', rfl⟩ := hl
  have hentries := h j l' hl'
  split
  · cases l' with
    | nil => rfl
    | cons e l' =>
        rw [List.map_cons, Histogram.entries] at hentries
        exact (List.cons.inj hentries).2
  · exact hentries

private theorem EntriesLeft.step {histograms : List (Histogram H)} {left : List (List (H × Nat))}
    (h : EntriesLeft histograms left) {i : Nat} {hash : H} {w : Nat} {t : List (H × Nat)}
    (hi : left[i]? = some ((hash, w) :: t)) :
    (if 1 < ((left.map (List.map Prod.fst)).getD i []).length then
      (histograms.getD i Histogram.empty).stepHistCommon
    else (histograms.getD i Histogram.empty).stepHistLast).toNat = w := by
  have hentries := h i _ hi
  rw [List.map_cons, Histogram.entries] at hentries
  have hw := congrArg Prod.snd (List.cons.inj hentries).1
  simp only at hw
  rw [List.getD_eq_getElem?_getD, List.getElem?_map, hi, hw]
  cases t with
  | nil => simp
  | cons e t => simp

theorem selectNextHistogramWithMinimalHash_map (c : HashComparator H)
    (left : List (List (H × Nat))) :
    selectNextHistogramWithMinimalHash c (left.map (List.map Prod.fst)) =
      (minimalHead (c.leOn Prod.fst) left 0 none).map (Prod.map id Prod.fst) :=
  minimalHead_map Prod.fst left 0 none

private theorem sum_modify_tail (left : List (List (H × Nat))) (i : Nat) (x : H × Nat)
    (t : List (H × Nat)) (hi : left[i]? = some (x :: t)) :
    (left.flatten.map Prod.snd).sum =
      x.2 + ((left.modify i List.tail).flatten.map Prod.snd).sum := by
  induction left generalizing i with
  | nil => simp at hi
  | cons l left ih =>
      cases i with
      | zero =>
          simp only [List.getElem?_cons_zero, Option.some.injEq] at hi
          subst l
          simp
      | succ i =>
          rw [List.getElem?_cons_succ] at hi
          rw [List.modify_succ_cons, List.flatten_cons, List.flatten_cons, List.map_append,
            List.map_append, List.sum_append, List.sum_append, ih i hi]
          omega

/-- The divider of a block. -/
def lastHash (block : List (H × Nat)) : Option H := block.getLast?.map Prod.fst

theorem dividerLoop_full (c : HashComparator H) (histograms : List (Histogram H))
    (dividersCountMax : Nat) (share : UInt32) (fuel : Nat) (current : List (List H))
    (size : UInt32) (dividers : List H) (hfull : ¬ dividers.length + 1 < dividersCountMax) :
    dividerLoop c histograms dividersCountMax share fuel current size dividers =
      some dividers := by
  cases fuel <;> simp [dividerLoop, hfull]

theorem dividerLoop_exhausted (c : HashComparator H) (histograms : List (Histogram H))
    (dividersCountMax : Nat) (share : UInt32) (fuel : Nat) (current : List (List H))
    (size : UInt32) (dividers : List H)
    (hnone : selectNextHistogramWithMinimalHash c current = none) :
    dividerLoop c histograms dividersCountMax share fuel current size dividers =
      some dividers := by
  cases fuel <;> simp [dividerLoop, hnone]

private theorem dividerLoop_done (c : HashComparator H) (histograms : List (Histogram H))
    (dividersCountMax : Nat) (share : UInt32) (fuel : Nat) (left : List (List (H × Nat)))
    (size : UInt32) (dividers : List H) (n : Nat) (block merged : List (H × Nat))
    (hmin : minimalHead (c.leOn Prod.fst) left 0 none = none)
    (hmerged : mergeLists (c.leOn Prod.fst) fuel left = some merged) :
    dividerLoop c histograms dividersCountMax share fuel (left.map (List.map Prod.fst)) size
        dividers =
      some (dividers ++ (greedyBlocks Prod.snd share.toNat n block merged).filterMap lastHash) := by
  have hselect := selectNextHistogramWithMinimalHash_map c left
  rw [hmin, Option.map_none] at hselect
  rw [mergeLists_of_none fuel hmin, Option.some.injEq] at hmerged
  rw [dividerLoop_exhausted c _ _ _ _ _ _ _ hselect, ← hmerged, greedyBlocks_nil,
    List.filterMap_nil, List.append_nil]

private theorem dividerLoop_entry (c : HashComparator H) {histograms : List (Histogram H)}
    {dividersCountMax : Nat} (share : UInt32) (fuel : Nat) {left : List (List (H × Nat))}
    {size : UInt32} {dividers : List H} {i : Nat} {hash : H} {w : Nat} {t : List (H × Nat)}
    (hroom : dividers.length + 1 < dividersCountMax) (hleft : EntriesLeft histograms left)
    (hmin : minimalHead (c.leOn Prod.fst) left 0 none = some (i, hash, w))
    (ht : left[i]? = some ((hash, w) :: t)) (hweight : size.toNat + w < 2 ^ 32) :
    ∃ size' : UInt32, size'.toNat = size.toNat + w ∧
      dividerLoop c histograms dividersCountMax share (fuel + 1) (left.map (List.map Prod.fst)) size
          dividers =
        if share ≤ size' then
          dividerLoop c histograms dividersCountMax share fuel
            ((left.modify i List.tail).map (List.map Prod.fst)) 0 (dividers ++ [hash])
        else
          dividerLoop c histograms dividersCountMax share fuel
            ((left.modify i List.tail).map (List.map Prod.fst)) size' dividers := by
  have hselect := selectNextHistogramWithMinimalHash_map c left
  rw [hmin, Option.map_some] at hselect
  have hstep := hleft.step ht
  rw [dividerLoop, if_pos hroom, hselect]
  simp only [Prod.map_apply, id_eq, map_modify_tail]
  generalize (if 1 < ((left.map (List.map Prod.fst)).getD i []).length then
    (histograms.getD i Histogram.empty).stepHistCommon
    else (histograms.getD i Histogram.empty).stepHistLast) = step at hstep ⊢
  refine ⟨size + step.toUInt32, ?_, rfl⟩
  rw [UInt32.toNat_add, UInt16.toNat_toUInt32, hstep]
  exact Nat.mod_eq_of_lt (by omega)

private theorem dividerLoop_eq (c : HashComparator H) (histograms : List (Histogram H))
    (dividersCountMax : Nat) (share : UInt32) (fuel : Nat) (left : List (List (H × Nat)))
    (size : UInt32) (dividers : List H) (block merged : List (H × Nat))
    (hleft : EntriesLeft histograms left) (hsize : size.toNat = (block.map Prod.snd).sum)
    (hweight : size.toNat + (left.flatten.map Prod.snd).sum < 2 ^ 32)
    (hmerged : mergeLists (c.leOn Prod.fst) fuel left = some merged) :
    dividerLoop c histograms dividersCountMax share fuel (left.map (List.map Prod.fst)) size
        dividers =
      some (dividers ++ (greedyBlocks Prod.snd share.toNat (dividersCountMax - 1 - dividers.length)
        block merged).filterMap lastHash) := by
  have htotal : ∀ x y : H × Nat, c.leOn Prod.fst x y || c.leOn Prod.fst y x :=
    fun _ _ => c.le_total _ _
  have htrans : ∀ x y z : H × Nat, c.leOn Prod.fst x y → c.leOn Prod.fst y z → c.leOn Prod.fst x z :=
    fun _ _ _ => c.le_trans _ _ _
  induction fuel generalizing left size dividers block merged with
  | zero =>
      cases hmin : minimalHead (c.leOn Prod.fst) left 0 none with
      | none => exact dividerLoop_done c _ _ _ _ _ _ _ _ _ _ hmin hmerged
      | some r =>
          rw [mergeLists_zero hmin] at hmerged
          cases hmerged
  | succ fuel ih =>
      by_cases hroom : dividers.length + 1 < dividersCountMax
      swap
      · have hfull : dividersCountMax - 1 - dividers.length = 0 := by omega
        rw [dividerLoop_full c _ _ _ _ _ _ _ hroom, hfull, greedyBlocks_zero, List.filterMap_nil,
          List.append_nil]
      cases hmin : minimalHead (c.leOn Prod.fst) left 0 none with
      | none => exact dividerLoop_done c _ _ _ _ _ _ _ _ _ _ hmin hmerged
      | some r =>
          obtain ⟨i, hash, w⟩ := r
          rw [mergeLists_succ fuel hmin, Option.map_eq_some_iff] at hmerged
          obtain ⟨rest, hrest, rfl⟩ := hmerged
          obtain ⟨t, ht⟩ := minimalHead_getElem? htotal htrans left i (hash, w) hmin
          have hlighter := sum_modify_tail left i (hash, w) t ht
          simp only at hlighter
          obtain ⟨n, hn⟩ : ∃ n, dividersCountMax - 1 - dividers.length = n + 1 :=
            ⟨dividersCountMax - 1 - dividers.length - 1, by omega⟩
          have hfits : size.toNat + w < 2 ^ 32 := by omega
          obtain ⟨size', hadd, hloop⟩ := dividerLoop_entry c share fuel hroom hleft hmin ht hfits
          have hsize' : size'.toNat = ((block ++ [(hash, w)]).map Prod.snd).sum := by
            simp [hadd, hsize]
          rw [hloop, hn, greedyBlocks]
          by_cases hclosed : share ≤ size'
          · have hgoal := UInt32.le_iff_toNat_le.mp hclosed
            have hlast : lastHash (block ++ [(hash, w)]) = some hash := by
              rw [lastHash, List.getLast?_concat, Option.map_some]
            have hroom' : dividersCountMax - 1 - (dividers ++ [hash]).length = n := by
              rw [List.length_append, List.length_singleton]
              omega
            rw [if_pos hclosed, if_pos (hsize' ▸ hgoal),
              ih _ 0 _ [] rest (hleft.modify_tail i) rfl (by rw [UInt32.toNat_zero]; omega) hrest,
              hroom', List.filterMap_cons_some hlast, List.append_assoc, List.singleton_append]
          · have hgoal : ¬ share.toNat ≤ size'.toNat :=
              fun h => hclosed (UInt32.le_iff_toNat_le.mpr h)
            rw [if_neg hclosed, if_neg (hsize' ▸ hgoal),
              ih _ _ _ _ rest (hleft.modify_tail i) hsize' (by omega) hrest, hn]

/-! ## The dividers -/

/-- The largest step that an entry stands for. -/
def largestStep (histograms : List (Histogram H)) : Nat :=
  ((histograms.flatMap Histogram.allEntries).map Prod.snd).foldr max 0

private theorem le_largestStep (histograms : List (Histogram H)) {e : H × Nat}
    (he : e ∈ histograms.flatMap Histogram.allEntries) : e.2 ≤ largestStep histograms := by
  have hmem := List.mem_map_of_mem (f := Prod.snd) he
  exact List.le_max_of_le hmem (Nat.le_refl _)

/-- The dividers that the loop emits. -/
def emittedDividers (c : HashComparator H) (histograms : List (Histogram H))
    (dividersCountMax : Nat) : Option (List H) :=
  let sizeAllHistogramsData := calculateItemsCountBasedOnHistograms histograms
  let current := histograms.map Histogram.hashes
  dividerLoop c histograms dividersCountMax
    (sizeAllHistogramsData / UInt32.ofNat dividersCountMax) (current.map List.length).sum current 0 []

/-- The emitted dividers close consecutive blocks of the merged entries, each of about the weight of
one share. -/
structure ClosesBlocks (c : HashComparator H) (histograms : List (Histogram H))
    (dividersCountMax : Nat) (emitted : List H) (merged : List (H × Nat))
    (blocks : List (List (H × Nat))) : Prop where
  inOrder : MergedInOrder c Prod.fst (histograms.map Histogram.allEntries) merged
  consecutive : ∃ rest, merged = blocks.flatten ++ rest
  nonempty : ∀ b ∈ blocks, b ≠ []
  dividers : emitted = blocks.filterMap lastHash
  balanced : ∀ b ∈ blocks,
    totalWeight histograms / dividersCountMax ≤ (b.map Prod.snd).sum ∧
      (b.map Prod.snd).sum ≤
        max (totalWeight histograms / dividersCountMax) 1 - 1 + largestStep histograms

/-- As many dividers as reducers in order, the last one maximal, those of the loop balanced. -/
structure BalancedDividers (c : HashComparator H) (maxHash : H) (histograms : List (Histogram H))
    (dividersCountMax : Nat) (dividers : List H) : Prop where
  length : dividers.length = dividersCountMax
  sorted : SortedByHash c id dividers
  last : dividers.getLast? = some maxHash
  emitted : ∃ emitted merged blocks,
    emittedDividers c histograms dividersCountMax = some emitted ∧
    dividers = emitted ++ List.replicate (dividersCountMax - emitted.length) maxHash ∧
    ClosesBlocks c histograms dividersCountMax emitted merged blocks

private theorem Histogram.sorted_allEntries {c : HashComparator H} {h : Histogram H}
    (hsorted : SortedByHash c id h.hashes) : SortedByHash c Prod.fst h.allEntries := by
  have hmap : SortedByHash c id (h.allEntries.map Prod.fst) := by
    rwa [allEntries, map_fst_entries]
  exact List.pairwise_map.mp hmap

private theorem sum_flatten_allEntries (histograms : List (Histogram H)) :
    ((histograms.map Histogram.allEntries).flatten.map Prod.snd).sum = totalWeight histograms := by
  induction histograms with
  | nil => rfl
  | cons h hs ih =>
      rw [List.map_cons, List.flatten_cons, List.map_append, List.sum_append, ih]
      rfl

private theorem emittedDividers_closesBlocks (c : HashComparator H) (histograms : List (Histogram H))
    (hsorted : ∀ h ∈ histograms, SortedByHash c id h.hashes)
    (hweight : totalWeight histograms < 2 ^ 31) (dividersCountMax : Nat) (hpos : 0 < dividersCountMax)
    (hint : dividersCountMax < 2 ^ 31) :
    ∃ emitted merged blocks, emittedDividers c histograms dividersCountMax = some emitted ∧
      emitted.length < dividersCountMax ∧
      ClosesBlocks c histograms dividersCountMax emitted merged blocks := by
  have hentries : ∀ l ∈ histograms.map Histogram.allEntries, SortedByHash c Prod.fst l := by
    intro l hl
    obtain ⟨h, hh, rfl⟩ := List.mem_map.mp hl
    exact Histogram.sorted_allEntries (hsorted h hh)
  obtain ⟨merged, hmerge, hinorder⟩ := mergeBuffersToNew_mergedInOrder c Prod.fst _ hentries
  have htotal := toNat_calculateItemsCountBasedOnHistograms histograms (by omega)
  have hshare : (calculateItemsCountBasedOnHistograms histograms /
      UInt32.ofNat dividersCountMax).toNat = totalWeight histograms / dividersCountMax := by
    rw [UInt32.toNat_div, htotal, UInt32.toNat_ofNat', Nat.mod_eq_of_lt (by omega)]
  have hcurrent : (histograms.map Histogram.allEntries).map (List.map Prod.fst) =
      histograms.map Histogram.hashes := by
    rw [List.map_map]
    exact List.map_congr_left fun h _ => h.map_fst_entries h.hashes
  have hfuel : ((histograms.map Histogram.allEntries).map List.length).sum =
      ((histograms.map Histogram.hashes).map List.length).sum := by
    rw [← hcurrent, List.map_map (f := List.map Prod.fst)]
    congr 1
    exact List.map_congr_left fun l _ => (List.length_map Prod.fst).symm
  rw [mergeBuffersToNew, hfuel] at hmerge
  have hloop := dividerLoop_eq c histograms dividersCountMax
    (calculateItemsCountBasedOnHistograms histograms / UInt32.ofNat dividersCountMax) _ _ 0 [] []
    merged (entriesLeft_start histograms) rfl
    (by rw [UInt32.toNat_zero, sum_flatten_allEntries]; omega) hmerge
  rw [hcurrent, hshare, List.nil_append, List.length_nil, Nat.sub_zero] at hloop
  have hlength := greedyBlocks_length_le Prod.snd (totalWeight histograms / dividersCountMax)
    (dividersCountMax - 1) [] merged
  have hemitted := List.length_filterMap_le lastHash
    (greedyBlocks Prod.snd (totalWeight histograms / dividersCountMax) (dividersCountMax - 1) []
      merged)
  refine ⟨_, merged, _, hloop, by omega, hinorder, ?_, ?_, rfl, ?_⟩
  · exact greedyBlocks_flatten Prod.snd _ (dividersCountMax - 1) [] merged
  · exact greedyBlocks_ne_nil Prod.snd _ (dividersCountMax - 1) [] merged
  · apply greedyBlocks_weight
    · intro e he
      apply le_largestStep
      rw [List.flatMap_def]
      exact hinorder.perm.mem_iff.mp he
    · simp

private theorem ClosesBlocks.sorted {c : HashComparator H} {histograms : List (Histogram H)}
    {dividersCountMax : Nat} {emitted : List H} {merged : List (H × Nat)}
    {blocks : List (List (H × Nat))}
    (h : ClosesBlocks c histograms dividersCountMax emitted merged blocks) :
    SortedByHash c id emitted := by
  obtain ⟨rest, hrest⟩ := h.consecutive
  have hsublist : (blocks.filterMap List.getLast?).Sublist merged := by
    rw [hrest]
    exact (filterMap_getLast?_sublist blocks).trans (List.sublist_append_left _ rest)
  have hemitted : emitted = (blocks.filterMap List.getLast?).map Prod.fst := by
    rw [h.dividers, List.map_filterMap]
    rfl
  rw [hemitted]
  exact List.pairwise_map.mpr (h.inOrder.sorted.sublist hsublist)

/-- The dividers are balanced for sorted histograms of any number and shape. A capacity is an
`int`. -/
theorem getReducersDividerArray_balanced (c : HashComparator H) (maxHash : H)
    (hmax : ∀ hash, c.cmp hash maxHash ≤ 0) (histograms : List (Histogram H))
    (hsorted : ∀ h ∈ histograms, SortedByHash c id h.hashes)
    (hweight : totalWeight histograms < 2 ^ 31) (dividersCountMax : Nat)
    (hpos : 0 < dividersCountMax) (hint : dividersCountMax < 2 ^ 31) :
    ∃ dividers, getReducersDividerArrayBasedOnSummarizedHistograms c maxHash histograms
        dividersCountMax = some dividers ∧
      BalancedDividers c maxHash histograms dividersCountMax dividers := by
  obtain ⟨emitted, merged, blocks, hemitted, hroom, hcloses⟩ := emittedDividers_closesBlocks c
    histograms hsorted hweight dividersCountMax hpos hint
  obtain ⟨k, hk⟩ : ∃ k, dividersCountMax - emitted.length = k + 1 :=
    ⟨dividersCountMax - emitted.length - 1, by omega⟩
  have hresult : getReducersDividerArrayBasedOnSummarizedHistograms c maxHash histograms
      dividersCountMax =
      some (emitted ++ List.replicate (dividersCountMax - emitted.length) maxHash) :=
    congrArg (Option.map fun dividers : List H =>
      dividers ++ List.replicate (dividersCountMax - dividers.length) maxHash) hemitted
  refine ⟨_, hresult, ?_, ?_, ?_, emitted, merged, blocks, hemitted, rfl, hcloses⟩
  · rw [List.length_append, List.length_replicate]
    omega
  · refine List.pairwise_append.mpr ⟨hcloses.sorted, ?_, ?_⟩
    · exact List.pairwise_replicate.mpr (Or.inr (hmax maxHash))
    · intro hash _ last hlast
      rw [List.eq_of_mem_replicate hlast]
      exact hmax hash
  · rw [hk, List.replicate_succ', ← List.append_assoc, List.getLast?_concat]

/-- A histogram of six items with hashes 1, 3 and 7, an empty one and one of four items. -/
def byteHistograms : List (Histogram (Fin 256)) :=
  let hashes := List.map UInt8.toFin
  [⟨2, 2, hashes [1, 3, 7], by decide⟩, Histogram.empty, ⟨4, 4, hashes [5], by decide⟩]

theorem getReducersDividerArray_balanced_bytes :
    ∃ dividers, getReducersDividerArrayBasedOnSummarizedHistograms byteComparator 255
        byteHistograms 3 = some dividers ∧
      BalancedDividers byteComparator 255 byteHistograms 3 dividers :=
  getReducersDividerArray_balanced byteComparator 255 byteComparator_le_max byteHistograms
    (by decide) (by decide) 3 (by decide) (by decide)

end Zrt.MapReduce
