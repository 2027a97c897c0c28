import Mathlib.Data.List.Basic
import Zrt.MapReduce.BalancedDividers

/-!
# What a histogram summarises

Every entry but the last one is the hash of the last item of a full step. The steps are stored in
sixteen bits, which decides for which buffers the entries stand for all items.
-/

namespace Zrt.MapReduce

variable {H I : Type*}

/-- The hashes sampled from the items from index `i` on. -/
structure Samples (keyHash : I → H) (map : List I) (step i : Nat) (stepHistLast : UInt16)
    (sampled : List H) : Prop where
  nonempty : 0 < sampled.length
  count : step * (sampled.length - 1) + stepHistLast.toNat = map.length - i
  lastPos : 0 < stepHistLast.toNat
  lastLe : stepHistLast.toNat ≤ step
  sublist : sampled.Sublist ((map.drop i).map keyHash)
  getLast : sampled.getLast? = (map.map keyHash).getLast?

private theorem toNat_minStep {step rest : Nat} (hfits : step < 65536 ∨ rest < 65536) :
    (UInt16.ofNat (min step rest)).toNat = min step rest := by
  rw [UInt16.toNat_ofNat', Nat.mod_eq_of_lt (by omega)]

private theorem Samples.last {keyHash : I → H} {map : List I} {step i : Nat} {stepHistLast : UInt16}
    {x : I} (hx : map[map.length - 1]? = some x) (hi : i < map.length)
    (hstep : stepHistLast.toNat = map.length - i) (hle : map.length - i ≤ step) :
    Samples keyHash map step i stepHistLast [keyHash x] where
  nonempty := by simp
  count := by simp [hstep]
  lastPos := by omega
  lastLe := by omega
  sublist := by
    rw [List.singleton_sublist]
    apply List.mem_map_of_mem
    apply List.mem_of_getElem? (i := map.length - 1 - i)
    rw [List.getElem?_drop, ← hx]
    congr 1
    omega
  getLast := by
    rw [List.getLast?_map, List.getLast?_eq_getElem? (l := map), hx]
    rfl

private theorem Samples.cons {keyHash : I → H} {map : List I} {step i : Nat} {stepHistLast : UInt16}
    {sampled : List H} {x : I} (hx : map[i + step - 1]? = some x) (hstep : 0 < step)
    (h : Samples keyHash map step (i + step) stepHistLast sampled) :
    Samples keyHash map step i stepHistLast (keyHash x :: sampled) where
  nonempty := by simp
  count := by
    obtain ⟨k, hk⟩ : ∃ k, sampled.length = k + 1 :=
      ⟨sampled.length - 1, by have := h.nonempty; omega⟩
    have hcount := h.count
    have hlast := h.lastPos
    rw [hk, Nat.add_sub_cancel] at hcount
    rw [List.length_cons, hk, Nat.add_sub_cancel, Nat.mul_add_one]
    omega
  lastPos := h.lastPos
  lastLe := h.lastLe
  sublist := by
    have hdrop : map.drop (i + step - 1) = x :: map.drop (i + step) := by
      obtain ⟨hlt, hget⟩ := List.getElem?_eq_some_iff.mp hx
      rw [List.drop_eq_getElem_cons hlt, hget]
      congr 2
      omega
    have hcons := h.sublist.cons_cons (keyHash x)
    rw [← List.map_cons, ← hdrop] at hcons
    exact hcons.trans ((List.drop_sublist_drop_left map (by omega)).map keyHash)
  getLast := by
    obtain ⟨hash, rest, rfl⟩ := List.exists_cons_of_length_pos h.nonempty
    rw [List.getLast?_cons_cons, h.getLast]

theorem histogramLoop_samples (keyHash : I → H) (map : List I) (step fuel i : Nat)
    (hashes : List H) (hstep : 0 < step) (hi : i < map.length) (hfuel : map.length ≤ i + fuel)
    (hfits : step < 65536 ∨ map.length - i < 65536) :
    ∃ stepHistLast sampled, histogramLoop keyHash map step fuel i hashes =
        some (stepHistLast, hashes ++ sampled) ∧
      Samples keyHash map step i stepHistLast sampled := by
  induction fuel generalizing i hashes with
  | zero => omega
  | succ fuel ih =>
      have hval := toNat_minStep hfits
      have hne : UInt16.ofNat (min step (map.length - i)) ≠ 0 := by
        intro hz
        rw [hz, UInt16.toNat_zero] at hval
        omega
      have hlt : i + min step (map.length - i) - 1 < map.length := by omega
      obtain ⟨x, hx⟩ : ∃ x, map[i + min step (map.length - i) - 1]? = some x :=
        ⟨_, List.getElem?_eq_getElem hlt⟩
      simp only [histogramLoop, hne, if_false, hval, hx, Option.map_some, Option.toList_some]
      by_cases hnext : i + min step (map.length - i) < map.length
      · have hmin : min step (map.length - i) = step := by omega
        rw [hmin] at hnext hx ⊢
        obtain ⟨last, sampled, hloop, hsamples⟩ :=
          ih (i + step) (hashes ++ [keyHash x]) hnext (by omega) (by omega)
        refine ⟨last, keyHash x :: sampled, ?_, hsamples.cons hx hstep⟩
        rw [if_pos hnext, hloop, List.append_assoc, List.singleton_append]
      · have hend : i + min step (map.length - i) - 1 = map.length - 1 := by omega
        rw [hend] at hx
        exact ⟨_, [keyHash x], by rw [if_neg hnext],
          Samples.last hx hi (hval.trans (by omega)) (by omega)⟩

/-- What a histogram says of a buffer: a hash for every full or last step, the last of them that of
the last item, and steps that add up to all items. -/
structure Summarises (c : HashComparator H) (keyHash : I → H) (map : List I) (step : Nat)
    (h : Histogram H) : Prop where
  -- the items divided by the step, rounded up
  entries : h.hashes.length = if step = 0 then 1 else (map.length + step - 1) / step
  hashes : h.hashes.Sublist (map.map keyHash)
  sorted : SortedByHash c id h.hashes
  last : h.hashes.getLast? = (map.map keyHash).getLast?
  count : h.stepHistCommon.toNat * (h.hashes.length - 1) + h.stepHistLast.toNat = map.length

/-- The items of a buffer a mapper samples: at least one, sorted. -/
structure SortedBuffer (c : HashComparator H) (keyHash : I → H) where
  items : List I
  nonempty : items ≠ []
  sorted : SortedByHash c keyHash items

theorem getHistogram_zero (keyHash : I → H) (map : List I) (hmap : map ≠ []) :
    getHistogram keyHash map 0 =
      some ⟨UInt16.ofNat map.length, UInt16.ofNat map.length, [keyHash (map.getLast hmap)],
        fun _ => rfl⟩ := by
  simp [getHistogram, hmap]

theorem getHistogram_of_loop (keyHash : I → H) (map : List I) (step : Nat) (hmap : map ≠ [])
    (hstep : step ≠ 0) (last : UInt16) (hashes : List H)
    (hloop : histogramLoop keyHash map step map.length 0 [] = some (last, hashes)) :
    ∃ h, getHistogram keyHash map step = some h ∧
      h.stepHistCommon = UInt16.ofNat (min step map.length) ∧ h.stepHistLast = last ∧
      h.hashes = hashes := by
  simp only [getHistogram, hmap, hstep, dite_false, if_false]
  split
  · rename_i hnone
    rw [hloop] at hnone
    cases hnone
  · rename_i last' hashes' hsome
    rw [hloop, Option.some.injEq, Prod.mk.injEq] at hsome
    exact ⟨_, rfl, rfl, hsome.1.symm, hsome.2.symm⟩

private theorem Samples.entries {keyHash : I → H} {map : List I} {step : Nat} {last : UInt16}
    {sampled : List H} (h : Samples keyHash map step 0 last sampled) :
    sampled.length = (map.length + step - 1) / step := by
  have hcount := h.count
  have hpos := h.nonempty
  have hlast := h.lastPos
  have hle := h.lastLe
  obtain ⟨k, hk⟩ : ∃ k, sampled.length = k + 1 := ⟨sampled.length - 1, by omega⟩
  rw [hk, Nat.add_sub_cancel, Nat.sub_zero] at hcount
  rw [hk, ← hcount]
  symm
  apply Nat.div_eq_of_lt_le
  · rw [Nat.add_one_mul, Nat.mul_comm]
    omega
  · rw [Nat.add_one_mul, Nat.add_one_mul, Nat.mul_comm]
    omega

/-- A step larger than the buffer is stored as the number of items, which serves as well for the one
entry there is. -/
private theorem Samples.count_min {keyHash : I → H} {map : List I} {step : Nat} {last : UInt16}
    {sampled : List H} (h : Samples keyHash map step 0 last sampled) :
    min step map.length * (sampled.length - 1) + last.toNat = map.length := by
  have hcount := h.count
  rw [Nat.sub_zero] at hcount
  by_cases hle : step ≤ map.length
  · rwa [Nat.min_eq_left hle]
  · have hsingle : sampled.length - 1 = 0 := by
      by_contra hmore
      have hmul := Nat.le_mul_of_pos_right step (Nat.pos_of_ne_zero hmore)
      omega
    rw [hsingle, Nat.mul_zero, Nat.zero_add] at hcount ⊢
    exact hcount

theorem getHistogram_summarises_iff (c : HashComparator H) (keyHash : I → H)
    (map : SortedBuffer c keyHash) (step : Nat) :
    (∃ h, getHistogram keyHash map.items step = some h ∧
        Summarises c keyHash map.items step h) ↔
      map.items.length < 65536 ∨ 0 < step ∧ step < 65536 := by
  have hpos := List.length_pos_of_ne_nil map.nonempty
  have hsortedHashes : SortedByHash c id (map.items.map keyHash) :=
    List.pairwise_map.mpr map.sorted
  constructor
  · rintro ⟨h, hget, hsum⟩
    by_contra hlarge
    have hsome := (getHistogram_isSome_iff keyHash map.items step).mp (by rw [hget]; rfl)
    have hzero : step = 0 := by omega
    subst step
    rw [getHistogram_zero keyHash map.items map.nonempty, Option.some.injEq] at hget
    have hcount := hsum.count
    rw [← hget] at hcount
    have hlt := (UInt16.ofNat map.items.length).toNat_lt
    simp only [List.length_singleton, Nat.sub_self, Nat.mul_zero, Nat.zero_add] at hcount
    omega
  · intro hfits
    by_cases hstep : step = 0
    · subst step
      have hlength : (UInt16.ofNat map.items.length).toNat = map.items.length := by
        rw [UInt16.toNat_ofNat', Nat.mod_eq_of_lt (by omega)]
      have hlast : keyHash (map.items.getLast map.nonempty) ∈ map.items.map keyHash :=
        List.mem_map_of_mem (List.getLast_mem map.nonempty)
      refine ⟨_, getHistogram_zero keyHash map.items map.nonempty, rfl, ?_, ?_, ?_, ?_⟩
      · exact List.singleton_sublist.mpr hlast
      · exact List.pairwise_singleton _ _
      · rw [List.getLast?_map, List.getLast?_eq_some_getLast map.nonempty]
        rfl
      · simpa using hlength
    · obtain ⟨last, sampled, hloop, hsamples⟩ := histogramLoop_samples keyHash map.items step
        map.items.length 0 [] (by omega) hpos (by omega) (by omega)
      rw [List.nil_append] at hloop
      obtain ⟨h, hget, hcommon, hlast, hhashes⟩ :=
        getHistogram_of_loop keyHash map.items step map.nonempty hstep last sampled hloop
      have hsublist : sampled.Sublist (map.items.map keyHash) := hsamples.sublist
      refine ⟨h, hget, ?_, ?_, ?_, ?_, ?_⟩
      · rw [hhashes, if_neg hstep, hsamples.entries]
      · rwa [hhashes]
      · rw [hhashes]
        exact hsortedHashes.sublist hsublist
      · rw [hhashes, hsamples.getLast]
      · rw [hcommon, hlast, hhashes, toNat_minStep (by omega), hsamples.count_min]

/-! ## All histograms -/

private theorem Summarises.weight_eq {c : HashComparator H} {keyHash : I → H} {map : SortedBuffer c keyHash}
    {step : Nat} {h : Histogram H} (hsum : Summarises c keyHash map.items step h) :
    h.weight = map.items.length := by
  have hlast := hsum.last
  have hcount := hsum.count
  cases hhashes : h.hashes with
  | nil =>
      rw [hhashes, List.getLast?_nil, eq_comm, List.getLast?_eq_none_iff, List.map_eq_nil_iff]
        at hlast
      exact absurd hlast map.nonempty
  | cons hash hashes =>
      rw [hhashes, List.length_cons, Nat.add_sub_cancel] at hcount
      rw [Histogram.weight, Histogram.allEntries, hhashes, Histogram.sum_entries, hcount]

/-- The buffers sampled with their steps, each summarised, and all their items counted. -/
def HistogramsSummarise (c : HashComparator H) (keyHash : I → H)
    (inputs : List (SortedBuffer c keyHash × Nat)) : Prop :=
  ∃ histograms : List (Histogram H),
    List.Forall₂ (fun (input : SortedBuffer c keyHash × Nat) h =>
      getHistogram keyHash input.1.items input.2 = some h ∧
        Summarises c keyHash input.1.items input.2 h) inputs histograms ∧
    -- the sum is kept in an `uint32_t` and returned as an `int`
    (calculateItemsCountBasedOnHistograms histograms).toInt32.toInt =
      ((inputs.map fun input => input.1.items.length).sum : Nat)

private theorem totalWeight_of_summarised {c : HashComparator H} {keyHash : I → H}
    {inputs : List (SortedBuffer c keyHash × Nat)} {histograms : List (Histogram H)}
    (hall : List.Forall₂ (fun (input : SortedBuffer c keyHash × Nat) h =>
      getHistogram keyHash input.1.items input.2 = some h ∧
        Summarises c keyHash input.1.items input.2 h) inputs histograms) :
    totalWeight histograms = (inputs.map fun input => input.1.items.length).sum := by
  induction hall with
  | nil => rfl
  | @cons input h inputs histograms hhead htail ih =>
      rw [totalWeight, List.map_cons, List.sum_cons, hhead.2.weight_eq, List.map_cons,
        List.sum_cons, ← ih]
      rfl

private theorem exists_forall₂ {A B : Type*} {R : A → B → Prop} {as : List A}
    (h : ∀ a ∈ as, ∃ b, R a b) : ∃ bs, List.Forall₂ R as bs := by
  induction as with
  | nil => exact ⟨[], List.Forall₂.nil⟩
  | cons a as ih =>
      obtain ⟨b, hb⟩ := h a List.mem_cons_self
      obtain ⟨bs, hbs⟩ := ih fun x hx => h x (List.mem_cons_of_mem a hx)
      exact ⟨b :: bs, List.Forall₂.cons hb hbs⟩

private theorem exists_of_forall₂ {A B : Type*} {R : A → B → Prop} {as : List A} {bs : List B}
    (h : List.Forall₂ R as bs) : ∀ a ∈ as, ∃ b, R a b := by
  induction h with
  | nil => simp
  | cons hb htail ih => exact List.forall_mem_cons.mpr ⟨⟨_, hb⟩, ih⟩

private theorem toInt_toInt32_of_lt {n : UInt32} (hlt : n.toNat < 2 ^ 31) :
    n.toInt32.toInt = n.toNat := by
  have hint : n.toInt32.toInt = n.toBitVec.toInt := rfl
  rw [hint, BitVec.toInt_eq_toNat_of_lt]
  · rfl
  · rw [UInt32.toNat_toBitVec]
    omega

/-- The histograms summarise all buffers exactly when no buffer of 65536 items is sampled once or with
such a step, and the items can be counted in an `int`. -/
theorem histogramsSummarise_iff (c : HashComparator H) (keyHash : I → H)
    (inputs : List (SortedBuffer c keyHash × Nat)) :
    HistogramsSummarise c keyHash inputs ↔
      (∀ input ∈ inputs, input.1.items.length < 65536 ∨ 0 < input.2 ∧ input.2 < 65536) ∧
      (inputs.map fun input => input.1.items.length).sum < 2 ^ 31 := by
  constructor
  · rintro ⟨histograms, hall, hcount⟩
    constructor
    · intro input hinput
      rw [← getHistogram_summarises_iff]
      exact exists_of_forall₂ hall input hinput
    · have hlt := (calculateItemsCountBasedOnHistograms histograms).toInt32.toInt_lt
      omega
  · rintro ⟨hfits, hlt⟩
    obtain ⟨histograms, hall⟩ := exists_forall₂ fun input hinput =>
      (getHistogram_summarises_iff c keyHash input.1 input.2).mpr (hfits input hinput)
    have htotal := totalWeight_of_summarised hall
    have hnat := toNat_calculateItemsCountBasedOnHistograms histograms (by omega)
    refine ⟨histograms, hall, ?_⟩
    rw [toInt_toInt32_of_lt (by omega), hnat, htotal]

/-- 65536 items of one hash, sampled once. -/
def equalBytes : SortedBuffer byteComparator (id : Fin 256 → Fin 256) where
  items := List.replicate 65536 (Fin.last 255)
  nonempty := by
    rw [← List.length_pos_iff, List.length_replicate]
    decide
  sorted := List.pairwise_replicate.mpr (Or.inr (by decide))

/-- Both steps are stored as zero. -/
theorem getHistogram_loses_items :
    ¬ HistogramsSummarise byteComparator id [(equalBytes, 0)] := by
  rintro ⟨histograms, hall, -⟩
  obtain ⟨h, hget⟩ := exists_of_forall₂ hall _ List.mem_cons_self
  have hfits := (getHistogram_summarises_iff byteComparator id equalBytes 0).mp ⟨h, hget⟩
  simp only [equalBytes, List.length_replicate] at hfits
  omega

end Zrt.MapReduce
