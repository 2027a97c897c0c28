import Zrt.MapReduce.Combining
import Zrt.MapReduce.SortedDividers

/-!
# The streams of a mapper

A mapper sends one packet per chunk to every reducer. With ascending dividers the packets of all
streams carry the items of its buffers, the last packet of each stream is flagged, and where no buffer
skips a divider a stream carries nothing but the items of its reducer.
-/

namespace Zrt.MapReduce

open Zrt.Framework

variable {H I σ M : Type*} [AddCommMonoid M]

section Baskets

variable {c : HashComparator H} {keyHash : I → H}

private theorem DividerList.basketItems_flatten (ds : DividerList c) (keyHash : I → H) (cur : List I)
    (b : Nat) (xs : List I) : (ds.basketItems keyHash cur b xs).flatten = cur ++ xs := by
  induction xs generalizing cur b with
  | nil => simp [basketItems]
  | cons x xs ih =>
      by_cases hx : ds.reducerOf (keyHash x) ≤ b
      · simp [basketItems, hx, ih]
      · simp [basketItems, hx, ih]

theorem DividerList.allBasketItems_flatten (ds : DividerList c) (keyHash : I → H) (map : List I) :
    (ds.allBasketItems keyHash map).flatten = map := by
  have hempty : ∀ n, (List.replicate n ([] : List I)).flatten = [] := by simp
  rw [allBasketItems, List.flatten_append, ds.basketItems_flatten, hempty, List.append_nil,
    List.nil_append]

theorem DividerList.allBasketItems_sorted (ds : DividerList c) (map : List I)
    (hsorted : SortedByHash c keyHash map) :
    ∀ l ∈ ds.allBasketItems keyHash map, SortedByHash c keyHash l := by
  intro l hl
  have hsub := List.sublist_flatten_of_mem hl
  rw [ds.allBasketItems_flatten] at hsub
  exact List.Pairwise.sublist hsub hsorted

private theorem DividerList.basketItems_placed (ds : DividerList c) (cur : List I) (b : Nat) (xs : List I)
    (hcur : ∀ x ∈ cur, ds.reducerOf (keyHash x) = b)
    (hge : ∀ x ∈ xs, b ≤ ds.reducerOf (keyHash x)) (hsorted : SortedByHash c keyHash xs)
    (hsteps : ds.StepsByOne keyHash b xs) (i : Nat) (l : List I)
    (hl : (ds.basketItems keyHash cur b xs)[i]? = some l) :
    ∀ x ∈ l, ds.reducerOf (keyHash x) = b + i := by
  induction xs generalizing cur b i with
  | nil =>
      cases i with
      | zero =>
          simp only [basketItems, List.getElem?_cons_zero, Option.some.injEq] at hl
          exact hl ▸ hcur
      | succ i => simp [basketItems] at hl
  | cons x xs ih =>
      have hsort := List.pairwise_cons.mp hsorted
      obtain ⟨hstep, hrest⟩ := hsteps
      have hx := hge x (by simp)
      have hmono : ∀ y ∈ xs, ds.reducerOf (keyHash x) ≤ ds.reducerOf (keyHash y) :=
        fun y hy => ds.reducerOf_mono _ _ (hsort.1 y hy)
      by_cases hle : ds.reducerOf (keyHash x) ≤ b
      · have heq : ds.reducerOf (keyHash x) = b := Nat.le_antisymm hle hx
        rw [heq] at hrest hmono
        simp only [basketItems, hle, if_true] at hl
        refine ih (cur ++ [x]) b ?_ hmono hsort.2 hrest i hl
        intro y hy
        rcases List.mem_append.mp hy with hy | hy
        · exact hcur y hy
        · rw [List.mem_singleton.mp hy, heq]
      · have heq : ds.reducerOf (keyHash x) = b + 1 := by omega
        rw [heq] at hrest hmono
        simp only [basketItems, hle, if_false] at hl
        cases i with
        | zero =>
            simp only [List.getElem?_cons_zero, Option.some.injEq] at hl
            exact hl ▸ hcur
        | succ i =>
            have hnext := ih [x] (b + 1) (by simp [heq]) hmono hsort.2 hrest i (by simpa using hl)
            intro y hy
            rw [hnext y hy]
            omega

/-- With two reducers there is no divider to skip. -/
theorem DividerList.stepsByOne_of_two (ds : DividerList c) (htwo : ds.hashes.length = 2) (b : Nat)
    (xs : List I) : ds.StepsByOne keyHash b xs := by
  induction xs generalizing b with
  | nil => trivial
  | cons x xs ih =>
      have hlt := ds.reducerOf_lt (keyHash x)
      exact ⟨by omega, ih _⟩

theorem DividerList.allBasketItems_placed (ds : DividerList c) (map : List I)
    (hsorted : SortedByHash c keyHash map) (hsteps : ds.StepsByOne keyHash 0 map) (r : Nat) :
    ∀ x ∈ (ds.allBasketItems keyHash map).getD r [], ds.reducerOf (keyHash x) = r := by
  intro x hx
  rw [allBasketItems, List.getD_eq_getElem?_getD, List.getElem?_append] at hx
  split at hx
  · rename_i hlt
    rw [List.getElem?_eq_getElem hlt, Option.getD_some] at hx
    have hplaced := ds.basketItems_placed [] 0 map (by simp) (fun _ _ => Nat.zero_le _) hsorted
      hsteps r _ (List.getElem?_eq_getElem hlt) x hx
    rwa [Nat.zero_add] at hplaced
  · rw [List.getElem?_replicate] at hx
    split at hx <;> simp at hx

end Baskets

variable {mif : MapReduceUserIf H I σ} {cl : MapCluster H} {chunk : Nat} {s : σ}
  {stream : List UInt8}

/-- The items that `Map` makes of the chunks of an input. -/
def mapCalls (mif : MapReduceUserIf H I σ) (chunk : Nat) : Nat → σ → List UInt8 → List (List I)
  | 0, _, _ => []
  | fuel + 1, s, stream =>
      let mapped := mif.map s (stream.take chunk) (decide (stream.length < chunk))
      if stream.length < chunk then [mapped.2.1]
      else mapped.2.1 :: mapCalls mif chunk fuel mapped.2.2 (stream.drop chunk)

/-- The buffers a mapper makes of the chunks of its input. -/
def chunkBuffers (mif : MapReduceUserIf H I σ) (chunk : Nat) :
    Nat → σ → List UInt8 → List (List I)
  | 0, _, _ => []
  | fuel + 1, s, stream =>
      let processed := processNext mif chunk s stream
      if stream.length < chunk then [processed.2.1]
      else processed.2.1 :: chunkBuffers mif chunk fuel processed.2.2 (stream.drop chunk)

theorem UserContract.chunkBuffers {weigh : I → M} (h : UserContract mif weigh) (fuel : Nat) (s : σ)
    (stream : List UInt8) :
    (∀ b ∈ chunkBuffers mif chunk fuel s stream,
        SortedByHash mif.comparatorHash mif.keyHash b) ∧
      Condenses mif.keyHash weigh (mapCalls mif chunk fuel s stream).flatten
        (MapReduce.chunkBuffers mif chunk fuel s stream).flatten := by
  induction fuel generalizing s stream with
  | zero => exact ⟨by simp [MapReduce.chunkBuffers], Condenses.refl _⟩
  | succ fuel ih =>
      obtain ⟨hsorted, hcond⟩ := h.localProcessing s (stream.take chunk)
        (decide (stream.length < chunk))
      simp only [MapReduce.chunkBuffers, mapCalls, processNext]
      split
      · exact ⟨by simpa using hsorted, by simpa using hcond⟩
      · obtain ⟨hall, hrest⟩ := ih (mif.map s (stream.take chunk)
          (decide (stream.length < chunk))).2.2 (stream.drop chunk)
        refine ⟨List.forall_mem_cons.mpr ⟨hsorted, hall⟩, ?_⟩
        simp only [List.flatten_cons]
        exact hcond.append hrest

/-- The packets for the reducer number `r`, as it decodes them. -/
def MapRun.streamTo (run : MapRun I) (r : Nat) : List (MapPacket I) :=
  run.iterations.filterMap fun it => it.packets[r]?.map fun p => ⟨p.lastDataFlag, p.items⟩

/-- A stream carries the baskets of its reducer, the last one flagged. -/
structure CarriesBaskets (ds : DividerList mif.comparatorHash) (buffers : List (List I)) (r : Nat)
    (packets : List (MapPacket I)) : Prop where
  items : packets.map MapPacket.items =
    buffers.map fun b => (ds.allBasketItems mif.keyHash b).getD r []
  flagged : FlaggedLast packets

private theorem streamTo_cons {it : Iteration I} {rest : MapRun I} {completed : Bool} {r : Nat}
    {p : ReducePacket I} (h : it.packets[r]? = some p) :
    MapRun.streamTo ⟨it :: rest.iterations, completed⟩ r =
      ⟨p.lastDataFlag, p.items⟩ :: rest.streamTo r := by
  simp [MapRun.streamTo, h]

private theorem FlaggedLast.cons {packets : List (MapPacket I)} (h : FlaggedLast packets) (items : List I) :
    FlaggedLast (⟨false, items⟩ :: packets) := by
  cases packets with
  | nil => exact absurd h (by simp [FlaggedLast])
  | cons q packets => exact ⟨rfl, h⟩

private theorem mapSendToAllReducers_packet (ds : DividerList mif.comparatorHash) (nodes : List Nat)
    (last : Bool) (map : List I) (hn : nodes.length = ds.hashes.length) (r : Nat)
    (hr : r < nodes.length) :
    ∃ packets p, mapSendToAllReducers mif.comparatorHash mif.keyHash ds.hashes nodes last map =
        some packets ∧ packets[r]? = some p ∧ p.lastDataFlag = last ∧
      p.items = (ds.allBasketItems mif.keyHash map).getD r [] := by
  have hlen := ds.allBasketItems_length mif.keyHash map
  have hb : r < (ds.allBasketItems mif.keyHash map).length := by omega
  refine ⟨_, ⟨nodes[r], last, (ds.allBasketItems mif.keyHash map)[r]⟩,
    mapSendToAllReducers_eq ds mif.keyHash nodes last map hn, ?_, rfl, ?_⟩
  · rw [List.getElem?_map, List.getElem?_eq_getElem (by simp; omega), List.getElem_zip]
    rfl
  · rw [List.getD_eq_getElem?_getD, List.getElem?_eq_getElem hb, Option.getD_some]

theorem mapNodeLoop_streamTo (ds : DividerList mif.comparatorHash)
    (hn : cl.reduceNodesList.length = ds.hashes.length) (hchunk : 0 < chunk) (fuel pos : Nat)
    (hfuel : stream.length < fuel) (hmod : stream.length % chunk ≠ 0) (r : Nat)
    (hr : r < cl.reduceNodesList.length) :
    CarriesBaskets ds (chunkBuffers mif chunk fuel s stream) r
      ((mapNodeLoop mif cl chunk fuel s stream pos ds.hashes).streamTo r) := by
  induction fuel generalizing s stream pos with
  | zero => omega
  | succ fuel ih =>
      have hne : stream ≠ [] := by
        rintro rfl
        simp at hmod
      have htake : stream.take chunk ≠ [] := by
        simp only [ne_eq, List.take_eq_nil_iff, not_or]
        exact ⟨by omega, hne⟩
      have hds : ds.hashes.isEmpty = false := by simpa using ds.ne_nil
      obtain ⟨packets, p, hsend, hp, hflag, hitems⟩ := mapSendToAllReducers_packet ds
        cl.reduceNodesList (decide (stream.length < chunk)) (processNext mif chunk s stream).2.1 hn
        r hr
      have hchunkSent : sendChunk mif cl ds.hashes (decide (stream.length < chunk))
          (processNext mif chunk s stream).2.1 = some (ds.hashes, packets) := by
        simp [sendChunk, hds, hsend]
      rw [mapNodeLoop_succ _ _ _ htake, hchunkSent, chunkBuffers]
      by_cases hlt : stream.length < chunk
      · simp only [hlt, if_true]
        rw [decide_eq_true hlt] at hflag
        refine ⟨?_, ?_⟩
        · simp [MapRun.streamTo, hp, hitems]
        · simp [MapRun.streamTo, hp, hflag, FlaggedLast]
      · simp only [hlt, if_false]
        rw [decide_eq_false hlt] at hflag
        have hpos := List.length_pos_of_ne_nil hne
        have hfewer : (stream.drop chunk).length < fuel := by
          rw [List.length_drop]
          omega
        have hends : (stream.drop chunk).length % chunk ≠ 0 := by
          rwa [List.length_drop, ← Nat.mod_eq_sub_mod (by omega)]
        have hrest := ih (s := (processNext mif chunk s stream).2.2)
          (processNext mif chunk s stream).1 hfewer hends
        rw [streamTo_cons hp, hflag]
        refine ⟨?_, hrest.flagged.cons _⟩
        simp only [List.map_cons, hrest.items, hitems]

/-- The first chunk yields the dividers, which then serve for all chunks. -/
theorem mapNodeLoop_dividers {ds : List H} (hds : ds ≠ []) (fuel pos : Nat)
    (hcreate : mapCreateHistogramSendEachToOtherCreateDividersList mif cl
      (processNext mif chunk s stream).2.1 = some ds) (htake : stream.take chunk ≠ []) :
    mapNodeLoop mif cl chunk fuel s stream pos [] = mapNodeLoop mif cl chunk fuel s stream pos ds := by
  cases fuel with
  | zero => rfl
  | succ fuel =>
      have hne : ds.isEmpty = false := by simpa using hds
      rw [mapNodeLoop_succ _ _ _ htake, mapNodeLoop_succ _ _ _ htake]
      simp only [sendChunk, List.isEmpty_nil, if_true, hcreate, hne, Bool.false_eq_true, if_false]

end Zrt.MapReduce
