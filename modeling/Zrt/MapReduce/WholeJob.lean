import Zrt.MapReduce.EachToOther
import Zrt.MapReduce.MapStreams

/-!
# A whole job

Mappers that read their inputs, exchange histograms and send their buffers, and reducers that collect
what the mappers send. The histograms go over the network of the exchange, in any order of its steps.
-/

namespace Zrt.MapReduce

open Zrt.Framework

/-- The user's functions and the reduce nodes, with the data `Map` starts with and the input of each
of `n` mappers. -/
structure Job (H I σ : Type*) (n : Nat) where
  mif : MapReduceUserIf H I σ
  reduceNodesList : List Nat
  reducers : reduceNodesList ≠ []
  splitInputSize : Nat
  start : Fin n → σ
  input : Fin n → List UInt8

namespace Job

variable {H I σ M : Type*} [AddCommMonoid M] {n : Nat}

/-- The first buffer of a mapper, and the step of the histogram it makes of it. -/
def firstBuffer (job : Job H I σ n) (k : Fin n) : List I :=
  (processNext job.mif job.splitInputSize (job.start k) (job.input k)).2.1

def firstStep (job : Job H I σ n) (k : Fin n) : Nat := (job.firstBuffer k).length / n / 100

def histogram (job : Job H I σ n) (k : Fin n) : Histogram H :=
  (getHistogram job.mif.keyHash (job.firstBuffer k) (job.firstStep k)).getD Histogram.empty

/-- What a mapper sees of the cluster once the exchange has ended in `net`. -/
def cluster (job : Job H I σ n) (net : Network (Fin n) (Mapper H) (Histogram H)) (k : Fin n) :
    MapCluster H where
  ownnodeid := mapNodesList k
  mapNodesCount := n
  reduceNodesList := job.reduceNodesList
  reducers := job.reducers
  received := (net.data k).histogramsList

def mapRun (job : Job H I σ n) (net : Network (Fin n) (Mapper H) (Histogram H)) (k : Fin n) :
    MapRun I :=
  mapNodeMain job.mif (job.cluster net k) job.splitInputSize ((job.input k).length + 1)
    (job.start k) (job.input k)

/-- The packets that the reducer number `r` reads, mapper by mapper. -/
def streams (job : Job H I σ n) (net : Network (Fin n) (Mapper H) (Histogram H)) (r : Nat) :
    List (List (MapPacket I)) :=
  (List.finRange n).map fun k => (job.mapRun net k).streamTo r

/-- The reducer number `r`. It needs a round for every packet at most. -/
def reduce (job : Job H I σ n) (net : Network (Fin n) (Mapper H) (Histogram H)) (r : Nat) :
    Option (List (MapNode I) × List I) :=
  reduceNodeMain job.mif.comparatorHash job.mif.keyHash job.mif.combine
    (((job.streams net r).map List.length).sum + 1) (startNodes (job.streams net r))

/-- The items that `Map` made in mapper `k`. -/
def mapped (job : Job H I σ n) (k : Fin n) : List I :=
  (mapCalls job.mif job.splitInputSize ((job.input k).length + 1) (job.start k) (job.input k)).flatten

def buffers (job : Job H I σ n) (k : Fin n) : List (List I) :=
  chunkBuffers job.mif job.splitInputSize ((job.input k).length + 1) (job.start k) (job.input k)

/-- The dividers of the histograms of all mappers. -/
def dividers (job : Job H I σ n) : Option (List H) :=
  getReducersDividerArrayBasedOnSummarizedHistograms job.mif.comparatorHash job.mif.maxHash
    (List.ofFn job.histogram) (allocBufferCount job.reduceNodesList.length)

/-- No input ends at a chunk boundary, and no histogram needs a step of more than sixteen bits. -/
structure Completes (job : Job H I σ n) : Prop where
  chunk : 0 < job.splitInputSize
  boundary : ∀ k, (job.input k).length % job.splitInputSize ≠ 0
  step : ∀ k, job.firstStep k < 65536

variable {job : Job H I σ n} {net : Network (Fin n) (Mapper H) (Histogram H)} {weigh : I → M}

theorem Completes.getHistogram_eq (h : job.Completes) (k : Fin n) :
    getHistogram job.mif.keyHash (job.firstBuffer k) (job.firstStep k) = some (job.histogram k) := by
  obtain ⟨hist, hhist⟩ := Option.isSome_iff_exists.mp
    ((getHistogram_isSome_iff job.mif.keyHash (job.firstBuffer k) (job.firstStep k)).mpr
      (.inl (h.step k)))
  rw [histogram, hhist, Option.getD_some]

private theorem firstBuffer_sorted (huser : UserContract job.mif weigh) (k : Fin n) :
    SortedByHash job.mif.comparatorHash job.mif.keyHash (job.firstBuffer k) :=
  (huser.localProcessing _ _ _).1

theorem Completes.exists_dividers (h : job.Completes) (huser : UserContract job.mif weigh) :
    ∃ ds : DividerList job.mif.comparatorHash,
      job.reduceNodesList.length = ds.hashes.length ∧ job.dividers = some ds.hashes := by
  have hcount : allocBufferCount job.reduceNodesList.length = job.reduceNodesList.length := by
    simp [allocBufferCount, job.reducers]
  have hsorted : ∀ hist ∈ List.ofFn job.histogram,
      SortedByHash job.mif.comparatorHash id hist.hashes := by
    intro hist hhist
    obtain ⟨k, rfl⟩ := List.mem_ofFn.mp hhist
    exact getHistogram_sorted _ _ _ (firstBuffer_sorted huser k) _ (h.step k) _
      (h.getHistogram_eq k)
  obtain ⟨ds, hlen, hds⟩ := exists_dividerList job.mif.comparatorHash job.mif.maxHash
    job.mif.maxHash_maximal (List.ofFn job.histogram) hsorted job.reduceNodesList.length
    (List.length_pos_of_ne_nil job.reducers)
  exact ⟨ds, hlen.symm, by rw [dividers, hcount, hds]⟩

private theorem Completes.creates (h : job.Completes) (hnet : ∀ k, (net.data k).histogramsList =
    List.ofFn job.histogram) (k : Fin n) :
    mapCreateHistogramSendEachToOtherCreateDividersList job.mif (job.cluster net k)
      (job.firstBuffer k) = job.dividers := by
  have hset : (List.ofFn job.histogram).set k (job.histogram k) = List.ofFn job.histogram := by
    apply List.ext_getElem
    · simp
    · intro i hi hi'
      rw [List.getElem_set]
      split
      · rename_i hik
        subst hik
        simp
      · rfl
  have hstep : histStep (job.cluster net k) (job.firstBuffer k) = job.firstStep k := rfl
  rw [mapCreateHistogramSendEachToOtherCreateDividersList, hstep, h.getHistogram_eq k,
    Option.bind_some]
  simp only [cluster, mapNodesList, Nat.add_sub_cancel, hnet k, hset]
  rfl

private theorem Completes.streamTo (h : job.Completes) (hnet : ∀ k, (net.data k).histogramsList =
    List.ofFn job.histogram) (ds : DividerList job.mif.comparatorHash)
    (hn : job.reduceNodesList.length = ds.hashes.length) (hds : job.dividers = some ds.hashes)
    (k : Fin n) (r : Nat) (hr : r < job.reduceNodesList.length) :
    CarriesBaskets ds (job.buffers k) r ((job.mapRun net k).streamTo r) := by
  have hmod := h.boundary k
  have hne : job.input k ≠ [] := by
    intro hnil
    rw [hnil] at hmod
    simp at hmod
  have hchunk := h.chunk
  have htake : (job.input k).take job.splitInputSize ≠ [] := by
    simp only [ne_eq, List.take_eq_nil_iff, not_or]
    exact ⟨by omega, hne⟩
  have hcreate := (h.creates hnet k).trans hds
  have hnodes : (job.cluster net k).reduceNodesList.length = ds.hashes.length := hn
  rw [mapRun, mapNodeMain, mapNodeLoop_dividers ds.ne_nil _ _ hcreate htake]
  exact mapNodeLoop_streamTo ds hnodes h.chunk _ 0 (Nat.lt_succ_self _) hmod r hr

private theorem streams_items {ds : DividerList job.mif.comparatorHash} {r : Nat}
    (hcarry : ∀ k, CarriesBaskets ds (job.buffers k) r ((job.mapRun net k).streamTo r)) :
    ((job.streams net r).flatMap fun packets => packets.flatMap MapPacket.items) =
      (List.finRange n).flatMap fun k =>
        (job.buffers k).flatMap fun b => (ds.allBasketItems job.mif.keyHash b).getD r [] := by
  rw [streams, List.flatMap_map]
  congr 1
  funext k
  rw [List.flatMap_def, (hcarry k).items, ← List.flatMap_def]

private theorem Completes.reduces (h : job.Completes) (huser : UserContract job.mif weigh)
    (hnet : ∀ k, (net.data k).histogramsList = List.ofFn job.histogram)
    (ds : DividerList job.mif.comparatorHash)
    (hn : job.reduceNodesList.length = ds.hashes.length) (hds : job.dividers = some ds.hashes)
    (r : Nat) (hr : r < job.reduceNodesList.length) :
    ∃ out, (∃ nodes, job.reduce net r = some (nodes, out) ∧
        nodes.map MapNode.packets = List.replicate n []) ∧
      SortedByHash job.mif.comparatorHash job.mif.keyHash out ∧
      Condenses job.mif.keyHash weigh
        ((List.finRange n).flatMap fun k =>
          (job.buffers k).flatMap fun b => (ds.allBasketItems job.mif.keyHash b).getD r []) out := by
  have hcarry := fun k => h.streamTo hnet ds hn hds k r hr
  have hsorted : ∀ packets ∈ job.streams net r, ∀ p ∈ packets,
      SortedByHash job.mif.comparatorHash job.mif.keyHash p.items := by
    intro packets hpackets p hp
    obtain ⟨k, -, rfl⟩ := List.mem_map.mp hpackets
    have hmem : p.items ∈ ((job.mapRun net k).streamTo r).map MapPacket.items :=
      List.mem_map_of_mem hp
    rw [(hcarry k).items] at hmem
    obtain ⟨b, hb, hitems⟩ := List.mem_map.mp hmem
    have hbuffer := (huser.chunkBuffers _ (job.start k) (job.input k)).1 b hb
    rw [← hitems, List.getD_eq_getElem?_getD]
    cases hget : (ds.allBasketItems job.mif.keyHash b)[r]? with
    | none => exact List.Pairwise.nil
    | some l => exact ds.allBasketItems_sorted b hbuffer l (List.mem_of_getElem? hget)
  have hflag : ∀ packets ∈ job.streams net r, FlaggedLast packets := by
    intro packets hpackets
    obtain ⟨k, -, rfl⟩ := List.mem_map.mp hpackets
    exact (hcarry k).flagged
  obtain ⟨out, ⟨nodes, hreduce, hread⟩, hout, hcond⟩ : ∃ out, ReducedTo job.mif.comparatorHash
      job.mif.keyHash weigh (job.streams net r) (job.reduce net r) out :=
    reduceNodeMain_reducedTo job.mif.combine huser.combine (job.streams net r) hflag hsorted _
      (Nat.lt_succ_self _)
  refine ⟨out, ⟨nodes, hreduce, by simpa [streams] using hread⟩, hout, ?_⟩
  rwa [streams_items hcarry] at hcond

theorem exchange_final (schedule : List (Fin n))
    (hrun : runFrom (Network.step histogramFromAllToAllPattern) (beforeExchange job.histogram)
      schedule = some net) (hfinal : net.Final) (k : Fin n) :
    (net.data k).histogramsList = List.ofFn job.histogram :=
  (runFrom_preserves (fun _ _ _ h hs => Exchanging.step h hs) schedule _ net
    (exchanging_start job.histogram) hrun).final hfinal k

private theorem sum_total_baskets (weigh : I → M) (ds : DividerList job.mif.comparatorHash)
    (hn : job.reduceNodesList.length = ds.hashes.length) (buffers : List (List I)) :
    ∑ r : Fin job.reduceNodesList.length, total weigh
        (buffers.flatMap fun b => (ds.allBasketItems job.mif.keyHash b).getD r []) =
      total weigh buffers.flatten := by
  induction buffers with
  | nil => simp
  | cons b buffers ih =>
      have hlen : (ds.allBasketItems job.mif.keyHash b).length = job.reduceNodesList.length :=
        (ds.allBasketItems_length job.mif.keyHash b).trans hn.symm
      have hfirst : ∑ r : Fin job.reduceNodesList.length,
          total weigh ((ds.allBasketItems job.mif.keyHash b).getD r []) = total weigh b := by
        have hsum := sum_total_getD weigh (ds.allBasketItems job.mif.keyHash b)
        rwa [ds.allBasketItems_flatten, hlen] at hsum
      simp only [List.flatMap_cons, total_append, List.flatten_cons, Finset.sum_add_distrib, hfirst,
        ih]

/-- All reducers end, each with every packet read and its items in order. -/
structure Outputs (job : Job H I σ n) (net : Network (Fin n) (Mapper H) (Histogram H))
    (outs : Fin job.reduceNodesList.length → List I) : Prop where
  ended : ∀ r : Fin job.reduceNodesList.length, ∃ nodes,
    job.reduce net r = some (nodes, outs r) ∧ nodes.map MapNode.packets = List.replicate n []
  sorted : ∀ r, SortedByHash job.mif.comparatorHash job.mif.keyHash (outs r)

/-- The items in the baskets of the reducer number `r`. -/
def basketItems (job : Job H I σ n) (ds : DividerList job.mif.comparatorHash) (r : Nat) : List I :=
  (List.finRange n).flatMap fun k =>
    (job.buffers k).flatMap fun b => (ds.allBasketItems job.mif.keyHash b).getD r []

theorem Completes.outputs (h : job.Completes) (huser : UserContract job.mif weigh)
    (hnet : ∀ k, (net.data k).histogramsList = List.ofFn job.histogram)
    (ds : DividerList job.mif.comparatorHash)
    (hn : job.reduceNodesList.length = ds.hashes.length) (hds : job.dividers = some ds.hashes) :
    ∃ outs, job.Outputs net outs ∧
      ∀ r : Fin job.reduceNodesList.length,
        Condenses job.mif.keyHash weigh (job.basketItems ds r) (outs r) := by
  choose outs hended hsorted hcond using fun r : Fin job.reduceNodesList.length =>
    h.reduces huser hnet ds hn hds r r.isLt
  exact ⟨outs, ⟨hended, hsorted⟩, hcond⟩

private theorem Outputs.unique {outs outs' : Fin job.reduceNodesList.length → List I}
    (h : job.Outputs net outs) (h' : job.Outputs net outs') : outs = outs' := by
  funext r
  obtain ⟨nodes, hr, -⟩ := h.ended r
  obtain ⟨nodes', hr', -⟩ := h'.ended r
  rw [hr, Option.some.injEq, Prod.mk.injEq] at hr'
  exact hr'.2

private theorem sum_total_basketItems (huser : UserContract job.mif weigh)
    (ds : DividerList job.mif.comparatorHash)
    (hn : job.reduceNodesList.length = ds.hashes.length) :
    ∑ r : Fin job.reduceNodesList.length, total weigh (job.basketItems ds r) =
      ∑ k, total weigh (job.mapped k) := by
  have hbuffers : ∀ k, total weigh (job.buffers k).flatten = total weigh (job.mapped k) :=
    fun k => (huser.chunkBuffers _ (job.start k) (job.input k)).2.total
  simp only [basketItems, total_flatMap_finRange]
  rw [Finset.sum_comm]
  exact Finset.sum_congr rfl fun k _ =>
    (sum_total_baskets weigh ds hn (job.buffers k)).trans (hbuffers k)

/-- Add up the counts of neighbours with the same hash. -/
def addCounts : List (Fin 256 × Nat) → List (Fin 256 × Nat)
  | [] => []
  | x :: items =>
      match addCounts items with
      | [] => [x]
      | y :: rest => if x.1 = y.1 then (x.1, x.2 + y.2) :: rest else x :: y :: rest

private theorem addCounts_condenses (b : Fin 256) (items : List (Fin 256 × Nat)) :
    Condenses Prod.fst (fun x => if x.1 = b then x.2 else 0) items (addCounts items) := by
  induction items with
  | nil => exact Condenses.refl []
  | cons x items ih =>
      have hstep : Condenses Prod.fst (fun x => if x.1 = b then x.2 else 0) ([x] ++ items)
          ([x] ++ addCounts items) := (Condenses.refl [x]).append ih
      refine hstep.trans ?_
      rw [addCounts]
      cases addCounts items with
      | nil => exact Condenses.refl [x]
      | cons y rest =>
          simp only
          split
          · rename_i hxy
            refine ⟨?_, fun z hz => ?_⟩
            · by_cases hb : x.1 = b
              · simp [total, hb, ← hxy, Nat.add_assoc]
              · simp [total, hb, ← hxy]
            · rcases List.mem_cons.mp hz with rfl | hz
              · exact ⟨x, by simp, rfl⟩
              · exact ⟨z, by simp [hz], rfl⟩
          · exact Condenses.refl _

private theorem addCounts_keeps (b : Fin 256) : CombineKeeps byteComparator Prod.fst
    (fun x => if x.1 = b then x.2 else 0) addCounts where
  sorted := by
    intro items hsorted
    induction items with
    | nil => exact List.Pairwise.nil
    | cons x items ih =>
        have hsort := List.pairwise_cons.mp hsorted
        have hrest := ih hsort.2
        have hbelow : ∀ y ∈ addCounts items, byteComparator.cmp x.1 y.1 ≤ 0 :=
          (addCounts_condenses b items).forall_keys (P := fun h => byteComparator.cmp x.1 h ≤ 0)
            hsort.1
        rw [addCounts]
        cases hadd : addCounts items with
        | nil => exact List.pairwise_singleton _ _
        | cons y rest =>
            rw [hadd] at hrest hbelow
            simp only
            split
            · have htail := List.pairwise_cons.mp hrest
              exact List.pairwise_cons.mpr
                ⟨fun z hz => hbelow z (List.mem_cons_of_mem y hz), htail.2⟩
            · exact List.pairwise_cons.mpr ⟨hbelow, hrest⟩
  condenses := fun items _ => addCounts_condenses b items

/-- Counting bytes with two mappers and two reducers. -/
def countBytes : Job (Fin 256) (Fin 256 × Nat) Unit 2 where
  mif := {
    map := fun _ data _ => (data.length, data.map fun b => (b.toFin, 1), ())
    map_le := fun _ _ _ => Nat.le_refl _
    combine := some addCounts
    comparatorMrItem := fun x y => (x.1.val : Int) - y.1.val
    comparatorHash := byteComparator
    keyHash := Prod.fst
    maxHash := Fin.last 255
    maxHash_maximal := byteComparator_le_max }
  reduceNodesList := [1, 2]
  reducers := by decide
  splitInputSize := 2
  start _ := ()
  input k := if k = 0 then [1, 2, 2] else [9]

theorem countBytes_completes : countBytes.Completes := ⟨by decide, by decide, by decide⟩

theorem countBytes_contract (b : Fin 256) :
    UserContract countBytes.mif fun x => if x.1 = b then x.2 else 0 where
  total x y := by
    simp only [countBytes]
    omega
  trans x y z := by
    simp only [countBytes]
    omega
  byHash _ _ h := h
  combine := by
    intro f hf
    cases hf
    exact addCounts_keeps b

theorem countBytes_exchange : RunEnds (Network.step histogramFromAllToAllPattern)
    (beforeExchange countBytes.histogram) [0, 1, 1, 0] fun net => ∀ k, net.todo k = [] := by
  decide

/-- No buffer of any mapper skips a divider. -/
def StepsByOne (job : Job H I σ n) : Prop :=
  ∀ ds : DividerList job.mif.comparatorHash, job.dividers = some ds.hashes →
    ∀ k, ∀ b ∈ job.buffers k, ds.StepsByOne job.mif.keyHash 0 b

private theorem countBytes_stepsByOne : countBytes.StepsByOne := by
  intro ds hds k b _
  have hdividers : countBytes.dividers = some [2, 255] := by decide
  rw [hdividers, Option.some.injEq] at hds
  exact ds.stepsByOne_of_two (by rw [← hds]; rfl) 0 b

end Job

end Zrt.MapReduce
