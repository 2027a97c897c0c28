import Mathlib.Data.List.Basic
import Mathlib.Data.List.Sort
import Zrt.MapReduce.Dividers
import Zrt.MapReduce.MapInput

/-!
# Mapper

`MapNodeMain` reads its input chunk by chunk. Every chunk goes through the user's `Map`, is sorted,
combined and sent to the reducers. The first chunk also yields the dividers. A chunk shorter than
requested is taken for the last one.
-/

namespace Zrt.MapReduce

variable {H I σ : Type*}

/-- The user's functions. `Map` may keep data of its own between calls; it returns the position of
the unhandled bytes and the items it made. The hash of all-one bytes is maximal. -/
structure MapReduceUserIf (H I σ : Type*) where
  map : σ → List UInt8 → Bool → Nat × List I × σ
  map_le : ∀ s data lastChunk, (map s data lastChunk).1 ≤ data.length
  combine : Option (List I → List I)
  comparatorMrItem : I → I → Int
  comparatorHash : HashComparator H
  keyHash : I → H
  maxHash : H
  maxHash_maximal : ∀ h, comparatorHash.cmp h maxHash ≤ 0

/-- The nodes around a mapper, and the histograms it receives from the other mappers. -/
structure MapCluster (H : Type*) where
  ownnodeid : Nat
  mapNodesCount : Nat
  reduceNodesList : List Nat
  reducers : reduceNodesList ≠ []
  received : List (Histogram H)

/-- `qsort` by the item comparator. The order of equal items, which it leaves open, is that of an
insertion sort. -/
def localSort (mif : MapReduceUserIf H I σ) (sortable : List I) : List I :=
  sortable.insertionSort fun x y => mif.comparatorMrItem x y ≤ 0

/-- The position `Map` returned, the items to send and the data `Map` keeps. -/
def mapInputDataLocalProcessing (mif : MapReduceUserIf H I σ) (s : σ) (buf : List UInt8)
    (lastChunk : Bool) : Nat × List I × σ :=
  let mapped := mif.map s buf lastChunk
  let sort := localSort mif mapped.2.1
  (mapped.1, match mif.combine with
    | some combine => combine sort
    | none => sort, mapped.2.2)

/-- The step between the hashes of a histogram. -/
def histStep (cl : MapCluster H) (map : List I) : Nat := map.length / cl.mapNodesCount / 100

/-- The dividers from the own histogram and the received ones. -/
def mapCreateHistogramSendEachToOtherCreateDividersList (mif : MapReduceUserIf H I σ)
    (cl : MapCluster H) (map : List I) : Option (List H) :=
  (getHistogram mif.keyHash map (histStep cl map)).bind fun histogram =>
    getReducersDividerArrayBasedOnSummarizedHistograms mif.comparatorHash mif.maxHash
      (cl.received.set (cl.ownnodeid - 1) histogram)
      (allocBufferCount cl.reduceNodesList.length)

/-- What a mapper did in one iteration. -/
structure Iteration (I : Type*) where
  presented : Presented
  packets : List (ReducePacket I)

/-- The iterations of a mapper, and whether it left the loop by its condition. -/
structure MapRun (I : Type*) where
  iterations : List (Iteration I)
  completed : Bool

/-- The dividers in use from now on and the packets sent. -/
def sendChunk (mif : MapReduceUserIf H I σ) (cl : MapCluster H) (dividersList : List H)
    (lastChunk : Bool) (mapBuffer : List I) : Option (List H × List (ReducePacket I)) :=
  let created :=
    if dividersList.isEmpty then mapCreateHistogramSendEachToOtherCreateDividersList mif cl mapBuffer
    else some dividersList
  created.bind fun dividersList =>
    (mapSendToAllReducers mif.comparatorHash mif.keyHash dividersList cl.reduceNodesList lastChunk
      mapBuffer).map fun packets => (dividersList, packets)

/-- The loop of `MapNodeMain`. It frees the buffer first, so that the provider always starts with a
fresh one. -/
def mapNodeLoop (mif : MapReduceUserIf H I σ) (cl : MapCluster H) (splitInputSize : Nat) :
    Nat → σ → List UInt8 → Nat → List H → MapRun I
  | 0, _, _, _, _ => ⟨[], false⟩
  | fuel + 1, s, stream, currentUnhandledDataPos, dividersList =>
      match mapInputDataProvider stream none splitInputSize currentUnhandledDataPos with
      | none => ⟨[], false⟩
      | some input =>
          let buffer := input.buffer.take input.returnedBufSize
          let lastChunk := decide (input.returnedBufSize < splitInputSize)
          let processed := mapInputDataLocalProcessing mif s buffer lastChunk
          let presented : Presented := ⟨buffer, processed.1, mif.map_le s buffer lastChunk⟩
          match sendChunk mif cl dividersList lastChunk processed.2.1 with
          | none => ⟨[⟨presented, []⟩], false⟩
          | some (dividersList, packets) =>
              if lastChunk then ⟨[⟨presented, packets⟩], true⟩
              else
                let rest := mapNodeLoop mif cl splitInputSize fuel processed.2.2 input.stream
                  processed.1 dividersList
                ⟨⟨presented, packets⟩ :: rest.iterations, rest.completed⟩

def mapNodeMain (mif : MapReduceUserIf H I σ) (cl : MapCluster H) (splitInputSize fuel : Nat)
    (s : σ) (input : List UInt8) : MapRun I :=
  mapNodeLoop mif cl splitInputSize fuel s input 0 []

variable {mif : MapReduceUserIf H I σ} {cl : MapCluster H} {chunk : Nat} {s : σ}
  {stream : List UInt8}

/-- What becomes of the next chunk of the input. -/
def processNext (mif : MapReduceUserIf H I σ) (chunk : Nat) (s : σ) (stream : List UInt8) :
    Nat × List I × σ :=
  mapInputDataLocalProcessing mif s (stream.take chunk) (decide (stream.length < chunk))

def presentNext (mif : MapReduceUserIf H I σ) (chunk : Nat) (s : σ) (stream : List UInt8) :
    Presented :=
  ⟨stream.take chunk, (processNext mif chunk s stream).1, mif.map_le _ _ _⟩

theorem mapNodeLoop_nil (fuel pos : Nat) (dividersList : List H) (h : stream.take chunk = []) :
    mapNodeLoop mif cl chunk fuel s stream pos dividersList = ⟨[], false⟩ := by
  cases fuel with
  | zero => rfl
  | succ fuel => simp [mapNodeLoop, mapInputDataProvider_fresh, h]

/-- One iteration over a nonempty chunk: the bytes that `Map` left unhandled before play no
part. -/
theorem mapNodeLoop_succ (fuel pos : Nat) (dividersList : List H) (h : stream.take chunk ≠ []) :
    mapNodeLoop mif cl chunk (fuel + 1) s stream pos dividersList =
      match sendChunk mif cl dividersList (decide (stream.length < chunk))
        (processNext mif chunk s stream).2.1 with
      | none => ⟨[⟨presentNext mif chunk s stream, []⟩], false⟩
      | some (ds, packets) =>
          if stream.length < chunk then ⟨[⟨presentNext mif chunk s stream, packets⟩], true⟩
          else
            let rest := mapNodeLoop mif cl chunk fuel (processNext mif chunk s stream).2.2
              (stream.drop chunk) (processNext mif chunk s stream).1 ds
            ⟨⟨presentNext mif chunk s stream, packets⟩ :: rest.iterations, rest.completed⟩ := by
  have hne : (stream.take chunk).isEmpty = false := by simpa using h
  have hlt : (stream.take chunk).length < chunk ↔ stream.length < chunk := by
    rw [List.length_take]
    omega
  simp only [mapNodeLoop, mapInputDataProvider_fresh, hne, Bool.false_eq_true, if_false,
    take_copyToStart, hlt, decide_eq_true_eq]
  rfl

/-- Dividers as the divider computation makes them. -/
def ValidDividers (mif : MapReduceUserIf H I σ) (cl : MapCluster H) (ds : List H) : Prop :=
  ∃ lower, ds = lower ++ [mif.maxHash] ∧ cl.reduceNodesList.length = lower.length + 1

/-- Every reducer was sent one packet, with the given flag. -/
def PacketsSent (cl : MapCluster H) (lastData : Bool) (packets : List (ReducePacket I)) : Prop :=
  packets.map ReducePacket.node = cl.reduceNodesList ∧ ∀ p ∈ packets, p.lastDataFlag = lastData

/-- The chunk passes all assertions on its way to the reducers. -/
def Sends (mif : MapReduceUserIf H I σ) (cl : MapCluster H) (dividersList : List H)
    (lastChunk : Bool) (mapBuffer : List I) : Prop :=
  ∃ ds packets, sendChunk mif cl dividersList lastChunk mapBuffer = some (ds, packets) ∧
    ValidDividers mif cl ds ∧ PacketsSent cl lastChunk packets

theorem ValidDividers.sends {ds : List H} (h : ValidDividers mif cl ds) (lastChunk : Bool)
    (mapBuffer : List I) : Sends mif cl ds lastChunk mapBuffer := by
  obtain ⟨lower, rfl, hlen⟩ := h
  obtain ⟨packets, hsend, hnodes, hflags⟩ := mapSendToAllReducers_flags mif.comparatorHash
    mif.keyHash lower mif.maxHash mif.maxHash_maximal cl.reduceNodesList lastChunk mapBuffer hlen
  refine ⟨lower ++ [mif.maxHash], packets, ?_, ⟨lower, rfl, hlen⟩, hnodes, hflags⟩
  simp [sendChunk, hsend]

private theorem histStep_le (cl : MapCluster H) (map : List I) : histStep cl map ≤ map.length :=
  (Nat.div_le_self _ _).trans (Nat.div_le_self _ _)

private theorem createDividersList_valid (mif : MapReduceUserIf H I σ) (cl : MapCluster H) (map : List I)
    (h : histStep cl map < 65536) :
    ∃ ds, mapCreateHistogramSendEachToOtherCreateDividersList mif cl map = some ds ∧
      ValidDividers mif cl ds := by
  have hpos := List.length_pos_of_ne_nil cl.reducers
  have hcount : allocBufferCount cl.reduceNodesList.length = cl.reduceNodesList.length := by
    simp [allocBufferCount, cl.reducers]
  obtain ⟨histogram, hhist⟩ := Option.isSome_iff_exists.mp
    ((getHistogram_isSome_iff mif.keyHash map (histStep cl map)).mpr (Or.inl h))
  obtain ⟨lower, hds, hlen⟩ := getReducersDividerArrayBasedOnSummarizedHistograms_eq
    mif.comparatorHash mif.maxHash (cl.received.set (cl.ownnodeid - 1) histogram)
    (allocBufferCount cl.reduceNodesList.length) (by rw [hcount]; exact hpos)
  refine ⟨lower ++ [mif.maxHash], ?_, lower, rfl, by rw [hlen, hcount]⟩
  rw [mapCreateHistogramSendEachToOtherCreateDividersList, hhist, Option.bind_some, hds]

theorem sends_first (lastChunk : Bool) (mapBuffer : List I) (h : histStep cl mapBuffer < 65536) :
    Sends mif cl [] lastChunk mapBuffer := by
  obtain ⟨ds, hcreate, hvalid⟩ := createDividersList_valid mif cl mapBuffer h
  obtain ⟨ds', packets, hsend, hvalid', hsent⟩ := hvalid.sends lastChunk mapBuffer
  have hne : ds.isEmpty = false := by
    obtain ⟨lower, rfl, -⟩ := hvalid
    simp
  refine ⟨ds', packets, ?_, hvalid', hsent⟩
  simp only [sendChunk, hne, Bool.false_eq_true, if_false, Option.bind_some] at hsend
  simpa only [sendChunk, List.isEmpty_nil, if_true, hcreate, Option.bind_some] using hsend

private theorem sendChunk_first_none (lastChunk : Bool) (mapBuffer : List I)
    (h : 65536 ≤ histStep cl mapBuffer) : sendChunk mif cl [] lastChunk mapBuffer = none := by
  have hle := histStep_le cl mapBuffer
  have hnone : getHistogram mif.keyHash mapBuffer (histStep cl mapBuffer) = none := by
    rw [← Option.not_isSome_iff_eq_none, getHistogram_isSome_iff]
    omega
  simp [sendChunk, mapCreateHistogramSendEachToOtherCreateDividersList, hnone]

/-- While more than one chunk of the input is left, `Map` handles the whole chunk it is given. -/
inductive HandlesWhole (mif : MapReduceUserIf H I σ) (chunk : Nat) : σ → List UInt8 → Prop
  | last {s : σ} {stream : List UInt8} : stream.length ≤ chunk → HandlesWhole mif chunk s stream
  | more {s : σ} {stream : List UInt8} : chunk < stream.length →
      (mif.map s (stream.take chunk) false).1 = chunk →
      HandlesWhole mif chunk (mif.map s (stream.take chunk) false).2.2 (stream.drop chunk) →
      HandlesWhole mif chunk s stream

private theorem handlesWhole_iff (h : chunk < stream.length) :
    HandlesWhole mif chunk s stream ↔ (mif.map s (stream.take chunk) false).1 = chunk ∧
      HandlesWhole mif chunk (mif.map s (stream.take chunk) false).2.2 (stream.drop chunk) := by
  constructor
  · intro hw
    cases hw with
    | last hle => omega
    | more _ hpos hrest => exact ⟨hpos, hrest⟩
  · rintro ⟨hpos, hrest⟩
    exact HandlesWhole.more h hpos hrest

private theorem not_handlesWhole_zero (h : stream ≠ []) : ¬ HandlesWhole mif 0 s stream := by
  intro hw
  generalize hchunk : 0 = chunk at hw
  induction hw with
  | last hle =>
      subst hchunk
      exact h (List.length_eq_zero_iff.mp (by omega))
  | more hlt _ _ ih =>
      subst hchunk
      exact ih (by simpa using h)

def MapRun.presented (run : MapRun I) : List Presented := run.iterations.map Iteration.presented

/-- What the loop does with the rest of the input, once its chunks reach the reducers. -/
structure LoopSpec (mif : MapReduceUserIf H I σ) (cl : MapCluster H) (chunk : Nat) (s : σ)
    (stream : List UInt8) (run : MapRun I) : Prop where
  buffers : run.presented.flatMap Presented.buffer = stream
  ended : stream = [] → run.presented = []
  whole : (∀ p ∈ run.presented.dropLast, p.tail = []) ↔ HandlesWhole mif chunk s stream
  completed : run.completed = true ↔ stream.length % chunk ≠ 0
  flags : run.completed = true → ∃ before final, run.iterations = before ++ [final] ∧
    (∀ it ∈ before, PacketsSent cl false it.packets) ∧ PacketsSent cl true final.packets

private theorem LoopSpec.nil : LoopSpec mif cl chunk s [] ⟨[], false⟩ where
  buffers := rfl
  ended := fun _ => rfl
  whole := ⟨fun _ => HandlesWhole.last (Nat.zero_le _), by simp [MapRun.presented]⟩
  completed := by simp
  flags := by simp

private theorem LoopSpec.short {packets : List (ReducePacket I)} (hne : stream ≠ [])
    (hlt : stream.length < chunk) (hsent : PacketsSent cl true packets) :
    LoopSpec mif cl chunk s stream ⟨[⟨presentNext mif chunk s stream, packets⟩], true⟩ where
  buffers := by simp [MapRun.presented, presentNext, List.take_of_length_le (Nat.le_of_lt hlt)]
  ended := fun h => absurd h hne
  whole := ⟨fun _ => HandlesWhole.last (Nat.le_of_lt hlt), by simp [MapRun.presented]⟩
  completed := by
    have hpos := List.length_pos_of_ne_nil hne
    rw [Nat.mod_eq_of_lt hlt]
    simpa using Nat.ne_of_gt hpos
  flags := fun _ => ⟨[], _, rfl, by simp, hsent⟩

private theorem processNext_full (hle : chunk ≤ stream.length) :
    (processNext mif chunk s stream).2.2 = (mif.map s (stream.take chunk) false).2.2 := by
  have hlast : decide (stream.length < chunk) = false := decide_eq_false (by omega)
  simp only [processNext, mapInputDataLocalProcessing, hlast]

private theorem tail_presentNext (hle : chunk ≤ stream.length) :
    (presentNext mif chunk s stream).tail = [] ↔
      (mif.map s (stream.take chunk) false).1 = chunk := by
  have hlast : decide (stream.length < chunk) = false := decide_eq_false (by omega)
  have hbuf : (stream.take chunk).length = chunk := List.length_take_of_le hle
  have hpos := mif.map_le s (stream.take chunk) false
  simp only [Presented.tail, presentNext, processNext, mapInputDataLocalProcessing, hlast,
    List.drop_eq_nil_iff]
  omega

private theorem LoopSpec.full {packets : List (ReducePacket I)} {run : MapRun I} (hchunk : 0 < chunk)
    (hle : chunk ≤ stream.length) (hsent : PacketsSent cl false packets)
    (h : LoopSpec mif cl chunk (processNext mif chunk s stream).2.2 (stream.drop chunk) run) :
    LoopSpec mif cl chunk s stream
      ⟨⟨presentNext mif chunk s stream, packets⟩ :: run.iterations, run.completed⟩ where
  buffers := by
    have hrest := h.buffers
    simp only [MapRun.presented] at hrest
    simp [MapRun.presented, presentNext, hrest]
  ended := by
    intro hnil
    simp only [hnil, List.length_nil] at hle
    omega
  whole := by
    have hcons : MapRun.presented
        ⟨⟨presentNext mif chunk s stream, packets⟩ :: run.iterations, run.completed⟩ =
          presentNext mif chunk s stream :: run.presented := rfl
    rw [hcons]
    rcases Nat.lt_or_eq_of_le hle with hlt | heq
    · have hsome : run.presented ≠ [] := by
        intro hnil
        have hlen := congrArg List.length h.buffers
        simp only [hnil, List.flatMap_nil, List.length_nil, List.length_drop] at hlen
        omega
      rw [handlesWhole_iff hlt, List.dropLast_cons_of_ne_nil hsome, List.forall_mem_cons,
        tail_presentNext hle, h.whole, processNext_full hle]
    · rw [h.ended (List.drop_eq_nil_of_le (Nat.le_of_eq heq.symm))]
      exact ⟨fun _ => HandlesWhole.last (Nat.le_of_eq heq.symm), by simp⟩
  completed := by
    show run.completed = true ↔ _
    rw [h.completed, List.length_drop, Nat.mod_eq_sub_mod hle]
  flags := by
    intro hc
    obtain ⟨before, final, hits, hbefore, hfinal⟩ := h.flags hc
    refine ⟨⟨presentNext mif chunk s stream, packets⟩ :: before, final, by simp [hits], ?_, hfinal⟩
    exact List.forall_mem_cons.mpr ⟨hsent, hbefore⟩

/-- The whole loop, given that the next chunk reaches the reducers; the dividers it leaves serve all
later chunks. -/
theorem mapNodeLoop_spec (hchunk : 0 < chunk) (fuel pos : Nat) (dividersList : List H)
    (hfuel : stream.length < fuel)
    (hsends : stream ≠ [] → Sends mif cl dividersList (decide (stream.length < chunk))
      (processNext mif chunk s stream).2.1) :
    LoopSpec mif cl chunk s stream
      (mapNodeLoop mif cl chunk fuel s stream pos dividersList) := by
  induction fuel generalizing s stream pos dividersList with
  | zero => omega
  | succ fuel ih =>
      by_cases hnil : stream = []
      · subst stream
        rw [mapNodeLoop_nil _ _ _ (by simp)]
        exact LoopSpec.nil
      · have htake : stream.take chunk ≠ [] := by
          simp only [ne_eq, List.take_eq_nil_iff, not_or]
          exact ⟨by omega, hnil⟩
        obtain ⟨ds, packets, hsend, hvalid, hsent⟩ := hsends hnil
        rw [mapNodeLoop_succ _ _ _ htake, hsend]
        simp only
        split
        · rename_i hlt
          rw [decide_eq_true hlt] at hsent
          exact LoopSpec.short hnil hlt hsent
        · rename_i hlt
          rw [decide_eq_false hlt] at hsent
          have hlen : (stream.drop chunk).length < fuel := by
            rw [List.length_drop]
            have hpos := List.length_pos_of_ne_nil hnil
            omega
          exact LoopSpec.full hchunk (by omega) hsent
            (ih _ ds hlen fun _ => hvalid.sends _ _)

theorem mapNodeMain_stuck {fuel : Nat} (hnone : stream.take chunk ≠ [])
    (hfuel : stream.length < fuel)
    (hstep : 65536 ≤ histStep cl (processNext mif chunk s stream).2.1) :
    mapNodeMain mif cl chunk fuel s stream =
      ⟨[⟨presentNext mif chunk s stream, []⟩], false⟩ := by
  cases fuel with
  | zero => omega
  | succ fuel => rw [mapNodeMain, mapNodeLoop_succ _ _ _ hnone, sendChunk_first_none _ _ hstep]

private theorem losesNothing_presentNext :
    Presented.LosesNothing stream
        (MapRun.presented (⟨[⟨presentNext mif chunk s stream, []⟩], false⟩ : MapRun I)) ↔
      stream.length ≤ chunk := by
  have hcarries : Presented.CarriesTails [] stream [presentNext mif chunk s stream] :=
    ⟨chunk, rfl, trivial⟩
  have htotal := (presentNext mif chunk s stream).consumed_append_tail
  simp only [Presented.LosesNothing, MapRun.presented, List.map_cons, List.map_nil, hcarries,
    true_and, List.flatMap_cons, List.flatMap_nil, List.append_nil, Presented.finalTail,
    List.getLast?_singleton, Option.map_some, Option.getD_some, htotal]
  exact List.take_eq_self_iff stream

/-- Nothing of the input is lost exactly when `Map` handles every chunk but the last one whole, and
the first of several chunks does not break the histogram. -/
theorem mapNodeMain_losesNothing_iff (mif : MapReduceUserIf H I σ) (cl : MapCluster H)
    (splitInputSize fuel : Nat) (s : σ) (input : List UInt8) (hfuel : input.length < fuel) :
    Presented.LosesNothing input (mapNodeMain mif cl splitInputSize fuel s input).presented ↔
      HandlesWhole mif splitInputSize s input ∧
        (splitInputSize < input.length →
          histStep cl (processNext mif splitInputSize s input).2.1 < 65536) := by
  by_cases hnone : input.take splitInputSize = []
  · rw [mapNodeMain, mapNodeLoop_nil _ _ _ hnone]
    by_cases hinput : input = []
    · subst input
      refine ⟨fun _ => ⟨HandlesWhole.last (Nat.zero_le _), by simp⟩, fun _ => ?_⟩
      exact ⟨trivial, rfl⟩
    · have hzero : splitInputSize = 0 := by
        simpa [List.take_eq_nil_iff, hinput] using hnone
      subst splitInputSize
      constructor
      · rintro ⟨-, htotal⟩
        exact absurd htotal.symm hinput
      · rintro ⟨hwhole, -⟩
        exact absurd hwhole (not_handlesWhole_zero hinput)
  · have hinput : input ≠ [] := fun h => hnone (by simp [h])
    have hchunk : 0 < splitInputSize := by
      rcases Nat.eq_zero_or_pos splitInputSize with hzero | hpos
      · simp [hzero] at hnone
      · exact hpos
    by_cases hstep : histStep cl (processNext mif splitInputSize s input).2.1 < 65536
    · have hspec : LoopSpec mif cl splitInputSize s input
          (mapNodeLoop mif cl splitInputSize fuel s input 0 []) :=
        mapNodeLoop_spec hchunk fuel 0 [] hfuel fun _ => sends_first _ _ hstep
      have hloses := Presented.losesNothing_iff
        (mapNodeMain mif cl splitInputSize fuel s input).presented
      rw [mapNodeMain, hspec.buffers, hspec.whole] at hloses
      rw [mapNodeMain, hloses]
      exact ⟨fun h => ⟨h, fun _ => hstep⟩, fun h => h.1⟩
    · rw [mapNodeMain_stuck hnone hfuel (by omega), losesNothing_presentNext]
      constructor
      · intro hle
        exact ⟨HandlesWhole.last hle, fun hlt => by omega⟩
      · rintro ⟨-, hlt⟩
        by_contra hmore
        exact hstep (hlt (by omega))

/-- Every handled byte is an item; at most `limit` bytes of a buffer are handled. -/
def byteMap (limit : Nat) : MapReduceUserIf (Fin 256) (Fin 256) Unit where
  map _ data _ := (min limit data.length, (data.take limit).map fun b => b.toFin, ())
  map_le _ _ _ := Nat.min_le_right _ _
  combine := none
  comparatorMrItem x y := (x.val : Int) - y.val
  comparatorHash := byteComparator
  keyHash := id
  maxHash := Fin.last 255
  maxHash_maximal := byteComparator_le_max

/-- One mapper and one reducer. -/
def oneOfEach : MapCluster (Fin 256) where
  ownnodeid := 1
  mapNodesCount := 1
  reduceNodesList := [1]
  reducers := by decide
  received := [Histogram.empty]

theorem mapNodeMain_losesNothing_iff_whole :
    HandlesWhole (byteMap 4) 4 () [1, 2, 3, 4, 5] ∧
      Presented.LosesNothing [1, 2, 3, 4, 5]
        (mapNodeMain (byteMap 4) oneOfEach 4 10 () [1, 2, 3, 4, 5]).presented := by
  have hwhole : HandlesWhole (byteMap 4) 4 () [1, 2, 3, 4, 5] :=
    HandlesWhole.more (by decide) rfl (HandlesWhole.last (by decide))
  exact ⟨hwhole, (mapNodeMain_losesNothing_iff (byteMap 4) oneOfEach 4 10 () [1, 2, 3, 4, 5]
    (by decide)).mpr ⟨hwhole, fun _ => by decide⟩⟩

/-- `Map` handles three of the first four bytes; the fourth one is never seen again. -/
theorem mapNodeMain_drops_tail :
    (mapNodeMain (byteMap 3) oneOfEach 4 10 () [1, 2, 3, 4, 5]).presented =
        [⟨[1, 2, 3, 4], 3, by decide⟩, ⟨[5], 1, by decide⟩] ∧
      ¬ Presented.LosesNothing [1, 2, 3, 4, 5]
        (mapNodeMain (byteMap 3) oneOfEach 4 10 () [1, 2, 3, 4, 5]).presented := by
  have hrun : (mapNodeMain (byteMap 3) oneOfEach 4 10 () [1, 2, 3, 4, 5]).presented =
      [⟨[1, 2, 3, 4], 3, by decide⟩, ⟨[5], 1, by decide⟩] := by decide
  refine ⟨hrun, ?_⟩
  rw [hrun]
  rintro ⟨-, htotal⟩
  exact absurd htotal (by decide)

/-- The flags of the packets sent to the reducer number `i`, in the order of sending. -/
def MapRun.flagsTo (run : MapRun I) (i : Nat) : List Bool :=
  run.iterations.filterMap fun it => it.packets[i]?.map ReducePacket.lastDataFlag

/-- The loop ended by its condition, and every reducer was told so by its final packet and by no
earlier one. -/
def EndsStream (cl : MapCluster H) (run : MapRun I) : Prop :=
  run.completed = true ∧
    ∀ i, i < cl.reduceNodesList.length → ∃ m, run.flagsTo i = List.replicate m false ++ [true]

theorem PacketsSent.flag {last : Bool} {packets : List (ReducePacket I)}
    (h : PacketsSent cl last packets) {i : Nat} (hi : i < cl.reduceNodesList.length) :
    packets[i]?.map ReducePacket.lastDataFlag = some last := by
  have hlen : i < packets.length := by
    rw [← h.1, List.length_map] at hi
    exact hi
  rw [List.getElem?_eq_getElem hlen, Option.map_some, h.2 _ (List.getElem_mem hlen)]

private theorem flags_of_sent (its : List (Iteration I)) (i : Nat)
    (hi : i < cl.reduceNodesList.length) (h : ∀ it ∈ its, PacketsSent cl false it.packets) :
    its.filterMap (fun it => it.packets[i]?.map ReducePacket.lastDataFlag) =
      List.replicate its.length false := by
  induction its with
  | nil => rfl
  | cons it its ih =>
      have hit := (h it (by simp)).flag hi
      have hrest := ih fun x hx => h x (by simp [hx])
      simp only [List.filterMap_cons, hit, hrest, List.length_cons, List.replicate_succ]

private theorem LoopSpec.endsStream {run : MapRun I} (h : LoopSpec mif cl chunk s stream run)
    (hc : run.completed = true) : EndsStream cl run := by
  obtain ⟨before, final, hits, hbefore, hfinal⟩ := h.flags hc
  refine ⟨hc, fun i hi => ⟨before.length, ?_⟩⟩
  have hlast := hfinal.flag hi
  rw [MapRun.flagsTo, hits, List.filterMap_append, flags_of_sent before i hi hbefore]
  simp only [List.filterMap_cons, hlast, List.filterMap_nil]

/-- The mapper ends its streams properly exactly when the input does not end at a chunk boundary and
the first chunk does not break the histogram. -/
theorem mapNodeMain_endsStream_iff (mif : MapReduceUserIf H I σ) (cl : MapCluster H)
    (splitInputSize fuel : Nat) (s : σ) (input : List UInt8) (hinput : input ≠ [])
    (hchunk : 0 < splitInputSize) (hfuel : input.length < fuel) :
    EndsStream cl (mapNodeMain mif cl splitInputSize fuel s input) ↔
      input.length % splitInputSize ≠ 0 ∧
        histStep cl (processNext mif splitInputSize s input).2.1 < 65536 := by
  have htake : input.take splitInputSize ≠ [] := by
    simp only [ne_eq, List.take_eq_nil_iff, not_or]
    exact ⟨by omega, hinput⟩
  by_cases hstep : histStep cl (processNext mif splitInputSize s input).2.1 < 65536
  · have hspec : LoopSpec mif cl splitInputSize s input
        (mapNodeLoop mif cl splitInputSize fuel s input 0 []) :=
      mapNodeLoop_spec hchunk fuel 0 [] hfuel fun _ => sends_first _ _ hstep
    rw [mapNodeMain]
    constructor
    · intro hends
      exact ⟨hspec.completed.mp hends.1, hstep⟩
    · rintro ⟨hmod, -⟩
      exact hspec.endsStream (hspec.completed.mpr hmod)
  · rw [mapNodeMain_stuck htake hfuel (by omega)]
    constructor
    · rintro ⟨hc, -⟩
      cases hc
    · rintro ⟨-, hlt⟩
      exact absurd hlt hstep

theorem mapNodeMain_endsStream_iff_short :
    EndsStream oneOfEach (mapNodeMain (byteMap 2) oneOfEach 2 10 () [1, 2, 3, 4, 5]) :=
  (mapNodeMain_endsStream_iff (byteMap 2) oneOfEach 2 10 () [1, 2, 3, 4, 5] (by decide)
    (by decide) (by decide)).mpr ⟨by decide, by decide⟩

/-- After two full chunks the mapper reads nothing and fails its assertion; the reducer still waits
for a flagged packet. -/
theorem mapNodeMain_fails_at_boundary :
    (mapNodeMain (byteMap 2) oneOfEach 2 10 () [1, 2, 3, 4]).completed = false ∧
      (mapNodeMain (byteMap 2) oneOfEach 2 10 () [1, 2, 3, 4]).flagsTo 0 = [false, false] ∧
      ¬ EndsStream oneOfEach (mapNodeMain (byteMap 2) oneOfEach 2 10 () [1, 2, 3, 4]) := by
  have hrun : (mapNodeMain (byteMap 2) oneOfEach 2 10 () [1, 2, 3, 4]).completed = false := by
    decide
  refine ⟨hrun, by decide, ?_⟩
  rintro ⟨hc, -⟩
  rw [hrun] at hc
  cases hc

end Zrt.MapReduce
