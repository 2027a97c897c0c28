import Zrt.MapReduce.ItemBuffer
import Zrt.MapReduce.Packets

/-!
# Histograms between map nodes

A mapper sends the structure of its histogram and then the memory of the hash buffer. The receiver
allocates a buffer for as many hashes as the structure counts and reads the memory of that buffer.
-/

namespace Zrt.MapReduce.Wire

open Helpers Helpers.BufferedIOData

def shortBytes (word : UInt16) : List UInt8 := [.ofNat word.toNat, .ofNat (word.toNat / 2 ^ 8)]

def shortOfBytes : List UInt8 → UInt16
  | [a, b] => .ofNat (a.toNat + 2 ^ 8 * b.toNat)
  | _ => 0

@[simp] theorem shortOfBytes_shortBytes (word : UInt16) : shortOfBytes (shortBytes word) = word := by
  have hlt := word.toNat_lt
  apply UInt16.toNat_inj.mp
  simp only [shortBytes, shortOfBytes, UInt8.toNat_ofNat', UInt16.toNat_ofNat']
  omega

/-- A histogram with the buffer of its hashes. -/
structure BufferedHistogram where
  srcNodeid : UInt32
  stepHistCommon : UInt16
  stepHistLast : UInt16
  buffer : Buffer

/-- The bytes of the structure; the pointer to the data is one of its fields. -/
def BufferedHistogram.structBytes (h : BufferedHistogram) (pointer : UInt32) : List UInt8 :=
  intBytes h.srcNodeid ++ shortBytes h.stepHistCommon ++ shortBytes h.stepHistLast ++
    intBytes (.ofNat h.buffer.bufSize) ++ intBytes (.ofNat h.buffer.itemSize) ++
    intBytes (.ofNat h.buffer.count) ++ intBytes pointer

def sizeofHistogram : Nat := 24

def writeHistogramToNode (h : BufferedHistogram) (pointer : UInt32) : List UInt8 :=
  h.structBytes pointer ++ h.buffer.data

/-- The fields of a structure received that the receiver uses. -/
structure ReceivedStruct where
  srcNodeid : UInt32
  stepHistCommon : UInt16
  stepHistLast : UInt16
  itemSize : UInt32
  count : UInt32

def structOfBytes (bytes : List UInt8) : ReceivedStruct where
  srcNodeid := intOfBytes (bytes.take 4)
  stepHistCommon := shortOfBytes ((bytes.drop 4).take 2)
  stepHistLast := shortOfBytes ((bytes.drop 6).take 2)
  itemSize := intOfBytes ((bytes.drop 12).take 4)
  count := intOfBytes ((bytes.drop 16).take 4)

private theorem length_directRead (stream : List UInt8) (size : Nat) :
    (directRead stream size).length = size := by
  simp only [directRead, List.length_append, List.length_take, List.length_replicate]
  omega

/-- A new buffer after one read into its memory, with the count of the sender. -/
def receiveItems (b : Buffer) (stream : List UInt8) (count : Nat)
    (hcount : count * b.itemSize ≤ b.bufSize) : Buffer :=
  { b with
    count := count
    data := directRead stream b.bufSize
    count_le := hcount
    length_data := length_directRead stream b.bufSize }

theorem count_mul_le {itemsize granularity : Nat} {b : Buffer}
    (h : allocBuffer itemsize granularity = some b) : granularity * b.itemSize ≤ b.bufSize := by
  rw [(allocBuffer_sizes h).2, (allocBuffer_sizes h).1]
  exact Nat.mul_le_mul_right _ (le_allocBufferCount granularity)

/-- The histogram, whose slot was empty before, and what is left to read; `none` where an assertion fails. A read returns what
there is, and nothing at the end of the data. -/
def readHistogramFromNode (stream : List UInt8) : Option (BufferedHistogram × List UInt8) :=
  if stream.isEmpty then none
  else
    let temp := structOfBytes (directRead stream sizeofHistogram)
    let stream := stream.drop sizeofHistogram
    match halloc : allocBuffer temp.itemSize.toNat temp.count.toNat with
    | none => none
    | some buffer =>
        if 0 < retOfSize (min buffer.bufSize stream.length) then
          some (⟨temp.srcNodeid, temp.stepHistCommon, temp.stepHistLast,
            receiveItems buffer stream temp.count.toNat (count_mul_le halloc)⟩,
            stream.drop buffer.bufSize)
        else none

theorem BufferedHistogram.length_structBytes (h : BufferedHistogram) (pointer : UInt32) :
    (h.structBytes pointer).length = sizeofHistogram := rfl

private theorem BufferedHistogram.structOfBytes_structBytes (h : BufferedHistogram) (pointer : UInt32) :
    structOfBytes (h.structBytes pointer) =
      ⟨h.srcNodeid, h.stepHistCommon, h.stepHistLast, .ofNat h.buffer.itemSize,
        .ofNat h.buffer.count⟩ := by
  have hfields : structOfBytes (h.structBytes pointer) =
      ⟨intOfBytes (intBytes h.srcNodeid), shortOfBytes (shortBytes h.stepHistCommon),
        shortOfBytes (shortBytes h.stepHistLast), intOfBytes (intBytes (.ofNat h.buffer.itemSize)),
        intOfBytes (intBytes (.ofNat h.buffer.count))⟩ := rfl
  rw [hfields]
  simp only [intOfBytes_intBytes, shortOfBytes_shortBytes]

private theorem readHistogramFromNode_eq {stream : List UInt8} (hstream : stream ≠ [])
    {temp : ReceivedStruct} (htemp : structOfBytes (directRead stream sizeofHistogram) = temp)
    {b : Buffer} (halloc : allocBuffer temp.itemSize.toNat temp.count.toNat = some b) :
    readHistogramFromNode stream =
      if 0 < retOfSize (min b.bufSize (stream.drop sizeofHistogram).length) then
        some (⟨temp.srcNodeid, temp.stepHistCommon, temp.stepHistLast,
          receiveItems b (stream.drop sizeofHistogram) temp.count.toNat (count_mul_le halloc)⟩,
          (stream.drop sizeofHistogram).drop b.bufSize)
      else none := by
  have hne : ¬ stream.isEmpty = true := by simpa using hstream
  subst htemp
  rw [readHistogramFromNode, if_neg hne]
  simp only
  split
  · rename_i hnone
    rw [halloc] at hnone
    cases hnone
  · rename_i b' hsome
    rw [halloc, Option.some.injEq] at hsome
    subst hsome
    rfl

/-- The bytes that the receiver of a histogram allocates and reads behind the structure. -/
def BufferedHistogram.readSize (h : BufferedHistogram) : Nat :=
  allocBufferCount h.buffer.count * h.buffer.itemSize

theorem BufferedHistogram.readSize_le (h : BufferedHistogram) : h.readSize ≤ h.buffer.bufSize := by
  rw [readSize, ← h.buffer.bufferCountMax_mul]
  apply Nat.mul_le_mul_right
  have hpos := h.buffer.bufferCountMax_pos
  have hle := h.buffer.count_le_bufferCountMax
  unfold allocBufferCount
  split <;> omega

private theorem BufferedHistogram.readSize_pos (h : BufferedHistogram) : 0 < h.readSize :=
  Nat.mul_pos (allocBufferCount_pos _) h.buffer.itemSize_pos

namespace BufferedHistogram

private theorem toNat_itemSize (h : BufferedHistogram) :
    (UInt32.ofNat h.buffer.itemSize).toNat = h.buffer.itemSize := by
  have hlt := h.buffer.itemSize_lt
  rw [UInt32.toNat_ofNat', Nat.mod_eq_of_lt (by omega)]

theorem toNat_count (h : BufferedHistogram) :
    (UInt32.ofNat h.buffer.count).toNat = h.buffer.count := by
  rw [UInt32.toNat_ofNat', Nat.mod_eq_of_lt h.buffer.count_lt]

private theorem directRead_struct (h : BufferedHistogram) (pointer : UInt32) (rest : List UInt8) :
    directRead (writeHistogramToNode h pointer ++ rest) sizeofHistogram = h.structBytes pointer := by
  rw [writeHistogramToNode, List.append_assoc, directRead_eq_take]
  · exact List.take_left' (h.length_structBytes pointer)
  · simp [h.length_structBytes]

private theorem drop_struct (h : BufferedHistogram) (pointer : UInt32) (rest : List UInt8) :
    (writeHistogramToNode h pointer ++ rest).drop sizeofHistogram = h.buffer.data ++ rest := by
  rw [writeHistogramToNode, List.append_assoc]
  exact List.drop_left' (h.length_structBytes pointer)

private theorem exists_allocBuffer (h : BufferedHistogram) :
    ∃ b, allocBuffer (UInt32.ofNat h.buffer.itemSize).toNat (UInt32.ofNat h.buffer.count).toNat =
        some b ∧ b.itemSize = h.buffer.itemSize ∧ b.bufSize = h.readSize := by
  rw [h.toNat_itemSize, h.toNat_count]
  obtain ⟨b, halloc⟩ := allocBuffer_isSome h.buffer.itemSize_pos h.buffer.itemSize_lt
    (h.readSize_le.trans_lt h.buffer.bufSize_lt)
  obtain ⟨hitem, hsize⟩ := allocBuffer_sizes halloc
  exact ⟨b, halloc, hitem, hsize⟩

private theorem directRead_data (h : BufferedHistogram) (rest : List UInt8) :
    directRead (h.buffer.data ++ rest) h.readSize = h.buffer.data.take h.readSize := by
  have hle : h.readSize ≤ h.buffer.data.length := by
    rw [h.buffer.length_data]
    exact h.readSize_le
  rw [directRead_eq_take _ _ (by rw [List.length_append]; omega),
    List.take_append_of_le_length hle]

end BufferedHistogram

theorem readHistogramFromNode_written (h : BufferedHistogram) (pointer : UInt32)
    (rest : List UInt8) :
    ∃ h' : BufferedHistogram,
      readHistogramFromNode (writeHistogramToNode h pointer ++ rest) =
        (if h.readSize < 2 ^ 31 then some (h', (h.buffer.data ++ rest).drop h.readSize) else none) ∧
      h'.stepHistCommon = h.stepHistCommon ∧ h'.stepHistLast = h.stepHistLast ∧
      h'.buffer.count = h.buffer.count ∧ h'.buffer.items = h.buffer.items := by
  have hbound := h.readSize_le
  have hpos := h.readSize_pos
  have hlt := h.buffer.bufSize_lt
  have hstruct := h.structOfBytes_structBytes pointer
  rw [← h.directRead_struct pointer rest] at hstruct
  obtain ⟨b, halloc, hbitem, hbsize⟩ := h.exists_allocBuffer
  have hne : writeHistogramToNode h pointer ++ rest ≠ [] := by
    intro hnil
    have hlength := congrArg List.length hnil
    simp [writeHistogramToNode, h.length_structBytes, sizeofHistogram] at hlength
  have havailable : min b.bufSize (h.buffer.data ++ rest).length = h.readSize := by
    rw [hbsize, List.length_append, h.buffer.length_data]
    exact Nat.min_eq_left (by omega)
  have hret : 0 < retOfSize h.readSize ↔ h.readSize < 2 ^ 31 := by
    rw [retOfSize_pos_iff, Nat.mod_eq_of_lt (by omega)]
    omega
  have hused : h.buffer.itemSize * h.buffer.count ≤ h.readSize := by
    rw [BufferedHistogram.readSize, Nat.mul_comm]
    exact Nat.mul_le_mul_right _ (le_allocBufferCount _)
  have hresult := readHistogramFromNode_eq hne hstruct halloc
  simp only [h.drop_struct, havailable, if_congr hret rfl rfl] at hresult
  rw [hbsize] at hresult
  refine ⟨_, hresult, rfl, rfl, ?_, ?_⟩
  · exact h.toNat_count
  · refine Buffer.items_congr h.toNat_count hbitem ?_
    simp only [receiveItems, hbsize, h.directRead_data, List.take_take]
    rw [Nat.min_eq_left hused]

/-- The receiver recovers the steps, the count and the hashes, and leaves what is behind the
histogram. -/
def HistogramRoundTrips (h : BufferedHistogram) (pointer : UInt32) (rest : List UInt8) : Prop :=
  ∃ h' : BufferedHistogram,
    readHistogramFromNode (writeHistogramToNode h pointer ++ rest) = some (h', rest) ∧
    h'.stepHistCommon = h.stepHistCommon ∧ h'.stepHistLast = h.stepHistLast ∧
    h'.buffer.count = h.buffer.count ∧ h'.buffer.items = h.buffer.items

theorem HistogramRoundTrips.readSize_eq {h : BufferedHistogram} {pointer : UInt32} {rest : List UInt8}
    (hround : HistogramRoundTrips h pointer rest) :
    h.buffer.bufSize = h.readSize ∧ h.readSize < 2 ^ 31 := by
  obtain ⟨h', hread, -⟩ := hround
  obtain ⟨h'', hwritten, -⟩ := readHistogramFromNode_written h pointer rest
  rw [hread] at hwritten
  split at hwritten
  · rename_i hlt
    have hrest := congrArg List.length (Prod.mk.inj (Option.some.inj hwritten)).2
    have hle := h.readSize_le
    rw [List.length_drop, List.length_append, h.buffer.length_data] at hrest
    exact ⟨by omega, hlt⟩
  · cases hwritten

theorem HistogramRoundTrips.of_readSize {h : BufferedHistogram} (heq : h.buffer.bufSize = h.readSize)
    (hlt : h.readSize < 2 ^ 31) (pointer : UInt32) (rest : List UInt8) :
    HistogramRoundTrips h pointer rest := by
  obtain ⟨h', hwritten, hcommon, hlast, hcount, hitems⟩ :=
    readHistogramFromNode_written h pointer rest
  rw [if_pos hlt, List.drop_left' (h.buffer.length_data.trans heq)] at hwritten
  exact ⟨h', hwritten, hcommon, hlast, hcount, hitems⟩

/-- A histogram gets through exactly when its hashes fill the buffer, or there is none and room for
one, and the buffer can be read at once. -/
theorem histogramRoundTrips_iff (h : BufferedHistogram) (pointer : UInt32) (rest : List UInt8) :
    HistogramRoundTrips h pointer rest ↔
      h.buffer.bufSize = allocBufferCount h.buffer.count * h.buffer.itemSize ∧
        h.buffer.bufSize < 2 ^ 31 := by
  constructor
  · intro hround
    obtain ⟨heq, hlt⟩ := hround.readSize_eq
    exact ⟨heq, heq ▸ hlt⟩
  · rintro ⟨heq, hlt⟩
    rw [← BufferedHistogram.readSize] at heq
    exact HistogramRoundTrips.of_readSize heq (heq ▸ hlt) pointer rest

/-- One hash of a byte in a buffer with room for a hundred. -/
def oneHash : BufferedHistogram where
  srcNodeid := 0
  stepHistCommon := 5
  stepHistLast := 5
  buffer :=
    { bufSize := 100
      itemSize := byteHashes.hashSize
      count := 1
      data := 7 :: List.replicate 99 0
      itemSize_pos := byteHashes.hashSize_pos
      itemSize_lt := byteHashes.hashSize_lt
      whole := Nat.one_dvd 100
      bufSize_pos := by decide
      bufSize_lt := by decide
      count_le := by decide
      length_data := by simp }

/-- The spare room of the buffer is sent and not read. -/
theorem oneHash_not_histogramRoundTrips : ¬ HistogramRoundTrips oneHash 0 [] := by
  intro hround
  have hsize : 100 = oneHash.readSize := hround.readSize_eq.1
  exact absurd hsize (by decide)

/-! ## The histogram of a mapper -/

/-- Hashes a mapper's hash buffer is allocated for. -/
def histogramGranularity : Nat := 100

/-- A histogram whose hashes were added to the buffer that a mapper starts with. -/
def storeHistogram (fresh : Nat → UInt8) (hashSize : Nat) (h : Histogram (List UInt8)) :
    Option BufferedHistogram :=
  (allocBuffer hashSize histogramGranularity).bind fun b =>
    (h.hashes.foldlM (Buffer.addBufferItem fresh) b).map fun b =>
      ⟨0, h.stepHistCommon, h.stepHistLast, b⟩

/-- The histogram of a mapper gets through exactly when it has a hundred hashes, doubled some
times. -/
theorem storeHistogram_roundTrips_iff (fresh : Nat → UInt8) (mif : MapReduceData)
    (h : Histogram (List UInt8)) (hhash : ∀ hash ∈ h.hashes, hash.length = mif.hashSize)
    (halloc : histogramGranularity * mif.hashSize < 2 ^ 32)
    (hsize : 2 * (h.hashes.length * mif.hashSize) < 2 ^ 32) :
    ∃ stored, storeHistogram fresh mif.hashSize h = some stored ∧
      stored.buffer.items = h.hashes ∧
      ∀ pointer rest, HistogramRoundTrips stored pointer rest ↔
        ∃ k, h.hashes.length = histogramGranularity * 2 ^ k := by
  obtain ⟨b, hb⟩ : ∃ b, allocBuffer mif.hashSize histogramGranularity = some b :=
    allocBuffer_isSome mif.hashSize_pos mif.hashSize_lt halloc
  obtain ⟨hitem, hempty, hzero, hgrown⟩ := allocBuffer_grown hb
  obtain ⟨b', hadd, hitems, hitem', hgrown'⟩ := Buffer.addBufferItems_grown fresh h.hashes b hgrown
    (fun hash hmem => (hhash hash hmem).trans hitem.symm)
    (by rw [hzero, Nat.zero_add, hitem]; exact hsize)
  rw [hempty, List.nil_append] at hitems
  have hcount : b'.count = h.hashes.length := by rw [← b'.length_items, hitems]
  have hroom : histogramGranularity ≤ b'.bufferCountMax := hgrown'.granularity_le
  rw [histogramGranularity] at hroom
  refine ⟨_, by rw [storeHistogram, hb, Option.bind_some, hadd, Option.map_some], hitems,
    fun pointer rest => ?_⟩
  rw [← hcount]
  constructor
  · intro hround
    have hsizes := hround.readSize_eq.1
    rw [BufferedHistogram.readSize, ← b'.bufferCountMax_mul] at hsizes
    have hread := Nat.eq_of_mul_eq_mul_right b'.itemSize_pos hsizes
    apply hgrown'.full_iff.mp
    rcases Nat.eq_zero_or_pos b'.count with hnone | hsome
    · rw [hnone, allocBufferCount_zero] at hread
      omega
    · rw [hread, allocBufferCount_of_pos hsome]
  · intro hdoubled
    have hfull := hgrown'.full_iff.mpr hdoubled
    have hsome : 0 < b'.count := by omega
    have hread : allocBufferCount b'.count * b'.itemSize = b'.bufSize := by
      rw [allocBufferCount_of_pos hsome, hfull, b'.bufferCountMax_mul]
    apply HistogramRoundTrips.of_readSize hread.symm
    rw [BufferedHistogram.readSize, allocBufferCount_of_pos hsome, hcount, hitem', hitem]
    omega

end Zrt.MapReduce.Wire
