import Zrt.Helpers.BufferedIo
import Zrt.MapReduce.Baskets

/-!
# Packets from map nodes to reduce nodes

`WriteDataToReduce` sends a slice of a map buffer: the size of the packet, the last data flag, the
number of items and the items. `RecvDataFromSingleMap` reads the size first and the rest through a
buffer of that size. An `int` and an address have four bytes.
-/

namespace Zrt.MapReduce.Wire

open Helpers Helpers.BufferedIOData

def intBytes (word : UInt32) : List UInt8 :=
  [.ofNat word.toNat, .ofNat (word.toNat / 2 ^ 8), .ofNat (word.toNat / 2 ^ 16),
    .ofNat (word.toNat / 2 ^ 24)]

def intOfBytes : List UInt8 → UInt32
  | [a, b, c, d] =>
      .ofNat (a.toNat + 2 ^ 8 * b.toNat + 2 ^ 16 * c.toNat + 2 ^ 24 * d.toNat)
  | _ => 0

@[simp] theorem length_intBytes (word : UInt32) : (intBytes word).length = 4 := rfl

@[simp] theorem intOfBytes_intBytes (word : UInt32) : intOfBytes (intBytes word) = word := by
  have hlt := word.toNat_lt
  apply UInt32.toNat_inj.mp
  simp only [intBytes, intOfBytes, UInt8.toNat_ofNat', UInt32.toNat_ofNat']
  omega

/-- The part of the configuration that the packets depend on. -/
structure MapReduceData where
  hashSize : Nat
  valueAddrIsData : Bool
  hashSize_pos : 0 < hashSize
  hashSize_lt : hashSize < 2 ^ 31

/-- A value is the address itself or the data at it, as the configuration says. -/
inductive Value : Bool → Type
  | addr (word : UInt32) : Value true
  | data (bytes : List UInt8) : Value false
deriving DecidableEq

/-- The size field, which is not used when the address is the data. -/
def Value.size {m : Bool} : Value m → Nat
  | .addr _ => 0
  | .data bytes => bytes.length

structure ElasticBufItemData (valueAddrIsData : Bool) where
  keyData : List UInt8
  value : Value valueAddrIsData
  keyHash : List UInt8
deriving DecidableEq

/-- Sizes are of type `int`, and a hash has the configured size. -/
structure ElasticBufItemData.WellFormed {m : Bool} (item : ElasticBufItemData m)
    (hashSize : Nat) : Prop where
  keyData_lt : item.keyData.length < 2 ^ 31
  value_lt : item.value.size < 2 ^ 31
  length_keyHash : item.keyHash.length = hashSize

/-- The items of a map buffer. -/
abbrev MrItem (mif : MapReduceData) :=
  { item : ElasticBufItemData mif.valueAddrIsData // item.WellFormed mif.hashSize }

/-- The writer, the bytes on the descriptor and the count of bytes written. -/
structure SendState where
  bio : BufferedIOData
  out : List UInt8
  bytes : Nat

def SendState.write (s : SendState) (data : List UInt8) : SendState :=
  let written := s.bio.bufWrite s.out data
  ⟨written.2.1, written.2.2, s.bytes + written.1⟩

def bufferedWriteSingleMrItem {m : Bool} (s : SendState) (item : ElasticBufItemData m) :
    SendState :=
  let s := s.write (intBytes (.ofNat item.keyData.length))
  let s := s.write item.keyData
  let s := match item.value with
    | .addr word => s.write (intBytes word)
    | .data bytes => (s.write (intBytes (.ofNat bytes.length))).write bytes
  s.write item.keyHash

def calculateSendingDataSize (mif : MapReduceData) (items : List (MrItem mif)) : Nat :=
  let senddatasize := items.foldl
    (fun size item =>
      if mif.valueAddrIsData then size + item.1.keyData.length
      else size + item.1.keyData.length + item.1.value.size) (4 + 4)
  -- the address or the size of each value, the hash and the size of the key
  senddatasize + items.length * 4 + items.length * mif.hashSize + items.length * 4

/-- The slice of a buffer that a packet is made of. -/
def slice {mif : MapReduceData} (map : List (MrItem mif)) (start count : Nat) :
    List (MrItem mif) :=
  (map.drop start).take count

/-- The writer afterwards and the bytes of the packet; `none` where an assertion fails. -/
def writeDataToReduce (mif : MapReduceData) (bio : BufferedIOData) (map : List (MrItem mif))
    (dataStartIndex itemsCount : Nat) (lastDataFlag : UInt32) :
    Option (BufferedIOData × List UInt8) :=
  if dataStartIndex + itemsCount ≤ map.length then
    let items := slice map dataStartIndex itemsCount
    let senddatasize := UInt32.ofNat (calculateSendingDataSize mif items)
    let sized := bio.bufWrite [] (intBytes senddatasize)
    let s : SendState := ⟨sized.2.1, sized.2.2, 0⟩
    let s := s.write (intBytes lastDataFlag)
    let s := s.write (intBytes (.ofNat itemsCount))
    let s := items.foldl (fun s item => bufferedWriteSingleMrItem s item.1) s
    let flushed := s.bio.bufFlushWrite s.out
    if UInt32.ofNat s.bytes = senddatasize then some flushed else none
  else none

/-- The reader and what the descriptor has left. -/
structure RecvState where
  bio : BufferedIOData
  stream : List UInt8

/-- The macro `BUFFERED_READ_ASSERT`. -/
def RecvState.bufferedReadAssert (s : RecvState) (size : Nat) :
    Option (List UInt8 × RecvState) :=
  let r := s.bio.bufRead s.stream size
  if 0 < r.ret then some (r.data, ⟨r.io, r.stream⟩) else none

def readValue : (m : Bool) → RecvState → Option (Value m × RecvState)
  | true, s => do
      let (word, s) ← s.bufferedReadAssert 4
      return (.addr (intOfBytes word), s)
  | false, s => do
      let (size, s) ← s.bufferedReadAssert 4
      let (bytes, s) ← s.bufferedReadAssert (intOfBytes size).toNat
      return (.data bytes, s)

def bufferedReadSingleMrItem (mif : MapReduceData) (s : RecvState) :
    Option (ElasticBufItemData mif.valueAddrIsData × RecvState) := do
  let (keySize, s) ← s.bufferedReadAssert 4
  let (keyData, s) ← s.bufferedReadAssert (intOfBytes keySize).toNat
  let (value, s) ← readValue mif.valueAddrIsData s
  let (keyHash, s) ← s.bufferedReadAssert mif.hashSize
  return (⟨keyData, value, keyHash⟩, s)

def readItems (mif : MapReduceData) :
    Nat → RecvState → Option (List (ElasticBufItemData mif.valueAddrIsData) × RecvState)
  | 0, s => some ([], s)
  | n + 1, s => do
      let (item, s) ← bufferedReadSingleMrItem mif s
      let (items, s) ← readItems mif n s
      return (item :: items, s)

/-- How often a loop that counts from zero up to an `int` runs. -/
def loopBound (word : UInt32) : Nat := (retOfSize word.toNat).toNat

/-- The flag returned, the buffer if it was initialised, and what the descriptor has left. -/
structure Received (valueAddrIsData : Bool) where
  exclFlag : UInt32
  map : Option (List (ElasticBufItemData valueAddrIsData))
  stream : List UInt8
deriving DecidableEq

/-- Everything behind the size of the packet. -/
def recvBody (mif : MapReduceData) (s : RecvState) :
    Option (Received mif.valueAddrIsData) := do
  let (exclFlag, s) ← s.bufferedReadAssert 4
  let (itemsCount, s) ← s.bufferedReadAssert 4
  let (items, s) ← readItems mif (loopBound (intOfBytes itemsCount)) s
  return ⟨intOfBytes exclFlag, some items, s.stream⟩

/-- A size that is not positive leaves the buffer as it was. -/
def recvDataFromSingleMap (mif : MapReduceData) (stream : List UInt8) :
    Option (Received mif.valueAddrIsData) :=
  if stream.isEmpty then none
  else
    let bytes := (intOfBytes (directRead stream 4)).toNat
    let stream := stream.drop 4
    if 0 < retOfSize bytes then recvBody mif ⟨alloc (List.replicate bytes 0), stream⟩
    else some ⟨0, none, stream⟩

section Pieces

/-- The writes that a value is made of. -/
def Value.pieces {m : Bool} : Value m → List (List UInt8)
  | .addr word => [intBytes word]
  | .data bytes => [intBytes (.ofNat bytes.length), bytes]

def ElasticBufItemData.pieces {m : Bool} (item : ElasticBufItemData m) : List (List UInt8) :=
  intBytes (.ofNat item.keyData.length) :: item.keyData :: (item.value.pieces ++ [item.keyHash])

/-- The writes of a packet behind its size. -/
def packetPieces {mif : MapReduceData} (lastDataFlag : UInt32) (items : List (MrItem mif)) :
    List (List UInt8) :=
  intBytes lastDataFlag :: intBytes (.ofNat items.length) ::
    items.flatMap (fun item => item.1.pieces)

private theorem Value.length_flatten_pieces {m : Bool} (value : Value m) :
    value.pieces.flatten.length = 4 + value.size := by
  cases value with
  | addr word => rfl
  | data bytes => simp [Value.pieces, Value.size]

private theorem length_flatten_pieces {mif : MapReduceData} (item : MrItem mif) :
    item.1.pieces.flatten.length =
      4 + item.1.keyData.length + (4 + item.1.value.size) + mif.hashSize := by
  have hhash := item.2.length_keyHash
  have hvalue := item.1.value.length_flatten_pieces
  simp only [ElasticBufItemData.pieces, List.flatten_cons, List.flatten_append, List.length_append,
    length_intBytes, List.flatten_nil, List.append_nil]
  omega

private theorem Value.size_of_addr {m : Bool} (value : Value m) (h : m = true) : value.size = 0 := by
  cases value with
  | addr => rfl
  | data => cases h

theorem calculateSendingDataSize_eq (mif : MapReduceData) (lastDataFlag : UInt32)
    (items : List (MrItem mif)) :
    calculateSendingDataSize mif items = (packetPieces lastDataFlag items).flatten.length := by
  have hloop : ∀ (items : List (MrItem mif)) (size : Nat),
      items.foldl (fun size item =>
        if mif.valueAddrIsData then size + item.1.keyData.length
        else size + item.1.keyData.length + item.1.value.size) size +
        items.length * 4 + items.length * mif.hashSize + items.length * 4 =
      size + (items.flatMap (fun item => item.1.pieces)).flatten.length := by
    intro items
    induction items with
    | nil => simp
    | cons item items ih =>
        intro size
        have hsize : (if mif.valueAddrIsData then size + item.1.keyData.length
            else size + item.1.keyData.length + item.1.value.size) =
            size + item.1.keyData.length + item.1.value.size := by
          split
          · rename_i haddr
            rw [item.1.value.size_of_addr haddr, Nat.add_zero]
          · rfl
        have hitem := length_flatten_pieces item
        have hrest := ih (size + item.1.keyData.length + item.1.value.size)
        simp only [List.foldl_cons, hsize, List.flatMap_cons, List.flatten_append,
          List.length_append, List.length_cons, Nat.add_mul, Nat.one_mul]
        omega
  rw [calculateSendingDataSize]
  simp only [hloop, packetPieces, List.flatten_cons, List.length_append, length_intBytes]
  omega

end Pieces

section Send

/-- What has been sent so far, on the descriptor or in the buffer. -/
structure SendState.Sent (s : SendState) (sent : List UInt8) (bytes : Nat) : Prop where
  pending : ∃ held, s.bio.Pending held ∧ s.out ++ held = sent
  bytes_eq : s.bytes = bytes

private theorem SendState.Sent.write {s : SendState} {sent : List UInt8} {bytes : Nat}
    (h : s.Sent sent bytes) (data : List UInt8) :
    (s.write data).Sent (sent ++ data) (bytes + data.length) := by
  obtain ⟨held, hpending, hsent⟩ := h.pending
  obtain ⟨held', hret, hpending', hsent'⟩ := hpending.bufWrite s.out data
  refine ⟨⟨held', hpending', ?_⟩, ?_⟩
  · rw [← hsent]
    exact hsent'
  · simp only [SendState.write, hret, h.bytes_eq]

private theorem SendState.Sent.writeAll {s : SendState} {sent : List UInt8} {bytes : Nat}
    (h : s.Sent sent bytes) (pieces : List (List UInt8)) :
    (pieces.foldl SendState.write s).Sent (sent ++ pieces.flatten)
      (bytes + pieces.flatten.length) := by
  induction pieces generalizing s sent bytes with
  | nil => simpa using h
  | cons piece pieces ih =>
      have hrest := ih (h.write piece)
      rw [List.append_assoc, Nat.add_assoc, ← List.length_append, ← List.flatten_cons] at hrest
      exact hrest

private theorem bufferedWriteSingleMrItem_eq {m : Bool} (s : SendState) (item : ElasticBufItemData m) :
    bufferedWriteSingleMrItem s item = item.pieces.foldl SendState.write s := by
  obtain ⟨keyData, value, keyHash⟩ := item
  cases value <;> rfl

private theorem foldl_bufferedWriteSingleMrItem {mif : MapReduceData} (items : List (MrItem mif))
    (s : SendState) :
    items.foldl (fun s item => bufferedWriteSingleMrItem s item.1) s =
      (items.flatMap (fun item => item.1.pieces)).foldl SendState.write s := by
  induction items generalizing s with
  | nil => rfl
  | cons item items ih =>
      rw [List.foldl_cons, ih, bufferedWriteSingleMrItem_eq, List.flatMap_cons, List.foldl_append]

/-- The packet of some items. -/
def packet {mif : MapReduceData} (lastDataFlag : UInt32) (items : List (MrItem mif)) : List UInt8 :=
  intBytes (.ofNat (calculateSendingDataSize mif items)) ++
    (packetPieces lastDataFlag items).flatten

/-- The writer once it has the size of the packet. -/
def SendState.sized (bio : BufferedIOData) (size : UInt32) : SendState :=
  ⟨(bio.bufWrite [] (intBytes size)).2.1, (bio.bufWrite [] (intBytes size)).2.2, 0⟩

private theorem SendState.sized_sent {bio : BufferedIOData} (hbio : bio.Pending []) (size : UInt32) :
    (SendState.sized bio size).Sent (intBytes size) 0 := by
  obtain ⟨held, -, hpending, hsent⟩ := hbio.bufWrite [] (intBytes size)
  exact ⟨⟨held, hpending, hsent⟩, rfl⟩

theorem writeDataToReduce_eq {mif : MapReduceData} {bio : BufferedIOData} (hbio : bio.Pending [])
    (map : List (MrItem mif)) (start count : Nat) (lastDataFlag : UInt32)
    (hrange : start + count ≤ map.length) :
    ∃ bio', writeDataToReduce mif bio map start count lastDataFlag =
      some (bio', packet lastDataFlag (slice map start count)) ∧ bio'.Pending [] := by
  set items := slice map start count with hitems
  have hcount : items.length = count := by
    rw [hitems, slice, List.length_take, List.length_drop]
    omega
  set size := UInt32.ofNat (calculateSendingDataSize mif items) with hsize
  set sent := (packetPieces lastDataFlag items).foldl SendState.write (.sized bio size) with hdef
  have hwrite : writeDataToReduce mif bio map start count lastDataFlag =
      if UInt32.ofNat sent.bytes = size then some (sent.bio.bufFlushWrite sent.out) else none := by
    rw [writeDataToReduce, if_pos hrange]
    simp only [← hitems, ← hsize, foldl_bufferedWriteSingleMrItem]
    simp only [hdef, packetPieces, hcount, List.foldl_cons, SendState.sized]
  have hall := (SendState.sized_sent hbio size).writeAll (packetPieces lastDataFlag items)
  rw [Nat.zero_add, ← calculateSendingDataSize_eq, ← hdef] at hall
  obtain ⟨held, hheld, hout⟩ := hall.pending
  obtain ⟨hflushed, hempty⟩ := hheld.bufFlushWrite sent.out
  refine ⟨_, ?_, hempty⟩
  rw [hwrite, hall.bytes_eq, if_pos hsize.symm, packet, ← hsize, ← hout, ← hflushed]

/-- The size at the head of a packet is the number of bytes behind it, whatever the send buffer. -/
theorem writeDataToReduce_sizePrefix {mif : MapReduceData} {bio : BufferedIOData}
    (hbio : bio.Pending []) (map : List (MrItem mif)) (start count : Nat) (lastDataFlag : UInt32)
    (hrange : start + count ≤ map.length)
    (htotal : (packetPieces lastDataFlag (slice map start count)).flatten.length < 2 ^ 31) :
    ∃ bio' senddatasize body, writeDataToReduce mif bio map start count lastDataFlag =
      some (bio', intBytes senddatasize ++ body) ∧ senddatasize.toNat = body.length ∧
      body = (packetPieces lastDataFlag (slice map start count)).flatten := by
  obtain ⟨bio', hwrite, -⟩ := writeDataToReduce_eq hbio map start count lastDataFlag hrange
  refine ⟨bio', _, _, hwrite, ?_, rfl⟩
  rw [calculateSendingDataSize_eq mif lastDataFlag, UInt32.toNat_ofNat']
  exact Nat.mod_eq_of_lt (by omega)

/-- A configuration with hashes of one byte and values behind their addresses. -/
def byteHashes : MapReduceData := ⟨1, false, by decide, by decide⟩

/-- A send buffer of three bytes, which most of the writes do not fit in. -/
theorem writeDataToReduce_sizePrefix_smallBuffer :
    ∃ bio' senddatasize body, writeDataToReduce byteHashes (alloc [0, 0, 0])
        [(⟨⟨[1, 2], .data [3], [4]⟩, by decide, by decide, rfl⟩ : MrItem byteHashes)] 0 1 1 =
      some (bio', intBytes senddatasize ++ body) ∧ senddatasize.toNat = body.length ∧
      body = (packetPieces 1 (slice
        [(⟨⟨[1, 2], .data [3], [4]⟩, by decide, by decide, rfl⟩ : MrItem byteHashes)] 0 1)).flatten :=
  writeDataToReduce_sizePrefix (pending_alloc _) _ 0 1 1 (by decide) (by decide)

end Send

section Recv

/-- The reader stands before the given pieces, which are followed by `rest`, and will have read
`final` bytes of `rest` ahead when it has read the pieces. -/
def RecvState.At (s : RecvState) (bufmax : Nat) (pieces : List (List UInt8)) (rest : List UInt8)
    (final : Nat) : Prop :=
  ∃ unread, s.bio.Holding unread ∧ s.bio.bufmax = bufmax ∧ unread.length < bufmax ∧
    unread ++ s.stream = pieces.flatten ++ rest ∧
    readAheads bufmax unread.length (pieces.map List.length) = final

variable {mif : MapReduceData} {s : RecvState} {bufmax final : Nat} {pieces : List (List UInt8)}
  {rest : List UInt8}

private theorem full_of_readAheads {avail : Nat} (piece : List UInt8)
    (hahead : readAheads bufmax avail ((piece :: pieces).map List.length) = final)
    (hfull : bufmax ≤ rest.length ∨ final = 0) :
    piece.length ≤ avail ∨ bufmax ≤ ((piece :: pieces).flatten ++ rest).length := by
  by_cases hbuffered : piece.length ≤ avail
  · exact .inl hbuffered
  · right
    have hsum := le_sum_add_readAheads bufmax (pieces.map List.length)
      (readAhead bufmax avail piece.length)
    have hstep : readAheads bufmax (readAhead bufmax avail piece.length)
        (pieces.map List.length) = final := hahead
    rw [hstep, readAhead, if_neg hbuffered] at hsum
    rw [List.length_append, List.flatten_cons, List.length_append, List.length_flatten]
    omega

theorem RecvState.At.read {piece : List UInt8} (h : s.At bufmax (piece :: pieces) rest final)
    (hfull : bufmax ≤ rest.length ∨ final = 0) (hpos : 0 < piece.length)
    (hlt : piece.length < 2 ^ 31) :
    ∃ s', s.bufferedReadAssert piece.length = some (piece, s') ∧
      s'.At bufmax pieces rest final := by
  obtain ⟨unread, hholding, hbufmax, hroom, hbytes, hahead⟩ := h
  have hlen := congrArg List.length hbytes
  rw [List.length_append] at hlen
  have hpiece : (piece :: pieces).flatten ++ rest = piece ++ (pieces.flatten ++ rest) := by
    rw [List.flatten_cons, List.append_assoc]
  subst bufmax
  obtain ⟨unread', hread, hahead'⟩ := hholding.bufRead s.stream piece.length (by
    rw [hlen, hpiece, List.length_append]
    omega) hroom
  have hret : 0 < (s.bio.bufRead s.stream piece.length).ret := by
    rw [hread.ret, retOfSize_pos_iff]
    omega
  have hdata := hread.data
  have hleft := hread.left
  rw [hbytes, hpiece] at hdata hleft
  rw [List.take_left] at hdata
  rw [List.drop_left] at hleft
  refine ⟨⟨(s.bio.bufRead s.stream piece.length).io, (s.bio.bufRead s.stream piece.length).stream⟩,
    ?_, unread', hread.holding, hread.bufmax_eq, hread.room, hleft, ?_⟩
  · rw [RecvState.bufferedReadAssert, if_pos hret, hdata]
  · rw [hahead' (by rw [hlen]; exact full_of_readAheads piece hahead hfull)]
    exact hahead

theorem RecvState.bufferedReadAssert_zero (s : RecvState) : s.bufferedReadAssert 0 = none := by
  rw [RecvState.bufferedReadAssert, if_neg]
  rw [ret_bufRead_zero]
  omega

theorem toNat_ofNat_of_lt {size : Nat} (h : size < 2 ^ 31) : (UInt32.ofNat size).toNat = size := by
  rw [UInt32.toNat_ofNat']
  omega

theorem RecvState.At.readInt {word : UInt32}
    (h : s.At bufmax (intBytes word :: pieces) rest final)
    (hfull : bufmax ≤ rest.length ∨ final = 0) :
    ∃ s', s.bufferedReadAssert 4 = some (intBytes word, s') ∧ s'.At bufmax pieces rest final :=
  h.read hfull (by simp) (by simp)

/-- There is a byte to read where a length says so. -/
def Value.Filled {m : Bool} : Value m → Prop
  | .addr _ => True
  | .data bytes => bytes ≠ []

instance {m : Bool} (value : Value m) : Decidable value.Filled :=
  match value with
  | .addr _ => isTrue trivial
  | .data bytes => inferInstanceAs (Decidable (bytes ≠ []))

def ElasticBufItemData.Filled {m : Bool} (item : ElasticBufItemData m) : Prop :=
  item.keyData ≠ [] ∧ item.value.Filled

instance {m : Bool} (item : ElasticBufItemData m) : Decidable item.Filled :=
  inferInstanceAs (Decidable (item.keyData ≠ [] ∧ item.value.Filled))

private theorem RecvState.At.readValue {m : Bool} {value : Value m} (hlt : value.size < 2 ^ 31)
    (h : s.At bufmax (value.pieces ++ pieces) rest final)
    (hfull : bufmax ≤ rest.length ∨ final = 0) (hfilled : value.Filled) :
    ∃ s', Wire.readValue m s = some (value, s') ∧ s'.At bufmax pieces rest final := by
  cases value with
  | addr word =>
      obtain ⟨s₁, hread, h₁⟩ := h.readInt hfull
      refine ⟨s₁, ?_, h₁⟩
      simp [Wire.readValue, hread]
  | data bytes =>
      obtain ⟨s₁, hread₁, h₁⟩ := h.readInt hfull
      obtain ⟨s₂, hread₂, h₂⟩ := h₁.read hfull (List.length_pos_of_ne_nil hfilled) hlt
      refine ⟨s₂, ?_, h₂⟩
      have hsize : (UInt32.ofNat bytes.length).toNat = bytes.length := toNat_ofNat_of_lt hlt
      simp [Wire.readValue, hread₁, intOfBytes_intBytes, hsize, hread₂]

private theorem RecvState.At.readValue_eq_none {m : Bool} {value : Value m}
    (h : s.At bufmax (value.pieces ++ pieces) rest final)
    (hfull : bufmax ≤ rest.length ∨ final = 0) (hfilled : ¬ value.Filled) :
    Wire.readValue m s = none := by
  cases value with
  | addr word => exact absurd trivial hfilled
  | data bytes =>
      have hnil : bytes = [] := Classical.not_not.mp hfilled
      subst hnil
      obtain ⟨s₁, hread₁, -⟩ := h.readInt hfull
      simp [Wire.readValue, hread₁, s₁.bufferedReadAssert_zero]

theorem RecvState.At.readItem {item : MrItem mif}
    (h : s.At bufmax (item.1.pieces ++ pieces) rest final)
    (hfull : bufmax ≤ rest.length ∨ final = 0) (hfilled : item.1.Filled) :
    ∃ s', bufferedReadSingleMrItem mif s = some (item.1, s') ∧ s'.At bufmax pieces rest final := by
  have hhash := item.2.length_keyHash
  rw [ElasticBufItemData.pieces, List.cons_append, List.cons_append, List.append_assoc] at h
  obtain ⟨s₁, hread₁, h₁⟩ := h.readInt hfull
  obtain ⟨s₂, hread₂, h₂⟩ := h₁.read hfull (List.length_pos_of_ne_nil hfilled.1)
    item.2.keyData_lt
  obtain ⟨s₃, hread₃, h₃⟩ := h₂.readValue item.2.value_lt hfull hfilled.2
  obtain ⟨s₄, hread₄, h₄⟩ := h₃.read hfull (by rw [hhash]; exact mif.hashSize_pos)
    (by rw [hhash]; exact mif.hashSize_lt)
  rw [hhash] at hread₄
  refine ⟨s₄, ?_, h₄⟩
  simp [bufferedReadSingleMrItem, hread₁, intOfBytes_intBytes,
    toNat_ofNat_of_lt item.2.keyData_lt, hread₂, hread₃, hread₄]

private theorem RecvState.At.readItem_eq_none {item : MrItem mif}
    (h : s.At bufmax (item.1.pieces ++ pieces) rest final)
    (hfull : bufmax ≤ rest.length ∨ final = 0) (hfilled : ¬ item.1.Filled) :
    bufferedReadSingleMrItem mif s = none := by
  rw [ElasticBufItemData.pieces, List.cons_append, List.cons_append, List.append_assoc] at h
  obtain ⟨s₁, hread₁, h₁⟩ := h.readInt hfull
  by_cases hkey : item.1.keyData = []
  · have hzero : (UInt32.ofNat item.1.keyData.length).toNat = 0 := by
      rw [hkey]
      rfl
    simp [bufferedReadSingleMrItem, hread₁, intOfBytes_intBytes, hzero,
      s₁.bufferedReadAssert_zero]
  · obtain ⟨s₂, hread₂, h₂⟩ := h₁.read hfull (List.length_pos_of_ne_nil hkey) item.2.keyData_lt
    have hvalue : ¬ item.1.value.Filled := fun hv => hfilled ⟨hkey, hv⟩
    simp [bufferedReadSingleMrItem, hread₁, intOfBytes_intBytes,
      toNat_ofNat_of_lt item.2.keyData_lt, hread₂, h₂.readValue_eq_none hfull hvalue]

private theorem RecvState.At.readItems {items : List (MrItem mif)}
    (h : s.At bufmax (items.flatMap (fun item => item.1.pieces)) rest final)
    (hfull : bufmax ≤ rest.length ∨ final = 0) (hfilled : ∀ item ∈ items, item.1.Filled) :
    ∃ s', Wire.readItems mif items.length s = some (items.map Subtype.val, s') ∧
      s'.At bufmax [] rest final := by
  induction items generalizing s with
  | nil => exact ⟨s, rfl, h⟩
  | cons item items ih =>
      rw [List.flatMap_cons] at h
      obtain ⟨s₁, hread₁, h₁⟩ := h.readItem hfull (hfilled item List.mem_cons_self)
      obtain ⟨s₂, hread₂, h₂⟩ := ih h₁ (fun x hx => hfilled x (List.mem_cons_of_mem _ hx))
      refine ⟨s₂, ?_, h₂⟩
      simp [Wire.readItems, hread₁, hread₂]

private theorem RecvState.At.readItems_eq_none {items : List (MrItem mif)}
    (h : s.At bufmax (items.flatMap (fun item => item.1.pieces)) rest final)
    (hfull : bufmax ≤ rest.length ∨ final = 0) (hfilled : ¬ ∀ item ∈ items, item.1.Filled) :
    Wire.readItems mif items.length s = none := by
  induction items generalizing s with
  | nil => exact absurd (fun _ hx => absurd hx List.not_mem_nil) hfilled
  | cons item items ih =>
      rw [List.flatMap_cons] at h
      by_cases hitem : item.1.Filled
      · obtain ⟨s₁, hread₁, h₁⟩ := h.readItem hfull hitem
        have hrest : ¬ ∀ x ∈ items, x.1.Filled := by
          intro hall
          refine hfilled (fun x hx => ?_)
          rcases List.mem_cons.mp hx with rfl | hx
          · exact hitem
          · exact hall x hx
        simp [Wire.readItems, hread₁, ih h₁ hrest]
      · simp [Wire.readItems, h.readItem_eq_none hfull hitem]

theorem loopBound_ofNat {size : Nat} (h : size < 2 ^ 31) :
    loopBound (UInt32.ofNat size) = size := by
  unfold loopBound retOfSize
  rw [toNat_ofNat_of_lt h, Int.bmod_def]
  split <;> omega

-- Rewriting inside the nested binds would make the kernel compare two different reads.
theorem bind_of_eq_some {α β : Type} {x : Option α} {a : α} (f : α → Option β) (h : x = some a) :
    x.bind f = f a := by
  rw [h, Option.bind_some]

private theorem bind_of_eq_none {α β : Type} {x : Option α} (f : α → Option β) (h : x = none) :
    x.bind f = none := by
  rw [h, Option.bind_none]

variable {lastDataFlag : UInt32} {items : List (MrItem mif)}

theorem RecvState.At.recvBody (h : s.At bufmax (packetPieces lastDataFlag items) rest final)
    (hfull : bufmax ≤ rest.length ∨ final = 0) (hcount : items.length < 2 ^ 31)
    (hfilled : ∀ item ∈ items, item.1.Filled) :
    ∃ s' : RecvState, Wire.recvBody mif s =
        some ⟨lastDataFlag, some (items.map Subtype.val), s'.stream⟩ ∧
      s'.At bufmax [] rest final := by
  obtain ⟨s₁, hread₁, h₁⟩ := h.readInt hfull
  obtain ⟨s₂, hread₂, h₂⟩ := h₁.readInt hfull
  obtain ⟨s₃, hread₃, h₃⟩ := h₂.readItems hfull hfilled
  rw [← loopBound_ofNat hcount, ← intOfBytes_intBytes (.ofNat items.length)] at hread₃
  refine ⟨s₃, ?_, h₃⟩
  rw [Wire.recvBody]
  refine (bind_of_eq_some _ hread₁).trans ?_
  refine (bind_of_eq_some _ hread₂).trans ?_
  refine (bind_of_eq_some _ hread₃).trans ?_
  simp only [intOfBytes_intBytes]
  rfl

private theorem RecvState.At.recvBody_eq_none
    (h : s.At bufmax (packetPieces lastDataFlag items) rest final)
    (hfull : bufmax ≤ rest.length ∨ final = 0) (hcount : items.length < 2 ^ 31)
    (hfilled : ¬ ∀ item ∈ items, item.1.Filled) : Wire.recvBody mif s = none := by
  obtain ⟨s₁, hread₁, h₁⟩ := h.readInt hfull
  obtain ⟨s₂, hread₂, h₂⟩ := h₁.readInt hfull
  have hnone := h₂.readItems_eq_none hfull hfilled
  rw [← loopBound_ofNat hcount, ← intOfBytes_intBytes (.ofNat items.length)] at hnone
  rw [Wire.recvBody]
  refine (bind_of_eq_some _ hread₁).trans ?_
  refine (bind_of_eq_some _ hread₂).trans ?_
  exact bind_of_eq_none _ hnone

/-- The sizes of the reads of a packet. -/
def pieceSizes (items : List (MrItem mif)) : List Nat :=
  4 :: 4 :: (items.flatMap (fun item => item.1.pieces)).map List.length

private theorem map_length_packetPieces (lastDataFlag : UInt32) (items : List (MrItem mif)) :
    (packetPieces lastDataFlag items).map List.length = pieceSizes items := rfl

private theorem sum_pieceSizes (items : List (MrItem mif)) :
    (pieceSizes items).sum = calculateSendingDataSize mif items := by
  rw [calculateSendingDataSize_eq mif 0, List.length_flatten, map_length_packetPieces]

/-- A new reader with a buffer of some size. -/
def RecvState.start (bufmax : Nat) (stream : List UInt8) : RecvState :=
  ⟨alloc (List.replicate bufmax 0), stream⟩

theorem RecvState.start_at (hpos : 0 < bufmax) (lastDataFlag : UInt32) (items : List (MrItem mif))
    (rest : List UInt8) :
    (RecvState.start bufmax ((packetPieces lastDataFlag items).flatten ++ rest)).At bufmax
      (packetPieces lastDataFlag items) rest (readAheads bufmax 0 (pieceSizes items)) :=
  ⟨[], holding_alloc _, List.length_replicate, hpos, rfl, rfl⟩

theorem recvDataFromSingleMap_packet (lastDataFlag : UInt32) (items : List (MrItem mif))
    (rest : List UInt8) :
    recvDataFromSingleMap mif (packet lastDataFlag items ++ rest) =
      if 0 < retOfSize (calculateSendingDataSize mif items) then
        Wire.recvBody mif (.start (calculateSendingDataSize mif items % 2 ^ 32)
          ((packetPieces lastDataFlag items).flatten ++ rest))
      else some ⟨0, none, (packetPieces lastDataFlag items).flatten ++ rest⟩ := by
  set size := calculateSendingDataSize mif items with hsize
  set body := (packetPieces lastDataFlag items).flatten with hbody
  have hstream : packet lastDataFlag items ++ rest =
      intBytes (.ofNat size) ++ (body ++ rest) := by
    rw [packet, List.append_assoc]
  have hread : directRead (intBytes (.ofNat size) ++ (body ++ rest)) 4 =
      intBytes (.ofNat size) := by
    rw [directRead_eq_take _ _ (by simp)]
    rfl
  have hret : retOfSize (size % 2 ^ 32) = retOfSize size := by
    unfold retOfSize
    rw [Int.natCast_mod, Int.emod_bmod]
  have hnat : (UInt32.ofNat size).toNat = size % 2 ^ 32 := UInt32.toNat_ofNat'
  have hdrop : (intBytes (.ofNat size) ++ (body ++ rest)).drop 4 = body ++ rest := rfl
  rw [hstream, recvDataFromSingleMap, if_neg (by simp [intBytes]), hread, hdrop]
  simp only [intOfBytes_intBytes, hnat, hret, RecvState.start]

end Recv

section RoundTrip

variable {mif : MapReduceData}

/-- The size of the packet reaches the reader, whose buffer of that size ends with the packet. Below
2 GiB that is so; from 4 GiB on the size has wrapped, and the last refill may still end there. -/
def SizeFits (items : List (MrItem mif)) : Prop :=
  calculateSendingDataSize mif items < 2 ^ 31 ∨
    0 < retOfSize (calculateSendingDataSize mif items) ∧
      readAheads (calculateSendingDataSize mif items % 2 ^ 32) 0 (pieceSizes items) = 0

theorem sizeFits_iff (items : List (MrItem mif)) :
    SizeFits items ↔ 0 < retOfSize (calculateSendingDataSize mif items) ∧
      readAheads (calculateSendingDataSize mif items % 2 ^ 32) 0 (pieceSizes items) = 0 := by
  constructor
  · rintro (hlt | hfits)
    · have hsum := sum_pieceSizes items
      have hpos : 0 < calculateSendingDataSize mif items := by
        rw [← hsum, pieceSizes, List.sum_cons]
        omega
      rw [retOfSize_pos_iff, Nat.mod_eq_of_lt (by omega)]
      refine ⟨⟨hpos, hlt⟩, ?_⟩
      rw [← hsum, pieceSizes]
      exact readAheads_sum _ (by omega) _
    · exact hfits
  · exact .inr

/-- The reader gets back what the writer sent, whatever follows the packet. -/
def RoundTrips (bio : BufferedIOData) (map : List (MrItem mif)) (start count : Nat)
    (lastDataFlag : UInt32) : Prop :=
  ∃ bio' packet, writeDataToReduce mif bio map start count lastDataFlag = some (bio', packet) ∧
    ∀ rest, recvDataFromSingleMap mif (packet ++ rest) =
      some ⟨lastDataFlag, some ((slice map start count).map Subtype.val), rest⟩

theorem recv_packet {items : List (MrItem mif)} (lastDataFlag : UInt32)
    (hcount : items.length < 2 ^ 31) (hfilled : ∀ item ∈ items, item.1.Filled)
    (hfits : SizeFits items) (rest : List UInt8) :
    recvDataFromSingleMap mif (packet lastDataFlag items ++ rest) =
      some ⟨lastDataFlag, some (items.map Subtype.val), rest⟩ := by
  obtain ⟨hret, hahead⟩ := (sizeFits_iff items).mp hfits
  have hpos := ((retOfSize_pos_iff _).mp hret).1
  obtain ⟨s', hbody, unread, -, -, -, hleft, hunread⟩ :=
    (RecvState.start_at hpos lastDataFlag items rest).recvBody (.inr hahead) hcount hfilled
  have hnil : unread = [] := by
    rw [hahead] at hunread
    exact List.eq_nil_of_length_eq_zero hunread
  subst hnil
  rw [recvDataFromSingleMap_packet, if_pos hret, hbody]
  have hrest : s'.stream = rest := hleft
  rw [hrest]

private theorem of_recv_packet {items : List (MrItem mif)} {lastDataFlag : UInt32}
    (hcount : items.length < 2 ^ 31)
    (h : ∀ rest, recvDataFromSingleMap mif (packet lastDataFlag items ++ rest) =
      some ⟨lastDataFlag, some (items.map Subtype.val), rest⟩) :
    (∀ item ∈ items, item.1.Filled) ∧ SizeFits items := by
  set bufmax := calculateSendingDataSize mif items % 2 ^ 32 with hbufmax
  have hrecv := h (List.replicate bufmax 0)
  rw [recvDataFromSingleMap_packet] at hrecv
  by_cases hret : 0 < retOfSize (calculateSendingDataSize mif items)
  · rw [if_pos hret] at hrecv
    have hpos := ((retOfSize_pos_iff _).mp hret).1
    have hstart := RecvState.start_at hpos lastDataFlag items (List.replicate bufmax 0)
    have hfull := Nat.le_of_eq (List.length_replicate (n := bufmax) (a := (0 : UInt8))).symm
    by_cases hfilled : ∀ item ∈ items, item.1.Filled
    · obtain ⟨s', hbody, unread, -, -, -, hleft, hunread⟩ :=
        hstart.recvBody (.inl hfull) hcount hfilled
      rw [hbody, Option.some.injEq, Received.mk.injEq] at hrecv
      rw [hrecv.2.2] at hleft
      have hnil : unread = [] := List.append_left_eq_self.mp hleft
      subst hnil
      exact ⟨hfilled, (sizeFits_iff items).mpr ⟨hret, hunread.symm⟩⟩
    · rw [hstart.recvBody_eq_none (.inl hfull) hcount hfilled] at hrecv
      cases hrecv
  · -- a size that is not positive leaves the buffer uninitialised
    rw [if_neg hret, Option.some.injEq, Received.mk.injEq] at hrecv
    cases hrecv.2.1

theorem roundTrips_iff {bio : BufferedIOData} (hbio : bio.Pending []) (map : List (MrItem mif))
    (start count : Nat) (lastDataFlag : UInt32) (hrange : start + count ≤ map.length)
    (hcount : count < 2 ^ 31) :
    RoundTrips bio map start count lastDataFlag ↔
      (∀ item ∈ slice map start count, item.1.Filled) ∧ SizeFits (slice map start count) := by
  have hlen : (slice map start count).length < 2 ^ 31 := by
    rw [slice, List.length_take]
    omega
  obtain ⟨bio', hwrite, -⟩ := writeDataToReduce_eq hbio map start count lastDataFlag hrange
  constructor
  · rintro ⟨bio'', sent, hsent, hrecv⟩
    rw [hwrite] at hsent
    obtain ⟨-, rfl⟩ := Prod.mk.inj (Option.some.inj hsent)
    exact of_recv_packet hlen hrecv
  · rintro ⟨hfilled, hfits⟩
    exact ⟨bio', _, hwrite, recv_packet lastDataFlag hlen hfilled hfits⟩

theorem roundTrips_iff_oneItem :
    RoundTrips (alloc (List.replicate 8 0))
      [(⟨⟨[1, 2], .data [3], [4]⟩, by decide, by decide, rfl⟩ : MrItem byteHashes)] 0 1 1 :=
  (roundTrips_iff (pending_alloc _) _ 0 1 1 (by decide) (by decide)).mpr
    ⟨by decide, .inl (by decide)⟩

/-- An item without a key is sent, but the assertion on the size read stops the receiver. -/
theorem not_roundTrips_emptyKey :
    ¬ RoundTrips (alloc (List.replicate 8 0))
      [(⟨⟨[], .data [3], [4]⟩, by decide, by decide, rfl⟩ : MrItem byteHashes)] 0 1 1 := by
  rintro ⟨bio', sent, hsent, hrecv⟩
  have hbytes : (writeDataToReduce byteHashes (alloc (List.replicate 8 0))
      [⟨⟨[], .data [3], [4]⟩, by decide, by decide, rfl⟩] 0 1 1).map Prod.snd =
      some [18, 0, 0, 0, 1, 0, 0, 0, 1, 0, 0, 0, 0, 0, 0, 0, 1, 0, 0, 0, 3, 4] := by
    decide
  rw [hsent, Option.map_some, Option.some.injEq] at hbytes
  subst hbytes
  have hnone : recvDataFromSingleMap byteHashes
      ([18, 0, 0, 0, 1, 0, 0, 0, 1, 0, 0, 0, 0, 0, 0, 0, 1, 0, 0, 0, 3, 4] ++ []) = none := by
    decide
  rw [hrecv []] at hnone
  cases hnone

/-- `MAP_NODE_EXCLUDE` and `MAP_NODE_NO_EXCLUDE`. -/
def excludeFlag (lastData : Bool) : UInt32 := if lastData then 1 else 0

theorem reducePacket_received {bio : BufferedIOData} (hbio : bio.Pending [])
    (map : List (MrItem mif)) (node : Nat) (info : BasketInfo) (lastData : Bool)
    {p : ReducePacket (MrItem mif)}
    (hp : MapReduce.writeDataToReduce map node info lastData = some p)
    (hcount : info.countInSection < 2 ^ 31) (hfilled : ∀ item ∈ p.items, item.1.Filled)
    (hfits : SizeFits p.items) :
    ∃ bio' sent, writeDataToReduce mif bio map info.dataStartIndex info.countInSection
        (excludeFlag lastData) = some (bio', sent) ∧ bio'.Pending [] ∧
      ∀ rest, recvDataFromSingleMap mif (sent ++ rest) =
        some ⟨excludeFlag p.lastDataFlag, some (p.items.map Subtype.val), rest⟩ := by
  rw [MapReduce.writeDataToReduce] at hp
  split at hp
  · rename_i hrange
    rw [Option.some.injEq] at hp
    subst hp
    obtain ⟨bio', hwrite, hempty⟩ := writeDataToReduce_eq hbio map _ _ (excludeFlag lastData) hrange
    have hlen : (slice map info.dataStartIndex info.countInSection).length < 2 ^ 31 := by
      rw [slice, List.length_take]
      omega
    exact ⟨bio', _, hwrite, hempty, recv_packet _ hlen hfilled hfits⟩
  · cases hp

end RoundTrip

end Zrt.MapReduce.Wire
