import Mathlib.Algebra.Order.BigOperators.Group.List
import Mathlib.Algebra.Order.Ring.Nat

/-!
# Buffered I/O

A writer collects small writes in a buffer and flushes it when the next write does not fit; a
reader refills its buffer when it does not hold the bytes asked for. What the buffer cannot hold at
all goes directly to or comes directly from the descriptor.
-/

namespace Zrt.Helpers

/-- `memcpy` of some bytes into a buffer, from an offset on. -/
def memcpyAt (buf : List UInt8) (offset : Nat) (data : List UInt8) : List UInt8 :=
  buf.take offset ++ data ++ buf.drop (offset + data.length)

theorem length_memcpyAt (buf : List UInt8) (offset : Nat) (data : List UInt8)
    (h : offset + data.length ≤ buf.length) : (memcpyAt buf offset data).length = buf.length := by
  simp only [memcpyAt, List.length_append, List.length_take, List.length_drop]
  omega

theorem take_memcpyAt (buf : List UInt8) (offset : Nat) (data : List UInt8)
    (h : offset + data.length ≤ buf.length) :
    (memcpyAt buf offset data).take (offset + data.length) = buf.take offset ++ data := by
  have hlen : (buf.take offset ++ data).length = offset + data.length := by
    simp only [List.length_append, List.length_take]
    omega
  rw [memcpyAt, ← hlen, List.take_left]

theorem take_offset_memcpyAt (buf : List UInt8) (offset : Nat) (data : List UInt8)
    (h : offset ≤ buf.length) : (memcpyAt buf offset data).take offset = buf.take offset := by
  have hlen : (buf.take offset).length = offset := by
    rw [List.length_take]
    omega
  rw [memcpyAt, List.append_assoc]
  exact List.take_left' hlen

theorem take_drop_memcpyAt (buf : List UInt8) (offset : Nat) (data : List UInt8)
    (h : offset + data.length ≤ buf.length) :
    ((memcpyAt buf offset data).drop offset).take data.length = data := by
  have hlen : (buf.take offset).length = offset := by
    rw [List.length_take]
    omega
  rw [List.take_drop, take_memcpyAt buf offset data h]
  exact List.drop_left' hlen

/-- The data of both directions; `datasize` is used for reading only. -/
structure BufferedIOData where
  buf : List UInt8
  bufmax : Nat
  cursor : Nat
  datasize : Nat

namespace BufferedIOData

/-- A new buffer of the given contents, which do not matter. -/
def alloc (buf : List UInt8) : BufferedIOData := ⟨buf, buf.length, 0, 0⟩

/-- Send what is buffered to the descriptor, whose bytes written so far are `out`. -/
def bufFlushWrite (self : BufferedIOData) (out : List UInt8) : BufferedIOData × List UInt8 :=
  if self.cursor ≠ 0 then ({ self with cursor := 0 }, out ++ self.buf.take self.cursor)
  else (self, out)

/-- The macro `WRITE_IF_BUFFER_ENOUGH`. -/
def writeIfBufferEnough (self : BufferedIOData) (data : List UInt8) : Option BufferedIOData :=
  if data.length ≤ self.bufmax - self.cursor then
    some { self with
      buf := memcpyAt self.buf self.cursor data
      cursor := self.cursor + data.length }
  else none

/-- The size returned, the writer and the bytes on the descriptor. A direct write is taken to write
all bytes. -/
def bufWrite (self : BufferedIOData) (out data : List UInt8) :
    Nat × BufferedIOData × List UInt8 :=
  match self.writeIfBufferEnough data with
  | some self => (data.length, self, out)
  | none =>
      let flushed := self.bufFlushWrite out
      match flushed.1.writeIfBufferEnough data with
      | some self => (data.length, self, flushed.2)
      | none => (data.length, flushed.1, flushed.2 ++ data)

def bufBuffered (self : BufferedIOData) : Nat := self.datasize - self.cursor

/-- The macro `READ_IF_BUFFER_ENOUGH`. -/
def readIfBufferEnough (self : BufferedIOData) (size : Nat) :
    Option (List UInt8 × BufferedIOData) :=
  if size ≤ self.bufBuffered then
    some ((self.buf.drop self.cursor).take size, { self with cursor := self.cursor + size })
  else none

/-- What a read returns, the bytes it stores, the reader and the rest of the descriptor's bytes. -/
structure ReadResult where
  ret : Int
  data : List UInt8
  io : BufferedIOData
  stream : List UInt8

/-- The conversion of a `size_t` to the `int` that a read returns. -/
def retOfSize (size : Nat) : Int := Int.bmod size (2 ^ 32)

theorem retOfSize_pos_iff (size : Nat) :
    0 < retOfSize size ↔ 0 < size % 2 ^ 32 ∧ size % 2 ^ 32 < 2 ^ 31 := by
  unfold retOfSize
  rw [Int.bmod_def]
  split <;> omega

/-- The destination of a direct read; what the descriptor does not deliver stays unset. -/
def directRead (stream : List UInt8) (size : Nat) : List UInt8 :=
  stream.take size ++ List.replicate (size - stream.length) 0

theorem directRead_eq_take (stream : List UInt8) (size : Nat) (h : size ≤ stream.length) :
    directRead stream size = stream.take size := by
  simp [directRead, Nat.sub_eq_zero_of_le h]

/-- Move the unread data to the beginning of the buffer. -/
def moveUnread (self : BufferedIOData) : BufferedIOData :=
  { self with
    buf :=
      if 0 < self.bufBuffered then
        memcpyAt self.buf 0 ((self.buf.drop self.cursor).take self.bufBuffered)
      else self.buf
    cursor := 0 }

/-- The buffer once `bytes` have been read behind the data that was unread before the move. -/
def fill (self : BufferedIOData) (sizeinuse : Nat) (bytes : List UInt8) : BufferedIOData :=
  { self with
    buf := memcpyAt self.buf sizeinuse bytes
    datasize := sizeinuse + bytes.length }

/-- A read of `size` bytes, where the descriptor yields as many bytes as it has up to the
request. -/
def bufRead (self : BufferedIOData) (stream : List UInt8) (size : Nat) : ReadResult :=
  match self.readIfBufferEnough size with
  | some (data, self) => ⟨retOfSize size, data, self, stream⟩
  | none =>
      let sizeinuse := self.bufBuffered
      let bytes := stream.take (self.bufmax - sizeinuse)
      let rest := stream.drop (self.bufmax - sizeinuse)
      if bytes.isEmpty then ⟨-1, [], self.moveUnread, stream⟩
      else
        let filled := self.moveUnread.fill sizeinuse bytes
        match filled.readIfBufferEnough size with
        | some (data, self) => ⟨retOfSize size, data, self, rest⟩
        | none =>
            -- the rest of the data does not go through the buffer
            let cached := filled.bufBuffered
            ⟨retOfSize size,
              (filled.buf.drop filled.cursor).take cached ++ directRead rest (size - cached),
              { filled with cursor := filled.cursor + cached }, rest.drop (size - cached)⟩

section Write

/-- A writer whose buffer holds the given bytes. -/
structure Pending (io : BufferedIOData) (held : List UInt8) : Prop where
  length_buf : io.buf.length = io.bufmax
  cursor_le : io.cursor ≤ io.bufmax
  take_cursor : io.buf.take io.cursor = held

theorem pending_alloc (buf : List UInt8) : (alloc buf).Pending [] :=
  ⟨rfl, Nat.zero_le _, rfl⟩

variable {io io' : BufferedIOData} {held : List UInt8}

theorem Pending.bufFlushWrite (h : io.Pending held) (out : List UInt8) :
    (io.bufFlushWrite out).2 = out ++ held ∧ (io.bufFlushWrite out).1.Pending [] := by
  have hheld := h.take_cursor
  by_cases hc : io.cursor = 0
  · rw [hc, List.take_zero] at hheld
    subst held
    simp only [BufferedIOData.bufFlushWrite, hc, ne_eq, not_true_eq_false, if_false,
      List.append_nil, true_and]
    exact h
  · simp only [BufferedIOData.bufFlushWrite, ne_eq, hc, not_false_eq_true, if_true, hheld,
      true_and]
    exact ⟨h.length_buf, Nat.zero_le _, rfl⟩

private theorem Pending.writeIfBufferEnough (h : io.Pending held) (data : List UInt8)
    (hw : io.writeIfBufferEnough data = some io') : io'.Pending (held ++ data) := by
  rw [BufferedIOData.writeIfBufferEnough] at hw
  split at hw
  · rename_i hle
    simp only [Option.some.injEq] at hw
    subst io'
    have hc := h.cursor_le
    have hroom : io.cursor + data.length ≤ io.buf.length := by
      rw [h.length_buf]
      omega
    refine ⟨?_, by simp only; omega, ?_⟩
    · simp only [length_memcpyAt _ _ _ hroom, h.length_buf]
    · simp only [take_memcpyAt _ _ _ hroom, h.take_cursor]
  · cases hw

/-- Whatever the size of the buffer, a write adds its bytes behind all earlier ones. -/
theorem Pending.bufWrite (h : io.Pending held) (out data : List UInt8) :
    ∃ held', (io.bufWrite out data).1 = data.length ∧
      (io.bufWrite out data).2.1.Pending held' ∧
      (io.bufWrite out data).2.2 ++ held' = out ++ held ++ data := by
  rw [BufferedIOData.bufWrite]
  cases hfit : io.writeIfBufferEnough data with
  | some io' => exact ⟨held ++ data, rfl, h.writeIfBufferEnough data hfit, by simp⟩
  | none =>
      obtain ⟨hout, hflushed⟩ := h.bufFlushWrite out
      simp only
      cases hagain : (io.bufFlushWrite out).1.writeIfBufferEnough data with
      | some io' =>
          refine ⟨data, rfl, ?_, by simp [hout]⟩
          simpa using hflushed.writeIfBufferEnough data hagain
      | none => exact ⟨[], rfl, hflushed, by simp [hout]⟩

end Write

section Read

/-- A reader whose buffer holds the given unread bytes. -/
structure Holding (io : BufferedIOData) (unread : List UInt8) : Prop where
  length_buf : io.buf.length = io.bufmax
  datasize_le : io.datasize ≤ io.bufmax
  cursor_le : io.cursor ≤ io.datasize
  drop_cursor : (io.buf.take io.datasize).drop io.cursor = unread

theorem holding_alloc (buf : List UInt8) : (alloc buf).Holding [] :=
  ⟨rfl, Nat.zero_le _, Nat.le_refl _, rfl⟩

variable {io io' : BufferedIOData} {unread : List UInt8}

theorem Holding.bufBuffered (h : io.Holding unread) : io.bufBuffered = unread.length := by
  have hd := h.datasize_le
  rw [← h.drop_cursor, BufferedIOData.bufBuffered, List.length_drop, List.length_take,
    h.length_buf]
  omega

theorem Holding.take_drop (h : io.Holding unread) (size : Nat) (hsize : size ≤ unread.length) :
    (io.buf.drop io.cursor).take size = unread.take size := by
  have hb := h.bufBuffered
  have hle : io.cursor + size ≤ io.datasize := by
    have hc := h.cursor_le
    rw [BufferedIOData.bufBuffered] at hb
    omega
  rw [← h.drop_cursor, List.take_drop, List.take_drop, List.take_take, Nat.min_eq_left hle]

theorem Holding.advance (h : io.Holding unread) (size : Nat) (hsize : size ≤ unread.length) :
    Holding { io with cursor := io.cursor + size } (unread.drop size) := by
  have hb := h.bufBuffered
  have hle : io.cursor + size ≤ io.datasize := by
    have hc := h.cursor_le
    rw [BufferedIOData.bufBuffered] at hb
    omega
  refine ⟨h.length_buf, h.datasize_le, hle, ?_⟩
  rw [← h.drop_cursor, List.drop_drop]

theorem Holding.readIfBufferEnough (h : io.Holding unread) (size : Nat) :
    io.readIfBufferEnough size =
      if size ≤ unread.length then
        some (unread.take size, { io with cursor := io.cursor + size })
      else none := by
  rw [BufferedIOData.readIfBufferEnough, h.bufBuffered]
  split
  · rename_i hsize
    rw [h.take_drop size hsize]
  · rfl

theorem Holding.moveUnread (h : io.Holding unread) :
    io.moveUnread = { io with buf := memcpyAt io.buf 0 unread, cursor := 0 } := by
  have hunread : (io.buf.drop io.cursor).take unread.length = unread := by
    rw [h.take_drop _ (Nat.le_refl _), List.take_length]
  rw [BufferedIOData.moveUnread, h.bufBuffered, hunread]
  split
  · rfl
  · rename_i hzero
    have hnil : unread = [] := List.eq_nil_of_length_eq_zero (by omega)
    simp [hnil, memcpyAt]

theorem Holding.fill (h : io.Holding unread) (bytes : List UInt8)
    (hroom : unread.length + bytes.length ≤ io.bufmax) :
    (io.moveUnread.fill unread.length bytes).Holding (unread ++ bytes) := by
  have hlen := h.length_buf
  have hfront : 0 + unread.length ≤ io.buf.length := by omega
  have hbehind : unread.length + bytes.length ≤ (memcpyAt io.buf 0 unread).length := by
    rw [length_memcpyAt _ _ _ hfront]
    omega
  have htake := take_memcpyAt io.buf 0 unread hfront
  rw [Nat.zero_add, List.take_zero, List.nil_append] at htake
  rw [BufferedIOData.fill, h.moveUnread]
  refine ⟨?_, hroom, Nat.zero_le _, ?_⟩
  · simp only [length_memcpyAt _ _ _ hbehind, length_memcpyAt _ _ _ hfront, hlen]
  · simp only [take_memcpyAt _ _ _ hbehind, htake, List.drop_zero]

/-- How many bytes a reader holds after a read when every refill fills its buffer. -/
def readAhead (bufmax avail size : Nat) : Nat :=
  if size ≤ avail then avail - size else bufmax - size

/-- The state of a reader after a read: it holds `unread`, and the descriptor has `stream` left. -/
structure ReadTo (r : ReadResult) (bufmax size : Nat) (bytes unread : List UInt8) : Prop where
  ret : r.ret = retOfSize size
  data : r.data = bytes.take size
  holding : r.io.Holding unread
  bufmax_eq : r.io.bufmax = bufmax
  room : unread.length < bufmax
  left : unread ++ r.stream = bytes.drop size

private theorem Holding.bufRead_buffered (h : io.Holding unread) (stream : List UInt8) (size : Nat)
    (hsize : size ≤ unread.length) (hroom : unread.length < io.bufmax) :
    ReadTo (io.bufRead stream size) io.bufmax size (unread ++ stream) (unread.drop size) := by
  rw [bufRead, h.readIfBufferEnough, if_pos hsize]
  refine ⟨by simp only, ?_, h.advance size hsize, rfl, ?_, ?_⟩
  · rw [List.take_append_of_le_length hsize]
  · rw [List.length_drop]
    omega
  · rw [List.drop_append_of_le_length hsize]

/-- The bytes that a refill reads. -/
def refilled (io : BufferedIOData) (unread stream : List UInt8) : List UInt8 :=
  stream.take (io.bufmax - unread.length)

theorem take_eq_refilled (io : BufferedIOData) (unread stream : List UInt8) :
    stream.take (io.bufmax - unread.length) = refilled io unread stream := rfl

theorem length_refilled (io : BufferedIOData) (unread stream : List UInt8) :
    (refilled io unread stream).length = min (io.bufmax - unread.length) stream.length :=
  List.length_take

theorem refilled_ne_nil {stream : List UInt8} (hroom : unread.length < io.bufmax)
    (hstream : stream ≠ []) : (refilled io unread stream).isEmpty = false := by
  have hpos := List.length_pos_of_ne_nil hstream
  rw [List.isEmpty_eq_false_iff, ← List.length_pos_iff_ne_nil, length_refilled]
  omega

theorem append_refilled (io : BufferedIOData) (unread stream : List UInt8) :
    unread ++ stream =
      (unread ++ refilled io unread stream) ++ stream.drop (io.bufmax - unread.length) := by
  rw [List.append_assoc, refilled, List.take_append_drop]

theorem Holding.refill (h : io.Holding unread) (stream : List UInt8)
    (hroom : unread.length < io.bufmax) :
    (io.moveUnread.fill unread.length (refilled io unread stream)).Holding
      (unread ++ refilled io unread stream) := by
  refine h.fill _ ?_
  rw [length_refilled]
  omega

private theorem Holding.bufRead_refilled (h : io.Holding unread) (stream : List UInt8) (size : Nat)
    (hpos : unread.length < size) (hroom : unread.length < io.bufmax) (hstream : stream ≠ [])
    (hsize : size ≤ (unread ++ refilled io unread stream).length) :
    ReadTo (io.bufRead stream size) io.bufmax size (unread ++ stream)
      ((unread ++ refilled io unread stream).drop size) := by
  have hne := refilled_ne_nil hroom hstream
  have hfilled := h.refill stream hroom
  have hsplit := append_refilled io unread stream
  have hlen := length_refilled io unread stream
  rw [bufRead, h.readIfBufferEnough, if_neg (by omega)]
  simp only [h.bufBuffered, take_eq_refilled, hne, Bool.false_eq_true, if_false,
    hfilled.readIfBufferEnough, if_pos hsize]
  refine ⟨by simp only, ?_, hfilled.advance size hsize, rfl, ?_, ?_⟩
  · rw [hsplit, List.take_append_of_le_length hsize]
  · rw [List.length_drop, List.length_append]
    omega
  · rw [hsplit, List.drop_append_of_le_length hsize]

private theorem Holding.bufRead_direct (h : io.Holding unread) (stream : List UInt8) (size : Nat)
    (hroom : unread.length < io.bufmax) (hstream : stream ≠ [])
    (hsize : (unread ++ refilled io unread stream).length < size)
    (henough : size ≤ unread.length + stream.length) :
    ReadTo (io.bufRead stream size) io.bufmax size (unread ++ stream) [] := by
  have hne := refilled_ne_nil hroom hstream
  have hfilled := h.refill stream hroom
  have hsplit := append_refilled io unread stream
  have htotal : (unread ++ stream).length = (unread ++ refilled io unread stream).length +
      (stream.drop (io.bufmax - unread.length)).length := by
    rw [hsplit, List.length_append]
  rw [List.length_append] at htotal
  have hcached := hfilled.bufBuffered
  have hadvance := hfilled.advance _ (Nat.le_refl _)
  rw [List.drop_length] at hadvance
  rw [bufRead, h.readIfBufferEnough, if_neg (by rw [List.length_append] at hsize; omega)]
  simp only [h.bufBuffered, take_eq_refilled, hne, Bool.false_eq_true, if_false,
    hfilled.readIfBufferEnough, if_neg (Nat.not_le_of_lt hsize)]
  rw [hcached, hfilled.take_drop _ (Nat.le_refl _), List.take_length,
    directRead_eq_take _ _ (by omega)]
  refine ⟨by simp only, ?_, hadvance, rfl, ?_, ?_⟩
  · rw [hsplit, List.take_append, List.take_of_length_le (Nat.le_of_lt hsize)]
  · exact Nat.lt_of_le_of_lt (Nat.zero_le _) hroom
  · rw [hsplit, List.drop_append, List.drop_of_length_le (Nat.le_of_lt hsize)]

/-- Whatever the size of the buffer, a read takes the next bytes. -/
theorem Holding.bufRead (h : io.Holding unread) (stream : List UInt8) (size : Nat)
    (henough : size ≤ unread.length + stream.length) (hroom : unread.length < io.bufmax) :
    ∃ unread', ReadTo (io.bufRead stream size) io.bufmax size (unread ++ stream) unread' ∧
      (size ≤ unread.length ∨ io.bufmax ≤ unread.length + stream.length →
        unread'.length = readAhead io.bufmax unread.length size) := by
  by_cases hbuffered : size ≤ unread.length
  · refine ⟨_, h.bufRead_buffered stream size hbuffered hroom, ?_⟩
    intro _
    rw [readAhead, if_pos hbuffered, List.length_drop]
  · have hstream : stream ≠ [] := by
      rintro rfl
      rw [List.length_nil] at henough
      omega
    have hlen := length_refilled io unread stream
    by_cases hsize : size ≤ (unread ++ refilled io unread stream).length
    · refine ⟨_, h.bufRead_refilled stream size (by omega) hroom hstream hsize, ?_⟩
      intro hfull
      rw [readAhead, if_neg hbuffered, List.length_drop, List.length_append]
      omega
    · refine ⟨_, h.bufRead_direct stream size hroom hstream (by omega) henough, ?_⟩
      intro hfull
      rw [List.length_append] at hsize
      rw [readAhead, if_neg hbuffered, List.length_nil]
      omega

theorem ret_bufRead_zero (io : BufferedIOData) (stream : List UInt8) :
    (io.bufRead stream 0).ret = 0 := by
  rw [bufRead, readIfBufferEnough, if_pos (Nat.zero_le _)]
  rfl

end Read

section ReadAhead

/-- What a reader holds after a sequence of reads. -/
def readAheads (bufmax avail : Nat) (sizes : List Nat) : Nat :=
  sizes.foldl (readAhead bufmax) avail

/-- A reader that ends with nothing read ahead has never read past the last byte asked for. -/
theorem le_sum_add_readAheads (bufmax : Nat) (sizes : List Nat) (avail : Nat) :
    avail ≤ sizes.sum + readAheads bufmax avail sizes := by
  induction sizes generalizing avail with
  | nil => simp [readAheads]
  | cons size sizes ih =>
      have hrest := ih (readAhead bufmax avail size)
      simp only [readAheads, List.sum_cons, List.foldl_cons] at hrest ⊢
      by_cases hsize : size ≤ avail
      · rw [readAhead, if_pos hsize] at hrest ⊢
        omega
      · omega

private theorem readAheads_eq_zero (bufmax : Nat) (sizes : List Nat) :
    readAheads bufmax sizes.sum sizes = 0 := by
  induction sizes with
  | nil => rfl
  | cons size sizes ih =>
      have hstep : readAhead bufmax (size + sizes.sum) size = sizes.sum := by
        rw [readAhead, if_pos (by omega), Nat.add_sub_cancel_left]
      simp only [readAheads, List.sum_cons, List.foldl_cons, hstep]
      exact ih

/-- A buffer as large as all that is asked for is filled once. -/
theorem readAheads_sum (size : Nat) (hpos : 0 < size) (sizes : List Nat) :
    readAheads (size :: sizes).sum 0 (size :: sizes) = 0 := by
  have hfirst : readAhead (size :: sizes).sum 0 size = sizes.sum := by
    rw [readAhead, if_neg (by omega), List.sum_cons, Nat.add_sub_cancel_left]
  rw [readAheads, List.foldl_cons, hfirst]
  exact readAheads_eq_zero _ sizes

end ReadAhead

section RoundTrip

/-- One write after the other. -/
def bufWrites (self : BufferedIOData) (out : List UInt8) :
    List (List UInt8) → BufferedIOData × List UInt8
  | [] => (self, out)
  | data :: chunks =>
      let written := self.bufWrite out data
      written.2.1.bufWrites written.2.2 chunks

/-- One read after the other, with what each of them returns and stores. -/
def bufReads (self : BufferedIOData) (stream : List UInt8) : List Nat → List (Int × List UInt8)
  | [] => []
  | size :: sizes =>
      let r := self.bufRead stream size
      (r.ret, r.data) :: r.io.bufReads r.stream sizes

variable {io : BufferedIOData}

private theorem Pending.bufWrites {held : List UInt8} (h : io.Pending held) (out : List UInt8)
    (chunks : List (List UInt8)) :
    ∃ held', (io.bufWrites out chunks).1.Pending held' ∧
      (io.bufWrites out chunks).2 ++ held' = out ++ held ++ chunks.flatten := by
  induction chunks generalizing io held out with
  | nil => exact ⟨held, h, by simp [BufferedIOData.bufWrites]⟩
  | cons data chunks ih =>
      obtain ⟨held₁, -, hpending, hbytes⟩ := h.bufWrite out data
      obtain ⟨held₂, hpending₂, hbytes₂⟩ := ih hpending (io.bufWrite out data).2.2
      refine ⟨held₂, hpending₂, ?_⟩
      rw [BufferedIOData.bufWrites, hbytes₂, hbytes, List.flatten_cons, List.append_assoc]

private theorem Pending.flush_bufWrites {held : List UInt8} (h : io.Pending held) (out : List UInt8)
    (chunks : List (List UInt8)) :
    ((io.bufWrites out chunks).1.bufFlushWrite (io.bufWrites out chunks).2).2 =
      out ++ held ++ chunks.flatten := by
  obtain ⟨held', hpending, hbytes⟩ := h.bufWrites out chunks
  rw [(hpending.bufFlushWrite _).1, hbytes]

private theorem Holding.bufReads {unread : List UInt8} (h : io.Holding unread) (stream : List UInt8)
    (chunks : List (List UInt8)) (hroom : unread.length < io.bufmax)
    (hbytes : unread ++ stream = chunks.flatten) :
    io.bufReads stream (chunks.map List.length) =
      chunks.map fun data => (retOfSize data.length, data) := by
  induction chunks generalizing io unread stream with
  | nil => rfl
  | cons data chunks ih =>
      rw [List.flatten_cons] at hbytes
      have henough : data.length ≤ unread.length + stream.length := by
        rw [← List.length_append, hbytes, List.length_append]
        omega
      obtain ⟨unread', hread, -⟩ := h.bufRead stream data.length henough hroom
      have hdata : (io.bufRead stream data.length).data = data := by
        rw [hread.data, hbytes, List.take_left]
      have hleft : unread' ++ (io.bufRead stream data.length).stream = chunks.flatten := by
        rw [hread.left, hbytes, List.drop_left]
      have hrest := ih hread.holding _ (by rw [hread.bufmax_eq]; exact hread.room) hleft
      simp only [List.map_cons, BufferedIOData.bufReads, hread.ret, hdata, hrest]

/-- The stream once the chunks have gone through a new writer and been flushed. -/
def writeAll (wbuf : List UInt8) (chunks : List (List UInt8)) : List UInt8 :=
  let written := (alloc wbuf).bufWrites [] chunks
  (written.1.bufFlushWrite written.2).2

/-- Chunks of any sizes, through a write buffer and a read buffer of any sizes. -/
theorem bufReads_writeAll (wbuf rbuf : List UInt8) (hrbuf : 1 ≤ rbuf.length)
    (chunks : List (List UInt8)) :
    writeAll wbuf chunks = chunks.flatten ∧
      (alloc rbuf).bufReads (writeAll wbuf chunks) (chunks.map List.length) =
        chunks.map fun data => (retOfSize data.length, data) := by
  have hstream : writeAll wbuf chunks = chunks.flatten :=
    (pending_alloc wbuf).flush_bufWrites [] chunks
  refine ⟨hstream, ?_⟩
  exact (holding_alloc rbuf).bufReads (writeAll wbuf chunks) chunks hrbuf hstream

/-- A chunk larger than both buffers, an empty one and one that the refill brings along. -/
theorem bufReads_writeAll_three :
    1 ≤ [(0 : UInt8), 0].length ∧
      writeAll [0] [[1, 2, 3], [], [4]] = [[1, 2, 3], [], [4]].flatten ∧
      (alloc [0, 0]).bufReads (writeAll [0] [[1, 2, 3], [], [4]])
          ([[(1 : UInt8), 2, 3], [], [4]].map List.length) =
        [[1, 2, 3], [], [4]].map fun data => (retOfSize data.length, data) :=
  ⟨by decide, bufReads_writeAll [0] [0, 0] (by decide) [[1, 2, 3], [], [4]]⟩

end RoundTrip

end BufferedIOData

end Zrt.Helpers
