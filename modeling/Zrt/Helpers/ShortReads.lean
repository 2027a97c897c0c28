import Zrt.Framework.Runs
import Zrt.Helpers.BufferedIo

/-!
# Short reads

A descriptor may yield fewer bytes than a read asks for, and yields none at its end. At the end the
reader moves its unread data to the beginning of the buffer but keeps the count of the bytes in it,
and a direct read is taken to yield all that it asked for.
-/

namespace Zrt.Helpers

open Framework

/-- The bytes that a descriptor still yields, and by how many each of the next reads may exceed a
single byte. -/
structure ShortStream where
  bytes : List UInt8
  limits : Nat → Nat

namespace ShortStream

def read (s : ShortStream) (size : Nat) : List UInt8 := s.bytes.take (min size (s.limits 0 + 1))

def after (s : ShortStream) (size : Nat) : ShortStream where
  bytes := s.bytes.drop (min size (s.limits 0 + 1))
  limits := fun i => s.limits (i + 1)

@[simp] theorem read_append_after (s : ShortStream) (size : Nat) :
    s.read size ++ (s.after size).bytes = s.bytes := List.take_append_drop ..

theorem length_read_le (s : ShortStream) (size : Nat) : (s.read size).length ≤ size := by
  simp only [read, List.length_take]
  omega

theorem read_eq_nil_iff (s : ShortStream) (size : Nat) :
    s.read size = [] ↔ size = 0 ∨ s.bytes = [] := by
  rw [read, List.take_eq_nil_iff]
  refine or_congr_left ?_
  omega

end ShortStream

namespace BufferedIOData

/-- What a read returns, the bytes it stores, the reader and the descriptor. -/
structure ShortReadResult where
  ret : Int
  data : List UInt8
  io : BufferedIOData
  stream : ShortStream

/-- A read from a descriptor that may yield less than it is asked for. -/
def bufReadFrom (self : BufferedIOData) (s : ShortStream) (size : Nat) : ShortReadResult :=
  match self.readIfBufferEnough size with
  | some (data, self) => ⟨retOfSize size, data, self, s⟩
  | none =>
      let sizeinuse := self.bufBuffered
      let bytes := s.read (self.bufmax - sizeinuse)
      let rest := s.after (self.bufmax - sizeinuse)
      if bytes.isEmpty then ⟨-1, [], self.moveUnread, rest⟩
      else
        let filled := self.moveUnread.fill sizeinuse bytes
        match filled.readIfBufferEnough size with
        | some (data, self) => ⟨retOfSize size, data, self, rest⟩
        | none =>
            let cached := filled.bufBuffered
            ⟨retOfSize size,
              (filled.buf.drop filled.cursor).take cached ++ rest.read (size - cached),
              { filled with cursor := filled.cursor + cached }, rest.after (size - cached)⟩

/-- Without short reads the reader does what it does on a descriptor that yields all it has. -/
theorem bufReadFrom_unlimited (self : BufferedIOData) (stream : List UInt8) (limit size : Nat)
    (hlimit : stream.length ≤ limit) :
    let r := self.bufReadFrom ⟨stream, fun _ => limit⟩ size
    r.ret = (self.bufRead stream size).ret ∧ r.io = (self.bufRead stream size).io ∧
      r.stream.bytes = (self.bufRead stream size).stream := by
  have htake (l : List UInt8) (n : Nat) (hl : l.length ≤ limit) :
      l.take (min n (limit + 1)) = l.take n := by
    rcases Nat.le_total n (limit + 1) with hn | hn
    · rw [Nat.min_eq_left hn]
    · rw [Nat.min_eq_right hn, List.take_of_length_le (by omega), List.take_of_length_le (by omega)]
  have hdrop (l : List UInt8) (n : Nat) (hl : l.length ≤ limit) :
      l.drop (min n (limit + 1)) = l.drop n := by
    rcases Nat.le_total n (limit + 1) with hn | hn
    · rw [Nat.min_eq_left hn]
    · rw [Nat.min_eq_right hn, List.drop_of_length_le (by omega), List.drop_of_length_le (by omega)]
  have hrest (n : Nat) : (stream.drop n).length ≤ limit := by
    rw [List.length_drop]
    omega
  simp only [bufReadFrom, bufRead, ShortStream.read, ShortStream.after, htake _ _ hlimit,
    hdrop _ _ hlimit]
  cases self.readIfBufferEnough size with
  | some r => exact ⟨rfl, rfl, rfl⟩
  | none =>
      simp only
      split
      · rename_i hempty
        refine ⟨rfl, rfl, ?_⟩
        rw [List.isEmpty_iff, List.take_eq_nil_iff] at hempty
        rcases hempty with hzero | hnil
        · simp [hzero]
        · simp [hnil]
      · cases (self.moveUnread.fill self.bufBuffered
          (stream.take (self.bufmax - self.bufBuffered))).readIfBufferEnough size with
        | some r => exact ⟨rfl, rfl, rfl⟩
        | none => exact ⟨rfl, rfl, hdrop _ _ (hrest _)⟩

variable {io : BufferedIOData} {unread : List UInt8}

theorem Holding.bufReadFrom_buffered (h : io.Holding unread) (s : ShortStream) (size : Nat)
    (hsize : size ≤ unread.length) :
    io.bufReadFrom s size =
      ⟨retOfSize size, unread.take size, { io with cursor := io.cursor + size }, s⟩ := by
  rw [bufReadFrom, h.readIfBufferEnough, if_pos hsize]

theorem Holding.bufReadFrom_end (h : io.Holding unread) {s : ShortStream} {size : Nat}
    (hsize : unread.length < size) (hread : s.read (io.bufmax - unread.length) = []) :
    io.bufReadFrom s size =
      ⟨-1, [], io.moveUnread, s.after (io.bufmax - unread.length)⟩ := by
  rw [bufReadFrom, h.readIfBufferEnough, if_neg (by omega)]
  simp only [h.bufBuffered, hread, List.isEmpty_nil, if_true]

/-- The buffer once a read behind the unread data has returned something. -/
def refilledFrom (io : BufferedIOData) (unread : List UInt8) (s : ShortStream) : BufferedIOData :=
  io.moveUnread.fill unread.length (s.read (io.bufmax - unread.length))

theorem Holding.refilledFrom (h : io.Holding unread) (s : ShortStream)
    (hroom : unread.length < io.bufmax) :
    (io.refilledFrom unread s).Holding (unread ++ s.read (io.bufmax - unread.length)) := by
  apply h.fill
  have hle := s.length_read_le (io.bufmax - unread.length)
  omega

private theorem Holding.bufReadFrom_refilled (h : io.Holding unread) {s : ShortStream} {size : Nat}
    (hsize : unread.length < size) (hroom : unread.length < io.bufmax) (hbytes : s.bytes ≠ [])
    (henough : size ≤ (unread ++ s.read (io.bufmax - unread.length)).length) :
    io.bufReadFrom s size =
      ⟨retOfSize size, (unread ++ s.read (io.bufmax - unread.length)).take size,
        { io.refilledFrom unread s with cursor := (io.refilledFrom unread s).cursor + size },
        s.after (io.bufmax - unread.length)⟩ := by
  have hread : (s.read (io.bufmax - unread.length)).isEmpty = false := by
    rw [List.isEmpty_eq_false_iff, Ne, s.read_eq_nil_iff]
    rintro (hzero | hnil)
    · omega
    · exact hbytes hnil
  have hfilled := (h.refilledFrom s hroom).readIfBufferEnough size
  rw [if_pos henough, BufferedIOData.refilledFrom] at hfilled
  rw [bufReadFrom, h.readIfBufferEnough, if_neg (by omega)]
  simp only [h.bufBuffered, hread, Bool.false_eq_true, if_false, hfilled]
  rfl

private theorem Holding.bufReadFrom_direct (h : io.Holding unread) {s : ShortStream} {size : Nat}
    (hroom : unread.length < io.bufmax) (hbytes : s.bytes ≠ [])
    (hshort : (unread ++ s.read (io.bufmax - unread.length)).length < size) :
    io.bufReadFrom s size =
      ⟨retOfSize size,
        (unread ++ s.read (io.bufmax - unread.length)) ++
          (s.after (io.bufmax - unread.length)).read
            (size - (unread ++ s.read (io.bufmax - unread.length)).length),
        { io.refilledFrom unread s with
          cursor := (io.refilledFrom unread s).cursor +
            (unread ++ s.read (io.bufmax - unread.length)).length },
        (s.after (io.bufmax - unread.length)).after
          (size - (unread ++ s.read (io.bufmax - unread.length)).length)⟩ := by
  have hread : (s.read (io.bufmax - unread.length)).isEmpty = false := by
    rw [List.isEmpty_eq_false_iff, Ne, s.read_eq_nil_iff]
    rintro (hzero | hnil)
    · omega
    · exact hbytes hnil
  have hholding := h.refilledFrom s hroom
  have hfilled := hholding.readIfBufferEnough size
  have hcached := hholding.bufBuffered
  have hdata := hholding.take_drop _ (Nat.le_refl _)
  rw [if_neg (Nat.not_le_of_lt hshort), BufferedIOData.refilledFrom] at hfilled
  rw [BufferedIOData.refilledFrom] at hcached hdata
  rw [bufReadFrom, h.readIfBufferEnough,
    if_neg (by rw [List.length_append] at hshort; omega)]
  simp only [h.bufBuffered, hread, Bool.false_eq_true, if_false, hfilled, hcached, hdata,
    List.take_length]
  rfl

theorem Holding.moveUnread_stale (h : io.Holding unread) :
    ∃ stale, io.moveUnread.Holding (unread ++ stale) := by
  have hlen := h.length_buf
  have hsize := h.datasize_le
  have hunread : unread.length ≤ io.datasize := by
    rw [← h.bufBuffered]
    exact Nat.sub_le io.datasize io.cursor
  have hfront : 0 + unread.length ≤ io.buf.length := by omega
  have htake := take_memcpyAt io.buf 0 unread hfront
  rw [Nat.zero_add, List.take_zero, List.nil_append] at htake
  refine ⟨((memcpyAt io.buf 0 unread).take io.datasize).drop unread.length, ?_⟩
  rw [h.moveUnread]
  refine ⟨?_, hsize, Nat.zero_le _, ?_⟩
  · simp only [length_memcpyAt _ _ _ hfront, hlen]
  · have hmoved : ((memcpyAt io.buf 0 unread).take io.datasize).take unread.length = unread := by
      rw [List.take_take, Nat.min_eq_left hunread, htake]
    rw [List.drop_zero]
    conv_lhs => rw [← List.take_append_drop unread.length ((memcpyAt io.buf 0 unread).take io.datasize)]
    rw [hmoved]

end BufferedIOData

open BufferedIOData

private theorem retOfSize_ne_neg_one {size : Nat} (h : size < 2 ^ 31) : retOfSize size ≠ -1 := by
  unfold retOfSize
  rw [Int.bmod_def]
  split <;> omega

/-- A reader on its descriptor, with the bytes of the stream that were not delivered yet. -/
structure Reading where
  io : BufferedIOData
  stream : ShortStream
  left : List UInt8

namespace Reading

def start (buf : List UInt8) (stream : ShortStream) : Reading := ⟨alloc buf, stream, stream.bytes⟩

def result (st : Reading) (size : Nat) : ShortReadResult := st.io.bufReadFrom st.stream size

/-- A read that returns the size has delivered as many bytes. -/
def read (st : Reading) (size : Nat) : Option Reading :=
  some
    { io := (st.result size).io
      stream := (st.result size).stream
      left := if (st.result size).ret = retOfSize size then st.left.drop size else st.left }

/-- What is stored are the next bytes of the stream, and after a failure each read of bytes that are
left delivers them. -/
def Delivers (st : Reading) (size : Nat) : Prop :=
  ((st.result size).ret = retOfSize size →
    size ≤ st.left.length ∧ (st.result size).data = st.left.take size) ∧
  ((st.result size).ret = -1 → (st.result size).ret ≠ retOfSize size →
    ∀ n ≤ st.left.length,
      ((st.result size).io.bufReadFrom (st.result size).stream n).ret = retOfSize n ∧
        ((st.result size).io.bufReadFrom (st.result size).stream n).data = st.left.take n)

/-- How many bytes the buffer holds after a refill. -/
def cached (st : Reading) : Nat :=
  st.io.bufBuffered + (st.stream.read (st.io.bufmax - st.io.bufBuffered)).length

/-- A read that the buffer seems to hold does not ask for more than is left. Of the others, one at
the end of the stream is not for a size that is returned as -1, and one before it has a buffer and,
if it is for more than the buffer holds after a refill, gets the rest at once. -/
def Served (st : Reading) (size : Nat) : Prop :=
  if size ≤ st.io.bufBuffered then size ≤ st.left.length
  else if st.stream.bytes = [] then retOfSize size ≠ -1
  else 0 < st.io.bufmax ∧
    (st.cached < size →
      ((st.stream.after (st.io.bufmax - st.io.bufBuffered)).read (size - st.cached)).length =
        size - st.cached)

instance (st : Reading) (size : Nat) : Decidable (st.Served size) :=
  inferInstanceAs (Decidable (ite _ _ _))

/-- The buffer holds the unread data, with stale bytes behind it only at the end of the stream. -/
structure Holds (st : Reading) (unread stale : List UInt8) : Prop where
  holding : st.io.Holding (unread ++ stale)
  left_eq : st.left = unread ++ st.stream.bytes
  stale_eq : st.stream.bytes ≠ [] → stale = []
  room : st.stream.bytes ≠ [] → 0 < st.io.bufmax → unread.length < st.io.bufmax

variable {st st' : Reading} {unread stale : List UInt8} {size : Nat}

private theorem holds_start (buf : List UInt8) (stream : ShortStream) : (start buf stream).Holds [] [] where
  holding := holding_alloc buf
  left_eq := rfl
  stale_eq := fun _ => rfl
  room := fun _ h => h

theorem Holds.bufBuffered (h : st.Holds unread stale) :
    st.io.bufBuffered = unread.length + stale.length := by
  rw [h.holding.bufBuffered, List.length_append]

theorem Holds.le_unread (h : st.Holds unread stale) (hsize : size ≤ st.io.bufBuffered)
    (hleft : size ≤ st.left.length) : size ≤ unread.length := by
  rw [h.bufBuffered] at hsize
  rw [h.left_eq, List.length_append] at hleft
  by_cases hend : st.stream.bytes = []
  · rw [hend, List.length_nil] at hleft
    exact hleft
  · rw [h.stale_eq hend, List.length_nil] at hsize
    exact hsize

section Buffered

theorem Holds.result_buffered (h : st.Holds unread stale) (hsize : size ≤ st.io.bufBuffered) :
    st.result size =
      ⟨retOfSize size, (unread ++ stale).take size,
        { st.io with cursor := st.io.cursor + size }, st.stream⟩ := by
  apply h.holding.bufReadFrom_buffered
  rwa [← h.holding.bufBuffered]

private theorem Holds.delivers_buffered (h : st.Holds unread stale) (hsize : size ≤ st.io.bufBuffered) :
    st.Delivers size ↔ size ≤ st.left.length := by
  have hresult := h.result_buffered hsize
  constructor
  · intro hdelivers
    exact (hdelivers.1 (by rw [hresult])).1
  · intro hleft
    have hunread := h.le_unread hsize hleft
    refine ⟨fun _ => ⟨hleft, ?_⟩, fun _ hne => absurd (by rw [hresult]) hne⟩
    rw [hresult, h.left_eq]
    simp only [List.take_append_of_le_length hunread]

private theorem Holds.read_buffered (h : st.Holds unread stale) (hsize : size ≤ st.io.bufBuffered)
    (hleft : size ≤ st.left.length) (hread : st.read size = some st') :
    st'.Holds (unread.drop size) stale := by
  have hunread := h.le_unread hsize hleft
  obtain rfl := Option.some.inj hread
  rw [h.result_buffered hsize, if_pos rfl]
  refine ⟨?_, ?_, h.stale_eq, fun hbytes hbuf => ?_⟩
  · have hadvance := h.holding.advance size (by rw [List.length_append]; omega)
    rwa [List.drop_append_of_le_length hunread] at hadvance
  · simp only [h.left_eq, List.drop_append_of_le_length hunread]
  · have hroom := h.room hbytes hbuf
    simp only [List.length_drop]
    omega

end Buffered

section AtEnd

theorem Holds.result_end (h : st.Holds unread stale) (hsize : ¬ size ≤ st.io.bufBuffered)
    (hread : st.stream.read (st.io.bufmax - st.io.bufBuffered) = []) :
    st.result size =
      ⟨-1, [], st.io.moveUnread, st.stream.after (st.io.bufmax - st.io.bufBuffered)⟩ := by
  rw [h.holding.bufBuffered] at hsize hread ⊢
  exact h.holding.bufReadFrom_end (by omega) hread

private theorem Holds.delivers_end (h : st.Holds unread stale) (hsize : ¬ size ≤ st.io.bufBuffered)
    (hend : st.stream.bytes = []) : st.Delivers size ↔ retOfSize size ≠ -1 := by
  have hresult := h.result_end hsize ((ShortStream.read_eq_nil_iff ..).mpr (Or.inr hend))
  have hleft := h.left_eq
  rw [hend, List.append_nil] at hleft
  rw [h.bufBuffered] at hsize
  constructor
  · intro hdelivers hret
    have hlen := (hdelivers.1 (by rw [hresult, hret])).1
    rw [hleft] at hlen
    omega
  · intro hret
    refine ⟨fun h => absurd (by rw [← h, hresult]) hret, fun _ _ n hn => ?_⟩
    obtain ⟨stale', hmoved⟩ := h.holding.moveUnread_stale
    rw [hleft] at hn
    rw [hresult, hmoved.bufReadFrom_buffered _ n (by simp only [List.length_append]; omega), hleft,
      List.append_assoc]
    exact ⟨by simp only, List.take_append_of_le_length hn⟩

private theorem Holds.read_end (h : st.Holds unread stale) (hsize : ¬ size ≤ st.io.bufBuffered)
    (hend : st.stream.bytes = []) (hret : retOfSize size ≠ -1) (hread : st.read size = some st') :
    ∃ stale', st'.Holds unread stale' := by
  have hresult := h.result_end hsize ((ShortStream.read_eq_nil_iff ..).mpr (Or.inr hend))
  obtain ⟨stale', hmoved⟩ := h.holding.moveUnread_stale
  have hbytes (n : Nat) : (st.stream.after n).bytes = [] := by
    rw [ShortStream.after, hend, List.drop_nil]
  obtain rfl := Option.some.inj hread
  rw [hresult, if_neg (Ne.symm hret)]
  refine ⟨stale ++ stale', ?_, ?_, fun h => absurd (hbytes _) h, fun h => absurd (hbytes _) h⟩
  · rwa [← List.append_assoc]
  · simp only [h.left_eq, hend, hbytes]

end AtEnd

section Refill

theorem Holds.fresh (h : st.Holds unread stale) (hbytes : st.stream.bytes ≠ []) :
    st.io.Holding unread := by
  have hholding := h.holding
  rwa [h.stale_eq hbytes, List.append_nil] at hholding

private theorem Holds.not_delivers_noBuffer (h : st.Holds unread stale)
    (hsize : ¬ size ≤ st.io.bufBuffered) (hbytes : st.stream.bytes ≠ [])
    (hbuf : st.io.bufmax = 0) : ¬ st.Delivers size := by
  have hresult := h.result_end hsize
    ((ShortStream.read_eq_nil_iff ..).mpr (Or.inl (by rw [hbuf, Nat.zero_sub])))
  have hpos := List.length_pos_iff.mpr hbytes
  have hleft := congrArg List.length h.left_eq
  rw [List.length_append] at hleft
  intro hdelivers
  by_cases hret : retOfSize size = -1
  · have hdata := (hdelivers.1 (by rw [hresult, hret])).2
    have hlen := congrArg List.length hdata
    rw [hresult, List.length_take, List.length_nil] at hlen
    omega
  · have hnext := (hdelivers.2 (by rw [hresult]) (by rw [hresult]; exact Ne.symm hret) 1 (by omega)).1
    obtain ⟨stale', hmoved⟩ := h.holding.moveUnread_stale
    have hempty := hmoved.datasize_le
    rw [hresult] at hnext
    have hmax : st.io.moveUnread.bufmax = 0 := hbuf
    have hone : (unread ++ stale ++ stale').length < 1 := by
      rw [← hmoved.bufBuffered, BufferedIOData.bufBuffered]
      omega
    have hsecond := hmoved.bufReadFrom_end hone ((ShortStream.read_eq_nil_iff
      (st.stream.after (st.io.bufmax - st.io.bufBuffered)) _).mpr
        (Or.inl (by rw [hmax, Nat.zero_sub])))
    rw [hsecond] at hnext
    exact absurd hnext (Ne.symm (retOfSize_ne_neg_one (by omega)))

theorem Holds.left_refilled (h : st.Holds unread stale) :
    st.left = unread ++ st.stream.read (st.io.bufmax - unread.length) ++
      (st.stream.after (st.io.bufmax - unread.length)).bytes := by
  rw [h.left_eq, List.append_assoc, ShortStream.read_append_after]

variable (h : st.Holds unread stale) (hsize : ¬ size ≤ st.io.bufBuffered)
  (hbytes : st.stream.bytes ≠ []) (hbuf : 0 < st.io.bufmax)

include h hbytes

theorem Holds.cached_eq :
    (unread ++ st.stream.read (st.io.bufmax - unread.length)).length = st.cached := by
  rw [cached, (h.fresh hbytes).bufBuffered, List.length_append]

include hbuf

theorem Holds.result_direct (hcached : st.cached < size) :
    st.result size =
      ⟨retOfSize size,
        (unread ++ st.stream.read (st.io.bufmax - unread.length)) ++
          (st.stream.after (st.io.bufmax - unread.length)).read (size - st.cached),
        { st.io.refilledFrom unread st.stream with
          cursor := (st.io.refilledFrom unread st.stream).cursor + st.cached },
        (st.stream.after (st.io.bufmax - unread.length)).after (size - st.cached)⟩ := by
  rw [← h.cached_eq hbytes] at hcached ⊢
  exact (h.fresh hbytes).bufReadFrom_direct (h.room hbytes hbuf) hbytes hcached

private theorem Holds.delivers_direct (hcached : st.cached < size) :
    st.Delivers size ↔
      ((st.stream.after (st.io.bufmax - unread.length)).read (size - st.cached)).length =
        size - st.cached := by
  have hresult := h.result_direct hbytes hbuf hcached
  have hlen := h.cached_eq hbytes
  have hleft := h.left_refilled
  have hrest := ShortStream.read_append_after
    (st.stream.after (st.io.bufmax - unread.length)) (size - st.cached)
  rw [← hrest, ← List.append_assoc] at hleft
  constructor
  · intro hdelivers
    obtain ⟨hle, hdata⟩ := hdelivers.1 (by rw [hresult])
    have hstored := congrArg List.length hdata
    rw [hresult, List.length_take, Nat.min_eq_left hle, List.length_append, hlen] at hstored
    omega
  · intro hwhole
    have hstored : (unread ++ st.stream.read (st.io.bufmax - unread.length) ++
        (st.stream.after (st.io.bufmax - unread.length)).read (size - st.cached)).length = size := by
      rw [List.length_append, hlen, hwhole]
      omega
    refine ⟨fun _ => ⟨?_, ?_⟩, fun _ hne => absurd (by rw [hresult]) hne⟩
    · rw [hleft, List.length_append, hstored]
      exact Nat.le_add_right _ _
    · rw [hresult, hleft, List.take_left' hstored]

private theorem Holds.read_direct (hcached : st.cached < size)
    (hwhole : ((st.stream.after (st.io.bufmax - unread.length)).read (size - st.cached)).length =
      size - st.cached) (hread : st.read size = some st') : st'.Holds [] [] := by
  have hlen := h.cached_eq hbytes
  have hadvance := ((h.fresh hbytes).refilledFrom st.stream (h.room hbytes hbuf)).advance st.cached
    (Nat.le_of_eq hlen.symm)
  have hleft := h.left_refilled
  have hrest := ShortStream.read_append_after
    (st.stream.after (st.io.bufmax - unread.length)) (size - st.cached)
  rw [← hrest, ← List.append_assoc] at hleft
  rw [← hlen, List.drop_length, hlen] at hadvance
  obtain rfl := Option.some.inj hread
  rw [h.result_direct hbytes hbuf hcached, if_pos rfl]
  refine ⟨by simpa using hadvance, ?_, fun _ => rfl, fun _ h => h⟩
  rw [hleft, List.drop_left' (by rw [List.length_append, hlen, hwhole]; omega)]
  rfl

include hsize

theorem Holds.result_refilled (hcached : size ≤ st.cached) :
    st.result size =
      ⟨retOfSize size, st.left.take size,
        { st.io.refilledFrom unread st.stream with
          cursor := (st.io.refilledFrom unread st.stream).cursor + size },
        st.stream.after (st.io.bufmax - unread.length)⟩ := by
  have hunread := h.fresh hbytes
  rw [hunread.bufBuffered] at hsize
  rw [← h.cached_eq hbytes] at hcached
  rw [result, hunread.bufReadFrom_refilled (by omega) (h.room hbytes hbuf) hbytes hcached,
    h.left_refilled, List.take_append_of_le_length hcached]

private theorem Holds.delivers_refilled (hcached : size ≤ st.cached) : st.Delivers size := by
  have hresult := h.result_refilled hsize hbytes hbuf hcached
  have hleft := congrArg List.length (h.left_refilled)
  rw [List.length_append, h.cached_eq hbytes] at hleft
  refine ⟨fun _ => ⟨by omega, by rw [hresult]⟩, fun _ hne => absurd (by rw [hresult]) hne⟩

private theorem Holds.read_refilled (hcached : size ≤ st.cached) (hread : st.read size = some st') :
    st'.Holds ((unread ++ st.stream.read (st.io.bufmax - unread.length)).drop size) [] := by
  have hunread := h.fresh hbytes
  have hroom := h.room hbytes hbuf
  have hlen := h.cached_eq hbytes
  have hadvance := (hunread.refilledFrom st.stream hroom).advance size (hlen ▸ hcached)
  have hle := st.stream.length_read_le (st.io.bufmax - unread.length)
  rw [hunread.bufBuffered] at hsize
  obtain rfl := Option.some.inj hread
  rw [h.result_refilled (by rwa [hunread.bufBuffered]) hbytes hbuf hcached, if_pos rfl]
  refine ⟨by simpa using hadvance, ?_, fun _ => rfl, fun _ _ => ?_⟩
  · rw [h.left_refilled, List.drop_append_of_le_length (hlen ▸ hcached)]
  · have hmax : (st.io.refilledFrom unread st.stream).bufmax = st.io.bufmax := rfl
    simp only [hmax, List.length_drop, List.length_append]
    omega

end Refill

theorem Holds.delivers_iff (h : st.Holds unread stale) : st.Delivers size ↔ st.Served size := by
  rw [Served]
  split
  · rename_i hsize
    exact h.delivers_buffered hsize
  · rename_i hsize
    split
    · rename_i hend
      exact h.delivers_end hsize hend
    · rename_i hbytes
      rw [(h.fresh hbytes).bufBuffered]
      rcases Nat.eq_zero_or_pos st.io.bufmax with hbuf | hbuf
      · refine iff_of_false (h.not_delivers_noBuffer hsize hbytes hbuf) fun hserved => ?_
        omega
      · rcases Nat.lt_or_ge st.cached size with hcached | hcached
        · rw [h.delivers_direct hbytes hbuf hcached]
          simp only [hbuf, hcached, true_and, true_implies]
        · refine iff_of_true (h.delivers_refilled hsize hbytes hbuf hcached) ⟨hbuf, fun hlt => ?_⟩
          omega

/-- Some unread data and stale bytes are in the buffer. -/
def Ordered (st : Reading) : Prop := ∃ unread stale, st.Holds unread stale

private theorem Holds.read (h : st.Holds unread stale) (hdelivers : st.Delivers size)
    (hread : st.read size = some st') : st'.Ordered := by
  have hserved := h.delivers_iff.mp hdelivers
  rw [Served] at hserved
  split at hserved
  · rename_i hsize
    exact ⟨_, _, h.read_buffered hsize hserved hread⟩
  · rename_i hsize
    split at hserved
    · rename_i hend
      exact ⟨unread, h.read_end hsize hend hserved hread⟩
    · rename_i hbytes
      obtain ⟨hbuf, hwhole⟩ := hserved
      rw [(h.fresh hbytes).bufBuffered] at hwhole
      rcases Nat.lt_or_ge st.cached size with hcached | hcached
      · exact ⟨_, _, h.read_direct hbytes hbuf hcached (hwhole hcached) hread⟩
      · exact ⟨_, _, h.read_refilled hsize hbytes hbuf hcached hread⟩

/-- A sequence of reads from a new reader delivers the stream in order if and only if each read of
it is served right. -/
theorem reads_deliver_iff (buf : List UInt8) (stream : ShortStream) (sizes : List Nat) :
    Guarded read Delivers (start buf stream) sizes ↔ Guarded read Served (start buf stream) sizes :=
  have hstart : (start buf stream).Ordered := ⟨[], [], holds_start buf stream⟩
  guarded_iff (fun _ _ ⟨_, _, h⟩ => h.delivers_iff)
    (fun _ _ _ ⟨_, _, h⟩ hdelivers hread => h.read hdelivers hread) sizes _ hstart

/-- What the reads of a sequence return and store. -/
def results (st : Reading) : List Nat → List (Int × List UInt8)
  | [] => []
  | size :: sizes =>
      ((st.result size).ret, (st.result size).data) ::
        (st.read size).elim [] fun st' => st'.results sizes

/-- Three bytes in a buffer of four: at the end of the stream a byte that was delivered before is
delivered again. -/
theorem reads_stale_byte :
    (start [0, 0, 0, 0] ⟨[1, 2, 3], fun _ => 9⟩).results [2, 2, 2] =
        [(2, [1, 2]), (-1, []), (2, [3, 2])] ∧
      ¬ Guarded read Delivers (start [0, 0, 0, 0] ⟨[1, 2, 3], fun _ => 9⟩) [2, 2, 2] := by
  refine ⟨by decide, fun h => ?_⟩
  have hthird := ((h.2 _ rfl).2 _ rfl).1
  exact absurd (hthird.1 (by decide)).1 (by decide)

end Reading

end Zrt.Helpers
