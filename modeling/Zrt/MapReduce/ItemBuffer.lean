import Mathlib.Data.List.Basic
import Mathlib.Algebra.Order.Ring.Nat
import Zrt.Helpers.BufferedIo
import Zrt.MapReduce.Dividers

/-!
# Buffers of items

A buffer holds items of one size in a block of memory that is doubled when the next item does not
fit. Sizes are of type `size_t`, and the size of an item is an `int`.
-/

namespace Zrt.MapReduce

open Helpers

/-- The header of a buffer and its memory, which has room for a whole number of items. -/
structure Buffer where
  bufSize : Nat
  itemSize : Nat
  count : Nat
  data : List UInt8
  itemSize_pos : 0 < itemSize
  itemSize_lt : itemSize < 2 ^ 31
  whole : itemSize ∣ bufSize
  bufSize_pos : 0 < bufSize
  bufSize_lt : bufSize < 2 ^ 32
  count_le : count * itemSize ≤ bufSize
  length_data : data.length = bufSize

theorem allocBufferCount_pos (granularity : Nat) : 0 < allocBufferCount granularity := by
  unfold allocBufferCount
  split <;> omega

theorem le_allocBufferCount (granularity : Nat) : granularity ≤ allocBufferCount granularity := by
  unfold allocBufferCount
  split <;> omega

@[simp] theorem allocBufferCount_zero : allocBufferCount 0 = 1 := rfl

theorem allocBufferCount_of_pos {granularity : Nat} (h : 0 < granularity) :
    allocBufferCount granularity = granularity := if_neg (Nat.ne_of_gt h)

/-- A new buffer; `none` where the assertion on the item size fails or `calloc` refuses the size. -/
def allocBuffer (itemsize granularity : Nat) : Option Buffer :=
  if h : 0 < itemsize ∧ itemsize < 2 ^ 31 ∧ allocBufferCount granularity * itemsize < 2 ^ 32 then
    some {
      bufSize := allocBufferCount granularity * itemsize
      itemSize := itemsize
      count := 0
      data := List.replicate (allocBufferCount granularity * itemsize) 0
      itemSize_pos := h.1
      itemSize_lt := h.2.1
      whole := Nat.dvd_mul_left itemsize _
      bufSize_pos := Nat.mul_pos (allocBufferCount_pos granularity) h.1
      bufSize_lt := h.2.2
      count_le := by simp
      length_data := by simp }
  else none

namespace Buffer

def bufferCountMax (b : Buffer) : Nat := b.bufSize / b.itemSize

def getBufferItem (b : Buffer) (index : Nat) : List UInt8 :=
  (b.data.drop (b.itemSize * index)).take b.itemSize

/-- The items of a buffer in order. -/
def items (b : Buffer) : List (List UInt8) := (List.range b.count).map b.getBufferItem

/-- Double a full buffer. What `realloc` adds is not set; a size that overflows is not modelled any
further. -/
def reallocBuffer (fresh : Nat → UInt8) (b : Buffer) : Option Buffer :=
  if b.count * b.itemSize = b.bufSize then
    if h : b.bufSize * 2 < 2 ^ 32 then
      some { b with
        bufSize := b.bufSize * 2
        data := b.data ++ (List.range b.bufSize).map fresh
        whole := Nat.dvd_mul_right_of_dvd b.whole 2
        bufSize_pos := by have := b.bufSize_pos; omega
        bufSize_lt := h
        count_le := by have := b.count_le; omega
        length_data := by simp [b.length_data]; omega }
    else none
  else some b

theorem bufferCountMax_mul (b : Buffer) : b.bufferCountMax * b.itemSize = b.bufSize :=
  Nat.div_mul_cancel b.whole

theorem count_le_bufferCountMax (b : Buffer) : b.count ≤ b.bufferCountMax :=
  (Nat.le_div_iff_mul_le b.itemSize_pos).mpr b.count_le

/-- What every addition begins with. -/
def reserveItem (fresh : Nat → UInt8) (b : Buffer) : Option Buffer :=
  if b.count = b.bufferCountMax then b.reallocBuffer fresh else some b

theorem bufferCountMax_pos (b : Buffer) : 0 < b.bufferCountMax :=
  Nat.div_pos (Nat.le_of_dvd b.bufSize_pos b.whole) b.itemSize_pos

/-- Store an item behind the last one; it has as many bytes as the buffer says. -/
def addBufferItem (fresh : Nat → UInt8) (b : Buffer) (item : List UInt8) : Option Buffer :=
  (b.reserveItem fresh).bind fun b =>
    if h : b.count < b.bufferCountMax ∧ item.length = b.itemSize then
      some { b with
        count := b.count + 1
        data := memcpyAt b.data (b.itemSize * b.count) item
        count_le := (Nat.le_div_iff_mul_le b.itemSize_pos).mp h.1
        length_data := by
          have hroom := (Nat.le_div_iff_mul_le b.itemSize_pos).mp h.1
          rw [Nat.succ_mul, Nat.mul_comm] at hroom
          rw [length_memcpyAt _ _ _ (by rw [h.2, b.length_data]; exact hroom), b.length_data] }
    else none

private theorem take_drop_congr {d d' : List UInt8} {n start size : Nat}
    (h : d.take n = d'.take n) (hle : start + size ≤ n) :
    (d.drop start).take size = (d'.drop start).take size := by
  have htake : ∀ l : List UInt8, (l.drop start).take size = ((l.take n).drop start).take size := by
    intro l
    rw [List.drop_take, List.take_take, Nat.min_eq_left (by omega)]
  rw [htake d, htake d', h]

private theorem item_end_le {itemSize index count : Nat} (hindex : index < count) :
    itemSize * index + itemSize ≤ itemSize * count := by
  rw [← Nat.mul_add_one]
  exact Nat.mul_le_mul_left _ hindex

theorem items_congr {b b' : Buffer} (hcount : b.count = b'.count)
    (hitem : b.itemSize = b'.itemSize)
    (hdata : b.data.take (b'.itemSize * b'.count) = b'.data.take (b'.itemSize * b'.count)) :
    b.items = b'.items := by
  rw [items, items, hcount]
  apply List.map_congr_left
  intro index hindex
  rw [getBufferItem, getBufferItem, hitem]
  exact take_drop_congr hdata (item_end_le (List.mem_range.mp hindex))

theorem count_lt (b : Buffer) : b.count < 2 ^ 32 := by
  have hle := b.count_le
  have hlt := b.bufSize_lt
  have hmul := Nat.le_mul_of_pos_right b.count b.itemSize_pos
  omega

theorem length_items (b : Buffer) : b.items.length = b.count := by simp [items]

theorem count_eq_bufferCountMax_iff (b : Buffer) :
    b.count = b.bufferCountMax ↔ b.count * b.itemSize = b.bufSize := by
  rw [← b.bufferCountMax_mul, Nat.mul_left_inj (Nat.ne_of_gt b.itemSize_pos)]

/-- The size of a buffer once there is room for one more item. -/
def reservedSize (b : Buffer) : Nat :=
  if b.count = b.bufferCountMax then b.bufSize * 2 else b.bufSize

theorem reservedSize_lt (b : Buffer) (h : 2 * (b.count * b.itemSize) < 2 ^ 32) :
    b.reservedSize < 2 ^ 32 := by
  rw [reservedSize]
  split
  · rename_i hfull
    have hbytes := b.count_eq_bufferCountMax_iff.mp hfull
    omega
  · exact b.bufSize_lt

/-- The buffer with room for one more item. -/
structure Reserved (b b' : Buffer) : Prop where
  count_eq : b'.count = b.count
  itemSize_eq : b'.itemSize = b.itemSize
  bufSize_eq : b'.bufSize = b.reservedSize
  items_eq : b'.items = b.items
  room : b'.count < b'.bufferCountMax

theorem reserveItem_reserved (fresh : Nat → UInt8) (b : Buffer) (hsize : b.reservedSize < 2 ^ 32) :
    ∃ b', b.reserveItem fresh = some b' ∧ Reserved b b' := by
  rw [reservedSize] at hsize
  by_cases hfull : b.count = b.bufferCountMax
  · have hbytes := b.count_eq_bufferCountMax_iff.mp hfull
    rw [if_pos hfull] at hsize
    rw [reserveItem, if_pos hfull, reallocBuffer, if_pos hbytes, dif_pos hsize]
    refine ⟨_, rfl, rfl, rfl, (if_pos hfull).symm, ?_, ?_⟩
    · have hle : b.itemSize * b.count ≤ b.data.length := by
        rw [b.length_data, Nat.mul_comm]
        exact b.count_le
      exact items_congr rfl rfl (List.take_append_of_le_length hle)
    · have hpos := b.bufSize_pos
      have hmore : b.count * b.itemSize < b.bufSize * 2 := by omega
      exact (Nat.lt_div_iff_mul_lt_of_dvd (Nat.ne_of_gt b.itemSize_pos)
        (Nat.dvd_mul_right_of_dvd b.whole 2)).mpr hmore
  · refine ⟨b, by rw [reserveItem, if_neg hfull], rfl, rfl, (if_neg hfull).symm, rfl, ?_⟩
    have hle := b.count_le_bufferCountMax
    omega

/-- What an addition does. -/
structure Added (b : Buffer) (item : List UInt8) (b' : Buffer) : Prop where
  count_eq : b'.count = b.count + 1
  itemSize_eq : b'.itemSize = b.itemSize
  bufSize_eq : b'.bufSize = b.reservedSize
  items_eq : b'.items = b.items ++ [item]

theorem addBufferItem_added (fresh : Nat → UInt8) (b : Buffer) (item : List UInt8)
    (hitem : item.length = b.itemSize) (hsize : b.reservedSize < 2 ^ 32) :
    ∃ b', b.addBufferItem fresh item = some b' ∧ Added b item b' := by
  obtain ⟨r, hreserve, hr⟩ := b.reserveItem_reserved fresh hsize
  have hlength : item.length = r.itemSize := hitem.trans hr.itemSize_eq.symm
  rw [addBufferItem, hreserve, Option.bind_some, dif_pos ⟨hr.room, hlength⟩]
  refine ⟨_, rfl, congrArg (· + 1) hr.count_eq, hr.itemSize_eq, hr.bufSize_eq, ?_⟩
  have hend : r.itemSize * r.count + item.length ≤ r.data.length := by
    rw [hlength, r.length_data, ← r.bufferCountMax_mul, Nat.mul_comm r.bufferCountMax]
    exact item_end_le hr.room
  have hused := take_offset_memcpyAt r.data (r.itemSize * r.count) item (by omega)
  have hlast := take_drop_memcpyAt r.data (r.itemSize * r.count) item hend
  rw [hlength] at hlast
  rw [items, List.range_succ, List.map_append, ← hr.items_eq, items]
  congr 1
  · apply List.map_congr_left
    intro index hindex
    exact take_drop_congr hused (item_end_le (List.mem_range.mp hindex))
  · exact congrArg (fun x => [x]) hlast

/-! ## Growth -/

/-- A buffer that was doubled only when it was full. -/
def Grown (granularity : Nat) (b : Buffer) : Prop :=
  ∃ k, b.bufferCountMax = granularity * 2 ^ k ∧ ∀ j < k, granularity * 2 ^ j < b.count

private theorem Added.bufferCountMax_eq {b b' : Buffer} {item : List UInt8} (h : Added b item b') :
    b'.bufferCountMax = if b.count = b.bufferCountMax then b.bufferCountMax * 2
      else b.bufferCountMax := by
  apply Nat.eq_of_mul_eq_mul_right b.itemSize_pos
  have hmul := b'.bufferCountMax_mul
  rw [h.itemSize_eq, h.bufSize_eq, reservedSize, ← b.bufferCountMax_mul] at hmul
  rw [hmul]
  split
  · rw [Nat.mul_right_comm]
  · rfl

private theorem Grown.added {granularity : Nat} {b b' : Buffer} {item : List UInt8}
    (h : b.Grown granularity) (hadd : Added b item b') : b'.Grown granularity := by
  obtain ⟨k, hk, hbelow⟩ := h
  have hmax := hadd.bufferCountMax_eq
  by_cases hfull : b.count = b.bufferCountMax
  · rw [if_pos hfull, hk, Nat.mul_assoc, ← Nat.pow_succ] at hmax
    refine ⟨k + 1, hmax, fun j hj => ?_⟩
    have hle : granularity * 2 ^ j ≤ granularity * 2 ^ k :=
      Nat.mul_le_mul_left _ (Nat.pow_le_pow_right (by decide) (Nat.le_of_lt_succ hj))
    rw [hadd.count_eq, hfull, hk]
    omega
  · rw [if_neg hfull] at hmax
    refine ⟨k, hmax.trans hk, fun j hj => ?_⟩
    have hlt := hbelow j hj
    rw [hadd.count_eq]
    omega

theorem Grown.granularity_le {granularity : Nat} {b : Buffer} (h : b.Grown granularity) :
    granularity ≤ b.bufferCountMax := by
  obtain ⟨k, hk, -⟩ := h
  rw [hk]
  exact Nat.le_mul_of_pos_right _ (Nat.two_pow_pos k)

/-- A grown buffer is full when the number of its items is the granularity doubled some times. -/
theorem Grown.full_iff {granularity : Nat} {b : Buffer} (h : b.Grown granularity) :
    b.count = b.bufferCountMax ↔ ∃ k, b.count = granularity * 2 ^ k := by
  obtain ⟨k, hk, hbelow⟩ := h
  constructor
  · intro hfull
    exact ⟨k, hfull.trans hk⟩
  · rintro ⟨j, hj⟩
    have hle := b.count_le_bufferCountMax
    have hjk : k ≤ j := by
      by_contra hlt
      have := hbelow j (by omega)
      omega
    have hpow : granularity * 2 ^ k ≤ granularity * 2 ^ j :=
      Nat.mul_le_mul_left _ (Nat.pow_le_pow_right (by decide) hjk)
    omega

theorem addBufferItems_grown (fresh : Nat → UInt8) {granularity : Nat} (items : List (List UInt8))
    (b : Buffer) (h : b.Grown granularity) (hitems : ∀ item ∈ items, item.length = b.itemSize)
    (hsize : 2 * ((b.count + items.length) * b.itemSize) < 2 ^ 32) :
    ∃ b', items.foldlM (addBufferItem fresh) b = some b' ∧ b'.items = b.items ++ items ∧
      b'.itemSize = b.itemSize ∧ b'.Grown granularity := by
  induction items generalizing b with
  | nil => exact ⟨b, rfl, by simp, rfl, h⟩
  | cons item items ih =>
      have hreserved : b.reservedSize < 2 ^ 32 := by
        apply b.reservedSize_lt
        rw [Nat.add_mul] at hsize
        omega
      obtain ⟨b₁, hadd, hadded⟩ :=
        b.addBufferItem_added fresh item (hitems item List.mem_cons_self) hreserved
      have hlength : b₁.count + items.length = b.count + (item :: items).length := by
        rw [hadded.count_eq, List.length_cons]
        omega
      obtain ⟨b', hfold, hall, hitem, hgrown⟩ := ih b₁ (h.added hadded)
        (fun x hx => (hitems x (List.mem_cons_of_mem item hx)).trans hadded.itemSize_eq.symm)
        (by rwa [hlength, hadded.itemSize_eq])
      refine ⟨b', ?_, ?_, hitem.trans hadded.itemSize_eq, hgrown⟩
      · rw [List.foldlM_cons, hadd]
        exact hfold
      · rw [hall, hadded.items_eq, List.append_assoc, List.singleton_append]

/-! ## Insertions of both kinds -/

/-- Where the bytes of an item begin. -/
def bufferItemPointer (b : Buffer) (index : Nat) : Nat := b.itemSize * index

private theorem Reserved.place_le {b b' : Buffer} (h : Reserved b b') :
    b'.bufferItemPointer b'.count + b'.itemSize ≤ b'.bufSize := by
  rw [bufferItemPointer, ← b'.bufferCountMax_mul, Nat.mul_comm b'.bufferCountMax]
  exact item_end_le h.room

/-- Take the next item with the bytes it has, and return its index. -/
def addBufferItemVirtually (fresh : Nat → UInt8) (b : Buffer) : Option (Nat × Buffer) :=
  (b.reserveItem fresh).bind fun b =>
    if h : b.count < b.bufferCountMax then
      some (b.count, { b with
        count := b.count + 1
        count_le := (Nat.le_div_iff_mul_le b.itemSize_pos).mp h })
    else none

/-- A call that inserts an item of `itemSize` bytes. -/
inductive Insertion (itemSize : Nat) where
  | addBufferItem (item : List UInt8) (length_item : item.length = itemSize)
  | addBufferItemVirtually

def insertItem {itemSize : Nat} (fresh : Nat → UInt8) (b : Buffer) :
    Insertion itemSize → Option Buffer
  | .addBufferItem item _ => b.addBufferItem fresh item
  | .addBufferItemVirtually => (b.addBufferItemVirtually fresh).map Prod.snd

private theorem addBufferItemVirtually_added (fresh : Nat → UInt8) (b : Buffer)
    (hsize : b.reservedSize < 2 ^ 32) :
    ∃ b' item, b.addBufferItemVirtually fresh = some (b.count, b') ∧ Added b item b' := by
  obtain ⟨r, hreserve, hr⟩ := b.reserveItem_reserved fresh hsize
  rw [addBufferItemVirtually, hreserve, Option.bind_some, dif_pos hr.room, ← hr.count_eq]
  refine ⟨_, r.getBufferItem r.count, rfl, congrArg (· + 1) hr.count_eq, hr.itemSize_eq,
    hr.bufSize_eq, ?_⟩
  rw [← hr.items_eq, items, items, List.range_succ, List.map_append]
  rfl

theorem insertItem_added {itemSize : Nat} (fresh : Nat → UInt8) (b : Buffer)
    (x : Insertion itemSize) (hitem : b.itemSize = itemSize) (hsize : b.reservedSize < 2 ^ 32) :
    ∃ b' item, b.insertItem fresh x = some b' ∧ Added b item b' ∧
      ∀ stored hlength, x = .addBufferItem stored hlength → item = stored := by
  cases x with
  | addBufferItem item length_item =>
      obtain ⟨b', hadd, hadded⟩ :=
        b.addBufferItem_added fresh item (length_item.trans hitem.symm) hsize
      refine ⟨b', item, hadd, hadded, ?_⟩
      intro stored _ heq
      exact (Insertion.addBufferItem.inj heq)
  | addBufferItemVirtually =>
      obtain ⟨b', item, hadd, hadded⟩ := b.addBufferItemVirtually_added fresh hsize
      refine ⟨b', item, by rw [insertItem, hadd]; rfl, hadded, ?_⟩
      intro stored _ heq
      cases heq

theorem items_getElem? (b : Buffer) {index : Nat} (h : index < b.count) :
    b.items[index]? = some (b.getBufferItem index) := by
  simp [items, h]

private theorem Added.getBufferItem_eq {b b' : Buffer} {item : List UInt8} (h : Added b item b')
    {index : Nat} (hindex : index < b.count) :
    b'.getBufferItem index = b.getBufferItem index := by
  have hitems : b'.items[index]? = (b.items ++ [item])[index]? := by rw [h.items_eq]
  have hlt : index < b'.count := by
    rw [h.count_eq]
    omega
  rw [List.getElem?_append_left (by rwa [length_items]), items_getElem? b' hlt,
    items_getElem? b hindex] at hitems
  exact Option.some.inj hitems

private theorem Added.getBufferItem_last {b b' : Buffer} {item : List UInt8} (h : Added b item b') :
    b'.getBufferItem b.count = item := by
  have hitems : b'.items[b.count]? = (b.items ++ [item])[b.count]? := by rw [h.items_eq]
  have hlt : b.count < b'.count := by
    rw [h.count_eq]
    omega
  rw [items_getElem? b' hlt, List.getElem?_append_right (Nat.le_of_eq b.length_items),
    b.length_items, Nat.sub_self, List.getElem?_cons_zero] at hitems
  exact Option.some.inj hitems

theorem insertItems_kept {itemSize : Nat} (fresh : Nat → UInt8) (xs : List (Insertion itemSize))
    (b : Buffer) (hitem : b.itemSize = itemSize)
    (hsize : (b.count + xs.length) * itemSize < 2 ^ 30) :
    ∃ b', xs.foldlM (insertItem fresh) b = some b' ∧ b'.itemSize = itemSize ∧
      b'.count = b.count + xs.length ∧
      ∀ index < b.count, b'.getBufferItem index = b.getBufferItem index := by
  induction xs generalizing b with
  | nil => exact ⟨b, rfl, hitem, rfl, fun _ _ => rfl⟩
  | cons x xs ih =>
      have hreserved : b.reservedSize < 2 ^ 32 := by
        apply b.reservedSize_lt
        rw [Nat.add_mul] at hsize
        rw [hitem]
        omega
      obtain ⟨b₁, item, hadd, hadded, -⟩ := b.insertItem_added fresh x hitem hreserved
      have hlength : b₁.count + xs.length = b.count + (x :: xs).length := by
        rw [hadded.count_eq, List.length_cons]
        omega
      obtain ⟨b', hfold, hitem', hcount', hkept⟩ :=
        ih b₁ (hadded.itemSize_eq.trans hitem) (by rwa [hlength])
      refine ⟨b', ?_, hitem', hcount'.trans hlength, ?_⟩
      · rw [List.foldlM_cons, hadd]
        exact hfold
      · intro index hindex
        rw [hkept index (by rw [hadded.count_eq]; omega), hadded.getBufferItem_eq hindex]

private theorem insertItems_stored {itemSize : Nat} (fresh : Nat → UInt8) {x : Insertion itemSize}
    {xs : List (Insertion itemSize)} {b b' : Buffer} (hitem : b.itemSize = itemSize)
    (hreserved : b.reservedSize < 2 ^ 32) (hsize : (b.count + (xs.length + 1)) * itemSize < 2 ^ 30)
    (h : (x :: xs).foldlM (insertItem fresh) b = some b') {item : List UInt8}
    {hlength : item.length = itemSize} (hx : x = .addBufferItem item hlength) :
    b'.getBufferItem b.count = item := by
  obtain ⟨b₁, stored, hadd, hadded, hstored⟩ := b.insertItem_added fresh x hitem hreserved
  rw [List.foldlM_cons, hadd] at h
  have hrest : (b₁.count + xs.length) * itemSize < 2 ^ 30 := by
    rwa [hadded.count_eq, Nat.add_right_comm]
  obtain ⟨last, hlast, -, -, hkept⟩ :=
    insertItems_kept fresh xs b₁ (hadded.itemSize_eq.trans hitem) hrest
  have heq : last = b' := Option.some.inj (hlast.symm.trans h)
  rw [← heq, hkept b.count (by rw [hadded.count_eq]; omega), hadded.getBufferItem_last]
  exact hstored item hlength hx

end Buffer

theorem allocBuffer_sizes {itemsize granularity : Nat} {b : Buffer}
    (h : allocBuffer itemsize granularity = some b) :
    b.itemSize = itemsize ∧ b.bufSize = allocBufferCount granularity * itemsize := by
  rw [allocBuffer] at h
  split at h
  · rw [Option.some.injEq] at h
    subst h
    exact ⟨rfl, rfl⟩
  · cases h

theorem allocBuffer_isSome {itemsize granularity : Nat} (hpos : 0 < itemsize)
    (hint : itemsize < 2 ^ 31) (hsize : allocBufferCount granularity * itemsize < 2 ^ 32) :
    ∃ b, allocBuffer itemsize granularity = some b :=
  ⟨_, by rw [allocBuffer, dif_pos ⟨hpos, hint, hsize⟩]⟩

theorem allocBuffer_grown {itemsize granularity : Nat} {b : Buffer}
    (h : allocBuffer itemsize granularity = some b) :
    b.itemSize = itemsize ∧ b.items = [] ∧ b.count = 0 ∧ b.Grown (allocBufferCount granularity) := by
  rw [allocBuffer] at h
  split at h
  · rename_i hsize
    rw [Option.some.injEq] at h
    subst h
    refine ⟨rfl, rfl, rfl, 0, ?_, by simp⟩
    rw [Nat.pow_zero, Nat.mul_one]
    exact Nat.mul_div_cancel _ hsize.1
  · cases h

/-- Every insertion into a new buffer has its place inside the memory, which keeps the items that
are there and holds the new one. -/
theorem allocBuffer_insertItems (fresh : Nat → UInt8) {itemsize granularity : Nat} {b : Buffer}
    (halloc : allocBuffer itemsize granularity = some b)
    (before after : List (Buffer.Insertion itemsize))
    (hsize : (before ++ after).length * itemsize < 2 ^ 30) :
    ∃ m b', before.foldlM (Buffer.insertItem fresh) b = some m ∧
      after.foldlM (Buffer.insertItem fresh) m = some b' ∧
      m.count = before.length ∧ m.count ≤ m.bufferCountMax ∧
      (∀ index < m.count, b'.getBufferItem index = m.getBufferItem index ∧
        (b'.data.drop (b'.bufferItemPointer index)).take itemsize = m.getBufferItem index) ∧
      ∀ x rest, after = x :: rest →
        (∃ r, m.reserveItem fresh = some r ∧ r.count = m.count ∧
          r.bufferItemPointer r.count + itemsize ≤ r.bufSize ∧ r.data.length = r.bufSize) ∧
        ∀ item hlength, x = .addBufferItem item hlength → b'.getBufferItem m.count = item := by
  obtain ⟨hitem, -, hzero, -⟩ := allocBuffer_grown halloc
  have hall : (before.length + after.length) * itemsize < 2 ^ 30 := by
    rwa [List.length_append] at hsize
  have hbefore : (b.count + before.length) * itemsize < 2 ^ 30 := by
    rw [Nat.add_mul] at hall
    rw [hzero, Nat.zero_add]
    omega
  obtain ⟨m, hm, hmitem, hmcount, -⟩ := Buffer.insertItems_kept fresh before b hitem hbefore
  rw [hzero, Nat.zero_add] at hmcount
  obtain ⟨b', hb', hitem', -, hkept⟩ :=
    Buffer.insertItems_kept fresh after m hmitem (by rwa [hmcount])
  refine ⟨m, b', hm, hb', hmcount, m.count_le_bufferCountMax, ?_, ?_⟩
  · intro index hindex
    have hsame := hkept index hindex
    rw [Buffer.getBufferItem, hitem'] at hsame
    exact ⟨hkept index hindex, by rw [Buffer.bufferItemPointer, hitem', hsame]⟩
  intro x rest hafter
  subst hafter
  have hroom : m.reservedSize < 2 ^ 32 := by
    apply m.reservedSize_lt
    rw [Nat.add_mul] at hall
    rw [hmcount, hmitem]
    omega
  constructor
  · obtain ⟨r, hreserve, hr⟩ := m.reserveItem_reserved fresh hroom
    have hend := hr.place_le
    rw [hr.itemSize_eq, hmitem] at hend
    exact ⟨r, hreserve, hr.count_eq, hend, r.length_data⟩
  · intro item hlength hx
    rw [List.length_cons, ← hmcount] at hall
    exact Buffer.insertItems_stored fresh hmitem hroom hall hb' hx

/-- A buffer of pairs that is made without room to spare. -/
theorem pairItems_inserted : ∃ b m b' : Buffer, allocBuffer 2 0 = some b ∧
    [(.addBufferItemVirtually : Buffer.Insertion 2), .addBufferItem [1, 2] rfl].foldlM
      (Buffer.insertItem fun _ => 0) b = some m ∧
    [(.addBufferItem [3, 4] rfl : Buffer.Insertion 2), .addBufferItemVirtually].foldlM
      (Buffer.insertItem fun _ => 0) m = some b' ∧
    m.count = 2 ∧ b'.getBufferItem 2 = [3, 4] := by
  obtain ⟨b, halloc⟩ := @allocBuffer_isSome 2 0 (by decide) (by decide) (by decide)
  obtain ⟨m, b', hm, hb', hcount, -, -, hnext⟩ := allocBuffer_insertItems (fun _ => 0) halloc
    [.addBufferItemVirtually, .addBufferItem [1, 2] rfl]
    [.addBufferItem [3, 4] rfl, .addBufferItemVirtually] (by decide)
  have hstored := (hnext _ _ rfl).2 [3, 4] rfl rfl
  rw [hcount] at hstored
  exact ⟨b, m, b', halloc, hm, hb', hcount, hstored⟩

end Zrt.MapReduce
