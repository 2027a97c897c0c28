import Mathlib.Data.Nat.Digits.Defs
import Mathlib.Tactic.Ring
import Zrt.Framework.Cursors
import Zrt.Fs.ChannelsReaddir
import Zrt.Helpers.BufferedIo

/-!
# Records of directory entries

The engine writes the entries of a directory into a buffer as records, one behind the other, and
reads them back. Both sides compute the size of a record from the length of its name.
-/

namespace Zrt.Fs

open Framework Helpers

/-! ## Words in memory -/

/-- The lowest bytes of a number, in the order of the machine. -/
def wordBytes : Nat → Nat → List UInt8
  | 0, _ => []
  | len + 1, n => UInt8.ofNat n :: wordBytes len (n / 256)

def wordOfBytes (bytes : List UInt8) : Nat := Nat.ofDigits 256 (bytes.map UInt8.toNat)

@[simp] theorem length_wordBytes (len n : Nat) : (wordBytes len n).length = len := by
  induction len generalizing n with
  | zero => rfl
  | succ len ih => rw [wordBytes, List.length_cons, ih]

private theorem wordOfBytes_wordBytes (len n : Nat) : wordOfBytes (wordBytes len n) = n % 256 ^ len := by
  induction len generalizing n with
  | zero => rw [Nat.pow_zero, Nat.mod_one]; rfl
  | succ len ih =>
      have hsplit : n % 256 ^ (len + 1) = n % 256 + 256 * (n / 256 % 256 ^ len) := by
        rw [Nat.pow_succ', Nat.mod_mul]
      rw [hsplit, ← ih, wordOfBytes, wordBytes, List.map_cons, Nat.ofDigits_cons, UInt8.toNat_ofNat']
      rfl

/-- The bytes of a buffer from an offset on, at most so many. -/
def slice (buf : List UInt8) (offset len : Nat) : List UInt8 := (buf.drop offset).take len

private theorem slice_memcpyAt_self (buf : List UInt8) (offset : Nat) (data : List UInt8)
    (h : offset + data.length ≤ buf.length) :
    slice (memcpyAt buf offset data) offset data.length = data :=
  take_drop_memcpyAt buf offset data h

private theorem slice_memcpyAt_of_disjoint (buf : List UInt8) (offset : Nat) (data : List UInt8)
    (start len : Nat) (h : offset + data.length ≤ buf.length)
    (hdisjoint : start + len ≤ offset ∨ offset + data.length ≤ start) :
    slice (memcpyAt buf offset data) start len = slice buf start len := by
  rcases hdisjoint with hbefore | hbehind
  · have htake := take_offset_memcpyAt buf offset data (by omega)
    have hcut : ∀ l : List UInt8, slice l start len = ((l.take offset).drop start).take len := by
      intro l
      rw [slice, List.drop_take, List.take_take, Nat.min_eq_left (by omega)]
    rw [hcut, htake, ← hcut]
  · have hlen : (buf.take offset ++ data).length = offset + data.length := by
      simp only [List.length_append, List.length_take]
      omega
    obtain ⟨more, rfl⟩ : ∃ more, start = offset + data.length + more :=
      ⟨start - (offset + data.length), by omega⟩
    rw [slice, slice, memcpyAt, ← List.drop_drop, ← hlen, List.drop_left, hlen, List.drop_drop]

/-! ## Records -/

/-- Where the fields of `DIRENT` lie. `typeAt` is the field for the type; a structure without it
has the type in the last byte of the record. -/
structure DirentFormat where
  inoAt : Nat
  inoLen : Nat
  offAt : Nat
  offLen : Nat
  reclenAt : Nat
  typeAt : Option Nat
  nameOffset : Nat
  ino_before_off : inoAt + inoLen ≤ offAt
  off_before_reclen : offAt + offLen ≤ reclenAt
  reclen_before_name : reclenAt + 2 ≤ nameOffset
  type_before_name : ∀ t, typeAt = some t → reclenAt + 2 ≤ t ∧ t + 1 ≤ nameOffset
  nameOffset_lt : nameOffset + 264 < 2 ^ 16

def DirentFormat.layout (f : DirentFormat) : DirentLayout where
  nameOffset := f.nameOffset
  trailer := if f.typeAt.isSome then 0 else 1

/-- The size of a record; the arguments of the macros are the same but for the byte of the type. -/
def direntlen (layout : DirentLayout) (dNameLen : Nat) : Nat :=
  (layout.nameOffset + dNameLen + 1 + layout.trailer + 8 - 1) / 8 * 8

/-- An entry to be written. The inode number is an `unsigned long` that the field can hold. -/
structure DirentEntry (f : DirentFormat) where
  dIno : Nat
  dOff : Nat
  mode : Nat
  dName : List UInt8
  dIno_lt : dIno < 256 ^ f.inoLen
  dName_pos : 1 ≤ dName.length
  dName_le : dName.length ≤ 255
  dName_nul : 0 ∉ dName

/-- `DT_UNKNOWN` is zero. -/
def dTypeFromMode (mode : Nat) : UInt8 :=
  match mode &&& 0o170000 with
  | 0o060000 => 6
  | 0o020000 => 2
  | 0o040000 => 4
  | 0o010000 => 1
  | 0o120000 => 10
  | 0o100000 => 8
  | 0o140000 => 12
  | _ => 0

/-- What is written for an entry, in order. -/
def direntWrites (f : DirentFormat) (e : DirentEntry f) (size : Nat) : List (Nat × List UInt8) :=
  [(f.reclenAt, wordBytes 2 size), (f.inoAt, wordBytes f.inoLen e.dIno),
    (f.typeAt.getD (size - 1), [dTypeFromMode e.mode]),
    (f.offAt, wordBytes f.offLen (if e.dOff = 0x7fffffff then 0x7fffffff else e.dOff + size)),
    (f.nameOffset, e.dName), (f.nameOffset + e.dName.length, [0])]

def writeAll (buf : List UInt8) (writes : List (Nat × List UInt8)) : List UInt8 :=
  writes.foldl (fun b w => memcpyAt b w.1 w.2) buf

/-- The answer is the length of the record, a `short`, or minus one. -/
def putDirentIntoBuf (f : DirentFormat) (buf : List UInt8) (e : DirentEntry f) : Int × List UInt8 :=
  let adjustedSize := direntlen f.layout e.dName.length
  if adjustedSize ≤ buf.length then
    ((adjustedSize % 2 ^ 16 : Nat), writeAll buf (direntWrites f e adjustedSize))
  else (-1, buf)

/-- What is read of a record; the type only from a field of its own. -/
structure DirentItem where
  dName : List UInt8
  dIno : Nat
  dType : Option UInt8
deriving DecidableEq, Repr

def cString (bytes : List UInt8) : List UInt8 := bytes.takeWhile (· ≠ 0)

def getNextItemFromDirentBuf (f : DirentFormat) (buf : List UInt8) (bufSize cursor : Nat) :
    Option DirentItem × Nat :=
  if cursor + direntlen f.layout 1 ≤ bufSize then
    let item := buf.drop cursor
    let dName := cString (item.drop f.nameOffset)
    (some {
      dName := dName
      dIno := wordOfBytes (slice item f.inoAt f.inoLen)
      dType := f.typeAt.map fun t => (slice item t 1).headD 0 },
      cursor + direntlen f.layout dName.length)
  else (none, cursor)

/-- Entries are put one behind the other until one does not fit: how many were put, the bytes they
take, and the buffer. -/
def packDirents (f : DirentFormat) : List (DirentEntry f) → List UInt8 → Nat × Nat × List UInt8
  | [], buf => (0, 0, buf)
  | e :: es, buf =>
      let put := putDirentIntoBuf f buf e
      if put.1 = -1 then (0, 0, put.2)
      else
        let size := put.1.toNat
        let rest := packDirents f es (put.2.drop size)
        (rest.1 + 1, size + rest.2.1, put.2.take size ++ rest.2.2)

/-! ## Several writes -/

section Writes

variable {buf : List UInt8} {writes : List (Nat × List UInt8)}

theorem length_writeAll (h : ∀ w ∈ writes, w.1 + w.2.length ≤ buf.length) :
    (writeAll buf writes).length = buf.length := by
  induction writes generalizing buf with
  | nil => rfl
  | cons w ws ih =>
      have hlen := length_memcpyAt buf w.1 w.2 (h w List.mem_cons_self)
      have hrest : ∀ x ∈ ws, x.1 + x.2.length ≤ (memcpyAt buf w.1 w.2).length :=
        fun x hx => hlen ▸ h x (List.mem_cons_of_mem w hx)
      exact (ih hrest).trans hlen

theorem slice_writeAll_of_disjoint (h : ∀ w ∈ writes, w.1 + w.2.length ≤ buf.length)
    (start len : Nat)
    (hdisjoint : ∀ w ∈ writes, start + len ≤ w.1 ∨ w.1 + w.2.length ≤ start) :
    slice (writeAll buf writes) start len = slice buf start len := by
  induction writes generalizing buf with
  | nil => rfl
  | cons w ws ih =>
      have hlen := length_memcpyAt buf w.1 w.2 (h w List.mem_cons_self)
      have hrest : ∀ x ∈ ws, x.1 + x.2.length ≤ (memcpyAt buf w.1 w.2).length :=
        fun x hx => hlen ▸ h x (List.mem_cons_of_mem w hx)
      have hfirst := slice_memcpyAt_of_disjoint buf w.1 w.2 start len (h w List.mem_cons_self)
        (hdisjoint w List.mem_cons_self)
      exact (ih hrest fun x hx => hdisjoint x (List.mem_cons_of_mem w hx)).trans hfirst

private theorem slice_writeAll (buf : List UInt8) (pre : List (Nat × List UInt8)) (offset : Nat) (data : List UInt8)
    (post : List (Nat × List UInt8))
    (h : ∀ w ∈ pre ++ (offset, data) :: post, w.1 + w.2.length ≤ buf.length)
    (hdisjoint : ∀ w ∈ post, offset + data.length ≤ w.1 ∨ w.1 + w.2.length ≤ offset) :
    slice (writeAll buf (pre ++ (offset, data) :: post)) offset data.length = data := by
  have hpre : (writeAll buf pre).length = buf.length :=
    length_writeAll fun w hw => h w (List.mem_append_left _ hw)
  have hdata : offset + data.length ≤ (writeAll buf pre).length := by
    rw [hpre]
    exact h (offset, data) (by simp)
  have hlen := length_memcpyAt (writeAll buf pre) offset data hdata
  have hpost : ∀ w ∈ post,
      w.1 + w.2.length ≤ (memcpyAt (writeAll buf pre) offset data).length := by
    intro w hw
    rw [hlen, hpre]
    exact h w (by simp [hw])
  have hsplit : writeAll buf (pre ++ (offset, data) :: post) =
      writeAll (memcpyAt (writeAll buf pre) offset data) post := by
    rw [writeAll, List.foldl_append, List.foldl_cons]
    rfl
  rw [hsplit, slice_writeAll_of_disjoint hpost offset data.length hdisjoint]
  exact slice_memcpyAt_self _ _ _ hdata

end Writes

theorem slice_take (buf : List UInt8) {n start len : Nat} (h : start + len ≤ n) :
    slice (buf.take n) start len = slice buf start len := by
  rw [slice, slice, List.drop_take, List.take_take, Nat.min_eq_left (by omega)]

private theorem slice_add (buf : List UInt8) (start m k : Nat) :
    slice buf start (m + k) = slice buf start m ++ slice buf (start + m) k := by
  rw [slice, slice, slice, List.take_add, List.drop_drop]

/-! ## Records written -/

section Record

variable {f : DirentFormat} {e : DirentEntry f}

theorem direntlen_ge (layout : DirentLayout) (n : Nat) :
    layout.nameOffset + n + 1 + layout.trailer ≤ direntlen layout n := by
  unfold direntlen
  omega

private theorem direntlen_mono (layout : DirentLayout) {m n : Nat} (h : m ≤ n) :
    direntlen layout m ≤ direntlen layout n := by
  unfold direntlen
  omega

private theorem direntlen_pos (layout : DirentLayout) (n : Nat) : 0 < direntlen layout n := by
  have := direntlen_ge layout n
  omega

private theorem DirentEntry.direntlen_lt (e : DirentEntry f) :
    direntlen f.layout e.dName.length < 2 ^ 16 := by
  have hname := e.dName_le
  have hoffset := f.nameOffset_lt
  have htrailer : f.layout.trailer ≤ 1 := by
    rw [DirentFormat.layout]
    split <;> simp
  have hname' : f.layout.nameOffset = f.nameOffset := rfl
  unfold direntlen
  omega

theorem typeAt_cases (f : DirentFormat) {n size : Nat} (h : direntlen f.layout n = size) :
    (f.reclenAt + 2 ≤ f.typeAt.getD (size - 1) ∧ f.typeAt.getD (size - 1) + 1 ≤ f.nameOffset) ∨
      (f.typeAt = none ∧ f.nameOffset + n + 1 ≤ f.typeAt.getD (size - 1) ∧
        f.typeAt.getD (size - 1) + 1 ≤ size) := by
  have hge := direntlen_ge f.layout n
  rw [h] at hge
  cases ht : f.typeAt with
  | some t => exact Or.inl (f.type_before_name t ht)
  | none =>
      have htrailer : f.layout.trailer = 1 := by rw [DirentFormat.layout, ht]; rfl
      have hname : f.layout.nameOffset = f.nameOffset := rfl
      rw [htrailer, hname] at hge
      exact Or.inr ⟨rfl, by simp only [Option.getD_none]; omega, by simp only [Option.getD_none]; omega⟩

theorem DirentFormat.places (f : DirentFormat) {n size : Nat} (h : direntlen f.layout n = size) :
    f.inoAt + f.inoLen ≤ f.offAt ∧ f.offAt + f.offLen ≤ f.reclenAt ∧
      f.reclenAt + 2 ≤ f.nameOffset ∧ f.nameOffset + n + 1 ≤ size := by
  have hge := direntlen_ge f.layout n
  have hname : f.layout.nameOffset = f.nameOffset := rfl
  rw [h, hname] at hge
  exact ⟨f.ino_before_off, f.off_before_reclen, f.reclen_before_name, by omega⟩

theorem direntWrites_fit {size : Nat} (h : direntlen f.layout e.dName.length = size) :
    ∀ w ∈ direntWrites f e size, w.1 + w.2.length ≤ size := by
  obtain ⟨hino, hoff, hreclen, hend⟩ := f.places h
  have htype := typeAt_cases f h
  intro w hw
  simp only [direntWrites, List.mem_cons, List.not_mem_nil, or_false] at hw
  rcases hw with rfl | rfl | rfl | rfl | rfl | rfl <;>
    simp only [length_wordBytes, List.length_singleton] <;> omega

/-- A record of an entry. -/
structure IsRecord (f : DirentFormat) (e : DirentEntry f) (record : List UInt8) : Prop where
  length_eq : record.length = direntlen f.layout e.dName.length
  ino : slice record f.inoAt f.inoLen = wordBytes f.inoLen e.dIno
  type : ∀ t, f.typeAt = some t → slice record t 1 = [dTypeFromMode e.mode]
  name : slice record f.nameOffset (e.dName.length + 1) = e.dName ++ [0]

private theorem writeAll_isRecord {buf : List UInt8} {size : Nat}
    (h : direntlen f.layout e.dName.length = size) (hfit : size ≤ buf.length) :
    IsRecord f e ((writeAll buf (direntWrites f e size)).take size) := by
  obtain ⟨hino, hoff, hreclen, hend⟩ := f.places h
  have htype := typeAt_cases f h
  have hwrites : ∀ w ∈ direntWrites f e size, w.1 + w.2.length ≤ buf.length :=
    fun w hw => (direntWrites_fit h w hw).trans hfit
  constructor
  · rw [List.length_take, length_writeAll hwrites, h]
    omega
  · rw [slice_take _ (by omega)]
    have hslice := slice_writeAll buf [(f.reclenAt, wordBytes 2 size)] f.inoAt
      (wordBytes f.inoLen e.dIno) (direntWrites f e size).tail.tail hwrites ?_
    · rwa [length_wordBytes] at hslice
    · intro w hw
      simp only [direntWrites, List.tail_cons, List.mem_cons, List.not_mem_nil, or_false] at hw
      rcases hw with rfl | rfl | rfl | rfl <;>
        simp only [length_wordBytes, List.length_singleton] <;> omega
  · intro t ht
    have htfield := f.type_before_name t ht
    have hplace : f.typeAt.getD (size - 1) = t := by rw [ht, Option.getD_some]
    have hslice := slice_writeAll buf ((direntWrites f e size).take 2)
      (f.typeAt.getD (size - 1)) [dTypeFromMode e.mode] ((direntWrites f e size).drop 3) hwrites ?_
    · rw [slice_take _ (by omega), ← hplace]
      exact hslice
    · intro w hw
      rw [hplace]
      simp only [direntWrites, List.drop_succ_cons, List.drop_zero, List.mem_cons,
        List.not_mem_nil, or_false] at hw
      rcases hw with rfl | rfl | rfl <;>
        simp only [length_wordBytes, List.length_singleton] <;> omega
  · have hslice := slice_writeAll buf ((direntWrites f e size).take 4) f.nameOffset
      e.dName [(f.nameOffset + e.dName.length, [0])] hwrites ?_
    · have hnul := slice_writeAll buf ((direntWrites f e size).take 5)
        (f.nameOffset + e.dName.length) [0] [] hwrites (by simp)
      rw [slice_take _ (by omega), slice_add]
      exact congrArg₂ _ hslice hnul
    · intro w hw
      rw [List.mem_singleton.mp hw]
      exact Or.inl (Nat.le_refl _)

end Record

/-! ## Packing and reading back -/

section Packing

variable {f : DirentFormat}

/-- An entry is put when its record fits, in front of bytes that stay; elsewhere nothing is
written. -/
theorem putDirentIntoBuf_spec (f : DirentFormat) (buf : List UInt8) (e : DirentEntry f) :
    if direntlen f.layout e.dName.length ≤ buf.length then
      (putDirentIntoBuf f buf e).1 = direntlen f.layout e.dName.length ∧
        IsRecord f e ((putDirentIntoBuf f buf e).2.take (direntlen f.layout e.dName.length)) ∧
        (putDirentIntoBuf f buf e).2.drop (direntlen f.layout e.dName.length) =
          buf.drop (direntlen f.layout e.dName.length)
    else putDirentIntoBuf f buf e = (-1, buf) := by
  split
  · rename_i hfit
    have hwrites : ∀ w ∈ direntWrites f e (direntlen f.layout e.dName.length),
        w.1 + w.2.length ≤ buf.length := fun w hw => (direntWrites_fit rfl w hw).trans hfit
    simp only [putDirentIntoBuf, hfit, if_true, Nat.mod_eq_of_lt e.direntlen_lt, true_and]
    refine ⟨writeAll_isRecord rfl hfit, ?_⟩
    have hbehind := slice_writeAll_of_disjoint hwrites (direntlen f.layout e.dName.length)
      buf.length fun w hw => Or.inr (direntWrites_fit rfl w hw)
    rw [slice, slice, List.take_of_length_le, List.take_of_length_le] at hbehind
    · exact hbehind
    · rw [List.length_drop]
      omega
    · rw [List.length_drop, length_writeAll hwrites]
      omega
  · rename_i hfit
    rw [putDirentIntoBuf, if_neg hfit]

/-- What a reader finds in the record of an entry. -/
def DirentEntry.item (e : DirentEntry f) : DirentItem where
  dName := e.dName
  dIno := e.dIno
  dType := f.typeAt.map fun _ => dTypeFromMode e.mode

private theorem getNextItem_record {e : DirentEntry f} {record : List UInt8} (h : IsRecord f e record)
    (pre post : List UInt8) (bufSize : Nat) (hsize : pre.length + record.length ≤ bufSize) :
    getNextItemFromDirentBuf f (pre ++ (record ++ post)) bufSize pre.length =
      (some e.item, pre.length + record.length) := by
  have hge := direntlen_ge f.layout e.dName.length
  have hmono := direntlen_mono f.layout e.dName_pos
  have hoffset : f.layout.nameOffset = f.nameOffset := rfl
  have hino := f.ino_before_off
  have hoff := f.off_before_reclen
  have hreclen := f.reclen_before_name
  rw [hoffset, ← h.length_eq] at hge
  rw [← h.length_eq] at hmono
  have hslice : ∀ start len, start + len ≤ record.length →
      slice (record ++ post) start len = slice record start len := by
    intro start len hle
    rw [← slice_take (record ++ post) hle, List.take_left]
  have hname : cString ((record ++ post).drop f.nameOffset) = e.dName := by
    have hbytes : (record ++ post).drop f.nameOffset =
        e.dName ++ 0 :: (record ++ post).drop (f.nameOffset + (e.dName.length + 1)) := by
      rw [← List.take_append_drop (e.dName.length + 1) ((record ++ post).drop f.nameOffset),
        ← slice, hslice _ _ (by omega), h.name, List.drop_drop, List.append_assoc]
      rfl
    rw [cString, hbytes, List.takeWhile_append_of_pos]
    · simp
    · intro x hx
      have hne : x ≠ 0 := fun hzero => e.dName_nul (hzero ▸ hx)
      simpa using hne
  have htype : (f.typeAt.map fun t => (slice (record ++ post) t 1).headD 0) = e.item.dType := by
    cases ht : f.typeAt with
    | none => rw [DirentEntry.item, ht]; rfl
    | some t =>
        have hfield := f.type_before_name t ht
        rw [DirentEntry.item, ht, Option.map_some, hslice t 1 (by omega), h.type t ht]
        rfl
  have hinode : wordOfBytes (slice (record ++ post) f.inoAt f.inoLen) = e.dIno := by
    rw [hslice _ _ (by omega), h.ino, wordOfBytes_wordBytes, Nat.mod_eq_of_lt e.dIno_lt]
  rw [getNextItemFromDirentBuf, if_pos (by omega), List.drop_left]
  simp only [hname, hinode, htype, h.length_eq]
  rfl

private theorem getNextItem_records (entries : List (DirentEntry f)) (records : List (List UInt8))
    (h : List.Forall₂ (IsRecord f) entries records) (pre post : List UInt8) {bufSize : Nat}
    (hsize : pre.length + records.flatten.length = bufSize) :
    Yields (getNextItemFromDirentBuf f (pre ++ (records.flatten ++ post)) bufSize) pre.length
      (entries.map DirentEntry.item) := by
  induction h generalizing pre with
  | nil =>
      apply Yields.nil
      have hpos := direntlen_pos f.layout 1
      rw [List.flatten_nil, List.length_nil] at hsize
      rw [getNextItemFromDirentBuf, if_neg (by omega)]
  | @cons e record entries records hrecord _ ih =>
      rw [List.flatten_cons, List.length_append] at hsize
      have hfirst := getNextItem_record hrecord pre (records.flatten ++ post) bufSize (by omega)
      have hbuf : pre ++ ((record :: records).flatten ++ post) =
          (pre ++ record) ++ (records.flatten ++ post) := by
        rw [List.flatten_cons, List.append_assoc, List.append_assoc]
      rw [← List.append_assoc record, ← List.flatten_cons] at hfirst
      rw [List.map_cons]
      apply Yields.cons hfirst
      rw [hbuf, ← List.length_append]
      exact ih (pre ++ record) (by rw [List.length_append]; omega)

private theorem packDirents_spec (entries : List (DirentEntry f)) (buf : List UInt8) :
    let r := packDirents f entries buf
    ∃ records, List.Forall₂ (IsRecord f) (entries.take r.1) records ∧
      r.2.2 = records.flatten ++ buf.drop r.2.1 ∧ records.flatten.length = r.2.1 ∧
      r.2.1 ≤ buf.length ∧ r.1 ≤ entries.length ∧
      ∀ e, entries[r.1]? = some e → buf.length < r.2.1 + direntlen f.layout e.dName.length := by
  induction entries generalizing buf with
  | nil => exact ⟨[], by simp [packDirents]⟩
  | cons e es ih =>
      have hput := putDirentIntoBuf_spec f buf e
      by_cases hfit : direntlen f.layout e.dName.length ≤ buf.length
      · rw [if_pos hfit] at hput
        obtain ⟨hret, hrecord, hbehind⟩ := hput
        obtain ⟨records, hall, hbuf, hlen, hle, hcount, hnext⟩ :=
          ih (buf.drop (direntlen f.layout e.dName.length))
        have hreclen := hrecord.length_eq
        have hpacked : packDirents f (e :: es) buf =
            ((packDirents f es (buf.drop (direntlen f.layout e.dName.length))).1 + 1,
              direntlen f.layout e.dName.length +
                (packDirents f es (buf.drop (direntlen f.layout e.dName.length))).2.1,
              (putDirentIntoBuf f buf e).2.take (direntlen f.layout e.dName.length) ++
                (packDirents f es (buf.drop (direntlen f.layout e.dName.length))).2.2) := by
          simp only [packDirents, hret, Int.toNat_natCast, hbehind]
          rw [if_neg (by omega)]
        rw [List.length_drop] at hle hnext
        simp only [hpacked]
        refine ⟨_ :: records, List.Forall₂.cons hrecord hall, ?_, ?_, ?_, ?_, ?_⟩
        · rw [hbuf, List.flatten_cons, List.append_assoc, List.drop_drop]
        · rw [List.flatten_cons, List.length_append, hlen, hreclen]
        · omega
        · rw [List.length_cons]
          omega
        · intro x hx
          have := hnext x hx
          omega
      · rw [if_neg hfit] at hput
        have hpacked : packDirents f (e :: es) buf = (0, 0, buf) := by
          simp only [packDirents, hput, if_true]
        simp only [hpacked]
        refine ⟨[], List.Forall₂.nil, rfl, rfl, Nat.zero_le _, Nat.zero_le _, ?_⟩
        intro x hx
        cases hx
        omega

/-- The entries that are packed are those read back, and packing stops at the first entry that does
not fit in the bytes left, which stay as they are. -/
theorem packDirents_roundTrip (f : DirentFormat) (entries : List (DirentEntry f))
    (buf : List UInt8) :
    let r := packDirents f entries buf
    Yields (getNextItemFromDirentBuf f r.2.2 r.2.1) 0 ((entries.take r.1).map DirentEntry.item) ∧
      r.1 ≤ entries.length ∧ r.2.1 ≤ buf.length ∧ r.2.2.drop r.2.1 = buf.drop r.2.1 ∧
      r.2.2.length = buf.length ∧
      (∀ e, entries[r.1]? = some e → buf.length < r.2.1 + direntlen f.layout e.dName.length) ∧
      ∀ b e, ((putDirentIntoBuf f b e).1 = -1 ↔ b.length < direntlen f.layout e.dName.length) ∧
        ((putDirentIntoBuf f b e).1 = -1 → (putDirentIntoBuf f b e).2 = b) := by
  intro r
  obtain ⟨records, hall, hbuf, hlen, hle, hcount, hnext⟩ := packDirents_spec entries buf
  have hbuf' : r.2.2 = records.flatten ++ buf.drop r.2.1 := hbuf
  refine ⟨?_, hcount, hle, ?_, ?_, hnext, ?_⟩
  · rw [hbuf']
    exact getNextItem_records _ records hall [] (buf.drop r.2.1)
      (by rw [List.length_nil, Nat.zero_add, hlen])
  · rw [hbuf', List.drop_left' hlen]
  · rw [hbuf', List.length_append, List.length_drop, hlen]
    exact Nat.add_sub_cancel' hle
  · intro b e
    have hput := putDirentIntoBuf_spec f b e
    by_cases hfit : direntlen f.layout e.dName.length ≤ b.length
    · rw [if_pos hfit] at hput
      have hne : (putDirentIntoBuf f b e).1 ≠ -1 := by
        rw [hput.1]
        omega
      exact ⟨⟨fun h => absurd h hne, fun h => by omega⟩, fun h => absurd h hne⟩
    · rw [if_neg hfit] at hput
      rw [hput]
      exact ⟨⟨fun _ => by omega, fun _ => rfl⟩, fun _ => rfl⟩

/-- `struct linux_dirent` with its long words of eight bytes. -/
def linuxDirent : DirentFormat where
  inoAt := 0
  inoLen := 8
  offAt := 8
  offLen := 8
  reclenAt := 16
  typeAt := none
  nameOffset := 18
  ino_before_off := by decide
  off_before_reclen := by decide
  reclen_before_name := by decide
  type_before_name := by
    intro t ht
    cases ht
  nameOffset_lt := by decide

example : (packDirents linuxDirent
    [⟨7, 0, 0o100644, [97, 98], by decide, by decide, by decide, by decide⟩,
      ⟨8, 24, 0o040755, [99], by decide, by decide, by decide, by decide⟩,
      ⟨9, 48, 0o100644, [100], by decide, by decide, by decide, by decide⟩]
    (List.replicate 50 0xAA)).1 = 2 := by decide

end Packing

end Zrt.Fs
