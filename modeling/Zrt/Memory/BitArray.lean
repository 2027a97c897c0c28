import Mathlib.Data.BitVec
import Mathlib.Order.Bounds.Basic
import Mathlib.Tactic.IntervalCases
import Zrt.Framework.FirstFit

/-!
# Page bitmap

The bit array behind the `mmap` emulation: one bit per page, stored in bytes. A search looks for
the first run of clear bits, byte by byte, skipping the bytes that are full.
-/

namespace Zrt.Memory

open Zrt.Framework

/-- `array_size` bytes of the storage take part in a search; the storage itself may be longer. -/
structure BitArray where
  array : Nat → BitVec 8
  arraySize : Nat
  arraySearchPos : Nat

namespace BitArray

def getBit (b : BitArray) (index : Nat) : Bool :=
  (b.array (index / 8) >>> (index % 8)).getLsbD 0

/-- Flip one bit; when it became clear below the cached search position, the cache moves there. -/
def toggleBit (b : BitArray) (index : Nat) : BitArray :=
  let flipped : BitArray := { b with
    array := fun i => if i = index / 8 then b.array i ^^^ (1#8 <<< (index % 8)) else b.array i }
  if flipped.getBit index = false ∧ index < b.arraySearchPos then
    { flipped with arraySearchPos := index / 8 }
  else flipped

/-- The inner loop over the bits of byte `i`: the position `j` it stops at and the current run. -/
def searchByte (b : BitArray) (want i : Nat) : Nat → Nat → Nat → Nat × Nat
  | 0, j, seqLen => (j, seqLen)
  | n + 1, j, seqLen =>
      if seqLen < want then
        searchByte b want i n (j + 1) (if b.getBit (i * 8 + j) then 0 else seqLen + 1)
      else (j, seqLen)

/-- The outer loop from byte `i` on, with the byte and the index of the match. -/
def searchBytes (b : BitArray) (want : Nat) : Nat → Nat → Nat → Option (Nat × Nat)
  | 0, _, _ => none
  | n + 1, i, seqLen =>
      if b.array i ≠ 0xFF#8 then
        let r := searchByte b want i 8 0 seqLen
        if r.2 = want then some (i, i * 8 + (r.1 - 1) + 1 - want)
        else searchBytes b want n (i + 1) r.2
      else searchBytes b want n (i + 1) 0

/-- The start of the first run of clear bits, if there is one. A zero length fails the assertion
of the source. -/
def searchEmptybitSequenceBegin (b : BitArray) (lenOfSequence : Nat) :
    Option (Option Nat × BitArray) :=
  if lenOfSequence = 0 then none
  else match searchBytes b lenOfSequence b.arraySize 0 0 with
    | some (i, begin) => some (some begin, { b with arraySearchPos := i })
    | none => some (none, b)

theorem getBit_eq (b : BitArray) (index : Nat) :
    b.getBit index = (b.array (index / 8)).getLsbD (index % 8) := by
  simp [getBit]

theorem toggleBit_arraySize (b : BitArray) (index : Nat) :
    (b.toggleBit index).arraySize = b.arraySize := by
  simp only [toggleBit]
  split <;> rfl

theorem toggleBit_array (b : BitArray) (index i : Nat) :
    (b.toggleBit index).array i =
      if i = index / 8 then b.array i ^^^ (1#8 <<< (index % 8)) else b.array i := by
  simp only [toggleBit]
  split <;> rfl

theorem toggleBit_getBit (b : BitArray) (index k : Nat) :
    (b.toggleBit index).getBit k = if k = index then !b.getBit k else b.getBit k := by
  rw [getBit_eq, getBit_eq, toggleBit_array]
  have hk : k % 8 < 8 := Nat.mod_lt _ (by decide)
  have hi : index % 8 < 8 := Nat.mod_lt _ (by decide)
  by_cases hdiv : k / 8 = index / 8
  · rw [if_pos hdiv, BitVec.getLsbD_xor]
    by_cases hmod : k % 8 = index % 8
    · have hkey : k = index := by omega
      simp [hkey, hi]
    · have hne : k ≠ index := fun h => hmod (by rw [h])
      have hzero : (1#8 <<< (index % 8)).getLsbD (k % 8) = false := by
        simp only [BitVec.getLsbD_shiftLeft, BitVec.getLsbD_one, hk]
        by_cases hlt : k % 8 < index % 8
        · simp [hlt]
        · have : k % 8 - index % 8 ≠ 0 := by omega
          simp [this]
      simp [hne, hzero]
  · have hne : k ≠ index := fun h => hdiv (by rw [h])
    simp [hdiv, hne]

private theorem getBit_of_full (b : BitArray) (i j : Nat) (h : b.array i = 0xFF#8) (hj : j < 8) :
    b.getBit (i * 8 + j) = true := by
  have hdiv : (i * 8 + j) / 8 = i := by omega
  have hmod : (i * 8 + j) % 8 = j := by omega
  rw [getBit_eq, hdiv, hmod, h]
  interval_cases j <;> rfl

private theorem searchByte_spec (b : BitArray) (want i n j seqLen : Nat) (hn : n + j = 8)
    (h : ScanInv b.getBit want (i * 8 + j) seqLen) :
    let r := searchByte b want i n j seqLen
    (r.1 = 8 ∧ ScanInv b.getBit want (i * 8 + 8) r.2) ∨
      (r.2 = want ∧ 0 < r.1 ∧ r.1 ≤ 8 ∧ FreeRun b.getBit (i * 8 + r.1 - want) want ∧
        want ≤ i * 8 + r.1 ∧
        ∀ start, start < i * 8 + r.1 - want → ¬ FreeRun b.getBit start want) := by
  induction n generalizing j seqLen with
  | zero =>
      have hj : j = 8 := by omega
      subst j
      exact Or.inl ⟨rfl, h⟩
  | succ n ih =>
      simp only [searchByte, h.lt_want, if_true]
      cases hbit : b.getBit (i * 8 + j) with
      | true =>
          simp only [if_true]
          exact ih (j + 1) 0 (by omega) (h.of_used hbit)
      | false =>
          simp only [Bool.false_eq_true, if_false]
          rcases Nat.lt_or_eq_of_le (Nat.succ_le_of_lt h.lt_want) with hlt | heq
          · exact ih (j + 1) (seqLen + 1) (by omega) (h.of_free hbit hlt)
          · have hfound := h.found hbit heq
            have hstop : searchByte b want i n (j + 1) (seqLen + 1) = (j + 1, want) := by
              have hw : seqLen + 1 = want := heq
              cases n <;> simp [searchByte, hw]
            rw [hstop]
            exact Or.inr ⟨rfl, by omega, by omega, hfound⟩

private theorem scan_full_byte (b : BitArray) (want i seqLen n : Nat) (hfull : b.array i = 0xFF#8)
    (hn : n ≤ 8) (h : ScanInv b.getBit want (i * 8) seqLen) (hpos : 0 < n) :
    ScanInv b.getBit want (i * 8 + n) 0 := by
  induction n with
  | zero => omega
  | succ n ih =>
      cases n with
      | zero => exact h.of_used (by simpa using getBit_of_full b i 0 hfull (by omega))
      | succ n =>
          exact (ih (by omega) (by omega)).of_used (getBit_of_full b i (n + 1) hfull (by omega))

private theorem searchBytes_spec (b : BitArray) (want n i seqLen : Nat)
    (h : ScanInv b.getBit want (i * 8) seqLen) :
    match searchBytes b want n i seqLen with
    | some (_, start) => FreeRun b.getBit start want ∧ start + want ≤ (i + n) * 8 ∧
        ∀ s, s < start → ¬ FreeRun b.getBit s want
    | none => ∀ s, s + want ≤ (i + n) * 8 → ¬ FreeRun b.getBit s want := by
  induction n generalizing i seqLen with
  | zero => exact h.none_before
  | succ n ih =>
      have hnext : (i + 1) * 8 = i * 8 + 8 := by omega
      have hend : i + (n + 1) = i + 1 + n := by omega
      rw [hend]
      by_cases hfull : b.array i = 0xFF#8
      · have hscan := scan_full_byte b want i seqLen 8 hfull (by omega) h (by omega)
        simpa only [searchBytes, hfull, ne_eq, not_true_eq_false, if_false] using
          ih (i + 1) 0 (by rw [hnext]; exact hscan)
      · simp only [searchBytes, ne_eq, hfull, not_false_eq_true, if_true]
        rcases searchByte_spec b want i 8 0 seqLen rfl h with ⟨hj, hscan⟩ | hfound
        · have hne : (searchByte b want i 8 0 seqLen).2 ≠ want := Nat.ne_of_lt hscan.lt_want
          simpa only [hne, if_false] using ih (i + 1) _ (by rw [hnext]; exact hscan)
        · obtain ⟨hwant, hpos, hle, hrun, hbound, hleast⟩ := hfound
          have hbegin : i * 8 + ((searchByte b want i 8 0 seqLen).1 - 1) + 1 - want =
              i * 8 + (searchByte b want i 8 0 seqLen).1 - want := by omega
          simp only [hwant, if_true, hbegin]
          exact ⟨hrun, by omega, hleast⟩

/-- First fit: the search returns the least start of a run of clear bits inside the array. -/
theorem searchEmptybitSequenceBegin_spec (b b' : BitArray) (len : Nat) (found : Option Nat)
    (h : b.searchEmptybitSequenceBegin len = some (found, b')) :
    0 < len ∧ b'.array = b.array ∧ b'.arraySize = b.arraySize ∧
      match found with
      | some start => FreeRun b.getBit start len ∧ start + len ≤ b.arraySize * 8 ∧
          ∀ s, s < start → ¬ FreeRun b.getBit s len
      | none => ∀ s, s + len ≤ b.arraySize * 8 → ¬ FreeRun b.getBit s len := by
  by_cases hz : len = 0
  · simp [searchEmptybitSequenceBegin, hz] at h
  · have hpos : 0 < len := Nat.pos_of_ne_zero hz
    have hspec := searchBytes_spec b len b.arraySize 0 0 (by simpa using ScanInv.start hpos)
    simp only [searchEmptybitSequenceBegin, hz, if_false] at h
    cases hs : searchBytes b len b.arraySize 0 0 with
    | none =>
        simp only [hs, Option.some.injEq, Prod.mk.injEq] at h hspec
        obtain ⟨rfl, rfl⟩ := h
        exact ⟨hpos, rfl, rfl, by simpa using hspec⟩
    | some r =>
        obtain ⟨i, start⟩ := r
        simp only [hs, Option.some.injEq, Prod.mk.injEq] at h hspec
        obtain ⟨rfl, rfl⟩ := h
        exact ⟨hpos, rfl, rfl, by simpa using hspec⟩

theorem searchEmptybitSequenceBegin_isSome (b : BitArray) {n : Nat} (hn : 0 < n) :
    ∃ found b', b.searchEmptybitSequenceBegin n = some (found, b') := by
  rw [searchEmptybitSequenceBegin, if_neg (Nat.ne_of_gt hn)]
  split
  · exact ⟨_, _, rfl⟩
  · exact ⟨_, _, rfl⟩

/-! ## Calls in sequence -/

/-- A call of the public interface that changes the object. -/
inductive Call where
  | toggleBit (index : Nat)
  | searchEmptybitSequenceBegin (len : {n : Nat // 0 < n})

def call (b : BitArray) : Call → BitArray
  | .toggleBit index => b.toggleBit index
  | .searchEmptybitSequenceBegin len => (b.searchEmptybitSequenceBegin len).elim b Prod.snd

/-- The starts of the free runs inside the array. -/
def freeStarts (b : BitArray) (len : Nat) : Set Nat :=
  { start | FreeRun b.getBit start len ∧ start + len ≤ b.arraySize * 8 }

/-- The same bits, wherever the cached positions are. -/
structure SameBits (b c : BitArray) : Prop where
  array_eq : b.array = c.array
  arraySize_eq : b.arraySize = c.arraySize

private theorem SameBits.freeStarts_eq {b c : BitArray} (h : SameBits b c) (len : Nat) :
    b.freeStarts len = c.freeStarts len := by
  have hget : b.getBit = c.getBit := by
    funext index
    rw [getBit, getBit, h.array_eq]
  rw [freeStarts, freeStarts, hget, h.arraySize_eq]

private theorem call_search_sameBits (b : BitArray) (len : {n : Nat // 0 < n}) :
    SameBits (b.call (.searchEmptybitSequenceBegin len)) b := by
  obtain ⟨found, b', hsearch⟩ := b.searchEmptybitSequenceBegin_isSome len.2
  obtain ⟨-, harray, hsize, -⟩ := searchEmptybitSequenceBegin_spec _ _ _ _ hsearch
  rw [call, hsearch]
  exact ⟨harray, hsize⟩

private theorem SameBits.call {b c : BitArray} (h : SameBits b c) (x : Call) :
    SameBits (b.call x) (c.call x) := by
  cases x with
  | toggleBit index =>
      constructor
      · funext i
        exact (toggleBit_array b index i).trans (by rw [h.array_eq, ← toggleBit_array c index i]; rfl)
      · exact (toggleBit_arraySize b index).trans
          (h.arraySize_eq.trans (toggleBit_arraySize c index).symm)
  | searchEmptybitSequenceBegin len =>
      have hb := call_search_sameBits b len
      have hc := call_search_sameBits c len
      exact ⟨hb.array_eq.trans (h.array_eq.trans hc.array_eq.symm),
        hb.arraySize_eq.trans (h.arraySize_eq.trans hc.arraySize_eq.symm)⟩

private theorem SameBits.calls {b c : BitArray} (h : SameBits b c) (calls : List Call) :
    SameBits (calls.foldl BitArray.call b) (calls.foldl BitArray.call c) := by
  induction calls generalizing b c with
  | nil => exact h
  | cons x calls ih => exact ih (h.call x)

private theorem searchEmptybitSequenceBegin_answer (b : BitArray) {len : Nat} (hlen : 0 < len) :
    ∃ found, (b.searchEmptybitSequenceBegin len).map Prod.fst = some found ∧
      (∀ start, found = some start ↔ IsLeast (b.freeStarts len) start) ∧
      (found = none ↔ b.freeStarts len = ∅) := by
  obtain ⟨found, b', hsearch⟩ := b.searchEmptybitSequenceBegin_isSome hlen
  obtain ⟨-, -, -, hfound⟩ := searchEmptybitSequenceBegin_spec _ _ _ _ hsearch
  refine ⟨found, by rw [hsearch]; rfl, ?_⟩
  cases found with
  | none =>
      have hempty : b.freeStarts len = ∅ :=
        Set.eq_empty_of_forall_notMem fun s hs => hfound s hs.2 hs.1
      constructor
      · intro start
        simp [hempty, IsLeast]
      · simp [hempty]
  | some first =>
      obtain ⟨hrun, hinside, hbefore⟩ := hfound
      have hmem : first ∈ b.freeStarts len := ⟨hrun, hinside⟩
      have hleast : IsLeast (b.freeStarts len) first :=
        ⟨hmem, fun s hs => Nat.le_of_not_lt fun hlt => hbefore s hlt hs.1⟩
      constructor
      · intro start
        constructor
        · intro h
          rwa [Option.some.inj h] at hleast
        · intro h
          exact congrArg some (hleast.unique h)
      · have hne : b.freeStarts len ≠ ∅ := Set.nonempty_iff_ne_empty.mp ⟨first, hmem⟩
        simp [hne]

/-- First fit after any calls, and from any cached position. -/
theorem searchEmptybitSequenceBegin_firstFit (b : BitArray) (calls : List Call)
    (pos len : Nat) (hlen : 0 < len) :
    ∃ found, ((calls.foldl call b).searchEmptybitSequenceBegin len).map Prod.fst = some found ∧
      (∀ start, found = some start ↔ IsLeast ((calls.foldl call b).freeStarts len) start) ∧
      (found = none ↔ (calls.foldl call b).freeStarts len = ∅) ∧
      ((calls.foldl call { b with arraySearchPos := pos }).searchEmptybitSequenceBegin len).map
        Prod.fst = some found := by
  have hstart : SameBits { b with arraySearchPos := pos } b := ⟨rfl, rfl⟩
  have hsame := hstart.calls calls
  obtain ⟨found, hanswer, hsome, hnone⟩ :=
    (calls.foldl call b).searchEmptybitSequenceBegin_answer hlen
  obtain ⟨found', hanswer', hsome', hnone'⟩ :=
    (calls.foldl call { b with arraySearchPos := pos }).searchEmptybitSequenceBegin_answer hlen
  rw [hsame.freeStarts_eq] at hsome' hnone'
  refine ⟨found, hanswer, hsome, hnone, hanswer'.trans (congrArg some ?_)⟩
  cases found with
  | none => exact hnone'.mpr (hnone.mp rfl)
  | some start => exact (hsome' start).mpr ((hsome start).mp rfl)

/-- Two bytes whose longest clear run crosses the byte boundary. -/
def crossingBits : BitArray where
  array i := if i = 0 then 0x1F#8 else 0xF8#8
  arraySize := 2
  arraySearchPos := 0

theorem crossingBits_firstFit :
    (([.toggleBit 5, .searchEmptybitSequenceBegin ⟨1, Nat.one_pos⟩, .toggleBit 5].foldl call
        crossingBits).searchEmptybitSequenceBegin 6).map Prod.fst = some (some 5) ∧
      IsLeast (([.toggleBit 5, .searchEmptybitSequenceBegin ⟨1, Nat.one_pos⟩,
        .toggleBit 5].foldl call crossingBits).freeStarts 6) 5 := by
  obtain ⟨found, hanswer, hsome, -⟩ := searchEmptybitSequenceBegin_firstFit crossingBits
    [.toggleBit 5, .searchEmptybitSequenceBegin ⟨1, Nat.one_pos⟩, .toggleBit 5] 1 6 (by decide)
  have hfive : (([.toggleBit 5, .searchEmptybitSequenceBegin ⟨1, Nat.one_pos⟩,
      .toggleBit 5].foldl call crossingBits).searchEmptybitSequenceBegin 6).map Prod.fst =
        some (some 5) := by decide
  rw [hfive] at hanswer
  exact ⟨hfive, (hsome 5).mp (Option.some.inj hanswer).symm⟩

end BitArray

end Zrt.Memory
