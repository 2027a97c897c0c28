import Zrt.Fs.MemDescriptors

/-!
# The lowest free handle

Calls of the handle allocator with any number for a handle. The search for a free slot starts at a
cursor, which allocation moves up, freeing moves down and a full table loses; taking a given slot
passes it by. No free slot ever stands below the cursor.
-/

namespace Zrt.Fs

open Zrt.Framework

/-- The calls of the allocator; a handle is a C `int`. -/
inductive HandleCall where
  | allocateHandle (item : HandleItem)
  | allocateHandle2 (item : HandleItem) (handle : Int)
  | freeHandle (handle : Int)

namespace HandleAllocator

/-- `VERIFY_HANDLE` without the test of the state. -/
def inRange (handle : Int) : Bool := decide (0 ≤ handle) && decide (handle < maxHandlesCount)

def call (h : HandleAllocator) : HandleCall → Int × HandleAllocator
  | .allocateHandle item =>
      match h.allocateHandle item with
      | (some fd, h') => (fd, h')
      | (none, h') => (-1, h')
  | .allocateHandle2 item handle =>
      if inRange handle then
        match h.allocateHandle2 item handle.toNat with
        | some h' => (handle, h')
        | none => (-1, h)
      else (-1, h)
  | .freeHandle handle =>
      if inRange handle then
        match h.freeHandle handle.toNat with
        | some h' => (0, h')
        | none => (-1, h)
      else (-1, h)

def step (h : HandleAllocator) (c : HandleCall) : Option HandleAllocator := some (h.call c).2

/-- The entry after a handle has been given a new one. -/
def Rebinds (h h' : HandleAllocator) (fd : Nat) (item : Option HandleItem) : Prop :=
  ∀ k, h'.entry k = if k = fd then item else h.entry k

def Unchanged (h h' : HandleAllocator) : Prop := ∀ k, h'.entry k = h.entry k

/-- The handle names a slot of the table that is not in use. -/
def Available (h : HandleAllocator) (handle : Int) : Prop :=
  0 ≤ handle ∧ handle < maxHandlesCount ∧ h.entry handle.toNat = none

/-- What a caller may expect of a call: the answer and the table it leaves. -/
def Expected (h : HandleAllocator) (c : HandleCall) (answer : Int) (h' : HandleAllocator) : Prop :=
  match c with
  | .allocateHandle item =>
      (∃ fd : Nat, answer = fd ∧ fd < maxHandlesCount ∧ h.entry fd = none ∧
        (∀ k < fd, h.entry k ≠ none) ∧ h.Rebinds h' fd (some item)) ∨
      (answer = -1 ∧ (∀ k < maxHandlesCount, h.entry k ≠ none) ∧ h.Unchanged h')
  | .allocateHandle2 item handle =>
      (h.Available handle ∧ answer = handle ∧ h.Rebinds h' handle.toNat (some item)) ∨
      (¬ h.Available handle ∧ answer = -1 ∧ h.Unchanged h')
  | .freeHandle handle =>
      (answer = 0 ∧ 0 ≤ handle ∧ h.entry handle.toNat ≠ none ∧
        h.Rebinds h' handle.toNat none) ∨
      (answer = -1 ∧ (0 ≤ handle → h.entry handle.toNat = none) ∧ h.Unchanged h')

/-- The table has its size, and no free slot is below the cursor. -/
structure Cursored (h : HandleAllocator) : Prop where
  length_eq : h.slots.length = maxHandlesCount
  low : CursorLow Option.isNone h.slots h.firstUnusedSlot

variable {h h' : HandleAllocator} {item : HandleItem} {fd : Nat} {handle : Int}

private theorem cursored_start : Cursored start where
  length_eq := List.length_replicate
  low := fun i hi => absurd hi (Nat.not_lt_zero i)

theorem inRange_iff : inRange handle = true ↔ 0 ≤ handle ∧ handle < maxHandlesCount := by
  simp [inRange]

theorem Cursored.slot_of_entry (hc : Cursored h) (hfd : fd < maxHandlesCount) :
    h.slots[fd]? = some (h.entry fd) := by
  rw [← hc.length_eq] at hfd
  rw [entry, List.getD_eq_getElem?_getD, List.getElem?_eq_getElem hfd, Option.getD_some]

private theorem Cursored.entry_eq_none (hc : Cursored h) (hfd : maxHandlesCount ≤ fd) :
    h.entry fd = none := by
  rw [entry, List.getD_eq_getElem?_getD,
    List.getElem?_eq_none (by rw [hc.length_eq]; exact hfd), Option.getD_none]

private theorem Cursored.seek_eq_some (hc : Cursored h)
    (hseek : seekUnusedSlot Option.isNone h.slots h.firstUnusedSlot = some fd) :
    fd < maxHandlesCount ∧ h.slots[fd]? = some none ∧ ∀ k < fd, h.entry k ≠ none := by
  obtain ⟨a, ha, hfree⟩ := seekUnusedSlot_eq_some hseek
  rw [Option.isNone_iff_eq_none.mp hfree] at ha
  have hlt : fd < maxHandlesCount := hc.length_eq ▸ (List.getElem?_eq_some_iff.mp ha).1
  refine ⟨hlt, ha, ?_⟩
  intro k hk hnone
  have hbelow := seekUnusedSlot_cursorLow hc.low hseek k hk (h.entry k)
    (hc.slot_of_entry (by omega))
  rw [hnone] at hbelow
  cases hbelow

private theorem Cursored.seek_eq_none (hc : Cursored h)
    (hseek : seekUnusedSlot Option.isNone h.slots h.firstUnusedSlot = none) :
    ∀ k < maxHandlesCount, h.entry k ≠ none := by
  intro k hk hnone
  have hused := seekUnusedSlot_eq_none hc.low hseek (h.entry k)
    (List.mem_of_getElem? (hc.slot_of_entry hk))
  rw [hnone] at hused
  cases hused

private theorem call_allocateHandle (hc : Cursored h) (item : HandleItem) :
    h.Expected (.allocateHandle item) (h.call (.allocateHandle item)).1
        (h.call (.allocateHandle item)).2 ∧
      Cursored (h.call (.allocateHandle item)).2 := by
  unfold call HandleAllocator.allocateHandle
  cases hseek : seekUnusedSlot Option.isNone h.slots h.firstUnusedSlot with
  | none =>
      constructor
      · exact Or.inr ⟨rfl, hc.seek_eq_none hseek, fun k => rfl⟩
      · exact ⟨hc.length_eq, fun i hi => absurd hi (Nat.not_lt_zero i)⟩
  | some fd =>
      obtain ⟨hlt, hslot, hleast⟩ := hc.seek_eq_some hseek
      have hentry : h.entry fd = none := Option.some.inj ((hc.slot_of_entry hlt).symm.trans hslot)
      constructor
      · exact Or.inl ⟨fd, rfl, hlt, hentry, hleast, fun k => OpenFiles.entry_set hslot⟩
      · exact ⟨by rw [List.length_set, hc.length_eq],
          (seekUnusedSlot_cursorLow hc.low hseek).set_used rfl fd⟩

private theorem call_allocateHandle2 (hc : Cursored h) (item : HandleItem) (handle : Int) :
    h.Expected (.allocateHandle2 item handle) (h.call (.allocateHandle2 item handle)).1
        (h.call (.allocateHandle2 item handle)).2 ∧
      Cursored (h.call (.allocateHandle2 item handle)).2 := by
  by_cases hrange : inRange handle = true
  · obtain ⟨hlow, hhigh⟩ := inRange_iff.mp hrange
    have hslot : h.slots[handle.toNat]? = some (h.entry handle.toNat) :=
      hc.slot_of_entry (by omega)
    by_cases hfree : h.slots[handle.toNat]? = some none
    · have hentry : h.entry handle.toNat = none := Option.some.inj (hslot.symm.trans hfree)
      simp only [call, HandleAllocator.allocateHandle2, hrange, hfree, if_true]
      constructor
      · exact Or.inl ⟨⟨hlow, hhigh, hentry⟩, rfl, fun k => OpenFiles.entry_set hfree⟩
      · exact ⟨by rw [List.length_set, hc.length_eq], hc.low.set_used rfl handle.toNat⟩
    · simp only [call, HandleAllocator.allocateHandle2, hrange, hfree, if_true, if_false]
      refine ⟨Or.inr ⟨?_, rfl, fun k => rfl⟩, hc⟩
      intro havailable
      rw [havailable.2.2] at hslot
      exact hfree hslot
  · simp only [call, hrange, Bool.false_eq_true, if_false]
    refine ⟨Or.inr ⟨?_, rfl, fun k => rfl⟩, hc⟩
    intro havailable
    exact hrange (inRange_iff.mpr ⟨havailable.1, havailable.2.1⟩)

private theorem call_freeHandle (hc : Cursored h) (handle : Int) :
    h.Expected (.freeHandle handle) (h.call (.freeHandle handle)).1
        (h.call (.freeHandle handle)).2 ∧
      Cursored (h.call (.freeHandle handle)).2 := by
  by_cases hrange : inRange handle = true
  · obtain ⟨hlow, hhigh⟩ := inRange_iff.mp hrange
    have hslot : h.slots[handle.toNat]? = some (h.entry handle.toNat) :=
      hc.slot_of_entry (by omega)
    cases hentry : h.entry handle.toNat with
    | none =>
        simp only [call, HandleAllocator.freeHandle, hrange, hentry, Option.map_none, if_true]
        exact ⟨Or.inr ⟨rfl, fun _ => hentry, fun k => rfl⟩, hc⟩
    | some item =>
        simp only [call, HandleAllocator.freeHandle, hrange, hentry, Option.map_some, if_true]
        constructor
        · refine Or.inl ⟨rfl, hlow, ?_, fun k => OpenFiles.entry_set hslot⟩
          rw [hentry]
          exact Option.some_ne_none item
        · exact ⟨by rw [List.length_set, hc.length_eq], hc.low.set_lowered handle.toNat none⟩
  · simp only [call, hrange, Bool.false_eq_true, if_false]
    refine ⟨Or.inr ⟨rfl, fun hlow => ?_, fun k => rfl⟩, hc⟩
    apply hc.entry_eq_none
    by_contra hlt
    exact hrange (inRange_iff.mpr ⟨hlow, by omega⟩)

private theorem call_expected (hc : Cursored h) (c : HandleCall) :
    h.Expected c (h.call c).1 (h.call c).2 ∧ Cursored (h.call c).2 := by
  cases c with
  | allocateHandle item => exact call_allocateHandle hc item
  | allocateHandle2 item handle => exact call_allocateHandle2 hc item handle
  | freeHandle handle => exact call_freeHandle hc handle

/-- Every call of a run does what is expected of it. -/
def Lowest (h : HandleAllocator) (calls : List HandleCall) : Prop :=
  Guarded step (fun h c => h.Expected c (h.call c).1 (h.call c).2) h calls

private theorem Cursored.lowest (hc : Cursored h) (calls : List HandleCall) : Lowest h calls := by
  induction calls generalizing h with
  | nil => trivial
  | cons c calls ih =>
      refine ⟨(call_expected hc c).1, fun t ht => ?_⟩
      rw [← Option.some.inj ht]
      exact ih (call_expected hc c).2

end HandleAllocator

namespace FileSystem

/-- Only the target has another entry after a `dup2`: the one of the duplicated descriptor, when it
succeeds. -/
private theorem dup2_rebinds {ch : Channels} {fs fs' : FileSystem} {r : Except Errno Nat}
    {oldfd newfd : Nat} (hcall : dup2 ch fs oldfd newfd = some (r, fs')) :
    (r = .ok newfd ∧ fs.files.handles.Rebinds fs'.files.handles newfd
      (fs.files.handles.entry oldfd)) ∨
    (∃ e, r = .error e ∧ fs.files.handles.Unchanged fs'.files.handles) := by
  rcases dup2_cases hcall with ⟨e, rfl, -, hsame⟩ | ⟨rfl, rfl, rfl⟩ | ⟨item, rfl, -, hitem, hentry⟩
  · exact Or.inr ⟨e, rfl, hsame⟩
  · refine Or.inl ⟨rfl, fun k => ?_⟩
    split
    · rename_i hk
      rw [hk]
    · rfl
  · exact Or.inl ⟨rfl, hitem ▸ hentry⟩

end FileSystem

/-- From the empty table every sequence of allocator calls takes the lowest free handle, takes a given
handle exactly when it is available, and touches no other entry; and `dup2` rebinds its target only. -/
theorem run_lowest (calls : List HandleCall) :
    HandleAllocator.Lowest .start calls ∧
      ∀ (ch : Channels) (fs fs' : FileSystem) (r : Except Errno Nat) (oldfd newfd : Nat),
        FileSystem.dup2 ch fs oldfd newfd = some (r, fs') →
        (r = .ok newfd ∧ fs.files.handles.Rebinds fs'.files.handles newfd
          (fs.files.handles.entry oldfd)) ∨
        (∃ e, r = .error e ∧ fs.files.handles.Unchanged fs'.files.handles) :=
  ⟨HandleAllocator.cursored_start.lowest calls, fun _ _ _ _ _ _ hcall => FileSystem.dup2_rebinds hcall⟩

/-- Two handles, one given back and taken again; then standard input and a file, where the file's
descriptor replaces a duplicate of standard input. -/
theorem run_lowest_redirect :
    HandleAllocator.Lowest .start
        [.allocateHandle ⟨.memory, 2, 1, some 0⟩, .allocateHandle ⟨.memory, 3, 1, some 1⟩,
          .freeHandle 0, .allocateHandle2 ⟨.memory, 3, 1, some 1⟩ 1000,
          .allocateHandle ⟨.memory, 3, 1, some 1⟩] ∧
      ∃ fs fs', runFrom (FileSystem.step FileSystem.standardInput) .start
          (FileSystem.redirectCalls.take 3) = some fs ∧
        FileSystem.dup2 FileSystem.standardInput fs 2 1 = some (.ok 1, fs') ∧
        fs.files.handles.Rebinds fs'.files.handles 1 (fs.files.handles.entry 2) := by
  refine ⟨(run_lowest _).1, ?_⟩
  have hsome : ((runFrom (FileSystem.step FileSystem.standardInput) .start
      (FileSystem.redirectCalls.take 3)).bind fun fs =>
        (FileSystem.dup2 FileSystem.standardInput fs 2 1).filter fun r =>
          r.1.toOption == some 1).isSome := by decide
  obtain ⟨⟨r, fs'⟩, hboth⟩ := Option.isSome_iff_exists.mp hsome
  obtain ⟨fs, hrun, hdup⟩ := Option.bind_eq_some_iff.mp hboth
  obtain ⟨hdup, hok⟩ := Option.filter_eq_some_iff.mp hdup
  rcases (run_lowest []).2 _ fs fs' r 2 1 hdup with ⟨rfl, hentries⟩ | ⟨e, rfl, -⟩
  · exact ⟨fs, fs', hrun, hdup, hentries⟩
  · cases hok

end Zrt.Fs
