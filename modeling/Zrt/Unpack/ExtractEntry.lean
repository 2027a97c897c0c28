import Zrt.Unpack.ParsePath

/-!
# Extracting an entry of an archive

A directory entry is made, a file entry is opened and filled block by block from the reader. What a
write answers is compared with what it was given: as an unsigned number for a full block, where a
negative answer is a large one, and as a signed number for the last block.
-/

namespace Zrt.Unpack

open Zrt.Framework Zrt.Fs

universe u

variable {σ : Type u}

inductive TypeFlag where
  | file | dir
deriving DecidableEq

/-- The size of a block of the archive. -/
def blockSize : Nat := 512

/-- What the unpacker calls: the reader of the archive, for one block, and the mounts. A character
stands for a byte. -/
structure Mounts (σ : Type u) where
  read : σ → Except Errno (List Char) × σ
  openFile : σ → Text → Int × σ
  write : σ → Int → List Char → Int × σ
  close : σ → Int → σ

/-- What the unpacker does, with what it was answered. -/
inductive Event where
  | extract (type : TypeFlag) (name : Text) (entrySize : Int)
  | read (got : Except Errno (List Char))
  | opened (name : Text) (fd : Int)
  | wrote (fd : Int) (data : List Char) (answer : Int)
  | closed (fd : Int)

/-- The state of the unpacker with a record of its calls. -/
structure Extraction (σ : Type u) where
  dirs : DirCache σ
  log : List Event

namespace Extraction

/-- A call has left this world. -/
def note (s : Extraction σ) (w : σ) (e : Event) : Extraction σ :=
  ⟨{ s.dirs with world := w }, s.log ++ [e]⟩

@[simp] theorem note_world (s : Extraction σ) (w : σ) (e : Event) :
    (s.note w e).dirs.world = w := rfl

@[simp] theorem note_log (s : Extraction σ) (w : σ) (e : Event) :
    (s.note w e).log = s.log ++ [e] := rfl

end Extraction

variable (D : Directories σ) (M : Mounts σ)

def readBlock (s : Extraction σ) : Except Errno (List Char) × Extraction σ :=
  ((M.read s.dirs.world).1, s.note (M.read s.dirs.world).2 (.read (M.read s.dirs.world).1))

def writeData (s : Extraction σ) (outFd : Int) (data : List Char) : Int × Extraction σ :=
  ((M.write s.dirs.world outFd data).1,
    s.note (M.write s.dirs.world outFd data).2 (.wrote outFd data (M.write s.dirs.world outFd data).1))

/-- The test of `WRITE_DATA_INTO_FS_IN_MEMORY`: the size of a full block is unsigned. -/
def writeError (entrySize : Int) (wrote : Int) : Bool :=
  if blockSize < entrySize then decide (0 ≤ wrote ∧ wrote < blockSize)
  else decide (wrote < entrySize)

/-- How much of a block belongs to the entry. -/
def chunkSize (entrySize : Int) : Nat := min blockSize entrySize.toNat

/-- The loop over the blocks; the returns in its middle leave the descriptor open. -/
def copyBlocks (outFd : Int) (entrySize : Int) (s : Extraction σ) : Int × Extraction σ :=
  if _h : 0 < entrySize then
    match readBlock M s with
    | (.ok block, s) =>
        if block.length = blockSize then
          let written := writeData M s outFd (block.take (chunkSize entrySize))
          if writeError entrySize written.1 then (-1, written.2)
          else copyBlocks outFd (entrySize - blockSize) written.2
        else (-1, s)
    | (.error _, s) => (-1, s)
  else
    (0, s.note (M.close s.dirs.world outFd) (.closed outFd))
termination_by entrySize.toNat
decreasing_by
  rw [blockSize]
  omega

def extractEntry (s : Extraction σ) (type : TypeFlag) (name : Text) (entrySize : Int) :
    Option (Int × Extraction σ) :=
  (parsePath D s.dirs name).bind fun parsed =>
    let s : Extraction σ := ⟨parsed.2, s.log ++ [.extract type name entrySize]⟩
    match type with
    | .dir => (createDirAndCacheName D s.dirs name name.length).map fun r => (0, { s with dirs := r.2 })
    | .file =>
        let opened := M.openFile s.dirs.world name
        let s := s.note opened.2 (.opened name opened.1)
        if opened.1 < 0 then some (-1, s) else some (copyBlocks M opened.1 entrySize s)

/-! ## Errors while a file is extracted -/

def readBytes (log : List Event) : List Char :=
  log.flatMap fun e =>
    match e with
    | .read (.ok block) => block
    | _ => []

/-- What the writes have taken. -/
def writtenBytes (log : List Event) : List Char :=
  log.flatMap fun e =>
    match e with
    | .wrote _ data answer => data.take answer.toNat
    | _ => []

/-- Zero is returned only for a complete file, and what has been opened is closed. -/
structure ErrorsHandled (entrySize : Int) (result : Int) (log : List Event) : Prop where
  complete : result = 0 → entrySize.toNat ≤ (readBytes log).length ∧
    writtenBytes log = (readBytes log).take entrySize.toNat
  released : ∀ name fd, Event.opened name fd ∈ log → 0 ≤ fd → Event.closed fd ∈ log

/-- What the reader and the mounts answer, call by call. -/
structure Script where
  fd : Int
  reads : Nat → Except Errno (List Char)
  writes : Nat → Int

/-- Mounts that follow the script from the moment the file is opened. -/
def Script.mounts (S : Script) : Mounts (σ × Nat × Nat) where
  read w := (S.reads w.2.1, (w.1, w.2.1 + 1, w.2.2))
  openFile w _ := (S.fd, (w.1, 0, 0))
  write w _ _ := (S.writes w.2.2, (w.1, w.2.1, w.2.2 + 1))
  close w _ := w

/-- The number of blocks of an entry. -/
def blocks (entrySize : Int) : Nat := (entrySize.toNat + (blockSize - 1)) / blockSize

/-- From the given block on every read is full and every write takes all it is given. -/
def Script.TransfersFrom (S : Script) (i : Nat) (entrySize : Int) : Prop :=
  ∀ k < blocks entrySize, (∃ block, S.reads (i + k) = .ok block ∧ block.length = blockSize) ∧
    (chunkSize (entrySize - k * blockSize) : Int) ≤ S.writes (i + k)

section Lemmas

variable {M}

theorem chunkSize_le (entrySize : Int) : chunkSize entrySize ≤ blockSize := Nat.min_le_left _ _

private theorem chunkSize_pos {entrySize : Int} (h : 0 < entrySize) : 0 < chunkSize entrySize := by
  rw [chunkSize, blockSize]
  omega

theorem chunkSize_add {entrySize : Int} (h : 0 < entrySize) :
    chunkSize entrySize + (entrySize - blockSize).toNat = entrySize.toNat := by
  rw [chunkSize, blockSize]
  omega

theorem blocks_of_nonpos {entrySize : Int} (h : ¬ 0 < entrySize) : blocks entrySize = 0 := by
  rw [blocks, blockSize]
  omega

theorem blocks_of_pos {entrySize : Int} (h : 0 < entrySize) :
    blocks entrySize = blocks (entrySize - blockSize) + 1 := by
  rw [blocks, blocks, blockSize]
  omega

private theorem writeError_eq_true {entrySize wrote : Int} (h : writeError entrySize wrote = true) :
    wrote < chunkSize entrySize := by
  unfold writeError at h
  unfold chunkSize
  split at h
  · have hshort := of_decide_eq_true h
    omega
  · have hshort := of_decide_eq_true h
    omega

theorem Script.transfersFrom_iff (S : Script) (i : Nat) {entrySize : Int} (h : 0 < entrySize) :
    S.TransfersFrom i entrySize ↔
      (∃ block, S.reads i = .ok block ∧ block.length = blockSize) ∧
        (chunkSize entrySize : Int) ≤ S.writes i ∧ S.TransfersFrom (i + 1) (entrySize - blockSize) := by
  unfold Script.TransfersFrom
  rw [blocks_of_pos h]
  constructor
  · intro hall
    obtain ⟨hread, hwrite⟩ := hall 0 (Nat.succ_pos _)
    refine ⟨hread, by simpa using hwrite, ?_⟩
    intro k hk
    have hnext := hall (k + 1) (Nat.succ_lt_succ hk)
    have hsize : entrySize - blockSize - k * blockSize = entrySize - ((k + 1 : Nat) : Int) * blockSize := by
      rw [blockSize]
      omega
    rw [hsize, Nat.add_assoc, Nat.add_comm 1 k]
    exact hnext
  · intro hall k hk
    obtain ⟨hread, hwrite, hrest⟩ := hall
    cases k with
    | zero => exact ⟨hread, by simpa using hwrite⟩
    | succ k =>
        have hnext := hrest k (Nat.lt_of_succ_lt_succ hk)
        have hsize : entrySize - blockSize - k * blockSize =
            entrySize - ((k + 1 : Nat) : Int) * blockSize := by
          rw [blockSize]
          omega
        rw [hsize, Nat.add_assoc, Nat.add_comm 1 k] at hnext
        exact hnext

/-- The loop has come to its end. -/
structure Copied (S : Script) (i : Nat) (outFd entrySize : Int) (log : List Event) : Prop where
  closed : Event.closed outFd ∈ log
  unopened : ∀ name fd, Event.opened name fd ∉ log
  enough : entrySize.toNat ≤ (readBytes log).length
  atMost : (writtenBytes log).length ≤ entrySize.toNat
  all : S.TransfersFrom i entrySize → writtenBytes log = (readBytes log).take entrySize.toNat
  only : (writtenBytes log).length = entrySize.toNat → S.TransfersFrom i entrySize

/-- The loop has been left in its middle. -/
structure Stopped (S : Script) (i : Nat) (entrySize : Int) (log : List Event) : Prop where
  unclosed : ∀ fd, Event.closed fd ∉ log
  unopened : ∀ name fd, Event.opened name fd ∉ log
  failed : ¬ S.TransfersFrom i entrySize

variable {S : Script} {i : Nat} {outFd entrySize : Int}

private theorem copied_nil (h : ¬ 0 < entrySize) : Copied S i outFd entrySize [.closed outFd] where
  closed := List.mem_singleton_self _
  unopened := by
    intro name fd hmem
    cases List.mem_singleton.mp hmem
  enough := by
    rw [Int.toNat_of_nonpos (by omega)]
    exact Nat.zero_le _
  atMost := Nat.zero_le _
  all := by
    intro _
    rw [Int.toNat_of_nonpos (by omega), List.take_zero]
    rfl
  only := by
    intro _ k hk
    rw [blocks_of_nonpos h] at hk
    exact absurd hk (Nat.not_lt_zero k)

private theorem Copied.cons {log : List Event} {block : List Char} (hpos : 0 < entrySize)
    (h : Copied S (i + 1) outFd (entrySize - blockSize) log) (hread : S.reads i = .ok block)
    (hfull : block.length = blockSize) :
    Copied S i outFd entrySize
      (.read (.ok block) :: .wrote outFd (block.take (chunkSize entrySize)) (S.writes i) :: log) := by
  have hchunk := chunkSize_add hpos
  have hone := chunkSize_pos hpos
  have hle := chunkSize_le entrySize
  have hreads : readBytes (.read (.ok block) ::
      .wrote outFd (block.take (chunkSize entrySize)) (S.writes i) :: log) = block ++ readBytes log := by
    simp only [readBytes, List.flatMap_cons, List.nil_append]
  have hwrites : writtenBytes (.read (.ok block) ::
      .wrote outFd (block.take (chunkSize entrySize)) (S.writes i) :: log) =
        (block.take (chunkSize entrySize)).take (S.writes i).toNat ++ writtenBytes log := by
    simp only [writtenBytes, List.flatMap_cons, List.nil_append]
  have htaken : ((block.take (chunkSize entrySize)).take (S.writes i).toNat).length =
      min (S.writes i).toNat (chunkSize entrySize) := by
    rw [List.length_take, List.length_take, hfull, Nat.min_eq_left hle]
  have henough := h.enough
  have hmost := h.atMost
  constructor
  · exact List.mem_cons_of_mem _ (List.mem_cons_of_mem _ h.closed)
  · intro name fd hmem
    rcases List.mem_cons.mp hmem with he | hmem
    · cases he
    · rcases List.mem_cons.mp hmem with he | hmem
      · cases he
      · exact h.unopened name fd hmem
  · rw [hreads, List.length_append, hfull]
    omega
  · rw [hwrites, List.length_append, htaken]
    omega
  · intro htransfers
    obtain ⟨-, hwrite, hrest⟩ := (S.transfersFrom_iff i hpos).mp htransfers
    have hall : (block.take (chunkSize entrySize)).take (S.writes i).toNat =
        block.take (chunkSize entrySize) := by
      apply List.take_of_length_le
      rw [List.length_take, hfull]
      omega
    rw [hreads, hwrites, hall, h.all hrest, ← hchunk]
    by_cases hlast : entrySize ≤ blockSize
    · -- the last block: nothing is taken of what was read behind it
      have hzero : (entrySize - blockSize).toNat = 0 := Int.toNat_of_nonpos (by omega)
      rw [hzero, List.take_zero, List.append_nil, Nat.add_zero,
        List.take_append_of_le_length (by omega)]
    · have hwhole : chunkSize entrySize = block.length := by
        rw [hfull, chunkSize]
        omega
      rw [hwhole, List.take_length, List.take_length_add_append]
  · intro hlength
    rw [hwrites, List.length_append, htaken] at hlength
    apply (S.transfersFrom_iff i hpos).mpr
    refine ⟨⟨block, hread, hfull⟩, by omega, h.only (by omega)⟩

private theorem Stopped.cons {log : List Event} {block : List Char} (hpos : 0 < entrySize)
    (h : Stopped S (i + 1) (entrySize - blockSize) log) :
    Stopped S i entrySize
      (.read (.ok block) :: .wrote outFd (block.take (chunkSize entrySize)) (S.writes i) :: log) where
  unclosed := by
    intro fd hmem
    simp only [List.mem_cons, reduceCtorEq, false_or] at hmem
    exact h.unclosed fd hmem
  unopened := by
    intro name fd hmem
    simp only [List.mem_cons, reduceCtorEq, false_or] at hmem
    exact h.unopened name fd hmem
  failed := by
    intro htransfers
    exact h.failed ((S.transfersFrom_iff i hpos).mp htransfers).2.2

private theorem stopped_read {got : Except Errno (List Char)} (h : ¬ S.TransfersFrom i entrySize) :
    Stopped S i entrySize [.read got] where
  unclosed := by
    intro fd hmem
    cases List.mem_singleton.mp hmem
  unopened := by
    intro name fd hmem
    cases List.mem_singleton.mp hmem
  failed := h

private theorem stopped_write {block : List Char} (hpos : 0 < entrySize)
    (h : writeError entrySize (S.writes i) = true) :
    Stopped S i entrySize
      [.read (.ok block), .wrote outFd (block.take (chunkSize entrySize)) (S.writes i)] where
  unclosed := by
    intro fd hmem
    simp only [List.mem_cons, reduceCtorEq, List.not_mem_nil, or_self] at hmem
  unopened := by
    intro name fd hmem
    simp only [List.mem_cons, reduceCtorEq, List.not_mem_nil, or_self] at hmem
  failed := by
    intro htransfers
    have hwrite := ((S.transfersFrom_iff i hpos).mp htransfers).2.1
    have hshort := writeError_eq_true h
    omega

private theorem copyBlocks_spec (S : Script) (outFd entrySize : Int) (s : Extraction (σ × Nat × Nat)) (w : σ)
    (i : Nat) (hw : s.dirs.world = (w, i, i)) :
    ∃ log, (copyBlocks S.mounts outFd entrySize s).2.log = s.log ++ log ∧
      (((copyBlocks S.mounts outFd entrySize s).1 = 0 ∧ Copied S i outFd entrySize log) ∨
        ((copyBlocks S.mounts outFd entrySize s).1 = -1 ∧ Stopped S i entrySize log)) := by
  induction hn : entrySize.toNat using Nat.strongRecOn generalizing entrySize s i with
  | ind n ih =>
      rw [copyBlocks]
      by_cases hpos : 0 < entrySize
      · rw [dif_pos hpos]
        have hread : readBlock S.mounts s = (S.reads i, s.note (w, i + 1, i) (.read (S.reads i))) := by
          simp only [readBlock, hw, Script.mounts]
        rw [hread]
        cases hgot : S.reads i with
        | error e =>
            refine ⟨[.read (.error e)], rfl, Or.inr ⟨rfl, stopped_read ?_⟩⟩
            intro htransfers
            obtain ⟨⟨block, hblock, -⟩, -⟩ := (S.transfersFrom_iff i hpos).mp htransfers
            rw [hgot] at hblock
            cases hblock
        | ok block =>
            simp only
            by_cases hfull : block.length = blockSize
            · rw [if_pos hfull]
              have hwritten : writeData S.mounts (s.note (w, i + 1, i) (.read (.ok block))) outFd
                  (block.take (chunkSize entrySize)) = (S.writes i,
                    (s.note (w, i + 1, i) (.read (.ok block))).note (w, i + 1, i + 1)
                      (.wrote outFd (block.take (chunkSize entrySize)) (S.writes i))) := by
                simp only [writeData, Extraction.note_world, Script.mounts]
              rw [hwritten]
              by_cases herr : writeError entrySize (S.writes i) = true
              · rw [if_pos herr]
                refine ⟨[.read (.ok block),
                  .wrote outFd (block.take (chunkSize entrySize)) (S.writes i)], ?_,
                  Or.inr ⟨rfl, stopped_write hpos herr⟩⟩
                simp only [Extraction.note_log, List.append_assoc, List.singleton_append]
              · rw [if_neg herr]
                have hless : (entrySize - blockSize).toNat < n := by
                  rw [← hn, blockSize]
                  omega
                obtain ⟨log, hlog, hrest⟩ := ih _ hless (entrySize - blockSize)
                  ((s.note (w, i + 1, i) (.read (.ok block))).note (w, i + 1, i + 1)
                    (.wrote outFd (block.take (chunkSize entrySize)) (S.writes i))) (i + 1) rfl rfl
                refine ⟨.read (.ok block) ::
                  .wrote outFd (block.take (chunkSize entrySize)) (S.writes i) :: log, ?_, ?_⟩
                · rw [hlog]
                  simp only [Extraction.note_log, List.append_assoc, List.cons_append, List.nil_append]
                · rcases hrest with ⟨hzero, hcopied⟩ | ⟨hminus, hstopped⟩
                  · exact Or.inl ⟨hzero, hcopied.cons hpos hgot hfull⟩
                  · exact Or.inr ⟨hminus, hstopped.cons hpos⟩
            · rw [if_neg hfull]
              refine ⟨[.read (.ok block)], rfl, Or.inr ⟨rfl, stopped_read ?_⟩⟩
              intro htransfers
              obtain ⟨⟨block', hblock, hlen⟩, -⟩ := (S.transfersFrom_iff i hpos).mp htransfers
              rw [hgot] at hblock
              cases hblock
              exact hfull hlen
      · rw [dif_neg hpos]
        exact ⟨[.closed outFd], rfl, Or.inl ⟨rfl, copied_nil hpos⟩⟩

/-- A loop that has ended handles the errors exactly if there were none; one that was left early
leaves the descriptor open. -/
private theorem errorsHandled_iff {result : Int} {log : List Event} {name : Text} {size : Int} (hfd : 0 ≤ outFd)
    (h : (result = 0 ∧ Copied S 0 outFd size log) ∨ (result = -1 ∧ Stopped S 0 size log)) :
    ErrorsHandled size result (.extract .file name size :: .opened name outFd :: log) ↔
      S.TransfersFrom 0 size := by
  have hreads : readBytes (.extract .file name size :: .opened name outFd :: log) = readBytes log := by
    simp only [readBytes, List.flatMap_cons, List.nil_append]
  have hwrites : writtenBytes (.extract .file name size :: .opened name outFd :: log) =
      writtenBytes log := by
    simp only [writtenBytes, List.flatMap_cons, List.nil_append]
  rcases h with ⟨rfl, hcopied⟩ | ⟨rfl, hstopped⟩
  · constructor
    · intro handled
      obtain ⟨hlen, hbytes⟩ := handled.complete rfl
      rw [hreads, hwrites] at hbytes
      rw [hreads] at hlen
      apply hcopied.only
      rw [hbytes, List.length_take, Nat.min_eq_left hlen]
    · intro htransfers
      constructor
      · intro _
        rw [hreads, hwrites]
        exact ⟨hcopied.enough, hcopied.all htransfers⟩
      · intro name' fd hmem _
        simp only [List.mem_cons, reduceCtorEq, Event.opened.injEq, false_or] at hmem
        rcases hmem with ⟨-, rfl⟩ | hmem
        · exact List.mem_cons_of_mem _ (List.mem_cons_of_mem _ hcopied.closed)
        · exact absurd hmem (hcopied.unopened name' fd)
  · constructor
    · intro handled
      have hclosed := handled.released name outFd (by simp) hfd
      simp only [List.mem_cons, reduceCtorEq, false_or] at hclosed
      exact absurd hclosed (hstopped.unclosed outFd)
    · intro htransfers
      exact absurd htransfers hstopped.failed

end Lemmas

/-- What a call of `extract_entry` for a file does about errors, if it returns. -/
def HandlesErrors (D : Directories (σ × Nat × Nat)) (S : Script) (s : Extraction (σ × Nat × Nat))
    (name : Text) (entrySize : Int) : Prop :=
  ∀ result t, extractEntry D S.mounts s .file name entrySize = some (result, t) →
    ∃ log, t.log = s.log ++ log ∧ ErrorsHandled entrySize result log

/-- Extraction handles errors exactly if it does not get as far as an open file, or if there are none. -/
theorem extractEntry_handlesErrors_iff (D : Directories (σ × Nat × Nat)) (S : Script)
    (s : Extraction (σ × Nat × Nat)) (name : Text) (entrySize : Int) :
    HandlesErrors D S s name entrySize ↔
      (parsePath D s.dirs name = none ∨ S.fd < 0 ∨ S.TransfersFrom 0 entrySize) := by
  unfold HandlesErrors extractEntry
  cases hparse : parsePath D s.dirs name with
  | none =>
      simp only [Option.bind_none, true_or, iff_true]
      intro result t h
      cases h
  | some parsed =>
      simp only [Option.bind_some, reduceCtorEq, false_or]
      have hopen : S.mounts.openFile parsed.2.world name = (S.fd, (parsed.2.world.1, 0, 0)) := rfl
      rw [hopen]
      by_cases hfd : S.fd < 0
      · simp only [hfd, if_true, true_or, iff_true, Option.some.injEq]
        intro result t h
        cases h
        refine ⟨[.extract .file name entrySize, .opened name S.fd], ?_, ?_, ?_⟩
        · simp only [Extraction.note_log, List.append_assoc, List.singleton_append]
        · intro hzero
          cases hzero
        · intro name' fd hmem hpos
          simp only [List.mem_cons, reduceCtorEq, Event.opened.injEq, List.not_mem_nil, false_or,
            or_false] at hmem
          omega
      · simp only [hfd, if_false, false_or, Option.some.injEq]
        obtain ⟨log, hlog, hcases⟩ := copyBlocks_spec S S.fd entrySize
          (Extraction.note ⟨parsed.2, s.log ++ [.extract .file name entrySize]⟩
            (parsed.2.world.1, 0, 0) (.opened name S.fd)) parsed.2.world.1 0 rfl
        have hiff : ErrorsHandled entrySize _ (.extract .file name entrySize :: .opened name S.fd :: log) ↔
            S.TransfersFrom 0 entrySize := errorsHandled_iff (by omega) hcases
        simp only [Extraction.note_log, List.append_assoc, List.cons_append, List.nil_append] at hlog
        rw [← hiff]
        constructor
        · intro h
          obtain ⟨log', hlog', handled⟩ := h _ _ rfl
          rw [hlog, List.append_cancel_left_eq] at hlog'
          rw [hlog']
          exact handled
        · intro handled result t h
          rw [h] at hlog handled
          exact ⟨_, hlog, handled⟩

/-- A file system with nothing but its root. -/
def bareRoot : Directories σ where
  mkdir w p := (.error (if p.all (· = '/') then .eexist else .enoent), w)
  isDir _ p := p.all (· = '/')
  made := by
    intro w w' p h
    cases h
  kept := fun _ _ _ hq => hq
  refused := by
    intro w w' p e h
    exact (Prod.mk.inj h).2.symm
  ancestor := by
    intro w p q h _
    rw [List.all_append, Bool.and_eq_true] at h
    exact h.1
  slash := by
    intro w p h
    rw [List.all_append, Bool.and_eq_true]
    exact ⟨h, rfl⟩
  root := fun _ => rfl

/-- Two blocks are read; the write of the first one fails, the one of the second succeeds. -/
def failingWrite : Script where
  fd := 3
  reads := fun _ => .ok (List.replicate blockSize 'x')
  writes := fun i => if i = 0 then -1 else 1

/-- A file of 513 bytes is reported extracted although one byte of it has been written. -/
theorem extractEntry_hides_error :
    ¬ HandlesErrors bareRoot failingWrite ⟨⟨[], ((), 0, 0)⟩, []⟩ "/f".toList 513 := by
  intro h
  have hrun : (extractEntry bareRoot failingWrite.mounts ⟨⟨[], ((), 0, 0)⟩, []⟩ .file "/f".toList
      513).map (fun r => (r.1, (writtenBytes r.2.log).length)) = some (0, 1) := by decide +kernel
  obtain ⟨⟨result, t⟩, hcall, hresult⟩ := Option.map_eq_some_iff.mp hrun
  obtain ⟨rfl, hone⟩ := Prod.mk.inj hresult
  obtain ⟨log, hlog, handled⟩ := h _ t hcall
  rw [List.nil_append] at hlog
  obtain ⟨hlen, hbytes⟩ := handled.complete rfl
  have hall : (writtenBytes log).length = 513 := by
    rw [hbytes, List.length_take]
    omega
  rw [hlog, hall] at hone
  cases hone

end Zrt.Unpack
