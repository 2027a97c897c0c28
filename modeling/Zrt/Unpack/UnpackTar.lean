import Zrt.Unpack.TarHeader

/-!
# Unpacking a whole archive

The loop over the headers and the loop over the data of a file read the same archive. Together they
keep its framing: each entry is extracted with the blocks that belong to it, and the next header is
read behind them.
-/

namespace Zrt.Unpack

open Zrt.Fs

universe u

variable {σ : Type u}

/-! ## Archives -/

/-- An entry: a header with a terminated name, no prefix and a terminated size, and the blocks of its
data. -/
structure TarEntry where
  header : List Char
  data : List Char
  name : Text
  size : Nat
  header_length : header.length = blockSize
  name_ne : name ≠ []
  name_nul : nul ∉ name
  name_eq : ∃ rest, header.take 100 = name ++ nul :: rest
  prefix_eq : header[345]? = some nul
  size_eq : TerminatedOctal ((header.drop 124).take 12) size
  size_lt : size < 2 ^ 31
  dir_size : header[156]? = some '5' → size = 0
  data_length : data.length = blockSize * blocks size

namespace TarEntry

def type (e : TarEntry) : TypeFlag := if e.header[156]? = some '5' then .dir else .file

def path (mountPath : Text) (e : TarEntry) : Text := joinPath mountPath e.name

/-- The path fits the buffer. -/
def fits (maxPathLen : Nat) (mountPath : Text) (e : TarEntry) : Bool :=
  decide ((e.path mountPath).length ≤ maxPathLen)

end TarEntry

/-- The block that ends an archive. -/
def endBlock : List Char := List.replicate blockSize nul

def archive (entries : List TarEntry) : List Char :=
  (entries.flatMap fun e => e.header ++ e.data) ++ endBlock

/-- Reading a block and writing what of it belongs to the file, block by block. -/
def blockEvents (fd : Int) : Nat → Int → List Char → List Event
  | 0, _, _ => []
  | n + 1, size, data =>
      .read (.ok (data.take blockSize)) ::
        .wrote fd ((data.take blockSize).take (chunkSize size)) (chunkSize size) ::
          blockEvents fd n (size - blockSize) (data.drop blockSize)

/-- What the unpacker does about an entry. -/
def entryEvents (mountPath : Text) (fd : Int) (e : TarEntry) : List Event :=
  .read (.ok e.header) :: .extract e.type (e.path mountPath) e.size ::
    match e.type with
    | .dir => []
    | .file => .opened (e.path mountPath) fd :: (blockEvents fd (blocks e.size) e.size e.data ++
        [.closed fd])

/-- The record of an entry that is extracted: a file receives the first bytes of its data. -/
structure EntryLog (mountPath : Text) (e : TarEntry) (log : List Event) : Prop where
  events : ∃ fd, log = entryEvents mountPath fd e
  received : e.type = .file → writtenBytes log = e.data.take e.size

/-- The archive is delivered in full blocks, files are opened and take what they are given. `input` is
what the reader has yet to deliver. -/
structure Cooperates (D : Directories σ) (M : Mounts σ) (input : σ → List Char) : Prop where
  reads : ∀ w, (M.read w).1 = .ok ((input w).take blockSize)
  advances : ∀ w, input (M.read w).2 = (input w).drop blockSize
  opens : ∀ w name, 0 ≤ (M.openFile w name).1
  writes : ∀ w fd data, (M.write w fd data).1 = data.length
  input_openFile : ∀ w name, input (M.openFile w name).2 = input w
  input_write : ∀ w fd data, input (M.write w fd data).2 = input w
  input_close : ∀ w fd, input (M.close w fd) = input w
  input_mkdir : ∀ w p, input (D.mkdir w p).2 = input w

/-- How the loop ends: behind the end of the archive, with the number of its entries, or at the first
entry whose path is too long. `rest` is what has not been read by then. -/
def Ended (maxPathLen : Nat) (mountPath : Text) (entries : List TarEntry) (trailing : List Char)
    (count result : Int) (last rest : List Char) : Prop :=
  match entries.dropWhile (TarEntry.fits maxPathLen mountPath) with
  | [] => result = count + entries.length ∧ last = endBlock ∧ rest = trailing
  | e :: es => result = -eUnpackToBigPath ∧ last = e.header ∧ rest = e.data ++ (archive es ++ trailing)

/-- The loop has extracted the entries up to the first one that does not fit, and read one more
block. -/
structure Unpacked (maxPathLen : Nat) (mountPath : Text) (entries : List TarEntry)
    (trailing : List Char) (count result : Int) (log : List Event) (rest : List Char) : Prop where
  framed : ∃ logs last, log = logs.flatten ++ [.read (.ok last)] ∧
    List.Forall₂ (EntryLog mountPath) (entries.takeWhile (TarEntry.fits maxPathLen mountPath)) logs ∧
    Ended maxPathLen mountPath entries trailing count result last rest

variable {D : Directories σ} {M : Mounts σ} {input : σ → List Char}

/-! ## Directories do not touch the archive -/

section Keeps

variable {P : σ → Prop} (hmk : ∀ w p, P w → P (D.mkdir w p).2)

include hmk

theorem createDirAndCacheName_keeps {s t : DirCache σ} {path : Text} {len : Nat} {r : Int}
    (hs : P s.world) (h : createDirAndCacheName D s path len = some (r, t)) : P t.world := by
  unfold createDirAndCacheName at h
  split at h
  · cases h
    exact hs
  · split at h
    · cases h
    · have hkept := hmk s.world (path.take len) hs
      cases hres : D.mkdir s.world (path.take len) with
      | mk res w =>
          rw [hres] at h hkept
          cases res with
          | ok u =>
              cases h
              exact hkept
          | error e =>
              simp only at h
              split at h
              · cases h
                exact hkept
              · cases h
                exact hkept

private theorem callbackParse_keeps {s t : DirCache σ} {path : Text} {len : Nat} (hs : P s.world)
    (h : callbackParse D path s len = some t) : P t.world := by
  unfold callbackParse at h
  split at h
  · cases h
    exact hs
  · obtain ⟨⟨r, t'⟩, hr, rfl⟩ := Option.map_eq_some_iff.mp h
    exact createDirAndCacheName_keeps hmk hs hr

private theorem processSubdirs_keeps {path : Text} (len : Nat) {s t : DirCache σ} {n : Nat} (hs : P s.world)
    (h : processSubdirs D path len s = some (n, t)) : P t.world := by
  induction len using Nat.strongRecOn generalizing s t n with
  | ind len ih =>
      rw [processSubdirs] at h
      split at h
      · cases h
        exact hs
      · rename_i i hi
        obtain ⟨⟨n', s'⟩, hrec, h⟩ := Option.bind_eq_some_iff.mp h
        obtain ⟨t', ht', heq⟩ := Option.map_eq_some_iff.mp h
        cases heq
        exact callbackParse_keeps hmk (ih _ (subpathLen_lt hi) hs hrec) ht'

private theorem parsePath_keeps {path : Text} {s t : DirCache σ} {n : Nat} (hs : P s.world)
    (h : parsePath D s path = some (n, t)) : P t.world := by
  obtain ⟨⟨r, s'⟩, hfirst, h⟩ := Option.bind_eq_some_iff.mp h
  have hs' := createDirAndCacheName_keeps hmk hs hfirst
  split at h
  · exact processSubdirs_keeps hmk _ hs' h
  · cases h
    exact hs'

end Keeps

/-! ## The data of a file -/

section Lemmas

variable {s : Extraction σ}

theorem pos_of_blocks {size : Int} {n : Nat} (hn : blocks size = n + 1) : 0 < size := by
  by_contra hneg
  rw [blocks_of_nonpos hneg] at hn
  cases hn

theorem take_chunk_append {size : Int} (hpos : 0 < size) (data : List Char) :
    (data.take blockSize).take (chunkSize size) ++
      (data.drop blockSize).take (size - blockSize).toNat = data.take size.toNat := by
  have hchunk := chunkSize_add hpos
  have hle := chunkSize_le size
  rw [List.take_take, Nat.min_eq_left hle, ← hchunk]
  by_cases hlast : size ≤ blockSize
  · rw [Int.toNat_of_nonpos (by omega), List.take_zero, List.append_nil, Nat.add_zero]
  · have hwhole : chunkSize size = blockSize := by
      rw [chunkSize]
      omega
    rw [hwhole, List.take_add]

private theorem writtenBytes_blockEvents (fd : Int) (n : Nat) {size : Int} {data : List Char}
    (hn : blocks size = n) (hlen : data.length = blockSize * n) :
    writtenBytes (blockEvents fd n size data) = data.take size.toNat := by
  induction n generalizing size data with
  | zero =>
      rw [Nat.mul_zero, List.length_eq_zero_iff] at hlen
      rw [hlen, List.take_nil]
      rfl
  | succ n ih =>
      have hpos := pos_of_blocks hn
      rw [blocks_of_pos hpos, Nat.add_right_cancel_iff] at hn
      rw [Nat.mul_succ] at hlen
      have hrestlen : (data.drop blockSize).length = blockSize * n := by
        rw [List.length_drop]
        omega
      have hrest := ih hn hrestlen
      have hhead : writtenBytes (blockEvents fd (n + 1) size data) =
          ((data.take blockSize).take (chunkSize size)).take (chunkSize size) ++
            writtenBytes (blockEvents fd n (size - blockSize) (data.drop blockSize)) := by
        simp only [writtenBytes, blockEvents, List.flatMap_cons, List.nil_append, Int.toNat_natCast]
      rw [hhead, hrest, List.take_take, Nat.min_self, take_chunk_append hpos]

theorem writeError_full {size : Int} : writeError size (chunkSize size) = false := by
  unfold writeError chunkSize
  split
  · exact decide_eq_false (by omega)
  · exact decide_eq_false (by omega)

theorem Cooperates.readBlock (h : Cooperates D M input) (s : Extraction σ) {block rest : List Char}
    (hlen : block.length = blockSize) (hinput : input s.dirs.world = block ++ rest) :
    ∃ s', readBlock M s = (.ok block, s') ∧ s'.log = s.log ++ [.read (.ok block)] ∧
      s'.dirs.cachedFullPath = s.dirs.cachedFullPath ∧ input s'.dirs.world = rest := by
  have hread := h.reads s.dirs.world
  rw [hinput, ← hlen, List.take_left'] at hread
  · refine ⟨s.note (M.read s.dirs.world).2 (.read (.ok block)), by rw [Unpack.readBlock, hread], rfl,
      rfl, ?_⟩
    rw [Extraction.note_world, h.advances, hinput, ← hlen, List.drop_left']
    rfl
  · rfl

private theorem Cooperates.copyBlocks (h : Cooperates D M input) (fd : Int) (n : Nat) {size : Int}
    {data rest : List Char}
    (hn : blocks size = n) (hlen : data.length = blockSize * n)
    (hinput : input s.dirs.world = data ++ rest) :
    ∃ t, copyBlocks M fd size s = (0, t) ∧
      t.log = s.log ++ (blockEvents fd n size data ++ [.closed fd]) ∧
      input t.dirs.world = rest := by
  induction n generalizing size data s with
  | zero =>
      have hneg : ¬ 0 < size := by
        intro hpos
        rw [blocks_of_pos hpos] at hn
        cases hn
      rw [Nat.mul_zero, List.length_eq_zero_iff] at hlen
      rw [hlen, List.nil_append] at hinput
      rw [Unpack.copyBlocks, dif_neg hneg]
      refine ⟨_, rfl, rfl, ?_⟩
      rw [Extraction.note_world, h.input_close, hinput]
  | succ n ih =>
      have hpos := pos_of_blocks hn
      rw [blocks_of_pos hpos, Nat.add_right_cancel_iff] at hn
      rw [Nat.mul_succ] at hlen
      have hblock : (data.take blockSize).length = blockSize := by
        rw [List.length_take]
        omega
      rw [← List.take_append_drop blockSize data, List.append_assoc] at hinput
      obtain ⟨s₁, hread, hlog₁, -, hinput₁⟩ := h.readBlock s hblock hinput
      have hwrote : (M.write s₁.dirs.world fd ((data.take blockSize).take (chunkSize size))).1 =
          (chunkSize size : Int) := by
        rw [h.writes, List.length_take, hblock, Nat.min_eq_left (chunkSize_le size)]
      have hrestlen : (data.drop blockSize).length = blockSize * n := by
        rw [List.length_drop]
        omega
      have hinput₂ : input (writeData M s₁ fd
          ((data.take blockSize).take (chunkSize size))).2.dirs.world = data.drop blockSize ++ rest := by
        rw [writeData, Extraction.note_world, h.input_write, hinput₁]
      obtain ⟨t, hcopy, hlog, hrest⟩ := ih hn hrestlen hinput₂
      refine ⟨t, ?_, ?_, hrest⟩
      · rw [Unpack.copyBlocks, dif_pos hpos, hread]
        simp only [hblock, if_true]
        have herror : writeError size
            (writeData M s₁ fd ((data.take blockSize).take (chunkSize size))).1 = false := by
          rw [writeData, hwrote]
          exact writeError_full
        rw [herror, if_neg Bool.false_ne_true]
        exact hcopy
      · rw [hlog, writeData, Extraction.note_log, hlog₁, hwrote, blockEvents]
        simp only [List.append_assoc, List.cons_append, List.nil_append]

/-! ## Entries -/

variable {e : TarEntry} {mountPath : Text} {maxPathLen : Nat}

private theorem TarEntry.cString (e : TarEntry) : cString e.header = some e.name := by
  obtain ⟨rest, hrest⟩ := e.name_eq
  have hheader : e.header = e.name ++ nul :: (rest ++ e.header.drop 100) := by
    rw [← List.cons_append, ← List.append_assoc, ← hrest, List.take_append_drop]
  rw [hheader, Unpack.cString, if_pos (List.mem_append_right _ List.mem_cons_self),
    List.takeWhile_append_of_pos]
  · rw [List.takeWhile_cons_of_neg (by simp), List.append_nil]
  · intro c hc
    rw [decide_eq_true_eq]
    rintro rfl
    exact e.name_nul hc

theorem TarEntry.headerAction (e : TarEntry) (maxPathLen : Nat) (mountPath : Text) :
    headerAction maxPathLen mountPath e.header = some
      (if e.fits maxPathLen mountPath then .entry e.type (e.path mountPath) e.size
        else .tooBigPath) := by
  have hsize := scanOctal_of_terminated (List.take_prefix 12 (e.header.drop 124)) e.size_eq
  rw [storedOctal_of_lt e.size_lt] at hsize
  simp only [Unpack.headerAction, hsize, Option.bind_some, e.cString, Option.map_some, e.name_ne,
    if_false, TarEntry.path, TarEntry.type]
  cases hf : e.fits maxPathLen mountPath with
  | true =>
      have hfits : (joinPath mountPath e.name).length ≤ maxPathLen := of_decide_eq_true hf
      rw [if_neg (Nat.not_lt.mpr hfits), if_pos rfl]
  | false =>
      have hbig : ¬ (joinPath mountPath e.name).length ≤ maxPathLen := of_decide_eq_false hf
      rw [if_pos (Nat.lt_of_not_le hbig), if_neg Bool.false_ne_true]

theorem headerAction_endBlock (maxPathLen : Nat) (mountPath : Text) :
    headerAction maxPathLen mountPath endBlock = some .stop := by
  have hscan : scanOctal (endBlock.drop 124) = some none := by decide
  rw [Unpack.headerAction, hscan]
  rfl

private theorem entryLog_entryEvents (fd : Int) : EntryLog mountPath e (entryEvents mountPath fd e) where
  events := ⟨fd, rfl⟩
  received := by
    intro htype
    have hwritten := writtenBytes_blockEvents fd (blocks e.size) rfl e.data_length
    rw [Int.toNat_natCast] at hwritten
    simp only [entryEvents, htype]
    rw [← hwritten]
    simp only [writtenBytes, List.flatMap_cons, List.flatMap_append, List.flatMap_nil,
      List.nil_append, List.append_nil]

/-- Directory creation returns for the directories above the path and, of a directory, for the path
itself. -/
def DirsReturn (D : Directories σ) (type : TypeFlag) (path : Text) : Prop :=
  ∀ c, (parsePath D c path).isSome ∧
    (type = .dir → (createDirAndCacheName D c path path.length).isSome)

private theorem Cooperates.extractEntry (h : Cooperates D M input) {rest : List Char}
    (hinput : input s.dirs.world = e.data ++ rest)
    (hdirs : DirsReturn D e.type (e.path mountPath)) :
    ∃ fd t body, extractEntry D M s e.type (e.path mountPath) e.size = some (0, t) ∧
      t.log = s.log ++ body ∧ .read (.ok e.header) :: body = entryEvents mountPath fd e ∧
      input t.dirs.world = rest := by
  obtain ⟨⟨n, c⟩, hparse⟩ := Option.isSome_iff_exists.mp (hdirs s.dirs).1
  have hmk : ∀ w p, input w = e.data ++ rest → input (D.mkdir w p).2 = e.data ++ rest :=
    fun w p hw => (h.input_mkdir w p).trans hw
  have hc : input c.world = e.data ++ rest :=
    parsePath_keeps (P := fun w => input w = e.data ++ rest) hmk hinput hparse
  cases htype : e.type with
  | dir =>
      obtain ⟨⟨r, c'⟩, hcreate⟩ := Option.isSome_iff_exists.mp ((hdirs c).2 htype)
      have hc' : input c'.world = e.data ++ rest :=
        createDirAndCacheName_keeps (P := fun w => input w = e.data ++ rest) hmk hc hcreate
      have hdata : e.data = [] := by
        have hsize : e.size = 0 := by
          apply e.dir_size
          by_contra hother
          rw [TarEntry.type, if_neg hother] at htype
          cases htype
        have hlen := e.data_length
        rw [hsize] at hlen
        exact List.length_eq_zero_iff.mp hlen
      refine ⟨0, ⟨c', s.log ++ [.extract .dir (e.path mountPath) e.size]⟩,
        [.extract .dir (e.path mountPath) e.size], ?_, rfl, ?_, ?_⟩
      · simp only [Unpack.extractEntry, hparse, Option.bind_some, hcreate, Option.map_some]
      · simp only [entryEvents, htype]
      · rw [hc', hdata, List.nil_append]
  | file =>
      have hopen : ¬ (M.openFile c.world (e.path mountPath)).1 < 0 := by
        have hpos := h.opens c.world (e.path mountPath)
        omega
      have hopened : input (Extraction.note ⟨c, s.log ++ [.extract .file (e.path mountPath) e.size]⟩
          (M.openFile c.world (e.path mountPath)).2 (.opened (e.path mountPath)
            (M.openFile c.world (e.path mountPath)).1)).dirs.world = e.data ++ rest := by
        rw [Extraction.note_world, h.input_openFile, hc]
      obtain ⟨t, hcopy, hlog, hrest⟩ := h.copyBlocks (M.openFile c.world (e.path mountPath)).1
        (blocks e.size) rfl e.data_length hopened
      refine ⟨(M.openFile c.world (e.path mountPath)).1, t,
        .extract .file (e.path mountPath) e.size ::
          .opened (e.path mountPath) (M.openFile c.world (e.path mountPath)).1 ::
            (blockEvents (M.openFile c.world (e.path mountPath)).1 (blocks e.size) e.size e.data ++
              [.closed (M.openFile c.world (e.path mountPath)).1]), ?_, ?_, ?_, hrest⟩
      · simp only [Unpack.extractEntry, hparse, Option.bind_some, hopen, if_false]
        rw [hcopy]
      · rw [hlog, Extraction.note_log]
        simp only [List.append_assoc, List.cons_append, List.nil_append]
      · simp only [entryEvents, htype]

/-! ## The archive -/

theorem length_endBlock : endBlock.length = blockSize := List.length_replicate

theorem archive_cons (e : TarEntry) (es : List TarEntry) :
    archive (e :: es) = e.header ++ (e.data ++ archive es) := by
  rw [archive, List.flatMap_cons, List.append_assoc, List.append_assoc]
  rfl

private theorem unpacked_nil {trailing : List Char} {count : Int} :
    Unpacked maxPathLen mountPath [] trailing count count [.read (.ok endBlock)] trailing where
  framed := ⟨[], endBlock, rfl, List.Forall₂.nil, (Int.add_zero count).symm, rfl, rfl⟩

private theorem unpacked_tooBig {es : List TarEntry} {trailing : List Char} {count : Int}
    (hf : e.fits maxPathLen mountPath = false) :
    Unpacked maxPathLen mountPath (e :: es) trailing count (-eUnpackToBigPath)
      [.read (.ok e.header)] (e.data ++ (archive es ++ trailing)) where
  framed := by
    refine ⟨[], e.header, rfl, ?_, ?_⟩
    · rw [List.takeWhile_cons_of_neg (by rw [hf]; exact Bool.false_ne_true)]
      exact List.Forall₂.nil
    · rw [Ended, List.dropWhile_cons_of_neg (by rw [hf]; exact Bool.false_ne_true)]
      exact ⟨rfl, rfl, rfl⟩

private theorem Unpacked.cons {es : List TarEntry} {trailing rest : List Char} {count result : Int}
    {log entryLog : List Event} (hf : e.fits maxPathLen mountPath = true)
    (he : EntryLog mountPath e entryLog)
    (h : Unpacked maxPathLen mountPath es trailing (count + 1) result log rest) :
    Unpacked maxPathLen mountPath (e :: es) trailing count result (entryLog ++ log) rest where
  framed := by
    obtain ⟨logs, last, rfl, hlogs, hended⟩ := h.framed
    refine ⟨entryLog :: logs, last, ?_, ?_, ?_⟩
    · rw [List.flatten_cons, List.append_assoc]
    · rw [List.takeWhile_cons_of_pos hf]
      exact List.Forall₂.cons he hlogs
    · rw [Ended, List.dropWhile_cons_of_pos hf]
      rw [Ended] at hended
      split at hended
      · obtain ⟨hresult, hlast, hrest⟩ := hended
        refine ⟨?_, hlast, hrest⟩
        rw [hresult, List.length_cons]
        omega
      · exact hended

private theorem Unpacked.tooBig {entries fitting es : List TarEntry} {trailing rest : List Char}
    {count result : Int} {log : List Event}
    (h : Unpacked maxPathLen mountPath entries trailing count result log rest)
    (htake : entries.takeWhile (TarEntry.fits maxPathLen mountPath) = fitting)
    (hdrop : entries.dropWhile (TarEntry.fits maxPathLen mountPath) = e :: es) :
    result = -eUnpackToBigPath ∧ rest = e.data ++ (archive es ++ trailing) ∧
      ∃ logs, log = logs.flatten ++ [.read (.ok e.header)] ∧
        List.Forall₂ (EntryLog mountPath) fitting logs := by
  obtain ⟨logs, last, hlog, hlogs, hended⟩ := h.framed
  rw [Ended, hdrop] at hended
  obtain ⟨hresult, rfl, hrest⟩ := hended
  rw [htake] at hlogs
  exact ⟨hresult, hrest, logs, hlog, hlogs⟩

theorem headerBlock_ne_nil {block : List Char} (h : block.length = blockSize) : block ≠ [] := by
  intro hnil
  rw [hnil] at h
  cases h

private theorem Cooperates.unpackLoop (h : Cooperates D M input) (maxPathLen : Nat) (mountPath : Text)
    (entries : List TarEntry) {trailing : List Char}
    (hinput : input s.dirs.world = archive entries ++ trailing)
    (hdirs : ∀ e ∈ entries.takeWhile (TarEntry.fits maxPathLen mountPath),
      DirsReturn D e.type (e.path mountPath)) (fuel : Nat)
    (hfuel : entries.length < fuel) (count : Int) :
    ∃ result t log, Unpack.unpackLoop maxPathLen (Unpack.readBlock M) (Unpack.extractEntry D M)
        mountPath fuel count s =
        some (result, t) ∧ t.log = s.log ++ log ∧
      Unpacked maxPathLen mountPath entries trailing count result log (input t.dirs.world) := by
  induction entries generalizing s fuel count with
  | nil =>
      obtain ⟨fuel, rfl⟩ := Nat.exists_eq_succ_of_ne_zero (Nat.ne_of_gt hfuel)
      obtain ⟨t, hread, hlog, -, hrest⟩ := h.readBlock s length_endBlock hinput
      have hstop := headerAction_endBlock maxPathLen mountPath
      refine ⟨count, t, [.read (.ok endBlock)], ?_, hlog, ?_⟩
      · rw [Unpack.unpackLoop, hread]
        simp only [headerBlock_ne_nil length_endBlock, length_endBlock, hstop, Option.bind_some, ne_eq,
          not_true_eq_false, if_false]
      · rw [hrest]
        exact unpacked_nil
  | cons e es ih =>
      obtain ⟨fuel, rfl⟩ := Nat.exists_eq_succ_of_ne_zero (Nat.ne_of_gt (Nat.zero_lt_of_lt hfuel))
      rw [archive_cons, List.append_assoc, List.append_assoc] at hinput
      obtain ⟨s₁, hread, hlog₁, -, hinput₁⟩ := h.readBlock s e.header_length hinput
      have haction := e.headerAction maxPathLen mountPath
      rw [Unpack.unpackLoop, hread]
      simp only [headerBlock_ne_nil e.header_length, e.header_length, haction, Option.bind_some, ne_eq,
        not_true_eq_false, if_false]
      cases hf : e.fits maxPathLen mountPath with
      | false =>
          refine ⟨-eUnpackToBigPath, s₁, [.read (.ok e.header)], rfl, hlog₁, ?_⟩
          rw [hinput₁]
          exact unpacked_tooBig hf
      | true =>
          rw [List.takeWhile_cons_of_pos hf] at hdirs
          obtain ⟨fd, s₂, body, hextract, hlog₂, hbody, hinput₂⟩ := h.extractEntry hinput₁
            (hdirs e List.mem_cons_self)
          obtain ⟨result, t, log, hloop, hlog, hunpacked⟩ := ih hinput₂
            (fun e' he' => hdirs e' (List.mem_cons_of_mem _ he')) fuel (Nat.lt_of_succ_lt_succ hfuel)
            (count + 1)
          refine ⟨result, t, entryEvents mountPath fd e ++ log, ?_, ?_,
            hunpacked.cons hf (entryLog_entryEvents fd)⟩
          · simp only [if_true, hextract, Option.bind_some]
            exact hloop
          · rw [hlog, hlog₂, hlog₁, ← hbody]
            simp only [List.append_assoc, List.cons_append, List.nil_append]

end Lemmas

/-! ## A tape -/

theorem createDirAndCacheName_isSome {path : Text} {len : Nat} (hlen : len < cachedPathSize)
    (s : DirCache σ) : (createDirAndCacheName D s path len).isSome := by
  unfold createDirAndCacheName
  split
  · rfl
  · rw [if_neg]
    · split
      · rfl
      · split <;> rfl
    · have hle := List.length_take_le len path
      omega

private theorem processSubdirs_isSome {path : Text} (len : Nat) (hlen : len < cachedPathSize)
    (s : DirCache σ) : (processSubdirs D path len s).isSome := by
  induction len using Nat.strongRecOn generalizing s with
  | ind len ih =>
      rw [processSubdirs]
      split
      · rfl
      · rename_i i hi
        have hlt := subpathLen_lt hi
        obtain ⟨r, hr⟩ := Option.isSome_iff_exists.mp (ih _ hlt (by omega) s)
        rw [hr, Option.bind_some, callbackParse]
        split
        · rfl
        · rw [Option.isSome_map, Option.isSome_map]
          exact createDirAndCacheName_isSome (by omega) _

private theorem dirsReturn_of_lt {type : TypeFlag} {path : Text} (h : path.length < cachedPathSize) :
    DirsReturn D type path := by
  have hle := dirPathLen_le path
  intro c
  refine ⟨?_, fun _ => createDirAndCacheName_isSome h c⟩
  have hfirst : (createDirAndCacheName D c path (dirPathLen path)).isSome :=
    createDirAndCacheName_isSome (by omega) c
  obtain ⟨r, hr⟩ := Option.isSome_iff_exists.mp hfirst
  rw [parsePath, hr, Option.bind_some]
  split
  · exact processSubdirs_isSome _ (by omega) _
  · rfl

/-- The rest of a tape as the world: reading advances it, the mounts take everything. -/
def tape : Mounts (List Char) where
  read w := (.ok (w.take blockSize), w.drop blockSize)
  openFile w _ := (3, w)
  write w _ data := (data.length, w)
  close w _ := w

/-- Every directory can be made. -/
def willingRoot : Directories (List Char) where
  mkdir w _ := (.ok (), w)
  isDir _ _ := true
  made := fun _ _ _ _ => rfl
  kept := fun _ _ _ _ => rfl
  refused := by
    intro w w' p e h
    cases h
  ancestor := fun _ _ _ _ _ => rfl
  slash := fun _ _ _ => rfl
  root := fun _ => rfl

private theorem cooperates_tape : Cooperates willingRoot tape id where
  reads := fun _ => rfl
  advances := fun _ => rfl
  opens := fun _ _ => (by decide : (0 : Int) ≤ 3)
  writes := fun _ _ _ => rfl
  input_openFile := fun _ _ => rfl
  input_write := fun _ _ _ => rfl
  input_close := fun _ _ => rfl
  input_mkdir := fun _ _ => rfl

theorem one_lt_size_bound : 1 < 2 ^ 31 := by decide

/-- A file of one byte under a name that fills its field. -/
def oneByteFile : TarEntry where
  header := ustarHeader (List.replicate 99 'f') "00000000001".toList ['0'] []
  data := padded ['x'] blockSize
  name := List.replicate 99 'f'
  size := 1
  header_length := by decide +kernel
  name_ne := by decide
  name_nul := by decide
  name_eq := ⟨[], by decide +kernel⟩
  prefix_eq := by decide +kernel
  size_eq := ⟨[], "00000000001".toList, nul, [], by decide +kernel, List.forall_mem_nil _, by decide,
    List.all_eq_true.mp (by decide), Or.inl rfl, by decide⟩
  size_lt := one_lt_size_bound
  dir_size := by decide +kernel
  data_length := by decide +kernel

/-- A file of one byte under a name of two. -/
def shortNamedFile : TarEntry where
  header := ustarHeader "ab".toList "00000000001".toList ['0'] []
  data := padded ['y'] blockSize
  name := "ab".toList
  size := 1
  header_length := by decide +kernel
  name_ne := by decide
  name_nul := by decide
  name_eq := ⟨List.replicate 97 nul, by decide +kernel⟩
  prefix_eq := by decide +kernel
  size_eq := ⟨[], "00000000001".toList, nul, [], by decide +kernel, List.forall_mem_nil _, by decide,
    List.all_eq_true.mp (by decide), Or.inl rfl, by decide⟩
  size_lt := one_lt_size_bound
  dir_size := by decide +kernel
  data_length := by decide +kernel

/-- Forty directories below each other, 4000 characters. -/
def deepMountPath : Text := (List.replicate 40 ('/' :: List.replicate 99 'm')).flatten

/-! ## Unpacking -/

/-- An archive whose directories can be made, whose files can be opened and written and that is read
in full blocks is unpacked entry by entry, up to the first path that is too long. -/
theorem unpackTar_framed (h : Cooperates D M input) (maxPathLen : Nat)
    (dstFilename : Vector Char (maxPathLen + 1)) (mountPath : Text)
    (hfits : strcatFits maxPathLen dstFilename.toList mountPath = true) (entries : List TarEntry)
    (trailing : List Char) (s : Extraction σ)
    (hinput : input s.dirs.world = archive entries ++ trailing)
    (hdirs : ∀ e ∈ entries.takeWhile (TarEntry.fits maxPathLen mountPath),
      DirsReturn D e.type (e.path mountPath)) (fuel : Nat) (hfuel : entries.length < fuel) :
    ∃ result t log, unpackTar maxPathLen (readBlock M) (extractEntry D M) dstFilename mountPath fuel s =
        some (result, t) ∧ t.log = s.log ++ log ∧
      Unpacked maxPathLen mountPath entries trailing 0 result log (input t.dirs.world) := by
  rw [unpackTar, if_pos hfits]
  exact h.unpackLoop maxPathLen mountPath entries hinput hdirs fuel hfuel 0

private theorem fits_deep : shortNamedFile.fits 4096 deepMountPath = true ∧
    oneByteFile.fits 4096 deepMountPath = false ∧
    (shortNamedFile.path deepMountPath).length < cachedPathSize := by
  decide +kernel

private theorem strcatFits_deep :
    strcatFits 4096 (Vector.replicate 4097 nul).toList deepMountPath = true := by
  decide +kernel

/-- Of two files under a deep mount path the first one is extracted; the name of the second one is too
long, and its data are left on the tape. -/
theorem unpackTar_framed_deep :
    ∃ t fd, unpackTar 4096 (readBlock tape) (extractEntry willingRoot tape) (Vector.replicate 4097 nul)
        deepMountPath 3 ⟨⟨[], archive [shortNamedFile, oneByteFile]⟩, []⟩ =
        some (-eUnpackToBigPath, t) ∧
      t.log = entryEvents deepMountPath fd shortNamedFile ++ [.read (.ok oneByteFile.header)] ∧
      t.dirs.world = oneByteFile.data ++ endBlock := by
  obtain ⟨hshort, hlong, hlt⟩ := fits_deep
  have htake : [shortNamedFile, oneByteFile].takeWhile (TarEntry.fits 4096 deepMountPath) =
      [shortNamedFile] := by
    rw [List.takeWhile_cons_of_pos hshort, List.takeWhile_cons_of_neg (by rw [hlong]; exact nofun)]
  have hdrop : [shortNamedFile, oneByteFile].dropWhile (TarEntry.fits 4096 deepMountPath) =
      [oneByteFile] := by
    rw [List.dropWhile_cons_of_pos hshort, List.dropWhile_cons_of_neg (by rw [hlong]; exact nofun)]
  have hdirs : ∀ e ∈ [shortNamedFile, oneByteFile].takeWhile (TarEntry.fits 4096 deepMountPath),
      DirsReturn willingRoot e.type (e.path deepMountPath) := by
    intro e he
    rw [htake] at he
    rw [List.mem_singleton.mp he]
    exact dirsReturn_of_lt hlt
  obtain ⟨result, t, log, hrun, hlog, hunpacked⟩ := unpackTar_framed cooperates_tape 4096
    (Vector.replicate 4097 nul) deepMountPath strcatFits_deep [shortNamedFile, oneByteFile] []
    ⟨⟨[], archive [shortNamedFile, oneByteFile]⟩, []⟩ (List.append_nil _).symm hdirs 3 (by decide)
  obtain ⟨hresult, hrest, logs, hframed, hlogs⟩ := hunpacked.tooBig htake hdrop
  cases hlogs with
  | cons hentry hnone =>
      cases hnone
      obtain ⟨fd, hfd⟩ := hentry.events
      refine ⟨t, fd, ?_, ?_, ?_⟩
      · rw [hrun, hresult]
      · rw [hlog, hframed, hfd]
        simp only [List.nil_append, List.flatten_cons, List.flatten_nil, List.append_nil]
      · have hworld : t.dirs.world = oneByteFile.data ++ (archive [] ++ []) := hrest
        rw [hworld, List.append_nil]
        rfl

/-- A file is refused when the mount path leaves no room for its name, although its directories can
be made and it can be opened and written. -/
theorem unpackTar_refuses_bigPath :
    (unpackTar 4096 (readBlock tape) (extractEntry willingRoot tape) (Vector.replicate 4097 nul)
      deepMountPath 2 ⟨⟨[], archive [oneByteFile]⟩, []⟩).map Prod.fst =
      some (-eUnpackToBigPath) := by
  decide +kernel

end Zrt.Unpack
