import Mathlib.Algebra.Group.Nat.Defs
import Mathlib.Algebra.Group.Int.Defs
import Zrt.Unpack.ExtractEntry

/-!
# Tar headers

The unpacker reads a header as a C structure of character arrays: the name as a string from the
start of the header on, the size as an octal number wherever its digits end. The buffer for the full
path is on the stack, and the mount path is appended to what is found there.
-/

namespace Zrt.Unpack

open Zrt.Fs

def nul : Char := '\x00'

/-- `EUnpackToBigPath` and `EUnpackStateNotImplemented`. -/
def eUnpackToBigPath : Int := 1

def eUnpackStateNotImplemented : Int := 38

/-! ## Functions of the C library -/

/-- The string at the start of the memory; nothing ends it when there is no NUL. -/
def cString (mem : List Char) : Option Text :=
  if nul ∈ mem then some (mem.takeWhile (· ≠ nul)) else none

def isSpace (c : Char) : Bool :=
  c = ' ' || c = '\t' || c = '\n' || c = '\x0b' || c = '\x0c' || c = '\r'

def isOctal (c : Char) : Bool := decide ('0' ≤ c) && decide (c ≤ '7')

def octalValue (digits : List Char) : Nat :=
  digits.foldl (fun n c => 8 * n + (c.toNat - '0'.toNat)) 0

/-- What `%o` stores in an `int`: an `unsigned long` of 32 bits that does not overflow, and that a
minus sign negates. -/
def storedOctal (negative : Bool) (n : Nat) : Int :=
  let word := if 2 ^ 32 ≤ n then 2 ^ 32 - 1 else if negative then (2 ^ 32 - n) % 2 ^ 32 else n
  if word < 2 ^ 31 then word else (word : Int) - 2 ^ 32

/-- `sscanf` with `"%o"`. The inner result is empty when nothing could be converted, the outer one
when nothing ends the digits. -/
def scanOctal (mem : List Char) : Option (Option Int) :=
  let text := mem.dropWhile isSpace
  let negative := decide (text.head? = some '-')
  let number := if negative || decide (text.head? = some '+') then text.tail else text
  let digits := number.takeWhile isOctal
  if number.dropWhile isOctal = [] then none
  else if digits = [] then some none
  else some (some (storedOctal negative (octalValue digits)))

/-- Whether `strcat` stays in an array of one more than `maxPathLen` characters. -/
def strcatFits (maxPathLen : Nat) (dst : List Char) (src : Text) : Bool :=
  match dst.findIdx? (· = nul) with
  | some k => decide (k + src.length ≤ maxPathLen)
  | none => false

/-! ## The unpacker -/

/-- What `snprintf` makes of the mount path, a slash if the mount path does not end with one, and the
name. -/
def joinPath (mountPath name : Text) : Text :=
  mountPath ++ (if mountPath.getLast? = some '/' then [] else ['/']) ++ name

/-- What the unpacker does about a header. -/
inductive HeaderAction where
  | stop
  | tooBigPath
  | entry (type : TypeFlag) (path : Text) (fileLen : Int)
deriving DecidableEq

/-- The size comes first, then the name, then the length of the whole path. -/
def headerAction (maxPathLen : Nat) (mountPath : Text) (block : List Char) : Option HeaderAction :=
  (scanOctal (block.drop 124)).bind fun fileLen =>
    match fileLen with
    | none => some .stop
    | some fileLen =>
        (cString block).map fun filename =>
          if filename = [] then .stop
          else if maxPathLen < (joinPath mountPath filename).length then .tooBigPath
          else .entry (if block[156]? = some '5' then .dir else .file) (joinPath mountPath filename)
            fileLen

section UnpackTar

variable {σ : Type*} (maxPathLen : Nat) (read : σ → Except Errno (List Char) × σ)
  (extract : σ → TypeFlag → Text → Int → Option (Int × σ))

/-- The loop over the headers, with the entries counted so far. -/
def unpackLoop (mountPath : Text) : Nat → Int → σ → Option (Int × σ)
  | 0, _, _ => none
  | fuel + 1, count, s =>
      match read s with
      | (.error _, s) => some (-eUnpackStateNotImplemented, s)
      | (.ok block, s) =>
          if block = [] then some (count, s)
          else if block.length ≠ blockSize then some (-eUnpackStateNotImplemented, s)
          else
            (headerAction maxPathLen mountPath block).bind fun action =>
              match action with
              | .stop => some (count, s)
              | .tooBigPath => some (-eUnpackToBigPath, s)
              | .entry type path fileLen =>
                  (extract s type path fileLen).bind fun r =>
                    if r.1 = 0 then unpackLoop mountPath fuel (count + 1) r.2 else some (-1, r.2)

/-- `dstFilename` is the buffer for the path as it is found on the stack. -/
def unpackTar (dstFilename : Vector Char (maxPathLen + 1)) (mountPath : Text) (fuel : Nat) (s : σ) :
    Option (Int × σ) :=
  if strcatFits maxPathLen dstFilename.toList mountPath then
    unpackLoop maxPathLen read extract mountPath fuel 0 s
  else none

end UnpackTar

/-! ## Legal headers -/

/-- A number with its terminator, maybe behind blanks. -/
def TerminatedOctal (field : List Char) (n : Nat) : Prop :=
  ∃ pad digits terminator rest, field = pad ++ digits ++ terminator :: rest ∧
    (∀ c ∈ pad, c = ' ') ∧ digits ≠ [] ∧ (∀ c ∈ digits, isOctal c = true) ∧
    (terminator = nul ∨ terminator = ' ') ∧ octalValue digits = n

/-- A field of fixed width, without its padding. -/
def fieldText (field : List Char) : Text := field.takeWhile (· ≠ nul)

def nameField (block : List Char) : Text := fieldText (block.take 100)

def prefixField (block : List Char) : Text := fieldText ((block.drop 345).take 155)

/-- The name that the two fields spell. -/
def specName (block : List Char) : Text :=
  if prefixField block = [] then nameField block else prefixField block ++ '/' :: nameField block

/-- What follows the name field, up to a NUL. -/
def leak (block : List Char) : Text := fieldText (block.drop 100)

/-- The string from the start of the header on spells the name: the prefix is empty and the name field
ends, or nothing follows it; or else what follows the field happens to complete the name. -/
def NameTaken (block : List Char) : Prop :=
  if prefixField block = [] then (nameField block).length < 100 ∨ leak block = []
  else (nameField block).length = 100 ∧
    nameField block ++ leak block = prefixField block ++ '/' :: nameField block

structure LegalHeader (block : List Char) : Prop where
  length_eq : block.length = blockSize
  named : block.head? ≠ some nul
  size : ∃ n, TerminatedOctal ((block.drop 124).take 12) n
  magic : (block.drop 257).take 6 = ['u', 's', 't', 'a', 'r', nul]

section Lemmas

variable {block : List Char} {mountPath : Text} {maxPathLen : Nat}

private theorem isOctal_spec {c : Char} (h : isOctal c = true) : isSpace c = false ∧ c ≠ '-' ∧ c ≠ '+' := by
  refine ⟨?_, ?_, ?_⟩
  · by_contra hspace
    rw [Bool.not_eq_false, isSpace] at hspace
    simp only [Bool.or_eq_true, decide_eq_true_eq] at hspace
    rcases hspace with ((((rfl | rfl) | rfl) | rfl) | rfl) | rfl
    all_goals exact absurd h (by decide)
  · rintro rfl
    exact absurd h (by decide)
  · rintro rfl
    exact absurd h (by decide)

private theorem isOctal_terminator {c : Char} (h : c = nul ∨ c = ' ') : isOctal c = false := by
  rcases h with rfl | rfl
  · decide
  · decide

theorem scanOctal_of_terminated {field mem : List Char} {n : Nat} (hfield : field <+: mem)
    (h : TerminatedOctal field n) : scanOctal mem = some (some (storedOctal false n)) := by
  obtain ⟨pad, digits, terminator, rest, rfl, hpad, hne, hdigits, hterm, hvalue⟩ := h
  obtain ⟨more, rfl⟩ := hfield
  obtain ⟨d, ds, rfl⟩ := List.exists_cons_of_ne_nil hne
  obtain ⟨hspace, hminus, hplus⟩ := isOctal_spec (hdigits d List.mem_cons_self)
  have hterm' := isOctal_terminator hterm
  have htext : (pad ++ d :: ds ++ terminator :: rest ++ more).dropWhile isSpace =
      d :: ds ++ terminator :: (rest ++ more) := by
    rw [List.append_assoc, List.append_assoc, List.dropWhile_append_of_pos]
    · rw [List.cons_append, List.dropWhile_cons_of_neg (by rw [hspace]; exact Bool.false_ne_true)]
      rfl
    · intro c hc
      rw [hpad c hc]
      rfl
  have htake : (d :: ds ++ terminator :: (rest ++ more)).takeWhile isOctal = d :: ds := by
    rw [List.takeWhile_append_of_pos hdigits,
      List.takeWhile_cons_of_neg (by rw [hterm']; exact Bool.false_ne_true), List.append_nil]
  have hdrop : (d :: ds ++ terminator :: (rest ++ more)).dropWhile isOctal =
      terminator :: (rest ++ more) := by
    rw [List.dropWhile_append_of_pos hdigits,
      List.dropWhile_cons_of_neg (by rw [hterm']; exact Bool.false_ne_true)]
  have hhead : (d :: ds ++ terminator :: (rest ++ more)).head? = some d := rfl
  have hsigns : decide (some d = some '-') = false ∧ decide (some d = some '+') = false := by
    simp only [Option.some.injEq, decide_eq_false_iff_not]
    exact ⟨hminus, hplus⟩
  simp only [scanOctal, htext, hhead, hsigns.1, hsigns.2, Bool.or_self, Bool.false_eq_true, if_false,
    htake, hdrop, reduceCtorEq, hvalue]

theorem storedOctal_of_lt {n : Nat} (h : n < 2 ^ 31) : storedOctal false n = n := by
  have hword : ¬ 2 ^ 32 ≤ n := by omega
  simp only [storedOctal, hword, if_false, Bool.false_eq_true, h, if_true]

private theorem joinPath_inj {a b : Text} : joinPath mountPath a = joinPath mountPath b ↔ a = b := by
  rw [joinPath, joinPath, List.append_cancel_left_eq]

private theorem LegalHeader.cString (h : LegalHeader block) :
    cString block = some (block.takeWhile (· ≠ nul)) ∧ block.takeWhile (· ≠ nul) ≠ [] := by
  constructor
  · rw [Unpack.cString, if_pos]
    apply List.mem_of_mem_drop (i := 257)
    apply List.mem_of_mem_take (i := 6)
    rw [h.magic]
    decide
  · have hlen := h.length_eq
    have hnamed := h.named
    cases block with
    | nil => cases hlen
    | cons c cs =>
        have hc : c ≠ nul := by
          intro he
          exact hnamed (by rw [he]; rfl)
        rw [List.takeWhile_cons_of_pos (by simpa using hc)]
        exact List.cons_ne_nil _ _

private theorem LegalHeader.headerAction (h : LegalHeader block) (maxPathLen : Nat) (mountPath : Text) :
    ∃ type fileLen, headerAction maxPathLen mountPath block = some
      (if maxPathLen < (joinPath mountPath (block.takeWhile (· ≠ nul))).length then .tooBigPath
        else .entry type (joinPath mountPath (block.takeWhile (· ≠ nul))) fileLen) := by
  obtain ⟨n, hn⟩ := h.size
  obtain ⟨hstring, hne⟩ := h.cString
  have hsize := scanOctal_of_terminated (List.take_prefix 12 (block.drop 124)) hn
  refine ⟨if block[156]? = some '5' then .dir else .file, storedOctal false n, ?_⟩
  simp only [Unpack.headerAction, hsize, Option.bind_some, hstring, Option.map_some, hne, if_false]

theorem length_nameField_le (block : List Char) : (nameField block).length ≤ 100 :=
  Nat.le_trans (List.takeWhile_sublist _).length_le (List.length_take_le 100 block)

private theorem takeWhile_eq (h : 100 ≤ block.length) :
    block.takeWhile (· ≠ nul) =
      if (nameField block).length < 100 then nameField block else nameField block ++ leak block := by
  have hlen : (block.take 100).length = 100 := by rw [List.length_take, Nat.min_eq_left h]
  have hle := length_nameField_le block
  have hsplit := @List.takeWhile_append _ (fun c => decide (c ≠ nul)) (block.take 100) (block.drop 100)
  rw [List.take_append_drop, hlen] at hsplit
  change _ = if (nameField block).length = 100 then block.take 100 ++ leak block
    else nameField block at hsplit
  rw [hsplit]
  by_cases hfull : (nameField block).length = 100
  · have hname : nameField block = block.take 100 :=
      (List.takeWhile_prefix _).eq_of_length (hfull.trans hlen.symm)
    rw [if_pos hfull, if_neg (by omega), hname]
  · rw [if_neg hfull, if_pos (by omega)]

private theorem nameTaken_iff (h : 100 ≤ block.length) :
    block.takeWhile (· ≠ nul) = specName block ↔ NameTaken block := by
  have hle := length_nameField_le block
  rw [takeWhile_eq h, specName, NameTaken]
  by_cases hprefix : prefixField block = []
  · rw [if_pos hprefix, if_pos hprefix]
    by_cases hshort : (nameField block).length < 100
    · simp only [hshort, if_true, true_or]
    · simp only [hshort, if_false, false_or, List.append_right_eq_self]
  · rw [if_neg hprefix, if_neg hprefix]
    by_cases hshort : (nameField block).length < 100
    · rw [if_pos hshort]
      constructor
      · -- the name alone is shorter than the prefix and the name
        intro heq
        have hlens := congrArg List.length heq
        rw [List.length_append, List.length_cons] at hlens
        omega
      · intro hcomplete
        omega
    · rw [if_neg hshort]
      exact (and_iff_right (by omega)).symm

private theorem unpackLoop_header {σ : Type*} {read : σ → Except Errno (List Char) × σ}
    {extract : σ → TypeFlag → Text → Int → Option (Int × σ)} {s s₁ : σ} (h : LegalHeader block)
    (hread : read s = (.ok block, s₁)) (mountPath : Text) (fuel : Nat) (count : Int) :
    ∃ type fileLen, unpackLoop maxPathLen read extract mountPath (fuel + 1) count s =
      if maxPathLen < (joinPath mountPath (block.takeWhile (· ≠ nul))).length then
        some (-eUnpackToBigPath, s₁)
      else
        (extract s₁ type (joinPath mountPath (block.takeWhile (· ≠ nul))) fileLen).bind fun r =>
          if r.1 = 0 then unpackLoop maxPathLen read extract mountPath fuel (count + 1) r.2
          else some (-1, r.2) := by
  obtain ⟨type, fileLen, haction⟩ := h.headerAction maxPathLen mountPath
  have hne : block ≠ [] := by
    intro hnil
    have hlen := h.length_eq
    rw [hnil] at hlen
    cases hlen
  refine ⟨type, fileLen, ?_⟩
  rw [unpackLoop, hread]
  simp only [hne, h.length_eq, haction, Option.bind_some, ne_eq, not_true_eq_false, if_false]
  by_cases hbig : maxPathLen < (joinPath mountPath (block.takeWhile (· ≠ nul))).length
  · simp only [hbig, if_true]
  · simp only [hbig, if_false]

end Lemmas

/-- The mount path fits its buffer, and for the header, wherever it stands in an archive, the unpacker
calls `extract_entry` with the path that it spells, or refuses the path for its length. -/
def PassesPath (maxPathLen : Nat) (dstFilename : Vector Char (maxPathLen + 1)) (mountPath : Text)
    (block : List Char) : Prop :=
  ∀ (σ : Type) (read : σ → Except Errno (List Char) × σ)
    (extract : σ → TypeFlag → Text → Int → Option (Int × σ)) (s s₁ : σ) (fuel : Nat) (count : Int),
    read s = (.ok block, s₁) →
      unpackTar maxPathLen read extract dstFilename mountPath (fuel + 1) s =
          unpackLoop maxPathLen read extract mountPath (fuel + 1) 0 s ∧
        if maxPathLen < (joinPath mountPath (specName block)).length then
          unpackLoop maxPathLen read extract mountPath (fuel + 1) count s =
            some (-eUnpackToBigPath, s₁)
        else
          ∃ type fileLen, unpackLoop maxPathLen read extract mountPath (fuel + 1) count s =
            (extract s₁ type (joinPath mountPath (specName block)) fileLen).bind fun r =>
              if r.1 = 0 then unpackLoop maxPathLen read extract mountPath fuel (count + 1) r.2
              else some (-1, r.2)

/-- An observer that keeps the path it is given, and fails. -/
def keepPath : Option Text → TypeFlag → Text → Int → Option (Int × Option Text) :=
  fun _ _ path _ => some (-1, some path)

/-- The right path is passed exactly if the mount path fits behind what is found on the stack, and the
name is the one the fields spell, or both paths are too long. -/
theorem passesPath_iff (maxPathLen : Nat) (dstFilename : Vector Char (maxPathLen + 1))
    (mountPath : Text) (block : List Char) (h : LegalHeader block) :
    PassesPath maxPathLen dstFilename mountPath block ↔
      strcatFits maxPathLen dstFilename.toList mountPath = true ∧
        (NameTaken block ∨
          (maxPathLen < (joinPath mountPath (specName block)).length ∧
            maxPathLen < (joinPath mountPath (block.takeWhile (· ≠ nul))).length)) := by
  have hlen : 100 ≤ block.length := by
    rw [h.length_eq, blockSize]
    omega
  have htaken := nameTaken_iff hlen
  constructor
  · intro hpass
    obtain ⟨htar, hkept⟩ := hpass (Option Text) (fun _ => (.ok block, none)) keepPath none none 0 0 rfl
    have hfirst : ∃ type fileLen, unpackLoop maxPathLen (fun _ => (.ok block, none)) keepPath mountPath
        1 0 none = _ := unpackLoop_header h rfl mountPath 0 0
    obtain ⟨type, fileLen, hrun⟩ := hfirst
    rw [hrun] at hkept htar
    have hfits : strcatFits maxPathLen dstFilename.toList mountPath = true := by
      by_contra hover
      rw [unpackTar, if_neg hover] at htar
      split at htar <;> cases htar
    refine ⟨hfits, ?_⟩
    by_cases hspec : maxPathLen < (joinPath mountPath (specName block)).length
    · rw [if_pos hspec] at hkept
      by_cases hraw : maxPathLen < (joinPath mountPath (block.takeWhile (· ≠ nul))).length
      · exact Or.inr ⟨hspec, hraw⟩
      · rw [if_neg hraw] at hkept
        cases hkept
    · rw [if_neg hspec] at hkept
      obtain ⟨type', fileLen', hkept⟩ := hkept
      by_cases hraw : maxPathLen < (joinPath mountPath (block.takeWhile (· ≠ nul))).length
      · rw [if_pos hraw] at hkept
        cases hkept
      · rw [if_neg hraw] at hkept
        -- both observers have failed, each with its own path
        have hpaths : some (joinPath mountPath (block.takeWhile (· ≠ nul))) =
            some (joinPath mountPath (specName block)) :=
          (Prod.mk.inj (Option.some.inj hkept)).2
        exact Or.inl (htaken.mp (joinPath_inj.mp (Option.some.inj hpaths)))
  · intro hcond
    obtain ⟨hfits, hname⟩ := hcond
    intro σ read extract s s₁ fuel count hread
    refine ⟨by rw [unpackTar, if_pos hfits], ?_⟩
    obtain ⟨type, fileLen, hrun⟩ := unpackLoop_header h hread mountPath fuel count
    rw [hrun]
    rcases hname with hname | ⟨hspec, hraw⟩
    · rw [htaken.mpr hname]
      split
      · rfl
      · exact ⟨type, fileLen, rfl⟩
    · rw [if_pos hspec, if_pos hraw]

/-- A text in a field of fixed width. -/
def padded (text : Text) (width : Nat) : List Char :=
  text ++ List.replicate (width - text.length) nul

/-- A header with the fields that are read. -/
def ustarHeader (name size typeflag pre : Text) : List Char :=
  padded name 100 ++ padded "0000644".toList 8 ++ padded [] 16 ++ padded size 12 ++ padded [] 20 ++
    padded typeflag 1 ++ padded [] 100 ++ padded "ustar".toList 6 ++ "00".toList ++ padded [] 80 ++
    padded pre 155 ++ padded [] 12

/-- The path of a short name in one field is passed as it should be. -/
theorem passesPath_shortName :
    PassesPath 4096 (Vector.replicate 4097 nul) "/mnt".toList
      (ustarHeader "f".toList "00000000001".toList ['0'] []) := by
  apply (passesPath_iff 4096 (Vector.replicate 4097 nul) "/mnt".toList _ _).mpr
  · refine ⟨by decide, Or.inl ?_⟩
    rw [NameTaken, if_pos (by decide)]
    exact Or.inl (by decide)
  · exact ⟨by decide +kernel, by decide +kernel,
      ⟨1, [], "00000000001".toList, nul, [], by decide, List.forall_mem_nil _, by decide,
        List.all_eq_true.mp (by decide), Or.inl rfl, by decide⟩, by decide⟩

/-- The prefix is not looked at: the name `dir/f` is extracted as `f`. -/
theorem passesPath_drops_prefix :
    ¬ PassesPath 4096 (Vector.replicate 4097 nul) "/mnt".toList
      (ustarHeader "f".toList "00000000001".toList ['0'] "dir".toList) := by
  intro h
  have hkept := (h (Option Text) (fun _ => (.ok _, none)) keepPath none none 0 0 rfl).2
  rw [if_neg (by decide)] at hkept
  obtain ⟨type, fileLen, hkept⟩ := hkept
  have hrun : unpackLoop 4096 (fun _ => (.ok (ustarHeader "f".toList "00000000001".toList ['0']
      "dir".toList), none)) keepPath "/mnt".toList 1 0 none =
        some (-1, some "/mnt/f".toList) := by decide +kernel
  rw [hrun] at hkept
  have hpaths : some "/mnt/f".toList = some (joinPath "/mnt".toList (specName (ustarHeader "f".toList
      "00000000001".toList ['0'] "dir".toList))) := (Prod.mk.inj (Option.some.inj hkept)).2
  exact absurd hpaths (by decide)

end Zrt.Unpack
