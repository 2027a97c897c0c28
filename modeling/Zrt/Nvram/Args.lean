import Mathlib.Algebra.Order.BigOperators.Group.List
import Mathlib.Algebra.Order.Ring.Nat
import Zrt.Nvram.Grammar
import Zrt.Nvram.Loader
import Zrt.Nvram.Unescape

/-!
# Command line arguments

The value of an `[args]` record is split at its blanks, an empty argument being a pair of double
quotes. Each piece is unescaped into a buffer behind the ones before it, with a terminator, and the
arguments are then collected from the terminators in the buffer.
-/

namespace Zrt.Nvram

/-- `SAVE_PARSED_ARG`: the argument is stored and the pointer reset, unless the array is full. -/
def saveParsedArg (arrayLen : Nat) (saved : List Text) (parsed : Text) (val : Option Nat) :
    List Text × Option Nat :=
  if saved.length < arrayLen then (saved ++ [parsed], none) else (saved, val)

/-- The loop over the bytes from `index` on, `skip` of which are passed at once. `val` is the
offset of the argument being read. -/
def parseArgsLoop (arrayLen : Nat) (argsBuf : Text) :
    Text → Nat → Nat → Option Nat → List Text → List Text
  | [], index, _, val, saved =>
      match val with
      | none => saved
      | some start =>
          (saveParsedArg arrayLen saved ((argsBuf.drop start).take (index - start)) val).1
  | _ :: rest, index, skip + 1, val, saved =>
      parseArgsLoop arrayLen argsBuf rest (index + 1) skip val saved
  | c :: rest, index, 0, val, saved =>
      if c = ' ' ∨ c = '\t' then
        match val with
        | none => parseArgsLoop arrayLen argsBuf rest (index + 1) 0 none saved
        | some start =>
            let (saved', val') :=
              saveParsedArg arrayLen saved ((argsBuf.drop start).take (index - start)) val
            parseArgsLoop arrayLen argsBuf rest (index + 1) 0 val' saved'
      else if c = '"' ∧ val = none ∧ rest ≠ [] then
        -- up to the next quote, or to the terminator behind the text
        let vallen := (rest.takeWhile fun d => d ≠ '"' ∧ d ≠ nul).length
        let (saved', val') := saveParsedArg arrayLen saved (rest.take vallen) (some (index + 1))
        parseArgsLoop arrayLen argsBuf rest (index + 1) (vallen + 1) val' saved'
      else parseArgsLoop arrayLen argsBuf rest (index + 1) 0 (some (val.getD index)) saved

def parseConfigArgs (arrayLen : Nat) (argsBuf : Text) : List Text :=
  parseArgsLoop arrayLen argsBuf argsBuf 0 0 none []

/-- Unescape the arguments into the buffer; the terminator is written twice. -/
def placeArgs (uninit : Nat → Uninit) : Text → Nat → List Text → Option (Text × Nat)
  | dest, index, [] => some (dest, index)
  | dest, index, arg :: args =>
      (unescapeStringCopyToDest uninit arg dest index).bind fun (dest', length) =>
        (store dest' (index + length) [nul]).bind fun dest'' =>
          placeArgs uninit dest'' (index + length + 1) args

def parseTransformAndPlaceIntoBuf (uninit : Nat → Uninit) (dest : Text) (index : Nat)
    (source : Text) : Option (Text × Nat) :=
  if index + source.length < dest.length then
    placeArgs uninit dest index (parseConfigArgs nvramMaxRecordsInSection source)
  else some (dest, index)

/-- Every record is handled with the buffer and the index that the records before it left. -/
def handleArgRecords (uninit : Nat → Uninit) :
    Text → Nat → List ParsedRecord → Option (Text × Nat)
  | buffer, index, [] => some (buffer, index)
  | buffer, index, record :: records =>
      (record.head?.bind id).bind fun argval =>
        (parseTransformAndPlaceIntoBuf uninit buffer index argval).bind fun (buffer', index') =>
          handleArgRecords uninit buffer' index' records

/-- Offsets of the arguments whose terminators are found, `handledBufIdx` being that of the next. -/
def argOffsets : Nat → Text → Nat → Nat → List Nat
  | 0, _, _, _ => []
  | _ + 1, [], _, _ => []
  | room + 1, c :: buf, i, handledBufIdx =>
      if c = nul then handledBufIdx :: argOffsets room buf (i + 1) (i + 1)
      else argOffsets (room + 1) buf (i + 1) handledBufIdx

/-- The string at an offset of the buffer. -/
def stringAt (buf : Text) (offset : Nat) : Text := (buf.drop offset).takeWhile fun c => c ≠ nul

def getArgArray (buf : Text) (bufsize : Nat) : List Text :=
  (argOffsets nvramMaxRecordsInSection (buf.take bufsize) 0 0).map (stringAt buf)

def stubArg0 : Text := ['s', 't', 'u', 'b']

/-- The buffer size that `read_get_args_envs` computes from the records of the section. -/
def argsBufSize (records : List ParsedRecord) : Nat :=
  (records.map fun r => (r.map fun v => (v.getD []).length + 1).sum + 1).sum + stubArg0.length +
    nvramMaxRecordsInSection

def nvramGetArgs (uninit : Nat → Uninit) (argsBuf : Text) (records : List ParsedRecord) :
    Option (List Text) :=
  (handleArgRecords uninit argsBuf 0 records).map fun (buffer, index) => getArgArray buffer index

/-- Bytes as the configuration prescribes to write them: letters and digits as they are, any other
byte as an escape sequence. -/
inductive Escaped : Text → Text → Prop
  | nil : Escaped [] []
  | plain (c : Char) (s e : Text) : c.isAlphanum → Escaped s e → Escaped (c :: s) (c :: e)
  | hex (c h l : Char) (x y : Nat) (s e : Text) : ¬ c.isAlphanum → hexValue h = some x →
      hexValue l = some y → c.toNat = 16 * x + y → Escaped s e →
      Escaped (c :: s) ('\\' :: 'x' :: h :: l :: e)

def emptyArg : Text := ['"', '"']

/-- An argument and what is written for it. -/
def WrittenArg (s e : Text) : Prop := (s = [] ∧ e = emptyArg) ∨ (s ≠ [] ∧ Escaped s e)

def hexDigit (n : Nat) : Char := if n < 10 then Char.ofNat (48 + n) else Char.ofNat (55 + n)

def escapeChar (c : Char) : Text :=
  if c.isAlphanum then [c] else ['\\', 'x', hexDigit (c.toNat / 16), hexDigit (c.toNat % 16)]

/-- One way of writing an argument. -/
def writeArg (s : Text) : Text := if s = [] then emptyArg else s.flatMap escapeChar

/-- Blanks around the key and the value of a line. -/
structure ArgsLine where
  indent : Text
  beforeDelimiter : Text
  afterDelimiter : Text
  trailing : Text
  blank : ∀ c ∈ indent ++ beforeDelimiter ++ afterDelimiter ++ trailing, c = ' ' ∨ c = '\t'

def argsKey : Text := ['a', 'r', 'g', 's']

def ArgsLine.text (line : ArgsLine) (value : Text) : Text :=
  line.indent ++ argsKey ++ line.beforeDelimiter ++
    '=' :: (line.afterDelimiter ++ value ++ line.trailing)

def argsHeader : Text := ['[', 'a', 'r', 'g', 's', ']']

/-- The section with one line, which may end the text. -/
def argsSection (line : ArgsLine) (lineEnd : Bool) (value : Text) : Text :=
  argsHeader ++ '\n' :: (line.text value ++ if lineEnd then ['\n'] else [])

def joinArgs (es : List Text) : Text := [' '].intercalate es

private theorem hexValue_isAlphanum {c : Char} {x : Nat} (h : hexValue c = some x) : c.isAlphanum := by
  rw [hexValue] at h
  split at h
  · rename_i hc
    have hdigit : c.isDigit = true :=
      Bool.and_eq_true_iff.mpr ⟨decide_eq_true hc.1, decide_eq_true hc.2⟩
    exact Bool.or_eq_true_iff.mpr (Or.inr hdigit)
  · split at h
    · rename_i hc
      have hz : c.val ≤ 122 := Nat.le_trans hc.2 (by decide)
      have hlower : c.isLower = true :=
        Bool.and_eq_true_iff.mpr ⟨decide_eq_true hc.1, decide_eq_true hz⟩
      exact Bool.or_eq_true_iff.mpr (Or.inl (Bool.or_eq_true_iff.mpr (Or.inr hlower)))
    · split at h
      · rename_i hc
        have hz : c.val ≤ 90 := Nat.le_trans hc.2 (by decide)
        have hupper : c.isUpper = true := decide_eq_true ⟨hc.1, hz⟩
        exact Bool.or_eq_true_iff.mpr (Or.inl (Bool.or_eq_true_iff.mpr (Or.inl hupper)))
      · exact absurd h (by simp)

namespace Escaped

variable {s e : Text}

theorem mem (h : Escaped s e) : ∀ c ∈ e, c.isAlphanum ∨ c = '\\' := by
  induction h with
  | nil => simp
  | plain c s e hc _ ih =>
      intro d hd
      rcases List.mem_cons.mp hd with rfl | hd
      · exact Or.inl hc
      · exact ih d hd
  | hex c h l x y s e _ hh hl _ _ ih =>
      intro d hd
      simp only [List.mem_cons] at hd
      rcases hd with rfl | rfl | rfl | rfl | hd
      · exact Or.inr rfl
      · exact Or.inl (by decide)
      · exact Or.inl (hexValue_isAlphanum hh)
      · exact Or.inl (hexValue_isAlphanum hl)
      · exact ih d hd

private theorem unescape (h : Escaped s e) (uninit : Nat → Uninit) (index : Nat) :
    unescapeString uninit index e = s := by
  induction h generalizing index with
  | nil => exact unescapeString_nil uninit index
  | plain c s e hc _ ih =>
      have hne : c ≠ '\\' := by
        rintro rfl
        exact absurd hc (by decide)
      rw [unescapeString_of_ne uninit index hne, ih]
  | hex c h l x y s e _ hh hl hc _ ih =>
      rw [unescapeString_sequence, strHexToInt_digits _ hh hl, ← hc, Char.ofNat_toNat, ih]

theorem length_le (h : Escaped s e) : s.length ≤ e.length := by
  induction h with
  | nil => exact Nat.le_refl _
  | plain c s e _ _ ih => exact Nat.succ_le_succ ih
  | hex c h l x y s e _ _ _ _ _ ih =>
      simp only [List.length_cons]
      omega

end Escaped

private theorem hexValue_hexDigit : ∀ n, n < 16 → hexValue (hexDigit n) = some n := by decide

private theorem escaped_flatMap (s : Text) (hbyte : ∀ c ∈ s, c.toNat < 256) :
    Escaped s (s.flatMap escapeChar) := by
  induction s with
  | nil => exact .nil
  | cons c s ih =>
      have hrest := ih fun d hd => hbyte d (List.mem_cons_of_mem _ hd)
      have hc := hbyte c List.mem_cons_self
      rw [List.flatMap_cons, escapeChar]
      split
      · rename_i halnum
        exact .plain c s _ halnum hrest
      · rename_i halnum
        exact .hex c _ _ _ _ s _ halnum (hexValue_hexDigit _ (by omega))
          (hexValue_hexDigit _ (by omega)) (by omega) hrest

private theorem writtenArg_writeArg (s : Text) (hbyte : ∀ c ∈ s, c.toNat < 256) :
    WrittenArg s (writeArg s) := by
  rw [writeArg]
  split
  · rename_i hs
    exact Or.inl ⟨hs, rfl⟩
  · rename_i hs
    exact Or.inr ⟨hs, escaped_flatMap s hbyte⟩

/-- The piece of the value that is read for what is written. -/
def argToken (e : Text) : Text := if e = emptyArg then [] else e

namespace WrittenArg

variable {s e : Text}

theorem mem (h : WrittenArg s e) : ∀ c ∈ e, c.isAlphanum ∨ c = '\\' ∨ c = '"' := by
  rcases h with ⟨-, rfl⟩ | ⟨-, h⟩
  · simp [emptyArg]
  · intro c hc
    exact (h.mem c hc).imp_right Or.inl

theorem ne_nil (h : WrittenArg s e) : e ≠ [] := by
  rcases h with ⟨-, rfl⟩ | ⟨hs, h⟩
  · simp [emptyArg]
  · rintro rfl
    exact hs (List.eq_nil_of_length_eq_zero (Nat.le_zero.mp h.length_le))

private theorem unescape (h : WrittenArg s e) (uninit : Nat → Uninit) (index : Nat) :
    unescapeString uninit index (argToken e) = s := by
  rcases h with ⟨rfl, rfl⟩ | ⟨-, h⟩
  · exact unescapeString_nil uninit index
  · have hne : e ≠ emptyArg := by
      rintro rfl
      exact absurd (h.mem '"' (by simp [emptyArg])) (by decide)
    rw [argToken, if_neg hne]
    exact h.unescape uninit index

private theorem length_le (h : WrittenArg s e) : s.length ≤ e.length := by
  rcases h with ⟨rfl, rfl⟩ | ⟨-, h⟩
  · simp
  · exact h.length_le

end WrittenArg

section Splitting

variable (arrayLen : Nat) (argsBuf : Text)

private theorem parseArgsLoop_word (w rest : Text) (index start : Nat) (saved : List Text)
    (hw : ∀ c ∈ w, c ≠ ' ' ∧ c ≠ '\t') :
    parseArgsLoop arrayLen argsBuf (w ++ rest) index 0 (some start) saved =
      parseArgsLoop arrayLen argsBuf rest (index + w.length) 0 (some start) saved := by
  induction w generalizing index with
  | nil => rfl
  | cons c w ih =>
      have hc := hw c List.mem_cons_self
      rw [List.cons_append, parseArgsLoop, if_neg (by simp [hc]), if_neg (by simp),
        Option.getD_some, ih _ fun d hd => hw d (List.mem_cons_of_mem _ hd), List.length_cons]
      congr 1
      omega

private theorem parseArgsLoop_quotes (rest : Text) (index : Nat) (saved : List Text)
    (hroom : saved.length < arrayLen) :
    parseArgsLoop arrayLen argsBuf (emptyArg ++ rest) index 0 none saved =
      parseArgsLoop arrayLen argsBuf rest (index + 2) 0 none (saved ++ [[]]) := by
  rw [emptyArg, List.cons_append, parseArgsLoop, if_neg (by decide), if_pos (by simp)]
  simp [saveParsedArg, hroom, parseArgsLoop]

private theorem parseArgsLoop_arg {s e : Text} (h : WrittenArg s e) (pre : Text) (saved : List Text)
    (hroom : saved.length < arrayLen) (rest : Text) (hbuf : argsBuf = pre ++ (e ++ rest)) :
    (rest = [] → parseArgsLoop arrayLen argsBuf e pre.length 0 none saved =
      saved ++ [argToken e]) ∧
    ∀ r, rest = ' ' :: r → parseArgsLoop arrayLen argsBuf (e ++ rest) pre.length 0 none saved =
      parseArgsLoop arrayLen argsBuf r (pre ++ e ++ [' ']).length 0 none
        (saved ++ [argToken e]) := by
  rcases h with ⟨rfl, rfl⟩ | ⟨hs, h⟩
  · have hquotes := parseArgsLoop_quotes arrayLen argsBuf
    constructor
    · intro _
      have := hquotes [] pre.length saved hroom
      rw [List.append_nil] at this
      rw [this]
      rfl
    · rintro r rfl
      rw [hquotes _ pre.length saved hroom, parseArgsLoop, if_pos (Or.inl rfl)]
      simp [emptyArg, argToken]
  · have hne : e ≠ emptyArg := by
      rintro rfl
      exact absurd (h.mem '"' (by simp [emptyArg])) (by decide)
    have hmem : ∀ c ∈ e, c ≠ ' ' ∧ c ≠ '\t' ∧ c ≠ '"' := by
      intro c hc
      rcases h.mem c hc with hc | rfl
      · refine ⟨?_, ?_, ?_⟩ <;> rintro rfl <;> exact absurd hc (by decide)
      · decide
    obtain ⟨c, w, rfl⟩ := List.exists_cons_of_ne_nil (WrittenArg.ne_nil (Or.inr ⟨hs, h⟩))
    have hc := hmem c List.mem_cons_self
    have hword (rest : Text) :
        parseArgsLoop arrayLen argsBuf (c :: w ++ rest) pre.length 0 none saved =
          parseArgsLoop arrayLen argsBuf rest (pre ++ c :: w).length 0 (some pre.length) saved := by
      rw [List.cons_append, parseArgsLoop, if_neg (by simp [hc]), if_neg (by simp [hc]),
        Option.getD_none, parseArgsLoop_word _ _ _ _ _ _ _ fun d hd =>
          ⟨(hmem d (List.mem_cons_of_mem _ hd)).1, (hmem d (List.mem_cons_of_mem _ hd)).2.1⟩]
      congr 1
      simp only [List.length_append, List.length_cons]
      omega
    have hslice : (argsBuf.drop pre.length).take ((pre ++ c :: w).length - pre.length) =
        c :: w := by
      rw [hbuf, List.drop_left' rfl, List.length_append, Nat.add_sub_cancel_left,
        List.take_left' rfl]
    constructor
    · intro _
      have := hword []
      rw [List.append_nil] at this
      rw [this, parseArgsLoop, hslice, saveParsedArg, if_pos hroom, argToken, if_neg hne]
    · rintro r rfl
      rw [hword, parseArgsLoop, if_pos (Or.inl rfl), hslice, saveParsedArg, if_pos hroom, argToken,
        if_neg hne]
      simp [Nat.add_assoc]

theorem joinArgs_cons_cons (e f : Text) (es : List Text) :
    joinArgs (e :: f :: es) = e ++ ' ' :: joinArgs (f :: es) := by
  simp [joinArgs, List.intercalate]

private theorem parseArgsLoop_joinArgs {args es : List Text} (h : List.Forall₂ WrittenArg args es)
    (pre : Text) (saved : List Text) (hroom : saved.length + es.length ≤ arrayLen)
    (hbuf : argsBuf = pre ++ joinArgs es) :
    parseArgsLoop arrayLen argsBuf (joinArgs es) pre.length 0 none saved =
      saved ++ es.map argToken := by
  induction h generalizing pre saved with
  | nil => simp [joinArgs, parseArgsLoop]
  | @cons s e args es hw htail ih =>
      rw [List.length_cons] at hroom
      cases es with
      | nil =>
          have harg := parseArgsLoop_arg arrayLen argsBuf hw pre saved (by omega) []
            (by simpa [joinArgs] using hbuf)
          simpa [joinArgs] using harg.1 rfl
      | cons f es =>
          rw [joinArgs_cons_cons] at hbuf ⊢
          have harg := parseArgsLoop_arg arrayLen argsBuf hw pre saved (by omega) _ hbuf
          rw [harg.2 _ rfl, ih (pre ++ e ++ [' ']) (saved ++ [argToken e])
            (by rw [List.length_append, List.length_singleton]; omega) (by simpa using hbuf)]
          simp

private theorem parseConfigArgs_joinArgs {args es : List Text} (h : List.Forall₂ WrittenArg args es)
    (hroom : es.length ≤ arrayLen) : parseConfigArgs arrayLen (joinArgs es) = es.map argToken := by
  simpa [parseConfigArgs] using
    parseArgsLoop_joinArgs arrayLen (joinArgs es) h [] [] (by simpa using hroom) rfl

end Splitting

/-- The strings one after another, each with its terminator. -/
def terminated (ss : List Text) : Text := ss.flatMap fun s => s ++ [nul]

theorem terminated_cons (s : Text) (ss : List Text) :
    terminated (s :: ss) = s ++ nul :: terminated ss := by
  simp [terminated]

/-- The strings that are placed for the pieces. -/
def placedArgs (uninit : Nat → Uninit) : Nat → List Text → List Text
  | _, [] => []
  | index, t :: ts =>
      unescapeString uninit index t ::
        placedArgs uninit (index + (unescapeString uninit index t).length + 1) ts

theorem placeArgs_spec (uninit : Nat → Uninit) (ts : List Text) (dest : Text) (index : Nat)
    (h : index + (terminated (placedArgs uninit index ts)).length ≤ dest.length) :
    ∃ dest', placeArgs uninit dest index ts =
        some (dest', index + (terminated (placedArgs uninit index ts)).length) ∧
      dest'.length = dest.length ∧
      dest'.take (index + (terminated (placedArgs uninit index ts)).length) =
        dest.take index ++ terminated (placedArgs uninit index ts) := by
  induction ts generalizing dest index with
  | nil => exact ⟨dest, rfl, rfl, by simp [terminated, placedArgs]⟩
  | cons t ts ih =>
      rw [placedArgs, terminated_cons] at h ⊢
      simp only [List.length_append, List.length_cons] at h ⊢
      set u := unescapeString uninit index t with hu
      obtain ⟨d, hd, hdlen, hdtake⟩ := store_spec dest index (u ++ [nul]) (by simp; omega)
      obtain ⟨d', hd', hdlen', hdtake'⟩ := store_spec d (index + u.length) [nul] (by simp; omega)
      obtain ⟨d'', hd'', hdlen'', hdtake''⟩ := ih d' (index + u.length + 1) (by omega)
      have hprefix : d.take (index + u.length) = dest.take index ++ u := by
        have htake := congrArg (List.take (index + u.length)) hdtake
        rw [List.take_take, List.length_append, List.length_singleton,
          Nat.min_eq_left (by omega), ← List.append_assoc, List.take_left'] at htake
        · exact htake
        · rw [List.length_append, List.length_take]
          omega
      have hcopy : unescapeStringCopyToDest uninit t dest index = some (d, u.length) := by
        rw [unescapeStringCopyToDest, ← hu, hd, Option.map_some]
      set rest := terminated (placedArgs uninit (index + u.length + 1) ts)
      have hindex : index + (u.length + (rest.length + 1)) =
          index + u.length + 1 + rest.length := by omega
      refine ⟨d'', ?_, by omega, ?_⟩
      · rw [placeArgs, hcopy, Option.bind_some]
        simp only [hd', Option.bind_some, hd'', hindex]
      · rw [List.length_singleton] at hdtake'
        rw [hindex, hdtake'', hdtake', hprefix]
        simp

private theorem argOffsets_string (room : Nat) (s rest : Text) (i handledBufIdx : Nat) (hnul : nul ∉ s) :
    argOffsets (room + 1) (s ++ nul :: rest) i handledBufIdx =
      handledBufIdx :: argOffsets room rest (i + s.length + 1) (i + s.length + 1) := by
  induction s generalizing i with
  | nil => rw [List.nil_append, argOffsets, if_pos rfl, List.length_nil, Nat.add_zero]
  | cons c s ih =>
      have hc : c ≠ nul := fun h => hnul (by simp [h])
      rw [List.cons_append, argOffsets, if_neg hc, ih _ fun h => hnul (List.mem_cons_of_mem _ h),
        List.length_cons]
      congr 2 <;> omega

private theorem stringAt_append (pre s rest : Text) (hnul : nul ∉ s) :
    stringAt (pre ++ (s ++ nul :: rest)) pre.length = s := by
  rw [stringAt, List.drop_left' rfl, List.takeWhile_append_of_pos fun c hc => by
    simpa using fun h : c = nul => hnul (h ▸ hc)]
  simp

private theorem argOffsets_terminated (ss : List Text) (hnul : ∀ s ∈ ss, nul ∉ s) (room : Nat)
    (hroom : ss.length ≤ room) (pre tail : Text) :
    (argOffsets room (terminated ss) pre.length pre.length).map
      (stringAt (pre ++ (terminated ss ++ tail))) = ss := by
  induction ss generalizing room pre with
  | nil => cases room <;> rfl
  | cons s ss ih =>
      obtain ⟨room, rfl⟩ : ∃ r, room = r + 1 :=
        ⟨room - 1, by rw [List.length_cons] at hroom; omega⟩
      have hs := hnul s List.mem_cons_self
      have hrest := ih (fun t ht => hnul t (List.mem_cons_of_mem _ ht)) room
        (Nat.le_of_succ_le_succ hroom) (pre ++ s ++ [nul])
      have hpos : (pre ++ s ++ [nul]).length = pre.length + s.length + 1 := by simp [Nat.add_assoc]
      have hbuf : pre ++ s ++ [nul] ++ (terminated ss ++ tail) =
          pre ++ (s ++ nul :: (terminated ss ++ tail)) := by simp
      rw [hpos, hbuf] at hrest
      rw [terminated_cons, argOffsets_string room s _ _ _ hs, List.map_cons, List.append_assoc,
        List.cons_append, hrest, stringAt_append pre s _ hs]

theorem getArgArray_terminated (buf : Text) (ss : List Text) (hnul : ∀ s ∈ ss, nul ∉ s)
    (hroom : ss.length ≤ nvramMaxRecordsInSection)
    (hbuf : buf.take (terminated ss).length = terminated ss) :
    getArgArray buf (terminated ss).length = ss := by
  have hsplit : [] ++ (terminated ss ++ buf.drop (terminated ss).length) = buf := by
    rw [List.nil_append, ← hbuf, List.length_take_of_le, List.take_append_drop]
    simpa using congrArg List.length hbuf
  rw [getArgArray, hbuf]
  conv_lhs => rw [← hsplit]
  exact argOffsets_terminated ss hnul _ hroom [] _

section Writing

/-- Bytes that are written for arguments. -/
def IsWritten (c : Char) : Prop := c.isAlphanum ∨ c = '\\' ∨ c = '"'

instance (c : Char) : Decidable (IsWritten c) := inferInstanceAs (Decidable (_ ∨ _))

private theorem IsWritten.not_strip {c : Char} (h : IsWritten c) : isCharToStrip c = false := by
  have hne : c ≠ ' ' ∧ c ≠ '\t' ∧ c ≠ '\n' ∧ c ≠ nul := by
    rcases h with h | rfl | rfl
    · refine ⟨?_, ?_, ?_, ?_⟩ <;> rintro rfl <;> exact absurd h (by decide)
    · decide
    · decide
  simp [isCharToStrip, hne]

variable {args es : List Text}

private theorem mem_joinArgs (h : List.Forall₂ WrittenArg args es) :
    ∀ c ∈ joinArgs es, IsWritten c ∨ c = ' ' := by
  induction h with
  | nil => simp [joinArgs]
  | @cons s e args es hw _ ih =>
      cases es with
      | nil =>
          intro c hc
          exact Or.inl (hw.mem c (by simpa [joinArgs] using hc))
      | cons f es =>
          rw [joinArgs_cons_cons]
          intro c hc
          rcases List.mem_append.mp hc with hc | hc
          · exact Or.inl (hw.mem c hc)
          · rcases List.mem_cons.mp hc with rfl | hc
            · exact Or.inr rfl
            · exact ih c hc

private theorem head_joinArgs (h : List.Forall₂ WrittenArg args es) :
    ∀ c ∈ (joinArgs es).head?, IsWritten c := by
  cases h with
  | nil => simp [joinArgs]
  | @cons s e args fs hw _ =>
      obtain ⟨c, w, rfl⟩ := List.exists_cons_of_ne_nil hw.ne_nil
      have hhead : (joinArgs ((c :: w) :: fs)).head? = some c := by
        cases fs <;> simp [joinArgs, List.intercalate]
      intro d hd
      rw [hhead, Option.mem_some_iff] at hd
      exact hd ▸ hw.mem c List.mem_cons_self

private theorem getLast_joinArgs (h : List.Forall₂ WrittenArg args es) :
    ∀ c ∈ (joinArgs es).getLast?, IsWritten c := by
  induction h with
  | nil => simp [joinArgs]
  | @cons s e args es hw htail ih =>
      cases htail with
      | nil =>
          intro c hc
          exact hw.mem c (List.mem_of_getLast? (by simpa [joinArgs] using hc))
      | @cons t f args es hw' _ =>
          have hne : joinArgs (f :: es) ≠ [] := by
            cases es with
            | nil => simpa [joinArgs] using hw'.ne_nil
            | cons g es => simp [joinArgs_cons_cons]
          rw [joinArgs_cons_cons, List.getLast?_append_of_ne_nil _ (List.cons_ne_nil _ _),
            List.getLast?_cons_of_ne_nil hne]
          exact ih

private theorem trim_eq_self {s : Text} (hhead : ∀ c ∈ s.head?, isCharToStrip c = false)
    (hlast : ∀ c ∈ s.getLast?, isCharToStrip c = false) : trim s = s := by
  cases s with
  | nil => rfl
  | cons c s =>
      rw [trim, List.dropWhile_cons_of_neg (by simp [hhead c rfl])]
      refine List.rdropWhile_eq_self_iff.mpr fun hne => ?_
      simp [hlast _ (List.getLast?_eq_some_getLast hne)]

private theorem trim_joinArgs (h : List.Forall₂ WrittenArg args es) : trim (joinArgs es) = joinArgs es :=
  trim_eq_self (fun c hc => (head_joinArgs h c hc).not_strip)
    fun c hc => (getLast_joinArgs h c hc).not_strip

private theorem fieldPair_delimiter {k v : Text} (hk : '=' ∉ k) :
    fieldPair (k ++ '=' :: v) = some (trim k, trim v) := by
  have hpre : ∀ c ∈ k, decide (c ≠ '=') = true := fun c hc => by
    simpa using fun h : c = '=' => hk (h ▸ hc)
  rw [fieldPair, if_pos (by simp), List.takeWhile_append_of_pos hpre,
    List.dropWhile_append_of_pos hpre]
  simp

namespace ArgsLine

variable (line : ArgsLine)

private theorem allBlank {c : Char} (h : c = ' ' ∨ c = '\t') : isCharToStrip c = true := by
  rcases h with rfl | rfl <;> decide

private theorem fieldPair_text (h : List.Forall₂ WrittenArg args es) :
    fieldPair (line.text (joinArgs es)) = some (argsKey, joinArgs es) := by
  have hblank := line.blank
  simp only [List.mem_append] at hblank
  have hkey : '=' ∉ line.indent ++ argsKey ++ line.beforeDelimiter := by
    intro hmem
    simp only [List.mem_append] at hmem
    rcases hmem with (hmem | hmem) | hmem
    · exact absurd (hblank '=' (by simp [hmem])) (by decide)
    · exact absurd hmem (by decide)
    · exact absurd (hblank '=' (by simp [hmem])) (by decide)
  rw [text, fieldPair_delimiter hkey,
    trim_append_right _ _ fun c hc => allBlank (hblank c (by simp [hc])),
    trim_append_left _ _ fun c hc => allBlank (hblank c (by simp [hc])),
    trim_append_right _ _ fun c hc => allBlank (hblank c (by simp [hc])),
    trim_append_left _ _ fun c hc => allBlank (hblank c (by simp [hc])), trim_joinArgs h]
  rfl

private theorem mem_text (h : List.Forall₂ WrittenArg args es) :
    ∀ c ∈ line.text (joinArgs es), IsWritten c ∨ c = ' ' ∨ c = '\t' ∨ c = '=' := by
  have hblank := line.blank
  simp only [List.mem_append] at hblank
  intro c hc
  simp only [text, List.mem_append, List.mem_cons] at hc
  rcases hc with ((hc | hc) | hc) | rfl | (hc | hc) | hc
  · exact Or.inr ((hblank c (by simp [hc])).imp_right Or.inl)
  · simp only [argsKey, List.mem_cons, List.not_mem_nil, or_false] at hc
    rcases hc with rfl | rfl | rfl | rfl <;> exact Or.inl (Or.inl rfl)
  · exact Or.inr ((hblank c (by simp [hc])).imp_right Or.inl)
  · exact Or.inr (Or.inr (Or.inr rfl))
  · exact Or.inr ((hblank c (by simp [hc])).imp_right Or.inl)
  · exact (mem_joinArgs h c hc).imp_right Or.inl
  · exact Or.inr ((hblank c (by simp [hc])).imp_right Or.inl)

end ArgsLine

theorem not_mem_text (line : ArgsLine) (h : List.Forall₂ WrittenArg args es) {d : Char}
    (hd : ¬ (IsWritten d ∨ d = ' ' ∨ d = '\t' ∨ d = '=')) : d ∉ line.text (joinArgs es) :=
  fun hmem => hd (line.mem_text h d hmem)

private theorem splitOn_argsSection (line : ArgsLine) (lineEnd : Bool)
    (h : List.Forall₂ WrittenArg args es) :
    (argsSection line lineEnd (joinArgs es)).splitOn '\n' =
      argsHeader :: line.text (joinArgs es) :: if lineEnd then [[]] else [] := by
  have hnl : '\n' ∉ line.text (joinArgs es) := not_mem_text line h (by simp [IsWritten])
  rw [argsSection, List.splitOn_append_cons_self_of_not_mem (by decide)]
  cases lineEnd with
  | false => simp [List.splitOn_eq_singleton hnl]
  | true => simp [List.splitOn_append_cons_self_of_not_mem hnl]

private theorem not_mem_argsSection (line : ArgsLine) (lineEnd : Bool)
    (h : List.Forall₂ WrittenArg args es) {d : Char} (hheader : d ∉ argsHeader) (hnl : d ≠ '\n')
    (hd : ¬ (IsWritten d ∨ d = ' ' ∨ d = '\t' ∨ d = '=')) :
    d ∉ argsSection line lineEnd (joinArgs es) := by
  have htext := not_mem_text line h hd
  cases lineEnd <;> simp [argsSection, hheader, hnl, htext]

private theorem getParsedRecords_argsSection (before : Char) (line : ArgsLine) (lineEnd : Bool)
    (h : List.Forall₂ WrittenArg args es)
    (hlen : (argsSection line lineEnd (joinArgs es)).length ≤ 10240) :
    getParsedRecords before (argsSection line lineEnd (joinArgs es)) argObserver.keys =
      some [[some (joinArgs es)]] := by
  have hlines := splitOn_argsSection line lineEnd h
  have htext : (line.text (joinArgs es)).splitOn ',' = [line.text (joinArgs es)] :=
    List.splitOn_eq_singleton (not_mem_text line h (by decide))
  have hkey : 'a' ∈ line.text (joinArgs es) := by simp [ArgsLine.text, argsKey]
  have hfields : ∀ l ∈ (argsSection line lineEnd (joinArgs es)).splitOn '\n',
      ∀ f ∈ l.splitOn ',', ¬ FailsTrimming f := by
    rw [hlines]
    intro l hl f hf
    rcases List.mem_cons.mp hl with rfl | hl
    · obtain rfl : f = argsHeader := by simpa [argsHeader, List.splitOn_eq_singleton] using hf
      exact not_failsTrimming_of_mem (c := '[') (by decide) (by decide)
    · rcases List.mem_cons.mp hl with rfl | hl
      · obtain rfl : f = line.text (joinArgs es) := by simpa [htext] using hf
        exact not_failsTrimming_of_mem hkey (by decide)
      · obtain rfl : l = [] := by
          cases lineEnd
          · simp at hl
          · simpa using hl
        obtain rfl : f = [] := by simpa using hf
        exact not_failsTrimming_nil
  rw [getParsedRecords_eq_sectionRecords before argObserver.keys _ hlen
    (not_mem_argsSection line lineEnd h (by decide) (by decide) (by decide))
    (not_mem_argsSection line lineEnd h (by decide) (by decide) (by decide)) hfields,
    sectionRecords, hlines]
  have hheader :
      argObserver.keys.recordOf ((argsHeader.splitOn ',').filterMap fieldPair) = none := by decide
  have hline : argObserver.keys.recordOf
      (((line.text (joinArgs es)).splitOn ',').filterMap fieldPair) =
        some [some (joinArgs es)] := by
    rw [htext, List.filterMap_cons, line.fieldPair_text h]
    simp [KeyList.recordOf, argObserver, KeyList.valueOf, argsKey]
  have hend : fieldPair [] = none := by decide
  cases lineEnd <;> simp [hheader, hline, hend, KeyList.recordOf_nil]

private theorem terminated_length_le (h : List.Forall₂ WrittenArg args es) :
    (terminated args).length ≤ (joinArgs es).length + 1 := by
  induction h with
  | nil => simp [terminated]
  | @cons s e args es hw htail ih =>
      have hle := hw.length_le
      rw [terminated_cons, List.length_append, List.length_cons]
      cases htail with
      | nil =>
          simp only [joinArgs, List.intercalate_singleton]
          simp [terminated]
          omega
      | cons hw' htail =>
          rw [joinArgs_cons_cons, List.length_append, List.length_cons]
          omega

private theorem placedArgs_tokens (h : List.Forall₂ WrittenArg args es) (uninit : Nat → Uninit)
    (index : Nat) : placedArgs uninit index (es.map argToken) = args := by
  induction h generalizing index with
  | nil => rfl
  | cons hw _ ih => rw [List.map_cons, placedArgs, hw.unescape, ih]

private theorem nvramGetArgs_joinArgs (h : List.Forall₂ WrittenArg args es)
    (hcount : args.length ≤ nvramMaxRecordsInSection) (hnul : ∀ s ∈ args, nul ∉ s)
    (uninit : Nat → Uninit) (argsBuf : Text)
    (hbuf : argsBuf.length = argsBufSize [[some (joinArgs es)]]) :
    nvramGetArgs uninit argsBuf [[some (joinArgs es)]] = some args := by
  have hroom : es.length ≤ nvramMaxRecordsInSection := h.length_eq ▸ hcount
  have hsize : (joinArgs es).length + 1 < argsBuf.length := by
    rw [hbuf]
    simp [argsBufSize]
    omega
  have hle := terminated_length_le h
  have hplaced := placedArgs_tokens h uninit 0
  obtain ⟨buffer, hplace, -, htake⟩ := placeArgs_spec uninit (es.map argToken) argsBuf 0
    (by rw [hplaced]; omega)
  rw [hplaced, Nat.zero_add, List.take_zero, List.nil_append] at htake
  rw [hplaced, Nat.zero_add] at hplace
  have hhandle : handleArgRecords uninit argsBuf 0 [[some (joinArgs es)]] =
      some (buffer, (terminated args).length) := by
    rw [handleArgRecords, List.head?_cons, Option.bind_some, id, Option.bind_some,
      parseTransformAndPlaceIntoBuf, if_pos (by omega),
      parseConfigArgs_joinArgs nvramMaxRecordsInSection h hroom, hplace]
    rfl
  rw [nvramGetArgs, hhandle, Option.map_some]
  exact congrArg some (getArgArray_terminated buffer args hnul hcount htake)

/-- Arguments written in the `[args]` section are those the program gets. -/
theorem nvramGetArgs_argsSection (before : Char) (line : ArgsLine) (lineEnd : Bool)
    (h : List.Forall₂ WrittenArg args es) (hcount : args.length ≤ nvramMaxRecordsInSection)
    (hnul : ∀ s ∈ args, nul ∉ s)
    (hlen : (argsSection line lineEnd (joinArgs es)).length ≤ 10240) :
    ∃ records,
      getParsedRecords before (argsSection line lineEnd (joinArgs es)) argObserver.keys =
        some records ∧
      ∀ (uninit : Nat → Uninit) (argsBuf : Text), argsBuf.length = argsBufSize records →
        nvramGetArgs uninit argsBuf records = some args :=
  ⟨_, getParsedRecords_argsSection before line lineEnd h hlen,
    fun uninit argsBuf hbuf => nvramGetArgs_joinArgs h hcount hnul uninit argsBuf hbuf⟩

/-- An argument with a comma and a blank, between two empty ones. -/
theorem nvramGetArgs_argsSection_emptyArgs :
    ∃ records,
      getParsedRecords '\n' (argsSection ⟨[], [' '], ['\t', ' '], [], by simp⟩ true
          (joinArgs [writeArg [], writeArg ['a', ',', ' '], writeArg []])) argObserver.keys =
        some records ∧
      ∀ (uninit : Nat → Uninit) (argsBuf : Text), argsBuf.length = argsBufSize records →
        nvramGetArgs uninit argsBuf records = some [[], ['a', ',', ' '], []] :=
  nvramGetArgs_argsSection '\n' ⟨[], [' '], ['\t', ' '], [], by simp⟩ true
    (.cons (writtenArg_writeArg _ (by simp)) (.cons (writtenArg_writeArg _ (by simp))
      (.cons (writtenArg_writeArg _ (by simp)) .nil)))
    (by decide) (by simp [nul]) (by decide)

end Writing

end Zrt.Nvram
