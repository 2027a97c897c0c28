import Zrt.Nvram.Args
import Zrt.Nvram.Sections

/-!
# Environment variables

The records of all `[env]` sections are written into one buffer as `name=value`, whose size is
counted over the first of these sections, with one byte more for each record than the record needs.
The test in front of a write leaves out one of the two bytes written beside the name and the value.
-/

namespace Zrt.Nvram

abbrev ParsedSections := List (MNvramObserver × List ParsedRecord)

/-- The records that `nvram_handle` passes on: those of all sections with that observer. -/
def nvramHandle (parsed : ParsedSections) (observer : MNvramObserver) : List ParsedRecord :=
  (parsed.filter fun p => p.1.observedSectionName = observer.observedSectionName).flatMap Prod.snd

/-- The records of the first section with that name. -/
def nvramSectionByName (parsed : ParsedSections) (sectionName : Text) :
    Option (List ParsedRecord) :=
  (parsed.find? fun p => p.1.observedSectionName = sectionName).map Prod.snd

/-- The count of the records, and for each value and each record one byte more. -/
def recordsCountAndBufSize (parsed : ParsedSections) (sectionName : Text) : Nat × Nat :=
  match nvramSectionByName parsed sectionName with
  | none => (0, 0)
  | some records =>
      (records.length,
        (records.map fun r => (r.map fun v => (v.getD []).length + 1).sum + 1).sum)

def envParamNameKeyIndex : Nat := 0

def envParamValueKeyIndex : Nat := 1

/-- A pair is left out unless name and value without separator and terminator fit. -/
def addPairToTempBuffer (buf : Text) (index : Nat) (name val : Text) : Option (Text × Nat) :=
  if index + name.length + val.length < buf.length then
    (store buf index name).bind fun buf =>
      (store buf (index + name.length) ['=']).bind fun buf =>
        (store buf (index + name.length + 1) val).bind fun buf =>
          (store buf (index + name.length + 1 + val.length) [nul]).map fun buf =>
            (buf, index + name.length + 1 + val.length + 1)
  else some (buf, index)

/-- The value is unescaped, the name is not. -/
def handleEnvRecord (uninit : Nat → Uninit) (buffer : Text) (index : Nat) (record : ParsedRecord) :
    Option (Text × Nat) :=
  (record[envParamNameKeyIndex]?.bind id).bind fun envname =>
    (record[envParamValueKeyIndex]?.bind id).bind fun envval =>
      addPairToTempBuffer buffer index envname (unescapeString uninit 0 envval)

/-- `uninit` tells the bytes of the variables by record. -/
def handleEnvRecords : (Nat → Nat → Uninit) → Text → Nat → List ParsedRecord → Option (Text × Nat)
  | _, buffer, index, [] => some (buffer, index)
  | uninit, buffer, index, record :: records =>
      (handleEnvRecord (uninit 0) buffer index record).bind fun (buffer', index') =>
        handleEnvRecords (fun k => uninit (k + 1)) buffer' index' records

def envsBufSize (parsed : ParsedSections) : Nat :=
  (recordsCountAndBufSize parsed envObserver.observedSectionName).2

def nvramGetEnvs (uninit : Nat → Nat → Uninit) (envsBuf : Text) (parsed : ParsedSections) :
    Option (Text × Nat) :=
  handleEnvRecords uninit envsBuf 0 (nvramHandle parsed envObserver)

/-- Name and value of a variable. -/
structure EnvPair where
  name : Text
  val : Text

/-- A variable of a record, which has both parameters. -/
def envPair (record : ParsedRecord) : EnvPair where
  name := (record[envParamNameKeyIndex]?.bind id).getD []
  val := (record[envParamValueKeyIndex]?.bind id).getD []

namespace EnvPair

def record (e : EnvPair) : ParsedRecord := [some e.name, some e.val]

/-- Length of the name and of the value as it is stored. -/
def stored (e : EnvPair) : Nat :=
  e.name.length + (unescapeString (fun _ => (Fin.last 255, Fin.last 255)) 0 e.val).length

/-- The bytes counted for a record. -/
def counted (e : EnvPair) : Nat := e.name.length + e.val.length + 3

end EnvPair

/-- No pair is met whose name and value would end at the last byte of the buffer but one, `used`
bytes being in use. -/
def PairsFit (size : Nat) : Nat → List EnvPair → Prop
  | _, [] => True
  | used, e :: es =>
      if used + e.stored < size then
        used + e.stored + 1 ≠ size ∧ PairsFit size (used + e.stored + 2) es
      else PairsFit size used es

def decidablePairsFit (size : Nat) : (used : Nat) → (es : List EnvPair) →
    Decidable (PairsFit size used es)
  | _, [] => isTrue trivial
  | used, e :: es =>
      have := decidablePairsFit size (used + e.stored + 2) es
      have := decidablePairsFit size used es
      inferInstanceAs (Decidable (if used + e.stored < size then
        used + e.stored + 1 ≠ size ∧ PairsFit size (used + e.stored + 2) es
        else PairsFit size used es))

instance (size used : Nat) (es : List EnvPair) : Decidable (PairsFit size used es) :=
  decidablePairsFit size used es

section Storing

variable (dest : Text) (index : Nat) (s t : Text)

theorem store_append :
    (store dest index s).bind (fun dest' => store dest' (index + s.length) t) =
      store dest index (s ++ t) := by
  by_cases hs : index + s.length ≤ dest.length
  · have hlen : (dest.take index).length = index := List.length_take_of_le (by omega)
    rw [store_of_room hs, Option.bind_some]
    have hsize : (dest.take index ++ s ++ dest.drop (index + s.length)).length = dest.length := by
      simp only [List.length_append, hlen, List.length_drop]
      omega
    have htake : (dest.take index ++ s ++ dest.drop (index + s.length)).take (index + s.length) =
        dest.take index ++ s := List.take_left' (by rw [List.length_append, hlen])
    have hdrop : (dest.take index ++ s ++ dest.drop (index + s.length)).drop
        (index + s.length + t.length) = dest.drop (index + s.length + t.length) := by
      rw [← List.drop_drop, List.drop_left' (by rw [List.length_append, hlen]), List.drop_drop]
    rw [store, store, hsize, htake, hdrop, List.length_append, Nat.add_assoc]
    simp
  · have hst : ¬ index + (s ++ t).length ≤ dest.length := by
      rw [List.length_append]
      omega
    rw [store, if_neg hs, store, if_neg hst, Option.bind_none]

end Storing

private theorem addPairToTempBuffer_eq (buf : Text) (index : Nat) (name val : Text) :
    addPairToTempBuffer buf index name val =
      if index + name.length + val.length < buf.length then
        (store buf index (name ++ ['='] ++ val ++ [nul])).map fun buf =>
          (buf, index + name.length + val.length + 2)
      else some (buf, index) := by
  rw [addPairToTempBuffer]
  have hnext : index + name.length + 1 + val.length + 1 = index + name.length + val.length + 2 := by
    omega
  simp only [← store_append, Option.map_bind, Function.comp_def, Option.bind_assoc,
    List.length_append, List.length_singleton, Nat.add_assoc] at hnext ⊢
  rw [hnext]

theorem EnvPair.stored_eq (uninit : Nat → Uninit) (e : EnvPair) :
    e.name.length + (unescapeString uninit 0 e.val).length = e.stored :=
  congrArg _ (unescapeString_length_congr uninit _ 0 0 e.val)

theorem EnvPair.stored_le (e : EnvPair) : e.stored ≤ e.name.length + e.val.length :=
  Nat.add_le_add_left (unescapeString_length_le _ 0 e.val) _

theorem handleEnvRecord_eq (uninit : Nat → Uninit) (buffer : Text) (index : Nat) (e : EnvPair) :
    handleEnvRecord uninit buffer index e.record =
      if index + e.stored < buffer.length then
        (store buffer index (e.name ++ ['='] ++ unescapeString uninit 0 e.val ++ [nul])).map
          fun buffer' => (buffer', index + e.stored + 2)
      else some (buffer, index) := by
  have hstored : index + e.name.length + (unescapeString uninit 0 e.val).length =
      index + e.stored := by
    rw [Nat.add_assoc, e.stored_eq]
  change addPairToTempBuffer buffer index e.name (unescapeString uninit 0 e.val) = _
  rw [addPairToTempBuffer_eq, hstored]

private theorem handleEnvRecord_spec (uninit : Nat → Uninit) (buffer : Text) (index : Nat) (e : EnvPair) :
    if index + e.stored < buffer.length then
      if index + e.stored + 1 = buffer.length then
        handleEnvRecord uninit buffer index e.record = none
      else ∃ buffer', handleEnvRecord uninit buffer index e.record =
          some (buffer', index + e.stored + 2) ∧ buffer'.length = buffer.length
    else handleEnvRecord uninit buffer index e.record = some (buffer, index) := by
  rw [handleEnvRecord_eq]
  split
  · have hwritten : (e.name ++ ['='] ++ unescapeString uninit 0 e.val ++ [nul]).length =
        e.stored + 2 := by
      simp only [List.length_append, List.length_singleton, ← e.stored_eq uninit]
      omega
    split
    · rw [store, if_neg (by omega), Option.map_none]
    · obtain ⟨buffer', hstore, hlen, -⟩ := store_spec buffer index
        (e.name ++ ['='] ++ unescapeString uninit 0 e.val ++ [nul]) (by omega)
      exact ⟨buffer', by rw [hstore, Option.map_some], hlen⟩
  · rfl

theorem handleEnvRecords_isSome (uninit : Nat → Nat → Uninit) (buffer : Text) (index : Nat)
    (es : List EnvPair) :
    (handleEnvRecords uninit buffer index (es.map EnvPair.record)).isSome ↔
      PairsFit buffer.length index es := by
  induction es generalizing uninit buffer index with
  | nil => simp [handleEnvRecords, PairsFit]
  | cons e es ih =>
      have hspec := handleEnvRecord_spec (uninit 0) buffer index e
      rw [List.map_cons, handleEnvRecords, PairsFit]
      split
      · rename_i hfits
        rw [if_pos hfits] at hspec
        split at hspec
        · rename_i hlast
          simp [hspec, hlast]
        · rename_i hlast
          obtain ⟨buffer', hhandle, hlen⟩ := hspec
          rw [hhandle, Option.bind_some, ← hlen]
          exact (ih _ _ _).trans (and_iff_right (by rwa [hlen])).symm
      · rename_i hfits
        rw [if_neg hfits] at hspec
        rw [hspec, Option.bind_some]
        exact ih _ _ _

private theorem eq_envObserver_of_mem {obs : MNvramObserver} (hmem : obs ∈ nvramLoader.observers)
    (hname : obs.observedSectionName = envObserver.observedSectionName) : obs = envObserver := by
  simp only [nvramLoader, List.mem_cons, List.not_mem_nil, or_false] at hmem
  rcases hmem with rfl | rfl | rfl | rfl | rfl | rfl | rfl
  all_goals first | rfl | exact absurd hname (by decide)

private theorem record_envPair {params : Params} {r : ParsedRecord}
    (h : envObserver.keys.recordOf params = some r) : (envPair r).record = r := by
  rw [KeyList.recordOf] at h
  split at h
  · rename_i hvalues
    obtain rfl := Option.some.inj h
    obtain ⟨name, hname⟩ := Option.isSome_iff_exists.mp
      (hvalues.2 ⟨['n', 'a', 'm', 'e'], none⟩ (by simp [envObserver]))
    obtain ⟨val, hval⟩ := Option.isSome_iff_exists.mp
      (hvalues.2 ⟨['v', 'a', 'l', 'u', 'e'], none⟩ (by simp [envObserver]))
    simp [envObserver, hname, hval, envPair, EnvPair.record, envParamNameKeyIndex,
      envParamValueKeyIndex]
  · cases h

theorem nvramHandle_envPairs {before : Char} {data : NvramData} {parsed : ParsedSections}
    (h : nvramParse before nvramLoader.observers data.text = some parsed) :
    ((nvramHandle parsed envObserver).map envPair).map EnvPair.record =
      nvramHandle parsed envObserver := by
  obtain ⟨sections, -, hparse⟩ := Option.bind_eq_some_iff.mp h
  rw [List.map_map]
  refine (List.map_congr_left fun r hr => ?_).trans (List.map_id _)
  obtain ⟨p, hp, hr⟩ := List.mem_flatMap.mp hr
  obtain ⟨hp, hname⟩ := List.mem_filter.mp hp
  obtain ⟨s, hobserved, hsection⟩ := mem_parseSections before data.text _ hparse p hp
  obtain ⟨t, -, ht⟩ := List.mem_filterMap.mp hobserved
  obtain ⟨obs, hobs, heq⟩ := Option.map_eq_some_iff.mp ht
  have hobserver : p.1 = envObserver := by
    obtain ⟨-, rfl⟩ := Prod.mk.inj heq
    exact eq_envObserver_of_mem (prefix_of_sectionObserver hobs).1 (by simpa using hname)
  rw [parseSection, hobserver] at hsection
  have hlen := data.length_le
  obtain ⟨params, hparams⟩ := recordOf_of_mem_getParsedRecords
    (by simp only [List.length_take, List.length_drop]; omega) hsection r hr
  exact record_envPair hparams

private theorem pairsFit_of_counted (size used : Nat) (es : List EnvPair)
    (h : used + (es.map EnvPair.counted).sum ≤ size) : PairsFit size used es := by
  induction es generalizing used with
  | nil => trivial
  | cons e es ih =>
      have hle := e.stored_le
      rw [List.map_cons, List.sum_cons, EnvPair.counted] at h
      rw [PairsFit]
      split
      · exact ⟨by omega, ih _ (by omega)⟩
      · exact ih _ (by omega)

theorem counted_record (e : EnvPair) :
    (e.record.map fun v => (v.getD []).length + 1).sum + 1 = e.counted := by
  simp only [EnvPair.record, EnvPair.counted, List.map_cons, List.map_nil, List.sum_cons,
    List.sum_nil, Option.getD_some]
  omega

private theorem envsBufSize_eq (parsed : ParsedSections) :
    envsBufSize parsed =
      (((parsed.filter fun p => p.1.observedSectionName = envObserver.observedSectionName).head?.elim
        [] Prod.snd).map fun r => (r.map fun v => (v.getD []).length + 1).sum + 1).sum := by
  rw [envsBufSize, recordsCountAndBufSize, nvramSectionByName, ← List.head?_filter]
  cases (parsed.filter fun p =>
    p.1.observedSectionName = envObserver.observedSectionName).head? with
  | none => rfl
  | some p => rfl

theorem nvramGetEnvs_oneSection (before : Char) (data : NvramData) (parsed : ParsedSections)
    (hparse : nvramParse before nvramLoader.observers data.text = some parsed)
    (hone : (parsed.filter fun p =>
      p.1.observedSectionName = envObserver.observedSectionName).length ≤ 1)
    (uninit : Nat → Nat → Uninit) (envsBuf : Text) (hsize : envsBuf.length = envsBufSize parsed) :
    (nvramGetEnvs uninit envsBuf parsed).isSome := by
  have hpairs := nvramHandle_envPairs hparse
  rw [nvramGetEnvs, ← hpairs, handleEnvRecords_isSome, hsize]
  apply pairsFit_of_counted
  rw [envsBufSize_eq, Nat.zero_add]
  rw [nvramHandle] at hpairs ⊢
  generalize (parsed.filter fun p =>
    p.1.observedSectionName = envObserver.observedSectionName) = sections at hone hpairs ⊢
  match sections with
  | [] => simp
  | [p] =>
      rw [List.flatMap_singleton] at hpairs ⊢
      rw [List.head?_cons, Option.elim_some]
      conv_rhs => rw [← hpairs]
      simp only [List.map_map, Function.comp_def, counted_record, Nat.le_refl]
  | _ :: _ :: _ => simp at hone

/-- The variables of the text are written within the buffer unless one that is not left out would
have its terminator behind it. -/
theorem nvramGetEnvs_inBounds_iff (before : Char) (data : NvramData) (parsed : ParsedSections)
    (hparse : nvramParse before nvramLoader.observers data.text = some parsed)
    (uninit : Nat → Nat → Uninit) (envsBuf : Text) (hsize : envsBuf.length = envsBufSize parsed) :
    (nvramGetEnvs uninit envsBuf parsed).isSome ↔
      PairsFit (envsBufSize parsed) 0 ((nvramHandle parsed envObserver).map envPair) := by
  rw [nvramGetEnvs, ← hsize]
  conv_lhs => rw [← nvramHandle_envPairs hparse]
  exact handleEnvRecords_isSome uninit envsBuf 0 _

deriving instance DecidableEq for KeyList, MNvramObserver

instance : DecidableEq (List ParsedRecord) := inferInstanceAs (DecidableEq (List (List (Option Text))))

/-- Two sections of variables, the second with an empty value. -/
def twoEnvSections : NvramData where
  text := ['[', 'e', 'n', 'v', ']', '\n', 'n', 'a', 'm', 'e', '=', 'a', ',', 'v', 'a', 'l', 'u', 'e',
    '=', 'b', '\n', 'n', 'a', 'm', 'e', '=', 'c', ',', 'v', 'a', 'l', 'u', 'e', '=', 'd', '\n', '[',
    'e', 'n', 'v', ']', '\n', 'n', 'a', 'm', 'e', '=', 'e', ',', 'v', 'a', 'l', 'u', 'e', '=', '\n']
  nul_not_mem := by decide
  length_le := by decide

def twoEnvSectionsParsed : ParsedSections :=
  [(envObserver, [[some ['a'], some ['b']], [some ['c'], some ['d']]]),
    (envObserver, [[some ['e'], some []]])]

theorem nvramGetEnvs_inBounds_iff_twoSections :
    (nvramGetEnvs (fun _ _ => (0, 0)) (List.replicate 10 nul) twoEnvSectionsParsed).isSome ↔
      PairsFit (envsBufSize twoEnvSectionsParsed) 0
        ((nvramHandle twoEnvSectionsParsed envObserver).map envPair) :=
  nvramGetEnvs_inBounds_iff '\n' twoEnvSections twoEnvSectionsParsed (by decide) _ _
    (by decide)

/-- The terminator of the last variable is written behind the buffer. -/
theorem twoEnvSections_overrun :
    nvramParse '\n' nvramLoader.observers twoEnvSections.text = some twoEnvSectionsParsed ∧
      envsBufSize twoEnvSectionsParsed = 10 ∧
      nvramGetEnvs (fun _ _ => (0, 0)) (List.replicate 10 nul) twoEnvSectionsParsed = none := by
  refine ⟨by decide, by decide, by decide⟩

end Zrt.Nvram
