import Zrt.Nvram.ArgsBuffer
import Zrt.Nvram.Environment

/-!
# The array of the environment

The prolog writes the variables of the configuration into one buffer and finds them again by their
terminators. With one section of variables none is left out, and the array holds as many of them as
were counted before.
-/

namespace Zrt.Nvram

/-- The loop is that over the arguments. -/
def getEnvArray (buf : Text) (bufsize : Nat) : List Text := getArgArray buf bufsize

/-- How many variables `read_get_args_envs` counts. -/
def envCount (parsed : ParsedSections) : Nat :=
  (recordsCountAndBufSize parsed envObserver.observedSectionName).1

/-- The entries of `envs` in front of the null pointer: the half of `get_args_envs` that handles the
variables. -/
def nvramGetEnvArray (uninit : Nat → Nat → Uninit) (envsBuf : Text) (parsed : ParsedSections) :
    Option (List Text) :=
  match nvramSectionByName parsed envObserver.observedSectionName with
  | some _ => (nvramGetEnvs uninit envsBuf parsed).map fun x => getEnvArray x.1 x.2
  | none => some []

namespace EnvPair

/-- A variable as it is stored. -/
def text (uninit : Nat → Uninit) (e : EnvPair) : Text :=
  e.name ++ ['='] ++ unescapeString uninit 0 e.val

theorem length_text (uninit : Nat → Uninit) (e : EnvPair) :
    (e.text uninit).length = e.stored + 1 := by
  have hstored := e.stored_eq uninit
  simp only [text, List.length_append, List.length_singleton]
  omega

end EnvPair

/-- The strings of the variables, the bytes of each by its record. -/
def storedEnvs : (Nat → Nat → Uninit) → List EnvPair → List Text
  | _, [] => []
  | uninit, e :: es => e.text (uninit 0) :: storedEnvs (fun k => uninit (k + 1)) es

section Array

variable {parsed : ParsedSections}

private theorem length_storedEnvs (uninit : Nat → Nat → Uninit) (es : List EnvPair) :
    (storedEnvs uninit es).length = es.length := by
  induction es generalizing uninit with
  | nil => rfl
  | cons e es ih => simp [storedEnvs, ih]

private theorem length_terminated_storedEnvs (uninit : Nat → Nat → Uninit) (es : List EnvPair) :
    (terminated (storedEnvs uninit es)).length ≤ (es.map EnvPair.counted).sum := by
  induction es generalizing uninit with
  | nil => exact Nat.le_refl 0
  | cons e es ih =>
      have hrest := ih fun k => uninit (k + 1)
      have hle := e.stored_le
      rw [storedEnvs, terminated_cons, List.length_append, List.length_cons, e.length_text,
        List.map_cons, List.sum_cons, EnvPair.counted]
      omega

/-- All variables in one write: the induction is over the variables, each of which has the room that
was counted for it. -/
private theorem handleEnvRecords_eq (uninit : Nat → Nat → Uninit) (buffer : Text) (index : Nat)
    (es : List EnvPair) (h : index + (es.map EnvPair.counted).sum ≤ buffer.length) :
    handleEnvRecords uninit buffer index (es.map EnvPair.record) =
      (store buffer index (terminated (storedEnvs uninit es))).map fun buffer' =>
        (buffer', index + (terminated (storedEnvs uninit es)).length) := by
  induction es generalizing uninit buffer index with
  | nil =>
      have hroom : index + ([] : Text).length ≤ buffer.length := by simpa using h
      have hnone : terminated (storedEnvs uninit []) = [] := rfl
      rw [hnone, store_of_room hroom]
      simp [handleEnvRecords]
  | cons e es ih =>
      have hle := e.stored_le
      rw [List.map_cons, List.sum_cons, EnvPair.counted] at h
      have hlen : (e.text (uninit 0) ++ [nul]).length = e.stored + 2 := by
        rw [List.length_append, e.length_text, List.length_singleton]
      have hroom : index + (e.text (uninit 0) ++ [nul]).length ≤ buffer.length := by omega
      have hrecord : handleEnvRecord (uninit 0) buffer index e.record =
          (store buffer index (e.text (uninit 0) ++ [nul])).map fun buffer' =>
            (buffer', index + e.stored + 2) := by
        rw [handleEnvRecord_eq, if_pos (by omega)]
        rfl
      obtain ⟨buffer', hstore, hsize, -⟩ := store_spec buffer index (e.text (uninit 0) ++ [nul]) hroom
      have hnext : index + e.stored + 2 = index + (e.text (uninit 0) ++ [nul]).length := by omega
      have hrest := ih (fun k => uninit (k + 1)) buffer' (index + e.stored + 2) (by omega)
      have hall : terminated (storedEnvs uninit (e :: es)) =
          e.text (uninit 0) ++ [nul] ++ terminated (storedEnvs (fun k => uninit (k + 1)) es) := by
        rw [storedEnvs, terminated_cons]
        simp
      have happend := store_append buffer index (e.text (uninit 0) ++ [nul])
        (terminated (storedEnvs (fun k => uninit (k + 1)) es))
      rw [List.map_cons, handleEnvRecords, hrecord, hall, ← happend, hstore]
      simp only [Option.map_some, Option.bind_some]
      rw [hrest, hnext]
      simp only [List.length_append, List.length_singleton, Nat.add_assoc]

theorem nvramHandle_oneSection {observer : MNvramObserver}
    (hone : (parsed.filter fun p =>
      p.1.observedSectionName = observer.observedSectionName).length ≤ 1) :
    nvramHandle parsed observer =
      (nvramSectionByName parsed observer.observedSectionName).getD [] := by
  rw [nvramHandle, nvramSectionByName, ← List.head?_filter]
  generalize (parsed.filter fun p =>
    p.1.observedSectionName = observer.observedSectionName) = sections at hone ⊢
  cases sections with
  | nil => rfl
  | cons p sections =>
      have hnone : sections = [] := by
        rw [List.length_cons] at hone
        exact List.length_eq_zero_iff.mp (by omega)
      rw [hnone, List.flatMap_singleton, List.head?_cons, Option.map_some, Option.getD_some]

private theorem envCount_oneSection
    (hone : (parsed.filter fun p =>
      p.1.observedSectionName = envObserver.observedSectionName).length ≤ 1) :
    envCount parsed = (nvramHandle parsed envObserver).length := by
  rw [nvramHandle_oneSection hone, envCount, recordsCountAndBufSize]
  cases nvramSectionByName parsed envObserver.observedSectionName with
  | none => rfl
  | some records => rfl

private theorem envsBufSize_oneSection (before : Char) (data : NvramData)
    (hparse : nvramParse before nvramLoader.observers data.text = some parsed)
    (hone : (parsed.filter fun p =>
      p.1.observedSectionName = envObserver.observedSectionName).length ≤ 1) :
    envsBufSize parsed = (((nvramHandle parsed envObserver).map envPair).map EnvPair.counted).sum := by
  have hsize : envsBufSize parsed = ((nvramHandle parsed envObserver).map fun r =>
      (r.map fun v => (v.getD []).length + 1).sum + 1).sum := by
    rw [nvramHandle_oneSection hone, envsBufSize, recordsCountAndBufSize]
    cases nvramSectionByName parsed envObserver.observedSectionName with
    | none => rfl
    | some records => rfl
  rw [hsize]
  conv_lhs => rw [← nvramHandle_envPairs hparse]
  simp only [List.map_map, Function.comp_def, counted_record]

/-- The variables of a configuration with one section come through the buffer to the array, in their
order and as many as counted. -/
theorem nvramGetEnvArray_roundTrip (before : Char) (data : NvramData) (parsed : ParsedSections)
    (hparse : nvramParse before nvramLoader.observers data.text = some parsed)
    (hone : (parsed.filter fun p =>
      p.1.observedSectionName = envObserver.observedSectionName).length ≤ 1)
    (hcount : envCount parsed ≤ nvramMaxRecordsInSection) (uninit : Nat → Nat → Uninit)
    (envsBuf : Text) (hsize : envsBuf.length = envsBufSize parsed)
    (hnul : ∀ s ∈ storedEnvs uninit ((nvramHandle parsed envObserver).map envPair), nul ∉ s) :
    nvramGetEnvArray uninit envsBuf parsed =
        some (storedEnvs uninit ((nvramHandle parsed envObserver).map envPair)) ∧
      (storedEnvs uninit ((nvramHandle parsed envObserver).map envPair)).length = envCount parsed := by
  have hlength : (storedEnvs uninit ((nvramHandle parsed envObserver).map envPair)).length =
      envCount parsed := by
    rw [length_storedEnvs, List.length_map, envCount_oneSection hone]
  refine ⟨?_, hlength⟩
  have hroom : 0 + (((nvramHandle parsed envObserver).map envPair).map EnvPair.counted).sum ≤
      envsBuf.length := by
    rw [Nat.zero_add, hsize, envsBufSize_oneSection before data hparse hone]
  have hwritten := length_terminated_storedEnvs uninit ((nvramHandle parsed envObserver).map envPair)
  have hhandle := handleEnvRecords_eq uninit envsBuf 0 _ hroom
  rw [nvramHandle_envPairs hparse] at hhandle
  cases hsection : nvramSectionByName parsed envObserver.observedSectionName with
  | none =>
      have hnone : envCount parsed = 0 := by rw [envCount, recordsCountAndBufSize, hsection]
      rw [hnone, List.length_eq_zero_iff] at hlength
      rw [nvramGetEnvArray, hsection, hlength]
  | some records =>
      have hfits : 0 + (terminated (storedEnvs uninit ((nvramHandle parsed envObserver).map
          envPair))).length ≤ envsBuf.length := by omega
      obtain ⟨buffer, hstore, -, htake⟩ := store_spec envsBuf 0 _ hfits
      rw [hstore, Option.map_some] at hhandle
      rw [nvramGetEnvArray, hsection]
      simp only [nvramGetEnvs, hhandle, Option.map_some, getEnvArray, Nat.zero_add] at htake ⊢
      rw [getArgArray_terminated buffer _ hnul (by rw [hlength]; exact hcount)]
      simpa using htake

end Array

/-- A section with two variables, the value of the second an escaped comma. -/
def escapedEnvSection : NvramData where
  text := ['[', 'e', 'n', 'v', ']', '\n', 'n', 'a', 'm', 'e', '=', 'a', ',', 'v', 'a', 'l', 'u', 'e',
    '=', 'b', '\n', 'n', 'a', 'm', 'e', '=', 'c', ',', 'v', 'a', 'l', 'u', 'e', '=', '\\', 'x', '2',
    'c', '\n']
  nul_not_mem := by decide
  length_le := by decide

def escapedEnvSectionParsed : ParsedSections :=
  [(envObserver, [[some ['a'], some ['b']], [some ['c'], some ['\\', 'x', '2', 'c']]])]

theorem nvramGetEnvArray_roundTrip_escaped :
    nvramGetEnvArray (fun _ _ => (0, 0)) (List.replicate 13 nul) escapedEnvSectionParsed =
        some (storedEnvs (fun _ _ => (0, 0))
          ((nvramHandle escapedEnvSectionParsed envObserver).map envPair)) ∧
      (storedEnvs (fun _ _ => (0, 0))
        ((nvramHandle escapedEnvSectionParsed envObserver).map envPair)).length =
          envCount escapedEnvSectionParsed :=
  nvramGetEnvArray_roundTrip '\n' escapedEnvSection escapedEnvSectionParsed (by decide)
    (by decide) (by decide) _ _ (by decide) (by decide)

example :
    storedEnvs (fun _ _ => (0, 0))
        ((nvramHandle escapedEnvSectionParsed envObserver).map envPair) =
      [['a', '=', 'b'], ['c', '=', ',']] := by decide

end Zrt.Nvram
