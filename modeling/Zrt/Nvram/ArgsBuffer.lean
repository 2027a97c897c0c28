import Zrt.Nvram.Args

/-!
# The buffer of the arguments

A value is handled when its length is below the room in the buffer, but what is stored for it are
the pieces it is split into, each unescaped and with a terminator. A piece ends at a byte that
belongs to no other piece, or at the end of the value, so the terminators have their room.
-/

namespace Zrt.Nvram

theorem terminated_append_singleton (ss : List Text) (s : Text) :
    (terminated (ss ++ [s])).length = (terminated ss).length + s.length + 1 := by
  simp [terminated, Nat.add_assoc]

section Splitting

variable {saved : List Text} {parsed : Text} {val : Option Nat}

theorem saveParsedArg_cases (arrayLen : Nat) (saved : List Text) (parsed : Text)
    (val : Option Nat) :
    saveParsedArg arrayLen saved parsed val = (saved ++ [parsed], none) ∨
      saveParsedArg arrayLen saved parsed val = (saved, val) := by
  rw [saveParsedArg]
  split
  · exact Or.inl rfl
  · exact Or.inr rfl

/-- The pieces with their terminators end before the argument being read, which began before the
index, and otherwise before the last of the bytes to be passed. -/
structure PiecesWithin (saved : List Text) (index skip : Nat) (val : Option Nat) : Prop where
  reading : ∀ start, val = some start → (terminated saved).length ≤ start ∧ start ≤ index
  between : val = none → (terminated saved).length ≤ index + (skip - 1)

theorem PiecesWithin.outside {index skip : Nat}
    (h : (terminated saved).length ≤ index + (skip - 1)) : PiecesWithin saved index skip none where
  reading := by
    intro start hsome
    cases hsome
  between := fun _ => h

theorem PiecesWithin.inside {index skip start : Nat} (hpieces : (terminated saved).length ≤ start)
    (hstart : start ≤ index) : PiecesWithin saved index skip (some start) where
  reading := by
    intro start' hsome
    obtain rfl := Option.some.inj hsome
    exact ⟨hpieces, hstart⟩
  between := by
    intro hnone
    cases hnone

private theorem PiecesWithin.save {index start : Nat} (hpieces : (terminated saved).length ≤ start)
    (hstart : start ≤ index) (hparsed : start + parsed.length ≤ index) (arrayLen : Nat) :
    PiecesWithin (saveParsedArg arrayLen saved parsed (some start)).1 (index + 1) 0
      (saveParsedArg arrayLen saved parsed (some start)).2 := by
  rcases saveParsedArg_cases arrayLen saved parsed (some start) with h | h
  · rw [h]
    apply PiecesWithin.outside
    rw [terminated_append_singleton]
    omega
  · rw [h]
    exact PiecesWithin.inside hpieces (Nat.le_succ_of_le hstart)

private theorem PiecesWithin.saveQuoted {index : Nat} (hpieces : (terminated saved).length ≤ index)
    (parsed : Text) (arrayLen : Nat) :
    PiecesWithin (saveParsedArg arrayLen saved parsed (some (index + 1))).1 (index + 1)
      (parsed.length + 1) (saveParsedArg arrayLen saved parsed (some (index + 1))).2 := by
  rcases saveParsedArg_cases arrayLen saved parsed (some (index + 1)) with h | h
  · rw [h]
    apply PiecesWithin.outside
    rw [terminated_append_singleton]
    omega
  · rw [h]
    exact PiecesWithin.inside (Nat.le_succ_of_le hpieces) (Nat.le_refl _)

private theorem PiecesWithin.le_index {index : Nat} (h : PiecesWithin saved index 0 val) :
    (terminated saved).length ≤ index := by
  cases val with
  | none => exact h.between rfl
  | some start => exact Nat.le_trans (h.reading start rfl).1 (h.reading start rfl).2

private theorem length_slice_le (argsBuf : Text) {start index : Nat} (h : start ≤ index) :
    start + ((argsBuf.drop start).take (index - start)).length ≤ index := by
  have hle := List.length_take_le (index - start) (argsBuf.drop start)
  omega

private theorem parseArgsLoop_length_le (arrayLen : Nat) (argsBuf rest : Text) (index skip : Nat)
    (val : Option Nat) (saved : List Text) (hwithin : PiecesWithin saved index skip val)
    (hskip : skip ≤ rest.length + 1) :
    (terminated (parseArgsLoop arrayLen argsBuf rest index skip val saved)).length ≤
      index + rest.length + 1 := by
  induction rest generalizing index skip val saved with
  | nil =>
      rw [List.length_nil] at hskip ⊢
      cases val with
      | none =>
          have hle := hwithin.between rfl
          rw [parseArgsLoop]
          omega
      | some start =>
          have hread := hwithin.reading start rfl
          have hend := PiecesWithin.save hread.1 hread.2 (length_slice_le argsBuf hread.2)
            arrayLen
          rw [parseArgsLoop]
          exact hend.le_index
  | cons c rest ih =>
      rw [List.length_cons] at hskip ⊢
      have hlen : index + (rest.length + 1) + 1 = index + 1 + rest.length + 1 := by omega
      rw [hlen]
      cases skip with
      | succ skip =>
          rw [parseArgsLoop]
          apply ih _ _ _ _ _ (by omega)
          refine ⟨fun start hsome => ?_, fun hnone => ?_⟩
          · have hread := hwithin.reading start hsome
            exact ⟨hread.1, Nat.le_succ_of_le hread.2⟩
          · have hle := hwithin.between hnone
            omega
      | zero =>
          have hle := hwithin.le_index
          cases val with
          | none =>
              rw [parseArgsLoop]
              split
              · exact ih _ _ _ _ (PiecesWithin.outside (Nat.le_succ_of_le hle)) (Nat.zero_le _)
              · split
                · have hvallen :=
                    List.length_take_of_le (List.takeWhile_sublist (l := rest)
                      fun d => d ≠ '"' ∧ d ≠ nul).length_le
                  have hquoted := PiecesWithin.saveQuoted hle
                    (rest.take (rest.takeWhile fun d => d ≠ '"' ∧ d ≠ nul).length) arrayLen
                  rw [hvallen] at hquoted
                  exact ih _ _ _ _ hquoted (Nat.succ_le_succ (List.takeWhile_sublist _).length_le)
                · exact ih _ _ _ _ (PiecesWithin.inside hle (Nat.le_succ _)) (Nat.zero_le _)
          | some start =>
              have hread := hwithin.reading start rfl
              rw [parseArgsLoop]
              split
              · exact ih _ _ _ _ (PiecesWithin.save hread.1 hread.2
                  (length_slice_le argsBuf hread.2) arrayLen) (Nat.zero_le _)
              · rw [if_neg (by simp)]
                exact ih _ _ _ _ (PiecesWithin.inside hread.1 (Nat.le_succ_of_le hread.2))
                  (Nat.zero_le _)

private theorem parseConfigArgs_length_le (arrayLen : Nat) (argsBuf : Text) :
    (terminated (parseConfigArgs arrayLen argsBuf)).length ≤ argsBuf.length + 1 := by
  have hle := parseArgsLoop_length_le arrayLen argsBuf argsBuf 0 0 none []
    (PiecesWithin.outside (Nat.le_refl _)) (Nat.zero_le _)
  rwa [Nat.zero_add] at hle

end Splitting

private theorem placedArgs_length_le (uninit : Nat → Uninit) (index : Nat) (ts : List Text) :
    (terminated (placedArgs uninit index ts)).length ≤ (terminated ts).length := by
  induction ts generalizing index with
  | nil => exact Nat.le_refl _
  | cons t ts ih =>
      have hle := unescapeString_length_le uninit index t
      have hrest := ih (index + (unescapeString uninit index t).length + 1)
      rw [placedArgs, terminated_cons, terminated_cons, List.length_append, List.length_append,
        List.length_cons, List.length_cons]
      omega

private theorem parseTransformAndPlaceIntoBuf_spec (uninit : Nat → Uninit) (dest : Text) (index : Nat)
    (source : Text) (hindex : index ≤ dest.length) :
    ∃ dest' index', parseTransformAndPlaceIntoBuf uninit dest index source = some (dest', index') ∧
      dest'.length = dest.length ∧ index' ≤ dest.length := by
  rw [parseTransformAndPlaceIntoBuf]
  split
  · rename_i hroom
    have hpieces := parseConfigArgs_length_le nvramMaxRecordsInSection source
    have hplaced := placedArgs_length_le uninit index
      (parseConfigArgs nvramMaxRecordsInSection source)
    obtain ⟨dest', hplace, hlen, -⟩ := placeArgs_spec uninit
      (parseConfigArgs nvramMaxRecordsInSection source) dest index (by omega)
    exact ⟨dest', _, hplace, hlen, by omega⟩
  · exact ⟨dest, index, rfl, rfl, hindex⟩

private theorem handleArgRecords_spec (uninit : Nat → Uninit) (values : List Text) (buffer : Text)
    (index : Nat) (hindex : index ≤ buffer.length) :
    ∃ buffer' index', handleArgRecords uninit buffer index (values.map fun v => [some v]) =
        some (buffer', index') ∧
      buffer'.length = buffer.length ∧ index' ≤ buffer.length := by
  induction values generalizing buffer index with
  | nil => exact ⟨buffer, index, rfl, rfl, hindex⟩
  | cons value values ih =>
      obtain ⟨b, i, hplace, hlen, hi⟩ := parseTransformAndPlaceIntoBuf_spec uninit buffer index value
        hindex
      obtain ⟨b', i', hrest, hlen', hi'⟩ := ih b i (hlen ▸ hi)
      refine ⟨b', i', ?_, hlen'.trans hlen, hlen ▸ hi'⟩
      rw [List.map_cons, handleArgRecords, List.head?_cons, Option.bind_some, id, Option.bind_some,
        hplace]
      exact hrest

/-- No value is written beyond the buffer, whatever the size of the buffer and the values. -/
theorem handleArgRecords_inBounds (uninit : Nat → Uninit) (buffer : Text) (values : List Text) :
    ∃ buffer' index', handleArgRecords uninit buffer 0 (values.map fun v => [some v]) =
        some (buffer', index') ∧
      buffer'.length = buffer.length ∧ index' ≤ buffer.length :=
  handleArgRecords_spec uninit values buffer 0 (Nat.zero_le _)

end Zrt.Nvram
