import Zrt.Nvram.Grammar

/-!
# Stored records

What the parser has put into its array by the time it returns or fails an assertion. Every record that
the lines of the text complete is stored at the next index, without a look at the size of the array;
a line that fails the trimming ends the program before its own record.
-/

namespace Zrt.Nvram

/-- The records in the array when the loop ends. A pass that fails has stored nothing: it closes a
record only after its token, and a record that cannot be closed is not stored. -/
def storedLoop (before : Char) (text : Text) (keyList : KeyList) :
    Text → Nat → LexState → ParseState → List ParsedRecord
  | [], _, _, p => ((p.handleParsedParams keyList).getD p).records
  | c :: rest, cursor, s, p =>
      match actOn before text keyList (cursor + 1)
        (s.classify cursor c (cursor + 1 = text.length)) p with
      | none => p.records
      | some (s', p') => storedLoop before text keyList rest (cursor + 1) s' p'

/-- The records that a call of `get_parsed_records` stores, at the indices from zero on. -/
def storedRecords (before : Char) (text : Text) (keyList : KeyList) : List ParsedRecord :=
  storedLoop before text keyList (if text = [] then [nul] else text) 0 .start .start

section Returning

variable {before : Char} {text : Text} {keyList : KeyList}

private theorem storedLoop_of_parseLoop {rest : Text} {cursor : Nat} {s : LexState} {p q : ParseState}
    (h : parseLoop before text keyList rest cursor s p = some q) :
    storedLoop before text keyList rest cursor s p =
      ((q.handleParsedParams keyList).getD q).records := by
  induction rest generalizing cursor s p with
  | nil =>
      obtain rfl : p = q := Option.some.inj h
      rfl
  | cons c rest ih =>
      obtain ⟨x, hpass, hrest⟩ := Option.bind_eq_some_iff.mp h
      rw [storedLoop, hpass]
      exact ih hrest

theorem storedRecords_of_getParsedRecords {records : List ParsedRecord}
    (h : getParsedRecords before text keyList = some records) :
    storedRecords before text keyList = records := by
  obtain ⟨q, hq, rfl⟩ := Option.map_eq_some_iff.mp h
  obtain ⟨p, hloop, hclose⟩ := Option.bind_eq_some_iff.mp hq
  rw [storedRecords, storedLoop_of_parseLoop hloop, hclose]
  rfl

end Returning

/-- The records that lines complete. A line that is read and fails ends the program; so does a stray
token, in front of the record that the end of the text would close. -/
def completedRecords (keyList : KeyList) (strayFails : Bool) :
    Params → List (LineRole × Text) → List ParsedRecord
  | acc, [] => if strayFails then [] else (keyList.recordOf acc).toList
  | acc, (.closed, l) :: ls =>
      if LineFails l then []
      else (keyList.recordOf (acc ++ lineParams l)).toList ++
        completedRecords keyList strayFails [] ls
  | acc, (.unclosed, l) :: ls =>
      if LineFails l then [] else completedRecords keyList strayFails (acc ++ lineParams l) ls
  | acc, (.skipped, _) :: ls => completedRecords keyList strayFails acc ls

/-! ## Storing by events -/

section Events

variable (keyList : KeyList) (sf : Bool)

/-- The records stored when the events are followed by the end of the text. -/
def storedEvents (p : ParseState) : List LexEvent → List ParsedRecord
  | [] => ((p.handleParsedParams keyList).getD p).records
  | e :: es =>
      match applyEvent keyList sf p e with
      | none => p.records
      | some q => storedEvents q es

private theorem records_saveField (p : ParseState) (kv : Option (Text × Text)) :
    (p.saveField keyList kv).records = p.records := by
  cases kv with
  | none => rfl
  | some kv =>
      simp only [ParseState.saveField, ParseState.saveParam]
      cases keyFind keyList kv.1 with
      | none => rfl
      | some i =>
          simp only
          split
          · rfl
          · rfl

theorem records_of_field {p q : ParseState} {f : Text}
    (h : applyEvent keyList sf p (.field f) = some q) : q.records = p.records := by
  rw [applyEvent] at h
  obtain ⟨kv, -, rfl⟩ := Option.map_eq_some_iff.mp h
  exact records_saveField keyList p kv

theorem storedEvents_append {p q : ParseState} {es : List LexEvent}
    (h : runEvents keyList sf p es = some q) (fs : List LexEvent) :
    storedEvents keyList sf p (es ++ fs) = storedEvents keyList sf q fs := by
  induction es generalizing p with
  | nil =>
      cases h
      rfl
  | cons e es ih =>
      obtain ⟨p', hp', hrest⟩ := Option.bind_eq_some_iff.mp h
      rw [List.cons_append, storedEvents, hp']
      exact ih hrest

theorem storedEvents_of_none {p : ParseState} {e : LexEvent}
    (h : applyEvent keyList sf p e = none) (es : List LexEvent) :
    storedEvents keyList sf p (e :: es) = p.records := by
  rw [storedEvents, h]

private theorem storedEvents_endRecord_of_none {p : ParseState} {f : Text}
    (h : runEvents keyList sf p [.field f, .endRecord] = none) (es : List LexEvent) :
    storedEvents keyList sf p (.field f :: .endRecord :: es) = p.records := by
  rw [storedEvents]
  cases hf : applyEvent keyList sf p (.field f) with
  | none => rfl
  | some q =>
      rw [runEvents, hf, Option.bind_some] at h
      have hclose : applyEvent keyList sf q .endRecord = none := by
        cases hq : applyEvent keyList sf q .endRecord with
        | none => rfl
        | some r =>
            rw [runEvents, hq] at h
            cases h
      exact (storedEvents_of_none keyList sf hclose es).trans (records_of_field keyList sf hf)

private theorem storedEvents_fields_fails {fs : List Text} {p : ParseState}
    (h : runEvents keyList sf p (fs.map .field) = none) (es : List LexEvent) :
    storedEvents keyList sf p (fs.map .field ++ es) = p.records := by
  induction fs generalizing p with
  | nil => cases h
  | cons f fs ih =>
      rw [List.map_cons, List.cons_append, storedEvents]
      rw [List.map_cons, runEvents] at h
      cases hf : applyEvent keyList sf p (.field f) with
      | none => rfl
      | some q =>
          rw [hf, Option.bind_some] at h
          exact (ih h).trans (records_of_field keyList sf hf)

private theorem storedEvents_nil {params : Params} {p : ParseState} (h : p.Holds keyList params) :
    storedEvents keyList sf p [] = p.records ++ (keyList.recordOf params).toList := by
  rw [storedEvents, h.handleParsedParams]
  rfl

private theorem storedEvents_endRecord {params : Params} {p : ParseState} (h : p.Holds keyList params)
    (es : List LexEvent) :
    storedEvents keyList sf p (.endRecord :: es) =
      storedEvents keyList sf { ParseState.start with
        records := p.records ++ (keyList.recordOf params).toList } es := by
  rw [storedEvents, applyEvent, h.handleParsedParams]

private theorem storedEvents_comment {params : Params} {p : ParseState} (h : p.Holds keyList params)
    (cm : Text) :
    storedEvents keyList sf p (if StrayComment cm then [.stray] else []) =
      p.records ++ completedRecords keyList (decide (sf = true ∧ StrayComment cm)) params [] := by
  rw [completedRecords]
  by_cases hcm : StrayComment cm
  · cases sf with
    | true =>
        simp only [hcm, if_true, and_true, decide_true, List.append_nil]
        exact storedEvents_of_none keyList true rfl []
    | false =>
        simp only [hcm, if_true, Bool.false_eq_true, false_and, decide_false, if_false]
        exact storedEvents_nil keyList false h
  · simp only [hcm, if_false, and_false, decide_false, Bool.false_eq_true]
    exact storedEvents_nil keyList sf h

theorem storedEvents_fields {params : Params} {p : ParseState} (h : p.Holds keyList params)
    (l : Text) (es : List LexEvent) (r : List ParsedRecord)
    (hrest : ∀ q : ParseState, q.records = p.records → q.Holds keyList (params ++ lineParams l) →
      storedEvents keyList sf q es = p.records ++ r) :
    storedEvents keyList sf p ((lineFields l).map .field ++ es) =
      p.records ++ if LineFails l then [] else r := by
  by_cases hfails : LineFails l
  · rw [if_pos hfails, List.append_nil]
    exact storedEvents_fields_fails keyList sf
      (runEvents_fields_fails keyList sf _ p hfails) es
  · obtain ⟨q, hq, hrec, hholds⟩ := runEvents_fields keyList sf (lineFields l) params p h hfails
    rw [if_neg hfails, storedEvents_append keyList sf hq]
    exact hrest q hrec hholds

private theorem storedEvents_lastLine (m : LineMode) (l : Text) (params : Params) (p : ParseState)
    (h : p.Holds keyList params) :
    storedEvents keyList sf p (lineEvents m [l]) =
      p.records ++ completedRecords keyList (decide (sf = true ∧ StrayAtEnd m [l])) params
        (lineRoles m [l]) := by
  cases m with
  | skipping => exact storedEvents_comment keyList sf h l
  | processing w =>
      rw [lineEvents, if_neg (role_processing_ne_skipped w l)]
      rw [storedEvents_fields keyList sf h l _ _
        fun q hrec hq => by rw [← hrec]; exact storedEvents_comment keyList sf hq (lineComment l)]
      congr 1
      by_cases hhash : '#' ∈ l
      · have hroles : lineRoles (.processing w) [l] = [(.unclosed, l)] := by
          simp [lineRoles, LineMode.role, hhash]
        rw [hroles, completedRecords]
        rfl
      · have hroles : lineRoles (.processing w) [l] = [(.closed, l)] := by
          simp [lineRoles, LineMode.role, hhash]
        rw [hroles, completedRecords]
        simp [completedRecords, lineComment_of_not_mem l hhash, StrayComment,
          KeyList.recordOf_nil]

private theorem storedEvents_lineEvents (m : LineMode) (ls : List Text) (hne : ls ≠ []) (params : Params)
    (p : ParseState) (h : p.Holds keyList params) :
    storedEvents keyList sf p (lineEvents m ls) =
      p.records ++ completedRecords keyList (decide (sf = true ∧ StrayAtEnd m ls)) params
        (lineRoles m ls) := by
  induction ls generalizing m params p with
  | nil => exact absurd rfl hne
  | cons l ls ih =>
      cases ls with
      | nil => exact storedEvents_lastLine keyList sf m l params p h
      | cons k ls =>
          have hne' : k :: ls ≠ [] := List.cons_ne_nil k ls
          cases m with
          | skipping =>
              rw [lineEvents]
              · exact ih (.processing true) hne' params p h
              · exact hne'
          | processing w =>
              have hstray : StrayAtEnd (.processing w) (l :: k :: ls) =
                  StrayAtEnd ((LineMode.processing w).next l) (k :: ls) := rfl
              have hroles : lineRoles (.processing w) (l :: k :: ls) =
                  ((LineMode.processing w).role l, l) ::
                    lineRoles ((LineMode.processing w).next l) (k :: ls) := rfl
              rw [lineEvents]
              · rw [if_neg (role_processing_ne_skipped w l), List.append_assoc, hroles]
                by_cases hhash : '#' ∈ l
                · have hrole : (LineMode.processing w).role l = .unclosed := if_pos hhash
                  rw [hrole, if_neg (by decide), List.nil_append, completedRecords]
                  refine storedEvents_fields keyList sf h l _ _ fun q hrec hq => ?_
                  rw [← hrec]
                  exact ih _ hne' _ q hq
                · have hrole : (LineMode.processing w).role l = .closed := if_neg hhash
                  rw [hrole, if_pos rfl, completedRecords]
                  refine storedEvents_fields keyList sf h l _ _ fun q hrec hq => ?_
                  rw [List.singleton_append, storedEvents_endRecord keyList sf hq,
                    ih _ hne' [] _ (ParseState.Holds.start keyList _), hrec, List.append_assoc]
                  rfl
              · exact hne'

end Events

theorem LexMode.next_events (m : LexMode) (c : Char) :
    ((m.next c).1 = [] ∧ ((m.next c).2.finish = [] ∨ ∃ e, (m.next c).2.finish = [e])) ∨
      ∃ f, ((m.next c).1 = [.field f] ∨ (m.next c).1 = [.field f, .endRecord]) ∧
        ((m.next c).2.finish = [] ∨ (m.next c).2.finish = [.field []]) := by
  cases m with
  | processing w f =>
      by_cases hhash : c = '#'
      · subst c
        exact .inr ⟨f, .inl rfl, .inl rfl⟩
      · by_cases hcomma : c = ','
        · subst c
          exact .inr ⟨f, .inl rfl, .inr rfl⟩
        · by_cases hnl : c = '\n'
          · subst c
            refine .inr ⟨f, .inr rfl, ?_⟩
            cases w with
            | true => exact .inl rfl
            | false => exact .inr rfl
          · left
            simp only [next, hhash, hcomma, hnl, if_false]
            exact ⟨trivial, .inr ⟨_, rfl⟩⟩
  | comment k =>
      left
      by_cases hnl : c = '\n'
      · subst c
        exact ⟨rfl, .inr ⟨_, rfl⟩⟩
      · by_cases hhash : c = '#'
        · subst c
          exact ⟨rfl, .inl rfl⟩
        · simp only [next, hnl, hhash, if_false]
          refine ⟨trivial, ?_⟩
          by_cases hfresh : k = .fresh
          · rw [if_pos hfresh]
            exact .inl rfl
          · rw [if_neg hfresh]
            exact .inr ⟨_, rfl⟩

section Refinement

variable (before : Char) (keyList : KeyList) (sf : Bool)

theorem storedEvents_next_of_none {m : LexMode} {c : Char} {p : ParseState}
    (h : runEvents keyList sf p (m.next c).1 = none) (es : List LexEvent) :
    storedEvents keyList sf p ((m.next c).1 ++ es) = p.records := by
  rcases m.next_events c with ⟨hnil, -⟩ | ⟨f, hf | hf, -⟩
  · rw [hnil] at h
    cases h
  · rw [hf] at h ⊢
    apply storedEvents_of_none
    cases hfield : applyEvent keyList sf p (.field f) with
    | none => rfl
    | some q =>
        rw [runEvents, hfield] at h
        cases h
  · rw [hf] at h ⊢
    exact storedEvents_endRecord_of_none keyList sf h es

private theorem storedEvents_last_of_none {m : LexMode} {c : Char} {p : ParseState}
    (h : runEvents keyList sf p ((m.next c).1 ++ (m.next c).2.finish) = none) :
    storedEvents keyList sf p ((m.next c).1 ++ (m.next c).2.finish) = p.records := by
  cases hnext : runEvents keyList sf p (m.next c).1 with
  | none => exact storedEvents_next_of_none keyList sf hnext _
  | some q =>
      rw [runEvents_append, hnext, Option.bind_some] at h
      rcases m.next_events c with ⟨hnil, hfinish | ⟨e, hfinish⟩⟩ | ⟨f, -, hfinish | hfinish⟩
      · rw [hfinish] at h
        cases h
      · rw [hnil] at hnext ⊢
        cases hnext
        rw [hfinish] at h ⊢
        apply storedEvents_of_none
        cases he : applyEvent keyList sf p e with
        | none => rfl
        | some q =>
            rw [runEvents, he] at h
            cases h
      · rw [hfinish] at h
        cases h
      · rw [hfinish, runEvents, applyEvent_emptyField] at h
        cases h

private theorem storedLoop_eq (done rest : Text) (c : Char) (m : LexMode) (s : LexState)
    (hlen : (done ++ c :: rest).length < 32768) (h : m.Matches done s) (p : ParseState) :
    storedLoop before (done ++ c :: rest) keyList (c :: rest) done.length s p =
      storedEvents keyList (StrayFails before (done ++ c :: rest)) p (lexEvents m (c :: rest)) := by
  induction rest generalizing done c m s p with
  | nil =>
      have hlast : decide (done.length + 1 = (done ++ [c]).length) = true := by simp
      have hact := actOn_last before keyList done c m s hlen h p
      rw [lexEvents, lexEvents, storedLoop, hlast]
      cases hpass : actOn before (done ++ [c]) keyList (done.length + 1)
          (s.classify done.length c true) p with
      | none =>
          rw [hpass, Option.map_none] at hact
          exact (storedEvents_last_of_none keyList _ hact.symm).symm
      | some x =>
          rw [hpass, Option.map_some] at hact
          have hend := storedEvents_append keyList _ hact.symm []
          rw [List.append_nil] at hend
          exact hend.symm
  | cons d rest ih =>
      have hmore : decide (done.length + 1 = (done ++ c :: d :: rest).length) = false := by simp
      obtain ⟨s', hs', hact⟩ := actOn_next before keyList done (d :: rest) c m s
        (StrayFails before (done ++ c :: d :: rest)) hlen h
      have hsplit : done ++ c :: d :: rest = done ++ [c] ++ d :: rest := by simp
      rw [lexEvents, storedLoop, hmore, hact p]
      cases hnext : runEvents keyList (StrayFails before (done ++ c :: d :: rest)) p
          (m.next c).1 with
      | none => exact (storedEvents_next_of_none keyList _ hnext _).symm
      | some q =>
          have hih := ih (done ++ [c]) d (m.next c).2 s' (by rw [← hsplit]; exact hlen) hs' q
          rw [← hsplit, List.length_append, List.length_singleton] at hih
          exact hih.trans (storedEvents_append keyList _ hnext _).symm

private theorem storedRecords_eq (text : Text) (hlen : text.length < 32768) :
    storedRecords before text keyList =
      storedEvents keyList (StrayFails before text) .start (lexEvents (.processing false []) text) := by
  have hstart : LexMode.Matches [] (.processing false []) LexState.start := ⟨[], rfl, rfl⟩
  cases text with
  | nil => rfl
  | cons c cs =>
      rw [storedRecords, if_neg (List.cons_ne_nil c cs)]
      exact storedLoop_eq before keyList [] cs c _ _ hlen hstart .start

theorem storedRecords_lines (text : Text) (hlen : text.length < 32768) :
    storedRecords before text keyList =
      completedRecords keyList
        (decide (StrayFails before text ∧ StrayAtEnd (.processing false) (text.splitOn '\n'))) []
        (lineRoles (.processing false) (text.splitOn '\n')) := by
  have hstored := storedEvents_lineEvents keyList (StrayFails before text) (.processing false)
    (text.splitOn '\n') (List.splitOn_ne_nil _ _) [] .start (ParseState.Holds.start keyList [])
  rw [← lexEvents_splitOn] at hstored
  rw [storedRecords_eq before keyList text hlen]
  simpa only [decide_eq_true_eq, ParseState.start, List.nil_append] using hstored

end Refinement

end Zrt.Nvram
