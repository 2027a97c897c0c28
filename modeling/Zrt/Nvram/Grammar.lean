import Zrt.Nvram.Lines

/-!
# Grammar of a section

The records of a text in terms of its lines and fields. Without comments every line is read and
closes its own record.
-/

namespace Zrt.Nvram

/-- The parameters of a line, in order. -/
def lineParams (l : Text) : Params := (lineFields l).filterMap fun f => keyValue (trim f)

/-- A field of the line fails the self-test of the trimming. -/
def LineFails (l : Text) : Prop := ∃ f ∈ lineFields l, FailsTrimming f

instance (l : Text) : Decidable (LineFails l) :=
  inferInstanceAs (Decidable (∃ f ∈ lineFields l, FailsTrimming f))

/-- The records of a list of lines, `acc` being the parameters of the open record. -/
def groupRecords (keyList : KeyList) : Params → List (LineRole × Text) → List ParsedRecord
  | acc, [] => (keyList.recordOf acc).toList
  | acc, (.closed, l) :: ls =>
      (keyList.recordOf (acc ++ lineParams l)).toList ++ groupRecords keyList [] ls
  | acc, (.unclosed, l) :: ls => groupRecords keyList (acc ++ lineParams l) ls
  | acc, (.skipped, _) :: ls => groupRecords keyList acc ls

/-- Some line that is read fails the trimming. -/
def ReadFails (ls : List (LineRole × Text)) : Prop :=
  ∃ x ∈ ls, x.1 ≠ .skipped ∧ LineFails x.2

instance (ls : List (LineRole × Text)) : Decidable (ReadFails ls) :=
  inferInstanceAs (Decidable (∃ x ∈ ls, x.1 ≠ .skipped ∧ LineFails x.2))

def decidableStrayAtEnd : (m : LineMode) → (ls : List Text) → Decidable (StrayAtEnd m ls)
  | _, [] => isFalse id
  | m, [l] => inferInstanceAs (Decidable (StrayComment (m.comment l)))
  | m, l :: k :: ls => decidableStrayAtEnd (m.next l) (k :: ls)

instance (m : LineMode) (ls : List Text) : Decidable (StrayAtEnd m ls) := decidableStrayAtEnd m ls

section Interpretation

variable (keyList : KeyList) (sf : Bool)

theorem runEvents_fields_fails (fs : List Text) (p : ParseState)
    (h : ∃ f ∈ fs, FailsTrimming f) : runEvents keyList sf p (fs.map .field) = none := by
  induction fs generalizing p with
  | nil => simp at h
  | cons f fs ih =>
      rw [List.map_cons, runEvents, applyEvent, fieldParam]
      by_cases hf : FailsTrimming f
      · rw [if_pos hf]
        rfl
      · have hrest : ∃ g ∈ fs, FailsTrimming g := by simpa [hf] using h
        rw [if_neg hf, Option.map_some, Option.bind_some]
        exact ih _ hrest

theorem runEvents_fields (fs : List Text) (params : Params) (p : ParseState)
    (h : p.Holds keyList params) (hok : ¬ ∃ f ∈ fs, FailsTrimming f) :
    ∃ q, runEvents keyList sf p (fs.map .field) = some q ∧ q.records = p.records ∧
      q.Holds keyList (params ++ fs.filterMap fun f => keyValue (trim f)) := by
  induction fs generalizing params p with
  | nil => exact ⟨p, rfl, rfl, by simpa using h⟩
  | cons f fs ih =>
      have hf : ¬ FailsTrimming f := fun hf => hok ⟨f, by simp, hf⟩
      have hrest : ¬ ∃ g ∈ fs, FailsTrimming g := fun ⟨g, hg, hfail⟩ =>
        hok ⟨g, List.mem_cons_of_mem _ hg, hfail⟩
      obtain ⟨hsave, hrec⟩ := h.saveField (keyValue (trim f))
      obtain ⟨q, hq, hqrec, hholds⟩ := ih _ _ hsave hrest
      refine ⟨q, ?_, hqrec.trans hrec, ?_⟩
      · rw [List.map_cons, runEvents, applyEvent, fieldParam, if_neg hf]
        exact hq
      · rw [List.append_assoc] at hholds
        cases hkv : keyValue (trim f) <;> simpa [hkv] using hholds

/-- The records stored when the events `es` are followed by the end of the text. -/
def closeEvents (p : ParseState) (es : List LexEvent) : Option (List ParsedRecord) :=
  ((runEvents keyList sf p es).bind (ParseState.handleParsedParams keyList)).map ParseState.records

private theorem closeEvents_append (p : ParseState) (es fs : List LexEvent) :
    closeEvents keyList sf p (es ++ fs) =
      (runEvents keyList sf p es).bind fun q => closeEvents keyList sf q fs := by
  rw [closeEvents, runEvents_append]
  cases runEvents keyList sf p es <;> rfl

theorem closeEvents_nil {params : Params} {p : ParseState} (h : p.Holds keyList params) :
    closeEvents keyList sf p [] = some (p.records ++ (keyList.recordOf params).toList) := by
  rw [closeEvents, runEvents, Option.bind_some, h.handleParsedParams]
  rfl

private theorem closeEvents_endRecord {params : Params} {p : ParseState} (h : p.Holds keyList params)
    (es : List LexEvent) :
    closeEvents keyList sf p (.endRecord :: es) =
      closeEvents keyList sf { ParseState.start with
        records := p.records ++ (keyList.recordOf params).toList } es := by
  rw [closeEvents, runEvents, applyEvent, h.handleParsedParams]
  rfl

private theorem closeEvents_stray {params : Params} {p : ParseState} (h : p.Holds keyList params) :
    closeEvents keyList sf p [.stray] =
      if sf then none else some (p.records ++ (keyList.recordOf params).toList) := by
  cases sf with
  | true => rfl
  | false => exact closeEvents_nil keyList false h

theorem closeEvents_fields {params : Params} {p : ParseState} (h : p.Holds keyList params)
    (l : Text) (es : List LexEvent) (r : Option (List ParsedRecord))
    (hrest : ∀ q : ParseState, q.records = p.records → q.Holds keyList (params ++ lineParams l) →
      closeEvents keyList sf q es = r) :
    closeEvents keyList sf p ((lineFields l).map .field ++ es) =
      if LineFails l then none else r := by
  rw [closeEvents_append]
  by_cases hfails : LineFails l
  · rw [if_pos hfails, runEvents_fields_fails keyList sf _ p hfails]
    rfl
  · obtain ⟨q, hq, hrec, hholds⟩ := runEvents_fields keyList sf (lineFields l) params p h hfails
    rw [if_neg hfails, hq]
    exact hrest q hrec hholds

private theorem closeEvents_comment {params : Params} {p : ParseState} (h : p.Holds keyList params)
    (cm : Text) :
    closeEvents keyList sf p (if StrayComment cm then [.stray] else []) =
      if sf = true ∧ StrayComment cm then none
      else some (p.records ++ (keyList.recordOf params).toList) := by
  by_cases hcm : StrayComment cm
  · simp only [hcm, if_true, and_true]
    exact closeEvents_stray keyList sf h
  · simp only [hcm, if_false, and_false]
    exact closeEvents_nil keyList sf h

theorem readFails_cons (x : LineRole × Text) (ls : List (LineRole × Text)) :
    ReadFails (x :: ls) ↔ (x.1 ≠ .skipped ∧ LineFails x.2) ∨ ReadFails ls := by
  simp [ReadFails]

theorem ite_none_or {α : Type*} (A B : Prop) [Decidable A] [Decidable B] [Decidable (A ∨ B)]
    (r : Option α) :
    (if A then none else if B then none else r) = if A ∨ B then none else r := by
  by_cases hA : A <;> by_cases hB : B <;> simp [hA, hB]

theorem role_processing_ne_skipped (w : Bool) (l : Text) :
    (LineMode.processing w).role l ≠ .skipped := by
  simp only [LineMode.role]
  split <;> decide

private theorem closeEvents_lastLine (m : LineMode) (l : Text) (params : Params) (p : ParseState)
    (h : p.Holds keyList params) :
    closeEvents keyList sf p (lineEvents m [l]) =
      if ReadFails (lineRoles m [l]) ∨ (sf = true ∧ StrayAtEnd m [l]) then none
      else some (p.records ++ groupRecords keyList params (lineRoles m [l])) := by
  cases m with
  | skipping =>
      rw [show lineEvents .skipping [l] = (if StrayComment l then [.stray] else []) from rfl,
        closeEvents_comment keyList sf h l]
      simp [lineRoles, LineMode.role, ReadFails, StrayAtEnd, LineMode.comment, groupRecords]
  | processing w =>
      rw [lineEvents, if_neg (role_processing_ne_skipped w l)]
      rw [closeEvents_fields keyList sf h l _
        (if sf = true ∧ StrayComment (lineComment l) then none
          else some (p.records ++ (keyList.recordOf (params ++ lineParams l)).toList))
        fun q hrec hq => by rw [← hrec]; exact closeEvents_comment keyList sf hq _,
        ite_none_or]
      refine if_congr ?_ rfl ?_
      · simp [lineRoles, role_processing_ne_skipped, StrayAtEnd, ReadFails, LineMode.comment]
      · by_cases hhash : '#' ∈ l
        · simp [lineRoles, LineMode.role, hhash, groupRecords]
        · simp [lineRoles, LineMode.role, hhash, groupRecords, KeyList.recordOf_nil]

private theorem closeEvents_line_cons (w : Bool) (l k : Text) (ls : List Text) (params : Params)
    (p : ParseState) (h : p.Holds keyList params)
    (ih : ∀ params q, ParseState.Holds keyList params q →
      closeEvents keyList sf q (lineEvents ((LineMode.processing w).next l) (k :: ls)) =
        if ReadFails (lineRoles ((LineMode.processing w).next l) (k :: ls)) ∨
            (sf = true ∧ StrayAtEnd ((LineMode.processing w).next l) (k :: ls)) then none
        else some (q.records ++
          groupRecords keyList params (lineRoles ((LineMode.processing w).next l) (k :: ls)))) :
    closeEvents keyList sf p (lineEvents (.processing w) (l :: k :: ls)) =
      if ReadFails (lineRoles (.processing w) (l :: k :: ls)) ∨
          (sf = true ∧ StrayAtEnd (.processing w) (l :: k :: ls)) then none
      else some (p.records ++
        groupRecords keyList params (lineRoles (.processing w) (l :: k :: ls))) := by
  have hne : k :: ls ≠ [] := List.cons_ne_nil k ls
  rw [lineEvents]
  · rw [if_neg (role_processing_ne_skipped w l), List.append_assoc]
    rw [closeEvents_fields keyList sf h l _
      (if ReadFails (lineRoles ((LineMode.processing w).next l) (k :: ls)) ∨
          (sf = true ∧ StrayAtEnd ((LineMode.processing w).next l) (k :: ls)) then none
        else some (p.records ++
          groupRecords keyList params (lineRoles (.processing w) (l :: k :: ls))))
      fun q hrec hq => ?_, ite_none_or]
    · have hroles : lineRoles (.processing w) (l :: k :: ls) =
          ((LineMode.processing w).role l, l) ::
            lineRoles ((LineMode.processing w).next l) (k :: ls) := rfl
      have hstray : StrayAtEnd (.processing w) (l :: k :: ls) =
          StrayAtEnd ((LineMode.processing w).next l) (k :: ls) := rfl
      refine if_congr ?_ rfl rfl
      rw [hstray, hroles, readFails_cons, or_assoc]
      exact or_congr_left ⟨fun hl => ⟨role_processing_ne_skipped w l, hl⟩, And.right⟩
    · by_cases hhash : '#' ∈ l
      · have hrest := ih _ q hq
        simpa [LineMode.role, hhash, hrec, lineRoles, groupRecords] using hrest
      · have hrest := ih [] _ (ParseState.Holds.start keyList
          (q.records ++ (keyList.recordOf (params ++ lineParams l)).toList))
        simpa [LineMode.role, hhash, closeEvents_endRecord keyList sf hq, hrec,
          lineRoles, groupRecords] using hrest
  · exact hne

private theorem closeEvents_lineEvents (m : LineMode) (ls : List Text) (hne : ls ≠ []) (params : Params)
    (p : ParseState) (h : p.Holds keyList params) :
    closeEvents keyList sf p (lineEvents m ls) =
      if ReadFails (lineRoles m ls) ∨ (sf = true ∧ StrayAtEnd m ls) then none
      else some (p.records ++ groupRecords keyList params (lineRoles m ls)) := by
  induction ls generalizing m params p with
  | nil => exact absurd rfl hne
  | cons l ls ih =>
      cases ls with
      | nil => exact closeEvents_lastLine keyList sf m l params p h
      | cons k ls =>
          have hne' : k :: ls ≠ [] := List.cons_ne_nil k ls
          cases m with
          | skipping =>
              have hrest := ih (.processing true) hne' params p h
              rw [lineEvents]
              · simpa [LineMode.role, lineRoles, readFails_cons, StrayAtEnd, LineMode.next,
                  groupRecords] using hrest
              · exact hne'
          | processing w =>
              exact closeEvents_line_cons keyList sf w l k ls params p h
                fun params q hq => ih _ hne' params q hq

end Interpretation

theorem mem_splitOn_piece (c : Char) (text l : Text) (h : l ∈ text.splitOn c) :
    ∀ d ∈ l, d ∈ text ∧ d ≠ c := by
  induction text generalizing l with
  | nil =>
      rw [List.splitOn_nil, List.mem_singleton] at h
      simp [h]
  | cons d text ih =>
      have hkeep : ∀ k ∈ text.splitOn c, ∀ x ∈ k, x ∈ d :: text ∧ x ≠ c := fun k hk x hx =>
        ⟨List.mem_cons_of_mem _ (ih k hk x hx).1, (ih k hk x hx).2⟩
      rw [List.splitOn_cons_eq_if_modifyHead] at h
      by_cases hd : d = c
      · rw [if_pos (by simpa using hd)] at h
        rcases List.mem_cons.mp h with rfl | h
        · simp
        · exact hkeep l h
      · rw [if_neg (by simpa using hd)] at h
        obtain ⟨g, gs, hg⟩ := List.exists_cons_of_ne_nil (List.splitOn_ne_nil c text)
        rw [hg] at hkeep h
        rw [List.modifyHead_cons, List.mem_cons] at h
        rcases h with rfl | h
        · intro x hx
          rcases List.mem_cons.mp hx with rfl | hx
          · exact ⟨by simp, hd⟩
          · exact hkeep g (by simp) x hx
        · exact hkeep l (List.mem_cons_of_mem _ h)

theorem not_mem_of_mem_splitOn (c : Char) (text l : Text) (h : l ∈ text.splitOn c) : c ∉ l :=
  fun hc => (mem_splitOn_piece c text l h c hc).2 rfl

theorem lexEvents_splitOn (text : Text) :
    lexEvents (.processing false []) text =
      lineEvents (.processing false) (text.splitOn '\n') := by
  have hjoin : joinLines (text.splitOn '\n') = text := List.intercalate_splitOn '\n'
  have hevents := lexEvents_joinLines (.processing false) (text.splitOn '\n')
    (List.splitOn_ne_nil _ _) fun l hl => not_mem_of_mem_splitOn '\n' text l hl
  rw [hjoin] at hevents
  exact hevents

/-- The parser in terms of the lines of the text and of what becomes of them. -/
theorem getParsedRecords_lines (before : Char) (keyList : KeyList) (text : Text)
    (hlen : text.length < 32768) :
    getParsedRecords before text keyList =
      if ReadFails (lineRoles (.processing false) (text.splitOn '\n')) ∨
          (StrayFails before text ∧ StrayAtEnd (.processing false) (text.splitOn '\n')) then none
      else some (groupRecords keyList [] (lineRoles (.processing false) (text.splitOn '\n'))) := by
  have hclose := closeEvents_lineEvents keyList (StrayFails before text) (.processing false)
    (text.splitOn '\n') (List.splitOn_ne_nil _ _) [] .start (ParseState.Holds.start keyList [])
  rw [← lexEvents_splitOn] at hclose
  rw [getParsedRecords_eq before keyList text hlen]
  simpa only [closeEvents, decide_eq_true_eq, ParseState.start, List.nil_append] using hclose

private theorem recordOf_of_mem_groupRecords {keyList : KeyList} {acc : Params}
    {ls : List (LineRole × Text)} {r : ParsedRecord} (h : r ∈ groupRecords keyList acc ls) :
    ∃ params, keyList.recordOf params = some r := by
  fun_induction groupRecords keyList acc ls with
  | case1 acc => exact ⟨acc, Option.mem_toList.mp h⟩
  | case2 acc l ls ih =>
      rcases List.mem_append.mp h with h | h
      · exact ⟨_, Option.mem_toList.mp h⟩
      · exact ih h
  | case3 acc l ls ih => exact ih h
  | case4 acc l ls ih => exact ih h

theorem recordOf_of_mem_getParsedRecords {before : Char} {keyList : KeyList} {text : Text}
    (hlen : text.length < 32768) {records : List ParsedRecord}
    (h : getParsedRecords before text keyList = some records) :
    ∀ r ∈ records, ∃ params, keyList.recordOf params = some r := by
  rw [getParsedRecords_lines before keyList text hlen] at h
  split at h
  · cases h
  · obtain rfl := Option.some.inj h
    exact fun r => recordOf_of_mem_groupRecords

private theorem lineRoles_commentFree (ls : List Text) (h : ∀ l ∈ ls, '#' ∉ l) :
    lineRoles (.processing false) ls = ls.map fun l => (.closed, l) := by
  induction ls with
  | nil => rfl
  | cons l ls ih =>
      have hl : '#' ∉ l := h l (by simp)
      have hrest := ih fun k hk => h k (List.mem_cons_of_mem _ hk)
      simpa [lineRoles, LineMode.role, LineMode.next, hl] using hrest

private theorem not_strayAtEnd_commentFree (ls : List Text) (h : ∀ l ∈ ls, '#' ∉ l) :
    ¬ StrayAtEnd (.processing false) ls := by
  induction ls with
  | nil => exact id
  | cons l ls ih =>
      have hl : '#' ∉ l := h l (by simp)
      cases ls with
      | nil =>
          rw [StrayAtEnd, LineMode.comment, lineComment_of_not_mem l hl]
          exact fun hs => absurd hs.1 (by simp)
      | cons k ls =>
          have hrest := ih fun x hx => h x (List.mem_cons_of_mem _ hx)
          have hnext : (LineMode.processing false).next l = .processing false := by
            simp [LineMode.next, hl]
          rw [← hnext] at hrest
          exact hrest

private theorem groupRecords_closed (keyList : KeyList) (ls : List Text) :
    groupRecords keyList [] (ls.map fun l => (.closed, l)) =
      ls.filterMap fun l => keyList.recordOf (lineParams l) := by
  induction ls with
  | nil => simp [groupRecords, KeyList.recordOf_nil]
  | cons l ls ih =>
      rw [List.map_cons, groupRecords, ih, List.nil_append]
      cases hr : keyList.recordOf (lineParams l) <;> simp [hr]

theorem getParsedRecords_commentFree (before : Char) (keyList : KeyList) (text : Text)
    (hlen : text.length < 32768) (h : ∀ l ∈ text.splitOn '\n', '#' ∉ l) :
    getParsedRecords before text keyList =
      if ∃ l ∈ text.splitOn '\n', LineFails l then none
      else some ((text.splitOn '\n').filterMap fun l => keyList.recordOf (lineParams l)) := by
  rw [getParsedRecords_lines before keyList text hlen, lineRoles_commentFree _ h,
    groupRecords_closed]
  refine if_congr ?_ rfl rfl
  simp [ReadFails, not_strayAtEnd_commentFree _ h]

/-- A field split at its first delimiter, both halves trimmed. -/
def fieldPair (f : Text) : Option (Text × Text) :=
  if '=' ∈ f then
    some (trim (f.takeWhile fun c => c ≠ '='), trim (f.dropWhile fun c => c ≠ '=').tail)
  else none

/-- The records of a section without comments: one for each line whose fields, split at the commas,
give a value to at least one known key and, with the defaults, to every key. -/
def sectionRecords (keyList : KeyList) (text : Text) : List ParsedRecord :=
  (text.splitOn '\n').filterMap fun l => keyList.recordOf ((l.splitOn ',').filterMap fieldPair)

theorem trim_append_left (l s : Text) (h : AllBlank l) : trim (l ++ s) = trim s := by
  rw [trim, List.dropWhile_append_of_pos h, trim]

theorem trim_append_right (s r : Text) (h : AllBlank r) : trim (s ++ r) = trim s := by
  by_cases hs : AllBlank s
  · rw [trim_append_left s r hs, trim_allBlank hs, trim_allBlank h]
  · have hne : (s.dropWhile isCharToStrip).isEmpty = false := by
      rw [List.isEmpty_eq_false_iff]
      exact fun hnil => hs (List.dropWhile_eq_nil_iff.mp hnil)
    have hrev : ∀ c ∈ r.reverse, isCharToStrip c = true := fun c hc => h c (List.mem_reverse.mp hc)
    rw [trim, List.dropWhile_append, hne, if_neg Bool.false_ne_true, List.rdropWhile,
      List.reverse_append, List.dropWhile_append_of_pos hrev]
    rfl

private theorem keyValue_trim (f : Text) (hnul : nul ∉ f) : keyValue (trim f) = fieldPair f := by
  by_cases hblank : AllBlank f
  · have hnot : '=' ∉ f := fun h => absurd (hblank '=' h) (by decide)
    rw [trim_allBlank hblank, fieldPair, if_neg hnot]
    rfl
  · obtain ⟨l, r, hf, hl, hr, -⟩ := exists_trim f hblank
    have hl' : '=' ∉ l := fun h => absurd (hl '=' h) (by decide)
    have hr' : '=' ∉ r := fun h => absurd (hr '=' h) (by decide)
    have hwhole : ((trim f).takeWhile fun c => decide (c ≠ nul)) = trim f := by
      refine List.takeWhile_eq_self_iff.mpr fun c hc => ?_
      have : c ≠ nul := fun heq => hnul (by rw [hf, ← heq]; simp [hc])
      simpa using this
    rw [keyValue, hwhole]
    cases hk : (trim f).findIdx? fun c => decide (c = '=') with
    | none =>
        have hnot : '=' ∉ trim f := fun h => by
          simpa using List.findIdx?_eq_none_iff.mp hk '=' h
        have hnot' : '=' ∉ f := by
          rw [hf]
          simp [hl', hr', hnot]
        rw [fieldPair, if_neg hnot']
        rfl
    | some k =>
        obtain ⟨hlt, hat, hbefore⟩ := List.findIdx?_eq_some_iff_getElem.mp hk
        have hsplit : trim f = (trim f).take k ++ '=' :: (trim f).drop (k + 1) := by
          have hget : (trim f)[k] = '=' := of_decide_eq_true hat
          rw [← hget, List.getElem_cons_drop, List.take_append_drop]
        have hkey : '=' ∉ (trim f).take k := by
          intro hmem
          obtain ⟨j, hj, hjk⟩ := List.mem_iff_getElem.mp hmem
          rw [List.length_take] at hj
          rw [List.getElem_take] at hjk
          exact hbefore j (by omega) (by simpa using hjk)
        have hpre : ∀ c ∈ l ++ (trim f).take k, decide (c ≠ '=') = true := by
          intro c hc
          refine decide_eq_true fun heq => ?_
          rcases List.mem_append.mp hc with hc | hc
          · exact hl' (heq ▸ hc)
          · exact hkey (heq ▸ hc)
        have hfull : f = (l ++ (trim f).take k) ++ '=' :: ((trim f).drop (k + 1) ++ r) := by
          conv_lhs => rw [hf, hsplit]
          simp
        have htake : (f.takeWhile fun c => decide (c ≠ '=')) = l ++ (trim f).take k := by
          conv_lhs => rw [hfull]
          rw [List.takeWhile_append_of_pos hpre, List.takeWhile_cons_of_neg (by simp),
            List.append_nil]
        have hdrop : (f.dropWhile fun c => decide (c ≠ '=')).tail = (trim f).drop (k + 1) ++ r := by
          conv_lhs => rw [hfull]
          rw [List.dropWhile_append_of_pos hpre, List.dropWhile_cons_of_neg (by simp),
            List.tail_cons]
        rw [fieldPair, if_pos (by rw [hfull]; simp), htake, hdrop, trim_append_left _ _ hl,
          trim_append_right _ _ hr]
        rfl

private theorem mem_of_mem_splitOn {c d : Char} {text l : Text} (hl : l ∈ text.splitOn c) (hd : d ∈ l) :
    d ∈ text :=
  (mem_splitOn_piece c text l hl d hd).1

/-- A comment-free section parses exactly to the records of its grammar. -/
theorem getParsedRecords_eq_sectionRecords (before : Char) (keyList : KeyList) (text : Text)
    (hlen : text.length ≤ 10240) (hnul : nul ∉ text) (hhash : '#' ∉ text)
    (hfields : ∀ l ∈ text.splitOn '\n', ∀ f ∈ l.splitOn ',', ¬ FailsTrimming f) :
    getParsedRecords before text keyList = some (sectionRecords keyList text) := by
  have hline : ∀ l ∈ text.splitOn '\n', '#' ∉ l := fun l hl h =>
    hhash (mem_of_mem_splitOn hl h)
  have hlineFields : ∀ l ∈ text.splitOn '\n', lineFields l = l.splitOn ',' := by
    intro l hl
    rw [lineFields, lineContent_of_not_mem l (hline l hl)]
  have hok : ¬ ∃ l ∈ text.splitOn '\n', LineFails l := by
    rintro ⟨l, hl, f, hf, hfail⟩
    rw [hlineFields l hl] at hf
    exact hfields l hl f hf hfail
  rw [getParsedRecords_commentFree before keyList text (by omega) hline, if_neg hok,
    sectionRecords, Option.some.injEq]
  refine List.filterMap_congr fun l hl => ?_
  congr 1
  rw [lineParams, hlineFields l hl]
  refine List.filterMap_congr fun f hf => keyValue_trim f fun h => ?_
  exact hnul (mem_of_mem_splitOn hl (mem_of_mem_splitOn hf h))

/-- A required key and one with a default. -/
def twoKeys : KeyList where
  keys := [⟨['a'], none⟩, ⟨['b'], some ['d']⟩]
  count_le := by decide
  nodup := by decide
  key_ne_nil := by decide

theorem getParsedRecords_eq_sectionRecords_twoKeys :
    getParsedRecords '[' ['a', '=', '1', ',', ' ', '\n', 'b', '=', '\n', 'b', ' ', '=', ' ', '2',
        ',', 'a', '=', '3'] twoKeys =
      some (sectionRecords twoKeys ['a', '=', '1', ',', ' ', '\n', 'b', '=', '\n', 'b', ' ', '=',
        ' ', '2', ',', 'a', '=', '3']) :=
  getParsedRecords_eq_sectionRecords '[' twoKeys _ (by decide) (by decide) (by decide)
    (by decide)

end Zrt.Nvram
