import Zrt.Nvram.Comments
import Zrt.Nvram.Sections
import Zrt.Nvram.StoredRecords

/-!
# Capacity of the parser

The arrays of a fixed size that `nvram_parse` fills: the entries of the sections, the records of a
section and the parsed sections. The entry of a section is written before its index is compared with
the size of the array, and the index of a record is compared with nothing.
-/

namespace Zrt.Nvram

/-- A write into `sections` or into `records`, or a call of the parser on a slot of
`parsed_sections`. -/
inductive ArrayWrite where
  | entry (index : Nat)
  | record (index : Nat)
  | slot (index : Nat)
deriving DecidableEq

/-- The index is one of the array. -/
def ArrayWrite.Within : ArrayWrite → Prop
  | .entry index => index < nvramMaxSectionsCount
  | .record index => index < nvramMaxRecordsInSection
  | .slot index => index < nvramMaxSectionsCount

def ArrayWrite.decidableWithin : (w : ArrayWrite) → Decidable w.Within
  | .entry index => inferInstanceAs (Decidable (index < nvramMaxSectionsCount))
  | .record index => inferInstanceAs (Decidable (index < nvramMaxRecordsInSection))
  | .slot index => inferInstanceAs (Decidable (index < nvramMaxSectionsCount))

instance (w : ArrayWrite) : Decidable w.Within := w.decidableWithin

/-- The entries that `get_config_structure` writes from `cursor` on, `count` sections being there
and `room` being left in the array. Past the end of the array one more entry is written; only then
the assertion fails. -/
def formedEntries (data : Text) : Nat → Nat → Nat → List Nat
  | 0, count, cursor =>
      match getNearestSectionStart data cursor with
      | some (some _) => [count]
      | _ => []
  | room + 1, count, cursor =>
      match getNearestSectionStart data cursor with
      | some (some s) => count :: formedEntries data room (count + 1) (s.2 + s.1.length)
      | _ => []

/-- The text of a section, from its header on. -/
def sectionText (data : Text) (s : ConfigSection) : Text :=
  (data.drop s.offsetStart).take (s.offsetEnd - s.offsetStart)

/-- The loop over the sections, `count` of them being parsed: the slot of each, its records, and no
further section if the parser fails an assertion. -/
def parseWrites (before : Char) (data : Text) :
    List (ConfigSection × MNvramObserver) → Nat → List ArrayWrite
  | [], _ => []
  | (s, obs) :: handed, count =>
      .slot count ::
        ((List.range (storedRecords ((before :: data).getD s.offsetStart nul) (sectionText data s)
          obs.keys).length).map .record ++
          match parseSection before data s obs with
          | none => []
          | some records =>
              parseWrites before data handed (if records = [] then count else count + 1))

/-- What a call of `nvram_parse` writes. -/
def nvramParseWrites (before : Char) (observers : List MNvramObserver) (data : Text) :
    List ArrayWrite :=
  (formedEntries data nvramMaxSectionsCount 0 0).map .entry ++
    match getConfigStructure data with
    | none => []
    | some sections => parseWrites before data (observedSections observers sections) 0

/-- The first section among the lines from offset `off` on: its name and offset, and the lines left
behind as many characters as the name has. -/
def nextHeader : Nat → List Text → Option (Option (Text × Nat × List Text))
  | _, [] => some none
  | off, l :: ls =>
      match bracketed l with
      | some b =>
          if FailsTrimming b then none
          else some (some (trim b, off, l.drop (trim b).length :: ls))
      | none => if Unclosed l then some none else nextHeader (off + l.length + 1) ls

/-- The sections among the lines, as long as there is `room`. -/
def scanLines : Nat → Nat → List Text → Option (List (Text × Nat))
  | 0, off, ls =>
      match nextHeader off ls with
      | some none => some []
      | _ => none
  | room + 1, off, ls =>
      match nextHeader off ls with
      | none => none
      | some none => some []
      | some (some (name, start, rest)) =>
          (scanLines room (start + name.length) rest).map fun ss => (name, start) :: ss

/-- There is room for the sections among the lines. -/
def HeadersFit : Nat → Nat → List Text → Prop
  | 0, off, ls =>
      match nextHeader off ls with
      | some (some _) => False
      | _ => True
  | room + 1, off, ls =>
      match nextHeader off ls with
      | some (some (name, start, rest)) => HeadersFit room (start + name.length) rest
      | _ => True

/-- The sections of a text, by its lines. -/
def lineSections (text : Text) : Option (List ConfigSection) :=
  (scanLines nvramMaxSectionsCount 0 (text.splitOn '\n')).map (sectionsBetween text.length)

/-- No section up to the first one with a line that fails the trimming completes more than a hundred
records. -/
def RecordsFit (data : Text) : List (ConfigSection × MNvramObserver) → Prop
  | [] => True
  | (s, obs) :: handed =>
      (completedRecords obs.keys false [] (sectionLines (sectionText data s))).length ≤
          nvramMaxRecordsInSection ∧
        (¬ ReadFails (sectionLines (sectionText data s)) → RecordsFit data handed)

/-! ## The scan by lines -/

/-- The lines that are left of a text from the cursor on. -/
structure LinesFrom (data : Text) (cursor : Nat) (ls : List Text) : Prop where
  split : ∃ pre, data = pre ++ joinLines ls ∧ pre.length = cursor
  nl : ∀ l ∈ ls, '\n' ∉ l

private theorem nearestSectionLoop_bracket {data : Text} {fuel cursorPos : Nat} {s : Text × Nat}
    (h : nearestSectionLoop data fuel cursorPos = some (some s)) : data[s.2]? = some '[' := by
  induction fuel generalizing cursorPos with
  | zero => cases h
  | succ fuel ih =>
      rw [nearestSectionLoop] at h
      cases hstart : strchr data cursorPos '[' with
      | none =>
          rw [hstart] at h
          cases h
      | some boundStart =>
          rw [hstart] at h
          cases hend : strchr data boundStart ']' with
          | none =>
              simp only [hend] at h
              cases h
          | some boundEnd =>
              simp only [hend] at h
              split at h
              · split at h
                · obtain ⟨name, -, heq⟩ := Option.map_eq_some_iff.mp h
                  rw [← Option.some.inj heq]
                  exact (strchr_spec hstart).2.2
                · exact ih h
              · cases h

private theorem sectionStarts_bracket {data : Text} {room cursor : Nat} {starts : List (Text × Nat)}
    (h : sectionStarts data room cursor = some starts) : ∀ s ∈ starts, data[s.2]? = some '[' := by
  induction room generalizing cursor starts with
  | zero =>
      rcases sectionStarts_cases 0 h with rfl | ⟨room, s, rest, hroom, -⟩
      · simp
      · cases hroom
  | succ room ih =>
      rcases sectionStarts_cases (room + 1) h with rfl | ⟨room, s, rest, hroom, rfl, hs, hrest⟩
      · simp
      · obtain rfl := Nat.succ.inj hroom
        intro t ht
        rcases List.mem_cons.mp ht with rfl | ht
        · exact nearestSectionLoop_bracket hs
        · exact ih hrest t ht

private theorem length_sectionStarts_le {data : Text} {room cursor : Nat} {starts : List (Text × Nat)}
    (h : sectionStarts data room cursor = some starts) : starts.length ≤ room := by
  induction room generalizing cursor starts with
  | zero =>
      rcases sectionStarts_cases 0 h with rfl | ⟨room, s, rest, hroom, -⟩
      · exact Nat.le_refl 0
      · cases hroom
  | succ room ih =>
      rcases sectionStarts_cases (room + 1) h with rfl | ⟨room, s, rest, hroom, rfl, -, hrest⟩
      · exact Nat.zero_le _
      · obtain rfl := Nat.succ.inj hroom
        exact Nat.succ_le_succ (ih hrest)

private theorem linesFrom_drop {pre l : Text} {ls : List Text} (hnl : ∀ k ∈ l :: ls, '\n' ∉ k) (n : Nat)
    (hn : n ≤ l.length) :
    LinesFrom (pre ++ joinLines (l :: ls)) (pre.length + n) (l.drop n :: ls) where
  split := by
    refine ⟨pre ++ l.take n, ?_, ?_⟩
    · rw [joinLines_cons, joinLines_cons, List.append_assoc, ← List.append_assoc (l.take n),
        List.take_append_drop]
    · rw [List.length_append, List.length_take, Nat.min_eq_left hn]
  nl := by
    intro k hk
    rcases List.mem_cons.mp hk with rfl | hk
    · exact fun hmem => hnl l List.mem_cons_self (List.mem_of_mem_drop hmem)
    · exact hnl k (List.mem_cons_of_mem _ hk)

private theorem name_length_le {l b : Text} (h : bracketed l = some b) : (trim b).length ≤ l.length := by
  obtain ⟨y, rfl, -⟩ := exists_of_bracketed h
  have hle := trim_length_le b
  simp only [List.length_cons, List.length_append]
  omega

private theorem getNearestSectionStart_joinLines (pre : Text) (ls : List Text) (hnl : ∀ l ∈ ls, '\n' ∉ l)
    (hlen : (pre ++ joinLines ls).length < 32768) :
    getNearestSectionStart (pre ++ joinLines ls) pre.length =
      (nextHeader pre.length ls).map (Option.map fun h => (h.1, h.2.1)) := by
  induction ls generalizing pre with
  | nil => exact getNearestSectionStart_none pre _ (by simp [joinLines])
  | cons l ls ih =>
      have hl : '\n' ∉ l := hnl l List.mem_cons_self
      have htail := endsLine_lineTail ls
      rw [joinLines_cons] at hlen ⊢
      rw [nextHeader]
      cases hb : bracketed l with
      | none =>
          rw [getNearestSectionStart_plainLine pre hb hl htail]
          by_cases hun : Unclosed l
          · simp only [if_pos hun]
            rfl
          · simp only [if_neg hun]
            cases ls with
            | nil =>
                rw [lineTail_nil, List.take_nil, List.append_nil]
                have hend := getNearestSectionStart_none (pre ++ l) [] (by simp)
                rw [List.append_nil] at hend
                exact hend
            | cons k ls =>
                have hrest := ih (pre ++ l ++ ['\n']) (fun x hx => hnl x (List.mem_cons_of_mem _ hx))
                  (by simpa using hlen)
                rw [length_append_lineEnd] at hrest
                simpa [Nat.add_assoc] using hrest
      | some b =>
          obtain ⟨y, rfl, hclose⟩ := exists_of_bracketed hb
          have hshort : b.length < 32768 := by
            simp only [List.length_append, List.length_cons] at hlen
            omega
          rw [getNearestSectionStart_header pre hclose fun h => hl (by simp [h]),
            stripText_eq b hshort]
          by_cases hfail : FailsTrimming b
          · simp only [if_pos hfail]
            rfl
          · simp only [if_neg hfail]
            rfl

private theorem linesFrom_nextHeader (pre : Text) (ls : List Text) (hnl : ∀ l ∈ ls, '\n' ∉ l)
    {name : Text} {start : Nat} {rest : List Text}
    (h : nextHeader pre.length ls = some (some (name, start, rest))) :
    LinesFrom (pre ++ joinLines ls) (start + name.length) rest := by
  induction ls generalizing pre with
  | nil => cases h
  | cons l ls ih =>
      rw [nextHeader] at h
      cases hb : bracketed l with
      | some b =>
          rw [hb] at h
          by_cases hfail : FailsTrimming b
          · simp only [if_pos hfail] at h
            cases h
          · simp only [if_neg hfail] at h
            cases h
            exact linesFrom_drop hnl _ (name_length_le hb)
      | none =>
          rw [hb] at h
          by_cases hun : Unclosed l
          · simp only [if_pos hun] at h
            cases h
          · simp only [if_neg hun] at h
            cases ls with
            | nil => cases h
            | cons k ls =>
                rw [append_joinLines_cons_cons]
                apply ih _ fun x hx => hnl x (List.mem_cons_of_mem _ hx)
                rw [length_append_lineEnd]
                exact h

section Scan

variable {data : Text} {cursor : Nat} {ls : List Text}

theorem getNearestSectionStart_lines (h : LinesFrom data cursor ls) (hlen : data.length < 32768) :
    getNearestSectionStart data cursor =
      (nextHeader cursor ls).map (Option.map fun h => (h.1, h.2.1)) := by
  obtain ⟨pre, rfl, rfl⟩ := h.split
  exact getNearestSectionStart_joinLines pre ls h.nl hlen

theorem LinesFrom.next (h : LinesFrom data cursor ls) {name : Text} {start : Nat}
    {rest : List Text} (hnext : nextHeader cursor ls = some (some (name, start, rest))) :
    LinesFrom data (start + name.length) rest := by
  obtain ⟨pre, rfl, rfl⟩ := h.split
  exact linesFrom_nextHeader pre ls h.nl hnext

private theorem sectionStarts_eq_scanLines (room : Nat) (h : LinesFrom data cursor ls)
    (hlen : data.length < 32768) : sectionStarts data room cursor = scanLines room cursor ls := by
  have hfound := getNearestSectionStart_lines h hlen
  induction room generalizing cursor ls with
  | zero =>
      rw [sectionStarts, scanLines, hfound]
      cases nextHeader cursor ls with
      | none => rfl
      | some found => cases found <;> rfl
  | succ room ih =>
      rw [sectionStarts, scanLines, hfound]
      cases hnext : nextHeader cursor ls with
      | none => rfl
      | some found =>
          cases found with
          | none => rfl
          | some header =>
              obtain ⟨name, start, rest⟩ := header
              have hrest := h.next hnext
              simp only [Option.map_some, ih hrest (getNearestSectionStart_lines hrest hlen)]

private theorem formedEntries_lt_iff (room count : Nat) (h : LinesFrom data cursor ls)
    (hlen : data.length < 32768) :
    (∀ i ∈ formedEntries data room count cursor, i < count + room) ↔ HeadersFit room cursor ls := by
  have hfound := getNearestSectionStart_lines h hlen
  induction room generalizing count cursor ls with
  | zero =>
      rw [formedEntries, HeadersFit, hfound]
      cases nextHeader cursor ls with
      | none => simp
      | some found => cases found <;> simp
  | succ room ih =>
      rw [formedEntries, HeadersFit, hfound]
      cases hnext : nextHeader cursor ls with
      | none => simp
      | some found =>
          cases found with
          | none => simp
          | some header =>
              obtain ⟨name, start, rest⟩ := header
              have hrest := h.next hnext
              have hiff := ih (count + 1) hrest (getNearestSectionStart_lines hrest hlen)
              have hsum : count + 1 + room = count + (room + 1) := by omega
              rw [hsum] at hiff
              simpa using hiff

end Scan

theorem linesFrom_start (text : Text) : LinesFrom text 0 (text.splitOn '\n') where
  split := ⟨[], (List.intercalate_splitOn '\n').symm, rfl⟩
  nl := fun l hl => not_mem_of_mem_splitOn '\n' text l hl

private theorem getConfigStructure_lines (data : NvramData) :
    getConfigStructure data.text = lineSections data.text := by
  have hlen : data.text.length < 32768 := by
    have := data.length_le
    omega
  have hends : setSectionEnds data.text.length = sectionsBetween data.text.length :=
    funext (setSectionEnds_eq data.text.length)
  rw [getConfigStructure, lineSections, hends,
    sectionStarts_eq_scanLines _ (linesFrom_start data.text) hlen]

/-! ## The parsed sections -/

/-- A section begins with the bracket of its header. -/
def Bracketed (data : Text) (s : ConfigSection) : Prop := data[s.offsetStart]? = some '['

theorem bracketed_of_getConfigStructure {data : Text} {sections : List ConfigSection}
    (h : getConfigStructure data = some sections) : ∀ s ∈ sections, Bracketed data s := by
  obtain ⟨starts, hstarts, rfl⟩ := Option.map_eq_some_iff.mp h
  have hbracket := sectionStarts_bracket hstarts
  intro s hs
  rw [setSectionEnds_eq] at hs
  have hmem := List.mem_map_of_mem (f := fun s : ConfigSection => (s.name, s.offsetStart)) hs
  rw [sectionsBetween_starts] at hmem
  exact hbracket _ hmem

private theorem length_le_of_getConfigStructure {data : Text} {sections : List ConfigSection}
    (h : getConfigStructure data = some sections) : sections.length ≤ nvramMaxSectionsCount := by
  obtain ⟨starts, hstarts, rfl⟩ := Option.map_eq_some_iff.mp h
  have hlength := congrArg List.length (sectionsBetween_starts data.length starts)
  rw [List.length_map] at hlength
  rw [setSectionEnds_eq, hlength]
  exact length_sectionStarts_le hstarts

theorem not_strayToken {data : Text} {s : ConfigSection} (h : Bracketed data s) (before : Char) :
    ¬ StrayToken before (sectionText data s) := by
  rintro ⟨⟨-, -, hhead⟩, -⟩
  rw [sectionText, List.head?_take, List.head?_drop, h] at hhead
  split at hhead
  · cases hhead
  · exact absurd (Option.some.inj hhead) (by decide)

theorem length_sectionText_le (data : Text) (s : ConfigSection) :
    (sectionText data s).length ≤ data.length := by
  rw [sectionText, List.length_take, List.length_drop]
  omega

section Sections

variable (before : Char) {data : Text} (hlen : data.length < 32768) {s : ConfigSection}
include hlen

theorem storedRecords_section (h : Bracketed data s) (keyList : KeyList) :
    storedRecords before (sectionText data s) keyList =
      completedRecords keyList false [] (sectionLines (sectionText data s)) := by
  have hquiet : decide (StrayToken before (sectionText data s)) = false :=
    decide_eq_false (not_strayToken h before)
  rw [← hquiet]
  exact storedRecords_lines before keyList _ (Nat.lt_of_le_of_lt (length_sectionText_le data s) hlen)

theorem parseSection_eq_none_iff (h : Bracketed data s) (obs : MNvramObserver) :
    parseSection before data s obs = none ↔ ReadFails (sectionLines (sectionText data s)) := by
  have hlines := getParsedRecords_lines ((before :: data).getD s.offsetStart nul) obs.keys
    (sectionText data s) (Nat.lt_of_le_of_lt (length_sectionText_le data s) hlen)
  have hquiet := not_strayToken h ((before :: data).getD s.offsetStart nul)
  have hparse : parseSection before data s obs =
      getParsedRecords ((before :: data).getD s.offsetStart nul) (sectionText data s) obs.keys := rfl
  rw [hparse, hlines, ite_eq_left_iff]
  constructor
  · intro hnone
    by_contra hread
    cases hnone (not_or.mpr ⟨hread, hquiet⟩)
  · exact fun hread hnot => absurd (Or.inl hread) hnot

/-- The loop over sections that all have a slot stays in the arrays if and only if the records of
each section do. -/
private theorem parseWrites_within_iff (handed : List (ConfigSection × MNvramObserver)) (count : Nat)
    (hslots : count + handed.length ≤ nvramMaxSectionsCount)
    (hbracket : ∀ x ∈ handed, Bracketed data x.1) :
    (∀ w ∈ parseWrites before data handed count, w.Within) ↔ RecordsFit data handed := by
  induction handed generalizing count with
  | nil => simp [parseWrites, RecordsFit]
  | cons x handed ih =>
      obtain ⟨s, obs⟩ := x
      rw [List.length_cons] at hslots
      have hs : Bracketed data s := hbracket _ List.mem_cons_self
      have hrest : ∀ x ∈ handed, Bracketed data x.1 := fun x hx =>
        hbracket x (List.mem_cons_of_mem _ hx)
      have hslot : (ArrayWrite.slot count).Within := by
        change count < nvramMaxSectionsCount
        omega
      have hrecords (n : Nat) : (∀ w ∈ (List.range n).map ArrayWrite.record, w.Within) ↔
          n ≤ nvramMaxRecordsInSection := by
        simp only [List.forall_mem_map, List.mem_range, ArrayWrite.Within]
        constructor
        · intro h
          by_contra hmore
          exact Nat.lt_irrefl _ (h _ (Nat.lt_of_not_le hmore))
        · exact fun h i hi => Nat.lt_of_lt_of_le hi h
      rw [parseWrites, RecordsFit, List.forall_mem_cons, List.forall_mem_append, hrecords,
        storedRecords_section _ hlen hs]
      refine (and_iff_right hslot).trans (and_congr_right fun _ => ?_)
      cases hparse : parseSection before data s obs with
      | none =>
          have hread := (parseSection_eq_none_iff before hlen hs obs).mp hparse
          simp [hread]
      | some records =>
          have hread : ¬ ReadFails (sectionLines (sectionText data s)) := fun hread => by
            rw [(parseSection_eq_none_iff before hlen hs obs).mpr hread] at hparse
            cases hparse
          rw [forall_prop_of_true hread]
          apply ih _ _ hrest
          split
          · omega
          · omega

end Sections

/-- Every write of `nvram_parse` stays in its array if and only if there is room for the sections
that the lines of the text introduce and none of those that are parsed completes more records than
there is room for. -/
theorem nvramParse_within_iff (before : Char) (observers : List MNvramObserver)
    (data : NvramData) :
    (∀ w ∈ nvramParseWrites before observers data.text, w.Within) ↔
      HeadersFit nvramMaxSectionsCount 0 (data.text.splitOn '\n') ∧
        ∀ sections, lineSections data.text = some sections →
          RecordsFit data.text (observedSections observers sections) := by
  have hlen : data.text.length < 32768 := by
    have := data.length_le
    omega
  have hentries : (∀ w ∈ (formedEntries data.text nvramMaxSectionsCount 0 0).map ArrayWrite.entry,
      w.Within) ↔ HeadersFit nvramMaxSectionsCount 0 (data.text.splitOn '\n') := by
    rw [← formedEntries_lt_iff nvramMaxSectionsCount 0 (linesFrom_start data.text) hlen,
      List.forall_mem_map, Nat.zero_add]
    rfl
  rw [nvramParseWrites, List.forall_mem_append, hentries, ← getConfigStructure_lines data]
  refine and_congr_right fun _ => ?_
  cases hsections : getConfigStructure data.text with
  | none => simp
  | some sections =>
      have hbracket := bracketed_of_getConfigStructure hsections
      have hcount : 0 + (observedSections observers sections).length ≤ nvramMaxSectionsCount := by
        rw [Nat.zero_add]
        exact (List.length_filterMap_le _ _).trans (length_le_of_getConfigStructure hsections)
      have hhanded : ∀ x ∈ observedSections observers sections, Bracketed data.text x.1 := by
        intro x hx
        obtain ⟨s, hs, hx⟩ := List.mem_filterMap.mp hx
        obtain ⟨obs, -, rfl⟩ := Option.map_eq_some_iff.mp hx
        exact hbracket s hs
      refine (parseWrites_within_iff before hlen _ 0 hcount hhanded).trans ⟨?_, fun h => h _ rfl⟩
      intro hfit other heq
      rw [← Option.some.inj heq]
      exact hfit

/-- A section of one line more than there is room for records. -/
def manyRecords : NvramData where
  text := ['[', 'a', 'r', 'g', 's', ']', '\n'] ++
    (List.replicate 101 ['a', 'r', 'g', 's', '=', '\n']).flatten
  nul_not_mem := by decide +kernel
  length_le := by decide +kernel

example : (completedRecords argObserver.keys false [] (sectionLines manyRecords.text)).length =
    nvramMaxRecordsInSection + 1 := by
  decide

/-- A header without records, eight times. -/
def eightSections : NvramData where
  text := (List.replicate 8 ['[', 't', 'i', 'm', 'e', ']', '\n']).flatten
  nul_not_mem := by decide
  length_le := by decide

/-- The eighth section gets an entry behind the array before the assertion fails. -/
theorem nvramParse_eightSections :
    ¬ ∀ (before : Char) (observers : List MNvramObserver) (data : NvramData),
      ∀ w ∈ nvramParseWrites before observers data.text, w.Within := by
  intro h
  have hentry : ArrayWrite.entry 7 ∈
      nvramParseWrites nul nvramLoader.observers eightSections.text := by
    decide
  exact absurd (h nul nvramLoader.observers eightSections _ hentry) (by decide)

end Zrt.Nvram
