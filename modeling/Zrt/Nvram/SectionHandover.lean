import Mathlib.Data.List.Nodup
import Zrt.Nvram.ParserCapacity

/-!
# Sections and their observers

`nvram_parse` goes through the sections and hands each one that has an observer to `parse_section`.
The program ends in a section that fails the parser, so that what is handed over is the front of the
sections with an observer.
-/

namespace Zrt.Nvram

/-- `parse_section` returns with the records in their array. -/
def parseReturns (before : Char) (data : Text) (x : ConfigSection × MNvramObserver) : Bool :=
  (parseSection before data x.1 x.2).isSome &&
    decide ((storedRecords ((before :: data).getD x.1.offsetStart nul) (sectionText data x.1)
      x.2.keys).length ≤ nvramMaxRecordsInSection)

/-- The calls of `parse_section`: none behind one that fails an assertion or writes past the array of
its records. -/
def parseCalls (before : Char) (data : Text) :
    List (ConfigSection × MNvramObserver) → List (ConfigSection × MNvramObserver)
  | [] => []
  | x :: observed =>
      x :: if parseReturns before data x then parseCalls before data observed else []

/-- The sections that `nvram_parse` hands to an observer. -/
def nvramHands (before : Char) (observers : List MNvramObserver) (data : Text) :
    List (ConfigSection × MNvramObserver) :=
  match getConfigStructure data with
  | none => []
  | some sections => parseCalls before data (observedSections observers sections)

/-- A line of the section cannot be trimmed, or it completes more records than there is room for. -/
def StopsParser (data : Text) (keyList : KeyList) (s : ConfigSection) : Prop :=
  ReadFails (sectionLines (sectionText data s)) ∨
    nvramMaxRecordsInSection <
      (completedRecords keyList false [] (sectionLines (sectionText data s))).length

instance (data : Text) (keyList : KeyList) (s : ConfigSection) :
    Decidable (StopsParser data keyList s) := inferInstanceAs (Decidable (_ ∨ _))

/-- The names go to the observers of exactly these names, and no section with an observer stands
behind one that stops the parser. -/
def HandedOver (observers : List MNvramObserver) (data : Text) : List ConfigSection → Prop
  | [] => True
  | s :: ss =>
      NamedFirst s.name observers ∧
        if ∃ obs ∈ observers, s.name = obs.observedSectionName ∧ StopsParser data obs.keys s then
          ∀ t ∈ ss, ∀ obs ∈ observers, t.name ≠ obs.observedSectionName
        else HandedOver observers data ss

def decidableNamedFirst (name : Text) :
    (observers : List MNvramObserver) → Decidable (NamedFirst name observers)
  | [] => isTrue trivial
  | obs :: rest =>
      have := decidableNamedFirst name rest
      inferInstanceAs (Decidable (obs.observedSectionName = name ∨
        (¬ name <+: obs.observedSectionName ∧ NamedFirst name rest)))

instance (name : Text) (observers : List MNvramObserver) : Decidable (NamedFirst name observers) :=
  decidableNamedFirst name observers

def decidableHandedOver (observers : List MNvramObserver) (data : Text) :
    (sections : List ConfigSection) → Decidable (HandedOver observers data sections)
  | [] => isTrue trivial
  | s :: ss =>
      have := decidableHandedOver observers data ss
      inferInstanceAs (Decidable (NamedFirst s.name observers ∧
        if ∃ obs ∈ observers, s.name = obs.observedSectionName ∧ StopsParser data obs.keys s then
          ∀ t ∈ ss, ∀ obs ∈ observers, t.name ≠ obs.observedSectionName
        else HandedOver observers data ss))

instance (observers : List MNvramObserver) (data : Text) (sections : List ConfigSection) :
    Decidable (HandedOver observers data sections) := decidableHandedOver observers data sections

/-! ## The calls -/

section Calls

variable {before : Char} {data : Text} {observers : List MNvramObserver}

private theorem parseCalls_isPrefix (before : Char) (data : Text)
    (observed : List (ConfigSection × MNvramObserver)) :
    parseCalls before data observed <+: observed := by
  induction observed with
  | nil => exact List.nil_prefix
  | cons x observed ih =>
      rw [parseCalls, List.prefix_cons_inj]
      split
      · exact ih
      · exact List.nil_prefix

private theorem observedSections_cons (observers : List MNvramObserver) (s : ConfigSection)
    (ss : List ConfigSection) :
    observedSections observers (s :: ss) =
      ((sectionObserver observers s.name).map fun obs => (s, obs)).toList ++
        observedSections observers ss := by
  cases hobs : sectionObserver observers s.name with
  | none => simp [observedSections, hobs]
  | some obs => simp [observedSections, hobs]

private theorem mem_observedSections {sections : List ConfigSection} {x : ConfigSection × MNvramObserver}
    (hx : x ∈ observedSections observers sections) :
    x.1 ∈ sections ∧ sectionObserver observers x.1.name = some x.2 := by
  obtain ⟨s, hs, hx⟩ := List.mem_filterMap.mp hx
  obtain ⟨obs, hobs, rfl⟩ := Option.map_eq_some_iff.mp hx
  exact ⟨hs, hobs⟩

private theorem parseSections_eq (observed : List (ConfigSection × MNvramObserver))
    {parsed : List (MNvramObserver × List ParsedRecord)}
    (h : parseSections before data observed = some parsed)
    (hroom : ∀ x ∈ observed, (storedRecords ((before :: data).getD x.1.offsetStart nul)
      (sectionText data x.1) x.2.keys).length ≤ nvramMaxRecordsInSection) :
    parsed = (parseCalls before data observed).filterMap fun x =>
      ((parseSection before data x.1 x.2).filter fun records => records ≠ []).map
        fun records => (x.2, records) := by
  induction observed generalizing parsed with
  | nil => exact (Option.some.inj h).symm
  | cons x observed ih =>
      obtain ⟨s, obs⟩ := x
      obtain ⟨records, hrecords, h⟩ := Option.bind_eq_some_iff.mp h
      obtain ⟨rest, hrest, rfl⟩ := Option.map_eq_some_iff.mp h
      have hreturns : parseReturns before data (s, obs) = true := by
        rw [parseReturns, hrecords, Option.isSome_some, Bool.true_and, decide_eq_true_eq]
        exact hroom _ List.mem_cons_self
      rw [parseCalls, if_pos hreturns, List.filterMap_cons, hrecords,
        ← ih hrest fun y hy => hroom y (List.mem_cons_of_mem _ hy)]
      by_cases hempty : records = []
      · simp [hempty, Option.filter]
      · simp [hempty, Option.filter]

end Calls

/-! ## Sections -/

section Sections

variable (before : Char) {data : Text} (hlen : data.length < 32768)
include hlen

private theorem parseReturns_iff {s : ConfigSection} (h : Bracketed data s) (obs : MNvramObserver) :
    parseReturns before data (s, obs) = true ↔ ¬ StopsParser data obs.keys s := by
  have hfails := parseSection_eq_none_iff before hlen h obs
  rw [parseReturns, Bool.and_eq_true, decide_eq_true_eq, storedRecords_section _ hlen h,
    StopsParser, not_or, ← hfails, Option.isSome_iff_ne_none, Nat.not_lt]

private theorem mem_parseCalls_cons {s t : ConfigSection} (h : Bracketed data s) (hne : t ≠ s)
    (o obs : MNvramObserver) (observed : List (ConfigSection × MNvramObserver)) :
    (t, obs) ∈ parseCalls before data ((s, o) :: observed) ↔
      ¬ StopsParser data o.keys s ∧ (t, obs) ∈ parseCalls before data observed := by
  have hfirst : (t, obs) ≠ (s, o) := fun heq => hne (Prod.mk.inj heq).1
  rw [parseCalls, List.mem_cons, or_iff_right hfirst, ← parseReturns_iff before hlen h o]
  by_cases hreturns : parseReturns before data (s, o) = true
  · rw [if_pos hreturns, and_iff_right hreturns]
  · rw [if_neg hreturns]
    exact ⟨nofun, fun hmem => absurd hmem.1 hreturns⟩

/-- The loop over the sections: the induction is over them, the case split over the observer of the
first one. -/
private theorem mem_parseCalls_iff (table : ObserverTable) (sections : List ConfigSection)
    (hnodup : sections.Nodup) (hbracket : ∀ s ∈ sections, Bracketed data s) :
    (∀ s ∈ sections, ∀ obs ∈ table.observers,
      ((s, obs) ∈ parseCalls before data (observedSections table.observers sections) ↔
        s.name = obs.observedSectionName)) ↔
      HandedOver table.observers data sections := by
  induction sections with
  | nil => simp [HandedOver]
  | cons s ss ih =>
      obtain ⟨hmem, hnodup⟩ := List.nodup_cons.mp hnodup
      have hs := hbracket s List.mem_cons_self
      have hrest := ih hnodup fun t ht => hbracket t (List.mem_cons_of_mem _ ht)
      have hnamed := sectionObserver_iff table.observers table.distinct s.name
      have hobserver {obs : MNvramObserver}
          (h : (s, obs) ∈ parseCalls before data (observedSections table.observers ss)) :
          sectionObserver table.observers s.name = some obs :=
        (mem_observedSections ((parseCalls_isPrefix before data _).subset h)).2
      rw [observedSections_cons, HandedOver, List.forall_mem_cons, ← hnamed, ← hrest]
      cases hobs : sectionObserver table.observers s.name with
      | none =>
          have hnever (obs : MNvramObserver) :
              (s, obs) ∉ parseCalls before data (observedSections table.observers ss) := by
            intro h
            rw [hobserver h] at hobs
            cases hobs
          simp only [Option.map_none, Option.toList_none, List.nil_append, hnever, reduceCtorEq,
            false_iff]
          refine and_congr_right fun hnone => ?_
          rw [if_neg]
          rintro ⟨obs, hmemobs, hname, -⟩
          exact hnone obs hmemobs hname
      | some o =>
          have hfirst (obs : MNvramObserver) :
              (s, obs) ∈ parseCalls before data
                ((s, o) :: observedSections table.observers ss) ↔ some o = some obs := by
            rw [parseCalls, List.mem_cons, Prod.mk.injEq, eq_self, true_and, Option.some.injEq]
            constructor
            · rintro (rfl | h)
              · rfl
              · split at h
                · rw [hobserver h] at hobs
                  exact (Option.some.inj hobs).symm
                · cases h
            · exact fun h => Or.inl h.symm
          have hbehind (t : ConfigSection) (ht : t ∈ ss) (obs : MNvramObserver) :=
            mem_parseCalls_cons before hlen hs (fun he => hmem (he ▸ ht)) o obs
              (observedSections table.observers ss)
          simp only [Option.map_some, Option.toList_some, List.singleton_append, hfirst]
          refine and_congr_right fun hexact => ?_
          have hmemo : o ∈ table.observers := (prefix_of_sectionObserver hobs).1
          have hname : s.name = o.observedSectionName := (hexact o hmemo).mp rfl
          by_cases hstops : StopsParser data o.keys s
          · rw [if_pos ⟨o, hmemo, hname, hstops⟩]
            refine forall_congr' fun t => forall_congr' fun ht => forall_congr' fun obs =>
              forall_congr' fun _ => ?_
            simp only [hbehind t ht obs, hstops, not_true, false_and, false_iff]
          · rw [if_neg]
            · refine forall_congr' fun t => forall_congr' fun ht => forall_congr' fun obs =>
                forall_congr' fun _ => ?_
              rw [hbehind t ht obs, and_iff_right hstops]
            · rintro ⟨obs, hmemobs, hnameobs, hstopsobs⟩
              have hsame := Option.some.inj ((hexact obs hmemobs).mpr hnameobs)
              rw [← hsame] at hstopsobs
              exact hstops hstopsobs

end Sections

private theorem headerStarts_nodup (off : Nat) (ls : List Text) : (headerStarts off ls).Nodup := by
  induction ls generalizing off with
  | nil => exact List.nodup_nil
  | cons l ls ih =>
      cases hname : headerName l with
      | none =>
          rw [headerStarts_of_none hname]
          exact ih _
      | some name =>
          rw [headerStarts_of_some hname, List.nodup_cons]
          refine ⟨?_, ih _⟩
          intro hmem
          have hle := le_of_mem_headerStarts _ ls _ hmem
          omega

private theorem headedSections_nodup (text : Text) : (headedSections text).Nodup := by
  apply List.Nodup.of_map fun s : ConfigSection => (s.name, s.offsetStart)
  rw [headedSections, sectionsBetween_starts]
  exact headerStarts_nodup 0 _

/-- What `nvram_parse` keeps are the records of the sections it hands over, without the empty ones. -/
theorem nvramParse_hands (before : Char) (observers : List MNvramObserver) {data : Text}
    {sections : List ConfigSection} (hsections : getConfigStructure data = some sections)
    (hroom : ∀ x ∈ observedSections observers sections,
      (storedRecords ((before :: data).getD x.1.offsetStart nul) (sectionText data x.1)
        x.2.keys).length ≤ nvramMaxRecordsInSection)
    {parsed : List (MNvramObserver × List ParsedRecord)}
    (h : nvramParse before observers data = some parsed) :
    parsed = (nvramHands before observers data).filterMap fun x =>
      ((parseSection before data x.1 x.2).filter fun records => records ≠ []).map
        fun records => (x.2, records) := by
  rw [nvramParse, hsections, Option.bind_some] at h
  rw [nvramHands, hsections]
  exact parseSections_eq _ h hroom

/-- The sections are those of the header lines, and each is handed to the observer of its name. -/
theorem nvramParse_sections_iff (before : Char) (table : ObserverTable) (data : NvramData)
    (hcount : (headedSections data.text).length ≤ nvramMaxSectionsCount) :
    (getConfigStructure data.text = some (headedSections data.text) ∧
      ∀ s ∈ headedSections data.text, ∀ obs ∈ table.observers,
        ((s, obs) ∈ nvramHands before table.observers data.text ↔
          s.name = obs.observedSectionName)) ↔
      (Scannable (data.text.splitOn '\n') ∧
        HandedOver table.observers data.text (headedSections data.text)) := by
  have hlen : data.text.length < 32768 := by
    have := data.length_le
    omega
  rw [← getConfigStructure_iff data hcount]
  refine and_congr_right fun hsections => ?_
  rw [nvramHands, hsections]
  exact mem_parseCalls_iff before hlen table _ (headedSections_nodup data.text)
    (bracketed_of_getConfigStructure hsections)

/-- Sections with brackets inside a value, with an observer and without one. -/
def bracketedValues : NvramData where
  text := ['[', 't', 'i', 'm', 'e', ']', '\n', 's', 'e', 'c', 'o', 'n', 'd', 's', '=', '[', '1',
    ']', '\n', '[', 'x', ']', '\n', '[', ' ', 'a', 'r', 'g', 's', ' ', ']', '\n', 'a', 'r', 'g',
    's', '=', 'x']
  nul_not_mem := by decide
  length_le := by decide

theorem nvramParse_sections_iff_bracketedValues :
    getConfigStructure bracketedValues.text = some (headedSections bracketedValues.text) ∧
      ∀ s ∈ headedSections bracketedValues.text, ∀ obs ∈ nvramLoader.observers,
        ((s, obs) ∈ nvramHands nul nvramLoader.observers bracketedValues.text ↔
          s.name = obs.observedSectionName) :=
  (nvramParse_sections_iff nul nvramLoader bracketedValues (by decide)).mpr (by decide)

/-- An opening bracket in a value, which nothing closes. -/
def strayBracket : NvramData where
  text := ['[', 'e', 'n', 'v', ']', '\n', 'n', 'a', 'm', 'e', '=', 'a', ',', 'v', 'a', 'l', 'u',
    'e', '=', '[', '\n', '[', 'a', 'r', 'g', 's', ']', '\n', 'a', 'r', 'g', 's', '=', 'x']
  nul_not_mem := by decide
  length_le := by decide

/-- The section behind the stray bracket is lost, and its text goes to the section before it. -/
theorem getConfigStructure_strayBracket :
    (headedSections strayBracket.text).length ≤ nvramMaxSectionsCount ∧
      getConfigStructure strayBracket.text = some [⟨['e', 'n', 'v'], 0, 34⟩] ∧
      headedSections strayBracket.text =
        [⟨['e', 'n', 'v'], 0, 21⟩, ⟨['a', 'r', 'g', 's'], 21, 34⟩] := by
  decide

-- a blank line ends the program before the section behind it is handed over
example : (nvramHands nul nvramLoader.observers ['[', 't', 'i', 'm', 'e', ']', '\n', ' ', ' ', '\n',
    '[', 'a', 'r', 'g', 's', ']', '\n', 'a', 'r', 'g', 's', '=', 'x', '\n']).map
      (fun x => x.1.name) = [['t', 'i', 'm', 'e']] := by
  decide

end Zrt.Nvram
