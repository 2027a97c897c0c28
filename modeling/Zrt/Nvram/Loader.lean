import Zrt.Nvram.ConfParser

/-!
# Loader of the nvram configuration

`get_config_structure` looks for the section headers from a cursor on, by searching for the next
opening bracket, its closing bracket and the end of its line, and moves the cursor behind what it
found. A section is then handed to the first observer whose section name begins with its name, as long as
no section before it fails the parser.
-/

namespace Zrt.Nvram

/-- The text in nvram, up to its terminator. -/
structure NvramData where
  text : Text
  nul_not_mem : nul ∉ text
  length_le : text.length ≤ 10240

def nvramMaxSectionsCount : Nat := 7

def nvramMaxRecordsInSection : Nat := 100

structure ConfigSection where
  name : Text
  offsetStart : Nat
  offsetEnd : Nat
deriving DecidableEq

/-- Position of the first character `c` from `start` on. -/
def strchr (data : Text) (start : Nat) (c : Char) : Option Nat :=
  ((data.drop start).findIdx? fun d => d = c).map fun i => start + i

/-- The text that `strip_all` points to. -/
def stripText (str : Text) : Option Text := (stripAll str).map fun s => (str.drop s.1).take s.2

/-- The loop of `get_nearest_section_start`: name and offset of the next section, `some none` if
there is none. A failed self-test of the trimming is `none`. -/
def nearestSectionLoop (data : Text) : Nat → Nat → Option (Option (Text × Nat))
  | 0, _ => none
  | fuel + 1, cursorPos =>
      match strchr data cursorPos '[' with
      | none => some none
      | some boundStart =>
          match strchr data boundStart ']' with
          | none => some none
          | some boundEnd =>
              if (strchr data boundStart '\n').all fun endLine => boundEnd < endLine then
                if boundStart = cursorPos ∨
                    (0 < boundStart ∧ data.getD (boundStart - 1) nul = '\n') then
                  (stripText ((data.drop (boundStart + 1)).take (boundEnd - boundStart - 1))).map
                    fun name => some (name, boundStart)
                else nearestSectionLoop data fuel boundEnd
              else some none

def getNearestSectionStart (data : Text) (cursorPos : Nat) : Option (Option (Text × Nat)) :=
  nearestSectionLoop data (data.length + 1) cursorPos

/-- The sections found from `cursor` on, as long as there is `room` in the array; the cursor moves
from the bracket of a header by the length of its name. -/
def sectionStarts (data : Text) : Nat → Nat → Option (List (Text × Nat))
  | 0, cursor =>
      match getNearestSectionStart data cursor with
      | some none => some []
      | _ => none
  | room + 1, cursor =>
      match getNearestSectionStart data cursor with
      | none => none
      | some none => some []
      | some (some s) =>
          (sectionStarts data room (s.2 + s.1.length)).map fun ss => s :: ss

/-- Set the end bounds, from the last section on. -/
def setSectionEnds (size : Nat) (starts : List (Text × Nat)) : List ConfigSection :=
  (starts.foldr (fun s acc => (⟨s.1, s.2, acc.2⟩ :: acc.1, s.2)) ([], size)).1

def getConfigStructure (data : Text) : Option (List ConfigSection) :=
  (sectionStarts data nvramMaxSectionsCount 0).map (setSectionEnds data.length)

structure MNvramObserver where
  observedSectionName : Text
  keys : KeyList

/-- The observers in the order in which they were added, each with a section name of its own. -/
structure ObserverTable where
  observers : List MNvramObserver
  count_le : observers.length ≤ nvramMaxSectionsCount
  distinct : (observers.map MNvramObserver.observedSectionName).Nodup

/-- The first observer that `strncmp` accepts: the length of the comparison is that of the name in
the text. -/
def sectionObserver (observers : List MNvramObserver) (sectionName : Text) :
    Option MNvramObserver :=
  observers.find? fun obs => sectionName.isPrefixOf obs.observedSectionName

/-- The sections with an observer, each with its own. -/
def observedSections (observers : List MNvramObserver) (sections : List ConfigSection) :
    List (ConfigSection × MNvramObserver) :=
  sections.filterMap fun s => (sectionObserver observers s.name).map fun obs => (s, obs)

/-- Records of a section, which begins with its header; `before` stands in front of the text. -/
def parseSection (before : Char) (data : Text) (s : ConfigSection) (obs : MNvramObserver) :
    Option (List ParsedRecord) :=
  getParsedRecords ((before :: data).getD s.offsetStart nul)
    ((data.drop s.offsetStart).take (s.offsetEnd - s.offsetStart)) obs.keys

/-- The loop over the sections: those with records are kept, each with its observer. -/
def parseSections (before : Char) (data : Text) :
    List (ConfigSection × MNvramObserver) → Option (List (MNvramObserver × List ParsedRecord))
  | [] => some []
  | (s, obs) :: handed =>
      (parseSection before data s obs).bind fun records =>
        (parseSections before data handed).map fun parsed =>
          if records = [] then parsed else (obs, records) :: parsed

def nvramParse (before : Char) (observers : List MNvramObserver) (data : Text) :
    Option (List (MNvramObserver × List ParsedRecord)) :=
  (getConfigStructure data).bind fun sections =>
    parseSections before data (observedSections observers sections)

def precacheObserver : MNvramObserver where
  observedSectionName := ['p', 'r', 'e', 'c', 'a', 'c', 'h', 'e']
  keys := {
    keys := [⟨['p', 'r', 'e', 'c', 'a', 'c', 'h', 'e'], none⟩]
    count_le := by decide
    nodup := by decide
    key_ne_nil := by decide }

def fstabObserver : MNvramObserver where
  observedSectionName := ['f', 's', 't', 'a', 'b']
  keys := {
    keys := [⟨['c', 'h', 'a', 'n', 'n', 'e', 'l'], none⟩,
      ⟨['m', 'o', 'u', 'n', 't', 'p', 'o', 'i', 'n', 't'], none⟩,
      ⟨['a', 'c', 'c', 'e', 's', 's'], none⟩,
      ⟨['r', 'e', 'm', 'o', 'v', 'a', 'b', 'l', 'e'], some ['n', 'o']⟩,
      ⟨['f', 's', 'n', 'a', 'm', 'e'], some ['t', 'a', 'r']⟩]
    count_le := by decide
    nodup := by decide
    key_ne_nil := by decide }

def settimeObserver : MNvramObserver where
  observedSectionName := ['t', 'i', 'm', 'e']
  keys := {
    keys := [⟨['s', 'e', 'c', 'o', 'n', 'd', 's'], none⟩]
    count_le := by decide
    nodup := by decide
    key_ne_nil := by decide }

def debugObserver : MNvramObserver where
  observedSectionName := ['d', 'e', 'b', 'u', 'g']
  keys := {
    keys := [⟨['v', 'e', 'r', 'b', 'o', 's', 'i', 't', 'y'], none⟩]
    count_le := by decide
    nodup := by decide
    key_ne_nil := by decide }

def mappingObserver : MNvramObserver where
  observedSectionName := ['m', 'a', 'p', 'p', 'i', 'n', 'g']
  keys := {
    keys := [⟨['c', 'h', 'a', 'n', 'n', 'e', 'l'], none⟩,
      ⟨['m', 'o', 'd', 'e'], none⟩]
    count_le := by decide
    nodup := by decide
    key_ne_nil := by decide }

def envObserver : MNvramObserver where
  observedSectionName := ['e', 'n', 'v']
  keys := {
    keys := [⟨['n', 'a', 'm', 'e'], none⟩,
      ⟨['v', 'a', 'l', 'u', 'e'], none⟩]
    count_le := by decide
    nodup := by decide
    key_ne_nil := by decide }

def argObserver : MNvramObserver where
  observedSectionName := ['a', 'r', 'g', 's']
  keys := {
    keys := [⟨['a', 'r', 'g', 's'], none⟩]
    count_le := by decide
    nodup := by decide
    key_ne_nil := by decide }

/-- The observers that the constructor of the loader adds. -/
def nvramLoader : ObserverTable where
  observers := [precacheObserver, fstabObserver, settimeObserver, debugObserver, mappingObserver,
    envObserver, argObserver]
  count_le := by decide
  distinct := by decide

/-! ## The scan -/

theorem strchr_spec {data : Text} {start i : Nat} {c : Char} (h : strchr data start c = some i) :
    start ≤ i ∧ i < data.length ∧ data[i]? = some c := by
  obtain ⟨j, hj, rfl⟩ := Option.map_eq_some_iff.mp h
  obtain ⟨hlt, hc, -⟩ := List.findIdx?_eq_some_iff_getElem.mp hj
  have hget : data[start + j]? = some c := by
    rw [← List.getElem?_drop, List.getElem?_eq_getElem hlt]
    simpa using hc
  exact ⟨Nat.le_add_right .., (List.getElem?_eq_some_iff.mp hget).1, hget⟩

theorem nearestSectionLoop_fuel (data : Text) (f g c : Nat) (hc : c ≤ data.length)
    (hf : data.length < f + c) (hg : data.length < g + c) :
    nearestSectionLoop data f c = nearestSectionLoop data g c := by
  induction f generalizing g c with
  | zero => omega
  | succ f ih =>
      obtain ⟨g, rfl⟩ : ∃ k, g = k + 1 := ⟨g - 1, by omega⟩
      rw [nearestSectionLoop, nearestSectionLoop]
      cases hstart : strchr data c '[' with
      | none => rfl
      | some boundStart =>
          cases hend : strchr data boundStart ']' with
          | none => simp only [hend]
          | some boundEnd =>
              obtain ⟨hle, -, hopen⟩ := strchr_spec hstart
              obtain ⟨hle', hlt, hclose⟩ := strchr_spec hend
              have hne : boundStart ≠ boundEnd := by
                rintro rfl
                rw [hopen] at hclose
                exact absurd (Option.some.inj hclose) (by decide)
              simp only [hend, ih g boundEnd (by omega) (by omega) (by omega)]

section Starts

variable {data : Text} (room : Nat) {c : Nat}

theorem sectionStarts_congr {c' : Nat}
    (h : getNearestSectionStart data c = getNearestSectionStart data c') :
    sectionStarts data room c = sectionStarts data room c' := by
  cases room with
  | zero => rw [sectionStarts, sectionStarts, h]
  | succ room => rw [sectionStarts, sectionStarts, h]

theorem sectionStarts_end (h : getNearestSectionStart data c = some none) :
    sectionStarts data room c = some [] := by
  cases room with
  | zero => rw [sectionStarts, h]
  | succ room => rw [sectionStarts, h]

theorem sectionStarts_cases {starts : List (Text × Nat)}
    (h : sectionStarts data room c = some starts) :
    starts = [] ∨ ∃ room' s rest, room = room' + 1 ∧ starts = s :: rest ∧
      getNearestSectionStart data c = some (some s) ∧
      sectionStarts data room' (s.2 + s.1.length) = some rest := by
  cases room with
  | zero =>
      rw [sectionStarts] at h
      split at h
      · exact Or.inl (Option.some.inj h).symm
      · cases h
  | succ room =>
      rw [sectionStarts] at h
      split at h
      · cases h
      · exact Or.inl (Option.some.inj h).symm
      · rename_i s hs
        obtain ⟨rest, hrest, rfl⟩ := Option.map_eq_some_iff.mp h
        exact Or.inr ⟨room, s, rest, rfl, rfl, hs, hrest⟩

end Starts

end Zrt.Nvram
