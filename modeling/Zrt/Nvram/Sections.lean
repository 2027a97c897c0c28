import Zrt.Nvram.Grammar
import Zrt.Nvram.Loader

/-!
# Sections of the nvram configuration

The sections of a text are introduced by its header lines, each a bracketed name at the start of a
line. The scan of the loader goes through the text from bracket to bracket; line by line it passes
what follows a header, stops at a bracket that is not closed, or finds a header where there is none.
-/

namespace Zrt.Nvram

/-- The text between the bracket a line begins with and the next closing one. -/
def bracketed : Text → Option Text
  | [] => none
  | c :: l => if c = '[' ∧ ']' ∈ l then some (l.takeWhile fun d => d ≠ ']') else none

/-- What follows a line. -/
def lineTail : List Text → Text
  | [] => []
  | l :: ls => '\n' :: joinLines (l :: ls)

/-- The rest of a text from the end of a line on. -/
def EndsLine (tail : Text) : Prop := ∀ c ∈ tail.head?, c = '\n'

/-- The name a header line introduces. -/
def headerName (l : Text) : Option Text :=
  (bracketed l).bind fun b => if trim b = [] then none else some (trim b)

/-- The header lines among the lines from offset `off` on. -/
def headerStarts : Nat → List Text → List (Text × Nat)
  | _, [] => []
  | off, l :: ls =>
      match headerName l with
      | none => headerStarts (off + l.length + 1) ls
      | some name => (name, off) :: headerStarts (off + l.length + 1) ls

/-- A section extends to the next one or to the end of the text. -/
def sectionsBetween (size : Nat) : List (Text × Nat) → List ConfigSection
  | [] => []
  | [s] => [⟨s.1, s.2, size⟩]
  | s :: t :: ss => ⟨s.1, s.2, t.2⟩ :: sectionsBetween size (t :: ss)

/-- The sections that the header lines of a text introduce. -/
def headedSections (text : Text) : List ConfigSection :=
  sectionsBetween text.length (headerStarts 0 (text.splitOn '\n'))

/-- A bracket that no bracket of the same line closes. -/
def Unclosed : Text → Prop
  | [] => False
  | c :: l => (c = '[' ∧ ']' ∉ l) ∨ Unclosed l

def decidableUnclosed : (l : Text) → Decidable (Unclosed l)
  | [] => isFalse id
  | c :: l =>
      have := decidableUnclosed l
      inferInstanceAs (Decidable ((c = '[' ∧ ']' ∉ l) ∨ Unclosed l))

instance (l : Text) : Decidable (Unclosed l) := decidableUnclosed l

/-- A line that begins with blank brackets. -/
def BlankHeader (l : Text) : Prop := (bracketed l).map trim = some []

instance (l : Text) : Decidable (BlankHeader l) := inferInstanceAs (Decidable (_ = _))

/-- A header line with another bracket as far behind its own as its name is long. -/
def SecondBracket (l : Text) : Prop :=
  ((headerName l).any fun name => l[name.length]? = some '[') = true

instance (l : Text) : Decidable (SecondBracket l) := inferInstanceAs (Decidable (_ = _))

/-- The lines before the last header are scanned as lines. -/
def Scannable : List Text → Prop
  | [] => True
  | l :: ls =>
      ¬ BlankHeader l ∧ ¬ SecondBracket l ∧
        if Unclosed l then ∀ k ∈ ls, headerName k = none else Scannable ls

/-- The observer of exactly that name comes before any observer with a longer one. -/
def NamedFirst (name : Text) : List MNvramObserver → Prop
  | [] => True
  | obs :: rest => obs.observedSectionName = name ∨
      (¬ name <+: obs.observedSectionName ∧ NamedFirst name rest)

def decidableScannable : (ls : List Text) → Decidable (Scannable ls)
  | [] => isTrue trivial
  | l :: ls =>
      have := decidableScannable ls
      inferInstanceAs (Decidable (¬ BlankHeader l ∧ ¬ SecondBracket l ∧
        if Unclosed l then ∀ k ∈ ls, headerName k = none else Scannable ls))

instance (ls : List Text) : Decidable (Scannable ls) := decidableScannable ls

theorem bracketed_cons (c : Char) (l : Text) : bracketed (c :: l) =
    if c = '[' ∧ ']' ∈ l then some (l.takeWhile fun d => d ≠ ']') else none := rfl

@[simp] theorem lineTail_nil : lineTail [] = [] := rfl

@[simp] theorem lineTail_cons (l : Text) (ls : List Text) :
    lineTail (l :: ls) = '\n' :: joinLines (l :: ls) := rfl

theorem unclosed_cons (c : Char) (l : Text) :
    Unclosed (c :: l) ↔ (c = '[' ∧ ']' ∉ l) ∨ Unclosed l := Iff.rfl

theorem headerStarts_cons (off : Nat) (l : Text) (ls : List Text) :
    headerStarts off (l :: ls) =
      match headerName l with
      | none => headerStarts (off + l.length + 1) ls
      | some name => (name, off) :: headerStarts (off + l.length + 1) ls := rfl

theorem headerStarts_of_none {l : Text} (h : headerName l = none) (off : Nat) (ls : List Text) :
    headerStarts off (l :: ls) = headerStarts (off + l.length + 1) ls := by
  rw [headerStarts_cons, h]

theorem headerStarts_of_some {l name : Text} (h : headerName l = some name) (off : Nat)
    (ls : List Text) :
    headerStarts off (l :: ls) = (name, off) :: headerStarts (off + l.length + 1) ls := by
  rw [headerStarts_cons, h]

section Scanning

variable (pre rest : Text)

theorem findIdx?_of_not_mem {c : Char} {x : Text} (h : c ∉ x) :
    (x.findIdx? fun d => d = c) = none :=
  List.findIdx?_eq_none_iff.mpr fun d hd => by simpa using fun heq : d = c => h (heq ▸ hd)

private theorem findIdx?_append_cons {c : Char} {x : Text} (h : c ∉ x) (y : Text) :
    ((x ++ c :: y).findIdx? fun d => d = c) = some x.length := by
  rw [List.findIdx?_append, findIdx?_of_not_mem h]
  simp [List.findIdx?_cons]

theorem strchr_append (c : Char) :
    strchr (pre ++ rest) pre.length c =
      (rest.findIdx? fun d => d = c).map fun i => pre.length + i := by
  rw [strchr, List.drop_left' rfl]

theorem strchr_of_not_mem {c : Char} (h : c ∉ rest) :
    strchr (pre ++ rest) pre.length c = none := by
  rw [strchr_append, findIdx?_of_not_mem h, Option.map_none]

theorem strchr_append_cons {c : Char} {x : Text} (h : c ∉ x) (y : Text) :
    strchr (pre ++ (x ++ c :: y)) pre.length c = some (pre.length + x.length) := by
  rw [strchr_append, findIdx?_append_cons h, Option.map_some]

theorem le_of_strchr {c : Char} {x y : Text} (h : c ∉ x) {i : Nat}
    (hi : strchr (pre ++ (x ++ y)) pre.length c = some i) : pre.length + x.length ≤ i := by
  rw [strchr_append, List.findIdx?_append, findIdx?_of_not_mem h, Option.none_or] at hi
  obtain ⟨j, hj, rfl⟩ := Option.map_eq_some_iff.mp hi
  obtain ⟨k, -, rfl⟩ := Option.map_eq_some_iff.mp hj
  omega

theorem getNearestSectionStart_none (h : '[' ∉ rest) :
    getNearestSectionStart (pre ++ rest) pre.length = some none := by
  rw [getNearestSectionStart, nearestSectionLoop, strchr_of_not_mem pre rest h]

theorem getNearestSectionStart_unclosed {x b tail : Text} (hx : '[' ∉ x) (hb : ']' ∉ b)
    (hnl : '\n' ∉ b) (htail : EndsLine tail) :
    getNearestSectionStart (pre ++ (x ++ '[' :: (b ++ tail))) pre.length = some none := by
  have hb' : ']' ∉ '[' :: b := by simp [hb]
  have hnl' : '\n' ∉ '[' :: b := by simp [hnl]
  have hdata : pre ++ (x ++ '[' :: (b ++ tail)) = pre ++ x ++ ('[' :: b ++ tail) := by simp
  rw [getNearestSectionStart, nearestSectionLoop, strchr_append_cons pre hx, ← List.length_append,
    hdata]
  cases tail with
  | nil =>
      rw [List.append_nil]
      simp only [strchr_of_not_mem (pre ++ x) _ hb']
  | cons c tail =>
      obtain rfl : c = '\n' := htail c rfl
      cases hend : strchr (pre ++ x ++ ('[' :: b ++ '\n' :: tail)) (pre ++ x).length ']' with
      | none => simp only [hend]
      | some boundEnd =>
          have hle := le_of_strchr (pre ++ x) hb' hend
          simp only [hend, strchr_append_cons (pre ++ x) hnl']
          rw [if_neg (by simpa using hle)]

/-- A closed bracket is a header at the cursor and behind a line end; elsewhere the cursor moves
to the bracket that closes it. -/
theorem getNearestSectionStart_closed {x b y : Text} (hx : '[' ∉ x) (hb : ']' ∉ b)
    (hnl : '\n' ∉ b) :
    getNearestSectionStart (pre ++ (x ++ '[' :: (b ++ ']' :: y))) pre.length =
      if x = [] ∨ (pre ++ x).getLast? = some '\n' then
        (stripText b).map fun name => some (name, (pre ++ x).length)
      else getNearestSectionStart (pre ++ (x ++ '[' :: (b ++ ']' :: y)))
        (pre ++ x ++ '[' :: b).length := by
  have hb' : ']' ∉ '[' :: b := by simp [hb]
  have hnl' : '\n' ∉ '[' :: (b ++ [']']) := by simp [hnl]
  have hdata : pre ++ (x ++ '[' :: (b ++ ']' :: y)) = pre ++ x ++ ('[' :: b ++ ']' :: y) := by simp
  have hline : ((strchr (pre ++ x ++ ('[' :: b ++ ']' :: y)) (pre ++ x).length '\n').all
      fun endLine => decide ((pre ++ x).length + ('[' :: b).length < endLine)) = true := by
    rw [Option.all_eq_true]
    intro endLine hend
    have hle := le_of_strchr (pre ++ x) hnl' (y := y) (by simpa using hend)
    simp at hle ⊢
    omega
  have hinside : ((pre ++ x ++ ('[' :: b ++ ']' :: y)).drop ((pre ++ x).length + 1)).take
      ((pre ++ x).length + ('[' :: b).length - (pre ++ x).length - 1) = b := by
    rw [← List.drop_drop, List.drop_left' rfl]
    simp
  have hcursor : ((pre ++ x).length = pre.length ∨ 0 < (pre ++ x).length ∧
      (pre ++ x ++ ('[' :: b ++ ']' :: y)).getD ((pre ++ x).length - 1) nul = '\n') ↔
        (x = [] ∨ (pre ++ x).getLast? = some '\n') := by
    refine or_congr (by simp) ?_
    rcases List.eq_nil_or_concat (pre ++ x) with hnil | ⟨t, c, ht⟩
    · simp [hnil]
    · simp [ht]
  rw [getNearestSectionStart, nearestSectionLoop, strchr_append_cons pre hx, ← List.length_append,
    hdata]
  simp only [strchr_append_cons (pre ++ x) hb', hline, if_true, hinside, hcursor]
  have hle : (pre ++ x).length + ('[' :: b).length ≤
      (pre ++ x ++ ('[' :: b ++ ']' :: y)).length := by
    simp only [List.length_append]
    omega
  have hpos : (pre ++ x ++ '[' :: b).length = (pre ++ x).length + ('[' :: b).length :=
    List.length_append
  split
  · rfl
  · rw [hpos, getNearestSectionStart]
    exact nearestSectionLoop_fuel _ _ _ _ hle (by simp only [List.length_cons]; omega) (by omega)

/-- The cursor may pass a text without brackets, unless a bracket in the middle of a line would
follow it. -/
private theorem getNearestSectionStart_plain {x : Text} (hx : '[' ∉ x)
    (hrest : rest.head? = some '[' → x = [] ∨ x.getLast? = some '\n') :
    getNearestSectionStart (pre ++ (x ++ rest)) pre.length =
      getNearestSectionStart (pre ++ (x ++ rest)) (pre ++ x).length := by
  have hdata : pre ++ (x ++ rest) = pre ++ x ++ rest := by simp
  have hopen : strchr (pre ++ (x ++ rest)) pre.length '[' =
      strchr (pre ++ (x ++ rest)) (pre ++ x).length '[' := by
    rw [strchr_append, hdata, strchr_append, List.findIdx?_append, findIdx?_of_not_mem hx,
      List.length_append]
    cases rest.findIdx? fun d => decide (d = '[') with
    | none => rfl
    | some i => simp [Nat.add_comm, Nat.add_left_comm]
  rw [getNearestSectionStart, getNearestSectionStart, nearestSectionLoop, nearestSectionLoop, hopen]
  cases hstart : strchr (pre ++ (x ++ rest)) (pre ++ x).length '[' with
  | none => rfl
  | some boundStart =>
      have hle := (strchr_spec hstart).1
      have hget := (strchr_spec hstart).2.2
      rw [List.length_append] at hle
      have hcursor : (boundStart = pre.length ∨ 0 < boundStart ∧
          (pre ++ (x ++ rest)).getD (boundStart - 1) nul = '\n') ↔
            (boundStart = (pre ++ x).length ∨ 0 < boundStart ∧
              (pre ++ (x ++ rest)).getD (boundStart - 1) nul = '\n') := by
        constructor
        · rintro (h | h)
          · left
            rw [List.length_append]
            omega
          · exact Or.inr h
        · rintro (h | h)
          · rw [h, hdata, List.getElem?_append_right (Nat.le_refl _), Nat.sub_self,
              ← List.head?_eq_getElem?] at hget
            rcases hrest hget with rfl | hlast
            · exact Or.inl (by simpa using h)
            · obtain ⟨t, ht⟩ := List.getLast?_eq_some_iff.mp hlast
              right
              rw [h, ht]
              refine ⟨?_, by simp⟩
              rw [List.length_append, List.length_append, List.length_singleton]
              omega
          · exact Or.inr h
      simp only [hcursor]

theorem unclosed_append {x : Text} (hx : '[' ∉ x) (y : Text) :
    Unclosed (x ++ y) ↔ Unclosed y := by
  induction x with
  | nil => rfl
  | cons c x ih =>
      have hc : c ≠ '[' := fun h => hx (by simp [h])
      rw [List.cons_append, unclosed_cons, ih fun h => hx (List.mem_cons_of_mem _ h)]
      simp [hc]

theorem unclosed_closed (x y : Text) : Unclosed (x ++ ']' :: y) ↔ Unclosed y := by
  induction x with
  | nil => simp [unclosed_cons]
  | cons c x ih =>
      rw [List.cons_append, unclosed_cons, ih]
      simp

private theorem not_unclosed_of_not_mem {y : Text} (h : '[' ∉ y) : ¬ Unclosed y := by
  have := unclosed_append h []
  rw [List.append_nil] at this
  exact this.not.mpr id

/-- From the middle of a line the search goes on at the next line, or ends at a bracket that is not
closed. -/
theorem getNearestSectionStart_line (y tail : Text) (hy : y.head? ≠ some '[') (hnl : '\n' ∉ y)
    (htail : EndsLine tail) :
    getNearestSectionStart (pre ++ (y ++ tail)) pre.length =
      if Unclosed y then some none
      else getNearestSectionStart (pre ++ (y ++ tail)) (pre ++ (y ++ tail.take 1)).length := by
  induction hn : y.length using Nat.strong_induction_on generalizing pre y with
  | _ n ih =>
    by_cases hopen : '[' ∈ y
    · obtain ⟨x, r, rfl, hx⟩ := List.eq_append_cons_of_mem hopen
      obtain ⟨c, x, rfl⟩ := List.exists_cons_of_ne_nil (l := x) (by rintro rfl; exact hy rfl)
      have hnl' : '\n' ∉ r := fun h => hnl (by simp [h])
      simp only [unclosed_append hx]
      by_cases hclose : ']' ∈ r
      · obtain ⟨b, z, rfl, hb⟩ := List.eq_append_cons_of_mem hclose
        have hlast : ¬ (c :: x = [] ∨ (pre ++ c :: x).getLast? = some '\n') := by
          rw [List.getLast?_append_of_ne_nil _ (List.cons_ne_nil c x)]
          rintro (h | h)
          · exact List.cons_ne_nil c x h
          · exact hnl (List.mem_append_left _ (List.mem_of_getLast? h))
        have hskip := getNearestSectionStart_closed pre hx hb (y := z ++ tail)
          fun h => hnl' (by simp [h])
        rw [if_neg hlast] at hskip
        have hrest := ih (']' :: z).length (by rw [← hn]; simp; omega) (pre ++ c :: x ++ '[' :: b)
          (']' :: z) (by simp) (fun h => hnl' (by simp_all)) rfl
        have hunclosed : Unclosed ('[' :: (b ++ ']' :: z)) ↔ Unclosed (']' :: z) := by
          rw [← List.cons_append, unclosed_closed, ← List.nil_append (']' :: z), unclosed_closed]
        simp only [hunclosed]
        simpa using hskip.trans (by simpa using hrest)
      · have hunclosed : Unclosed ('[' :: r) := Or.inl ⟨rfl, hclose⟩
        rw [if_pos hunclosed]
        simpa using getNearestSectionStart_unclosed pre hx hclose hnl' htail
    · rw [if_neg (not_unclosed_of_not_mem hopen)]
      have htake : '[' ∉ tail.take 1 := by
        cases tail with
        | nil => simp
        | cons c t =>
            rw [htail c rfl]
            simp
      have hplain := getNearestSectionStart_plain pre (tail.drop 1) (x := y ++ tail.take 1)
        (by simp [hopen, htake]) ?_
      · rw [List.append_assoc, List.take_append_drop] at hplain
        exact hplain
      · intro h
        right
        cases tail with
        | nil => simp at h
        | cons c t =>
            rw [htail c rfl]
            simp

theorem joinLines_cons (l : Text) (ls : List Text) : joinLines (l :: ls) = l ++ lineTail ls := by
  cases ls with
  | nil => simp [joinLines]
  | cons k ls => rw [joinLines_cons_cons, lineTail_cons]

theorem append_joinLines_cons_cons (pre l k : Text) (ls : List Text) :
    pre ++ joinLines (l :: k :: ls) = pre ++ l ++ ['\n'] ++ joinLines (k :: ls) := by
  rw [joinLines_cons_cons, List.append_assoc, List.append_assoc]
  rfl

theorem length_append_lineEnd (pre l : Text) :
    (pre ++ l ++ ['\n']).length = pre.length + l.length + 1 := by
  rw [List.length_append, List.length_append, List.length_singleton]

theorem endsLine_lineTail (ls : List Text) : EndsLine (lineTail ls) := by
  cases ls with
  | nil => simp [EndsLine]
  | cons k ls => simp [EndsLine]

theorem trim_length_le (s : Text) : (trim s).length ≤ s.length :=
  (List.rdropWhile_prefix _ _).length_le.trans (List.dropWhile_suffix _).length_le

theorem stripText_eq (s : Text) (hlen : s.length < 32768) :
    stripText s = if FailsTrimming s then none else some (trim s) := by
  split
  · rename_i h
    rw [stripText, stripAll_fails s hlen h, Option.map_none]
  · rename_i h
    obtain ⟨i, hi, htake⟩ := stripAll_take s [] hlen h
    rw [List.append_nil] at htake
    rw [stripText, hi, Option.map_some, htake]

theorem bracketed_closed {b : Text} (hb : ']' ∉ b) (y : Text) :
    bracketed ('[' :: (b ++ ']' :: y)) = some b := by
  have htake : (b ++ ']' :: y).takeWhile (fun d => decide (d ≠ ']')) = b := by
    rw [List.takeWhile_append_of_pos fun c hc => by simpa using fun h : c = ']' => hb (h ▸ hc)]
    simp
  rw [bracketed_cons, if_pos (by simp), htake]

private theorem headerStarts_eq_nil_iff (off : Nat) (ls : List Text) :
    headerStarts off ls = [] ↔ ∀ k ∈ ls, headerName k = none := by
  induction ls generalizing off with
  | nil => exact iff_of_true rfl (by simp)
  | cons l ls ih =>
      cases hname : headerName l with
      | none => simp [headerStarts_of_none hname, ih, hname]
      | some name => simp [headerStarts_of_some hname, hname]

theorem le_of_mem_headerStarts (off : Nat) (ls : List Text) :
    ∀ s ∈ headerStarts off ls, off ≤ s.2 := by
  induction ls generalizing off with
  | nil => exact fun s hs => absurd hs List.not_mem_nil
  | cons l ls ih =>
      intro s hs
      cases hname : headerName l with
      | none =>
          rw [headerStarts_of_none hname] at hs
          have := ih _ s hs
          omega
      | some name =>
          rw [headerStarts_of_some hname] at hs
          rcases List.mem_cons.mp hs with rfl | hs
          · exact Nat.le_refl _
          · have := ih _ s hs
            omega

section Starts

variable {data : Text} (room : Nat) {c : Nat}

theorem sectionStarts_pass {c' : Nat} {l : Text}
    (h : getNearestSectionStart data c =
      if Unclosed l then some none else getNearestSectionStart data c') :
    sectionStarts data room c = if Unclosed l then some [] else sectionStarts data room c' := by
  by_cases hun : Unclosed l
  · rw [if_pos hun] at h ⊢
    exact sectionStarts_end room h
  · rw [if_neg hun] at h ⊢
    exact sectionStarts_congr room h

private theorem sectionStarts_found {b : Text}
    (h : getNearestSectionStart data c = (stripText b).map fun name => some (name, c))
    {starts : List (Text × Nat)} (hs : sectionStarts data room c = some starts) :
    ∃ s ∈ starts, s.2 = c := by
  cases hb : stripText b with
  | none =>
      rw [hb] at h
      cases room <;> simp [sectionStarts, h] at hs
  | some name =>
      rw [hb] at h
      cases room with
      | zero => simp [sectionStarts, h] at hs
      | succ room =>
          rw [sectionStarts, h] at hs
          obtain ⟨rest, -, rfl⟩ := Option.map_eq_some_iff.mp hs
          exact ⟨_, List.mem_cons_self, rfl⟩

private theorem sectionStarts_named {name : Text}
    (h : getNearestSectionStart data c = some (some (name, c))) (rest : List (Text × Nat)) :
    sectionStarts data (room + 1) c = some ((name, c) :: rest) ↔
      sectionStarts data room (c + name.length) = some rest := by
  rw [sectionStarts, h]
  simp

private theorem sectionStarts_blank {b : Text} (hlen : b.length < 32768) (hb : trim b = [])
    (h : getNearestSectionStart data c = (stripText b).map fun name => some (name, c)) :
    sectionStarts data room c = none := by
  rw [stripText_eq b hlen, hb] at h
  by_cases hfail : FailsTrimming b
  · rw [if_pos hfail] at h
    cases room <;> simp [sectionStarts, h]
  · rw [if_neg hfail] at h
    induction room with
    | zero => simp [sectionStarts, h]
    | succ room ih => simp [sectionStarts, h, ih]

end Starts

theorem exists_of_bracketed {l b : Text} (h : bracketed l = some b) :
    ∃ y, l = '[' :: (b ++ ']' :: y) ∧ ']' ∉ b := by
  cases l with
  | nil => cases h
  | cons c l =>
      rw [bracketed_cons] at h
      split at h
      · rename_i hc
        obtain ⟨rfl, hmem⟩ := hc
        obtain ⟨x, y, rfl, hx⟩ := List.eq_append_cons_of_mem hmem
        have hsome := bracketed_closed hx y
        rw [bracketed_cons, if_pos ⟨rfl, hmem⟩, Option.some.injEq] at hsome
        rw [hsome, Option.some.injEq] at h
        rw [← h]
        exact ⟨y, rfl, hx⟩
      · exact absurd h (by simp)

private theorem sectionStarts_midLine (room : Nat) {y tail : Text} (hy : y.head? ≠ some '[')
    (hnl : '\n' ∉ y) (htail : EndsLine tail) :
    sectionStarts (pre ++ (y ++ tail)) room pre.length =
      if Unclosed y then some []
      else sectionStarts (pre ++ (y ++ tail)) room (pre ++ (y ++ tail.take 1)).length :=
  sectionStarts_pass room (getNearestSectionStart_line pre y tail hy hnl htail)

/-- A line without a bracketed beginning is passed, or it ends the search. -/
theorem getNearestSectionStart_plainLine {l tail : Text} (hl : bracketed l = none)
    (hnl : '\n' ∉ l) (htail : EndsLine tail) :
    getNearestSectionStart (pre ++ (l ++ tail)) pre.length =
      if Unclosed l then some none
      else getNearestSectionStart (pre ++ (l ++ tail)) (pre ++ (l ++ tail.take 1)).length := by
  by_cases hhead : l.head? = some '['
  · obtain ⟨r, rfl⟩ := List.head?_eq_some_iff.mp hhead
    have hr : ']' ∉ r := by
      intro hmem
      obtain ⟨x, y, rfl, hx⟩ := List.eq_append_cons_of_mem hmem
      rw [bracketed_closed hx] at hl
      exact absurd hl (by simp)
    have hstop := getNearestSectionStart_unclosed pre (x := []) (b := r) (by simp) hr
      (fun h => hnl (List.mem_cons_of_mem _ h)) htail
    have hun : Unclosed ('[' :: r) := Or.inl ⟨rfl, hr⟩
    rw [if_pos hun]
    simpa using hstop
  · exact getNearestSectionStart_line pre l tail hhead hnl htail

private theorem sectionStarts_plainLine (room : Nat) {l tail : Text} (hl : bracketed l = none)
    (hnl : '\n' ∉ l) (htail : EndsLine tail) :
    sectionStarts (pre ++ (l ++ tail)) room pre.length =
      if Unclosed l then some []
      else sectionStarts (pre ++ (l ++ tail)) room (pre ++ (l ++ tail.take 1)).length :=
  sectionStarts_pass room (getNearestSectionStart_plainLine pre hl hnl htail)

private theorem sectionStarts_behindName (room : Nat) {b y tail : Text}
    (hnl : '\n' ∉ '[' :: (b ++ ']' :: y)) (htail : EndsLine tail)
    (hsecond : ('[' :: (b ++ ']' :: y))[(trim b).length]? ≠ some '[') :
    sectionStarts (pre ++ ('[' :: (b ++ ']' :: y) ++ tail)) room (pre.length + (trim b).length) =
      if Unclosed ('[' :: (b ++ ']' :: y)) then some []
      else sectionStarts (pre ++ ('[' :: (b ++ ']' :: y) ++ tail)) room
        (pre ++ ('[' :: (b ++ ']' :: y) ++ tail.take 1)).length := by
  have hle := trim_length_le b
  set n := (trim b).length
  have hsplit : ('[' :: b).take n ++ (('[' :: b).drop n ++ ']' :: y) = '[' :: (b ++ ']' :: y) := by
    rw [← List.append_assoc, List.take_append_drop, List.cons_append]
  have hlen : (('[' :: b).take n).length = n := by
    rw [List.length_take, List.length_cons]
    omega
  have hhead : (('[' :: b).drop n ++ ']' :: y).head? ≠ some '[' := by
    rw [← hsplit, List.getElem?_append_right (by omega), hlen, Nat.sub_self,
      ← List.head?_eq_getElem?] at hsecond
    exact hsecond
  have hmid := sectionStarts_midLine (pre ++ ('[' :: b).take n) room hhead
    (fun h => hnl (by rw [← hsplit]; exact List.mem_append_right _ h)) htail
  have hpos : (pre ++ ('[' :: b).take n).length = pre.length + n := by
    rw [List.length_append, hlen]
  have hunclosed : Unclosed (('[' :: b).drop n ++ ']' :: y) ↔
      Unclosed ('[' :: (b ++ ']' :: y)) := by
    rw [← List.cons_append, unclosed_closed, unclosed_closed]
  have hassoc (t : Text) : pre ++ ('[' :: b).take n ++ (('[' :: b).drop n ++ ']' :: y ++ t) =
      pre ++ ('[' :: (b ++ ']' :: y) ++ t) := by
    rw [← hsplit]
    simp only [List.append_assoc]
  rw [hpos, hassoc, hassoc] at hmid
  simpa only [hunclosed] using hmid

private theorem sectionStarts_secondBracket (room : Nat) {b y tail : Text} (hb : ']' ∉ b)
    (hnl : '\n' ∉ '[' :: (b ++ ']' :: y)) {starts : List (Text × Nat)}
    (hsecond : ('[' :: (b ++ ']' :: y))[(trim b).length]? = some '[')
    (hs : sectionStarts (pre ++ ('[' :: (b ++ ']' :: y) ++ tail)) room
      (pre.length + (trim b).length) = some starts) :
    ∃ s ∈ starts, s.2 = pre.length + (trim b).length := by
  have hle := trim_length_le b
  set n := (trim b).length
  obtain ⟨d, hd⟩ : ∃ d, ('[' :: b).drop n = '[' :: d := by
    have hlt : n < ('[' :: b).length := by
      rw [List.length_cons]
      omega
    rw [← List.cons_append, List.getElem?_append_left hlt] at hsecond
    refine ⟨('[' :: b).drop (n + 1), ?_⟩
    rw [List.drop_eq_getElem_cons hlt]
    congr 1
    exact (List.getElem?_eq_some_iff.mp hsecond).2
  have hdb : ∀ c ∈ d, c ∈ '[' :: b := fun c hc =>
    List.mem_of_mem_drop (by rw [hd]; exact List.mem_cons_of_mem _ hc)
  have hdb' : ']' ∉ d := fun h => by simpa [hb] using hdb _ h
  have hnl' : '\n' ∉ d := fun h => hnl (List.mem_append_left (']' :: y) (hdb _ h))
  have hpos : (pre ++ ('[' :: b).take n).length = pre.length + n := by
    rw [List.length_append, List.length_take, List.length_cons]
    omega
  have hdata : pre ++ ('[' :: b).take n ++ ([] ++ '[' :: (d ++ ']' :: (y ++ tail))) =
      pre ++ ('[' :: (b ++ ']' :: y) ++ tail) := by
    have hline : '[' :: (b ++ ']' :: y) = ('[' :: b).take n ++ '[' :: d ++ ']' :: y := by
      rw [← hd, List.take_append_drop, List.cons_append]
    rw [hline]
    simp
  have hfound := getNearestSectionStart_closed (pre ++ ('[' :: b).take n) (x := [])
    (y := y ++ tail) (by simp) hdb' hnl'
  rw [if_pos (Or.inl rfl), List.append_nil, hpos, hdata] at hfound
  exact sectionStarts_found room hfound hs

/-- From the cursor on, where the lines `ls` at offset `off` begin, the scan finds their headers if
and only if they are scannable. -/
def FindsHeaders (data : Text) (cursor off : Nat) (ls : List Text) : Prop :=
  ∀ room, (headerStarts off ls).length ≤ room →
    (sectionStarts data room cursor = some (headerStarts off ls) ↔ Scannable ls)

theorem stops_iff (off : Nat) (ls : List Text) :
    some [] = some (headerStarts off ls) ↔ ∀ k ∈ ls, headerName k = none := by
  rw [Option.some.injEq, eq_comm, headerStarts_eq_nil_iff]

private theorem findsHeaders_nil (off : Nat) : FindsHeaders pre pre.length off [] := by
  intro room _
  have hend := getNearestSectionStart_none pre [] (by simp)
  rw [List.append_nil] at hend
  exact iff_of_true (sectionStarts_end room hend) trivial

private theorem findsHeaders_plainLine {l tail : Text} {ls : List Text} (hl : bracketed l = none)
    (hnl : '\n' ∉ l) (htail : EndsLine tail)
    (hnext : FindsHeaders (pre ++ (l ++ tail)) (pre ++ (l ++ tail.take 1)).length
      (pre.length + l.length + 1) ls) :
    FindsHeaders (pre ++ (l ++ tail)) pre.length pre.length (l :: ls) := by
  intro room hroom
  have hname : headerName l = none := by rw [headerName, hl, Option.bind_none]
  have hstarts : headerStarts pre.length (l :: ls) =
      headerStarts (pre.length + l.length + 1) ls := headerStarts_of_none hname _ ls
  have hscan : Scannable (l :: ls) ↔
      if Unclosed l then ∀ k ∈ ls, headerName k = none else Scannable ls := by
    simp [Scannable, BlankHeader, SecondBracket, hl, hname]
  rw [hstarts] at hroom
  rw [hstarts, hscan, sectionStarts_plainLine pre room hl hnl htail]
  by_cases hun : Unclosed l
  · rw [if_pos hun, if_pos hun, stops_iff]
  · rw [if_neg hun, if_neg hun]
    exact hnext room hroom

theorem getNearestSectionStart_header {b y tail : Text} (hb : ']' ∉ b) (hnl : '\n' ∉ b) :
    getNearestSectionStart (pre ++ ('[' :: (b ++ ']' :: y) ++ tail)) pre.length =
      (stripText b).map fun name => some (name, pre.length) := by
  have hfound := getNearestSectionStart_closed pre (x := []) (y := y ++ tail) (by simp) hb hnl
  rw [if_pos (Or.inl rfl), List.append_nil] at hfound
  simpa using hfound

private theorem findsHeaders_header {b y tail : Text} {ls : List Text} (hb : ']' ∉ b)
    (hlen : b.length < 32768) (hnl : '\n' ∉ '[' :: (b ++ ']' :: y)) (htail : EndsLine tail)
    (hnext : FindsHeaders (pre ++ ('[' :: (b ++ ']' :: y) ++ tail))
      (pre ++ ('[' :: (b ++ ']' :: y) ++ tail.take 1)).length
      (pre.length + ('[' :: (b ++ ']' :: y)).length + 1) ls) :
    FindsHeaders (pre ++ ('[' :: (b ++ ']' :: y) ++ tail)) pre.length pre.length
      (('[' :: (b ++ ']' :: y)) :: ls) := by
  intro room hroom
  have hbracketed := bracketed_closed hb y
  have hfirst : getNearestSectionStart (pre ++ ('[' :: (b ++ ']' :: y) ++ tail)) pre.length =
      (stripText b).map fun name => some (name, pre.length) :=
    getNearestSectionStart_header pre hb fun h => hnl (by simp [h])
  by_cases hblank : trim b = []
  · have hheader : BlankHeader ('[' :: (b ++ ']' :: y)) := by
      rw [BlankHeader, hbracketed, Option.map_some, hblank]
    rw [sectionStarts_blank room hlen hblank hfirst]
    exact iff_of_false (by simp) fun h => h.1 hheader
  · have hname : headerName ('[' :: (b ++ ']' :: y)) = some (trim b) := by
      rw [headerName, hbracketed, Option.bind_some, if_neg hblank]
    have hstarts : headerStarts pre.length (('[' :: (b ++ ']' :: y)) :: ls) =
        (trim b, pre.length) ::
          headerStarts (pre.length + ('[' :: (b ++ ']' :: y)).length + 1) ls :=
      headerStarts_of_some hname _ ls
    have hstrip : stripText b = some (trim b) := by
      rw [stripText_eq b hlen, if_neg fun h => hblank (trim_allBlank h.2)]
    rw [hstarts] at hroom ⊢
    obtain ⟨room, rfl⟩ : ∃ r, room = r + 1 :=
      ⟨room - 1, by rw [List.length_cons] at hroom; omega⟩
    rw [hstrip, Option.map_some] at hfirst
    rw [sectionStarts_named room hfirst]
    by_cases hsecond : ('[' :: (b ++ ']' :: y))[(trim b).length]? = some '['
    · have hbracket : SecondBracket ('[' :: (b ++ ']' :: y)) := by
        simp [SecondBracket, hname, hsecond]
      refine iff_of_false (fun h => ?_) fun h => h.2.1 hbracket
      obtain ⟨s, hs, hpos⟩ := sectionStarts_secondBracket pre room hb hnl hsecond h
      -- the headers of the next lines stand behind this line
      have hge := le_of_mem_headerStarts _ ls s hs
      have hle := trim_length_le b
      simp only [List.length_append, List.length_cons] at hge
      omega
    · have hscan : Scannable (('[' :: (b ++ ']' :: y)) :: ls) ↔
          if Unclosed ('[' :: (b ++ ']' :: y)) then ∀ k ∈ ls, headerName k = none
          else Scannable ls := by
        simp [Scannable, BlankHeader, SecondBracket, hbracketed, hname, hblank, hsecond]
      rw [hscan, sectionStarts_behindName pre room hnl htail hsecond]
      by_cases hun : Unclosed ('[' :: (b ++ ']' :: y))
      · rw [if_pos hun, if_pos hun, stops_iff]
      · rw [if_neg hun, if_neg hun]
        exact hnext room (Nat.le_of_succ_le_succ hroom)

end Scanning

private theorem findsHeaders_joinLines (pre : Text) (ls : List Text) (hnl : ∀ l ∈ ls, '\n' ∉ l)
    (hlen : (pre ++ joinLines ls).length < 32768) :
    FindsHeaders (pre ++ joinLines ls) pre.length pre.length ls := by
  induction ls generalizing pre with
  | nil => simpa [joinLines] using findsHeaders_nil pre pre.length
  | cons l ls ih =>
      have hl : '\n' ∉ l := hnl l (by simp)
      have htail := endsLine_lineTail ls
      have hnext : FindsHeaders (pre ++ (l ++ lineTail ls))
          (pre ++ (l ++ (lineTail ls).take 1)).length (pre.length + l.length + 1) ls := by
        cases ls with
        | nil => simpa using findsHeaders_nil (pre ++ l) (pre.length + l.length + 1)
        | cons k ls =>
            rw [append_joinLines_cons_cons] at hlen
            have hrest := ih (pre ++ l ++ ['\n'])
              (fun x hx => hnl x (List.mem_cons_of_mem _ hx)) hlen
            rw [length_append_lineEnd] at hrest
            simpa [Nat.add_assoc] using hrest
      rw [joinLines_cons] at hlen ⊢
      cases hb : bracketed l with
      | none => exact findsHeaders_plainLine pre hb hl htail hnext
      | some b =>
          obtain ⟨y, rfl, hclose⟩ := exists_of_bracketed hb
          have hshort : b.length < 32768 := by
            simp only [List.length_append, List.length_cons] at hlen
            omega
          exact findsHeaders_header pre hclose hshort hl htail hnext

theorem setSectionEnds_eq (size : Nat) (starts : List (Text × Nat)) :
    setSectionEnds size starts = sectionsBetween size starts := by
  have hfold : starts.foldr (fun s acc => ((⟨s.1, s.2, acc.2⟩ :: acc.1 : List ConfigSection), s.2))
      ([], size) = (sectionsBetween size starts, (starts.head?.map Prod.snd).getD size) := by
    induction starts with
    | nil => rfl
    | cons s starts ih =>
        rw [List.foldr_cons, ih]
        cases starts with
        | nil => rfl
        | cons t starts => rfl
  rw [setSectionEnds, hfold]

theorem sectionsBetween_starts (size : Nat) (starts : List (Text × Nat)) :
    (sectionsBetween size starts).map (fun s => (s.name, s.offsetStart)) = starts := by
  fun_induction sectionsBetween size starts with
  | case1 => rfl
  | case2 s => rfl
  | case3 s t ss ih => rw [List.map_cons, ih]

/-- The sections found are those of the header lines if and only if the lines are scannable. -/
theorem getConfigStructure_iff (data : NvramData)
    (hcount : (headedSections data.text).length ≤ nvramMaxSectionsCount) :
    getConfigStructure data.text = some (headedSections data.text) ↔
      Scannable (data.text.splitOn '\n') := by
  have hjoin : joinLines (data.text.splitOn '\n') = data.text := List.intercalate_splitOn '\n'
  have hstarts := sectionsBetween_starts data.text.length
    (headerStarts 0 (data.text.splitOn '\n'))
  have hlen := data.length_le
  have hroom : (headerStarts 0 (data.text.splitOn '\n')).length ≤ nvramMaxSectionsCount := by
    rw [← hstarts, List.length_map]
    exact hcount
  have hscan := findsHeaders_joinLines [] (data.text.splitOn '\n')
    (fun l hl => not_mem_of_mem_splitOn '\n' data.text l hl)
    (by rw [hjoin, List.nil_append]; omega) nvramMaxSectionsCount hroom
  rw [hjoin, List.nil_append, List.length_nil] at hscan
  rw [← hscan, getConfigStructure, Option.map_eq_some_iff]
  constructor
  · rintro ⟨starts, hfound, hends⟩
    rw [setSectionEnds_eq] at hends
    have hback := sectionsBetween_starts data.text.length starts
    rw [hends, headedSections, hstarts] at hback
    rw [hfound, hback]
  · intro hfound
    exact ⟨_, hfound, setSectionEnds_eq ..⟩

private theorem sectionObserver_cons (obs : MNvramObserver) (rest : List MNvramObserver) (name : Text) :
    sectionObserver (obs :: rest) name =
      if name <+: obs.observedSectionName then some obs else sectionObserver rest name := by
  rw [sectionObserver, List.find?_cons]
  by_cases h : name <+: obs.observedSectionName
  · rw [if_pos h, List.isPrefixOf_iff_prefix.mpr h]
  · rw [if_neg h, eq_false_of_ne_true fun hp => h (List.isPrefixOf_iff_prefix.mp hp)]
    rfl

theorem prefix_of_sectionObserver {observers : List MNvramObserver} {name : Text}
    {obs : MNvramObserver} (h : sectionObserver observers name = some obs) :
    obs ∈ observers ∧ name <+: obs.observedSectionName :=
  ⟨List.mem_of_find?_eq_some h, List.isPrefixOf_iff_prefix.mp (by simpa using List.find?_some h)⟩

/-- A name goes to the observer of that name alone if and only if that one comes first. -/
theorem sectionObserver_iff (observers : List MNvramObserver)
    (hdistinct : (observers.map MNvramObserver.observedSectionName).Nodup) (name : Text) :
    (∀ obs ∈ observers, sectionObserver observers name = some obs ↔
      name = obs.observedSectionName) ↔ NamedFirst name observers := by
  induction observers with
  | nil => simp [NamedFirst]
  | cons o rest ih =>
      rw [List.map_cons, List.nodup_cons] at hdistinct
      rw [NamedFirst, ← ih hdistinct.2, sectionObserver_cons]
      by_cases hprefix : name <+: o.observedSectionName
      · simp only [if_pos hprefix]
        constructor
        · intro h
          exact Or.inl ((h o List.mem_cons_self).mp rfl).symm
        · rintro (rfl | ⟨hnot, -⟩)
          · intro obs hobs
            rcases List.mem_cons.mp hobs with rfl | hobs
            · simp
            · have hne : o.observedSectionName ≠ obs.observedSectionName := fun h =>
                hdistinct.1 (h ▸ List.mem_map_of_mem hobs)
              exact ⟨fun h => absurd (congrArg _ (Option.some.inj h)) hne, fun h => absurd h hne⟩
          · exact absurd hprefix hnot
      · have hne : o.observedSectionName ≠ name := fun h => hprefix (h ▸ List.prefix_rfl)
        simp only [hne, false_or, hprefix, not_false_eq_true, true_and,
          List.mem_cons, forall_eq_or_imp]
        refine and_iff_right ⟨fun h => ?_, fun h => absurd h.symm hne⟩
        exact absurd (prefix_of_sectionObserver h).2 hprefix

theorem mem_parseSections (before : Char) (data : Text)
    (observed : List (ConfigSection × MNvramObserver))
    {parsed : List (MNvramObserver × List ParsedRecord)}
    (h : parseSections before data observed = some parsed) :
    ∀ p ∈ parsed, ∃ s, (s, p.1) ∈ observed ∧ parseSection before data s p.1 = some p.2 := by
  induction observed generalizing parsed with
  | nil =>
      obtain rfl : [] = parsed := Option.some.inj h
      simp
  | cons x observed ih =>
      obtain ⟨s, obs⟩ := x
      obtain ⟨records, hrecords, h⟩ := Option.bind_eq_some_iff.mp h
      obtain ⟨rest, hrest, rfl⟩ := Option.map_eq_some_iff.mp h
      have htail : ∀ p ∈ rest, ∃ t, (t, p.1) ∈ (s, obs) :: observed ∧
          parseSection before data t p.1 = some p.2 := by
        intro p hp
        obtain ⟨t, ht, hparse⟩ := ih hrest p hp
        exact ⟨t, List.mem_cons_of_mem _ ht, hparse⟩
      split
      · exact htail
      · intro p hp
        rcases List.mem_cons.mp hp with rfl | hp
        · exact ⟨s, List.mem_cons_self, hrecords⟩
        · exact htail p hp

end Zrt.Nvram
