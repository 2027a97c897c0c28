import Mathlib.Data.List.DropRight
import Mathlib.Data.List.GetD
import Zrt.Nvram.ConfParser

/-!
# Tokens

What the helpers of the parser compute on the text of one token: `strip_all` trims it, or fails its
self-test when two or more characters are all blank, and a token yields a parameter only by its own
text, whatever follows it in memory.
-/

namespace Zrt.Nvram

/-- The text without its blank prefix and suffix. -/
def trim (s : Text) : Text := (s.dropWhile isCharToStrip).rdropWhile isCharToStrip

def AllBlank (s : Text) : Prop := ∀ c ∈ s, isCharToStrip c = true

instance (s : Text) : Decidable (AllBlank s) :=
  List.decidableBAll (fun c => isCharToStrip c = true) s

/-- The texts that fail the self-test of the trimming. -/
def FailsTrimming (s : Text) : Prop := 2 ≤ s.length ∧ AllBlank s

instance (s : Text) : Decidable (FailsTrimming s) := inferInstanceAs (Decidable (_ ∧ _))

theorem stripEnd_eq (s : Text) (k j : Nat) (hjk : j ≤ k)
    (hblank : ∀ i, j < i → i ≤ k → isCharToStrip (s.getD i nul) = true)
    (hj : j = 0 ∨ isCharToStrip (s.getD j nul) = false) : stripEnd s k = j := by
  induction k with
  | zero =>
      have h0 : j = 0 := by omega
      rw [stripEnd, h0]
  | succ k ih =>
      rw [stripEnd]
      rcases Nat.lt_or_eq_of_le hjk with hlt | rfl
      · rw [if_pos (hblank (k + 1) hlt (Nat.le_refl _))]
        exact ih (by omega) fun i hi hik => hblank i hi (by omega)
      · rcases hj with h0 | hnot
        · omega
        · rw [hnot, if_neg Bool.false_ne_true]

private theorem takeWhile_allBlank {s : Text} (h : AllBlank s) : s.takeWhile isCharToStrip = s :=
  List.takeWhile_eq_self_iff.mpr h

theorem trim_allBlank {s : Text} (h : AllBlank s) : trim s = [] := by
  have hdrop : s.dropWhile isCharToStrip = [] := List.dropWhile_eq_nil_iff.mpr h
  rw [trim, hdrop, List.rdropWhile_nil]

/-- On blanks alone the scan from the right stops at index zero, one below the end of the other
scan, and sixteen bits hold the difference as a large length. -/
theorem stripAll_blanks (s : Text) (hlen : s.length < 65536) (h : AllBlank s) :
    stripAll s =
      if s.length ≤ 1 then some (s.length, 0)
      else if s.length ≤ 32768 then none
      else some (s.length, 65537 - s.length) := by
  simp only [stripAll, takeWhile_allBlank h]
  rcases Nat.eq_zero_or_pos s.length with h0 | hpos
  · simp [h0]
  · have hend : stripEnd s (s.length - 1) = 0 := by
      refine stripEnd_eq s _ 0 (Nat.zero_le _) (fun i _ hi => ?_) (Or.inl rfl)
      rw [List.getD_eq_getElem _ _ (by omega)]
      exact h _ (List.getElem_mem _)
    have hne : ¬ s.length = 0 := by omega
    simp only [hne, if_false, hend]
    by_cases hone : s.length ≤ 1
    · have h1 : s.length = 1 := by omega
      simp [h1]
    · have hstriped : (((0 : Nat) - (s.length : Int) + 1) % 65536).toNat = 65537 - s.length := by
        omega
      rw [if_neg hone, hstriped]
      by_cases hshort : s.length ≤ 32768
      · rw [if_pos hshort, if_neg (by omega)]
      · rw [if_neg hshort, if_pos (by omega)]

theorem stripAll_allBlank (s : Text) (hlen : s.length < 32768) (h : AllBlank s) :
    stripAll s = if s.length ≤ 1 then some (s.length, 0) else none := by
  rw [stripAll_blanks s (by omega) h, if_pos (by omega : s.length ≤ 32768)]

theorem exists_trim (s : Text) (h : ¬ AllBlank s) :
    ∃ l r, s = l ++ trim s ++ r ∧ AllBlank l ∧ AllBlank r ∧ trim s ≠ [] ∧
      (∀ c ∈ (trim s).head?, isCharToStrip c = false) ∧
      (∀ c ∈ (trim s).getLast?, isCharToStrip c = false) := by
  have hdrop : s.dropWhile isCharToStrip ≠ [] := fun hnil =>
    h (List.dropWhile_eq_nil_iff.mp hnil)
  have hhead : isCharToStrip ((s.dropWhile isCharToStrip).head hdrop) = false :=
    List.head_dropWhile_not isCharToStrip hdrop
  have htrim : trim s ≠ [] := by
    intro hnil
    have hall := List.rdropWhile_eq_nil_iff.mp hnil _ (List.head_mem hdrop)
    rw [hhead] at hall
    exact Bool.false_ne_true hall
  have hsplit : trim s ++ (s.dropWhile isCharToStrip).rtakeWhile isCharToStrip =
      s.dropWhile isCharToStrip := List.rdropWhile_append_rtakeWhile ..
  refine ⟨s.takeWhile isCharToStrip, (s.dropWhile isCharToStrip).rtakeWhile isCharToStrip, ?_,
    fun c hc => List.mem_takeWhile_imp hc, fun c hc => List.mem_rtakeWhile_imp hc, htrim, ?_, ?_⟩
  · rw [List.append_assoc, hsplit, List.takeWhile_append_dropWhile]
  · intro c hc
    obtain ⟨t, ht⟩ := List.head?_eq_some_iff.mp hc
    have heq : (s.dropWhile isCharToStrip).head? = some c := by
      rw [← hsplit, ht, List.cons_append, List.head?_cons]
    rw [List.head?_eq_some_head hdrop, Option.some.injEq] at heq
    rw [← heq]
    exact hhead
  · intro c hc
    have hlast := List.rdropWhile_last_not isCharToStrip (s.dropWhile isCharToStrip) htrim
    have heq : (trim s).getLast htrim = c := by
      rw [Option.mem_def, List.getLast?_eq_some_getLast htrim] at hc
      exact Option.some.inj hc
    rw [← heq]
    exact eq_false_of_ne_true hlast

theorem stripAll_of_split (l m r : Text) (hl : AllBlank l) (hr : AllBlank r) (hm : m ≠ [])
    (hhead : ∀ c ∈ m.head?, isCharToStrip c = false)
    (hlast : ∀ c ∈ m.getLast?, isCharToStrip c = false)
    (hlen : (l ++ m ++ r).length < 65536) : stripAll (l ++ m ++ r) = some (l.length, m.length) := by
  have hfirst : (l ++ m ++ r).takeWhile isCharToStrip = l := by
    obtain ⟨c, t, rfl⟩ := List.exists_cons_of_ne_nil hm
    rw [List.append_assoc, List.takeWhile_append_of_pos hl, List.cons_append,
      List.takeWhile_cons_of_neg (by simp [hhead c rfl]), List.append_nil]
  have hpos : 0 < m.length := List.length_pos_iff.mpr hm
  have hend : stripEnd (l ++ m ++ r) ((l ++ m ++ r).length - 1) = l.length + m.length - 1 := by
    refine stripEnd_eq _ _ _ (by simp; omega) (fun i hi hi' => ?_) (Or.inr ?_)
    · have hlt : i < (l ++ m ++ r).length := by simp at hi' ⊢; omega
      rw [List.getD_eq_getElem _ _ hlt, List.getElem_append_right (by simp; omega)]
      exact hr _ (List.getElem_mem _)
    · have hlt : l.length + m.length - 1 < (l ++ m ++ r).length := by simp; omega
      have hlt' : l.length + m.length - 1 < (l ++ m).length := by
        rw [List.length_append]
        omega
      rw [List.getD_eq_getElem _ _ hlt, List.getElem_append_left hlt',
        List.getElem_append_right (by omega)]
      refine hlast _ ?_
      rw [List.getLast?_eq_getElem?, Option.mem_def, List.getElem?_eq_some_iff]
      exact ⟨by omega, by congr 1; omega⟩
  have hne : ¬ (l ++ m ++ r).length = 0 := by
    simp only [List.length_append]
    omega
  have hstriped : ((l.length + m.length - 1 : Nat) - (l.length : Int) + 1) % 65536 = m.length := by
    simp only [List.length_append] at hlen
    omega
  simp only [stripAll, hfirst, hne, if_false, hend, hstriped, Int.toNat_natCast]
  rw [if_pos (by simp; omega)]

theorem stripAll_fails (s : Text) (hlen : s.length < 32768) (h : FailsTrimming s) :
    stripAll s = none := by
  rw [stripAll_allBlank s hlen h.2, if_neg (by have := h.1; omega)]

theorem stripAll_trim (s : Text) (hlen : s.length < 32768) (h : ¬ FailsTrimming s) :
    ∃ b, stripAll s = some (b, (trim s).length) ∧
      ∀ tail, ∃ r, (s ++ tail).drop b = trim s ++ r ++ tail ∧ AllBlank r := by
  by_cases hblank : AllBlank s
  · have hone : s.length ≤ 1 := by
      by_contra hgt
      exact h ⟨by omega, hblank⟩
    refine ⟨s.length, ?_, fun tail => ⟨[], ?_, by simp [AllBlank]⟩⟩
    · rw [stripAll_allBlank s hlen hblank, if_pos hone, trim_allBlank hblank, List.length_nil]
    · simp [trim_allBlank hblank]
  · obtain ⟨l, r, hs, hl, hr, hne, hhead, hlast⟩ := exists_trim s hblank
    have hstrip := stripAll_of_split l (trim s) r hl hr hne hhead hlast (by rw [← hs]; omega)
    rw [← hs] at hstrip
    refine ⟨l.length, hstrip, fun tail => ⟨r, ?_, hr⟩⟩
    nth_rewrite 1 [hs]
    simp [List.append_assoc]

/-- The self-test passes, and offset and length are those of the trimmed text. -/
def StripsToTrim (s : Text) : Prop :=
  ∃ b, stripAll s = some (b, (trim s).length) ∧ b + (trim s).length ≤ s.length ∧
    (s.drop b).take (trim s).length = trim s

/-- The trimming is right except for two or more blanks without another character. -/
theorem stripsToTrim_iff (s : Text) (hlen : s.length ≤ 65535) :
    StripsToTrim s ↔ ¬ (2 ≤ s.length ∧ AllBlank s) := by
  by_cases hblank : AllBlank s
  · have hstrip := stripAll_blanks s (by omega) hblank
    by_cases hone : s.length ≤ 1
    · rw [if_pos hone] at hstrip
      refine iff_of_true ⟨s.length, ?_, ?_, ?_⟩ (fun h => by omega)
      · rw [hstrip, trim_allBlank hblank, List.length_nil]
      · simp [trim_allBlank hblank]
      · simp [trim_allBlank hblank]
    · refine iff_of_false ?_ (fun h => h ⟨by omega, hblank⟩)
      rintro ⟨b, hb, -⟩
      rw [trim_allBlank hblank, List.length_nil] at hb
      rw [if_neg hone] at hstrip
      by_cases hshort : s.length ≤ 32768
      · rw [hb, if_pos hshort] at hstrip
        cases hstrip
      · rw [hb, if_neg hshort, Option.some.injEq, Prod.mk.injEq] at hstrip
        omega
  · refine iff_of_true ?_ (fun h => hblank h.2)
    obtain ⟨l, r, hs, hl, hr, hne, hhead, hlast⟩ := exists_trim s hblank
    have hstrip := stripAll_of_split l (trim s) r hl hr hne hhead hlast (by rw [← hs]; omega)
    rw [← hs] at hstrip
    have hlength := congrArg List.length hs
    have hdrop : s.drop l.length = trim s ++ r := by
      conv_lhs => rw [hs]
      rw [List.append_assoc, List.drop_left' rfl]
    simp only [List.length_append] at hlength
    exact ⟨l.length, hstrip, by omega, by rw [hdrop, List.take_left' rfl]⟩

theorem stripsToTrim_iff_newline :
    StripsToTrim [' ', 'a', ' ', 'b', '\n'] ↔
      ¬ (2 ≤ [' ', 'a', ' ', 'b', '\n'].length ∧ AllBlank [' ', 'a', ' ', 'b', '\n']) :=
  stripsToTrim_iff _ (by decide)

/-- Two blanks fail the self-test. -/
theorem stripAll_twoBlanks : stripAll [' ', ' '] = none ∧ ¬ StripsToTrim [' ', ' '] := by
  have hfails : stripAll [' ', ' '] = none := by decide
  refine ⟨hfails, ?_⟩
  rintro ⟨b, hb, -⟩
  rw [hfails] at hb
  cases hb

/-- The parameter a trimmed token denotes: it is split at its first delimiter, unless a terminator
hides it, and both halves are trimmed. -/
def keyValue (tok : Text) : Option (Text × Text) :=
  ((tok.takeWhile fun c => c ≠ nul).findIdx? fun c => c = '=').map fun k =>
    (trim (tok.take k), trim (tok.drop (k + 1)))

/-- The parameter of a field of the text, if there is one; `none` is a failed self-test. -/
def fieldParam (f : Text) : Option (Option (Text × Text)) :=
  if FailsTrimming f then none else some (keyValue (trim f))

theorem stripAll_take (s tail : Text) (hlen : s.length < 32768) (h : ¬ FailsTrimming s) :
    ∃ b, stripAll s = some (b, (trim s).length) ∧
      ((s ++ tail).drop b).take (trim s).length = trim s := by
  obtain ⟨b, hstrip, hmem⟩ := stripAll_trim s hlen h
  obtain ⟨r, hr, -⟩ := hmem tail
  exact ⟨b, hstrip, by rw [hr, List.append_assoc, List.take_left']; rfl⟩

theorem not_failsTrimming_of_mem {s : Text} {c : Char} (hc : c ∈ s)
    (hblank : isCharToStrip c = false) : ¬ FailsTrimming s := by
  intro h
  rw [h.2 c hc] at hblank
  exact Bool.noConfusion hblank

theorem not_failsTrimming_nil : ¬ FailsTrimming [] := fun h => by simpa using h.1

/-- The first delimiter in memory is that of the token, or it is farther away than the character
behind the token. -/
private theorem findIdx?_delimiter (tok mem : Text) (x : Char) (hx : x ≠ '=') :
    ((tok ++ x :: mem).takeWhile fun c => c ≠ nul).findIdx? (fun c => c = '=') =
        (tok.takeWhile fun c => c ≠ nul).findIdx? (fun c => c = '=') ∨
      (tok.takeWhile fun c => c ≠ nul).findIdx? (fun c => c = '=') = none ∧
        ∃ k, tok.length < k ∧
          ((tok ++ x :: mem).takeWhile fun c => c ≠ nul).findIdx? (fun c => c = '=') = some k := by
  rw [List.takeWhile_append]
  split
  · rename_i hwhole
    have htok : (tok.takeWhile fun c => decide (c ≠ nul)) = tok :=
      (List.takeWhile_prefix _).eq_of_length hwhole
    rw [htok, List.findIdx?_append]
    cases hk : tok.findIdx? fun c => decide (c = '=') with
    | some k => exact Or.inl rfl
    | none =>
        cases hj : ((x :: mem).takeWhile fun c => decide (c ≠ nul)).findIdx?
            (fun c => decide (c = '=')) with
        | none => exact Or.inl rfl
        | some j =>
            refine Or.inr ⟨rfl, j + tok.length, ?_, rfl⟩
            have hj0 : j ≠ 0 := by
              rintro rfl
              by_cases hnul : x = nul
              · simp [hnul] at hj
              · simp [hnul, hx, List.findIdx?_cons] at hj
            omega
  · exact Or.inl rfl

/-- On a trimmed token neither half fails the trimming, and a delimiter behind the token is
never taken. -/
theorem extractKeyValue_eq (tok mem : Text) (x : Char) (hx : x ≠ '=') (hlen : tok.length < 32768)
    (hhead : ∀ c ∈ tok.head?, isCharToStrip c = false)
    (hlast : ∀ c ∈ tok.getLast?, isCharToStrip c = false) :
    extractKeyValue (tok ++ x :: mem) tok.length = some (keyValue tok) := by
  rcases findIdx?_delimiter tok mem x hx with hsame | ⟨hnone, k, hk, hfar⟩
  · cases hk : (tok.takeWhile fun c => c ≠ nul).findIdx? (fun c => c = '=') with
    | none => simp only [extractKeyValue, keyValue, hsame, hk, Option.map_none]
    | some k =>
        have hlt : k < tok.length :=
          Nat.lt_of_lt_of_le (List.findIdx?_eq_some_iff_getElem.mp hk).1
            (List.takeWhile_prefix _).length_le
        have hkey : ¬ FailsTrimming (tok.take k) := by
          cases tok with
          | nil => simp at hlt
          | cons c t =>
              cases k with
              | zero => exact not_failsTrimming_nil
              | succ k => exact not_failsTrimming_of_mem (by simp) (hhead c rfl)
        have hval : ¬ FailsTrimming (tok.drop (k + 1)) := by
          by_cases hnil : tok.drop (k + 1) = []
          · rw [hnil]
            exact not_failsTrimming_nil
          · have hne : tok ≠ [] := List.ne_nil_of_length_pos (by omega)
            refine not_failsTrimming_of_mem (List.getLast_mem hnil)
              (hlast _ ?_)
            rw [List.getLast_drop, Option.mem_def, List.getLast?_eq_some_getLast hne]
        obtain ⟨b, hb, hbtake⟩ := stripAll_take (tok.take k) (tok.drop k ++ x :: mem)
          (by rw [List.length_take]; omega) hkey
        obtain ⟨d, hd, hdtake⟩ := stripAll_take (tok.drop (k + 1)) (x :: mem)
          (by rw [List.length_drop]; omega) hval
        have hsrckey : (tok ++ x :: mem).take k = tok.take k := List.take_append_of_le_length hlt.le
        have hsrcval : ((tok ++ x :: mem).drop (k + 1)).take (tok.length - k - 1) =
            tok.drop (k + 1) := by
          rw [List.drop_append_of_le_length (by omega), List.take_left' (by simp; omega)]
        have hsplit : tok.take k ++ (tok.drop k ++ x :: mem) = tok ++ x :: mem := by
          rw [← List.append_assoc, List.take_append_drop]
        rw [hsplit] at hbtake
        rw [← List.drop_append_of_le_length (by omega), List.drop_drop] at hdtake
        simp only [extractKeyValue, keyValue, hsame, hk, Option.map_some]
        rw [if_neg (by omega), if_neg (by omega), hsrckey, hsrcval, hb, hd]
        simp only [Option.bind_some, Option.map_some, hbtake, hdtake]
  · simp only [extractKeyValue, keyValue, hnone, hfar, Option.map_none]
    rw [if_pos hk]

/-- A token followed by anything but a delimiter is handled by its own text. -/
theorem parseToken_eq (keyList : KeyList) (f mem : Text) (x : Char) (hx : x ≠ '=')
    (hlen : f.length < 32768) (p : ParseState) :
    p.parseToken keyList (f ++ x :: mem) f.length = (fieldParam f).map (p.saveField keyList) := by
  rw [ParseState.parseToken, List.take_left' rfl]
  by_cases hfail : FailsTrimming f
  · rw [stripAll_fails f hlen hfail, fieldParam, if_pos hfail]
    rfl
  · obtain ⟨b, hb, hmem⟩ := stripAll_trim f hlen hfail
    rw [hb, fieldParam, if_neg hfail]
    by_cases hblank : AllBlank f
    · rw [trim_allBlank hblank]
      rfl
    · obtain ⟨-, -, -, -, -, hne, hhead, hlast⟩ := exists_trim f hblank
      obtain ⟨r, hdrop, hr⟩ := hmem (x :: mem)
      obtain ⟨y, mem', hy, hrest⟩ : ∃ y mem', y ≠ '=' ∧ r ++ x :: mem = y :: mem' := by
        cases r with
        | nil => exact ⟨x, mem, hx, rfl⟩
        | cons y r =>
            refine ⟨y, r ++ x :: mem, ?_, rfl⟩
            rintro rfl
            exact absurd (hr '=' (by simp)) (by decide)
      have hshort : (trim f).length < 32768 :=
        Nat.lt_of_le_of_lt ((List.rdropWhile_prefix _ _).length_le.trans
          (List.dropWhile_suffix _).length_le) hlen
      rw [List.append_assoc, hrest] at hdrop
      simp only [Option.bind_some, List.length_pos_iff.mpr hne, if_true, hdrop,
        extractKeyValue_eq (trim f) mem' y hy hshort hhead hlast]

end Zrt.Nvram
