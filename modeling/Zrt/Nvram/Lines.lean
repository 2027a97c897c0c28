import Zrt.Nvram.Records

/-!
# Lines

What the parser makes of each line of a text. A line with a comment leaves its record open, because
the line end that closes the comment only resumes processing; the saved next state then stays that
of a comment, so that the next line end met while processing, unless a comma stands before it,
leads back into a comment and the line after it is skipped.
-/

namespace Zrt.Nvram

/-- A line up to its comment. -/
def lineContent (l : Text) : Text := l.takeWhile fun c => c ≠ '#'

/-- The comment of a line, without the character that opens it. -/
def lineComment (l : Text) : Text := (l.dropWhile fun c => c ≠ '#').tail

def lineFields (l : Text) : List Text := (lineContent l).splitOn ','

/-- A comment in which the end of the text is read as a token. -/
def StrayComment (comment : Text) : Prop := 2 ≤ comment.length ∧ comment.getLast? ≠ some '#'

instance (comment : Text) : Decidable (StrayComment comment) := inferInstanceAs (Decidable (_ ∧ _))

/-- A line is read and its end closes the record, or it is read and the record stays open, or it
is skipped. -/
inductive LineRole where
  | closed | unclosed | skipped
deriving DecidableEq

inductive LineMode where
  | processing (commentNext : Bool)
  | skipping
deriving DecidableEq

namespace LineMode

def role : LineMode → Text → LineRole
  | .processing _, l => if '#' ∈ l then .unclosed else .closed
  | .skipping, _ => .skipped

def next : LineMode → Text → LineMode
  | .processing w, l =>
      if '#' ∈ l then .processing true
      else if w ∧ ',' ∉ l then .skipping
      else .processing false
  | .skipping, _ => .processing true

/-- The lexer mode in which the line starts. -/
def lexMode : LineMode → LexMode
  | .processing w => .processing w []
  | .skipping => .comment .fresh

/-- The part of the last line that the lexer passes in a comment. -/
def comment : LineMode → Text → Text
  | .processing _, l => lineComment l
  | .skipping, l => l

end LineMode

/-- The lines with what becomes of them. -/
def lineRoles : LineMode → List Text → List (LineRole × Text)
  | _, [] => []
  | m, l :: ls => (m.role l, l) :: lineRoles (m.next l) ls

def StrayAtEnd : LineMode → List Text → Prop
  | _, [] => False
  | m, [l] => StrayComment (m.comment l)
  | m, l :: ls => StrayAtEnd (m.next l) ls

/-- The events of a text, line by line. -/
def lineEvents : LineMode → List Text → List LexEvent
  | _, [] => []
  | m, [l] => (if m.role l = .skipped then [] else (lineFields l).map .field) ++
      (if StrayComment (m.comment l) then [.stray] else [])
  | m, l :: ls => (if m.role l = .skipped then [] else (lineFields l).map .field) ++
      (if m.role l = .closed then [.endRecord] else []) ++ lineEvents (m.next l) ls

/-- The text of a list of lines. -/
def joinLines (ls : List Text) : Text := ['\n'].intercalate ls

theorem joinLines_cons_cons (l m : Text) (ls : List Text) :
    joinLines (l :: m :: ls) = l ++ '\n' :: joinLines (m :: ls) := by
  simp [joinLines, List.intercalate]

theorem lexEvents_content (w : Bool) (f c rest : Text) (hf : ',' ∉ f) (hhash : '#' ∉ c)
    (hnl : '\n' ∉ c) :
    lexEvents (.processing w f) (c ++ rest) =
      ((f ++ c).splitOn ',').dropLast.map .field ++
        lexEvents (.processing (w && decide (',' ∉ c)) (((f ++ c).splitOn ',').getLastD [])) rest := by
  induction c generalizing w f with
  | nil => simp [List.splitOn_eq_singleton hf]
  | cons d c ih =>
      have hhash' : '#' ∉ c := fun h => hhash (List.mem_cons_of_mem _ h)
      have hnl' : '\n' ∉ c := fun h => hnl (List.mem_cons_of_mem _ h)
      have hd : d ≠ '#' := fun h => hhash (by simp [h])
      have hd' : d ≠ '\n' := fun h => hnl (by simp [h])
      by_cases hcomma : d = ','
      · subst d
        have hnext : (LexMode.processing w f).next ',' = ([.field f], .processing false []) := rfl
        have hne : c.splitOn ',' ≠ [] := List.splitOn_ne_nil ',' c
        rw [List.cons_append, lexEvents, hnext, ih false [] (by simp) hhash' hnl',
          List.splitOn_append_cons_self_of_not_mem hf, List.dropLast_cons_of_ne_nil hne]
        obtain ⟨g, gs, hg⟩ := List.exists_cons_of_ne_nil hne
        simp [hg]
      · have hnext : (LexMode.processing w f).next d = ([], .processing w (f ++ [d])) := by
          simp [LexMode.next, hd, hd', hcomma]
        have hf' : ',' ∉ f ++ [d] := by simp [hf, Ne.symm hcomma]
        have hw : decide (',' ∉ d :: c) = decide (',' ∉ c) := by simp [Ne.symm hcomma]
        rw [List.cons_append, lexEvents, hnext, ih w (f ++ [d]) hf' hhash' hnl', hw]
        simp

theorem lexEvents_comment_line (k : CommentMode) (cm rest : Text) (hnl : '\n' ∉ cm) :
    lexEvents (.comment k) (cm ++ '\n' :: rest) = lexEvents (.processing true []) rest := by
  induction cm generalizing k with
  | nil => rfl
  | cons c cm ih =>
      have hc : c ≠ '\n' := fun h => hnl (by simp [h])
      have hcm : '\n' ∉ cm := fun h => hnl (List.mem_cons_of_mem _ h)
      rw [List.cons_append, lexEvents]
      simp only [LexMode.next, hc, if_false]
      by_cases hhash : c = '#'
      · simp only [hhash, if_true, List.nil_append, ih _ hcm]
      · simp only [hhash, if_false, List.nil_append, ih _ hcm]

/-- Past its first character a comment strays at the end of the text unless it ends in another
comment character. -/
private theorem lexEvents_comment_last (k : CommentMode) (cm : Text) (d : Char) (hnl : '\n' ∉ cm ++ [d])
    (hk : k ≠ .fresh ∨ cm ≠ []) :
    lexEvents (.comment k) (cm ++ [d]) = if d = '#' then [] else [.stray] := by
  induction cm generalizing k with
  | nil =>
      have hd : d ≠ '\n' := fun h => hnl (by simp [h])
      have hfresh : k ≠ .fresh := by simpa using hk
      by_cases hhash : d = '#'
      · simp [lexEvents, LexMode.next, hhash, LexMode.finish]
      · simp [lexEvents, LexMode.next, hhash, hd, hfresh, LexMode.finish]
  | cons c cm ih =>
      have hc : c ≠ '\n' := fun h => hnl (by simp [h])
      have hcm : '\n' ∉ cm ++ [d] := fun h => hnl (List.mem_cons_of_mem _ h)
      rw [List.cons_append, lexEvents]
      simp only [LexMode.next, hc, if_false]
      by_cases hhash : c = '#'
      · simp only [hhash, if_true, List.nil_append]
        exact ih .quiet hcm (Or.inl (by decide))
      · simp only [hhash, if_false, List.nil_append]
        refine ih _ hcm (Or.inl ?_)
        by_cases hfresh : k = .fresh <;> simp [hfresh]

theorem lexEvents_comment_end (cm : Text) (hnl : '\n' ∉ cm) :
    lexEvents (.comment .fresh) cm = if StrayComment cm then [.stray] else [] := by
  rcases List.eq_nil_or_concat cm with rfl | ⟨t, d, rfl⟩
  · rfl
  · rw [List.concat_eq_append] at hnl ⊢
    by_cases ht : t = []
    · subst t
      have hd : d ≠ '\n' := fun h => hnl (by simp [h])
      by_cases hhash : d = '#'
      · simp [lexEvents, LexMode.next, hhash, LexMode.finish, StrayComment]
      · simp [lexEvents, LexMode.next, hhash, hd, LexMode.finish, StrayComment]
    · have hlen : 2 ≤ (t ++ [d]).length := by
        have := List.length_pos_iff.mpr ht
        simp only [List.length_append, List.length_singleton]
        omega
      rw [lexEvents_comment_last .fresh t d hnl (Or.inr ht)]
      by_cases hhash : d = '#'
      · simp [StrayComment, hhash]
      · have hstray : StrayComment (t ++ [d]) := ⟨hlen, by simp [hhash]⟩
        rw [if_neg hhash, if_pos hstray]

theorem lineContent_append_lineComment (l : Text) (h : '#' ∈ l) :
    l = lineContent l ++ '#' :: lineComment l := by
  have hsplit : lineContent l ++ (l.dropWhile fun c => decide (c ≠ '#')) = l :=
    List.takeWhile_append_dropWhile
  have hne : (l.dropWhile fun c => decide (c ≠ '#')) ≠ [] := by
    intro hnil
    have hall := List.dropWhile_eq_nil_iff.mp hnil '#' h
    simp at hall
  obtain ⟨c, t, ht⟩ := List.exists_cons_of_ne_nil hne
  have hc : c = '#' := by
    have hhead : (fun c => decide (c ≠ '#')) c = false := by
      have := List.head?_dropWhile_not (fun c => decide (c ≠ '#')) l
      rw [ht] at this
      exact this
    simpa using hhead
  rw [lineComment, ht, List.tail_cons, ← hc, ← ht, hsplit]

theorem lineContent_of_not_mem (l : Text) (h : '#' ∉ l) : lineContent l = l :=
  List.takeWhile_eq_self_iff.mpr fun c hc => by
    simpa using fun heq : c = '#' => h (heq ▸ hc)

theorem lineComment_of_not_mem (l : Text) (h : '#' ∉ l) : lineComment l = [] := by
  have hdrop : (l.dropWhile fun c => decide (c ≠ '#')) = [] :=
    List.dropWhile_eq_nil_iff.mpr fun c hc => by
      simpa using fun heq : c = '#' => h (heq ▸ hc)
  rw [lineComment, hdrop, List.tail_nil]

theorem not_mem_lineContent (l : Text) : '#' ∉ lineContent l := by
  intro h
  simpa using List.mem_takeWhile_imp h

theorem splitOn_dropLast_getLastD (c : Char) (s : Text) :
    (s.splitOn c).dropLast ++ [(s.splitOn c).getLastD []] = s.splitOn c := by
  rcases List.eq_nil_or_concat (s.splitOn c) with hnil | ⟨t, d, hd⟩
  · exact absurd hnil (List.splitOn_ne_nil c s)
  · rw [hd, List.concat_eq_append, List.dropLast_concat, List.getLastD_concat]

private theorem not_mem_lineContent_of_not_mem {l : Text} {c : Char} (h : c ∉ l) : c ∉ lineContent l :=
  fun hc => h ((List.takeWhile_prefix _).subset hc)

theorem lexEvents_fields (w : Bool) (l rest : Text) (d : Char) (hnl : '\n' ∉ l)
    (hd : d = '#' ∨ d = '\n') :
    lexEvents (.processing w []) (lineContent l ++ d :: rest) =
      (lineFields l).map .field ++
        if d = '#' then lexEvents (.comment .fresh) rest
        else .endRecord :: lexEvents (if w && decide (',' ∉ lineContent l) then .comment .fresh
          else .processing false []) rest := by
  have hsplit := splitOn_dropLast_getLastD ',' (lineContent l)
  rw [lexEvents_content w [] _ _ (by simp) (not_mem_lineContent l)
    (not_mem_lineContent_of_not_mem hnl), List.nil_append, lexEvents, lineFields]
  nth_rewrite 4 [← hsplit]
  rcases hd with rfl | rfl <;> simp [LexMode.next]

private theorem lexEvents_line (w : Bool) (l rest : Text) (hnl : '\n' ∉ l) :
    lexEvents (.processing w []) (l ++ '\n' :: rest) =
      (lineFields l).map .field ++
        (if (LineMode.processing w).role l = .closed then [.endRecord] else []) ++
          lexEvents ((LineMode.processing w).next l).lexMode rest := by
  by_cases hhash : '#' ∈ l
  · have hl := lineContent_append_lineComment l hhash
    have hcm : '\n' ∉ lineComment l := fun h => hnl (by rw [hl]; simp [h])
    have htext : l ++ '\n' :: rest =
        lineContent l ++ '#' :: (lineComment l ++ '\n' :: rest) := by
      conv_lhs => rw [hl]
      simp
    rw [htext, lexEvents_fields w l _ '#' hnl (Or.inl rfl), if_pos rfl,
      lexEvents_comment_line _ _ _ hcm]
    simp [LineMode.role, LineMode.next, hhash, LineMode.lexMode]
  · have hl := lineContent_of_not_mem l hhash
    have hfields := lexEvents_fields w l rest '\n' hnl (Or.inr rfl)
    rw [hl] at hfields
    rw [hfields]
    by_cases hskip : w = true ∧ ',' ∉ l
    · simp [LineMode.role, LineMode.next, hhash, hskip, LineMode.lexMode]
    · simp [LineMode.role, LineMode.next, hhash, hskip, LineMode.lexMode]

private theorem lexEvents_lastLine (w : Bool) (l : Text) (hnl : '\n' ∉ l) :
    lexEvents (.processing w []) l =
      (lineFields l).map .field ++ (if StrayComment (lineComment l) then [.stray] else []) := by
  by_cases hhash : '#' ∈ l
  · have hl := lineContent_append_lineComment l hhash
    have hcm : '\n' ∉ lineComment l := fun h => hnl (by rw [hl]; simp [h])
    conv_lhs => rw [hl]
    rw [lexEvents_fields w l _ '#' hnl (Or.inl rfl), if_pos rfl, lexEvents_comment_end _ hcm]
  · have hl := lineContent_of_not_mem l hhash
    have hquiet : ¬ StrayComment (lineComment l) := by
      rw [lineComment_of_not_mem l hhash]
      exact fun h => absurd h.1 (by simp)
    have hcontent := lexEvents_content w [] l [] (by simp) hhash hnl
    rw [List.append_nil, List.nil_append] at hcontent
    rw [hcontent, if_neg hquiet, List.append_nil, lineFields, hl, lexEvents, LexMode.finish,
      ← List.map_singleton, ← List.map_append, splitOn_dropLast_getLastD]

theorem lexEvents_joinLines (m : LineMode) (ls : List Text) (hne : ls ≠ [])
    (hnl : ∀ l ∈ ls, '\n' ∉ l) : lexEvents m.lexMode (joinLines ls) = lineEvents m ls := by
  induction ls generalizing m with
  | nil => exact absurd rfl hne
  | cons l ls ih =>
      have hl : '\n' ∉ l := hnl l (by simp)
      cases ls with
      | nil =>
          rw [joinLines, List.intercalate_singleton, lineEvents]
          cases m with
          | processing w =>
              have hrole : (LineMode.processing w).role l ≠ .skipped := by
                simp only [LineMode.role]
                split <;> decide
              rw [if_neg hrole]
              exact lexEvents_lastLine w l hl
          | skipping => exact lexEvents_comment_end l hl
      | cons k ls =>
          have hrest := ih (m.next l) (List.cons_ne_nil k ls) fun x hx =>
            hnl x (List.mem_cons_of_mem _ hx)
          rw [joinLines_cons_cons, lineEvents, ← hrest]
          · cases m with
            | processing w =>
                have hrole : (LineMode.processing w).role l ≠ .skipped := by
                  simp only [LineMode.role]
                  split <;> decide
                rw [if_neg hrole]
                exact lexEvents_line w l _ hl
            | skipping => exact lexEvents_comment_line .fresh l _ hl
          · exact List.cons_ne_nil k ls

end Zrt.Nvram
