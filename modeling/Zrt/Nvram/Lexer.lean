import Zrt.Nvram.Tokens

/-!
# Lexer

The cursors of the parser replaced by the text they delimit: the loop of `get_parsed_records` emits
the same fields and record ends as a machine that keeps the characters of the current field. Its
modes show what the two state variables of the source can be at the head of the loop.
-/

namespace Zrt.Nvram

inductive LexEvent where
  | field (f : Text)
  | endRecord
  | stray
deriving DecidableEq

/-- Inside a comment: just entered, past characters that an end of text would not turn into a token,
or past one that it would. -/
inductive CommentMode where
  | fresh | quiet | stray
deriving DecidableEq

/-- `commentNext` is set while the saved next state is still that of an earlier comment. -/
inductive LexMode where
  | processing (commentNext : Bool) (f : Text)
  | comment (k : CommentMode)

namespace LexMode

def next : LexMode → Char → List LexEvent × LexMode
  | .processing w f, c =>
      if c = '#' then ([.field f], .comment .fresh)
      else if c = ',' then ([.field f], .processing false [])
      else if c = '\n' then
        ([.field f, .endRecord], if w then .comment .fresh else .processing false [])
      else ([], .processing w (f ++ [c]))
  | .comment k, c =>
      if c = '\n' then ([], .processing true [])
      else if c = '#' then ([], .comment .quiet)
      else ([], .comment (if k = .fresh then .quiet else .stray))

/-- The token read because the text ends here. -/
def finish : LexMode → List LexEvent
  | .processing _ f => [.field f]
  | .comment k => if k = .stray then [.stray] else []

end LexMode

def lexEvents : LexMode → Text → List LexEvent
  | m, [] => m.finish
  | m, c :: cs => (m.next c).1 ++ lexEvents (m.next c).2 cs

/-- A comment at the end of the text makes the parser read the byte before the text as a token; the
delimiter that follows it then fails the trimming. -/
def StrayFails (before : Char) (text : Text) : Prop :=
  isCharToStrip before = false ∧ before ≠ '=' ∧ text.head? = some '='

instance (before : Char) (text : Text) : Decidable (StrayFails before text) :=
  inferInstanceAs (Decidable (_ ∧ _))

section Events

variable (keyList : KeyList) (strayFails : Bool)

def applyEvent (p : ParseState) : LexEvent → Option ParseState
  | .field f => (fieldParam f).map (p.saveField keyList)
  | .endRecord => p.handleParsedParams keyList
  | .stray => if strayFails then none else some p

def runEvents (p : ParseState) : List LexEvent → Option ParseState
  | [] => some p
  | e :: es => (applyEvent keyList strayFails p e).bind fun q => runEvents q es

theorem runEvents_append (p : ParseState) (es fs : List LexEvent) :
    runEvents keyList strayFails p (es ++ fs) =
      (runEvents keyList strayFails p es).bind fun q => runEvents keyList strayFails q fs := by
  induction es generalizing p with
  | nil => rfl
  | cons e es ih =>
      simp only [List.cons_append, runEvents, ih, Option.bind_assoc]

private theorem keyFind_nil : keyFind keyList [] = none := by
  rw [keyFind, List.findIdx?_eq_none_iff]
  intro e he
  simpa using keyList.key_ne_nil e he

theorem saveField_emptyKey (p : ParseState) (val : Text) :
    p.saveField keyList (some ([], val)) = p := by
  simp only [ParseState.saveField, ParseState.saveParam, keyFind_nil]

theorem applyEvent_emptyField (p : ParseState) :
    applyEvent keyList strayFails p (.field []) = some p := by
  rfl

theorem applyEvent_singleton (p : ParseState) (c : Char) :
    applyEvent keyList strayFails p (.field [c]) = some p := by
  have hok : ¬ FailsTrimming [c] := fun h => by simpa using h.1
  rw [applyEvent, fieldParam, if_neg hok, Option.map_some, Option.some.injEq]
  by_cases hblank : isCharToStrip c = true
  · rw [trim_allBlank (s := [c]) (by simpa [AllBlank] using hblank)]
    rfl
  · have htrim : trim [c] = [c] := by simp [trim, hblank]
    by_cases heq : c = '='
    · have hkv : keyValue ['='] = some ([], []) := by decide
      rw [htrim, heq, hkv, saveField_emptyKey]
    · have hnone : keyValue [c] = none := by
        by_cases hnul : c = nul <;> simp [keyValue, hnul, heq, List.findIdx?_cons]
      rw [htrim, hnone]
      rfl

end Events

/-- The lexer state at the head of the loop after the characters `done`. -/
def LexMode.Matches (done : Text) : LexMode → LexState → Prop
  | .processing w f, s => ∃ pre, done = pre ++ f ∧
      s = ⟨pre.length, f.length, .processing, if w then .comment else .processing, false⟩
  | .comment k, s =>
      s = ⟨if k = .fresh then done.length else -1, 0, .comment, .comment, false⟩

private theorem memoryFrom_length (before : Char) (pre m : Text) :
    memoryFrom before (pre ++ m) pre.length = m ++ [nul] := by
  have hnat : ((pre.length : Int) + 1).toNat = pre.length + 1 := by omega
  rw [memoryFrom, hnat, List.cons_append, List.drop_succ_cons, List.append_assoc,
    List.drop_left]

section Refinement

variable (before : Char) (keyList : KeyList)

theorem actOn_token (pre f rest : Text) (cursor : Nat) (stNew : ParsingStatus) (flag sf : Bool)
    (p : ParseState) (hlen : f.length < 32768) (hrest : ∀ c ∈ rest.head?, c ≠ '=') :
    actOn before (pre ++ (f ++ rest)) keyList cursor ⟨pre.length, f.length, .token, stNew, flag⟩ p =
      (runEvents keyList sf p (if flag then [.field f, .endRecord] else [.field f])).map fun q =>
        (⟨cursor, 0, stNew, stNew, false⟩, q) := by
  obtain ⟨x, mem, hx, hmem⟩ : ∃ x mem, x ≠ '=' ∧ f ++ rest ++ [nul] = f ++ x :: mem := by
    cases rest with
    | nil => exact ⟨nul, [], by decide, by simp⟩
    | cons c cs => exact ⟨c, cs ++ [nul], hrest c rfl, by simp⟩
  simp only [actOn, memoryFrom_length, Int.toNat_natCast]
  rw [hmem, parseToken_eq keyList f mem x hx hlen]
  cases flag with
  | false =>
      simp only [Bool.false_eq_true, if_false, runEvents, applyEvent]
      cases fieldParam f <;> rfl
  | true =>
      simp only [if_true, runEvents, applyEvent]
      cases fieldParam f with
      | none => rfl
      | some kv =>
          simp only [Option.map_some, Option.bind_some]
          cases ParseState.handleParsedParams keyList (p.saveField keyList kv) <;> rfl

private theorem parseToken_one (c : Char) (mem : Text) (hblank : isCharToStrip c = false)
    (p : ParseState) :
    p.parseToken keyList (c :: mem) 1 =
      (extractKeyValue (c :: mem) 1).map (p.saveField keyList) := by
  have hstrip : stripAll [c] = some (0, 1) :=
    stripAll_of_split [] [c] [] (by simp [AllBlank]) (by simp [AllBlank]) (by simp)
      (by simpa using hblank) (by simpa using hblank) (by simp)
  rw [ParseState.parseToken, List.take_succ_cons, List.take_zero, hstrip]
  rfl

private theorem parseToken_before (text : Text) (p : ParseState) :
    p.parseToken keyList (memoryFrom before text (-1)) 1 =
      if StrayFails before text then none else some p := by
  have hmem : memoryFrom before text (-1) = before :: (text ++ [nul]) := rfl
  rw [hmem]
  by_cases hblank : isCharToStrip before = true
  · have hstrip : stripAll [before] = some (1, 0) :=
      stripAll_allBlank [before] (by simp) (by simpa [AllBlank] using hblank)
    have hnot : ¬ StrayFails before text := fun h => by
      rw [h.1] at hblank
      exact Bool.false_ne_true hblank
    rw [if_neg hnot, ParseState.parseToken, List.take_succ_cons, List.take_zero, hstrip]
    rfl
  · have hblank' : isCharToStrip before = false := eq_false_of_ne_true hblank
    have hnul : before ≠ nul := fun h => hblank (by rw [h]; decide)
    have hnul' : ('=' : Char) ≠ nul := by decide
    rw [parseToken_one keyList before _ hblank' p]
    by_cases hdelim : text.head? = some '='
    · obtain ⟨t, rfl⟩ := List.head?_eq_some_iff.mp hdelim
      by_cases heq : before = '='
      · subst before
        have hempty : extractKeyValue ('=' :: ('=' :: t ++ [nul])) 1 = some (some ([], [])) := by
          simp only [extractKeyValue, List.takeWhile_cons, ne_eq, hnul', not_false_eq_true,
            decide_true, if_true, List.findIdx?_cons]
          rfl
        rw [if_neg (fun h => h.2.1 rfl), hempty, Option.map_some, saveField_emptyKey]
      · have hfail : extractKeyValue (before :: ('=' :: t ++ [nul])) 1 = none := by
          simp [extractKeyValue, hnul, hnul', heq, List.findIdx?_cons]
        rw [if_pos ⟨hblank', heq, rfl⟩, hfail, Option.map_none]
    · obtain ⟨x, mem, hx, hrest⟩ : ∃ x mem, x ≠ '=' ∧ text ++ [nul] = x :: mem := by
        cases text with
        | nil => exact ⟨nul, [], by decide, rfl⟩
        | cons x t => exact ⟨x, t ++ [nul], fun h => hdelim (by simp [h]), rfl⟩
      have hkv : extractKeyValue (before :: x :: mem) 1 = some (keyValue [before]) :=
        extractKeyValue_eq [before] mem x hx (by simp) (by simpa using hblank')
          (by simpa using hblank')
      have hfield := applyEvent_singleton keyList false p before
      have hok : ¬ FailsTrimming [before] := fun h => by simpa using h.1
      have htrim : trim [before] = [before] := by simp [trim, hblank']
      rw [applyEvent, fieldParam, if_neg hok, htrim] at hfield
      rw [if_neg (fun h => hdelim h.2.2), hrest, hkv]
      exact hfield

theorem actOn_next (done rest : Text) (c : Char) (m : LexMode) (s : LexState) (sf : Bool)
    (hlen : (done ++ c :: rest).length < 32768) (h : m.Matches done s) :
    ∃ s', (m.next c).2.Matches (done ++ [c]) s' ∧ ∀ p,
      actOn before (done ++ c :: rest) keyList (done.length + 1)
        (s.classify done.length c false) p =
      (runEvents keyList sf p (m.next c).1).map fun q => (s', q) := by
  have hcursor : ((done.length + 1 : Nat) : Int) = (done ++ [c]).length := by simp
  cases m with
  | processing w f =>
      obtain ⟨pre, rfl, rfl⟩ := h
      have hf : f.length < 32768 := by simp at hlen; omega
      have htext : pre ++ f ++ c :: rest = pre ++ (f ++ c :: rest) := List.append_assoc ..
      by_cases hhash : c = '#'
      · subst c
        refine ⟨⟨(pre ++ f ++ ['#']).length, 0, .comment, .comment, false⟩,
          by simp [LexMode.next, LexMode.Matches], fun p => ?_⟩
        rw [htext, ← hcursor]
        exact actOn_token before keyList pre f _ _ .comment false sf p hf (by simp)
      · by_cases hcomma : c = ','
        · subst c
          refine ⟨⟨(pre ++ f ++ [',']).length, 0, .processing, .processing, false⟩,
            ⟨pre ++ f ++ [','], by simp, by simp⟩, fun p => ?_⟩
          rw [htext, ← hcursor]
          exact actOn_token before keyList pre f _ _ .processing false sf p hf (by simp)
        · by_cases hnl : c = '\n'
          · subst c
            refine ⟨⟨(pre ++ f ++ ['\n']).length, 0, if w then .comment else .processing,
              if w then .comment else .processing, false⟩, ?_, fun p => ?_⟩
            · cases w
              · exact ⟨pre ++ f ++ ['\n'], by simp, by simp⟩
              · simp [LexMode.next, LexMode.Matches]
            · rw [htext, ← hcursor]
              exact actOn_token before keyList pre f _ _ _ true sf p hf (by simp)
          · refine ⟨⟨pre.length, (f ++ [c]).length, .processing,
              if w then .comment else .processing, false⟩, ?_, fun p => ?_⟩
            · simp only [LexMode.next, hhash, hcomma, hnl, if_false]
              exact ⟨pre, by simp, rfl⟩
            · simp [LexMode.next, LexState.classify, hhash, hcomma, hnl, actOn, runEvents]
  | comment k =>
      have hs : s = _ := h
      subst s
      by_cases hnl : c = '\n'
      · subst c
        refine ⟨⟨(done ++ ['\n']).length, 0, .processing, .comment, false⟩,
          ⟨done ++ ['\n'], by simp, by simp⟩, fun p => ?_⟩
        rw [← hcursor]
        simp [LexMode.next, LexState.classify, actOn, runEvents]
      · by_cases hhash : c = '#'
        · subst c
          refine ⟨⟨-1, 0, .comment, .comment, false⟩, by simp [LexMode.next, LexMode.Matches],
            fun p => ?_⟩
          simp [LexMode.next, LexState.classify, actOn, runEvents]
        · refine ⟨⟨-1, 0, .comment, .comment, false⟩, ?_, fun p => ?_⟩
          · cases k <;> simp [LexMode.next, LexMode.Matches, hnl, hhash]
          · simp [LexMode.next, LexState.classify, actOn, runEvents, hnl, hhash]

theorem actOn_last_separator (done : Text) (c : Char) (m : LexMode) (s : LexState) (sf : Bool)
    (hlen : (done ++ [c]).length < 32768) (h : m.Matches done s)
    (hsep : s.classify done.length c true = s.classify done.length c false)
    (hfinish : (m.next c).2.finish = [] ∨ (m.next c).2.finish = [.field []]) (p : ParseState) :
    (actOn before (done ++ [c]) keyList (done.length + 1)
      (s.classify done.length c true) p).map Prod.snd =
    runEvents keyList sf p ((m.next c).1 ++ (m.next c).2.finish) := by
  obtain ⟨s', -, hact⟩ := actOn_next before keyList done [] c m s sf hlen h
  have hnoop : ∀ q, runEvents keyList sf q (m.next c).2.finish = some q := by
    intro q
    rcases hfinish with hnil | hempty
    · rw [hnil, runEvents]
    · rw [hempty, runEvents, applyEvent_emptyField]
      rfl
  rw [hsep, hact p, runEvents_append]
  cases runEvents keyList sf p (m.next c).1 with
  | none => rfl
  | some q => exact (hnoop q).symm

private theorem actOn_last_processing (done : Text) (c : Char) (w : Bool) (f : Text) (s : LexState)
    (hlen : (done ++ [c]).length < 32768) (h : (LexMode.processing w f).Matches done s)
    (p : ParseState) :
    (actOn before (done ++ [c]) keyList (done.length + 1)
      (s.classify done.length c true) p).map Prod.snd =
    runEvents keyList (StrayFails before (done ++ [c])) p
      (((LexMode.processing w f).next c).1 ++ ((LexMode.processing w f).next c).2.finish) := by
  by_cases hsep : c = '#' ∨ c = ',' ∨ c = '\n'
  · refine actOn_last_separator before keyList done c _ s _ hlen h ?_ ?_ p
    · obtain ⟨pre, -, rfl⟩ := h
      rcases hsep with rfl | rfl | rfl <;> rfl
    · rcases hsep with rfl | rfl | rfl
      · exact Or.inl rfl
      · exact Or.inr rfl
      · cases w
        · exact Or.inr rfl
        · exact Or.inl rfl
  · obtain ⟨hhash, hrest⟩ := not_or.mp hsep
    obtain ⟨hcomma, hnl⟩ := not_or.mp hrest
    obtain ⟨pre, rfl, rfl⟩ := h
    have hclass : LexState.classify ⟨pre.length, f.length, .processing,
        if w then .comment else .processing, false⟩ (pre ++ f).length c true =
        ⟨pre.length, (f ++ [c]).length, .token, if w then .comment else .processing, false⟩ := by
      simp [LexState.classify, hhash, hcomma, hnl]
    have htext : pre ++ f ++ [c] = pre ++ ((f ++ [c]) ++ []) := by simp
    have htoken := actOn_token before keyList pre (f ++ [c]) [] ((pre ++ f).length + 1)
      (if w then .comment else .processing) false (StrayFails before (pre ++ f ++ [c])) p
      (by simp at hlen ⊢; omega) (by simp)
    rw [hclass, htext, htoken, ← htext]
    simp only [LexMode.next, hhash, hcomma, hnl, if_false, LexMode.finish, List.nil_append,
      Bool.false_eq_true, Option.map_map]
    exact Option.map_id'

/-- The last pass inside a comment: its first character makes a token that changes nothing, at a later
one the stray token in front of the text is read. -/
private theorem actOn_last_comment (done : Text) (c : Char) (k : CommentMode) (s : LexState)
    (hlen : (done ++ [c]).length < 32768) (h : (LexMode.comment k).Matches done s)
    (p : ParseState) :
    (actOn before (done ++ [c]) keyList (done.length + 1)
      (s.classify done.length c true) p).map Prod.snd =
    runEvents keyList (StrayFails before (done ++ [c])) p
      (((LexMode.comment k).next c).1 ++ ((LexMode.comment k).next c).2.finish) := by
  have hs : s = _ := h
  by_cases hsep : c = '\n' ∨ c = '#'
  · refine actOn_last_separator before keyList done c _ s _ hlen h ?_ ?_ p
    · rw [hs]
      rcases hsep with rfl | rfl <;> rfl
    · rcases hsep with rfl | rfl
      · exact Or.inr rfl
      · exact Or.inl rfl
  · obtain ⟨hnl, hhash⟩ := not_or.mp hsep
    have hclass : s.classify done.length c true =
        ⟨if k = .fresh then done.length else -1, 1, .token, .comment, false⟩ := by
      rw [hs]
      simp [LexState.classify, hnl, hhash]
    rw [hclass]
    by_cases hfresh : k = .fresh
    · have htoken := actOn_token before keyList done [c] [] (done.length + 1) .comment false
        (StrayFails before (done ++ [c])) p (by simp) (by simp)
      simp only [hfresh, if_true]
      simp only [List.append_nil, List.length_singleton, Int.natCast_one, Bool.false_eq_true,
        if_false] at htoken
      rw [htoken, runEvents, applyEvent_singleton]
      simp [LexMode.next, hnl, hhash, LexMode.finish, runEvents]
    · have hbefore := parseToken_before before keyList (done ++ [c]) p
      simp only [hfresh, if_false, actOn, Int.toNat_one, hbefore]
      simp only [LexMode.next, hnl, hhash, hfresh, if_false, LexMode.finish, if_true,
        List.nil_append, runEvents, applyEvent, decide_eq_true_eq]
      by_cases hstray : StrayFails before (done ++ [c])
      · simp [hstray]
      · simp [hstray]

theorem actOn_last (done : Text) (c : Char) (m : LexMode) (s : LexState)
    (hlen : (done ++ [c]).length < 32768) (h : m.Matches done s) (p : ParseState) :
    (actOn before (done ++ [c]) keyList (done.length + 1)
      (s.classify done.length c true) p).map Prod.snd =
    runEvents keyList (StrayFails before (done ++ [c])) p ((m.next c).1 ++ (m.next c).2.finish) := by
  cases m with
  | processing w f => exact actOn_last_processing before keyList done c w f s hlen h p
  | comment k => exact actOn_last_comment before keyList done c k s hlen h p

private theorem parseLoop_eq (done rest : Text) (c : Char) (m : LexMode) (s : LexState)
    (hlen : (done ++ c :: rest).length < 32768) (h : m.Matches done s) (p : ParseState) :
    parseLoop before (done ++ c :: rest) keyList (c :: rest) done.length s p =
      runEvents keyList (StrayFails before (done ++ c :: rest)) p (lexEvents m (c :: rest)) := by
  induction rest generalizing done c m s p with
  | nil =>
      have hlast : decide (done.length + 1 = (done ++ [c]).length) = true := by simp
      rw [lexEvents, lexEvents, ← actOn_last before keyList done c m s hlen h p, parseLoop, hlast]
      cases actOn before (done ++ [c]) keyList (done.length + 1)
        (s.classify done.length c true) p <;> rfl
  | cons d rest ih =>
      have hmore : decide (done.length + 1 = (done ++ c :: d :: rest).length) = false := by simp
      obtain ⟨s', hs', hact⟩ := actOn_next before keyList done (d :: rest) c m s
        (StrayFails before (done ++ c :: d :: rest)) hlen h
      have hsplit : done ++ c :: d :: rest = done ++ [c] ++ d :: rest := by simp
      rw [lexEvents, runEvents_append, parseLoop, hmore, hact p]
      cases runEvents keyList (StrayFails before (done ++ c :: d :: rest)) p (m.next c).1 with
      | none => rfl
      | some q =>
          have hih := ih (done ++ [c]) d (m.next c).2 s' (by rw [← hsplit]; exact hlen) hs' q
          rw [← hsplit, List.length_append, List.length_singleton] at hih
          exact hih

/-- The parser is the interpretation of the events of the text. -/
theorem getParsedRecords_eq (text : Text) (hlen : text.length < 32768) :
    getParsedRecords before text keyList =
      ((runEvents keyList (StrayFails before text) .start
        (lexEvents (.processing false []) text)).bind
          (ParseState.handleParsedParams keyList)).map ParseState.records := by
  have hstart : LexMode.Matches [] (.processing false []) LexState.start := ⟨[], rfl, rfl⟩
  cases text with
  | nil => rfl
  | cons c cs =>
      have hloop := parseLoop_eq before keyList [] cs c _ _ hlen hstart .start
      rw [getParsedRecords, if_neg (List.cons_ne_nil c cs)]
      rw [List.nil_append, List.length_nil] at hloop
      rw [hloop]

end Refinement

end Zrt.Nvram
