import Zrt.Nvram.Grammar

/-!
# Comments

When the comments of a section make no difference to its records: what the parser does with a text
compared with what it does with the same text without its comments.
-/

namespace Zrt.Nvram

/-- Delete every comment up to its line end; `inComment` tells whether the text starts in one. -/
def deleteCommentsFrom : Bool → Text → Text
  | _, [] => []
  | inComment, c :: cs =>
      if c = '\n' then c :: deleteCommentsFrom false cs
      else if inComment || c = '#' then deleteCommentsFrom true cs
      else c :: deleteCommentsFrom false cs

def deleteComments (text : Text) : Text := deleteCommentsFrom false text

/-- Some parameter has a key that can be asked for. -/
def HasKey (params : Params) : Prop := ∃ kv ∈ params, kv.1 ≠ []

instance (params : Params) : Decidable (HasKey params) :=
  inferInstanceAs (Decidable (∃ kv ∈ params, kv.1 ≠ []))

/-- No line with parameters is skipped, and no record is left open over two lines with parameters;
`acc` holds the parameters of the open record. -/
def Harmless : Params → List (LineRole × Text) → Prop
  | _, [] => True
  | acc, (.closed, l) :: ls => ¬ (HasKey acc ∧ HasKey (lineParams l)) ∧ Harmless [] ls
  | acc, (.unclosed, l) :: ls =>
      ¬ (HasKey acc ∧ HasKey (lineParams l)) ∧ Harmless (acc ++ lineParams l) ls
  | acc, (.skipped, l) :: ls => ¬ HasKey (lineParams l) ∧ Harmless acc ls

/-- Some line that is skipped would fail the trimming. -/
def SkippedFails (ls : List (LineRole × Text)) : Prop := ∃ x ∈ ls, x.1 = .skipped ∧ LineFails x.2

instance (ls : List (LineRole × Text)) : Decidable (SkippedFails ls) :=
  inferInstanceAs (Decidable (∃ x ∈ ls, x.1 = .skipped ∧ LineFails x.2))

/-- The lines of a section text with what becomes of them. -/
def sectionLines (text : Text) : List (LineRole × Text) :=
  lineRoles (.processing false) (text.splitOn '\n')

/-- The byte before the text is read as a token and fails the trimming. -/
def StrayToken (before : Char) (text : Text) : Prop :=
  StrayFails before text ∧ StrayAtEnd (.processing false) (text.splitOn '\n')

instance (before : Char) (text : Text) : Decidable (StrayToken before text) :=
  inferInstanceAs (Decidable (_ ∧ _))

/-- Comments make no difference: a line that is read fails with or without them, or both a stray
token and a skipped line fail, or nothing fails and the comments are harmless. -/
def CommentsTransparent (before : Char) (text : Text) : Prop :=
  ReadFails (sectionLines text) ∨
    (StrayToken before text ∧ SkippedFails (sectionLines text)) ∨
    (¬ StrayToken before text ∧ ¬ SkippedFails (sectionLines text) ∧
      Harmless [] (sectionLines text))

private theorem lineContent_cons (c : Char) (l : Text) (h : c ≠ '#') :
    lineContent (c :: l) = c :: lineContent l :=
  List.takeWhile_cons_of_pos (by simpa using h)

private theorem deleteCommentsFrom_lines (text : Text) :
    (deleteCommentsFrom false text).splitOn '\n' = (text.splitOn '\n').map lineContent ∧
      (deleteCommentsFrom true text).splitOn '\n' =
        ((text.splitOn '\n').map lineContent).modifyHead fun _ => [] := by
  induction text with
  | nil => exact ⟨rfl, rfl⟩
  | cons c cs ih =>
      obtain ⟨hread, hcomment⟩ := ih
      obtain ⟨l, ls, hl⟩ := List.exists_cons_of_ne_nil (List.splitOn_ne_nil '\n' cs)
      by_cases hnl : c = '\n'
      · subst c
        have hsplit : ∀ t : Text, ('\n' :: t).splitOn '\n' = [] :: t.splitOn '\n' := fun t => by
          rw [List.splitOn_cons_eq_if_modifyHead]
          rfl
        simp only [deleteCommentsFrom, if_true, hsplit, hread, List.map_cons, List.modifyHead_cons]
        exact ⟨rfl, trivial⟩
      · have hsplit : ∀ t : Text, (c :: t).splitOn '\n' = (t.splitOn '\n').modifyHead (c :: ·) :=
          fun t => by rw [List.splitOn_cons_eq_if_modifyHead, if_neg (by simpa using hnl)]
        by_cases hhash : c = '#'
        · subst c
          simp only [deleteCommentsFrom, hnl, if_false, Bool.or_true, decide_true, if_true,
            hcomment, hsplit, hl, List.map_cons, List.modifyHead_cons]
          exact ⟨rfl, trivial⟩
        · simp only [deleteCommentsFrom, hnl, if_false, hhash, decide_false, Bool.or_false,
            Bool.false_eq_true, if_true, hread, hcomment, hsplit, hl, List.map_cons,
            List.modifyHead_cons, lineContent_cons c l hhash]
          exact ⟨trivial, trivial⟩

private theorem deleteCommentsFrom_length (b : Bool) (text : Text) :
    (deleteCommentsFrom b text).length ≤ text.length := by
  induction text generalizing b with
  | nil => rfl
  | cons c cs ih =>
      have hfalse := ih false
      have htrue := ih true
      rw [deleteCommentsFrom]
      split
      · rw [List.length_cons, List.length_cons]
        omega
      · split
        · rw [List.length_cons]
          omega
        · rw [List.length_cons, List.length_cons]
          omega

private theorem lineFields_lineContent (l : Text) : lineFields (lineContent l) = lineFields l := by
  rw [lineFields, lineFields, lineContent_of_not_mem _ (not_mem_lineContent l)]

private theorem lineRoles_map_snd (m : LineMode) (ls : List Text) : (lineRoles m ls).map Prod.snd = ls := by
  induction ls generalizing m with
  | nil => rfl
  | cons l ls ih => rw [lineRoles, List.map_cons, ih]

private theorem getParsedRecords_deleteComments (before : Char) (keyList : KeyList) (text : Text)
    (hlen : text.length < 32768) :
    getParsedRecords before (deleteComments text) keyList =
      if ReadFails (sectionLines text) ∨ SkippedFails (sectionLines text) then none
      else some ((sectionLines text).filterMap fun x => keyList.recordOf (lineParams x.2)) := by
  have hlines : (deleteComments text).splitOn '\n' = (text.splitOn '\n').map lineContent :=
    (deleteCommentsFrom_lines text).1
  have hsnd : text.splitOn '\n' = (sectionLines text).map Prod.snd := (lineRoles_map_snd _ _).symm
  have hfree : ∀ l ∈ (deleteComments text).splitOn '\n', '#' ∉ l := by
    intro l hl
    rw [hlines] at hl
    obtain ⟨k, -, rfl⟩ := List.mem_map.mp hl
    exact not_mem_lineContent k
  have hfails : ∀ l, LineFails (lineContent l) ↔ LineFails l := fun l => by
    rw [LineFails, LineFails, lineFields_lineContent]
  have hparams : ∀ l, lineParams (lineContent l) = lineParams l := fun l => by
    rw [lineParams, lineParams, lineFields_lineContent]
  have hlen' : (deleteComments text).length < 32768 :=
    Nat.lt_of_le_of_lt (deleteCommentsFrom_length false text) hlen
  rw [getParsedRecords_commentFree before keyList _ hlen' hfree, hlines, hsnd]
  refine if_congr ⟨?_, ?_⟩ rfl ?_
  · rintro ⟨l, hl, hfail⟩
    obtain ⟨k, hk, rfl⟩ := List.mem_map.mp hl
    obtain ⟨x, hx, rfl⟩ := List.mem_map.mp hk
    by_cases hskip : x.1 = .skipped
    · exact Or.inr ⟨x, hx, hskip, (hfails _).mp hfail⟩
    · exact Or.inl ⟨x, hx, hskip, (hfails _).mp hfail⟩
  · have hmem : ∀ x ∈ sectionLines text,
        lineContent x.2 ∈ ((sectionLines text).map Prod.snd).map lineContent := fun x hx =>
      List.mem_map_of_mem (List.mem_map_of_mem hx)
    rintro (⟨x, hx, -, hfail⟩ | ⟨x, hx, -, hfail⟩)
    · exact ⟨_, hmem x hx, (hfails _).mpr hfail⟩
    · exact ⟨_, hmem x hx, (hfails _).mpr hfail⟩
  · rw [List.filterMap_map, List.filterMap_map]
    refine congrArg some (List.filterMap_congr fun x _ => ?_)
    rw [Function.comp_apply, Function.comp_apply, hparams]

section Records

variable (keyList : KeyList)

theorem hasKey_iff (params : Params) :
    HasKey params ↔ ∃ k, k ≠ [] ∧ (params.lookup k).isSome = true := by
  constructor
  · rintro ⟨⟨k, v⟩, hmem, hk⟩
    refine ⟨k, hk, ?_⟩
    by_contra hnone
    rw [Bool.not_eq_true, Option.isSome_eq_false_iff, Option.isNone_iff_eq_none,
      List.lookup_eq_none_iff] at hnone
    simpa using hnone (k, v) hmem
  · rintro ⟨k, hk, hsome⟩
    obtain ⟨v, hv⟩ := Option.isSome_iff_exists.mp hsome
    obtain ⟨l, r, hsplit, -⟩ := List.lookup_eq_some_iff.mp hv
    exact ⟨(k, v), by rw [hsplit]; simp, hk⟩

theorem lookup_of_not_hasKey {params : Params} (h : ¬ HasKey params) {k : Text} (hk : k ≠ []) :
    params.lookup k = none := by
  cases hl : params.lookup k with
  | none => rfl
  | some v => exact absurd ((hasKey_iff params).mpr ⟨k, hk, by rw [hl]; rfl⟩) h

theorem recordOf_congr {ps qs : Params} (h : ∀ k, k ≠ [] → ps.lookup k = qs.lookup k) :
    keyList.recordOf ps = keyList.recordOf qs := by
  have hkey : ∀ e ∈ keyList.keys, ps.lookup e.key = qs.lookup e.key := fun e he =>
    h e.key (keyList.key_ne_nil e he)
  have hval : ∀ e ∈ keyList.keys, KeyList.valueOf ps e = KeyList.valueOf qs e := fun e he => by
    rw [KeyList.valueOf, KeyList.valueOf, hkey e he]
  rw [KeyList.recordOf, KeyList.recordOf]
  refine if_congr (and_congr ?_ ?_) (congrArg some (List.map_congr_left hval)) rfl
  · exact exists_congr fun e => and_congr_right fun he => by rw [hkey e he]
  · exact forall_congr' fun e => forall_congr' fun he => by rw [hval e he]

theorem recordOf_of_not_hasKey {ps : Params} (h : ¬ HasKey ps) : keyList.recordOf ps = none := by
  have hempty : keyList.recordOf ps = keyList.recordOf [] := recordOf_congr keyList fun k hk => by
    rw [lookup_of_not_hasKey h hk, List.lookup_nil]
  rw [hempty, KeyList.recordOf_nil]

private theorem recordOf_append_left {ps qs : Params} (h : ¬ HasKey ps) :
    keyList.recordOf (ps ++ qs) = keyList.recordOf qs :=
  recordOf_congr keyList fun k hk => by
    rw [List.lookup_append, lookup_of_not_hasKey h hk, Option.none_or]

private theorem recordOf_append_right {ps qs : Params} (h : ¬ HasKey qs) :
    keyList.recordOf (ps ++ qs) = keyList.recordOf ps :=
  recordOf_congr keyList fun k hk => by
    rw [List.lookup_append, lookup_of_not_hasKey h hk, Option.or_none]

private theorem recordOf_append_toList {ps qs : Params} (h : ¬ (HasKey ps ∧ HasKey qs)) :
    (keyList.recordOf (ps ++ qs)).toList =
      (keyList.recordOf ps).toList ++ (keyList.recordOf qs).toList := by
  by_cases hps : HasKey ps
  · have hqs : ¬ HasKey qs := fun hqs => h ⟨hps, hqs⟩
    rw [recordOf_append_right keyList hqs, recordOf_of_not_hasKey keyList hqs, Option.toList_none,
      List.append_nil]
  · rw [recordOf_append_left keyList hps, recordOf_of_not_hasKey keyList hps, Option.toList_none,
      List.nil_append]

private theorem filterMap_cons_toList {α β : Type*} (g : α → Option β) (x : α) (xs : List α) :
    (x :: xs).filterMap g = (g x).toList ++ xs.filterMap g := by
  cases h : g x <;> simp [h]

private theorem groupRecords_of_harmless (acc : Params) (ls : List (LineRole × Text))
    (h : Harmless acc ls) :
    groupRecords keyList acc ls = (keyList.recordOf acc).toList ++
      ls.filterMap fun x => keyList.recordOf (lineParams x.2) := by
  induction ls generalizing acc with
  | nil => simp [groupRecords]
  | cons x ls ih =>
      obtain ⟨role, l⟩ := x
      rw [filterMap_cons_toList]
      cases role with
      | closed =>
          obtain ⟨hone, hrest⟩ := h
          rw [groupRecords, ih [] hrest, recordOf_append_toList keyList hone, KeyList.recordOf_nil]
          simp
      | unclosed =>
          obtain ⟨hone, hrest⟩ := h
          rw [groupRecords, ih _ hrest, recordOf_append_toList keyList hone]
          simp
      | skipped =>
          obtain ⟨hnone, hrest⟩ := h
          rw [groupRecords, ih acc hrest, recordOf_of_not_hasKey keyList hnone]
          simp

end Records

/-! The converse: key lists of one or two required keys tell merged and skipped lines apart. -/

section Counting

/-- Required keys, without defaults. -/
def requiredKeys (ks : List Text) (hlen : ks.length ≤ 5) (hnodup : ks.Nodup)
    (hne : ∀ k ∈ ks, k ≠ []) : KeyList where
  keys := ks.map fun k => ⟨k, none⟩
  count_le := by rwa [List.length_map]
  nodup := by
    rw [List.map_map]
    simpa [Function.comp_def] using hnodup
  key_ne_nil := by
    intro e he
    obtain ⟨k, hk, rfl⟩ := List.mem_map.mp he
    exact hne k hk

/-- Every key of the list is given a value. -/
def gives (ks : List Text) (params : Params) : Bool := ks.all fun k => (params.lookup k).isSome

private theorem recordOf_requiredKeys (k : Text) (ks : List Text) (hlen : (k :: ks).length ≤ 5)
    (hnodup : (k :: ks).Nodup) (hne : ∀ x ∈ k :: ks, x ≠ []) (params : Params) :
    ((requiredKeys (k :: ks) hlen hnodup hne).recordOf params).isSome = gives (k :: ks) params := by
  rw [Bool.eq_iff_iff, KeyList.recordOf, gives, List.all_eq_true]
  have hval : ∀ x, KeyList.valueOf params ⟨x, none⟩ = params.lookup x := fun x => by
    rw [KeyList.valueOf, Option.or_none]
  constructor
  · intro h
    split at h
    · rename_i hc
      intro x hx
      have hx' := hc.2 ⟨x, none⟩ (List.mem_map_of_mem hx)
      rwa [hval] at hx'
    · simp at h
  · intro h
    rw [if_pos]
    · rfl
    · refine ⟨⟨⟨k, none⟩, by simp [requiredKeys], h k (by simp)⟩, fun e he => ?_⟩
      obtain ⟨x, hx, rfl⟩ := List.mem_map.mp he
      rw [hval]
      exact h x hx

/-- The number of records of which `q` holds. -/
def groupCount (q : Params → Bool) : Params → List (LineRole × Text) → Nat
  | acc, [] => (q acc).toNat
  | acc, (.closed, l) :: ls => (q (acc ++ lineParams l)).toNat + groupCount q [] ls
  | acc, (.unclosed, l) :: ls => groupCount q (acc ++ lineParams l) ls
  | acc, (.skipped, _) :: ls => groupCount q acc ls

def lineCount (q : Params → Bool) (ls : List (LineRole × Text)) : Nat :=
  ls.countP fun x => q (lineParams x.2)

theorem lineCount_cons (q : Params → Bool) (role : LineRole) (l : Text)
    (ls : List (LineRole × Text)) :
    lineCount q ((role, l) :: ls) = (q (lineParams l)).toNat + lineCount q ls := by
  rw [lineCount, List.countP_cons, lineCount, Nat.add_comm]
  cases q (lineParams l) <;> rfl

private theorem groupRecords_length (keyList : KeyList) (acc : Params) (ls : List (LineRole × Text)) :
    (groupRecords keyList acc ls).length =
      groupCount (fun ps => (keyList.recordOf ps).isSome) acc ls := by
  have hlen : ∀ ps, (keyList.recordOf ps).toList.length = (keyList.recordOf ps).isSome.toNat :=
    fun ps => by cases keyList.recordOf ps <;> rfl
  induction ls generalizing acc with
  | nil => exact hlen acc
  | cons x ls ih =>
      obtain ⟨role, l⟩ := x
      cases role with
      | closed => rw [groupRecords, groupCount, List.length_append, hlen, ih]
      | unclosed => exact ih _
      | skipped => exact ih _

private theorem filterMap_recordOf_length (keyList : KeyList) (ls : List (LineRole × Text)) :
    (ls.filterMap fun x => keyList.recordOf (lineParams x.2)).length =
      lineCount (fun ps => (keyList.recordOf ps).isSome) ls := by
  rw [lineCount, List.length_filterMap_eq_countP]

theorem gives_nil (k : Text) (ks : List Text) : gives (k :: ks) [] = false := rfl

theorem gives_singleton_append (k : Text) (ps qs : Params) :
    gives [k] (ps ++ qs) = (gives [k] ps || gives [k] qs) := by
  simp only [gives, List.all_cons, List.all_nil, Bool.and_true, List.lookup_append]
  cases ps.lookup k <;> simp

theorem gives_pair (a b : Text) (ps : Params) :
    gives [a, b] ps = (gives [a] ps && gives [b] ps) := by
  simp [gives]

theorem toNat_or_add_and (x y : Bool) : (x || y).toNat + (x && y).toNat = x.toNat + y.toNat := by
  cases x <;> cases y <;> rfl

private theorem eq_false_of_toNat {x : Bool} (h : x.toNat = 0) : x = false := by
  cases x with
  | false => rfl
  | true => exact absurd h (by decide)

private theorem groupCount_le (k : Text) (acc : Params) (ls : List (LineRole × Text)) :
    groupCount (gives [k]) acc ls ≤ (gives [k] acc).toNat + lineCount (gives [k]) ls := by
  induction ls generalizing acc with
  | nil => simp [groupCount, lineCount]
  | cons x ls ih =>
      obtain ⟨role, l⟩ := x
      have hor := toNat_or_add_and (gives [k] acc) (gives [k] (lineParams l))
      rw [lineCount_cons]
      cases role with
      | closed =>
          have hrest := ih []
          rw [gives_nil, Bool.toNat_false] at hrest
          rw [groupCount, gives_singleton_append]
          omega
      | unclosed =>
          have hrest := ih (acc ++ lineParams l)
          rw [gives_singleton_append] at hrest
          rw [groupCount]
          omega
      | skipped =>
          have hrest := ih acc
          rw [groupCount]
          omega

/-- The key does not occur in two lines of one record, nor in a skipped line. -/
def Apart (k : Text) : Params → List (LineRole × Text) → Prop
  | _, [] => True
  | acc, (.closed, l) :: ls =>
      (gives [k] acc && gives [k] (lineParams l)) = false ∧ Apart k [] ls
  | acc, (.unclosed, l) :: ls =>
      (gives [k] acc && gives [k] (lineParams l)) = false ∧ Apart k (acc ++ lineParams l) ls
  | acc, (.skipped, l) :: ls => gives [k] (lineParams l) = false ∧ Apart k acc ls

private theorem apart_of_groupCount (k : Text) (acc : Params) (ls : List (LineRole × Text))
    (h : groupCount (gives [k]) acc ls = (gives [k] acc).toNat + lineCount (gives [k]) ls) :
    Apart k acc ls := by
  induction ls generalizing acc with
  | nil => trivial
  | cons x ls ih =>
      obtain ⟨role, l⟩ := x
      have hor := toNat_or_add_and (gives [k] acc) (gives [k] (lineParams l))
      rw [lineCount_cons] at h
      cases role with
      | closed =>
          have hle := groupCount_le k [] ls
          rw [groupCount, gives_singleton_append] at h
          rw [gives_nil, Bool.toNat_false] at hle
          refine ⟨eq_false_of_toNat (by omega), ih [] ?_⟩
          rw [gives_nil, Bool.toNat_false]
          omega
      | unclosed =>
          have hle := groupCount_le k (acc ++ lineParams l) ls
          rw [gives_singleton_append] at hle
          rw [groupCount] at h
          refine ⟨eq_false_of_toNat (by omega), ih _ ?_⟩
          rw [gives_singleton_append]
          omega
      | skipped =>
          have hle := groupCount_le k acc ls
          rw [groupCount] at h
          exact ⟨eq_false_of_toNat (by omega), ih acc (by omega)⟩

theorem gives_pair_append (a b : Text) (ps qs : Params)
    (h : (gives [a] ps && gives [a] qs) = false) :
    (gives [a, b] ps).toNat + (gives [a, b] qs).toNat ≤ (gives [a, b] (ps ++ qs)).toNat := by
  revert h
  rw [gives_pair, gives_pair, gives_pair, gives_singleton_append, gives_singleton_append]
  cases gives [a] ps <;> cases gives [a] qs <;> cases gives [b] ps <;> cases gives [b] qs <;> decide

private theorem le_groupCount (a b : Text) (acc : Params) (ls : List (LineRole × Text))
    (h : Apart a acc ls) :
    (gives [a, b] acc).toNat + lineCount (gives [a, b]) ls ≤ groupCount (gives [a, b]) acc ls := by
  induction ls generalizing acc with
  | nil => simp [groupCount, lineCount]
  | cons x ls ih =>
      obtain ⟨role, l⟩ := x
      rw [lineCount_cons]
      cases role with
      | closed =>
          have happ := gives_pair_append a b acc (lineParams l) h.1
          have hrest := ih [] h.2
          rw [groupCount]
          omega
      | unclosed =>
          have happ := gives_pair_append a b acc (lineParams l) h.1
          have hrest := ih _ h.2
          rw [groupCount]
          omega
      | skipped =>
          have hnone : gives [a, b] (lineParams l) = false := by
            rw [gives_pair, h.1, Bool.false_and]
          have hrest := ih acc h.2
          rw [groupCount, hnone, Bool.toNat_false]
          omega

theorem hasKey_iff_gives (params : Params) :
    HasKey params ↔ ∃ k, k ≠ [] ∧ gives [k] params = true := by
  rw [hasKey_iff]
  simp [gives]

private theorem not_hasKey_both (ps qs : Params)
    (hapart : ∀ k, k ≠ [] → (gives [k] ps && gives [k] qs) = false)
    (hcount : ∀ a b, a ≠ [] → b ≠ [] → a ≠ b → (gives [a, b] (ps ++ qs)).toNat ≤
      (gives [a, b] ps).toNat + (gives [a, b] qs).toNat) : ¬ (HasKey ps ∧ HasKey qs) := by
  rintro ⟨hps, hqs⟩
  obtain ⟨a, ha, hga⟩ := (hasKey_iff_gives ps).mp hps
  obtain ⟨b, hb, hgb⟩ := (hasKey_iff_gives qs).mp hqs
  have hqa : gives [a] qs = false := by simpa [hga] using hapart a ha
  have hpb : gives [b] ps = false := by simpa [hgb] using hapart b hb
  have hne : a ≠ b := by
    rintro rfl
    rw [hga] at hpb
    exact Bool.noConfusion hpb
  have hle := hcount a b ha hb hne
  rw [gives_pair, gives_pair, gives_pair, gives_singleton_append, gives_singleton_append, hga, hgb,
    hqa, hpb] at hle
  exact absurd hle (by decide)

private theorem harmless_of_groupCount (acc : Params) (ls : List (LineRole × Text))
    (hapart : ∀ k, k ≠ [] → Apart k acc ls)
    (hcount : ∀ a b, a ≠ [] → b ≠ [] → a ≠ b → groupCount (gives [a, b]) acc ls =
      (gives [a, b] acc).toNat + lineCount (gives [a, b]) ls) :
    Harmless acc ls := by
  induction ls generalizing acc with
  | nil => trivial
  | cons x ls ih =>
      obtain ⟨role, l⟩ := x
      cases role with
      | closed =>
          have hle : ∀ a b, a ≠ [] → lineCount (gives [a, b]) ls ≤
              groupCount (gives [a, b]) [] ls := fun a b ha => by
            have := le_groupCount a b [] ls (hapart a ha).2
            rw [gives_nil, Bool.toNat_false] at this
            omega
          refine ⟨not_hasKey_both _ _ (fun k hk => (hapart k hk).1) fun a b ha hb hab => ?_,
            ih [] (fun k hk => (hapart k hk).2) fun a b ha hb hab => ?_⟩
          · have hc := hcount a b ha hb hab
            have hge := hle a b ha
            rw [groupCount, lineCount_cons] at hc
            omega
          · have hc := hcount a b ha hb hab
            have hge := hle a b ha
            have happ := gives_pair_append a b acc (lineParams l) (hapart a ha).1
            rw [groupCount, lineCount_cons] at hc
            rw [gives_nil, Bool.toNat_false]
            omega
      | unclosed =>
          refine ⟨not_hasKey_both _ _ (fun k hk => (hapart k hk).1) fun a b ha hb hab => ?_,
            ih _ (fun k hk => (hapart k hk).2) fun a b ha hb hab => ?_⟩
          · have hc := hcount a b ha hb hab
            have hge := le_groupCount a b _ ls (hapart a ha).2
            rw [groupCount, lineCount_cons] at hc
            omega
          · have hc := hcount a b ha hb hab
            have hge := le_groupCount a b _ ls (hapart a ha).2
            have happ := gives_pair_append a b acc (lineParams l) (hapart a ha).1
            rw [groupCount, lineCount_cons] at hc
            omega
      | skipped =>
          have hnone : ∀ a b, a ≠ [] → gives [a, b] (lineParams l) = false := fun a b ha => by
            rw [gives_pair, (hapart a ha).1, Bool.false_and]
          refine ⟨fun hl => ?_, ih acc (fun k hk => (hapart k hk).2) fun a b ha hb hab => ?_⟩
          · obtain ⟨k, hk, hgives⟩ := (hasKey_iff_gives _).mp hl
            rw [(hapart k hk).1] at hgives
            exact Bool.noConfusion hgives
          · have hc := hcount a b ha hb hab
            rw [groupCount, lineCount_cons, hnone a b ha, Bool.toNat_false] at hc
            omega

private theorem harmless_of_records (ls : List (LineRole × Text))
    (h : ∀ keyList : KeyList, groupRecords keyList [] ls =
      ls.filterMap fun x => keyList.recordOf (lineParams x.2)) : Harmless [] ls := by
  have hcount : ∀ (k : Text) (ks : List Text), (k :: ks).length ≤ 5 → (k :: ks).Nodup →
      (∀ x ∈ k :: ks, x ≠ []) → groupCount (gives (k :: ks)) [] ls =
        (gives (k :: ks) []).toNat + lineCount (gives (k :: ks)) ls := by
    intro k ks hlen hnodup hne
    have hrecords := congrArg List.length (h (requiredKeys (k :: ks) hlen hnodup hne))
    rw [groupRecords_length, filterMap_recordOf_length] at hrecords
    simp only [recordOf_requiredKeys] at hrecords
    rw [gives_nil, Bool.toNat_false, Nat.zero_add]
    exact hrecords
  refine harmless_of_groupCount [] ls (fun k hk => apart_of_groupCount k [] ls ?_) ?_
  · exact hcount k [] (by simp) (by simp) (by simpa using hk)
  · intro a b ha hb hab
    exact hcount a [b] (by simp) (by simpa using hab) (by simp [ha, hb])

end Counting

/-- Comments are transparent, whatever keys are asked for, exactly when every line with parameters
is read and no record is left open over two of them. -/
theorem getParsedRecords_deleteComments_iff (before : Char) (text : Text)
    (hlen : text.length ≤ 10240) :
    (∀ keyList, getParsedRecords before text keyList =
      getParsedRecords before (deleteComments text) keyList) ↔ CommentsTransparent before text := by
  have hlen' : text.length < 32768 := by omega
  have hwith : ∀ keyList, getParsedRecords before text keyList =
      if ReadFails (sectionLines text) ∨ StrayToken before text then none
      else some (groupRecords keyList [] (sectionLines text)) := fun keyList =>
    getParsedRecords_lines before keyList text hlen'
  have hwithout := fun keyList => getParsedRecords_deleteComments before keyList text hlen'
  by_cases hread : ReadFails (sectionLines text)
  · refine ⟨fun _ => Or.inl hread, fun _ keyList => ?_⟩
    rw [hwith, hwithout, if_pos (Or.inl hread), if_pos (Or.inl hread)]
  · by_cases hstray : StrayToken before text
    · constructor
      · intro h
        refine Or.inr (Or.inl ⟨hstray, ?_⟩)
        have hnone := h ⟨[], by simp, by simp, by simp⟩
        rw [hwith, hwithout, if_pos (Or.inr hstray)] at hnone
        by_contra hskip
        rw [if_neg (not_or.mpr ⟨hread, hskip⟩)] at hnone
        cases hnone
      · rintro (hr | ⟨-, hskip⟩ | ⟨hno, -⟩) keyList
        · exact absurd hr hread
        · rw [hwith, hwithout, if_pos (Or.inr hstray), if_pos (Or.inr hskip)]
        · exact absurd hstray hno
    · by_cases hskip : SkippedFails (sectionLines text)
      · constructor
        · intro h
          have hnone := h ⟨[], by simp, by simp, by simp⟩
          rw [hwith, hwithout, if_neg (not_or.mpr ⟨hread, hstray⟩), if_pos (Or.inr hskip)] at hnone
          cases hnone
        · rintro (hr | ⟨hs, -⟩ | ⟨-, hno, -⟩)
          · exact absurd hr hread
          · exact absurd hs hstray
          · exact absurd hskip hno
      · have hboth : ∀ keyList, getParsedRecords before text keyList =
            getParsedRecords before (deleteComments text) keyList ↔
            groupRecords keyList [] (sectionLines text) =
              (sectionLines text).filterMap fun x => keyList.recordOf (lineParams x.2) := by
          intro keyList
          rw [hwith, hwithout, if_neg (not_or.mpr ⟨hread, hstray⟩),
            if_neg (not_or.mpr ⟨hread, hskip⟩), Option.some.injEq]
        constructor
        · intro h
          exact Or.inr (Or.inr ⟨hstray, hskip,
            harmless_of_records _ fun keyList => (hboth keyList).mp (h keyList)⟩)
        · rintro (hr | ⟨hs, -⟩ | ⟨-, -, hharmless⟩) keyList
          · exact absurd hr hread
          · exact absurd hs hstray
          · rw [hboth, groupRecords_of_harmless keyList [] _ hharmless, KeyList.recordOf_nil]
            rfl

/-- A comment behind the last field of the last line, without a line end. -/
theorem getParsedRecords_deleteComments_iff_lastLine :
    (∀ keyList, getParsedRecords '\n' ['a', '=', '1', '#', 'x'] keyList =
      getParsedRecords '\n' (deleteComments ['a', '=', '1', '#', 'x']) keyList) ↔
        CommentsTransparent '\n' ['a', '=', '1', '#', 'x'] :=
  getParsedRecords_deleteComments_iff '\n' _ (by decide)

/-- One required key. -/
def oneKey : KeyList where
  keys := [⟨['a'], none⟩]
  count_le := by decide
  nodup := by decide
  key_ne_nil := by decide

/-- The line end after a comment closes no record, so that the second of two records is lost. -/
theorem getParsedRecords_comment_merges :
    getParsedRecords '\n' ['a', '=', '1', '#', 'x', '\n', 'a', '=', '2'] oneKey =
        some [[some ['1']]] ∧
      getParsedRecords '\n' (deleteComments ['a', '=', '1', '#', 'x', '\n', 'a', '=', '2']) oneKey =
        some [[some ['1']], [some ['2']]] ∧
      getParsedRecords '\n' ['a', '=', '1', '#', 'x', '\n', 'a', '=', '2'] oneKey ≠
        getParsedRecords '\n' (deleteComments ['a', '=', '1', '#', 'x', '\n', 'a', '=', '2']) oneKey := by
  decide

end Zrt.Nvram
