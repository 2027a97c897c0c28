import Mathlib.Data.List.Basic
import Zrt.Nvram.Lexer

/-!
# Records

The buffer of parsed parameters holds, for every key, the first value given to it since the last
record end. Closing the record then depends only on the list of parameters read since.
-/

namespace Zrt.Nvram

abbrev Params := List (Text × Text)

namespace KeyList

/-- The first value given to the key, else its default. -/
def valueOf (params : Params) (e : KeyEntry) : Option Text :=
  (params.lookup e.key).or e.optionalDefaultValue

/-- The record of a list of parameters: at least one known key was given and every key has a
value. -/
def recordOf (keyList : KeyList) (params : Params) : Option ParsedRecord :=
  if (∃ e ∈ keyList.keys, (params.lookup e.key).isSome) ∧
      ∀ e ∈ keyList.keys, (valueOf params e).isSome then
    some (keyList.keys.map (valueOf params))
  else none

theorem recordOf_nil (keyList : KeyList) : keyList.recordOf [] = none := by
  simp [recordOf]

theorem keyFind_getElem (keyList : KeyList) (i : Nat) (hi : i < keyList.keys.length) :
    keyFind keyList keyList.keys[i].key = some i := by
  rw [keyFind, List.findIdx?_eq_some_iff_getElem]
  refine ⟨hi, by simp, fun j hj hsame => ?_⟩
  have hne := List.pairwise_iff_getElem.mp keyList.nodup j i (by rw [List.length_map]; omega)
    (by rw [List.length_map]; exact hi) hj
  rw [List.getElem_map, List.getElem_map] at hne
  exact hne (of_decide_eq_true hsame)

theorem keyFind_eq_some (keyList : KeyList) (key : Text) (i : Nat)
    (h : keyFind keyList key = some i) : ∃ e, keyList.keys[i]? = some e ∧ e.key = key := by
  obtain ⟨hi, hkey, -⟩ := List.findIdx?_eq_some_iff_getElem.mp h
  exact ⟨keyList.keys[i], List.getElem?_eq_getElem hi, of_decide_eq_true hkey⟩

private theorem keyFind_eq_none (keyList : KeyList) (key : Text) (h : keyFind keyList key = none) :
    ∀ e ∈ keyList.keys, e.key ≠ key := by
  intro e he heq
  have := List.findIdx?_eq_none_iff.mp h e he
  simp [heq] at this

private theorem countP_update (keyList : KeyList) (A : KeyEntry → Bool) (key : Text) (i : Nat)
    (h : keyFind keyList key = some i) (hnew : ∀ e ∈ keyList.keys, e.key = key → A e = false) :
    keyList.keys.countP (fun e => A e || decide (e.key = key)) = keyList.keys.countP A + 1 := by
  obtain ⟨e, he, hkey⟩ := keyFind_eq_some keyList key i h
  obtain ⟨pre, post, hsplit⟩ := List.append_of_mem (List.mem_of_getElem? he)
  have hnodup := keyList.nodup
  rw [hsplit, List.map_append, List.map_cons, List.nodup_append] at hnodup
  have hpre : ∀ x ∈ pre, x.key ≠ key := fun x hx heq =>
    hnodup.2.2 x.key (List.mem_map_of_mem hx) e.key (by simp) (by rw [heq, hkey])
  have hpost : ∀ x ∈ post, x.key ≠ key := fun x hx heq =>
    (List.nodup_cons.mp hnodup.2.1).1 (by rw [hkey, ← heq]; exact List.mem_map_of_mem hx)
  have hcongr : ∀ l : List KeyEntry, (∀ x ∈ l, x.key ≠ key) →
      l.countP (fun x => A x || decide (x.key = key)) = l.countP A := by
    intro l hl
    refine List.countP_congr fun x hx => ?_
    simp [hl x hx]
  have hA : A e = false := hnew e (by rw [hsplit]; simp) hkey
  rw [hsplit, List.countP_append, List.countP_append, List.countP_cons, List.countP_cons,
    hcongr pre hpre, hcongr post hpost]
  simp [hkey, hA]
  omega

end KeyList

/-- The buffer after the parameters `params`. -/
structure ParseState.Holds (keyList : KeyList) (params : Params) (p : ParseState) : Prop where
  parsed : ∀ (i : Nat) (e : KeyEntry), keyList.keys[i]? = some e →
    p.tempKeysParsed i = (params.lookup e.key).map fun v => (e.key, v)
  count : p.parsedParamsCount = keyList.keys.countP fun e => (params.lookup e.key).isSome

theorem ParseState.Holds.start (keyList : KeyList) (records : List ParsedRecord) :
    ParseState.Holds keyList [] { ParseState.start with records := records } :=
  ⟨fun _ _ _ => rfl, by simp [ParseState.start]⟩

theorem lookup_snoc (params : Params) (key val k : Text) :
    (params ++ [(key, val)]).lookup k =
      (params.lookup k).or (if k = key then some val else none) := by
  rw [List.lookup_append, List.lookup_cons, List.lookup_nil]
  by_cases h : k = key
  · simp [h]
  · rw [beq_false_of_ne h, if_neg h]

private theorem ParseState.Holds.congr {keyList : KeyList} {params params' : Params} {p : ParseState}
    (h : p.Holds keyList params)
    (hsame : ∀ e ∈ keyList.keys, params'.lookup e.key = params.lookup e.key) :
    p.Holds keyList params' := by
  refine ⟨fun i e he => ?_, ?_⟩
  · rw [hsame e (List.mem_of_getElem? he)]
    exact h.parsed i e he
  · rw [h.count]
    exact List.countP_congr fun e he => by rw [hsame e he]

private theorem ParseState.Holds.enter {keyList : KeyList} {params : Params} {p : ParseState}
    (h : p.Holds keyList params) {key : Text} {i : Nat} (hfind : keyFind keyList key = some i)
    (hseen : params.lookup key = none) (val : Text) :
    ParseState.Holds keyList (params ++ [(key, val)]) { p with
      tempKeysParsed := Function.update p.tempKeysParsed i (some (key, val))
      parsedParamsCount := p.parsedParamsCount + 1 } := by
  obtain ⟨e, he, hkey⟩ := KeyList.keyFind_eq_some keyList key i hfind
  refine ⟨fun j e' he' => ?_, ?_⟩
  · by_cases hj : j = i
    · have hsame : e' = e := by
        rw [hj, he] at he'
        exact (Option.some.inj he').symm
      rw [hj, hsame, hkey, lookup_snoc, hseen, if_pos rfl]
      exact Function.update_self i _ _
    · have hne : e'.key ≠ key := by
        intro heq
        have hlt := (List.getElem?_eq_some_iff.mp he').1
        have hfind' := KeyList.keyFind_getElem keyList j hlt
        rw [(List.getElem?_eq_some_iff.mp he').2, heq, hfind] at hfind'
        exact hj (Option.some.inj hfind').symm
      rw [lookup_snoc, if_neg hne, Option.or_none]
      simp only [Function.update_of_ne hj]
      exact h.parsed j e' he'
  · have hcount := KeyList.countP_update keyList
      (fun e => (params.lookup e.key).isSome) key i hfind
      (fun e' _ hk => by simp [hk, hseen])
    rw [h.count, ← hcount]
    refine List.countP_congr fun e' _ => ?_
    rw [lookup_snoc]
    by_cases hk : e'.key = key <;> simp [hk]

private theorem ParseState.Holds.saveParam {keyList : KeyList} {params : Params} {p : ParseState}
    (h : p.Holds keyList params) (key val : Text) :
    (p.saveParam keyList key val).Holds keyList (params ++ [(key, val)]) ∧
      (p.saveParam keyList key val).records = p.records := by
  rw [ParseState.saveParam]
  cases hfind : keyFind keyList key with
  | none =>
      have hother := KeyList.keyFind_eq_none keyList key hfind
      refine ⟨h.congr fun e he => ?_, rfl⟩
      rw [lookup_snoc, if_neg (hother e he), Option.or_none]
  | some i =>
      obtain ⟨e, he, hkey⟩ := KeyList.keyFind_eq_some keyList key i hfind
      have hi := h.parsed i e he
      rw [hkey] at hi
      cases hseen : params.lookup key with
      | some v =>
          rw [hseen] at hi
          simp only [hi, Option.map_some, Option.isSome_some, if_true]
          refine ⟨h.congr fun e' _ => ?_, trivial⟩
          rw [lookup_snoc]
          by_cases hk : e'.key = key
          · rw [hk, hseen, Option.some_or]
          · rw [if_neg hk, Option.or_none]
      | none =>
          rw [hseen] at hi
          simp only [hi, Option.map_none, Option.isSome_none, Bool.false_eq_true, if_false]
          exact ⟨h.enter hfind hseen val, trivial⟩

theorem ParseState.Holds.saveField {keyList : KeyList} {params : Params} {p : ParseState}
    (h : p.Holds keyList params) (kv : Option (Text × Text)) :
    (p.saveField keyList kv).Holds keyList (params ++ kv.toList) ∧
      (p.saveField keyList kv).records = p.records := by
  cases kv with
  | none =>
      rw [Option.toList_none, List.append_nil]
      exact ⟨h, rfl⟩
  | some kv => exact h.saveParam kv.1 kv.2

private theorem fillDefaults_cons (params : Params) (e : KeyEntry) (es : List KeyEntry) (i : Nat)
    (p : ParseState)
    (hi : p.tempKeysParsed i = (params.lookup e.key).map fun v => (e.key, v)) :
    ∃ q : ParseState, p.fillDefaults (e :: es) i = q.fillDefaults es (i + 1) ∧
      q.records = p.records ∧ (∀ j, j ≠ i → q.tempKeysParsed j = p.tempKeysParsed j) ∧
      q.tempKeysParsed i = (KeyList.valueOf params e).map (fun v => (e.key, v)) ∧
      q.parsedParamsCount + (if (params.lookup e.key).isSome then 1 else 0) =
        p.parsedParamsCount + (if (KeyList.valueOf params e).isSome then 1 else 0) := by
  rw [ParseState.fillDefaults, hi]
  cases hl : params.lookup e.key with
  | some v =>
      refine ⟨p, ?_, rfl, fun _ _ => rfl, ?_, ?_⟩
      · cases e.optionalDefaultValue <;> rfl
      · rw [hi, hl, KeyList.valueOf, hl, Option.some_or]
      · simp [KeyList.valueOf, hl]
  | none =>
      cases hd : e.optionalDefaultValue with
      | none =>
          refine ⟨p, rfl, rfl, fun _ _ => rfl, ?_, ?_⟩
          · rw [hi, hl, KeyList.valueOf, hl, hd]
            rfl
          · simp [KeyList.valueOf, hl, hd]
      | some d =>
          refine ⟨_, rfl, rfl, fun j hj => ?_, ?_, ?_⟩
          · exact Function.update_of_ne hj _ _
          · rw [KeyList.valueOf, hl, hd]
            exact Function.update_self i _ _
          · simp [KeyList.valueOf, hl, hd]

private theorem fillDefaults_spec (params : Params) (es : List KeyEntry) (i : Nat) (p : ParseState)
    (h : ∀ (j : Nat) (e : KeyEntry), es[j]? = some e →
      p.tempKeysParsed (i + j) = (params.lookup e.key).map fun v => (e.key, v)) :
    (p.fillDefaults es i).records = p.records ∧
      (∀ j, j < i → (p.fillDefaults es i).tempKeysParsed j = p.tempKeysParsed j) ∧
      (∀ (j : Nat) (e : KeyEntry), es[j]? = some e → (p.fillDefaults es i).tempKeysParsed (i + j) =
        (KeyList.valueOf params e).map fun v => (e.key, v)) ∧
      (p.fillDefaults es i).parsedParamsCount + es.countP (fun e => (params.lookup e.key).isSome) =
        p.parsedParamsCount + es.countP (fun e => (KeyList.valueOf params e).isSome) := by
  induction es generalizing i p with
  | nil => simp [ParseState.fillDefaults]
  | cons e es ih =>
      have hi : p.tempKeysParsed i = (params.lookup e.key).map fun v => (e.key, v) := by
        simpa using h 0 e rfl
      -- the entry of `e` is settled by one step, the others are left to the rest of the loop
      obtain ⟨q, hq, hrec, hkeep, hqi, hcount⟩ := fillDefaults_cons params e es i p hi
      have hrest := ih (i + 1) q fun j e' he' => by
        rw [hkeep _ (by omega), Nat.add_assoc, Nat.add_comm 1 j]
        exact h (j + 1) e' he'
      obtain ⟨hrec', hbelow, hentries, hsum⟩ := hrest
      rw [hq]
      refine ⟨hrec'.trans hrec, fun j hj => ?_, fun j e' he' => ?_, ?_⟩
      · rw [hbelow j (by omega), hkeep j (by omega)]
      · cases j with
        | zero =>
            have heq : e = e' := by simpa using he'
            show (q.fillDefaults es (i + 1)).tempKeysParsed i = _
            rw [hbelow i (by omega), hqi, heq]
        | succ j =>
            rw [← hentries j e' he']
            congr 1
            omega
      · rw [List.countP_cons, List.countP_cons]
        omega

private theorem getParsedRecord_spec (keyList : KeyList) (q : ParseState) (vals : KeyEntry → Text)
    (hq : ∀ (j : Nat) (e : KeyEntry), keyList.keys[j]? = some e →
      q.tempKeysParsed j = some (e.key, vals e))
    (n i : Nat) (record : ParsedRecord) (hn : i + n = keyList.keys.length)
    (hrecord : record.length = keyList.keys.length) :
    q.getParsedRecord keyList n i record =
      some (some (record.take i ++ (keyList.keys.drop i).map fun e => some (vals e))) := by
  induction n generalizing i record with
  | zero =>
      rw [ParseState.getParsedRecord, List.drop_of_length_le (by omega),
        List.take_of_length_le (by omega), List.map_nil, List.append_nil]
  | succ n ih =>
      have hi : i < keyList.keys.length := by omega
      have htemp := hq i keyList.keys[i] (List.getElem?_eq_getElem hi)
      simp only [ParseState.getParsedRecord, htemp, KeyList.keyFind_getElem keyList i hi]
      rw [ih (i + 1) _ (by omega) (by rw [List.length_set]; exact hrecord),
        List.drop_eq_getElem_cons hi, List.map_cons,
        List.take_succ_eq_append_getElem (by rw [List.length_set]; omega),
        List.getElem_set_self, List.take_set_of_le (Nat.le_refl i), List.append_assoc]
      rfl

/-- Closing a record appends the record of the parameters read since the last one. -/
theorem ParseState.Holds.handleParsedParams {keyList : KeyList} {params : Params} {p : ParseState}
    (h : p.Holds keyList params) :
    p.handleParsedParams keyList = some { ParseState.start with
      records := p.records ++ (keyList.recordOf params).toList } := by
  obtain ⟨-, -, hentries, hsum⟩ := fillDefaults_spec params keyList.keys 0 p fun j e he => by
    rw [Nat.zero_add]
    exact h.parsed j e he
  have hcount : (p.fillDefaults keyList.keys 0).parsedParamsCount =
      keyList.keys.countP fun e => (KeyList.valueOf params e).isSome := by
    have := h.count
    omega
  have hknown : 0 < p.parsedParamsCount ↔ ∃ e ∈ keyList.keys, (params.lookup e.key).isSome := by
    rw [h.count, List.countP_pos_iff]
  rw [ParseState.handleParsedParams]
  by_cases hpos : 0 < p.parsedParamsCount
  · rw [if_pos hpos]
    by_cases hall : ∀ e ∈ keyList.keys, (KeyList.valueOf params e).isSome
    · have hfull : keyList.keys.length = (p.fillDefaults keyList.keys 0).parsedParamsCount := by
        rw [hcount, eq_comm, List.countP_eq_length]
        exact hall
      have hvals : ∀ e ∈ keyList.keys,
          KeyList.valueOf params e = some ((KeyList.valueOf params e).getD []) := by
        intro e he
        obtain ⟨v, hv⟩ := Option.isSome_iff_exists.mp (hall e he)
        rw [hv, Option.getD_some]
      have hrecord := getParsedRecord_spec keyList (p.fillDefaults keyList.keys 0)
        (fun e => (KeyList.valueOf params e).getD []) (fun j e he => by
          have hj := hentries j e he
          rw [Nat.zero_add, hvals e (List.mem_of_getElem? he), Option.map_some] at hj
          exact hj)
        (p.fillDefaults keyList.keys 0).parsedParamsCount 0
        (List.replicate keyList.keys.length none) (by omega) (by simp)
      have hmap : (keyList.keys.map fun e => some ((KeyList.valueOf params e).getD [])) =
          keyList.keys.map (KeyList.valueOf params) :=
        List.map_congr_left fun e he => (hvals e he).symm
      rw [List.take_zero, List.nil_append, List.drop_zero, hmap] at hrecord
      simp only [← hfull, if_true] at hrecord ⊢
      rw [hrecord, KeyList.recordOf, if_pos ⟨hknown.mp hpos, hall⟩]
      rfl
    · have hfew : ¬ keyList.keys.length = (p.fillDefaults keyList.keys 0).parsedParamsCount := by
        intro heq
        rw [hcount, eq_comm, List.countP_eq_length] at heq
        exact hall heq
      simp only [hfew, if_false, KeyList.recordOf, hall, and_false, Option.toList_none,
        List.append_nil]
  · rw [if_neg hpos, KeyList.recordOf, if_neg (fun hc => hpos (hknown.mpr hc.1)),
      Option.toList_none, List.append_nil]

end Zrt.Nvram
