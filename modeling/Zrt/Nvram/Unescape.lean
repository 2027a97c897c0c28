import Zrt.Nvram.ConfParser

/-!
# Escape sequences

The values of arguments and environment variables may hold bytes written as `\xHH`. The macros that
test for a sequence are conditional expressions, and what they expand to in the condition of the
loop is grouped by the conditional operators in them.
-/

namespace Zrt.Nvram

/-- `GET_VALIDATED_HEX_CHAR_TO_INT`: the variable is assigned when the character is a digit. -/
def hexValue (c : Char) : Option Nat :=
  if '0' ≤ c ∧ c ≤ '9' then some (c.toNat - '0'.toNat)
  else if 'a' ≤ c ∧ c ≤ 'f' then some (10 + (c.toNat - 'a'.toNat))
  else if 'A' ≤ c ∧ c ≤ 'F' then some (10 + (c.toNat - 'A'.toNat))
  else none

/-- `MATCH_HEX` -/
def matchHex (c : Char) : Bool := (hexValue c).isSome

/-- `MATCH_2HEX_DIGITS`: the comparison with zero ends up in the last operand of the first
conditional operator, in front of the second one. -/
def match2HexDigits (h l : Char) : Bool :=
  if matchHex h then true else if false && matchHex l then true else false

/-- The condition of the loop. -/
def matchesEscape : Text → Bool
  | a :: b :: h :: l :: _ =>
      if a = '\\' ∧ b = 'x' then true else false && match2HexDigits h l
  | _ => false

/-- The bytes in `temp` and `res` before they are assigned. -/
abbrev Uninit := Fin 256 × Fin 256

def strHexToIntNotUsingLocale (uninit : Uninit) (h l : Char) : Char :=
  Char.ofNat ((hexValue l).getD uninit.2 ||| (hexValue h).getD uninit.1 <<< 4 % 256)

/-- The loop from `indexOut` on, where `escape` tells the byte that is stored for a sequence at the
head of the text; `skip` bytes belong to the sequence read last. -/
def unescapeFrom (escape : Nat → Text → Option Char) : Nat → Nat → Text → Text
  | _, _, [] => []
  | indexOut, skip + 1, _ :: source => unescapeFrom escape indexOut skip source
  | indexOut, 0, c :: source =>
      match escape indexOut (c :: source) with
      | some d => d :: unescapeFrom escape (indexOut + 1) 3 source
      | none => c :: unescapeFrom escape (indexOut + 1) 0 source

/-- `uninit` gives the bytes left in the variables by the index of the byte that is stored. -/
def takenEscape (uninit : Nat → Uninit) (indexOut : Nat) (source : Text) : Option Char :=
  if matchesEscape source then
    match source with
    | _ :: _ :: h :: l :: _ => some (strHexToIntNotUsingLocale (uninit indexOut) h l)
    | _ => none
  else none

/-- What the loop of `unescape_string_copy_to_dest` stores from `index` on. -/
def unescapeString (uninit : Nat → Uninit) (index : Nat) (source : Text) : Text :=
  unescapeFrom (takenEscape uninit) index 0 source

/-- Write into a buffer, within its bounds. -/
def store (dest : Text) (index : Nat) (s : Text) : Option Text :=
  if index + s.length ≤ dest.length then
    some (dest.take index ++ s ++ dest.drop (index + s.length))
  else none

def unescapeStringCopyToDest (uninit : Nat → Uninit) (source dest : Text) (index : Nat) :
    Option (Text × Nat) :=
  (store dest index (unescapeString uninit index source ++ [nul])).map fun dest' =>
    (dest', (unescapeString uninit index source).length)

/-- The byte that a sequence at the head of the text denotes. -/
def escapedChar : Text → Option Char
  | a :: b :: h :: l :: _ =>
      if a = '\\' ∧ b = 'x' then
        (hexValue h).bind fun x => (hexValue l).map fun y => Char.ofNat (16 * x + y)
      else none
  | _ => none

/-- The text with its sequences replaced, from left to right. -/
def unescaped (source : Text) : Text := unescapeFrom (fun _ => escapedChar) 0 0 source

/-- Two characters that follow `\x` are digits. -/
def EscapesValid (source : Text) : Prop :=
  ∀ h l, ['\\', 'x', h, l] <:+: source → matchHex h ∧ matchHex l

section Stepping

variable {escape : Nat → Text → Option Char}

@[simp] theorem unescapeFrom_nil (index skip : Nat) : unescapeFrom escape index skip [] = [] := by
  cases skip <;> rfl

private theorem unescapeFrom_skip (index skip : Nat) (source : Text) :
    unescapeFrom escape index skip source = unescapeFrom escape index 0 (source.drop skip) := by
  induction source generalizing skip with
  | nil => simp
  | cons c source ih =>
      cases skip with
      | zero => rfl
      | succ skip => rw [unescapeFrom, ih, List.drop_succ_cons]

theorem unescapeFrom_none {index : Nat} {c : Char} {source : Text}
    (h : escape index (c :: source) = none) :
    unescapeFrom escape index 0 (c :: source) =
      c :: unescapeFrom escape (index + 1) 0 source := by
  rw [unescapeFrom, h]

theorem unescapeFrom_some {index : Nat} {a b h l d : Char} {source : Text}
    (hd : escape index (a :: b :: h :: l :: source) = some d) :
    unescapeFrom escape index 0 (a :: b :: h :: l :: source) =
      d :: unescapeFrom escape (index + 1) 0 source := by
  rw [unescapeFrom, hd, unescapeFrom_skip]
  rfl

private theorem unescapeFrom_length_le (index skip : Nat) (source : Text) :
    (unescapeFrom escape index skip source).length ≤ source.length := by
  induction source generalizing index skip with
  | nil => simp
  | cons c source ih =>
      cases skip with
      | zero =>
          rw [unescapeFrom]
          split
          · exact Nat.succ_le_succ (ih _ _)
          · exact Nat.succ_le_succ (ih _ _)
      | succ skip => exact Nat.le_succ_of_le (ih _ _)

end Stepping

theorem matchesEscape_iff {source : Text} :
    matchesEscape source ↔ ∃ h l t, source = '\\' :: 'x' :: h :: l :: t := by
  constructor
  · intro hmatch
    match source, hmatch with
    | a :: b :: h :: l :: t, hmatch =>
        rw [matchesEscape] at hmatch
        split at hmatch
        · rename_i hab
          exact ⟨h, l, t, by rw [hab.1, hab.2]⟩
        · exact absurd hmatch (by simp)
  · rintro ⟨h, l, t, rfl⟩
    rw [matchesEscape, if_pos ⟨rfl, rfl⟩]

theorem escapedChar_sequence (h l : Char) (t : Text) :
    escapedChar ('\\' :: 'x' :: h :: l :: t) =
      (hexValue h).bind fun x => (hexValue l).map fun y => Char.ofNat (16 * x + y) := by
  rw [escapedChar, if_pos ⟨rfl, rfl⟩]

theorem escapedChar_eq_none {source : Text} (h : ¬ matchesEscape source) :
    escapedChar source = none := by
  match source with
  | [] => rfl
  | [_] => rfl
  | [_, _] => rfl
  | [_, _, _] => rfl
  | a :: b :: c :: d :: t =>
      rw [escapedChar, if_neg]
      rintro ⟨rfl, rfl⟩
      exact h (matchesEscape_iff.mpr ⟨c, d, t, rfl⟩)

/-- Texts by what their heads are read as: a character that is copied, a sequence, or `\x` in
front of characters that are not both digits. -/
theorem escapeInduction {P : Text → Prop} (nil : P [])
    (copy : ∀ c s, ¬ matchesEscape (c :: s) → P s → P (c :: s))
    (valid : ∀ h l t, matchHex h → matchHex l → P t → P ('\\' :: 'x' :: h :: l :: t))
    (invalid : ∀ h l t, ¬ (matchHex h ∧ matchHex l) → P t → P ('\\' :: 'x' :: h :: l :: t))
    (source : Text) : P source := by
  induction hn : source.length using Nat.strongRecOn generalizing source with
  | ind n ih =>
      subst hn
      cases source with
      | nil => exact nil
      | cons c s =>
          by_cases hmatch : matchesEscape (c :: s)
          · obtain ⟨h, l, t, heq⟩ := matchesEscape_iff.mp hmatch
            have ht : P t := ih t.length (by rw [heq]; simp; omega) t rfl
            rw [heq]
            by_cases hhex : matchHex h ∧ matchHex l
            · exact valid h l t hhex.1 hhex.2 ht
            · exact invalid h l t hhex ht
          · exact copy c s hmatch (ih s.length (by simp) s rfl)

theorem hexValue_lt {c : Char} {x : Nat} (h : hexValue c = some x) : x < 16 := by
  rw [hexValue] at h
  split at h
  · rename_i hc
    have hle : c.toNat ≤ 57 := hc.2
    obtain rfl := Option.some.inj h
    have : '0'.toNat = 48 := rfl
    omega
  · split at h
    · rename_i hc
      have hle : c.toNat ≤ 102 := hc.2
      obtain rfl := Option.some.inj h
      have : 'a'.toNat = 97 := rfl
      omega
    · split at h
      · rename_i hc
        have hle : c.toNat ≤ 70 := hc.2
        obtain rfl := Option.some.inj h
        have : 'A'.toNat = 65 := rfl
        omega
      · cases h

/-- Of two digits nothing of the variables' earlier bytes is left. -/
theorem strHexToInt_digits (uninit : Uninit) {h l : Char} {x y : Nat} (hx : hexValue h = some x)
    (hy : hexValue l = some y) :
    strHexToIntNotUsingLocale uninit h l = Char.ofNat (16 * x + y) := by
  have hxlt := hexValue_lt hx
  have hylt := hexValue_lt hy
  rw [strHexToIntNotUsingLocale, hx, hy, Option.getD_some, Option.getD_some,
    Nat.mod_eq_of_lt (by rw [Nat.shiftLeft_eq]; omega), Nat.or_comm,
    ← Nat.shiftLeft_add_eq_or_of_lt (by omega : y < 2 ^ 4), Nat.shiftLeft_eq, Nat.mul_comm]

section Stepping

variable (uninit : Nat → Uninit) (index : Nat)

private theorem takenEscape_sequence (h l : Char) (t : Text) :
    takenEscape uninit index ('\\' :: 'x' :: h :: l :: t) =
      some (strHexToIntNotUsingLocale (uninit index) h l) := by
  rw [takenEscape, if_pos (matchesEscape_iff.mpr ⟨h, l, t, rfl⟩)]

@[simp] theorem unescapeString_nil : unescapeString uninit index [] = [] :=
  unescapeFrom_nil index 0

theorem unescapeString_copy {c : Char} {s : Text} (h : ¬ matchesEscape (c :: s)) :
    unescapeString uninit index (c :: s) = c :: unescapeString uninit (index + 1) s :=
  unescapeFrom_none (if_neg h)

theorem unescapeString_sequence (h l : Char) (t : Text) :
    unescapeString uninit index ('\\' :: 'x' :: h :: l :: t) =
      strHexToIntNotUsingLocale (uninit index) h l :: unescapeString uninit (index + 1) t :=
  unescapeFrom_some (takenEscape_sequence uninit index h l t)

/-- How much is stored does not depend on what the variables hold. -/
theorem unescapeString_length_congr (uninit uninit' : Nat → Uninit) (i j : Nat) (source : Text) :
    (unescapeString uninit i source).length = (unescapeString uninit' j source).length := by
  induction source using escapeInduction generalizing i j with
  | nil => simp
  | copy c s hmatch ih =>
      rw [unescapeString_copy uninit i hmatch, unescapeString_copy uninit' j hmatch]
      exact congrArg Nat.succ (ih _ _)
  | valid h l t _ _ ih =>
      rw [unescapeString_sequence, unescapeString_sequence]
      exact congrArg Nat.succ (ih _ _)
  | invalid h l t _ ih =>
      rw [unescapeString_sequence, unescapeString_sequence]
      exact congrArg Nat.succ (ih _ _)

theorem unescapeString_length_le (source : Text) :
    (unescapeString uninit index source).length ≤ source.length :=
  unescapeFrom_length_le index 0 source

theorem unescapeFrom_eq_unescaped (source : Text) :
    unescapeFrom (fun _ => escapedChar) index 0 source = unescaped source := by
  suffices h : ∀ (source : Text) (i j skip : Nat), unescapeFrom (fun _ => escapedChar) i skip source =
      unescapeFrom (fun _ => escapedChar) j skip source from h source index 0 0
  intro source
  induction source with
  | nil => simp
  | cons c source ih =>
      intro i j skip
      cases skip with
      | zero =>
          rw [unescapeFrom, unescapeFrom]
          split
          · rw [ih]
          · rw [ih]
      | succ skip => exact ih i j skip

@[simp] theorem unescaped_nil : unescaped [] = [] := rfl

theorem unescaped_copy {c : Char} {s : Text} (h : escapedChar (c :: s) = none) :
    unescaped (c :: s) = c :: unescaped s := by
  rw [unescaped, unescapeFrom_none h, unescapeFrom_eq_unescaped]

theorem unescaped_sequence {h l : Char} {x y : Nat} (hx : hexValue h = some x)
    (hy : hexValue l = some y) (t : Text) :
    unescaped ('\\' :: 'x' :: h :: l :: t) = Char.ofNat (16 * x + y) :: unescaped t := by
  have hchar : escapedChar ('\\' :: 'x' :: h :: l :: t) = some (Char.ofNat (16 * x + y)) := by
    rw [escapedChar_sequence, hx, hy, Option.bind_some, Option.map_some]
  rw [unescaped, unescapeFrom_some hchar, unescapeFrom_eq_unescaped]

theorem unescaped_invalid {h l : Char} (hhex : ¬ (matchHex h ∧ matchHex l)) (t : Text) :
    unescaped ('\\' :: 'x' :: h :: l :: t) = '\\' :: 'x' :: unescaped (h :: l :: t) := by
  have hchar : escapedChar ('\\' :: 'x' :: h :: l :: t) = none := by
    rw [escapedChar_sequence]
    cases hx : hexValue h with
    | none => rfl
    | some x =>
        cases hy : hexValue l with
        | none => rfl
        | some y => exact absurd ⟨by simp [matchHex, hx], by simp [matchHex, hy]⟩ hhex
  have hnext : ¬ matchesEscape ('x' :: h :: l :: t) := fun hmatch => by
    obtain ⟨_, _, _, heq⟩ := matchesEscape_iff.mp hmatch
    exact absurd (List.cons.inj heq).1 (by decide)
  rw [unescaped_copy hchar, unescaped_copy (escapedChar_eq_none hnext)]

end Stepping

theorem not_matchesEscape_of_ne {c : Char} (h : c ≠ '\\') (s : Text) :
    ¬ matchesEscape (c :: s) := fun hmatch => by
  obtain ⟨_, _, _, heq⟩ := matchesEscape_iff.mp hmatch
  exact h (List.cons.inj heq).1

theorem matchHex_ne {c d : Char} (h : matchHex c) (hd : matchHex d = false) : c ≠ d := by
  rintro rfl
  rw [h] at hd
  cases hd

private theorem unescaped_of_ne {c : Char} (h : c ≠ '\\') (s : Text) :
    unescaped (c :: s) = c :: unescaped s :=
  unescaped_copy (escapedChar_eq_none (not_matchesEscape_of_ne h s))

theorem unescapeString_of_ne (uninit : Nat → Uninit) (index : Nat) {c : Char} (h : c ≠ '\\')
    (s : Text) : unescapeString uninit index (c :: s) = c :: unescapeString uninit (index + 1) s :=
  unescapeString_copy uninit index (not_matchesEscape_of_ne h s)

private theorem unescaped_cons (c : Char) (s : Text) :
    unescaped (c :: s) = c :: unescaped s ∨
      ∃ h l t x y, c = '\\' ∧ s = 'x' :: h :: l :: t ∧ hexValue h = some x ∧
        hexValue l = some y ∧ unescaped (c :: s) = Char.ofNat (16 * x + y) :: unescaped t := by
  cases hchar : escapedChar (c :: s) with
  | none => exact Or.inl (unescaped_copy hchar)
  | some d =>
      have hmatch : matchesEscape (c :: s) := by
        by_contra hno
        rw [escapedChar_eq_none hno] at hchar
        cases hchar
      obtain ⟨h, l, t, heq⟩ := matchesEscape_iff.mp hmatch
      obtain ⟨rfl, rfl⟩ := List.cons.inj heq
      rw [escapedChar_sequence] at hchar
      obtain ⟨x, hx, hchar⟩ := Option.bind_eq_some_iff.mp hchar
      obtain ⟨y, hy, -⟩ := Option.map_eq_some_iff.mp hchar
      exact Or.inr ⟨h, l, t, x, y, rfl, rfl, hx, hy, unescaped_sequence hx hy t⟩

/-- Two characters in front of a text are copied, unless a sequence begins at the first or at the
second of them. -/
inductive TwoBefore (h l : Char) (t : Text) : Prop
  | copied : unescaped (h :: l :: t) = h :: l :: unescaped t → TwoBefore h l t
  | first (a b : Char) (u : Text) (d : Char) : t = a :: b :: u → matchHex a → matchHex b →
      unescaped (h :: l :: t) = d :: unescaped u → TwoBefore h l t
  | second (a b : Char) (u : Text) (x y : Nat) : l = '\\' → t = 'x' :: a :: b :: u →
      hexValue a = some x → hexValue b = some y →
      unescaped (h :: l :: t) = h :: Char.ofNat (16 * x + y) :: unescaped u → TwoBefore h l t

theorem twoBefore (h l : Char) (t : Text) : TwoBefore h l t := by
  rcases unescaped_cons h (l :: t) with hh | ⟨a, b, u, x, y, -, heq, hx, hy, hh⟩
  · rcases unescaped_cons l t with hl | ⟨a, b, u, x, y, hl, heq, hx, hy, hl'⟩
    · exact .copied (by rw [hh, hl])
    · exact .second a b u x y hl heq hx hy (by rw [hh, hl'])
  · exact .first a b u _ (List.cons.inj heq).2 (by simp [matchHex, hx]) (by simp [matchHex, hy]) hh

/-- A digit pair has at least the length of what it stands for, and a pair that is no digit pair
is replaced by one byte. -/
private theorem unescapeString_length_le_unescaped (uninit : Nat → Uninit) (index : Nat) (source : Text) :
    (unescapeString uninit index source).length ≤ (unescaped source).length := by
  induction source using escapeInduction generalizing index with
  | nil => simp
  | copy c s hmatch ih =>
      rw [unescapeString_copy uninit index hmatch, unescaped_copy (escapedChar_eq_none hmatch)]
      exact Nat.succ_le_succ (ih _)
  | valid h l t hh hl ih =>
      obtain ⟨x, hx⟩ := Option.isSome_iff_exists.mp hh
      obtain ⟨y, hy⟩ := Option.isSome_iff_exists.mp hl
      rw [unescapeString_sequence, unescaped_sequence hx hy]
      exact Nat.succ_le_succ (ih _)
  | invalid h l t hhex ih =>
      have hle := ih (index + 1)
      rw [unescapeString_sequence, unescaped_invalid hhex, List.length_cons, List.length_cons,
        List.length_cons]
      cases twoBefore h l t with
      | copied heq =>
          rw [heq, List.length_cons, List.length_cons]
          omega
      | first a b u d ht ha hb heq =>
          subst ht
          rw [unescaped_of_ne (matchHex_ne ha (by decide)),
            unescaped_of_ne (matchHex_ne hb (by decide)), List.length_cons, List.length_cons] at hle
          rw [heq, List.length_cons]
          omega
      | second a b u x y hl ht hx hy heq =>
          subst ht
          rw [unescaped_of_ne (by decide),
            unescaped_of_ne (matchHex_ne (by simp [matchHex, hx]) (by decide)),
            unescaped_of_ne (matchHex_ne (by simp [matchHex, hy]) (by decide)), List.length_cons,
            List.length_cons, List.length_cons] at hle
          rw [heq, List.length_cons, List.length_cons]
          omega

namespace EscapesValid

private theorem nil : EscapesValid [] := fun _ _ hinfix => by simp at hinfix

theorem copy_iff {c : Char} {s : Text} (h : ¬ matchesEscape (c :: s)) :
    EscapesValid (c :: s) ↔ EscapesValid s := by
  constructor
  · exact fun hvalid a b hinfix => hvalid a b (List.infix_cons hinfix)
  · intro hvalid a b hinfix
    rcases List.infix_cons_iff.mp hinfix with ⟨t, ht⟩ | hinfix
    · exact absurd (matchesEscape_iff.mpr ⟨a, b, t, ht.symm⟩) h
    · exact hvalid a b hinfix

private theorem digits {h l : Char} {t : Text} (hvalid : EscapesValid ('\\' :: 'x' :: h :: l :: t)) :
    matchHex h ∧ matchHex l :=
  hvalid h l ⟨[], t, rfl⟩

private theorem sequence_iff {h l : Char} (hh : matchHex h) (hl : matchHex l) (t : Text) :
    EscapesValid ('\\' :: 'x' :: h :: l :: t) ↔ EscapesValid t := by
  have hne {d : Char} (hd : matchHex d) (s : Text) : ¬ matchesEscape (d :: s) :=
    not_matchesEscape_of_ne (matchHex_ne hd (by decide)) s
  have htail : EscapesValid ('x' :: h :: l :: t) ↔ EscapesValid t :=
    (copy_iff (not_matchesEscape_of_ne (by decide) _)).trans
      ((copy_iff (hne hh _)).trans (copy_iff (hne hl t)))
  rw [← htail]
  constructor
  · exact fun hvalid a b hinfix => hvalid a b (List.infix_cons hinfix)
  · intro hvalid a b hinfix
    rcases List.infix_cons_iff.mp hinfix with ⟨u, hu⟩ | hinfix
    · simp only [List.cons_append, List.nil_append, List.cons.injEq, true_and] at hu
      obtain ⟨rfl, rfl, -⟩ := hu
      exact ⟨hh, hl⟩
    · exact hvalid a b hinfix

end EscapesValid

private theorem strHexToInt_three_ne (uninit : Uninit) {h l : Char} (hx : hexValue h = some 3)
    (hl : hexValue l = none) : strHexToIntNotUsingLocale uninit h l ≠ '\\' := by
  rw [strHexToIntNotUsingLocale, hx, hl, Option.getD_some, Option.getD_none]
  exact (by decide +kernel : ∀ n : Fin 256, Char.ofNat (n.val ||| 3 <<< 4 % 256) ≠ '\\')
    uninit.2

/-- The only digit that is denoted by two digits of which it is the second is one below ten, behind
a 3. -/
private theorem hexValue_three {c : Char} {x y : Nat} (hx : x < 16) (hy : hexValue c = some y)
    (hc : Char.ofNat (16 * x + y) = c) : x = 3 := by
  have hylt := hexValue_lt hy
  have hall : ∀ x < 16, ∀ y < 16, hexValue (Char.ofNat (16 * x + y)) = some y → x = 3 := by decide
  exact hall x hx y hylt (hc ▸ hy)

private theorem unescapeString_ne_of_invalid (uninit : Nat → Uninit) (index : Nat) {h l : Char}
    (hhex : ¬ (matchHex h ∧ matchHex l)) (t : Text) :
    unescapeString uninit index ('\\' :: 'x' :: h :: l :: t) ≠
      unescaped ('\\' :: 'x' :: h :: l :: t) := by
  rw [unescapeString_sequence, unescaped_invalid hhex]
  intro heq
  obtain ⟨hbyte, htail⟩ := List.cons.inj heq
  cases twoBefore h l t with
  | copied hcopied =>
      have hle := unescapeString_length_le_unescaped uninit (index + 1) t
      have hlen := congrArg List.length htail
      rw [hcopied, List.length_cons, List.length_cons, List.length_cons] at hlen
      omega
  | first a b u d ht ha hb hfirst =>
      subst ht
      rw [unescapeString_of_ne uninit _ (matchHex_ne ha (by decide))] at htail
      exact matchHex_ne ha (by decide) (List.cons.inj htail).1
  | second a b u x y hl ht hx hy hsecond =>
      subst hl ht
      have ha : matchHex a := by simp [matchHex, hx]
      have hb : matchHex b := by simp [matchHex, hy]
      rw [hsecond, unescapeString_of_ne uninit _ (by decide),
        unescapeString_of_ne uninit _ (matchHex_ne ha (by decide)),
        unescapeString_of_ne uninit _ (matchHex_ne hb (by decide))] at htail
      simp only [List.cons.injEq, true_and] at htail
      obtain ⟨rfl, hdigit, -⟩ := htail
      obtain rfl := hexValue_three (hexValue_lt hx) hy hdigit.symm
      exact strHexToInt_three_ne _ hx (by decide) hbyte

private theorem unescapeString_eq_unescaped_iff (uninit : Nat → Uninit) (index : Nat) (source : Text) :
    unescapeString uninit index source = unescaped source ↔ EscapesValid source := by
  induction source using escapeInduction generalizing index with
  | nil => simp [EscapesValid.nil]
  | copy c s hmatch ih =>
      rw [unescapeString_copy uninit index hmatch, unescaped_copy (escapedChar_eq_none hmatch),
        EscapesValid.copy_iff hmatch, ← ih (index + 1), List.cons_inj_right]
  | valid h l t hh hl ih =>
      obtain ⟨x, hx⟩ := Option.isSome_iff_exists.mp hh
      obtain ⟨y, hy⟩ := Option.isSome_iff_exists.mp hl
      rw [unescapeString_sequence, unescaped_sequence hx hy, strHexToInt_digits _ hx hy,
        EscapesValid.sequence_iff hh hl, ← ih (index + 1), List.cons_inj_right]
  | invalid h l t hhex _ =>
      refine iff_of_false (unescapeString_ne_of_invalid uninit index hhex t) ?_
      exact fun hvalid => hhex hvalid.digits

theorem store_of_room {dest s : Text} {index : Nat} (h : index + s.length ≤ dest.length) :
    store dest index s = some (dest.take index ++ s ++ dest.drop (index + s.length)) :=
  if_pos h

theorem store_spec (dest : Text) (index : Nat) (s : Text)
    (h : index + s.length ≤ dest.length) :
    ∃ dest', store dest index s = some dest' ∧ dest'.length = dest.length ∧
      dest'.take (index + s.length) = dest.take index ++ s := by
  have hindex : (dest.take index).length = index := by
    rw [List.length_take]
    omega
  refine ⟨_, store_of_room h, ?_, ?_⟩
  · simp only [List.length_append, hindex, List.length_drop]
    omega
  · exact List.take_left' (by rw [List.length_append, hindex])

/-- The text as the rule has it is in the buffer at the index, with its terminator, and its length is
returned. -/
def CopiesUnescaped (uninit : Nat → Uninit) (source dest : Text) (index : Nat) : Prop :=
  unescapeStringCopyToDest uninit source dest index =
    some (dest.take index ++ (unescaped source ++ [nul]) ++
      dest.drop (index + (unescaped source ++ [nul]).length), (unescaped source).length)

/-- The rule is kept exactly for the texts without an invalid sequence. -/
theorem copiesUnescaped_iff (uninit : Nat → Uninit) (source dest : Text) (index : Nat)
    (hroom : index + source.length < dest.length) :
    CopiesUnescaped uninit source dest index ↔ EscapesValid source := by
  rw [← unescapeString_eq_unescaped_iff uninit index]
  have hle := unescapeString_length_le uninit index source
  rw [CopiesUnescaped, unescapeStringCopyToDest,
    store_of_room (by rw [List.length_append, List.length_singleton]; omega), Option.map_some]
  constructor
  · intro h
    obtain ⟨hdest, hlen⟩ := Prod.mk.inj (Option.some.inj h)
    have hstored := (List.append_inj hdest (by simp only [List.length_append, hlen])).1
    exact List.append_cancel_right (List.append_cancel_left hstored)
  · intro h
    rw [h]

/-- A text that ends in what is left of a sequence. -/
theorem copiesUnescaped_iff_cut :
    CopiesUnescaped (fun _ => (0, 0)) ['\\', 'x', '4', '1', '\\', 'x', '4']
        (List.replicate 8 'z') 0 ↔
      EscapesValid ['\\', 'x', '4', '1', '\\', 'x', '4'] :=
  copiesUnescaped_iff (fun _ => (0, 0)) _ _ 0 (by decide)

/-- Four characters that are no sequence become one byte. -/
theorem invalid_sequence_replaced :
    (∀ uninit, (unescapeStringCopyToDest uninit ['\\', 'x', 'z', 'z'] (List.replicate 8 'a') 0).map
        Prod.snd = some 1) ∧
      unescaped ['\\', 'x', 'z', 'z'] = ['\\', 'x', 'z', 'z'] ∧
      ∀ uninit, ¬ CopiesUnescaped uninit ['\\', 'x', 'z', 'z'] (List.replicate 8 'a') 0 := by
  have hlen (uninit : Nat → Uninit) :
      (unescapeStringCopyToDest uninit ['\\', 'x', 'z', 'z'] (List.replicate 8 'a') 0).map
        Prod.snd = some 1 := rfl
  refine ⟨hlen, by decide, fun uninit h => ?_⟩
  have hfour := (congrArg (Option.map Prod.snd) h).symm.trans (hlen uninit)
  exact absurd hfour (by decide)

end Zrt.Nvram
