import Mathlib.Data.Nat.Digits.Defs
import Mathlib.Tactic.Ring

/-!
# Decimal conversion

The conversion of a string to `uint` goes over the characters from the right with a running power
of the base. Powers and products wrap at 32 bits, and only the sum is checked.
-/

namespace Zrt.Helpers

/-- The value of a character as a digit. -/
def digitValue (c : UInt8) : Nat := c.toNat - 48

/-- The characters from the right; what is no digit is passed over. `none` where the sum would
exceed `UINT_MAX`. -/
def strtouintDigits (base : UInt32) : List UInt8 → UInt32 → UInt32 → Option UInt32
  | [], res, _ => some res
  | c :: rest, res, append =>
      if 48 ≤ c ∧ c ≤ 57 then
        let delta := append * UInt32.ofNat (digitValue c)
        if ¬ delta > 0xFFFFFFFF - res then
          strtouintDigits base rest (res + delta) (append * base)
        else none
      else strtouintDigits base rest res append

/-- The length of a string is kept in an `int`. -/
def numlen (str : List UInt8) : Int := Int.bmod str.length 4294967296

private theorem numlen_of_lt {str : List UInt8} (h : str.length < 2 ^ 31) :
    (numlen str).toNat = str.length := by
  have hint : numlen str = str.length := Int.bmod_eq_of_le (by omega) (by omega)
  rw [hint, Int.toNat_natCast]

private theorem numlen_of_le {str : List UInt8} (h : 2 ^ 31 ≤ str.length) (hlt : str.length < 2 ^ 32) :
    (numlen str).toNat = 0 := by
  have hint : numlen str = str.length - 4294967296 := by
    unfold numlen
    rw [Int.bmod_eq_iff (by omega)]
    omega
  rw [hint]
  omega

/-- The result, and what `err` points to. -/
def resultAndErr (err : Int) : Option UInt32 → UInt32 × Int
  | some res => (res, err)
  | none => (0, 1)

def strtouintNolocale (str : List UInt8) (base : UInt32) (err : Int) : UInt32 × Int :=
  resultAndErr err (strtouintDigits base (str.take (numlen str).toNat).reverse 0 1)

/-! ## Digits reduced to 32 bits -/

/-- What the digits contribute when each contribution is reduced to 32 bits. -/
def digitResidues (weight : Nat) : List Nat → Nat
  | [] => 0
  | d :: ds => weight * d % 2 ^ 32 + digitResidues (weight * 10) ds

/-- How many multiples of `2 ^ 32` the reductions take away. -/
def digitOverflows (weight : Nat) : List Nat → Nat
  | [] => 0
  | d :: ds => weight * d / 2 ^ 32 + digitOverflows (weight * 10) ds

theorem weight_mul_ofDigits (weight : Nat) (ds : List Nat) :
    weight * Nat.ofDigits 10 ds = 2 ^ 32 * digitOverflows weight ds + digitResidues weight ds := by
  induction ds generalizing weight with
  | nil => simp [digitOverflows, digitResidues]
  | cons d ds ih =>
      have hsplit := Nat.div_add_mod (weight * d) (2 ^ 32)
      calc weight * Nat.ofDigits 10 (d :: ds)
          = weight * d + weight * 10 * Nat.ofDigits 10 ds := by
            rw [Nat.ofDigits_cons]
            ring
        _ = 2 ^ 32 * digitOverflows weight (d :: ds) + digitResidues weight (d :: ds) := by
            rw [ih, digitOverflows, digitResidues, Nat.mul_add]
            omega

/-- The sum of the residues exceeds 32 bits where the whole number overflows more often than its
digits do. -/
private theorem digitResidues_lt_iff (ds : List Nat) :
    digitResidues 1 ds < 2 ^ 32 ↔ Nat.ofDigits 10 ds / 2 ^ 32 ≤ digitOverflows 1 ds := by
  have hsum := weight_mul_ofDigits 1 ds
  rw [Nat.one_mul] at hsum
  rw [hsum, Nat.mul_add_div (by decide)]
  omega

private theorem digitResidues_eq_of_lt {ds : List Nat} (h : Nat.ofDigits 10 ds < 2 ^ 32) :
    digitResidues 1 ds = Nat.ofDigits 10 ds := by
  have hsum := weight_mul_ofDigits 1 ds
  rw [Nat.one_mul] at hsum
  omega

/-! ## The loop -/

private theorem toNat_append_mul {append : UInt32} {weight n : Nat}
    (h : append.toNat = weight % 2 ^ 32) :
    (append * UInt32.ofNat n).toNat = weight * n % 2 ^ 32 := by
  rw [UInt32.toNat_mul, UInt32.toNat_ofNat', h, ← Nat.mul_mod]

private theorem strtouintDigits_eq (cs : List UInt8) (hdigit : ∀ c ∈ cs, 48 ≤ c ∧ c ≤ 57)
    (res append : UInt32) (weight : Nat) (happend : append.toNat = weight % 2 ^ 32) :
    strtouintDigits 10 cs res append =
      if res.toNat + digitResidues weight (cs.map digitValue) < 2 ^ 32 then
        some (UInt32.ofNat (res.toNat + digitResidues weight (cs.map digitValue)))
      else none := by
  induction cs generalizing res append weight with
  | nil => simp [strtouintDigits, digitResidues, res.toNat_lt]
  | cons c cs ih =>
      have hdelta := toNat_append_mul (n := digitValue c) happend
      have hnext : (append * 10).toNat = weight * 10 % 2 ^ 32 := toNat_append_mul (n := 10) happend
      have hmax : (0xFFFFFFFF - res).toNat = 2 ^ 32 - 1 - res.toNat := by
        have hlt := res.toNat_lt
        rw [UInt32.toNat_sub_of_le _ _ (UInt32.le_iff_toNat_le.mpr (by simp; omega))]
        rfl
      rw [strtouintDigits, if_pos (hdigit c List.mem_cons_self), List.map_cons, digitResidues]
      simp only [gt_iff_lt, UInt32.lt_iff_toNat_lt, hdelta, hmax]
      have hlt := res.toNat_lt
      by_cases hroom : res.toNat + weight * digitValue c % 2 ^ 32 < 2 ^ 32
      · have hsum : (res + append * UInt32.ofNat (digitValue c)).toNat =
            res.toNat + weight * digitValue c % 2 ^ 32 := by
          rw [UInt32.toNat_add, hdelta, Nat.mod_eq_of_lt hroom]
        rw [if_pos (by omega), ih (fun x hx => hdigit x (List.mem_cons_of_mem c hx)) _ _ _ hnext,
          hsum, Nat.add_assoc]
      · rw [if_neg (by omega), if_neg (by omega)]

/-! ## Strings of digits -/

/-- A string of decimal digits whose length is a `size_t`. -/
structure DecimalString where
  chars : List UInt8
  digit : ∀ c ∈ chars, 48 ≤ c ∧ c ≤ 57
  length_lt : chars.length < 2 ^ 32

namespace DecimalString

/-- The digits from the right. -/
def digits (s : DecimalString) : List Nat := s.chars.reverse.map digitValue

def value (s : DecimalString) : Nat := Nat.ofDigits 10 s.digits

/-- The value where it fits, and an error elsewhere. -/
def Converts (s : DecimalString) : Prop :=
  ∀ err, strtouintNolocale s.chars 10 err =
    if s.value < 2 ^ 32 then (UInt32.ofNat s.value, err) else (0, 1)

private theorem strtouintNolocale_short (s : DecimalString) (hlen : s.chars.length < 2 ^ 31) (err : Int) :
    strtouintNolocale s.chars 10 err =
      if digitResidues 1 s.digits < 2 ^ 32 then (UInt32.ofNat (digitResidues 1 s.digits), err)
      else (0, 1) := by
  have hnumlen := numlen_of_lt hlen
  have hloop := strtouintDigits_eq s.chars.reverse
    (fun c hc => s.digit c (List.mem_reverse.mp hc)) 0 1 1 (by simp)
  rw [UInt32.toNat_zero, Nat.zero_add] at hloop
  rw [strtouintNolocale, hnumlen, List.take_length, hloop, ← digits]
  by_cases hfits : digitResidues 1 s.digits < 2 ^ 32
  · rw [if_pos hfits, if_pos hfits, resultAndErr]
  · rw [if_neg hfits, if_neg hfits, resultAndErr]

private theorem strtouintNolocale_long (s : DecimalString) (hlen : 2 ^ 31 ≤ s.chars.length) (err : Int) :
    strtouintNolocale s.chars 10 err = (0, err) := by
  have hnumlen := numlen_of_le hlen s.length_lt
  rw [strtouintNolocale, hnumlen]
  rfl

/-- Overflow is seen when it does not come from single digits only. -/
theorem converts_iff (s : DecimalString) :
    s.Converts ↔ if s.chars.length < 2 ^ 31 then
      s.value < 2 ^ 32 ∨ digitOverflows 1 s.digits < s.value / 2 ^ 32
    else s.value = 0 := by
  by_cases hlen : s.chars.length < 2 ^ 31
  · rw [if_pos hlen]
    have hseen := digitResidues_lt_iff s.digits
    constructor
    · intro h
      by_contra hno
      have hlarge : ¬ s.value < 2 ^ 32 := fun hlt => hno (.inl hlt)
      have hunseen : digitResidues 1 s.digits < 2 ^ 32 :=
        hseen.mpr (Nat.le_of_not_lt fun hlt => hno (.inr hlt))
      have hzero := h 0
      rw [s.strtouintNolocale_short hlen, if_pos hunseen, if_neg hlarge, Prod.mk.injEq] at hzero
      exact absurd hzero.2 (by decide)
    · intro h err
      rw [s.strtouintNolocale_short hlen]
      by_cases hfits : s.value < 2 ^ 32
      · have hres : digitResidues 1 s.digits = s.value := digitResidues_eq_of_lt hfits
        rw [hres]
      · have hmore := h.resolve_left hfits
        rw [if_neg hfits, if_neg fun hlt => absurd (hseen.mp hlt) (Nat.not_le_of_lt hmore)]
  · rw [if_neg hlen]
    have hlong := s.strtouintNolocale_long (Nat.le_of_not_lt hlen)
    constructor
    · intro h
      have hzero := h 0
      rw [hlong] at hzero
      by_cases hfits : s.value < 2 ^ 32
      · rw [if_pos hfits] at hzero
        have hnat := congrArg UInt32.toNat (congrArg Prod.fst hzero)
        rw [UInt32.toNat_ofNat', Nat.mod_eq_of_lt hfits] at hnat
        exact hnat.symm
      · rw [if_neg hfits, Prod.mk.injEq] at hzero
        exact absurd hzero.2 (by decide)
    · intro h err
      rw [hlong, h]
      rfl

/-- The digits of five thousand million. -/
def fiveBillion : DecimalString where
  chars := [53, 48, 48, 48, 48, 48, 48, 48, 48, 48]
  digit := List.forall_mem_iff_forall_getElem.mpr (by decide)
  length_lt := by decide

theorem fiveBillion_not_converts :
    strtouintNolocale fiveBillion.chars 10 0 = (705032704, 0) ∧ ¬ fiveBillion.Converts := by
  have hrun : strtouintNolocale fiveBillion.chars 10 0 = (705032704, 0) := by decide
  refine ⟨hrun, ?_⟩
  intro h
  have hzero := h 0
  rw [hrun] at hzero
  revert hzero
  decide

end DecimalString

end Zrt.Helpers
