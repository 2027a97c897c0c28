import Mathlib.Tactic.NormNum
import Zrt.Framework.Runs

/-!
# The cached time

Time is a cached value that every reading of it moves on by a microsecond and that sleeping moves
on by the time slept. Three calls read it, in different units.
-/

namespace Zrt.Zcalls

open Framework

structure Timeval where
  tvSec : Int
  tvUsec : Int
deriving DecidableEq, Repr

structure Timespec where
  tvSec : Int
  tvNsec : Int
deriving DecidableEq, Repr

/-- The seconds decide before the microseconds. -/
def Timeval.Le (a b : Timeval) : Prop :=
  a.tvSec < b.tvSec ∨ (a.tvSec = b.tvSec ∧ a.tvUsec ≤ b.tvUsec)

def Timespec.Le (a b : Timespec) : Prop :=
  a.tvSec < b.tvSec ∨ (a.tvSec = b.tvSec ∧ a.tvNsec ≤ b.tvNsec)

def Timeval.Normalized (t : Timeval) : Prop := 0 ≤ t.tvUsec ∧ t.tvUsec < 1000000

instance (a b : Timeval) : Decidable (a.Le b) := inferInstanceAs (Decidable (_ ∨ _))

instance (a b : Timespec) : Decidable (a.Le b) := inferInstanceAs (Decidable (_ ∨ _))

instance (t : Timeval) : Decidable t.Normalized := inferInstanceAs (Decidable (_ ∧ _))

def timeradd (a b : Timeval) : Timeval :=
  if a.tvUsec + b.tvUsec ≥ 1000000 then
    ⟨a.tvSec + b.tvSec + 1, a.tvUsec + b.tvUsec - 1000000⟩
  else ⟨a.tvSec + b.tvSec, a.tvUsec + b.tvUsec⟩

/-- No time at all counts as one microsecond. -/
def incrementCachedTime (cached : Timeval) (seconds microseconds : Int) : Timeval :=
  timeradd cached (if seconds ≠ 0 ∨ microseconds ≠ 0 then ⟨seconds, microseconds⟩ else ⟨0, 1⟩)

/-! ## Calls -/

/-- `errno` after a call without a place for its result. -/
inductive TimeErrno where
  | efault
deriving DecidableEq, Repr

/-- Whether `tvl` is null is an argument. -/
def prologGettod (cached : Timeval) (null : Bool) : Except TimeErrno Timeval × Timeval :=
  if null then (.error .efault, cached) else (.ok cached, incrementCachedTime cached 0 1)

def clocksPerSec : Int := 1000000

/-- `clock_t` has `width` bits. -/
def prologClock (width : Nat) (cached : Timeval) : Int × Timeval :=
  let ticks := (cached.tvSec * clocksPerSec).bmod (2 ^ width)
  ((ticks + cached.tvUsec * (clocksPerSec / 1000)).bmod (2 ^ width),
    incrementCachedTime cached 0 1)

/-- The time that remains is none. -/
def prologNanosleep (cached : Timeval) (req : Timespec) : Timespec × Timeval :=
  (⟨0, 0⟩, incrementCachedTime cached req.tvSec (req.tvNsec.tdiv 1000))

def prologGettime (cached : Timeval) : Timespec × Timeval :=
  (⟨cached.tvSec, cached.tvUsec * 1000⟩, incrementCachedTime cached 0 1)

/-- What may be asked of `nanosleep`. -/
structure SleepRequest extends Timespec where
  tvSec_nonneg : 0 ≤ tvSec
  tvNsec_nonneg : 0 ≤ tvNsec
  tvNsec_lt : tvNsec < 1000000000

inductive Call where
  | gettod (null : Bool)
  | gettime
  | clock
  | nanosleep (req : SleepRequest)

/-- The cached time after a call. -/
def Call.after (width : Nat) (cached : Timeval) : Call → Timeval
  | .gettod null => (prologGettod cached null).2
  | .gettime => (prologGettime cached).2
  | .clock => (prologClock width cached).2
  | .nanosleep req => (prologNanosleep cached req.toTimespec).2

def Call.tod (cached : Timeval) : Call → Option Timeval
  | .gettod null => (prologGettod cached null).1.toOption
  | _ => none

def Call.time (cached : Timeval) : Call → Option Timespec
  | .gettime => some (prologGettime cached).1
  | _ => none

/-- The cached time where it is the number of ticks that is asked for. -/
def Call.clockTime (cached : Timeval) : Call → Option Timeval
  | .clock => some cached
  | _ => none

def Call.ticks (width : Nat) (cached : Timeval) (c : Call) : Option Int :=
  (c.clockTime cached).map fun t => (prologClock width t).1

/-- What the calls of one kind report, in the order of the calls. -/
def reports {β : Type} (width : Nat) (report : Timeval → Call → Option β) (cached : Timeval)
    (calls : List Call) : List β :=
  (visits (Call.after width) cached calls).filterMap fun x => report x.2 x.1

/-- The cached time stays normalized, and no call reports less than it did before. -/
structure NeverBackwards (width : Nat) (cached : Timeval) (calls : List Call) : Prop where
  normalized : ∀ pre post, calls = pre ++ post →
    (pre.foldl (Call.after width) cached).Normalized
  tod : (reports width Call.tod cached calls).Pairwise Timeval.Le
  time : (reports width Call.time cached calls).Pairwise Timespec.Le
  ticks : (reports width (Call.ticks width) cached calls).Pairwise (· ≤ ·)

/-! ## Increments -/

theorem Timeval.Le.refl (t : Timeval) : t.Le t := Or.inr ⟨rfl, Int.le_refl _⟩

private theorem Timeval.Le.trans {a b c : Timeval} (hab : a.Le b) (hbc : b.Le c) : a.Le c := by
  simp only [Timeval.Le] at *
  omega

private theorem timeradd_normalized {a b : Timeval} (ha : a.Normalized) (hb : b.Normalized)
    (hsec : 0 ≤ b.tvSec) : (timeradd a b).Normalized ∧ a.Le (timeradd a b) := by
  simp only [Timeval.Normalized, Timeval.Le, timeradd] at *
  split
  · constructor
    · constructor <;> simp only <;> omega
    · exact Or.inl (by simp only; omega)
  · constructor
    · constructor <;> simp only <;> omega
    · by_cases hzero : b.tvSec = 0
      · exact Or.inr ⟨by simp only; omega, by simp only; omega⟩
      · exact Or.inl (by simp only; omega)

private theorem incrementCachedTime_normalized {cached : Timeval} {seconds microseconds : Int}
    (h : cached.Normalized) (hsec : 0 ≤ seconds) (husec : 0 ≤ microseconds)
    (hlt : microseconds < 1000000) :
    (incrementCachedTime cached seconds microseconds).Normalized ∧
      cached.Le (incrementCachedTime cached seconds microseconds) := by
  rw [incrementCachedTime]
  split
  · exact timeradd_normalized h ⟨husec, hlt⟩ hsec
  · exact timeradd_normalized h ⟨by decide, by decide⟩ (by decide)

theorem Call.after_normalized (width : Nat) {cached : Timeval} (h : cached.Normalized) (c : Call) :
    (c.after width cached).Normalized ∧ cached.Le (c.after width cached) := by
  have htick := incrementCachedTime_normalized h (Int.le_refl 0) Int.one_nonneg (by decide)
  cases c with
  | gettod null =>
      cases null with
      | false => exact htick
      | true => exact ⟨h, Timeval.Le.refl cached⟩
  | gettime => exact htick
  | clock => exact htick
  | nanosleep req =>
      have hnsec := req.tvNsec_nonneg
      have hlt := req.tvNsec_lt
      have hdiv : req.tvNsec.tdiv 1000 = req.tvNsec / 1000 := Int.tdiv_eq_ediv_of_nonneg hnsec
      exact incrementCachedTime_normalized h req.tvSec_nonneg (by omega) (by omega)

private theorem calls_normalized (width : Nat) (calls : List Call) {cached : Timeval}
    (h : cached.Normalized) : (calls.foldl (Call.after width) cached).Normalized := by
  induction calls generalizing cached with
  | nil => exact h
  | cons c calls ih => exact ih (c.after_normalized width h).1

/-! ## Readings -/

private theorem visits_le (width : Nat) (calls : List Call) {cached : Timeval} (h : cached.Normalized) :
    (visits (Call.after width) cached calls).Pairwise fun x y => x.2.Le y.2 := by
  have hnext : ∀ (t : Timeval) (c : Call), t.Normalized → (c.after width t).Normalized :=
    fun t c ht => (c.after_normalized width ht).1
  have hle : ∀ (t : Timeval) (c : Call), t.Normalized → t.Le (c.after width t) :=
    fun t c ht => (c.after_normalized width ht).2
  exact visits_pairwise Timeval.Le.refl (fun _ _ _ => Timeval.Le.trans) hnext hle calls cached h

theorem reports_pairwise {β : Type} (width : Nat) {report : Timeval → Call → Option β}
    {le : β → β → Prop} (calls : List Call) {cached : Timeval} (h : cached.Normalized)
    (hgrows : ∀ a b c d x y, a.Le b → report a c = some x → report b d = some y → le x y) :
    (reports width report cached calls).Pairwise le := by
  rw [reports, List.pairwise_filterMap]
  apply (visits_le width calls h).imp
  intro x y hle u hu v hv
  exact hgrows x.2 y.2 x.1 y.1 u v hle hu hv

private theorem Call.tod_eq {cached t : Timeval} {c : Call} (h : c.tod cached = some t) : t = cached := by
  cases c with
  | gettod null =>
      cases null with
      | false => exact (Option.some.inj h).symm
      | true => cases h
  | gettime => cases h
  | clock => cases h
  | nanosleep req => cases h

private theorem Call.time_eq {cached : Timeval} {t : Timespec} {c : Call} (h : c.time cached = some t) :
    t = ⟨cached.tvSec, cached.tvUsec * 1000⟩ := by
  cases c with
  | gettod null => cases h
  | gettime => exact (Option.some.inj h).symm
  | clock => cases h
  | nanosleep req => cases h

private theorem tod_pairwise (width : Nat) (calls : List Call) {cached : Timeval}
    (h : cached.Normalized) : (reports width Call.tod cached calls).Pairwise Timeval.Le := by
  apply reports_pairwise width calls h
  intro a b c d x y hle hx hy
  rw [Call.tod_eq hx, Call.tod_eq hy]
  exact hle

private theorem time_pairwise (width : Nat) (calls : List Call) {cached : Timeval}
    (h : cached.Normalized) : (reports width Call.time cached calls).Pairwise Timespec.Le := by
  apply reports_pairwise width calls h
  intro a b c d x y hle hx hy
  rw [Call.time_eq hx, Call.time_eq hy]
  simp only [Timeval.Le, Timespec.Le] at *
  omega

/-! ## Ticks -/

/-- How often the count of the ticks has left the values of `clock_t`. -/
def wraps (width : Nat) (t : Timeval) : Int :=
  (1000000 * t.tvSec + 1000 * t.tvUsec).bdiv (2 ^ width)

/-- Between two times the microseconds fall back by no more than the seconds make up for, and what
is lost whenever the count wraps is made up for as well. -/
def KeepsTicks (width : Nat) (a b : Timeval) : Prop :=
  1000 * (a.tvUsec - b.tvUsec) + 2 ^ width * (wraps width b - wraps width a) ≤
    1000000 * (b.tvSec - a.tvSec)

instance (width : Nat) (a b : Timeval) : Decidable (KeepsTicks width a b) :=
  inferInstanceAs (Decidable (_ ≤ _))

private theorem prologClock_ticks (width : Nat) (t : Timeval) :
    (prologClock width t).1 =
      1000000 * t.tvSec + 1000 * t.tvUsec - 2 ^ width * wraps width t := by
  have hsum : t.tvSec * clocksPerSec + t.tvUsec * (clocksPerSec / 1000) =
      1000000 * t.tvSec + 1000 * t.tvUsec := by
    have hunit : clocksPerSec / 1000 = 1000 := by decide
    rw [hunit, clocksPerSec]
    omega
  rw [prologClock, Int.bmod_add_bmod, hsum, Int.bmod_eq_self_sub_mul_bdiv, wraps]
  push_cast
  rfl

private theorem prologClock_le_iff (width : Nat) (a b : Timeval) :
    (prologClock width a).1 ≤ (prologClock width b).1 ↔ KeepsTicks width a b := by
  have hlost := Int.mul_sub (2 ^ width) (wraps width b) (wraps width a)
  rw [prologClock_ticks, prologClock_ticks, KeepsTicks, hlost]
  omega

private theorem ticks_pairwise_iff (width : Nat) (calls : List Call) (cached : Timeval) :
    (reports width (Call.ticks width) cached calls).Pairwise (· ≤ ·) ↔
      (reports width Call.clockTime cached calls).Pairwise (KeepsTicks width) := by
  have hmap : reports width (Call.ticks width) cached calls =
      (reports width Call.clockTime cached calls).map fun t => (prologClock width t).1 := by
    rw [reports, reports, List.map_filterMap]
    rfl
  rw [hmap, List.pairwise_map]
  simp only [prologClock_le_iff]

/-- Time runs backwards for `clock` only. -/
theorem neverBackwards_iff (width : Nat) (cached : Timeval) (calls : List Call)
    (h : cached.Normalized) :
    NeverBackwards width cached calls ↔
      (reports width Call.clockTime cached calls).Pairwise (KeepsTicks width) := by
  rw [← ticks_pairwise_iff]
  constructor
  · exact fun hall => hall.ticks
  · intro hticks
    exact ⟨fun pre post _ => calls_normalized width pre h, tod_pairwise width calls h,
      time_pairwise width calls h, hticks⟩

/-- A whole second passes between two readings of the clock. -/
theorem wholeSecond_neverBackwards :
    NeverBackwards 32 ⟨0, 500⟩
      [.clock, .nanosleep ⟨⟨1, 0⟩, by decide, by decide, by decide⟩, .gettod false, .clock] :=
  (neverBackwards_iff 32 ⟨0, 500⟩ _ (by decide)).mpr (by decide)

/-- Two readings around the end of a second, with a short and with a long `clock_t`. -/
theorem secondBoundary_backwards : ¬ NeverBackwards 32 ⟨0, 999999⟩ [.clock, .clock] ∧
    ¬ NeverBackwards 64 ⟨0, 999999⟩ [.clock, .clock] := by
  constructor
  · intro h
    have hticks := h.ticks
    revert hticks
    decide
  · intro h
    have hticks := h.ticks
    revert hticks
    decide

end Zrt.Zcalls
