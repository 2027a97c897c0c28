import Zrt.Fs.FuseHandshake

/-!
# What a step of the mounting threads does

While the threads agree, a step is one of a few. Every step keeps the agreement, or touches a record
that has been freed.
-/

namespace Zrt.Fs.FuseGlue

open Zrt.Framework

variable {σ : Type}

/-- Woken up if asleep at the record. -/
def MainPoint.awakeAt (m : MainPoint) (j : Nat) : MainPoint := if m.sleepsAt j then m.awake else m

/-- At most the thread of one file system has been woken up. -/
def Awoken (w v : World σ) : Prop := v = w ∨ ∃ t, v = w.wake (.fs t)

def World.update (w : World σ) (t : Nat) (v : CondValue) (p : FsPoint) : World σ :=
  { w with
    data := w.data.modify t fun d => { d with condValue := v, thread := p }
    main := w.main.awakeAt t }

/-- The steps of threads that agree. -/
inductive Effect (calls : MountCalls σ) (w : World σ) : Action → World σ → Prop
  | exec {mountpoint : Text} (hmain : w.main = .ready) :
      Effect calls w (.main (.execFuseMain mountpoint true))
        { w with
          data := w.data ++ [⟨mountpoint, .waitingInitialization, false, .started⟩]
          main := .waits ⟨w.data.length, .initializationError, false⟩ }
  | execFailed {mountpoint : Text} (hmain : w.main = .ready) :
      Effect calls w (.main (.execFuseMain mountpoint false))
        { w with
          data := w.data ++ [⟨mountpoint, .waitingInitialization, false, .gone⟩]
          answers := w.answers ++ [-1] }
  | mainSleeps {x : Wait} {d : LockData} {woken : Option Party} (hmain : w.main = .waits x)
      (hd : w.data[x.index]? = some d) (hval : d.condValue = .waitingInitialization)
      (hexp : x.expected = .initializationError) (hasleep : x.asleep = false) :
      Effect calls w (.main (.test woken)) (w.setMain (.waits { x with asleep := true }))
  | mainSees {x : Wait} {d : LockData} {woken : Option Party} {v : World σ}
      (hmain : w.main = .waits x) (hd : w.data[x.index]? = some d)
      (hval : d.condValue ≠ .waitingInitialization) (hexp : x.expected = .initializationError)
      (hv : Awoken w v) :
      Effect calls w (.main (.test woken)) (v.setMain (.matchesError x.index))
  | mainDone {x : Wait} {d : LockData} {woken : Option Party} {v : World σ}
      (hmain : w.main = .waits x) (hd : w.data[x.index]? = some d)
      (hval : d.condValue = .initialized) (hexp : x.expected = .initialized) (hv : Awoken w v) :
      Effect calls w (.main (.test woken)) { v with main := .ready, answers := v.answers ++ [0] }
  | matchFails {j : Nat} {d : LockData} (hmain : w.main = .matchesError j)
      (hd : w.data[j]? = some d) (hval : d.condValue = .initializationError) :
      Effect calls w (.main .matchError) { w with main := .ready, answers := w.answers ++ [-1] }
  | matchGoes {j : Nat} {d : LockData} (hmain : w.main = .matchesError j)
      (hd : w.data[j]? = some d) (hval : d.condValue = .initialized) :
      Effect calls w (.main .matchError) (w.setMain (.waits ⟨j, .initialized, false⟩))
  | terminate (hmain : w.main = .ready) :
      Effect calls w (.main .terminate) (w.setMain (.terminates 0))
  | finish {i : Nat} {woken : Option Party} (hmain : w.main = .terminates i)
      (hi : w.data.length ≤ i) : Effect calls w (.main (.release woken)) (w.setMain .finished)
  | leaves {i : Nat} {d : LockData} {woken : Option Party} (hmain : w.main = .terminates i)
      (hd : w.data[i]? = some d)
      (hval : d.condValue = .waitingInitialization ∨ d.condValue = .initializationError) :
      Effect calls w (.main (.release woken)) (w.setMain (.removes i))
  | releases {i : Nat} {d : LockData} {woken : Option Party} {x : Wait}
      (hmain : w.main = .terminates i) (hd : w.data[i]? = some d) (hval : d.condValue = .initialized)
      (hthread : d.thread = .waits x) :
      Effect calls w (.main (.release woken))
        { w with
          data := w.data.modify i fun d =>
            { d with condValue := .waitingFinalization, thread := d.thread.awake }
          main := .removes i }
  | removes {i : Nat} {d : LockData} (hmain : w.main = .removes i) (hd : w.data[i]? = some d) :
      Effect calls w (.main (.remove true))
        { w with
          data := w.data.modify i fun d => { d with freed := true }
          main := .terminates (i + 1)
          mounts := calls.mountRemove w.mounts d.mountpoint }
  | mkpath {t : Nat} {d : LockData} (hd : w.data[t]? = some d) (hp : d.thread = .started) :
      Effect calls w (.fs t .mkpath)
        { w.setThread t (.inMain none) with mounts := calls.mkpath w.mounts d.mountpoint }
  | fuseMain {t : Nat} {d : LockData} (hd : w.data[t]? = some d) (hp : d.thread = .inMain none) :
      Effect calls w (.fs t (.fuseMain d.mountpoint)) (w.setThread t (.mounts t d.mountpoint))
  | mount {t : Nat} {d : LockData} (hd : w.data[t]? = some d)
      (hp : d.thread = .mounts t d.mountpoint) :
      Effect calls w (.fs t .mount)
        { w.setThread t (.reports t (calls.mountFuseFs w.mounts d.mountpoint).1) with
          mounts := (calls.mountFuseFs w.mounts d.mountpoint).2 }
  | reportError {t : Nat} {d : LockData} {r : Int} {woken : Option Party}
      (hd : w.data[t]? = some d) (hp : d.thread = .reports t r) (hr : r ≠ 0) :
      Effect calls w (.fs t (.report woken))
        (w.update t .initializationError (.inMain (some r)))
  | reportDone {t : Nat} {d : LockData} {woken : Option Party}
      (hd : w.data[t]? = some d) (hp : d.thread = .reports t 0) :
      Effect calls w (.fs t (.report woken))
        (w.update t .initialized (.waits ⟨t, .waitingFinalization, false⟩))
  | fsSleeps {t : Nat} {d : LockData} {x : Wait} {woken : Option Party}
      (hd : w.data[t]? = some d) (hp : d.thread = .waits x) (hval : d.condValue = .initialized)
      (hasleep : x.asleep = false) :
      Effect calls w (.fs t (.test woken)) (w.setThread t (.waits { x with asleep := true }))
  | fsSees {t : Nat} {d : LockData} {x : Wait} {woken : Option Party}
      (hd : w.data[t]? = some d) (hp : d.thread = .waits x)
      (hval : d.condValue = .waitingFinalization) :
      Effect calls w (.fs t (.test woken)) (w.setThread t (.inMain (some 0)))
  | givesUp {t : Nat} {d : LockData} {r : Int} (hd : w.data[t]? = some d)
      (hp : d.thread = .inMain none) (hr : r ≠ 0) :
      Effect calls w (.fs t (.returns r)) (w.setThread t (.ends r))
  | returns {t : Nat} {d : LockData} {r : Int} (hd : w.data[t]? = some d)
      (hp : d.thread = .inMain (some r)) :
      Effect calls w (.fs t (.returns r)) (w.setThread t (.ends r))
  | finishError {t : Nat} {d : LockData} {r : Int} {woken : Option Party}
      (hd : w.data[t]? = some d) (hfreed : d.freed = false) (hp : d.thread = .ends r) (hr : r ≠ 0) :
      Effect calls w (.fs t (.finish woken)) (w.update t .initializationError .gone)
  | finishDone {t : Nat} {d : LockData} {woken : Option Party}
      (hd : w.data[t]? = some d) (hfreed : d.freed = false) (hp : d.thread = .ends 0) :
      Effect calls w (.fs t (.finish woken)) (w.update t .waitingFinalization .gone)
  | spurious (p : Party) : Effect calls w (.spurious p) (w.wake p)

variable {calls : MountCalls σ} {w w' : World σ} {t j : Nat} {d : LockData}

/-! ## Every step is one of them -/

theorem World.sleeps_setCondValue (w : World σ) (i j : Nat) (v : CondValue) (p : Party) :
    (w.setCondValue i v).sleeps j p = w.sleeps j p := by
  cases p with
  | main => rfl
  | fs t =>
      simp only [World.sleeps, World.getElem?_setCondValue]
      split
      · cases w.data[t]? <;> rfl
      · rfl

namespace Handshake

private theorem signal_main (h : Handshake w) (hd : w.data[j]? = some d)
    (hno : d.thread.sleepsAt j = false) {v : CondValue} {woken : Option Party}
    (hs : (w.setCondValue j v).signal j woken = some w') :
    w' = { w.setCondValue j v with main := w.main.awakeAt j } := by
  rcases World.signal_cases hs with ⟨rfl, hmain, -⟩ | ⟨p, hp, rfl⟩
  · rw [World.main_setCondValue] at hmain
    rw [MainPoint.awakeAt, if_neg (by simp [hmain])]
    rfl
  · rw [World.sleeps_setCondValue] at hp
    cases p with
    | main =>
        have hmain : w.main.sleepsAt j = true := hp
        rw [MainPoint.awakeAt, if_pos hmain]
        rfl
    | fs t =>
        simp only [World.sleeps] at hp
        cases ht : w.data[t]? with
        | none => simp [ht] at hp
        | some e =>
            simp only [ht, Option.any_some] at hp
            obtain ⟨rfl, -⟩ := h.sleepsAt_index ht hp
            rw [hd, Option.some.injEq] at ht
            rw [ht] at hno
            rw [hno] at hp
            cases hp

private theorem signal_awoken {woken : Option Party} (hmain : w.main.sleepsAt j = false)
    (hs : w.signal j woken = some w') : Awoken w w' := by
  rcases World.signal_cases hs with ⟨rfl, -, -⟩ | ⟨p, hp, rfl⟩
  · exact Or.inl rfl
  · cases p with
    | main =>
        rw [World.sleeps, hmain] at hp
        cases hp
    | fs t => exact Or.inr ⟨t, rfl⟩

theorem match_own (h : Handshake w) (hd : w.data[t]? = some d) (hfreed : d.freed = false) :
    w.matchMountDataByMountpoint d.mountpoint = some t := by
  obtain ⟨hlt, hget⟩ := List.getElem?_eq_some_iff.mp hd
  rw [World.matchMountDataByMountpoint, List.findIdx?_eq_some_iff_getElem]
  refine ⟨hlt, by simp [hget, hfreed], fun u hu => ?_⟩
  have hne : w.data[u].mountpoint ≠ d.mountpoint := by
    intro heq
    have hinj := List.nodup_iff_injective_getElem.mp h.names
    have hfin : (⟨u, by rw [List.length_map]; omega⟩ : Fin (w.data.map LockData.mountpoint).length) =
        ⟨t, by rw [List.length_map]; exact hlt⟩ := by
      apply hinj
      simpa [hget] using heq
    simp only [Fin.mk.injEq] at hfin
    omega
  simp [hne]

/-- Some record has been freed. -/
def SomeFreed (w : World σ) : Prop := ∃ (t : Nat) (d : LockData), w.data[t]? = some d ∧ d.freed = true

/-- A record has been freed, or zrt is about to free one. -/
def Frees (w : World σ) : Prop := SomeFreed w ∨ ∃ i, w.main = .removes i

theorem freed_of_lockData_none (hd : w.data[j]? = some d) (h : w.lockData j = none) :
    SomeFreed w := by
  refine ⟨j, d, hd, ?_⟩
  cases hf : d.freed with
  | true => rfl
  | false =>
      rw [World.lockData_of_not_freed hd hf] at h
      cases h

theorem lockData_current (h : Handshake w) (hd : w.data[j]? = some d)
    (hnot : ¬Removed w.main j) : w.lockData j = some d := by
  apply World.lockData_of_not_freed hd
  cases hf : d.freed with
  | false => rfl
  | true => exact absurd ((h.freed j d hd).mp hf) hnot

private theorem not_final (h : Handshake w) (hd : w.data[j]? = some d) (hnot : ¬Released w.main j) :
    d.condValue ≠ .waitingFinalization := by
  intro hval
  have hthread := h.threads j d hd
  unfold ThreadOk at hthread
  split at hthread <;> simp_all

theorem waits_of_initialized (h : Handshake w) (hd : w.data[j]? = some d)
    (hval : d.condValue = .initialized) : ∃ x, d.thread = .waits x ∧ x.index = j := by
  have hthread := h.threads j d hd
  unfold ThreadOk at hthread
  split at hthread <;> simp_all

private theorem signal_thread (h : Handshake w) (hd : w.data[j]? = some d) {x : Wait}
    (hp : d.thread = .waits x) (hindex : x.index = j) (hmain : w.main.sleepsAt j = false) {v : CondValue}
    {woken : Option Party} (hs : (w.setCondValue j v).signal j woken = some w') :
    w' = { w with data := w.data.modify j fun d =>
      { d with condValue := v, thread := d.thread.awake } } := by
  rcases World.signal_cases hs with ⟨rfl, -, hnone⟩ | ⟨p, hsleeps, rfl⟩
  · have hawake : d.thread.awake = d.thread := by
      have hno := hnone j { d with condValue := v } (by
        rw [World.getElem?_setCondValue, if_pos rfl, hd, Option.map_some])
      simp only [hp, FsPoint.sleepsAt, Wait.sleepsAt, hindex, beq_self_eq_true, Bool.and_true] at hno
      rw [hp, FsPoint.awake, Wait.awake, ← hno]
    simp only [World.setCondValue]
    congr 1
    apply List.ext_getElem?
    intro u
    rw [List.getElem?_modify, List.getElem?_modify]
    by_cases hu : j = u
    · subst hu
      simp [hd, hawake]
    · simp [hu]
  · rw [World.sleeps_setCondValue] at hsleeps
    cases p with
    | main =>
        rw [World.sleeps, hmain] at hsleeps
        cases hsleeps
    | fs t =>
        simp only [World.sleeps] at hsleeps
        cases ht : w.data[t]? with
        | none => simp [ht] at hsleeps
        | some e =>
            simp only [ht, Option.any_some] at hsleeps
            obtain ⟨rfl, -⟩ := h.sleepsAt_index ht hsleeps
            simp only [World.setCondValue, World.wake, List.modify_modify_eq]
            rfl

private theorem mainStep_effect (h : Handshake w) {a : MainAction} (ha : Orderly w (.main a))
    (hs : mainStep calls w a = some w') :
    Effect calls w (.main a) w' ∨ w'.aborted = true ∧ ∃ i, w.main = .removes i := by
  have hmain := h.main
  unfold mainStep at hs
  split at hs
  · rename_i mountpoint created hm
    simp only [Orderly] at ha
    rw [List.take_of_length_le (Nat.le_of_lt ha.1)] at hs
    cases created with
    | true =>
        cases hs
        exact Or.inl (.exec hm)
    | false =>
        cases hs
        exact Or.inl (.execFailed hm)
  · rename_i x woken hm
    rw [hm] at hmain
    split at hs
    · cases hs
    · rename_i hawake
      rw [Bool.not_eq_true] at hawake
      have hlt : x.index < w.data.length := by
        have hlen := hmain.1
        omega
      have hd := List.getElem?_eq_getElem hlt
      generalize w.data[x.index] = d at hd
      have hcur := hmain.2 x.index d hd
      rw [if_pos rfl] at hcur
      have hlock := lockData_current h hd (by rw [hm]; exact id)
      simp only [World.testCondValue, hlock] at hs
      have hnosleep : w.main.sleepsAt x.index = false := by
        rw [hm]
        simp [MainPoint.sleepsAt, Wait.sleepsAt, hawake]
      rcases hcur.2 with ⟨hexp, -⟩ | ⟨hexp, -, hval⟩
      · by_cases hval : d.condValue = .waitingInitialization
        · have hlow : d.condValue.toNat < x.expected.toNat := by
            rw [hval, hexp]
            decide
          rw [if_pos hlow] at hs
          cases hs
          exact Or.inl (.mainSleeps hm hd hval hexp hawake)
        · rw [hexp, if_neg (by cases hv : d.condValue <;> simp_all [CondValue.toNat])] at hs
          obtain ⟨v, hv, rfl⟩ := Option.map_eq_some_iff.mp hs
          exact Or.inl (.mainSees hm hd hval hexp (signal_awoken hnosleep hv))
      · rw [hval, hexp, if_neg (by decide)] at hs
        obtain ⟨v, hv, rfl⟩ := Option.map_eq_some_iff.mp hs
        exact Or.inl (.mainDone hm hd hval hexp (signal_awoken hnosleep hv))
  · rename_i j hm
    rw [hm] at hmain
    have hlt : j < w.data.length := by
      have hlen := hmain.1
      omega
    have hd := List.getElem?_eq_getElem hlt
    generalize w.data[j] = d at hd
    have hcur := hmain.2 j d hd
    rw [if_pos rfl] at hcur
    rw [lockData_current h hd (by rw [hm]; exact id)] at hs
    simp only at hs
    split at hs
    · rename_i hval
      cases hs
      exact Or.inl (.matchFails hm hd hval)
    · rename_i hval
      cases hs
      refine Or.inl (.matchGoes hm hd ?_)
      have hfinal := not_final h hd (by rw [hm]; exact id)
      cases hv : d.condValue <;> simp_all
  · rename_i hm
    cases hs
    exact Or.inl (.terminate hm)
  · rename_i i woken hm
    split at hs
    · rename_i hi
      cases hs
      exact Or.inl (.finish hm hi)
    · rename_i hi
      have hd := List.getElem?_eq_getElem (Nat.lt_of_not_le hi)
      generalize w.data[i] = d at hd
      have hnotremoved : ¬Removed w.main i := by
        rw [hm]
        exact Nat.lt_irrefl i
      have hfinal := not_final h hd (by rw [hm]; exact Nat.lt_irrefl i)
      rw [lockData_current h hd hnotremoved] at hs
      simp only at hs
      split at hs
      · rename_i hge
        have hval : d.condValue = .initialized := by
          cases hv : d.condValue <;> simp_all [CondValue.toNat]
        obtain ⟨x, hp, hindex⟩ := h.waits_of_initialized hd hval
        obtain ⟨v, hv, rfl⟩ := Option.map_eq_some_iff.mp hs
        rw [World.updateCondValue, lockData_current h hd hnotremoved] at hv
        have hwoken := h.signal_thread hd hp hindex (by rw [hm]; rfl) hv
        rw [hwoken]
        exact Or.inl (.releases hm hd hval hp)
      · rename_i hlow
        cases hs
        refine Or.inl (.leaves hm hd ?_)
        cases hv : d.condValue <;> simp_all [CondValue.toNat]
  · rename_i i kept hm
    split at hs
    · rename_i hnone
      cases hd : w.data[i]? with
      | none =>
          rw [hm] at hmain
          exact absurd (List.getElem?_eq_none_iff.mp hd) (Nat.not_le_of_lt hmain.1)
      | some d =>
          rw [lockData_current h hd (by rw [hm]; exact Nat.lt_irrefl i)] at hnone
          cases hnone
    · rename_i d hsome
      split at hs
      · rename_i hkept
        cases hs
        rw [hkept]
        exact Or.inl (.removes hm (World.lockData_eq_some.mp hsome).1)
      · cases hs
        exact Or.inr ⟨rfl, i, hm⟩
  · cases hs

private theorem updateCondValue_cases (h : Handshake w) (hd : w.data[t]? = some d)
    (hno : d.thread.sleepsAt t = false) {v : CondValue} {p : FsPoint} {woken : Option Party}
    (hs : (w.updateCondValue t v woken).map (fun w => w.setThread t p) = some w') :
    w' = w.update t v p ∧ d.freed = false ∨ w'.aborted = true ∧ SomeFreed w := by
  obtain ⟨u, hu, rfl⟩ := Option.map_eq_some_iff.mp hs
  unfold World.updateCondValue at hu
  split at hu
  · rename_i hnone
    cases hu
    exact Or.inr ⟨rfl, freed_of_lockData_none hd hnone⟩
  · rename_i d' hsome
    obtain ⟨hd', hfreed⟩ := World.lockData_eq_some.mp hsome
    rw [hd, Option.some.injEq] at hd'
    subst hd'
    refine Or.inl ⟨?_, hfreed⟩
    rw [h.signal_main hd hno hu, World.update, World.setThread, World.setCondValue]
    simp only [List.modify_modify_eq]
    rfl

private theorem signal_released (h : Handshake w) (hd : w.data[j]? = some d)
    (hval : d.condValue = .waitingFinalization) (hreleased : Released w.main j)
    {woken : Option Party} (hs : w.signal j woken = some w') : w' = w := by
  rcases World.signal_cases hs with ⟨rfl, -, -⟩ | ⟨p, hsleeps, rfl⟩
  · rfl
  · exfalso
    cases p with
    | main =>
        cases hm : w.main with
        | waits x =>
            rw [hm] at hreleased
            exact hreleased
        | _ => simp [World.sleeps, hm, MainPoint.sleepsAt] at hsleeps
    | fs t =>
        simp only [World.sleeps] at hsleeps
        cases ht : w.data[t]? with
        | none => simp [ht] at hsleeps
        | some e =>
            simp only [ht, Option.any_some] at hsleeps
            obtain ⟨rfl, hinit, -⟩ := h.sleepsAt_index ht hsleeps
            rw [hd, Option.some.injEq] at ht
            subst ht
            rw [hval] at hinit
            cases hinit

private theorem fsStep_effect (h : Handshake w) (hd : w.data[t]? = some d) {a : FsAction}
    (ha : Orderly w (.fs t a)) (hs : fsStep calls w t d.thread a = some w') :
    Effect calls w (.fs t a) w' ∨ w'.aborted = true ∧ SomeFreed w := by
  have hthread := h.threads t d hd
  unfold ThreadOk at hthread
  unfold fsStep at hs
  split at hs
  · rename_i hp
    split at hs
    · rename_i hnone
      cases hs
      exact Or.inr ⟨rfl, freed_of_lockData_none hd hnone⟩
    · rename_i d' hsome
      have hd' := (World.lockData_eq_some.mp hsome).1
      rw [hd, Option.some.injEq] at hd'
      subst hd'
      cases hs
      exact Or.inl (.mkpath hd hp)
  · rename_i r mountpoint hp
    simp only [Orderly, hd, Option.any_some, decide_eq_true_eq] at ha
    obtain ⟨hnone, rfl⟩ := ha
    -- zrt still waits for this file system, and frees nothing meanwhile
    rw [hnone] at hthread
    obtain ⟨asleep, hm⟩ := h.waiting_current hd hthread (by rw [hnone]; exact FsPoint.noConfusion)
    have hlock := h.lockData_current hd (by rw [hm]; exact id)
    rw [h.match_own hd (World.lockData_eq_some.mp hlock).2] at hs
    cases hs
    exact Or.inl (.fuseMain hd hnone)
  · rename_i j mountpoint hp
    rw [hp] at hthread
    obtain ⟨rfl, rfl, -⟩ := hthread
    split at hs
    · rename_i hnone
      cases hs
      exact Or.inr ⟨rfl, freed_of_lockData_none hd hnone⟩
    · cases hs
      exact Or.inl (.mount hd hp)
  · rename_i j res woken hp
    rw [hp] at hthread
    obtain ⟨rfl, -⟩ := hthread
    have hno : d.thread.sleepsAt j = false := by rw [hp]; rfl
    split at hs
    · rename_i hr
      rcases h.updateCondValue_cases hd hno hs with ⟨rfl, -⟩ | hfreed
      · exact Or.inl (.reportError hd hp hr)
      · exact Or.inr hfreed
    · rename_i hr
      rw [not_not] at hr
      subst hr
      rcases h.updateCondValue_cases hd hno hs with ⟨rfl, -⟩ | hfreed
      · exact Or.inl (.reportDone hd hp)
      · exact Or.inr hfreed
  · rename_i x woken hp
    rw [hp] at hthread
    obtain ⟨rfl, hexp, hval⟩ := hthread
    split at hs
    · cases hs
    · rename_i hawake
      rw [Bool.not_eq_true] at hawake
      unfold World.testCondValue at hs
      split at hs
      · rename_i hnone
        cases hs
        exact Or.inr ⟨rfl, freed_of_lockData_none hd hnone⟩
      · rename_i d' hsome
        have hd' := (World.lockData_eq_some.mp hsome).1
        rw [hd, Option.some.injEq] at hd'
        subst hd'
        left
        rcases hval with ⟨hinit, -⟩ | ⟨hfinal, hreleased, -⟩
        · have hlow : d.condValue.toNat < x.expected.toNat := by
            rw [hinit, hexp]
            decide
          rw [if_pos hlow] at hs
          cases hs
          exact .fsSleeps hd hp hinit hawake
        · have hhigh : ¬d.condValue.toNat < x.expected.toNat := by
            rw [hfinal, hexp]
            decide
          rw [if_neg hhigh] at hs
          obtain ⟨v, hv, rfl⟩ := Option.map_eq_some_iff.mp hs
          rw [h.signal_released hd hfinal hreleased hv]
          exact .fsSees hd hp hfinal
  · rename_i got ret hp
    cases hs
    simp only [Orderly, hd, Option.any_some, decide_eq_true_eq] at ha
    rcases ha with ⟨hnone, hr⟩ | hsome
    · exact Or.inl (.givesUp hd hnone hr)
    · exact Or.inl (.returns hd hsome)
  · rename_i ret woken hp
    have hno : d.thread.sleepsAt t = false := by rw [hp]; rfl
    by_cases hr : ret = 0
    · subst hr
      rw [if_neg (by simp)] at hs
      rcases h.updateCondValue_cases hd hno hs with ⟨rfl, hnot⟩ | hfreed
      · exact Or.inl (.finishDone hd hnot hp)
      · exact Or.inr hfreed
    · rw [if_pos hr] at hs
      rcases h.updateCondValue_cases hd hno hs with ⟨rfl, hnot⟩ | hfreed
      · exact Or.inl (.finishError hd hnot hp hr)
      · exact Or.inr hfreed
  · cases hs

theorem step_effect (h : Handshake w) {a : Action} (ha : Orderly w a)
    (hs : step calls w a = some w') :
    Effect calls w a w' ∨ w'.aborted = true ∧ Frees w := by
  unfold step at hs
  rw [if_neg (by simp [h.running])] at hs
  cases a with
  | main a => exact (h.mainStep_effect ha hs).imp_right fun habort => ⟨habort.1, Or.inr habort.2⟩
  | fs t a =>
      obtain ⟨d, hd, hs⟩ := Option.bind_eq_some_iff.mp hs
      exact (h.fsStep_effect hd ha hs).imp_right fun habort => ⟨habort.1, Or.inl habort.2⟩
  | spurious p =>
      cases hs
      exact Or.inl (.spurious p)

/-! ## Every step keeps the agreement -/

private theorem setThread (h : Handshake w) {p : FsPoint} (hd : w.data[t]? = some d)
    (hnot : d.thread ≠ .gone) (hp : p ≠ .gone)
    (hthread : ThreadOk (Released w.main t) t { d with thread := p }) :
    Handshake (w.setThread t p) := by
  refine h.of_modify hd rfl rfl rfl (fun _ => rfl) rfl hthread ?_ h.running
  apply h.main.modify
  · intro d' hd' hs
    rw [hd, Option.some.injEq] at hd'
    subst hd'
    exact Or.inl (hs.resolve_right hnot)
  · intro d' _ _
    exact Or.inr hp
  · intro d' x _ _ _
    exact Or.inl rfl
  · intro d' _ hval
    exact hval

private theorem withMounts (h : Handshake w) (s : σ) : Handshake { w with mounts := s } :=
  h.of_main rfl (fun _ _ _ => Iff.rfl) (fun _ _ _ => Iff.rfl) h.main h.running

theorem awakeAt_cases (m : MainPoint) (j : Nat) : m.awakeAt j = m ∨ m.awakeAt j = m.awake := by
  unfold MainPoint.awakeAt
  split
  · exact Or.inr rfl
  · exact Or.inl rfl

private theorem update (h : Handshake w) {v : CondValue} {p : FsPoint} (hd : w.data[t]? = some d)
    (hv : v ≠ .waitingInitialization)
    (hval : d.condValue = .waitingInitialization ∧ d.thread ≠ .gone ∨ d.condValue = v)
    (hthread : ThreadOk (Released w.main t) t { d with condValue := v, thread := p }) :
    Handshake (w.update t v p) := by
  have hreleased : Released (w.main.awakeAt t) = Released w.main := by
    funext u
    rcases awakeAt_cases w.main t with hm | hm
    · rw [hm]
    · rw [hm]
      exact propext (released_awake w.main u)
  have hremoved : Removed (w.main.awakeAt t) = Removed w.main := by
    funext u
    rcases awakeAt_cases w.main t with hm | hm
    · rw [hm]
    · rw [hm]
      exact propext (removed_awake w.main u)
  have hmain : MainOk w.data (w.main.awakeAt t) := by
    rcases awakeAt_cases w.main t with hm | hm
    · rw [hm]
      exact h.main
    · rw [hm]
      exact h.main.awake
  refine h.of_modify hd rfl hreleased hremoved (fun _ => rfl) rfl hthread ?_ h.running
  apply hmain.modify
  · intro d' _ _
    exact Or.inl hv
  · intro d' _ _
    exact Or.inl hv
  · intro d' x hd' hx hindex
    rw [hd, Option.some.injEq] at hd'
    subst hd'
    rcases hval with ⟨hwait, hnot⟩ | hsame
    · right
      obtain ⟨asleep, hm⟩ := h.waiting_current hd hwait hnot
      rw [hm, MainPoint.awakeAt] at hx
      split at hx
      · cases hx
        exact ⟨rfl, rfl⟩
      · rename_i hawake
        cases hx
        simpa [MainPoint.sleepsAt, Wait.sleepsAt] using hawake
    · exact Or.inl hsame.symm
  · intro d' _ _
    exact hv

private theorem awoken (h : Handshake w) {v : World σ} (hv : Awoken w v) : Handshake v := by
  rcases hv with rfl | ⟨t, rfl⟩
  · exact h
  · exact h.wake (.fs t)

theorem main_awoken {v : World σ} (hv : Awoken w v) : v.main = w.main := by
  rcases hv with rfl | ⟨t, rfl⟩
  · rfl
  · rfl

end Handshake

private theorem Awoken.record {v : World σ} (hv : Awoken w v) {u : Nat} {e : LockData}
    (he : v.data[u]? = some e) :
    ∃ d, w.data[u]? = some d ∧ (e = d ∨ e = { d with thread := d.thread.awake }) := by
  rcases hv with rfl | ⟨t, rfl⟩
  · exact ⟨e, he, Or.inl rfl⟩
  · simp only [World.wake, List.getElem?_modify] at he
    cases hd : w.data[u]? with
    | none => simp [hd] at he
    | some d =>
        refine ⟨d, rfl, ?_⟩
        simp only [hd, Option.map_eq_map, Option.map_some, Option.some.injEq] at he
        split at he
        · exact Or.inr he.symm
        · exact Or.inl he.symm

private theorem Awoken.condValue {v : World σ} (hv : Awoken w v) {u : Nat} {e : LockData}
    (he : v.data[u]? = some e) (hd : w.data[u]? = some d) : e.condValue = d.condValue := by
  obtain ⟨d', hd', hsame⟩ := hv.record he
  rw [hd, Option.some.injEq] at hd'
  subst hd'
  rcases hsame with rfl | rfl
  · rfl
  · rfl

private theorem getElem?_of_concat {data : List LockData} {d e : LockData} {u : Nat}
    (he : (data ++ [d])[u]? = some e) (hu : u ≠ data.length) : data[u]? = some e := by
  have hlt := (List.getElem?_eq_some_iff.mp he).1
  rw [List.length_append, List.length_singleton] at hlt
  rwa [List.getElem?_append_left (by omega)] at he

private theorem ThreadOk.of_unreleased {P Q : Prop} (h : ThreadOk P t d)
    (hval : d.condValue = .waitingInitialization ∨ d.condValue = .initializationError) :
    ThreadOk Q t d := by
  unfold ThreadOk at h ⊢
  split at h <;> rcases hval with hval | hval <;> simp_all

private theorem settled_of_matchesError {data : List LockData} (h : MainOk data (.matchesError j)) :
    ∀ (u : Nat) (e : LockData), data[u]? = some e → Settled e := by
  intro u e he
  have hold := h.2 u e he
  split at hold
  · exact Or.inl hold
  · exact hold

open Handshake in
theorem Effect.handshake {a : Action} (he : Effect calls w a w') (h : Handshake w)
    (ha : Orderly w a) : Handshake w' := by
  have hm := h.main
  cases he with
  | @exec mountpoint hmain =>
      rw [hmain] at hm
      simp only [Orderly] at ha
      refine h.of_snoc rfl hmain (fun _ => id) (fun _ => id) rfl rfl ha.2 ha.1 ⟨by simp, ?_⟩ h.running
      intro u e he
      split
      · rename_i hu
        rw [show u = w.data.length from hu, List.getElem?_concat_length, Option.some.injEq] at he
        subst he
        exact ⟨Or.inr FsPoint.noConfusion, Or.inl ⟨rfl, fun _ => rfl⟩⟩
      · rename_i hu
        exact hm u e (getElem?_of_concat he hu)
  | @execFailed mountpoint hmain =>
      rw [hmain] at hm
      simp only [Orderly] at ha
      refine h.of_snoc rfl hmain (by rw [hmain]; exact fun _ => id) (by rw [hmain]; exact fun _ => id)
        (Or.inl rfl) rfl ha.2 ha.1 ?_ h.running
      rw [hmain]
      intro u e he
      by_cases hu : u = w.data.length
      · rw [hu, List.getElem?_concat_length, Option.some.injEq] at he
        subst he
        exact Or.inr rfl
      · exact hm u e (getElem?_of_concat he hu)
  | @mainSleeps x d woken hmain hd hval hexp hasleep =>
      rw [hmain] at hm
      refine h.of_main rfl (by rw [hmain]; exact fun _ _ _ => Iff.rfl)
        (by rw [hmain]; exact fun _ _ _ => Iff.rfl) ⟨hm.1, fun u e he => ?_⟩ h.running
      have hold := hm.2 u e he
      split
      · rename_i hu
        have hu' : u = x.index := hu
        subst hu'
        rw [if_pos rfl] at hold
        rw [hd, Option.some.injEq] at he
        subst he
        exact ⟨hold.1, Or.inl ⟨hexp, fun _ => hval⟩⟩
      · rename_i hu
        rw [if_neg hu] at hold
        exact hold
  | @mainSees x d woken v hmain hd hval hexp hv =>
      rw [hmain] at hm
      have hvmain := (main_awoken hv).trans hmain
      refine (h.awoken hv).of_main rfl (by rw [hvmain]; exact fun _ _ _ => Iff.rfl)
        (by rw [hvmain]; exact fun _ _ _ => Iff.rfl) ?_ (h.awoken hv).running
      have hafter := (h.awoken hv).main
      rw [hvmain] at hafter
      refine ⟨hafter.1, fun u e he => ?_⟩
      have hold := hafter.2 u e he
      split
      · rename_i hu
        subst hu
        rw [hv.condValue he hd]
        exact hval
      · rename_i hu
        rw [if_neg hu] at hold
        exact hold
  | @mainDone x d woken v hmain hd hval hexp hv =>
      have hvmain := (main_awoken hv).trans hmain
      refine (h.awoken hv).of_main rfl (by rw [hvmain]; exact fun _ _ _ => Iff.rfl)
        (by rw [hvmain]; exact fun _ _ _ => Iff.rfl) ?_ (h.awoken hv).running
      have hafter := (h.awoken hv).main
      rw [hvmain] at hafter
      intro u e he
      have hold := hafter.2 u e he
      by_cases hu : u = x.index
      · subst hu
        refine Or.inl ?_
        rw [hv.condValue he hd, hval]
        exact CondValue.noConfusion
      · rw [if_neg hu] at hold
        exact hold
  | @matchFails j d hmain hd hval =>
      refine h.of_main rfl (by rw [hmain]; exact fun _ _ _ => Iff.rfl)
        (by rw [hmain]; exact fun _ _ _ => Iff.rfl) ?_ h.running
      exact settled_of_matchesError (hmain ▸ hm)
  | @matchGoes j d hmain hd hval =>
      have hall := settled_of_matchesError (hmain ▸ hm)
      rw [hmain] at hm
      refine h.of_main rfl (by rw [hmain]; exact fun _ _ _ => Iff.rfl)
        (by rw [hmain]; exact fun _ _ _ => Iff.rfl) ⟨hm.1, fun u e he => ?_⟩ h.running
      split
      · rename_i hu
        have hu' : u = j := hu
        subst hu'
        rw [hd, Option.some.injEq] at he
        subst he
        exact ⟨Or.inl (by rw [hval]; exact CondValue.noConfusion), Or.inr ⟨rfl, rfl, hval⟩⟩
      · exact hall u e he
  | terminate hmain =>
      rw [hmain] at hm
      exact h.of_main rfl
        (by rw [hmain]; exact fun u _ _ => ⟨fun hlt => absurd hlt (Nat.not_lt_zero u), False.elim⟩)
        (by rw [hmain]; exact fun u _ _ => ⟨fun hlt => absurd hlt (Nat.not_lt_zero u), False.elim⟩)
        hm h.running
  | @finish i woken hmain hi =>
      rw [hmain] at hm
      have hlt : ∀ (u : Nat) (e : LockData), w.data[u]? = some e → u < i := fun u e he =>
        Nat.lt_of_lt_of_le (List.getElem?_eq_some_iff.mp he).1 hi
      exact h.of_main rfl
        (by rw [hmain]; exact fun u e he => ⟨fun _ => hlt u e he, fun _ => trivial⟩)
        (by rw [hmain]; exact fun u e he => ⟨fun _ => hlt u e he, fun _ => trivial⟩) hm h.running
  | @leaves i d woken hmain hd hval =>
      rw [hmain] at hm
      refine h.of_records rfl (fun u e he => ?_) (fun u e he => ?_)
        ⟨(List.getElem?_eq_some_iff.mp hd).1, hm⟩ h.running
      · have hthread := h.threads u e he
        rw [hmain] at hthread
        by_cases hu : u = i
        · subst hu
          have he' : w.data[u]? = some e := he
          rw [hd, Option.some.injEq] at he'
          subst he'
          exact hthread.of_unreleased hval
        · rw [show Released (w.setMain (.removes i)).main u = Released (.terminates i) u from
            propext (Nat.le_iff_lt_or_eq.trans (or_iff_left hu))]
          exact hthread
      · have hfreed := h.freed u e he
        rw [hmain] at hfreed
        exact hfreed
  | @releases i d woken x hmain hd hval hp =>
      rw [hmain] at hm
      have hname : ∀ d : LockData, LockData.mountpoint
          { d with condValue := .waitingFinalization, thread := d.thread.awake } = d.mountpoint :=
        fun _ => rfl
      refine h.of_records (map_mountpoint_modify hname _ _) (fun u e he => ?_) (fun u e he => ?_)
        ⟨by rw [List.length_modify]; exact (List.getElem?_eq_some_iff.mp hd).1, fun u e he => ?_⟩
        h.running
      · obtain ⟨d', hd', rfl⟩ := getElem?_modify_some he
        have hthread := h.threads u d' hd'
        rw [hmain] at hthread
        split
        · rename_i hu
          subst hu
          rw [hd, Option.some.injEq] at hd'
          subst hd'
          rw [ThreadOk, hp] at hthread
          simp only [ThreadOk, hp, FsPoint.awake]
          exact ⟨hthread.1, hthread.2.1, Or.inr ⟨trivial, Nat.le_refl i, rfl⟩⟩
        · rename_i hu
          rw [show Released (.removes i) u = Released (.terminates i) u from
            propext (Nat.le_iff_lt_or_eq.trans (or_iff_left (Ne.symm hu)))]
          exact hthread
      · obtain ⟨d', hd', rfl⟩ := getElem?_modify_some he
        have hfreed := h.freed u d' hd'
        rw [hmain] at hfreed
        split
        · exact hfreed
        · exact hfreed
      · obtain ⟨d', hd', rfl⟩ := getElem?_modify_some he
        split
        · exact Or.inl CondValue.noConfusion
        · exact hm u d' hd'
  | @removes i d hmain hd =>
      rw [hmain] at hm
      have hname : ∀ d : LockData, LockData.mountpoint { d with freed := true } = d.mountpoint :=
        fun _ => rfl
      refine h.of_records (map_mountpoint_modify hname _ _) (fun u e he => ?_) (fun u e he => ?_)
        (fun u e he => ?_) h.running
      · obtain ⟨d', hd', rfl⟩ := getElem?_modify_some he
        have hthread := h.threads u d' hd'
        rw [hmain] at hthread
        rw [show Released (.terminates (i + 1)) u = Released (.removes i) u from
          propext Nat.lt_succ_iff]
        split
        · exact hthread
        · exact hthread
      · obtain ⟨d', hd', rfl⟩ := getElem?_modify_some he
        have hfreed := h.freed u d' hd'
        rw [hmain] at hfreed
        split
        · rename_i hu
          exact ⟨fun _ => Nat.lt_succ_of_le (Nat.le_of_eq hu.symm), fun _ => rfl⟩
        · rename_i hu
          rw [hfreed]
          exact ⟨fun hlt => Nat.lt_succ_of_lt hlt, fun hlt =>
            Nat.lt_of_le_of_ne (Nat.le_of_lt_succ hlt) (Ne.symm hu)⟩
      · obtain ⟨d', hd', rfl⟩ := getElem?_modify_some he
        split
        · exact hm.2 u d' hd'
        · exact hm.2 u d' hd'
  | @mkpath t d hd hp =>
      have hthread := h.threads t d hd
      rw [ThreadOk, hp] at hthread
      exact (h.setThread (p := .inMain none) hd (by rw [hp]; exact FsPoint.noConfusion)
        FsPoint.noConfusion hthread).withMounts _
  | @fuseMain t d hd hp =>
      have hthread := h.threads t d hd
      rw [ThreadOk, hp] at hthread
      exact h.setThread hd (by rw [hp]; exact FsPoint.noConfusion) FsPoint.noConfusion ⟨rfl, rfl, hthread⟩
  | @mount t d hd hp =>
      have hthread := h.threads t d hd
      rw [ThreadOk, hp] at hthread
      exact (h.setThread (p := .reports t _) hd (by rw [hp]; exact FsPoint.noConfusion)
        FsPoint.noConfusion ⟨rfl, hthread.2.2⟩).withMounts _
  | @reportError t d r woken hd hp hr =>
      have hthread := h.threads t d hd
      rw [ThreadOk, hp] at hthread
      exact h.update hd CondValue.noConfusion
        (Or.inl ⟨hthread.2, by rw [hp]; exact FsPoint.noConfusion⟩) (Or.inl ⟨hr, rfl⟩)
  | @reportDone t d woken hd hp =>
      have hthread := h.threads t d hd
      rw [ThreadOk, hp] at hthread
      have hnot : d.thread ≠ .gone := by rw [hp]; exact FsPoint.noConfusion
      obtain ⟨asleep, hcur⟩ := h.waiting_current hd hthread.2 hnot
      exact h.update hd CondValue.noConfusion (Or.inl ⟨hthread.2, hnot⟩)
        ⟨rfl, rfl, Or.inl ⟨rfl, by rw [hcur]; exact id⟩⟩
  | @fsSleeps t d x woken hd hp hval hasleep =>
      have hthread := h.threads t d hd
      rw [ThreadOk, hp] at hthread
      refine h.setThread hd (by rw [hp]; exact FsPoint.noConfusion) FsPoint.noConfusion
        ⟨hthread.1, hthread.2.1, ?_⟩
      rcases hthread.2.2 with hinit | ⟨hfinal, -⟩
      · exact Or.inl hinit
      · rw [hval] at hfinal
        cases hfinal
  | @fsSees t d x woken hd hp hval =>
      have hthread := h.threads t d hd
      rw [ThreadOk, hp] at hthread
      refine h.setThread hd (by rw [hp]; exact FsPoint.noConfusion) FsPoint.noConfusion
        (Or.inr ⟨rfl, hval, ?_⟩)
      rcases hthread.2.2 with ⟨hinit, -⟩ | ⟨-, hreleased, -⟩
      · rw [hval] at hinit
        cases hinit
      · exact hreleased
  | @givesUp t d r hd hp hr =>
      have hthread := h.threads t d hd
      rw [ThreadOk, hp] at hthread
      exact h.setThread hd (by rw [hp]; exact FsPoint.noConfusion) FsPoint.noConfusion
        (Or.inl ⟨hr, Or.inl hthread⟩)
  | @returns t d r hd hp =>
      have hthread := h.threads t d hd
      rw [ThreadOk, hp] at hthread
      refine h.setThread hd (by rw [hp]; exact FsPoint.noConfusion) FsPoint.noConfusion ?_
      rcases hthread with ⟨hr, hval⟩ | hdone
      · exact Or.inl ⟨hr, Or.inr hval⟩
      · exact Or.inr hdone
  | @finishError t d r woken hd hfreed hp hr =>
      have hthread := h.threads t d hd
      rw [ThreadOk, hp] at hthread
      refine h.update hd CondValue.noConfusion ?_ (Or.inr (Or.inl rfl))
      rcases hthread with ⟨-, hwait | herr⟩ | ⟨hzero, -⟩
      · exact Or.inl ⟨hwait, by rw [hp]; exact FsPoint.noConfusion⟩
      · exact Or.inr herr
      · exact absurd hzero hr
  | @finishDone t d woken hd hfreed hp =>
      have hthread := h.threads t d hd
      rw [ThreadOk, hp] at hthread
      rcases hthread with ⟨hne, -⟩ | ⟨-, hval, hreleased⟩
      · exact absurd rfl hne
      · exact h.update hd CondValue.noConfusion (Or.inr hval) (Or.inr (Or.inr ⟨rfl, hreleased⟩))
  | spurious p => exact h.wake p

end Zrt.Fs.FuseGlue
