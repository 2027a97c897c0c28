import Mathlib.Data.List.Nodup
import Zrt.Fs.FuseGlue

/-!
# What the threads of zrt and of its FUSE file systems agree on

While zrt waits for a file system, the record of that file system is the last one and the only one
that may still be waiting for its initialization.
-/

namespace Zrt.Fs.FuseGlue

open Zrt.Framework

variable {σ : Type} {calls : MountCalls σ}

/-! ## Wake ups -/

namespace World

variable {w w' : World σ} {t j : Nat} {d : LockData}

@[simp] theorem data_abort (w : World σ) : w.abort.data = w.data := rfl
@[simp] theorem main_abort (w : World σ) : w.abort.main = w.main := rfl
@[simp] theorem data_setMain (w : World σ) (m : MainPoint) : (w.setMain m).data = w.data := rfl
@[simp] theorem main_setMain (w : World σ) (m : MainPoint) : (w.setMain m).main = m := rfl
@[simp] theorem main_setThread (w : World σ) (t : Nat) (p : FsPoint) :
    (w.setThread t p).main = w.main := rfl
@[simp] theorem main_setCondValue (w : World σ) (j : Nat) (v : CondValue) :
    (w.setCondValue j v).main = w.main := rfl

theorem getElem?_setCondValue (w : World σ) (j : Nat) (v : CondValue) (u : Nat) :
    (w.setCondValue j v).data[u]? =
      if j = u then w.data[u]?.map fun d => { d with condValue := v } else w.data[u]? := by
  simp only [setCondValue, List.getElem?_modify]
  split <;> simp

theorem lockData_eq_some : w.lockData j = some d ↔ w.data[j]? = some d ∧ d.freed = false := by
  simp [lockData, Option.filter_eq_some_iff]

theorem lockData_of_not_freed (h : w.data[j]? = some d) (hfreed : d.freed = false) :
    w.lockData j = some d := lockData_eq_some.mpr ⟨h, hfreed⟩

theorem signal_cases {woken : Option Party} (h : w.signal j woken = some w') :
    (w' = w ∧ w.main.sleepsAt j = false ∧ ∀ (t : Nat) (d : LockData), w.data[t]? = some d → d.thread.sleepsAt j = false) ∨
    ∃ p, w.sleeps j p = true ∧ w' = w.wake p := by
  cases woken with
  | some p =>
      by_cases hp : w.sleeps j p = true
      · rw [signal, if_pos hp] at h
        exact Or.inr ⟨p, hp, (Option.some.inj h).symm⟩
      · rw [signal, if_neg hp] at h
        cases h
  | none =>
      by_cases hany : w.main.sleepsAt j = true ∨ (w.data.any fun d => d.thread.sleepsAt j) = true
      · rw [signal, if_pos hany] at h
        cases h
      · rw [signal, if_neg hany] at h
        rw [not_or] at hany
        refine Or.inl ⟨(Option.some.inj h).symm, by simpa using hany.1, fun t d hd => ?_⟩
        have hall := hany.2
        simp only [List.any_eq_true, not_exists, not_and, Bool.not_eq_true] at hall
        exact hall d (List.mem_of_getElem? hd)

theorem exists_signal (w : World σ) (j : Nat) : ∃ woken w', w.signal j woken = some w' := by
  by_cases hmain : w.main.sleepsAt j = true
  · exact ⟨some .main, _, if_pos hmain⟩
  · by_cases hfs : w.data.any fun d => d.thread.sleepsAt j
    · obtain ⟨d, hmem, hd⟩ := List.any_eq_true.mp hfs
      obtain ⟨t, ht⟩ := List.mem_iff_getElem?.mp hmem
      refine ⟨some (.fs t), _, if_pos ?_⟩
      simpa [sleeps, ht] using hd
    · refine ⟨none, w, if_neg ?_⟩
      simp [hmain, hfs]

end World

@[simp] theorem sleepsAt_iff {x : Wait} {j : Nat} :
    x.sleepsAt j = true ↔ x.asleep = true ∧ x.index = j := by
  simp [Wait.sleepsAt]

/-! ## The agreement -/

/-- `terminate_fuse_mounts` has passed the release of the record. -/
def Released : MainPoint → Nat → Prop
  | .terminates i, j => j < i
  | .removes i, j => j ≤ i
  | .finished, _ => True
  | _, _ => False

/-- `terminate_fuse_mounts` has freed the record. -/
def Removed : MainPoint → Nat → Prop
  | .terminates i, j => j < i
  | .removes i, j => j < i
  | .finished, _ => True
  | _, _ => False

/-- What the value of a record can be while its thread is there. -/
def ThreadOk (released : Prop) (t : Nat) (d : LockData) : Prop :=
  match d.thread with
  | .started => d.condValue = .waitingInitialization
  | .inMain none => d.condValue = .waitingInitialization
  | .mounts j mountpoint =>
      j = t ∧ mountpoint = d.mountpoint ∧ d.condValue = .waitingInitialization
  | .reports j _ => j = t ∧ d.condValue = .waitingInitialization
  | .waits x =>
      x.index = t ∧ x.expected = .waitingFinalization ∧
        (d.condValue = .initialized ∧ ¬released ∨
          d.condValue = .waitingFinalization ∧ released ∧ x.asleep = false)
  | .inMain (some r) =>
      r ≠ 0 ∧ d.condValue = .initializationError ∨
        r = 0 ∧ d.condValue = .waitingFinalization ∧ released
  | .ends r =>
      r ≠ 0 ∧ (d.condValue = .waitingInitialization ∨ d.condValue = .initializationError) ∨
        r = 0 ∧ d.condValue = .waitingFinalization ∧ released
  | .gone =>
      d.condValue = .waitingInitialization ∨ d.condValue = .initializationError ∨
        d.condValue = .waitingFinalization ∧ released

/-- The outcome of the mount is known, or there never was a thread. -/
def Settled (d : LockData) : Prop := d.condValue ≠ .waitingInitialization ∨ d.thread = .gone

/-- The outcome is known, or there is a thread that will tell it. -/
def Pending (d : LockData) : Prop := d.condValue ≠ .waitingInitialization ∨ d.thread ≠ .gone

/-- What zrt knows of the records. -/
def MainOk (data : List LockData) : MainPoint → Prop
  | .waits x =>
      x.index + 1 = data.length ∧
      ∀ (t : Nat) (d : LockData), data[t]? = some d →
        if t = x.index then
          Pending d ∧
            (x.expected = .initializationError ∧
                (x.asleep = true → d.condValue = .waitingInitialization) ∨
              x.expected = .initialized ∧ x.asleep = false ∧ d.condValue = .initialized)
        else Settled d
  | .matchesError j =>
      j + 1 = data.length ∧
      ∀ (t : Nat) (d : LockData), data[t]? = some d →
        if t = j then d.condValue ≠ .waitingInitialization else Settled d
  | .removes i => i < data.length ∧ ∀ (t : Nat) (d : LockData), data[t]? = some d → Settled d
  | _ => ∀ (t : Nat) (d : LockData), data[t]? = some d → Settled d

structure Handshake (w : World σ) : Prop where
  threads : ∀ (t : Nat) (d : LockData), w.data[t]? = some d → ThreadOk (Released w.main t) t d
  freed : ∀ (t : Nat) (d : LockData), w.data[t]? = some d → (d.freed = true ↔ Removed w.main t)
  names : (w.data.map LockData.mountpoint).Nodup
  fits : ∀ d ∈ w.data, d.mountpoint.length < mountpointSize
  main : MainOk w.data w.main
  running : w.aborted = false

theorem handshake_start (s : σ) : Handshake (World.start s) where
  threads := by simp [World.start]
  freed := by simp [World.start]
  names := by simp [World.start]
  fits := by simp [World.start]
  main := by simp [World.start, MainOk]
  running := rfl

theorem released_awake (m : MainPoint) (t : Nat) : Released m.awake t ↔ Released m t := by
  cases m <;> rfl

theorem removed_awake (m : MainPoint) (t : Nat) : Removed m.awake t ↔ Removed m t := by
  cases m <;> rfl

theorem MainOk.awake {data : List LockData} {m : MainPoint} (h : MainOk data m) :
    MainOk data m.awake := by
  cases m with
  | waits x =>
      refine ⟨h.1, fun t d hd => ?_⟩
      have hold := h.2 t d hd
      by_cases ht : t = x.index
      · rw [if_pos ht] at hold
        rw [if_pos (by simpa [Wait.awake] using ht)]
        refine ⟨hold.1, ?_⟩
        rcases hold.2 with ⟨hexp, -⟩ | ⟨hexp, -, hval⟩
        · exact Or.inl ⟨hexp, fun hasleep => by simp [Wait.awake] at hasleep⟩
        · exact Or.inr ⟨hexp, rfl, hval⟩
      · rw [if_neg ht] at hold
        rw [if_neg (by simpa [Wait.awake] using ht)]
        exact hold
  | _ => exact h

theorem getElem?_modify_some {f : LockData → LockData} {data : List LockData} {t u : Nat}
    {e : LockData} (he : (data.modify t f)[u]? = some e) :
    ∃ d, data[u]? = some d ∧ e = if t = u then f d else d := by
  rw [List.getElem?_modify] at he
  cases hd : data[u]? with
  | none => simp [hd] at he
  | some d =>
      simp only [hd, Option.map_eq_map, Option.map_some, Option.some.injEq] at he
      exact ⟨d, rfl, he.symm⟩

theorem MainOk.modify {data : List LockData} {m : MainPoint} {t : Nat} {f : LockData → LockData}
    (h : MainOk data m) (hsettled : ∀ d, data[t]? = some d → Settled d → Settled (f d))
    (hpending : ∀ d, data[t]? = some d → Pending d → Pending (f d))
    (hvalue : ∀ d x, data[t]? = some d → m = .waits x → x.index = t →
      (f d).condValue = d.condValue ∨
        x.asleep = false ∧ x.expected = .initializationError)
    (hmatch : ∀ d, data[t]? = some d → d.condValue ≠ .waitingInitialization →
      (f d).condValue ≠ .waitingInitialization) :
    MainOk (data.modify t f) m := by
  have hkeep : ∀ (u : Nat) (d' : LockData), (data.modify t f)[u]? = some d' →
      (∀ d : LockData, data[u]? = some d → Settled d) → Settled d' := by
    intro u d' hd' hall
    obtain ⟨d, hd, rfl⟩ := getElem?_modify_some hd'
    split
    · rename_i htu
      subst htu
      exact hsettled d hd (hall d hd)
    · exact hall d hd
  cases m with
  | waits x =>
      refine ⟨by rw [List.length_modify]; exact h.1, fun u d' hd' => ?_⟩
      split
      · rename_i hu
        obtain ⟨d, hd, rfl⟩ := getElem?_modify_some hd'
        have hold := h.2 u d hd
        rw [if_pos hu] at hold
        split
        · rename_i htu
          subst htu
          refine ⟨hpending d hd hold.1, ?_⟩
          rcases hvalue d x hd rfl hu.symm with hsame | ⟨hawake, hexp⟩
          · rw [hsame]
            exact hold.2
          · exact Or.inl ⟨hexp, fun hasleep => by rw [hawake] at hasleep; cases hasleep⟩
        · exact hold
      · rename_i hu
        refine hkeep u d' hd' fun d hd => ?_
        have hold := h.2 u d hd
        rw [if_neg hu] at hold
        exact hold
  | matchesError j =>
      refine ⟨by rw [List.length_modify]; exact h.1, fun u d' hd' => ?_⟩
      split
      · rename_i hu
        obtain ⟨d, hd, rfl⟩ := getElem?_modify_some hd'
        have hold := h.2 u d hd
        rw [if_pos hu] at hold
        split
        · rename_i htu
          subst htu
          exact hmatch d hd hold
        · exact hold
      · rename_i hu
        refine hkeep u d' hd' fun d hd => ?_
        have hold := h.2 u d hd
        rw [if_neg hu] at hold
        exact hold
  | ready => exact fun u d' hd' => hkeep u d' hd' (h u)
  | terminates i => exact fun u d' hd' => hkeep u d' hd' (h u)
  | removes i => exact ⟨by rw [List.length_modify]; exact h.1, fun u d' hd' => hkeep u d' hd' (h.2 u)⟩
  | finished => exact fun u d' hd' => hkeep u d' hd' (h u)

namespace Handshake

variable {w w' : World σ} {t : Nat} {d : LockData}

theorem map_mountpoint_modify {f : LockData → LockData} (hname : ∀ d, (f d).mountpoint = d.mountpoint)
    (data : List LockData) (t : Nat) :
    (data.modify t f).map LockData.mountpoint = data.map LockData.mountpoint := by
  apply List.ext_getElem?
  intro u
  rw [List.getElem?_map, List.getElem?_map, List.getElem?_modify]
  cases data[u]? with
  | none => rfl
  | some d =>
      simp only [Option.map_eq_map, Option.map_some, Option.some.injEq]
      split
      · exact hname d
      · rfl

theorem of_records (h : Handshake w)
    (hnames : w'.data.map LockData.mountpoint = w.data.map LockData.mountpoint)
    (hthreads : ∀ (u : Nat) (e : LockData), w'.data[u]? = some e →
      ThreadOk (Released w'.main u) u e)
    (hfreed : ∀ (u : Nat) (e : LockData), w'.data[u]? = some e →
      (e.freed = true ↔ Removed w'.main u))
    (hmain : MainOk w'.data w'.main) (hrunning : w'.aborted = false) : Handshake w' := by
  refine ⟨hthreads, hfreed, ?_, fun e he => ?_, hmain, hrunning⟩
  · rw [hnames]
    exact h.names
  · have hmem := List.mem_map_of_mem (f := LockData.mountpoint) he
    rw [hnames] at hmem
    obtain ⟨d, hd, hsame⟩ := List.mem_map.mp hmem
    rw [← hsame]
    exact h.fits d hd

theorem of_modify (h : Handshake w) {f : LockData → LockData} (hd : w.data[t]? = some d)
    (hdata : w'.data = w.data.modify t f) (hreleased : Released w'.main = Released w.main)
    (hremoved : Removed w'.main = Removed w.main)
    (hname : ∀ d, (f d).mountpoint = d.mountpoint) (hfreed : (f d).freed = d.freed)
    (hthread : ThreadOk (Released w.main t) t (f d)) (hmain : MainOk w'.data w'.main)
    (hrunning : w'.aborted = false) : Handshake w' := by
  refine h.of_records (by rw [hdata, map_mountpoint_modify hname]) (fun u e he => ?_)
    (fun u e he => ?_) hmain hrunning
  · rw [hdata] at he
    obtain ⟨d', hd', rfl⟩ := getElem?_modify_some he
    rw [hreleased]
    split
    · rename_i htu
      subst htu
      rw [hd, Option.some.injEq] at hd'
      rw [← hd']
      exact hthread
    · exact h.threads u d' hd'
  · rw [hdata] at he
    obtain ⟨d', hd', rfl⟩ := getElem?_modify_some he
    rw [hremoved]
    split
    · rename_i htu
      subst htu
      rw [hd, Option.some.injEq] at hd'
      rw [← hd', hfreed]
      exact h.freed t d hd
    · exact h.freed u d' hd'

theorem of_main (h : Handshake w) (hdata : w'.data = w.data)
    (hreleased : ∀ (u : Nat) (e : LockData), w.data[u]? = some e →
      (Released w'.main u ↔ Released w.main u))
    (hremoved : ∀ (u : Nat) (e : LockData), w.data[u]? = some e →
      (Removed w'.main u ↔ Removed w.main u))
    (hmain : MainOk w.data w'.main) (hrunning : w'.aborted = false) : Handshake w' := by
  refine h.of_records (by rw [hdata]) (fun u e he => ?_) (fun u e he => ?_) ?_ hrunning
  · rw [hdata] at he
    rw [propext (hreleased u e he)]
    exact h.threads u e he
  · rw [hdata] at he
    rw [hremoved u e he]
    exact h.freed u e he
  · rw [hdata]
    exact hmain

theorem of_snoc (h : Handshake w) {e : LockData} (hdata : w'.data = w.data ++ [e])
    (hready : w.main = .ready) (hreleased : ∀ u, ¬Released w'.main u)
    (hremoved : ∀ u, ¬Removed w'.main u) (hthread : ThreadOk False w.data.length e)
    (hfreed : e.freed = false) (hnew : e.mountpoint ∉ w.data.map LockData.mountpoint)
    (hfits : e.mountpoint.length < mountpointSize) (hmain : MainOk w'.data w'.main)
    (hrunning : w'.aborted = false) : Handshake w' := by
  have hget : ∀ (u : Nat) (e' : LockData), w'.data[u]? = some e' →
      w.data[u]? = some e' ∨ u = w.data.length ∧ e' = e := by
    intro u e' he'
    rw [hdata] at he'
    rcases Nat.lt_trichotomy u w.data.length with hlt | heq | hgt
    · rw [List.getElem?_append_left hlt] at he'
      exact Or.inl he'
    · subst heq
      rw [List.getElem?_concat_length, Option.some.injEq] at he'
      exact Or.inr ⟨rfl, he'.symm⟩
    · rw [List.getElem?_eq_none (by simp only [List.length_append, List.length_singleton]; omega)] at he'
      cases he'
  refine ⟨fun u e' he' => ?_, fun u e' he' => ?_, ?_, fun e' he' => ?_, hmain, hrunning⟩
  · rw [show Released w'.main u = False from propext ⟨hreleased u, False.elim⟩]
    rcases hget u e' he' with hold | ⟨rfl, rfl⟩
    · have hthreads := h.threads u e' hold
      rw [hready] at hthreads
      exact hthreads
    · exact hthread
  · have hnot := hremoved u
    rcases hget u e' he' with hold | ⟨rfl, rfl⟩
    · have hold' := h.freed u e' hold
      rw [hready] at hold'
      exact ⟨fun hf => absurd (hold'.mp hf) id, fun hr => absurd hr hnot⟩
    · exact ⟨fun hf => absurd (hfreed.symm.trans hf) (by decide), fun hr => absurd hr hnot⟩
  · rw [hdata, List.map_append, List.map_singleton]
    exact h.names.append (List.nodup_singleton _) (by simpa using hnew)
  · rw [hdata, List.mem_append, List.mem_singleton] at he'
    rcases he' with hold | rfl
    · exact h.fits e' hold
    · exact hfits

theorem wake (h : Handshake w) (p : Party) : Handshake (w.wake p) := by
  cases p with
  | main =>
      exact h.of_main rfl (fun u _ _ => released_awake w.main u) (fun u _ _ => removed_awake w.main u)
        h.main.awake h.running
  | fs t =>
      cases hd : w.data[t]? with
      | none =>
          have hsame : w.wake (.fs t) = w := by
            have hlen := List.getElem?_eq_none_iff.mp hd
            simp [World.wake, List.modify_eq_self hlen]
          rw [hsame]
          exact h
      | some d =>
          have hthread := h.threads t d hd
          have hover : d.thread.awake = .gone ↔ d.thread = .gone := by
            cases d.thread <;> simp [FsPoint.awake]
          refine h.of_modify (f := fun d => { d with thread := d.thread.awake }) hd rfl rfl rfl
            (fun _ => rfl) rfl ?_ ?_ h.running
          · unfold ThreadOk at hthread ⊢
            cases hp : d.thread with
            | waits x =>
                simp only [hp, FsPoint.awake] at hthread ⊢
                obtain ⟨hindex, hexp, hval⟩ := hthread
                refine ⟨hindex, hexp, ?_⟩
                rcases hval with hinit | ⟨hfinal, hrel, -⟩
                · exact Or.inl hinit
                · exact Or.inr ⟨hfinal, hrel, rfl⟩
            | inMain r => cases r <;> simpa only [hp, FsPoint.awake] using hthread
            | _ => simpa only [hp, FsPoint.awake] using hthread
          · apply h.main.modify
            · intro d' hd' hs
              rw [hd, Option.some.injEq] at hd'
              subst hd'
              exact hs.imp id hover.mpr
            · intro d' hd' hs
              rw [hd, Option.some.injEq] at hd'
              subst hd'
              exact hs.imp id fun hne => mt hover.mp hne
            · intro d' x _ _ _
              exact Or.inl rfl
            · intro d' _ hval
              exact hval

/-- Nobody but the thread of zrt and its own thread sleeps at a record. -/
theorem sleepsAt_index (h : Handshake w) {j : Nat} (hd : w.data[t]? = some d)
    (hsleeps : d.thread.sleepsAt j = true) : j = t ∧ d.condValue = .initialized ∧
      ¬Released w.main t := by
  have hthread := h.threads t d hd
  unfold ThreadOk at hthread
  cases hp : d.thread with
  | waits x =>
      simp only [hp, FsPoint.sleepsAt, sleepsAt_iff] at hthread hsleeps
      obtain ⟨hindex, -, hval⟩ := hthread
      refine ⟨hsleeps.2.symm.trans hindex, ?_⟩
      rcases hval with hinit | ⟨-, -, hawake⟩
      · exact hinit
      · rw [hsleeps.1] at hawake
        cases hawake
  | _ => simp [hp, FsPoint.sleepsAt] at hsleeps

/-- The record that waits for its initialization is the one zrt waits for. -/
theorem waiting_current (h : Handshake w) (hd : w.data[t]? = some d)
    (hval : d.condValue = .waitingInitialization) (hthread : d.thread ≠ .gone) :
    ∃ asleep, w.main = .waits ⟨t, .initializationError, asleep⟩ := by
  have hunsettled : ¬Settled d := fun hs => hs.elim (fun hne => hne hval) hthread
  have hmain := h.main
  cases hm : w.main with
  | waits x =>
      rw [hm] at hmain
      have hold := hmain.2 t d hd
      by_cases ht : t = x.index
      · rw [if_pos ht] at hold
        rcases hold.2 with ⟨hexp, -⟩ | ⟨-, -, hinit⟩
        · exact ⟨x.asleep, by rw [ht, ← hexp]⟩
        · rw [hval] at hinit
          cases hinit
      · rw [if_neg ht] at hold
        exact absurd hold hunsettled
  | matchesError j =>
      rw [hm] at hmain
      have hold := hmain.2 t d hd
      by_cases ht : t = j
      · rw [if_pos ht] at hold
        exact absurd hval hold
      · rw [if_neg ht] at hold
        exact absurd hold hunsettled
  | removes i =>
      rw [hm] at hmain
      exact absurd (hmain.2 t d hd) hunsettled
  | _ =>
      rw [hm] at hmain
      exact absurd (hmain t d hd) hunsettled

end Handshake

end Zrt.Fs.FuseGlue
