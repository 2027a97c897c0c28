import Mathlib.Algebra.Ring.Nat
import Zrt.Fs.FuseEffects
import Zrt.Fs.MountsManager

/-!
# Mounting from threads is mounting in order

Whatever the threads do in between, the answers of `exec_fuse_main` and the mounts are those of an
engine that mounts one file system after the other. No wake up is lost, so that every call comes to
its answer.
-/

namespace Zrt.Fs.FuseGlue

open Zrt.Framework

variable {σ : Type} {calls : MountCalls σ} {w w' : World σ} {s : σ} {t j : Nat} {d : LockData}

/-- The record that zrt waits for. -/
def MainPoint.current : MainPoint → Option Nat
  | .waits x => some x.index
  | .matchesError j => some j
  | _ => none

theorem current_awake (m : MainPoint) : m.awake.current = m.current := by
  cases m <;> rfl

private theorem current_awakeAt (m : MainPoint) (j : Nat) : (m.awakeAt j).current = m.current := by
  rcases Handshake.awakeAt_cases m j with hm | hm
  · rw [hm]
  · rw [hm, current_awake]

/-- The mount has failed, or was not tried. -/
def Failed (calls : MountCalls σ) (s m : σ) (mountpoint : Text) : Prop :=
  (∃ r, r ≠ 0 ∧ calls.mountFuseFs (calls.mkpath s mountpoint) mountpoint = (r, m)) ∨
    m = calls.mkpath s mountpoint

/-- How far a mount has come that began with the mounts `s`. -/
def Stage (calls : MountCalls σ) (s m : σ) (d : LockData) : Prop :=
  match d.thread with
  | .started => m = s
  | .inMain none => m = calls.mkpath s d.mountpoint
  | .mounts _ _ => m = calls.mkpath s d.mountpoint
  | .reports _ r => calls.mountFuseFs (calls.mkpath s d.mountpoint) d.mountpoint = (r, m)
  | .inMain (some r) => calls.mountFuseFs (calls.mkpath s d.mountpoint) d.mountpoint = (r, m)
  | .waits _ => calls.mountFuseFs (calls.mkpath s d.mountpoint) d.mountpoint = (0, m)
  | .ends _ => Failed calls s m d.mountpoint
  | .gone => Failed calls s m d.mountpoint

private theorem Stage.awake {m : σ} (h : Stage calls s m d) :
    Stage calls s m { d with thread := d.thread.awake } := by
  unfold Stage at h ⊢
  cases hp : d.thread with
  | inMain r => cases r <;> simpa only [hp, FsPoint.awake] using h
  | _ => simpa only [hp, FsPoint.awake] using h

/-- The answers given so far are those of an engine that mounts in order, and the last mount is on
its way. -/
def Aligned (calls : MountCalls σ) (s : σ) (w : World σ) : Prop :=
  match w.main.current with
  | none =>
      w.main = .ready ∧
        MountsInOrder calls s (w.data.map LockData.mountpoint) w.answers w.mounts
  | some j =>
      ∃ u, MountsInOrder calls s (w.data.map LockData.mountpoint).dropLast w.answers u ∧
        ∀ d, w.data[j]? = some d → Stage calls u w.mounts d

private theorem aligned_start (s : σ) : Aligned calls s (World.start s) := ⟨rfl, .nil⟩

theorem Aligned.of_ready (h : Aligned calls s w) (hmain : w.main = .ready) :
    MountsInOrder calls s (w.data.map LockData.mountpoint) w.answers w.mounts := by
  rw [Aligned, hmain] at h
  exact h.2

theorem Aligned.of_modify (h : Aligned calls s w) {f : LockData → LockData}
    (hdata : w'.data = w.data.modify t f) (hname : ∀ d, (f d).mountpoint = d.mountpoint)
    (hmain : w'.main.current = w.main.current) (hready : w.main = .ready → w'.main = .ready)
    (hanswers : w'.answers = w.answers) (hmounts : w'.mounts = w.mounts ∨ w.main.current = some t)
    (hstage : ∀ u d, w.data[t]? = some d → Stage calls u w.mounts d →
      Stage calls u w'.mounts (f d)) : Aligned calls s w' := by
  unfold Aligned at h ⊢
  rw [hmain, hdata, Handshake.map_mountpoint_modify hname, hanswers]
  cases hcur : w.main.current with
  | none =>
      rw [hcur] at h hmounts
      have hsame := hmounts.resolve_right (by simp)
      rw [hsame]
      exact ⟨hready h.1, h.2⟩
  | some j =>
      rw [hcur] at h hmounts
      obtain ⟨u, horder, hall⟩ := h
      refine ⟨u, horder, fun e he => ?_⟩
      obtain ⟨d, hd, rfl⟩ := getElem?_modify_some he
      split
      · rename_i htj
        subst htj
        exact hstage u d hd (hall d hd)
      · rename_i htj
        rw [Option.some.injEq] at hmounts
        rw [hmounts.resolve_right (Ne.symm htj)]
        exact hall d hd

private theorem Aligned.setThread (h : Aligned calls s w) {p : FsPoint} (hd : w.data[t]? = some d)
    (hstage : ∀ u, Stage calls u w.mounts d → Stage calls u w.mounts { d with thread := p }) :
    Aligned calls s (w.setThread t p) := by
  refine h.of_modify rfl (fun _ => rfl) rfl id rfl (Or.inl rfl) fun u e he hold => ?_
  rw [hd, Option.some.injEq] at he
  subst he
  exact hstage u hold

private theorem Aligned.update (h : Aligned calls s w) {v : CondValue} {p : FsPoint}
    (hd : w.data[t]? = some d)
    (hstage : ∀ u, Stage calls u w.mounts d →
      Stage calls u w.mounts { d with condValue := v, thread := p }) :
    Aligned calls s (w.update t v p) := by
  refine h.of_modify rfl (fun _ => rfl) (current_awakeAt w.main t) (fun hready => ?_) rfl
    (Or.inl rfl) fun u e he hold => ?_
  · rw [World.update, hready]
    rfl
  · rw [hd, Option.some.injEq] at he
    subst he
    exact hstage u hold

private theorem Aligned.not_released (h : Aligned calls s w) (t : Nat) : ¬Released w.main t := by
  unfold Aligned at h
  cases hm : w.main with
  | waits x => exact id
  | matchesError j => exact id
  | ready => exact id
  | _ =>
      rw [hm] at h
      cases h.1

theorem Aligned.not_freed (h : Aligned calls s w) (hw : Handshake w) : ¬Handshake.SomeFreed w := by
  intro hfreed
  obtain ⟨t, d, hd, hf⟩ := hfreed
  have hremoved := (hw.freed t d hd).mp hf
  unfold Aligned at h
  cases hm : w.main with
  | waits x =>
      rw [hm] at hremoved
      exact hremoved
  | matchesError j =>
      rw [hm] at hremoved
      exact hremoved
  | ready =>
      rw [hm] at hremoved
      exact hremoved
  | _ =>
      rw [hm] at h
      cases h.1

theorem Aligned.not_frees (h : Aligned calls s w) (hw : Handshake w) : ¬Handshake.Frees w := by
  rintro (hfreed | ⟨i, hm⟩)
  · exact h.not_freed hw hfreed
  · rw [Aligned, hm] at h
    cases h.1

private theorem Awoken.names {v : World σ} (hv : Awoken w v) :
    v.data.map LockData.mountpoint = w.data.map LockData.mountpoint := by
  rcases hv with rfl | ⟨t, rfl⟩
  · rfl
  · exact Handshake.map_mountpoint_modify (f := fun d => { d with thread := d.thread.awake })
      (fun _ => rfl) w.data t

private theorem Aligned.awoken (h : Aligned calls s w) {v : World σ} (hv : Awoken w v) :
    Aligned calls s v := by
  rcases hv with rfl | ⟨t, rfl⟩
  · exact h
  · exact h.of_modify rfl (fun _ => rfl) rfl id rfl (Or.inl rfl) fun _ _ _ hstage => hstage.awake

private theorem Aligned.answered (h : Aligned calls s w) (hcur : w.main.current = some j)
    (hd : w.data[j]? = some d) (hlast : j + 1 = w.data.length) {r : Int}
    (honce : ∀ u, Stage calls u w.mounts d → MountsOnce calls u d.mountpoint r w.mounts) :
    MountsInOrder calls s (w.data.map LockData.mountpoint) (w.answers ++ [r]) w.mounts := by
  unfold Aligned at h
  rw [hcur] at h
  obtain ⟨u, horder, hall⟩ := h
  have hnames : w.data.map LockData.mountpoint =
      (w.data.map LockData.mountpoint).dropLast ++ [d.mountpoint] := by
    have hne : w.data.map LockData.mountpoint ≠ [] := by
      intro hnil
      rw [List.map_eq_nil_iff] at hnil
      rw [hnil] at hd
      cases hd
    have hget : (w.data.map LockData.mountpoint).getLast hne = d.mountpoint := by
      obtain ⟨hlt, hj⟩ := List.getElem?_eq_some_iff.mp hd
      rw [List.getLast_eq_getElem, List.getElem_map]
      congr 1
      rw [← hj]
      congr 1
      rw [List.length_map]
      omega
    conv_lhs => rw [← List.dropLast_append_getLast hne, hget]
  rw [hnames]
  exact .snoc horder (honce u (hall d hd))

private theorem Handshake.current_of_waiting (h : Handshake w) (hd : w.data[t]? = some d)
    (hval : d.condValue = .waitingInitialization) (hnot : d.thread ≠ .gone) :
    w.main.current = some t := by
  obtain ⟨asleep, hmain⟩ := h.waiting_current hd hval hnot
  rw [hmain]
  rfl

private theorem Effect.aligned {a : Action} (he : Effect calls w a w') (h : Handshake w)
    (ha : Mounting w a) (hal : Aligned calls s w) : Aligned calls s w' := by
  have hm := h.main
  cases he with
  | @exec mountpoint hmain =>
      refine ⟨w.mounts, ?_, fun d hd => ?_⟩
      · rw [List.map_append, List.map_singleton, List.dropLast_concat]
        exact hal.of_ready hmain
      · rw [List.getElem?_concat_length, Option.some.injEq] at hd
        subst hd
        rfl
  | @execFailed mountpoint hmain =>
      have hnone : w.main.current = none := by rw [hmain]; rfl
      simp only [Aligned, hnone, List.map_append, List.map_singleton]
      exact ⟨hmain, .snoc (hal.of_ready hmain) .noThread⟩
  | @mainSleeps x d woken hmain hd hval hexp hasleep =>
      rw [Aligned, hmain] at hal
      exact hal
  | @mainSees x d woken v hmain hd hval hexp hv =>
      have hafter := hal.awoken hv
      rw [Aligned, Handshake.main_awoken hv, hmain] at hafter
      exact hafter
  | @mainDone x d woken v hmain hd hval hexp hv =>
      rw [hmain] at hm
      obtain ⟨y, hp, -⟩ := h.waits_of_initialized hd hval
      have hdone := hal.answered (r := 0) (by rw [hmain]; rfl) hd hm.1 fun u hstage => by
        rw [Stage, hp] at hstage
        exact .mounted hstage
      have hafter : MountsInOrder calls s (v.data.map LockData.mountpoint) (v.answers ++ [0])
          v.mounts := by
        rw [hv.names]
        rcases hv with rfl | ⟨t, rfl⟩
        · exact hdone
        · exact hdone
      exact ⟨rfl, hafter⟩
  | @matchFails j d hmain hd hval =>
      have hthread := h.threads j d hd
      rw [hmain] at hm
      refine ⟨rfl, hal.answered (by rw [hmain]; rfl) hd hm.1 fun u hstage => ?_⟩
      have hfailed : Failed calls u w.mounts d.mountpoint := by
        rw [ThreadOk] at hthread
        rw [Stage] at hstage
        split at hthread
        · simp [hval] at hthread
        · simp [hval] at hthread
        · simp [hval] at hthread
        · simp [hval] at hthread
        · simp [hval] at hthread
        · rename_i r hp
          rw [hp] at hstage
          rcases hthread with ⟨hr, -⟩ | ⟨-, hfinal, -⟩
          · exact Or.inl ⟨r, hr, hstage⟩
          · rw [hval] at hfinal
            cases hfinal
        · rename_i r hp
          rw [hp] at hstage
          exact hstage
        · rename_i hp
          rw [hp] at hstage
          exact hstage
      rcases hfailed with ⟨r, hr, hmount⟩ | hnone
      · exact .refused hmount hr
      · rw [hnone]
        exact .gaveUp
  | @matchGoes j d hmain hd hval =>
      rw [Aligned, hmain] at hal
      exact hal
  | terminate hmain => exact absurd ha.2 Bool.false_ne_true
  | @finish i woken hmain hi =>
      rw [Aligned, hmain] at hal
      cases hal.1
  | @leaves i d woken hmain hd hval =>
      rw [Aligned, hmain] at hal
      cases hal.1
  | @releases i d woken x hmain hd hval hthread =>
      rw [Aligned, hmain] at hal
      cases hal.1
  | @removes i d hmain hd =>
      rw [Aligned, hmain] at hal
      cases hal.1
  | @mkpath t d hd hp =>
      have hcur := h.current_of_waiting hd (by
        have hthread := h.threads t d hd
        rw [ThreadOk, hp] at hthread
        exact hthread) (by rw [hp]; exact FsPoint.noConfusion)
      refine hal.of_modify rfl (fun _ => rfl) rfl id rfl (Or.inr hcur) fun u e he hstage => ?_
      rw [hd, Option.some.injEq] at he
      subst he
      rw [Stage, hp] at hstage
      rw [hstage]
      rfl
  | @fuseMain t d hd hp =>
      refine hal.setThread hd fun u hstage => ?_
      rw [Stage, hp] at hstage
      exact hstage
  | @mount t d hd hp =>
      have hcur := h.current_of_waiting hd (by
        have hthread := h.threads t d hd
        rw [ThreadOk, hp] at hthread
        exact hthread.2.2) (by rw [hp]; exact FsPoint.noConfusion)
      refine hal.of_modify rfl (fun _ => rfl) rfl id rfl (Or.inr hcur) fun u e he hstage => ?_
      rw [hd, Option.some.injEq] at he
      subst he
      rw [Stage, hp] at hstage
      rw [hstage]
      rfl
  | @reportError t d r woken hd hp hr =>
      refine hal.update hd fun u hstage => ?_
      rw [Stage, hp] at hstage
      exact hstage
  | @reportDone t d woken hd hp =>
      refine hal.update hd fun u hstage => ?_
      rw [Stage, hp] at hstage
      exact hstage
  | @fsSleeps t d x woken hd hp hval hasleep =>
      refine hal.setThread hd fun u hstage => ?_
      rw [Stage, hp] at hstage
      exact hstage
  | @fsSees t d x woken hd hp hval =>
      refine hal.setThread hd fun u hstage => ?_
      rw [Stage, hp] at hstage
      exact hstage
  | @givesUp t d r hd hp hr =>
      refine hal.setThread hd fun u hstage => ?_
      rw [Stage, hp] at hstage
      exact Or.inr hstage
  | @returns t d r hd hp =>
      have hthread := h.threads t d hd
      rw [ThreadOk, hp] at hthread
      refine hal.setThread hd fun u hstage => ?_
      rw [Stage, hp] at hstage
      rcases hthread with ⟨hr, -⟩ | ⟨-, -, hreleased⟩
      · exact Or.inl ⟨r, hr, hstage⟩
      · exact absurd hreleased (hal.not_released t)
  | @finishError t d r woken hd hfreed hp hr =>
      refine hal.update hd fun u hstage => ?_
      rw [Stage, hp] at hstage
      exact hstage
  | @finishDone t d woken hd hfreed hp =>
      refine hal.update hd fun u hstage => ?_
      rw [Stage, hp] at hstage
      exact hstage
  | spurious p =>
      cases p with
      | main =>
          rw [Aligned, show (w.wake .main).main.current = w.main.current from current_awake _]
          unfold Aligned at hal
          cases hcur : w.main.current with
          | none =>
              rw [hcur] at hal
              refine ⟨?_, hal.2⟩
              rw [World.wake, World.main_setMain, hal.1]
              rfl
          | some j =>
              rw [hcur] at hal
              exact hal
      | fs t => exact hal.awoken (Or.inr ⟨t, rfl⟩)

theorem mounting_step {a : Action} (h : Handshake w ∧ Aligned calls s w) (ha : Mounting w a)
    (hs : step calls w a = some w') : Handshake w' ∧ Aligned calls s w' := by
  rcases h.1.step_effect ha.1 hs with heffect | ⟨-, hfreed⟩
  · exact ⟨heffect.handshake h.1 ha.1, heffect.aligned h.1 ha h.2⟩
  · exact absurd hfreed (h.2.not_frees h.1)

theorem mounting_run {as : List Action} (hg : Guarded (step calls) Mounting (World.start s) as)
    (hrun : runFrom (step calls) (World.start s) as = some w) : Handshake w ∧ Aligned calls s w :=
  runFrom_invariant (fun _ _ _ hi ha ht => mounting_step hi ha ht) as _ _
    ⟨handshake_start s, aligned_start s⟩ hg hrun

/-- However the threads are scheduled, no freed record is touched, zrt waits for the only file system
that is being initialized, and its calls are answered and change the mounts as if one file system was
mounted after the other. -/
theorem run_mountsInOrder (calls : MountCalls σ) (s : σ) (as : List Action) (w : World σ)
    (hg : Guarded (step calls) Mounting (World.start s) as)
    (hrun : runFrom (step calls) (World.start s) as = some w) :
    w.aborted = false ∧
      (w.main = .ready →
        MountsInOrder calls s (w.data.map LockData.mountpoint) w.answers w.mounts) ∧
      ∀ t d, w.data[t]? = some d → d.condValue = .waitingInitialization → d.thread ≠ .gone →
        w.main.current = some t ∧ t + 1 = w.data.length := by
  obtain ⟨h, hal⟩ := mounting_run hg hrun
  refine ⟨h.running, hal.of_ready, fun t d hd hval hnot => ?_⟩
  obtain ⟨asleep, hmain⟩ := h.waiting_current hd hval hnot
  have hm := h.main
  rw [hmain] at hm
  exact ⟨by rw [hmain]; rfl, hm.1⟩

/-! ## Every call is answered -/

/-- How much a thread of a file system has still to do. -/
def FsPoint.effort : FsPoint → Nat
  | .started => 60
  | .inMain none => 50
  | .mounts _ _ => 40
  | .reports _ _ => 30
  | .waits x => if x.asleep then 20 else 21
  | .inMain (some _) => 12
  | .ends _ => 10
  | .gone => 0

def MainPoint.effort : MainPoint → Nat
  | .waits x => if x.expected = .initializationError then (if x.asleep then 39 else 40) else 20
  | .matchesError _ => 30
  | _ => 0

def effort (w : World σ) : Nat := w.main.effort + (w.data.map fun d => d.thread.effort).sum

/-- A step that is not a new call nor a wake up without a signal. -/
def Action.Lasting : Action → Prop
  | .main (.execFuseMain _ _) => False
  | .spurious _ => False
  | _ => True

theorem sum_map_modify {f : LockData → LockData} (g : LockData → Nat) {data : List LockData}
    (hd : data[t]? = some d) :
    ((data.modify t f).map g).sum + g d = (data.map g).sum + g (f d) := by
  induction data generalizing t with
  | nil => cases hd
  | cons e data ih =>
      cases t with
      | zero =>
          simp only [List.getElem?_cons_zero, Option.some.injEq] at hd
          subst hd
          simp only [List.modify_zero_cons, List.map_cons, List.sum_cons]
          omega
      | succ t =>
          have hrest := ih (by simpa using hd)
          simp only [List.modify_succ_cons, List.map_cons, List.sum_cons]
          omega

private theorem effort_awake (m : MainPoint) : m.awake.effort ≤ m.effort + 1 := by
  cases m with
  | waits x =>
      simp only [MainPoint.awake, Wait.awake, MainPoint.effort]
      cases x.asleep <;> split <;> simp
  | _ => simp [MainPoint.awake]

private theorem effort_awakeAt (m : MainPoint) (j : Nat) : (m.awakeAt j).effort ≤ m.effort + 1 := by
  rcases Handshake.awakeAt_cases m j with hm | hm
  · rw [hm]
    omega
  · rw [hm]
    exact effort_awake m

private theorem effort_thread_awake (p : FsPoint) : p.awake.effort ≤ p.effort + 1 := by
  cases p with
  | waits x =>
      simp only [FsPoint.awake, Wait.awake, FsPoint.effort]
      cases x.asleep <;> simp
  | _ => simp [FsPoint.awake]

private theorem effort_setThread {p : FsPoint} (hd : w.data[t]? = some d) :
    effort (w.setThread t p) + d.thread.effort = effort w + p.effort := by
  have hsum := sum_map_modify (f := fun d => { d with thread := p }) (fun d => d.thread.effort) hd
  simp only [effort, World.setThread] at hsum ⊢
  omega

private theorem effort_update {v : CondValue} {p : FsPoint} (hd : w.data[t]? = some d) :
    effort (w.update t v p) + d.thread.effort ≤ effort w + p.effort + 1 := by
  have hsum := sum_map_modify (f := fun d => { d with condValue := v, thread := p })
    (fun d => d.thread.effort) hd
  have hmain := effort_awakeAt w.main t
  simp only [effort, World.update] at hsum hmain ⊢
  omega

private theorem Awoken.effort_threads {v : World σ} (hv : Awoken w v) :
    (v.data.map fun d => d.thread.effort).sum ≤ (w.data.map fun d => d.thread.effort).sum + 1 := by
  rcases hv with rfl | ⟨t, rfl⟩
  · omega
  · cases hd : w.data[t]? with
    | none =>
        have hlen := List.getElem?_eq_none_iff.mp hd
        simp [World.wake, List.modify_eq_self hlen]
    | some d =>
        have hsum := sum_map_modify (f := fun d => { d with thread := d.thread.awake })
          (fun d => d.thread.effort) hd
        have hthread := effort_thread_awake d.thread
        simp only [World.wake] at hsum ⊢
        omega

private theorem Effect.effort_lt {a : Action} (he : Effect calls w a w') (ha : Mounting w a)
    (hal : Aligned calls s w) (hlasting : a.Lasting) : effort w' < effort w := by
  cases he with
  | exec hmain => exact absurd hlasting id
  | execFailed hmain => exact absurd hlasting id
  | spurious p => exact absurd hlasting id
  | @mainSleeps x d woken hmain hd hval hexp hasleep =>
      simp [effort, hmain, MainPoint.effort, hexp, hasleep]
  | @mainSees x d woken v hmain hd hval hexp hv =>
      have hthreads := hv.effort_threads
      have hbefore : 39 ≤ w.main.effort := by
        cases hasleep : x.asleep <;> simp [hmain, MainPoint.effort, hexp, hasleep]
      have hafter : (v.setMain (.matchesError x.index)).main.effort = 30 := rfl
      simp only [effort, World.data_setMain, hafter]
      omega
  | @mainDone x d woken v hmain hd hval hexp hv =>
      have hthreads := hv.effort_threads
      simp only [effort, hmain, MainPoint.effort, hexp]
      rw [if_neg (by decide)]
      omega
  | @matchFails j d hmain hd hval => simp [effort, hmain, MainPoint.effort]
  | @matchGoes j d hmain hd hval => simp [effort, hmain, MainPoint.effort]
  | terminate hmain => exact absurd ha.2 Bool.false_ne_true
  | @finish i woken hmain hi =>
      rw [Aligned, hmain] at hal
      cases hal.1
  | @leaves i d woken hmain hd hval =>
      rw [Aligned, hmain] at hal
      cases hal.1
  | @releases i d woken x hmain hd hval hthread =>
      rw [Aligned, hmain] at hal
      cases hal.1
  | @removes i d hmain hd =>
      rw [Aligned, hmain] at hal
      cases hal.1
  | @mkpath t d hd hp =>
      have hstep := effort_setThread (p := .inMain none) hd
      simp only [hp, FsPoint.effort] at hstep
      simp only [effort] at hstep ⊢
      omega
  | @fuseMain t d hd hp =>
      have hstep := effort_setThread (p := .mounts t d.mountpoint) hd
      simp only [hp, FsPoint.effort] at hstep
      omega
  | @mount t d hd hp =>
      have hstep := effort_setThread (p := .reports t (calls.mountFuseFs w.mounts d.mountpoint).1) hd
      simp only [hp, FsPoint.effort] at hstep
      simp only [effort] at hstep ⊢
      omega
  | @reportError t d r woken hd hp hr =>
      have hstep := effort_update (v := .initializationError) (p := .inMain (some r)) hd
      simp only [hp, FsPoint.effort] at hstep
      omega
  | @reportDone t d woken hd hp =>
      have hstep := effort_update (v := .initialized)
        (p := .waits ⟨t, .waitingFinalization, false⟩) hd
      simp [hp, FsPoint.effort] at hstep
      omega
  | @fsSleeps t d x woken hd hp hval hasleep =>
      have hstep := effort_setThread (p := .waits { x with asleep := true }) hd
      simp [hp, FsPoint.effort, hasleep] at hstep
      omega
  | @fsSees t d x woken hd hp hval =>
      have hstep := effort_setThread (p := .inMain (some 0)) hd
      have hbefore : 20 ≤ d.thread.effort := by
        cases hasleep : x.asleep <;> simp [hp, FsPoint.effort, hasleep]
      have hafter : (FsPoint.inMain (some 0)).effort = 12 := rfl
      rw [hafter] at hstep
      omega
  | @givesUp t d r hd hp hr =>
      have hstep := effort_setThread (p := .ends r) hd
      simp only [hp, FsPoint.effort] at hstep
      omega
  | @returns t d r hd hp =>
      have hstep := effort_setThread (p := .ends r) hd
      simp only [hp, FsPoint.effort] at hstep
      omega
  | @finishError t d r woken hd hfreed hp hr =>
      have hstep := effort_update (v := .initializationError) (p := .gone) hd
      simp only [hp, FsPoint.effort] at hstep
      omega
  | @finishDone t d woken hd hfreed hp =>
      have hstep := effort_update (v := .waitingFinalization) (p := .gone) hd
      simp only [hp, FsPoint.effort] at hstep
      omega

private theorem Handshake.low_of_asleep (h : Handshake w) :
    (∀ x d, w.main = .waits x → x.asleep = true → w.data[x.index]? = some d →
      d.condValue.toNat < x.expected.toNat) ∧
    ∀ (t : Nat) d x, w.data[t]? = some d → d.thread = .waits x → x.asleep = true →
      d.condValue.toNat < x.expected.toNat := by
  constructor
  · intro x d hmain hasleep hd
    have hm := h.main
    rw [hmain] at hm
    have hcur := hm.2 x.index d hd
    rw [if_pos rfl] at hcur
    rcases hcur.2 with ⟨hexp, hval⟩ | ⟨-, hawake, -⟩
    · rw [hexp, hval hasleep]
      decide
    · rw [hasleep] at hawake
      cases hawake
  · intro t d x hd hp hasleep
    have hthread := h.threads t d hd
    rw [ThreadOk, hp] at hthread
    obtain ⟨-, hexp, ⟨hval, -⟩ | ⟨-, -, hawake⟩⟩ := hthread
    · rw [hexp, hval]
      decide
    · rw [hasleep] at hawake
      cases hawake

private theorem exists_updateCondValue (hd : w.data[t]? = some d) (hfreed : d.freed = false)
    (v : CondValue) : ∃ woken u, w.updateCondValue t v woken = some u := by
  obtain ⟨woken, u, hu⟩ := (w.setCondValue t v).exists_signal t
  refine ⟨woken, u, ?_⟩
  rw [World.updateCondValue, World.lockData_of_not_freed hd hfreed]
  exact hu

private theorem Handshake.exists_fsStep (h : Handshake w) (hd : w.data[t]? = some d)
    (hfreed : d.freed = false) (hval : d.condValue = .waitingInitialization)
    (hnot : d.thread ≠ .gone) :
    ∃ a w', Mounting w (.fs t a) ∧ fsStep calls w t d.thread a = some w' := by
  have hthread := h.threads t d hd
  have hlock := World.lockData_of_not_freed hd hfreed
  unfold ThreadOk at hthread
  cases hp : d.thread with
  | started => exact ⟨.mkpath, _, ⟨trivial, rfl⟩, by simp only [fsStep, hlock]; rfl⟩
  | inMain r =>
      cases r with
      | none =>
          refine ⟨.fuseMain d.mountpoint, _, ⟨?_, rfl⟩, by
            simp only [fsStep, h.match_own hd hfreed]; rfl⟩
          simp [Orderly, hd, hp]
      | some r => simp [hp, hval] at hthread
  | mounts j mountpoint =>
      rw [hp] at hthread
      obtain ⟨rfl, -, -⟩ := hthread
      exact ⟨.mount, _, ⟨trivial, rfl⟩, by simp only [fsStep, hlock]; rfl⟩
  | reports j r =>
      rw [hp] at hthread
      obtain ⟨rfl, -⟩ := hthread
      by_cases hr : r = 0
      · obtain ⟨woken, u, hu⟩ := exists_updateCondValue hd hfreed .initialized
        exact ⟨.report woken, _, ⟨trivial, rfl⟩, by simp only [fsStep, hr, hu]; rfl⟩
      · obtain ⟨woken, u, hu⟩ := exists_updateCondValue hd hfreed .initializationError
        exact ⟨.report woken, _, ⟨trivial, rfl⟩, by simp only [fsStep, if_pos hr, hu]; rfl⟩
  | waits x => simp [hp, hval] at hthread
  | ends r =>
      obtain ⟨woken, u, hu⟩ := exists_updateCondValue hd hfreed
        (if r ≠ 0 then .initializationError else .waitingFinalization)
      exact ⟨.finish woken, _, ⟨trivial, rfl⟩, by simp only [fsStep, hu]; rfl⟩
  | gone => exact absurd hp hnot

private theorem step_main (hlive : w.aborted = false) (a : MainAction) :
    step calls w (.main a) = mainStep calls w a := by
  simp [step, hlive]

private theorem step_fs (hlive : w.aborted = false) (t : Nat) (a : FsAction) :
    step calls w (.fs t a) = (w.data[t]?).bind fun d => fsStep calls w t d.thread a := by
  simp [step, hlive]

theorem exists_lasting (h : Handshake w) (hal : Aligned calls s w) (hmain : w.main ≠ .ready) :
    ∃ a w', Mounting w a ∧ a.Lasting ∧ step calls w a = some w' := by
  have hm := h.main
  have hfreed : ∀ (t : Nat) (d : LockData), w.data[t]? = some d → d.freed = false := by
    intro t d hd
    cases hf : d.freed with
    | false => rfl
    | true => exact absurd ⟨t, d, hd, hf⟩ (hal.not_freed h)
  cases hcur : w.main with
  | ready => exact absurd hcur hmain
  | waits x =>
      rw [hcur] at hm
      have hlt : x.index < w.data.length := by
        have hlen := hm.1
        omega
      have hd := List.getElem?_eq_getElem hlt
      generalize w.data[x.index] = d at hd
      have hlock := World.lockData_of_not_freed hd (hfreed _ _ hd)
      have hpending := hm.2 x.index d hd
      rw [if_pos rfl] at hpending
      cases hasleep : x.asleep with
      | true =>
          have hval : d.condValue = .waitingInitialization := by
            rcases hpending.2 with ⟨-, hval⟩ | ⟨-, hawake, -⟩
            · exact hval hasleep
            · rw [hasleep] at hawake
              cases hawake
          have hnot := hpending.1.resolve_left (not_not.mpr hval)
          have hfs : ∃ a w', Mounting w (.fs x.index a) ∧
              fsStep calls w x.index d.thread a = some w' :=
            h.exists_fsStep hd (hfreed _ _ hd) hval hnot
          obtain ⟨a, w', ha, hs⟩ := hfs
          refine ⟨.fs x.index a, w', ha, trivial, ?_⟩
          rw [step_fs h.running, hd, Option.bind_some]
          exact hs
      | false =>
          obtain ⟨woken, u, hu⟩ := w.exists_signal x.index
          have htest : ∃ w', step calls w (.main (.test woken)) = some w' := by
            rw [step_main h.running]
            simp only [mainStep, hcur, hasleep, Bool.false_eq_true, if_false, World.testCondValue,
              hlock]
            split
            · exact ⟨_, rfl⟩
            · rw [hu]
              exact ⟨_, rfl⟩
          obtain ⟨w', hs⟩ := htest
          exact ⟨.main (.test woken), w', ⟨trivial, rfl⟩, trivial, hs⟩
  | matchesError j =>
      rw [hcur] at hm
      have hlt : j < w.data.length := by
        have hlen := hm.1
        omega
      have hd := List.getElem?_eq_getElem hlt
      generalize w.data[j] = d at hd
      have hlock := World.lockData_of_not_freed hd (hfreed _ _ hd)
      have hmatch : ∃ w', step calls w (.main .matchError) = some w' := by
        rw [step_main h.running]
        simp only [mainStep, hcur, hlock]
        split
        · exact ⟨_, rfl⟩
        · exact ⟨_, rfl⟩
      obtain ⟨w', hs⟩ := hmatch
      exact ⟨.main .matchError, w', ⟨trivial, rfl⟩, trivial, hs⟩
  | _ =>
      rw [Aligned, hcur] at hal
      cases hal.1

/-- A run of steps that last. -/
def LastingRun (calls : MountCalls σ) (w : World σ) (as : List Action) (w' : World σ) : Prop :=
  Guarded (step calls) (fun w a => Mounting w a ∧ a.Lasting) w as ∧
    runFrom (step calls) w as = some w'

theorem lastingRun_length (as : List Action) (h : Handshake w ∧ Aligned calls s w)
    (hrun : LastingRun calls w as w') : as.length + effort w' ≤ effort w := by
  obtain ⟨hg, hrun⟩ := hrun
  induction as generalizing w with
  | nil =>
      simp only [runFrom, Option.some.injEq] at hrun
      simp [hrun]
  | cons a as ih =>
      obtain ⟨u, hu, hrest⟩ := runFrom_cons hrun
      obtain ⟨⟨ha, hlasting⟩, hg⟩ := hg
      have hnext := mounting_step h ha hu
      have hlt : effort u < effort w := by
        rcases h.1.step_effect ha.1 hu with heffect | ⟨-, hfreed⟩
        · exact heffect.effort_lt ha h.2 hlasting
        · exact absurd hfreed (h.2.not_frees h.1)
      have hlength := ih hnext (hg u hu) hrest
      rw [List.length_cons]
      omega

private theorem exists_answer (n : Nat) (h : Handshake w ∧ Aligned calls s w) (hn : effort w ≤ n) :
    ∃ as w', LastingRun calls w as w' ∧ w'.main = .ready := by
  induction n generalizing w with
  | zero =>
      by_cases hmain : w.main = .ready
      · exact ⟨[], w, ⟨trivial, rfl⟩, hmain⟩
      · obtain ⟨a, u, ha, hlasting, hu⟩ := exists_lasting h.1 h.2 hmain
        have hone : LastingRun calls w [a] u := ⟨⟨⟨ha, hlasting⟩, fun _ _ => trivial⟩, by
          simp [runFrom, hu]⟩
        have hlength := lastingRun_length [a] h hone
        simp only [List.length_singleton] at hlength
        omega
  | succ n ih =>
      by_cases hmain : w.main = .ready
      · exact ⟨[], w, ⟨trivial, rfl⟩, hmain⟩
      · obtain ⟨a, u, ha, hlasting, hu⟩ := exists_lasting h.1 h.2 hmain
        have hone : LastingRun calls w [a] u := ⟨⟨⟨ha, hlasting⟩, fun _ _ => trivial⟩, by
          simp [runFrom, hu]⟩
        have hlength := lastingRun_length [a] h hone
        simp only [List.length_singleton] at hlength
        obtain ⟨as, w', ⟨hg, hrun⟩, hready⟩ := ih (mounting_step h ha hu) (by omega)
        refine ⟨a :: as, w', ⟨⟨⟨ha, hlasting⟩, fun v hv => ?_⟩, ?_⟩, hready⟩
        · rw [hu, Option.some.injEq] at hv
          rw [← hv]
          exact hg
        · rw [runFrom, hu, Option.bind_some, hrun]

/-- No wake up is lost, and from every state that mounting reaches zrt comes to the answer of its
call: some thread can go on, and there are only so many steps that last. -/
theorem run_answered (calls : MountCalls σ) (s : σ) (as : List Action) (w : World σ)
    (hg : Guarded (step calls) Mounting (World.start s) as)
    (hrun : runFrom (step calls) (World.start s) as = some w) :
    ((∀ x d, w.main = .waits x → x.asleep = true → w.data[x.index]? = some d →
        d.condValue.toNat < x.expected.toNat) ∧
      ∀ (t : Nat) d x, w.data[t]? = some d → d.thread = .waits x → x.asleep = true →
        d.condValue.toNat < x.expected.toNat) ∧
    (w.main ≠ .ready → ∃ a w', Mounting w a ∧ a.Lasting ∧ step calls w a = some w') ∧
    (∀ bs w', LastingRun calls w bs w' → bs.length ≤ effort w) ∧
    ∃ bs w', LastingRun calls w bs w' ∧ w'.main = .ready := by
  have h := mounting_run hg hrun
  refine ⟨h.1.low_of_asleep, exists_lasting h.1 h.2, fun bs w' hbs => ?_,
    exists_answer (effort w) h (Nat.le_refl _)⟩
  have hlength := lastingRun_length bs h hbs
  omega

/-! ## The end of the mounts -/

/-- The record has been freed before its thread came to its end. -/
def Unfinished (w : World σ) (t : Nat) : Prop :=
  ∃ d, w.data[t]? = some d ∧ d.freed = true ∧ d.thread ≠ .gone

theorem Unfinished.of_modify (h : Unfinished w t) {u : Nat} {f : LockData → LockData}
    (hdata : w'.data = w.data.modify u f)
    (hf : ∀ d, w.data[u]? = some d → d.freed = true → d.thread ≠ .gone →
      (f d).freed = true ∧ (f d).thread ≠ .gone) : Unfinished w' t := by
  obtain ⟨d, hd, hfreed, hnot⟩ := h
  by_cases hu : u = t
  · subst hu
    refine ⟨f d, ?_, hf d hd hfreed hnot⟩
    simp [hdata, hd]
  · refine ⟨d, ?_, hfreed, hnot⟩
    simp [hdata, hd, hu]

private theorem Unfinished.of_data (h : Unfinished w t) (hdata : w'.data = w.data) : Unfinished w' t := by
  obtain ⟨d, hd, hrest⟩ := h
  exact ⟨d, by rw [hdata]; exact hd, hrest⟩

private theorem Unfinished.of_snoc (h : Unfinished w t) {e : LockData} (hdata : w'.data = w.data ++ [e]) :
    Unfinished w' t := by
  obtain ⟨d, hd, hrest⟩ := h
  refine ⟨d, ?_, hrest⟩
  rw [hdata, List.getElem?_append_left (List.getElem?_eq_some_iff.mp hd).1]
  exact hd

theorem awake_ne_gone {p : FsPoint} (h : p ≠ .gone) : p.awake ≠ .gone := by
  cases p with
  | gone => exact absurd rfl h
  | _ => simp [FsPoint.awake]

private theorem Unfinished.awoken (h : Unfinished w t) {v : World σ} (hv : Awoken w v) :
    Unfinished v t := by
  rcases hv with rfl | ⟨u, rfl⟩
  · exact h
  · exact h.of_modify rfl fun d _ hfreed hnot => ⟨hfreed, awake_ne_gone hnot⟩

private theorem Effect.unfinished {a : Action} (he : Effect calls w a w') (h : Unfinished w t) :
    Unfinished w' t := by
  cases he with
  | exec hmain => exact h.of_snoc rfl
  | execFailed hmain => exact h.of_snoc rfl
  | mainSleeps hmain hd hval hexp hasleep => exact h.of_data rfl
  | mainSees hmain hd hval hexp hv => exact (h.awoken hv).of_data rfl
  | mainDone hmain hd hval hexp hv => exact (h.awoken hv).of_data rfl
  | matchFails hmain hd hval => exact h.of_data rfl
  | matchGoes hmain hd hval => exact h.of_data rfl
  | terminate hmain => exact h.of_data rfl
  | finish hmain hi => exact h.of_data rfl
  | leaves hmain hd hval => exact h.of_data rfl
  | releases hmain hd hval hthread =>
      exact h.of_modify rfl fun d _ hfreed hnot => ⟨hfreed, awake_ne_gone hnot⟩
  | removes hmain hd => exact h.of_modify rfl fun d _ _ hnot => ⟨rfl, hnot⟩
  | mkpath hd hp => exact h.of_modify rfl fun d _ hfreed _ => ⟨hfreed, FsPoint.noConfusion⟩
  | fuseMain hd hp => exact h.of_modify rfl fun d _ hfreed _ => ⟨hfreed, FsPoint.noConfusion⟩
  | mount hd hp => exact h.of_modify rfl fun d _ hfreed _ => ⟨hfreed, FsPoint.noConfusion⟩
  | reportError hd hp hr =>
      exact h.of_modify rfl fun d _ hfreed _ => ⟨hfreed, FsPoint.noConfusion⟩
  | reportDone hd hp => exact h.of_modify rfl fun d _ hfreed _ => ⟨hfreed, FsPoint.noConfusion⟩
  | fsSleeps hd hp hval hasleep =>
      exact h.of_modify rfl fun d _ hfreed _ => ⟨hfreed, FsPoint.noConfusion⟩
  | fsSees hd hp hval => exact h.of_modify rfl fun d _ hfreed _ => ⟨hfreed, FsPoint.noConfusion⟩
  | givesUp hd hp hr => exact h.of_modify rfl fun d _ hfreed _ => ⟨hfreed, FsPoint.noConfusion⟩
  | returns hd hp => exact h.of_modify rfl fun d _ hfreed _ => ⟨hfreed, FsPoint.noConfusion⟩
  | finishError hd hlive hp hr =>
      refine h.of_modify rfl fun e he hfreed _ => ?_
      rw [hd, Option.some.injEq] at he
      rw [← he, hlive] at hfreed
      cases hfreed
  | finishDone hd hlive hp =>
      refine h.of_modify rfl fun e he hfreed _ => ?_
      rw [hd, Option.some.injEq] at he
      rw [← he, hlive] at hfreed
      cases hfreed
  | spurious p =>
      cases p with
      | main => exact h.of_data rfl
      | fs u => exact h.awoken (Or.inr ⟨u, rfl⟩)

private theorem orderly_run {as : List Action} (h : Handshake w ∨ w.aborted = true)
    (hg : Guarded (step calls) Orderly w as) (hrun : runFrom (step calls) w as = some w') :
    Handshake w' ∨ w'.aborted = true := by
  have hstep : ∀ (u : World σ) (a : Action) (v : World σ), (Handshake u ∨ u.aborted = true) →
      Orderly u a → step calls u a = some v → Handshake v ∨ v.aborted = true := by
    intro u a v hi ha hv
    rcases hi with hu | haborted
    · rcases hu.step_effect ha hv with heffect | ⟨habort, -⟩
      · exact Or.inl (heffect.handshake hu ha)
      · exact Or.inr habort
    · unfold step at hv
      rw [if_pos haborted] at hv
      cases hv
  exact runFrom_invariant hstep as _ _ h hg hrun

private theorem unfinished_run {as : List Action} (h : Handshake w) (hu : Unfinished w t)
    (hg : Guarded (step calls) Orderly w as) (hrun : runFrom (step calls) w as = some w') :
    w'.aborted = true ∨ Unfinished w' t := by
  induction as generalizing w with
  | nil =>
      simp only [runFrom, Option.some.injEq] at hrun
      subst hrun
      exact Or.inr hu
  | cons a as ih =>
      obtain ⟨v, hv, hrest⟩ := runFrom_cons hrun
      rcases h.step_effect hg.1 hv with heffect | ⟨habort, -⟩
      · exact ih (heffect.handshake h hg.1) (heffect.unfinished hu) (hg.2 v hv) hrest
      · left
        cases as with
        | nil =>
            simp only [runFrom, Option.some.injEq] at hrest
            rw [← hrest]
            exact habort
        | cons b bs =>
            obtain ⟨u, hu', -⟩ := runFrom_cons hrest
            unfold step at hu'
            rw [if_pos habort] at hu'
            cases hu'

/-- In every run that also terminates the mounts and has touched no freed record: nobody sleeps at a
record that has been released, what has been freed are the records that zrt has passed, and a thread
that has not ended when its record is freed will never end, whatever happens: it can only end the
run by touching the record. -/
theorem run_terminated (calls : MountCalls σ) (s : σ) (as : List Action) (w : World σ)
    (hg : Guarded (step calls) Orderly (World.start s) as)
    (hrun : runFrom (step calls) (World.start s) as = some w) (hlive : w.aborted = false) :
    (∀ (t : Nat) d, w.data[t]? = some d → Released w.main t → ∀ p, w.sleeps t p = false) ∧
    (∀ (t : Nat) d, w.data[t]? = some d → (d.freed = true ↔ Removed w.main t)) ∧
    ∀ t, Unfinished w t → ∀ bs w', Guarded (step calls) Orderly w bs →
      runFrom (step calls) w bs = some w' → w'.aborted = true ∨ Unfinished w' t := by
  have h : Handshake w := by
    rcases orderly_run (Or.inl (handshake_start s)) hg hrun with h | habort
    · exact h
    · rw [hlive] at habort
      cases habort
  refine ⟨fun t d hd hreleased p => ?_, h.freed, fun t hu bs w' hbs hrun' =>
    unfinished_run h hu hbs hrun'⟩
  rw [Bool.eq_false_iff]
  intro hsleeps
  cases p with
  | main =>
      cases hm : w.main with
      | waits x =>
          rw [hm] at hreleased
          exact hreleased
      | _ => simp [World.sleeps, hm, MainPoint.sleepsAt] at hsleeps
  | fs u =>
      simp only [World.sleeps] at hsleeps
      cases hu : w.data[u]? with
      | none => simp [hu] at hsleeps
      | some e =>
          simp only [hu, Option.any_some] at hsleeps
          obtain ⟨rfl, -, hnot⟩ := h.sleepsAt_index hu hsleeps
          exact hnot hreleased

/-! ## With the table of mounts -/

/-- The mounts that `mm_fusemount_add` enters. The directories are not part of the table. -/
def tableCalls : MountCalls (MountItems Unit) where
  mkpath items _ := items
  mountFuseFs items path :=
    match items.mmMountAdd path () false with
    | (.ok _, items) => (0, items)
    | (.error _, items) => (-1, items)
  mountRemove items path := (items.mmMountRemove path).2

/-- A file system whose thread waits at its mount while the second one gives up. -/
def twoMounts : List Action :=
  [.main (.execFuseMain "/a".toList true), .main (.test none), .fs 0 .mkpath,
    .fs 0 (.fuseMain "/a".toList), .spurious .main, .fs 0 .mount, .main (.test none),
    .fs 0 (.report (some .main)), .fs 0 (.test none), .main (.test (some (.fs 0))),
    .main .matchError, .fs 0 (.test none), .main (.test (some (.fs 0))),
    .main (.execFuseMain "/b".toList true), .fs 1 .mkpath, .fs 0 (.test none), .fs 1 (.returns 1),
    .main (.test none), .fs 1 (.finish (some .main)), .main (.test none), .main .matchError]

theorem run_mountsInOrder_twoMounts :
    ∃ w, runFrom (step tableCalls) (World.start []) twoMounts = some w ∧ w.answers = [0, -1] ∧
      MountsInOrder tableCalls [] ["/a".toList, "/b".toList] [0, -1] w.mounts := by
  have hends : RunEnds (step tableCalls) (World.start []) twoMounts fun w =>
      w.main = .ready ∧ w.answers = [0, -1] ∧
        w.data.map LockData.mountpoint = ["/a".toList, "/b".toList] := by
    decide
  obtain ⟨w, hrun, hready, hanswers, hnames⟩ := hends
  have horder := (run_mountsInOrder tableCalls [] twoMounts w (by decide) hrun).2.1 hready
  rw [hanswers, hnames] at horder
  exact ⟨w, hrun, hanswers, horder⟩

/-- In the middle of the first mount, with zrt asleep. -/
theorem run_answered_twoMounts :
    ∃ w bs w', runFrom (step tableCalls) (World.start []) (twoMounts.take 7) = some w ∧
      w.main = .waits ⟨0, .initializationError, true⟩ ∧ LastingRun tableCalls w bs w' ∧
      w'.main = .ready := by
  have hends : RunEnds (step tableCalls) (World.start []) (twoMounts.take 7) fun w =>
      w.main = .waits ⟨0, .initializationError, true⟩ := by
    decide
  obtain ⟨w, hrun, hmain⟩ := hends
  obtain ⟨-, -, -, bs, w', hlasting, hready⟩ :=
    run_answered tableCalls [] (twoMounts.take 7) w (by decide) hrun
  exact ⟨w, bs, w', hrun, hmain, hlasting, hready⟩

/-- The record of the first file system is freed while its thread still waits. -/
theorem run_terminated_twoMounts :
    ∃ w, runFrom (step tableCalls) (World.start [])
        (twoMounts ++ [.main .terminate, .main (.release (some (.fs 0))), .main (.remove true)]) = some w ∧
      Unfinished w 0 ∧
      ∀ bs w', Guarded (step tableCalls) Orderly w bs → runFrom (step tableCalls) w bs = some w' →
        w'.aborted = true ∨ Unfinished w' 0 := by
  have hends : RunEnds (step tableCalls) (World.start [])
      (twoMounts ++ [.main .terminate, .main (.release (some (.fs 0))), .main (.remove true)]) fun w =>
      w.aborted = false ∧ w.data[0]?.any fun d => d.freed ∧ d.thread ≠ .gone := by
    decide
  obtain ⟨w, hrun, hlive, hany⟩ := hends
  have hunfinished : Unfinished w 0 := by
    cases hd : w.data[0]? with
    | none => simp [hd] at hany
    | some d =>
        simp only [hd, Option.any_some, decide_eq_true_eq] at hany
        exact ⟨d, hd, hany⟩
  obtain ⟨-, -, hstays⟩ := run_terminated tableCalls []
    (twoMounts ++ [.main .terminate, .main (.release (some (.fs 0))), .main (.remove true)]) w (by decide)
    hrun hlive
  exact ⟨w, hrun, hunfinished, hstays 0 hunfinished⟩

end Zrt.Fs.FuseGlue
