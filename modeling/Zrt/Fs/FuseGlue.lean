import Zrt.Framework.Runs
import Zrt.Fs.PathUtils

/-!
# Mounting FUSE file systems from threads

Every FUSE file system runs its `main` in a thread of its own, while the thread of zrt waits for the
outcome of the mount. The two meet at a value that a mutex protects: the mount has failed, the file
system is initialized, or it may finish. A thread that finds the value too low sleeps on a condition
variable; who changes the value, and who has seen it change, wakes one sleeper.

The threads take their steps in any order. A critical section is one step, since nothing but the
value and the sleepers changes in it. Who is woken is up to the schedule, also that someone wakes up
without a signal. To touch a record that has been freed ends the run, but for one such read that
cannot be avoided: who removes a record frees it before it looks up its index in it.
-/

namespace Zrt.Fs.FuseGlue

open Zrt.Framework

inductive CondValue where
  | waitingInitialization | initializationError | initialized | waitingFinalization
deriving DecidableEq

def CondValue.toNat : CondValue → Nat
  | .waitingInitialization => 0
  | .initializationError => 1
  | .initialized => 2
  | .waitingFinalization => 3

/-- A call of `wait_cond_value_less_than_expected`. -/
structure Wait where
  index : Nat
  expected : CondValue
  asleep : Bool
deriving DecidableEq

/-- A sleeper on the condition of a record. -/
def Wait.sleepsAt (x : Wait) (j : Nat) : Bool := x.asleep && x.index == j

def Wait.awake (x : Wait) : Wait := { x with asleep := false }

/-- Where the thread of zrt is: in `exec_fuse_main` or in `terminate_fuse_mounts`. -/
inductive MainPoint where
  | ready
  | waits (w : Wait)
  | matchesError (index : Nat)
  | terminates (index : Nat)
  | removes (index : Nat)
  | finished
deriving DecidableEq

def MainPoint.sleepsAt (m : MainPoint) (j : Nat) : Bool :=
  match m with
  | .waits x => x.sleepsAt j
  | _ => false

def MainPoint.awake : MainPoint → MainPoint
  | .waits x => .waits x.awake
  | m => m

/-- Where the thread of a file system is: in `exec_fuse_main_async`, in the `main` of the file system
with the result of its last `fuse_main`, or in `fuse_main`. -/
inductive FsPoint where
  | started
  | inMain (fuseMain : Option Int)
  | mounts (index : Nat) (mountpoint : Text)
  | reports (index : Nat) (res : Int)
  | waits (w : Wait)
  | ends (ret : Int)
  | gone
deriving DecidableEq

def FsPoint.sleepsAt (p : FsPoint) (j : Nat) : Bool :=
  match p with
  | .waits x => x.sleepsAt j
  | _ => false

def FsPoint.awake : FsPoint → FsPoint
  | .waits x => .waits x.awake
  | p => p

/-- `struct async_lock_data`, with the thread that was created for it. -/
structure LockData where
  mountpoint : Text
  condValue : CondValue
  freed : Bool
  thread : FsPoint

/-- Size of `mountpoint` in `struct mount_args`. -/
def mountpointSize : Nat := 100

/-- What the threads do to the mounts: `mkpath_recursively`, `mount_fuse_fs` with the `init` of the
file system, and `mount_remove`. -/
structure MountCalls (σ : Type) where
  mkpath : σ → Text → σ
  mountFuseFs : σ → Text → Int × σ
  mountRemove : σ → Text → σ

structure World (σ : Type) where
  data : List LockData
  main : MainPoint
  answers : List Int
  mounts : σ
  aborted : Bool

inductive Party where
  | main
  | fs (index : Nat)
deriving DecidableEq

variable {σ : Type}

namespace World

def start (s : σ) : World σ := ⟨[], .ready, [], s, false⟩

def abort (w : World σ) : World σ := { w with aborted := true }

def setThread (w : World σ) (t : Nat) (p : FsPoint) : World σ :=
  { w with data := w.data.modify t fun d => { d with thread := p } }

def setMain (w : World σ) (m : MainPoint) : World σ := { w with main := m }

def setCondValue (w : World σ) (j : Nat) (v : CondValue) : World σ :=
  { w with data := w.data.modify j fun d => { d with condValue := v } }

/-- A record that can still be used. -/
def lockData (w : World σ) (j : Nat) : Option LockData := w.data[j]?.filter fun d => !d.freed

def sleeps (w : World σ) (j : Nat) : Party → Bool
  | .main => w.main.sleepsAt j
  | .fs t => w.data[t]?.any fun d => d.thread.sleepsAt j

def wake (w : World σ) : Party → World σ
  | .main => w.setMain w.main.awake
  | .fs t => { w with data := w.data.modify t fun d => { d with thread := d.thread.awake } }

/-- `pthread_cond_signal`: one of the sleepers wakes up, if there is one. -/
def signal (w : World σ) (j : Nat) : Option Party → Option (World σ)
  | some p => if w.sleeps j p then some (w.wake p) else none
  | none => if w.main.sleepsAt j ∨ w.data.any fun d => d.thread.sleepsAt j then none else some w

def updateCondValue (w : World σ) (j : Nat) (v : CondValue) (woken : Option Party) :
    Option (World σ) :=
  match w.lockData j with
  | none => some w.abort
  | some _ => (w.setCondValue j v).signal j woken

/-- The test of the loop. What the thread does next is `sleeping` or `done`. -/
def testCondValue (w : World σ) (x : Wait) (woken : Option Party) (sleeping done : World σ → World σ) :
    Option (World σ) :=
  match w.lockData x.index with
  | none => some w.abort
  | some d =>
      if d.condValue.toNat < x.expected.toNat then some (sleeping w)
      else (w.signal x.index woken).map done

/-- The first record with the mountpoint. A full array is compared as if it were terminated. -/
def matchMountDataByMountpoint (w : World σ) (mountpoint : Text) : Option Nat :=
  w.data.findIdx? fun d => !d.freed && d.mountpoint == mountpoint

end World

/-- What the thread of zrt does next. `created` is whether there was another thread to be had, `kept`
whether the index can still be read in the record that has just been freed. -/
inductive MainAction where
  | execFuseMain (mountpoint : Text) (created : Bool)
  | test (woken : Option Party)
  | matchError
  | terminate
  | release (woken : Option Party)
  | remove (kept : Bool)

/-- What the thread of a file system does next. -/
inductive FsAction where
  | mkpath
  | fuseMain (mountpoint : Text)
  | mount
  | report (woken : Option Party)
  | test (woken : Option Party)
  | returns (ret : Int)
  | finish (woken : Option Party)

inductive Action where
  | main (a : MainAction)
  | fs (t : Nat) (a : FsAction)
  | spurious (p : Party)

variable (calls : MountCalls σ)

def mainStep (w : World σ) (a : MainAction) : Option (World σ) :=
  match w.main, a with
  | .ready, .execFuseMain mountpoint created =>
      let d : LockData := ⟨mountpoint.take mountpointSize, .waitingInitialization, false,
        if created then .started else .gone⟩
      if created then
        some { w with
          data := w.data ++ [d]
          main := .waits ⟨w.data.length, .initializationError, false⟩ }
      else some { w with data := w.data ++ [d], answers := w.answers ++ [-1] }
  | .waits x, .test woken =>
      if x.asleep then none
      else
        w.testCondValue x woken (fun w => w.setMain (.waits { x with asleep := true })) fun w =>
          match x.expected with
          | .initializationError => w.setMain (.matchesError x.index)
          | _ => { w with main := .ready, answers := w.answers ++ [0] }
  | .matchesError j, .matchError =>
      match w.lockData j with
      | none => some w.abort
      | some d =>
          if d.condValue = .initializationError then
            some { w with main := .ready, answers := w.answers ++ [-1] }
          else some (w.setMain (.waits ⟨j, .initialized, false⟩))
  | .ready, .terminate => some (w.setMain (.terminates 0))
  | .terminates j, .release woken =>
      if w.data.length ≤ j then some (w.setMain .finished)
      else
        match w.lockData j with
        | none => some (w.setMain (.terminates (j + 1)))
        | some d =>
            if CondValue.initialized.toNat ≤ d.condValue.toNat then
              (w.updateCondValue j .waitingFinalization woken).map fun w => w.setMain (.removes j)
            else some (w.setMain (.removes j))
  | .removes j, .remove kept =>
      match w.lockData j with
      | none => some w.abort
      | some d =>
          let w' := { w with
            data := w.data.modify j fun d => { d with freed := true }
            main := .terminates (j + 1)
            mounts := calls.mountRemove w.mounts d.mountpoint }
          -- `free_lock_data_remove_from_array` reads the index behind the `free`
          if kept then some w' else some w'.abort
  | _, _ => none

def fsStep (w : World σ) (t : Nat) (p : FsPoint) (a : FsAction) : Option (World σ) :=
  match p, a with
  | .started, .mkpath =>
      match w.lockData t with
      | none => some w.abort
      | some d =>
          some { w.setThread t (.inMain none) with mounts := calls.mkpath w.mounts d.mountpoint }
  | .inMain _, .fuseMain mountpoint =>
      match w.matchMountDataByMountpoint mountpoint with
      | none => some w.abort
      | some j => some (w.setThread t (.mounts j mountpoint))
  | .mounts j mountpoint, .mount =>
      match w.lockData j with
      | none => some w.abort
      | some _ =>
          some { w.setThread t (.reports j (calls.mountFuseFs w.mounts mountpoint).1) with
            mounts := (calls.mountFuseFs w.mounts mountpoint).2 }
  | .reports j res, .report woken =>
      if res ≠ 0 then
        (w.updateCondValue j .initializationError woken).map fun w =>
          w.setThread t (.inMain (some res))
      else
        (w.updateCondValue j .initialized woken).map fun w =>
          w.setThread t (.waits ⟨j, .waitingFinalization, false⟩)
  | .waits x, .test woken =>
      if x.asleep then none
      else
        w.testCondValue x woken (fun w => w.setThread t (.waits { x with asleep := true })) fun w =>
          w.setThread t (.inMain (some 0))
  | .inMain _, .returns ret => some (w.setThread t (.ends ret))
  | .ends ret, .finish woken =>
      (w.updateCondValue t (if ret ≠ 0 then .initializationError else .waitingFinalization)
        woken).map fun w => w.setThread t .gone
  | _, _ => none

/-- Nothing happens behind an abort. -/
def step (w : World σ) (a : Action) : Option (World σ) :=
  if w.aborted then none
  else
    match a with
    | .main a => mainStep calls w a
    | .fs t a => (w.data[t]?).bind fun d => fsStep calls w t d.thread a
    | .spurious p => some (w.wake p)

/-! ## The synchronous engine -/

/-- What one mount may come to: the file system is mounted, the mount fails, its `main` gives up
before it mounts, or there is no thread. -/
inductive MountsOnce (s : σ) (mountpoint : Text) : Int → σ → Prop
  | mounted {t : σ} (h : calls.mountFuseFs (calls.mkpath s mountpoint) mountpoint = (0, t)) :
      MountsOnce s mountpoint 0 t
  | refused {t : σ} {r : Int} (h : calls.mountFuseFs (calls.mkpath s mountpoint) mountpoint = (r, t))
      (hr : r ≠ 0) : MountsOnce s mountpoint (-1) t
  | gaveUp : MountsOnce s mountpoint (-1) (calls.mkpath s mountpoint)
  | noThread : MountsOnce s mountpoint (-1) s

/-- One mount after the other, with their answers. -/
inductive MountsInOrder (s : σ) : List Text → List Int → σ → Prop
  | nil : MountsInOrder s [] [] s
  | snoc {mountpoints : List Text} {answers : List Int} {t u : σ} {mountpoint : Text} {r : Int}
      (h : MountsInOrder s mountpoints answers t) (hlast : MountsOnce calls t mountpoint r u) :
      MountsInOrder s (mountpoints ++ [mountpoint]) (answers ++ [r]) u

/-! ## File systems that keep to the protocol -/

/-- Mountpoints are distinct and fit their array. The `main` of a file system calls `fuse_main` once,
for its own mountpoint, and returns what it returned; if it does not come to call it, it fails. -/
def Orderly (w : World σ) : Action → Prop
  | .main (.execFuseMain mountpoint _) =>
      mountpoint.length < mountpointSize ∧ mountpoint ∉ w.data.map LockData.mountpoint
  | .fs t (.fuseMain mountpoint) =>
      w.data[t]?.any fun d => d.thread = .inMain none ∧ d.mountpoint = mountpoint
  | .fs t (.returns ret) =>
      w.data[t]?.any fun d => (d.thread = .inMain none ∧ ret ≠ 0) ∨ d.thread = .inMain (some ret)
  | _ => True

instance (w : World σ) (a : Action) : Decidable (Orderly w a) :=
  match a with
  | .main (.execFuseMain mountpoint _) =>
      inferInstanceAs (Decidable (mountpoint.length < mountpointSize ∧
        mountpoint ∉ w.data.map LockData.mountpoint))
  | .fs t (.fuseMain mountpoint) =>
      inferInstanceAs (Decidable ((w.data[t]?.any fun d =>
        d.thread = .inMain none ∧ d.mountpoint = mountpoint) = true))
  | .fs t (.returns ret) =>
      inferInstanceAs (Decidable ((w.data[t]?.any fun d =>
        (d.thread = .inMain none ∧ ret ≠ 0) ∨ d.thread = .inMain (some ret)) = true))
  | .main (.test _) | .main .matchError | .main .terminate | .main (.release _)
  | .main (.remove _) | .fs _ .mkpath | .fs _ .mount | .fs _ (.report _) | .fs _ (.test _)
  | .fs _ (.finish _) | .spurious _ => isTrue trivial

/-- A step that does not terminate the mounts. -/
def Action.Mounts : Action → Bool
  | .main .terminate => false
  | _ => true

/-- Mounting only. -/
def Mounting (w : World σ) (a : Action) : Prop := Orderly w a ∧ a.Mounts

instance (w : World σ) (a : Action) : Decidable (Mounting w a) :=
  inferInstanceAs (Decidable (Orderly w a ∧ a.Mounts = true))

end Zrt.Fs.FuseGlue
