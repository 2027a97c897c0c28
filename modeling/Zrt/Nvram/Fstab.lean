import Mathlib.Data.List.Forall2
import Zrt.Framework.Runs
import Zrt.Framework.Traces
import Zrt.Nvram.ConfParser

/-!
# Mounts of the fstab section

The fstab observer keeps the records of its section and imports their archives into the file system,
some when the section is handled and the others when a path below their mountpoint is accessed.
Unpacking an archive accesses paths as well, so an import can start others before it ends. The
observer writes a trace of what the life of a record consists of.
-/

namespace Zrt.Nvram

open Zrt.Framework

/-- The five parameters of a record of the section. -/
structure FstabRecord where
  channel : Text
  mountpoint : Text
  access : Text
  removable : Text
  fsname : Text
deriving DecidableEq

def accessRead : Text := ['r', 'o']

def accessWrite : Text := ['w', 'o']

def removableYes : Text := ['y', 'e', 's']

def removableNo : Text := ['n', 'o']

def fsnameDefault : Text := ['t', 'a', 'r']

/-- `strcasecmp` returns zero. -/
def equalIgnoringCase (s t : Text) : Bool := s.map Char.toLower = t.map Char.toLower

inductive FstabMountStatus where
  | waiting | processing | complete
deriving DecidableEq

structure FstabRecordContainer where
  mount : FstabRecord
  mountStatus : FstabMountStatus
deriving DecidableEq

/-- What happens to the stored records: a status is set, an import begins, its archive is read and
it ends, all records are erased. -/
inductive FstabAction where
  | statusSet (i : Nat) (status : FstabMountStatus)
  | importBegin (i : Nat) (record : FstabRecord)
  | importEnd (i : Nat)
  | oldMountsErased
deriving DecidableEq

structure FstabObserver where
  postponeMountsArray : List FstabRecordContainer
  updatedFstabRecords : Bool
  /-- The interfaces of the file systems were passed. -/
  interfacesSet : Bool
  trace : List FstabAction
deriving DecidableEq

/-- What unpacking an archive does, after all that happened before: it accesses paths in turn, or
there is no reader for its channel. -/
abbrev Archives := List FstabAction → FstabRecord → Option (List Text)

namespace FstabObserver

def start : FstabObserver := ⟨[], false, false, []⟩

def setStatus (s : FstabObserver) (i : Nat) (status : FstabMountStatus) : FstabObserver :=
  { s with
    postponeMountsArray := s.postponeMountsArray.modify i fun c => { c with mountStatus := status }
    trace := s.trace ++ [.statusSet i status] }

def emit (s : FstabObserver) (a : FstabAction) : FstabObserver := { s with trace := s.trace ++ [a] }

end FstabObserver

open FstabObserver

def FstabRecord.isRemovable (record : FstabRecord) : Bool :=
  equalIgnoringCase record.removable removableYes

def handleIsValidRecord (record : FstabRecord) : Bool :=
  (record.access = accessWrite ∨ record.access = accessRead) ∧
    (record.removable = removableYes ∨ record.removable = removableNo)

/-- The first record with the status whose mountpoint the path begins with. -/
def handleLocatePostponeMount (s : FstabObserver) (path : Text) (mountStatus : FstabMountStatus) :
    Option Nat :=
  s.postponeMountsArray.findIdx? fun c =>
    c.mount.mountpoint.isPrefixOf path && c.mountStatus = mountStatus

/-- At most one mount is tried, with the import that is passed. -/
def lazyMount (mountImport : FstabObserver → Nat → Option FstabObserver) (s : FstabObserver)
    (path : Text) : Option (Int × FstabObserver) :=
  match handleLocatePostponeMount s path .waiting with
  | some i => (mountImport s i).map fun t => (0, t)
  | none => some (-1, s)

/-- The lazy mounts that a sequence of accessed paths causes. -/
def lazyMounts (mountImport : FstabObserver → Nat → Option FstabObserver) :
    FstabObserver → List Text → Option FstabObserver
  | s, [] => some s
  | s, path :: paths =>
      (lazyMount mountImport s path).bind fun t => lazyMounts mountImport t.2 paths

/-- Only a waiting record is imported, and a record that stays mounted only before the first update
of the records. -/
def importable (s : FstabObserver) (c : FstabRecordContainer) : Bool :=
  c.mount.access = accessRead ∧ c.mountStatus = .waiting ∧
    (c.mount.isRemovable ∨ ¬ s.updatedFstabRecords)

/-- `fuel` bounds the depth of imports within imports. -/
def handleMountImport (archives : Archives) : Nat → FstabObserver → Nat → Option FstabObserver
  | 0, _, _ => none
  | fuel + 1, s, i =>
      if s.interfacesSet then
        match s.postponeMountsArray[i]? with
        | none => some s
        | some c =>
            if importable s c then
              let t := (s.setStatus i .processing).emit (.importBegin i c.mount)
              match archives t.trace c.mount with
              | none => some (t.emit (.importEnd i))
              | some paths =>
                  (lazyMounts (handleMountImport archives fuel) t paths).map fun u =>
                    (u.setStatus i .complete).emit (.importEnd i)
            else some s
      else none

/-- Enough for the records there are. -/
def importFuel (s : FstabObserver) : Nat := s.postponeMountsArray.length + 1

def handleFstabRecord (archives : Archives) (s : FstabObserver) (record : FstabRecord) :
    Option FstabObserver :=
  if handleIsValidRecord record then
    let i := s.postponeMountsArray.length
    let t : FstabObserver := { s with
      postponeMountsArray := s.postponeMountsArray ++ [⟨record, .waiting⟩]
      interfacesSet := true
      trace := s.trace ++ [.statusSet i .waiting] }
    if equalIgnoringCase record.fsname fsnameDefault ∧ record.access = accessRead ∧
        ¬ t.updatedFstabRecords then
      handleMountImport archives (importFuel t) t i
    else some t
  else some { s with interfacesSet := true }

def handleEraseOldMounts (s : FstabObserver) : FstabObserver :=
  { s with
    postponeMountsArray := []
    updatedFstabRecords := true
    trace := s.trace ++ [.oldMountsErased] }

/-- The status that the reset gives to a record. -/
def resetStatus (updatedFstabRecords : Bool) (record : FstabRecord) : FstabMountStatus :=
  if ¬ updatedFstabRecords ∨ (record.access = accessRead ∧ record.isRemovable) then .waiting
  else .complete

/-- The loop over `n` records from index `i` on. -/
def resetLoop (s : FstabObserver) : Nat → Nat → FstabObserver
  | 0, _ => s
  | n + 1, i =>
      match s.postponeMountsArray[i]? with
      | none => s
      | some c => resetLoop (s.setStatus i (resetStatus s.updatedFstabRecords c.mount)) n (i + 1)

def handleResetRemovable (s : FstabObserver) : FstabObserver :=
  resetLoop s s.postponeMountsArray.length 0

/-- Calls that come from outside, one after another; only a stored record is imported. -/
inductive FstabCall where
  | handleRecord (record : FstabRecord)
  | lazyMount (path : Text)
  | mountImport (i : Nat)
  | resetRemovable
  | eraseOldMounts
deriving DecidableEq

def fstabCall (archives : Archives) (s : FstabObserver) : FstabCall → Option FstabObserver
  | .handleRecord record => handleFstabRecord archives s record
  | .lazyMount path =>
      (lazyMount (handleMountImport archives (importFuel s)) s path).map Prod.snd
  | .mountImport i =>
      if i < s.postponeMountsArray.length then handleMountImport archives (importFuel s) s i
      else some s
  | .resetRemovable => some (handleResetRemovable s)
  | .eraseOldMounts => some (handleEraseOldMounts s)

def IsImport (i : Nat) (a : FstabAction) : Prop := ∃ record, a = .importBegin i record

def Erases (a : FstabAction) : Prop := a = .oldMountsErased

def SetWaiting (i : Nat) (a : FstabAction) : Prop := a = .statusSet i .waiting

def EndsImport (i : Nat) (a : FstabAction) : Prop := a = .importEnd i

/-- The import of a record that stays mounted. -/
def ImportsFixed (a : FstabAction) : Prop :=
  ∃ i record, a = .importBegin i record ∧ record.removable = removableNo

/-- A record may be imported: since its last import it was set to waiting, and the import ended. -/
structure Ready (i : Nat) (trace : List FstabAction) : Prop where
  set : Released (IsImport i) Erases (SetWaiting i) trace
  ended : Released (IsImport i) Erases (EndsImport i) trace

/-- Between two imports of a stored record the first one ended, and its status was set to waiting.
An erasure gives the index to another record. -/
structure ImportedOnce (i : Nat) (trace : List FstabAction) : Prop where
  set : Separated (IsImport i) Erases (SetWaiting i) trace
  ended : Separated (IsImport i) Erases (EndsImport i) trace

namespace FstabObserver

structure Sound (s : FstabObserver) : Prop where
  ready : ∀ i c, s.postponeMountsArray[i]? = some c → c.mountStatus = .waiting → Ready i s.trace
  beyond : ∀ i, s.postponeMountsArray.length ≤ i →
    Released (IsImport i) Erases (fun _ => False) s.trace
  once : ∀ i, ImportedOnce i s.trace
  fixed : CleanAfter Erases ImportsFixed s.trace
  updated : ∀ a ∈ s.trace, Erases a → s.updatedFstabRecords = true
  interfaces : s.postponeMountsArray ≠ [] → s.interfacesSet = true

end FstabObserver

/-- An action that neither begins an import nor erases the records. -/
structure Quiet (a : FstabAction) : Prop where
  not_import : ∀ i, ¬ IsImport i a
  not_erase : ¬ Erases a

theorem quiet_statusSet (i : Nat) (status : FstabMountStatus) : Quiet (.statusSet i status) where
  not_import := fun _ ⟨_, h⟩ => FstabAction.noConfusion h
  not_erase := fun h => FstabAction.noConfusion h

theorem quiet_importEnd (i : Nat) : Quiet (.importEnd i) where
  not_import := fun _ ⟨_, h⟩ => FstabAction.noConfusion h
  not_erase := fun h => FstabAction.noConfusion h

theorem Ready.snoc {i : Nat} {trace : List FstabAction} {a : FstabAction} (h : Ready i trace)
    (ha : ¬ IsImport i a) : Ready i (trace ++ [a]) :=
  ⟨h.set.snoc ha, h.ended.snoc ha⟩

theorem ImportedOnce.snoc {i : Nat} {trace : List FstabAction} {a : FstabAction}
    (h : ImportedOnce i trace) (ha : IsImport i a → Ready i trace) :
    ImportedOnce i (trace ++ [a]) :=
  ⟨h.set.snoc fun hi => (ha hi).set, h.ended.snoc fun hi => (ha hi).ended⟩

namespace FstabObserver

variable {s t u : FstabObserver}

private theorem Sound.start : Sound start where
  ready := by simp [FstabObserver.start]
  beyond := fun _ _ => .nil
  once := fun _ => ⟨.nil, .nil⟩
  fixed := .nil
  updated := by simp [FstabObserver.start]
  interfaces := by simp [FstabObserver.start]

theorem getElem?_setStatus (i j : Nat) (status : FstabMountStatus) :
    (s.setStatus i status).postponeMountsArray[j]? =
      (s.postponeMountsArray[j]?).map fun c =>
        if i = j then { c with mountStatus := status } else c := by
  rw [setStatus, List.getElem?_modify]
  cases s.postponeMountsArray[j]? <;> rfl

@[simp] theorem length_setStatus (i : Nat) (status : FstabMountStatus) :
    (s.setStatus i status).postponeMountsArray.length = s.postponeMountsArray.length :=
  List.length_modify ..

theorem Sound.quiet (h : s.Sound) {a : FstabAction} (ha : Quiet a)
    {array : List FstabRecordContainer} (hlen : s.postponeMountsArray.length ≤ array.length)
    {interfacesSet : Bool} (hinterfaces : array ≠ [] → interfacesSet = true)
    (hready : ∀ i c, array[i]? = some c → c.mountStatus = .waiting → Ready i (s.trace ++ [a])) :
    Sound ⟨array, s.updatedFstabRecords, interfacesSet, s.trace ++ [a]⟩ where
  ready := hready
  beyond i hi := (h.beyond i (Nat.le_trans hlen hi)).snoc (ha.not_import i)
  once i := (h.once i).snoc fun hi => absurd hi (ha.not_import i)
  fixed := h.fixed.snoc fun ⟨i, record, hi, _⟩ => absurd ⟨record, hi⟩ (ha.not_import i)
  updated := by
    intro x hx he
    rcases List.mem_append.mp hx with hx | hx
    · exact h.updated x hx he
    · exact absurd (List.mem_singleton.mp hx ▸ he) ha.not_erase
  interfaces := hinterfaces

theorem Sound.setStatus (h : s.Sound) (i : Nat) (status : FstabMountStatus)
    (hended : status = .waiting → Released (IsImport i) Erases (EndsImport i) s.trace) :
    (s.setStatus i status).Sound := by
  have hquiet := quiet_statusSet i status
  have hlen := length_setStatus (s := s) i status
  refine h.quiet hquiet (Nat.le_of_eq hlen.symm) (fun hne => h.interfaces fun hnil => hne ?_)
    fun j d hd hwaiting => ?_
  · exact List.length_eq_zero_iff.mp (by rw [hlen, hnil, List.length_nil])
  change (s.setStatus i status).postponeMountsArray[j]? = some d at hd
  rw [getElem?_setStatus] at hd
  obtain ⟨c, hc, rfl⟩ := Option.map_eq_some_iff.mp hd
  by_cases hij : i = j
  · subst hij
    rw [if_pos rfl] at hwaiting
    obtain rfl : status = .waiting := hwaiting
    exact ⟨.of_release rfl (hquiet.not_import i), (hended rfl).snoc (hquiet.not_import i)⟩
  · rw [if_neg hij] at hwaiting
    exact (h.ready j c hc hwaiting).snoc (hquiet.not_import j)

private theorem Sound.emitEnd (h : s.Sound) (i : Nat) : (s.emit (.importEnd i)).Sound :=
  h.quiet (quiet_importEnd i) (Nat.le_refl _) h.interfaces fun j c hc hwaiting =>
    (h.ready j c hc hwaiting).snoc ((quiet_importEnd i).not_import j)

theorem Sound.processing_ne (i : Nat) {j : Nat} {d : FstabRecordContainer}
    (hd : (s.setStatus i .processing).postponeMountsArray[j]? = some d)
    (hwaiting : d.mountStatus = .waiting) : i ≠ j := by
  rintro rfl
  rw [getElem?_setStatus] at hd
  obtain ⟨c, -, rfl⟩ := Option.map_eq_some_iff.mp hd
  rw [if_pos rfl] at hwaiting
  exact FstabMountStatus.noConfusion hwaiting

private theorem Sound.beginImport (h : s.Sound) {i : Nat} {c : FstabRecordContainer}
    (hc : s.postponeMountsArray[i]? = some c) (himport : importable s c = true) :
    ((s.setStatus i .processing).emit (.importBegin i c.mount)).Sound := by
  have himportable := of_decide_eq_true himport
  have hlt := (List.getElem?_eq_some_iff.mp hc).1
  have ht := h.setStatus i .processing fun hw => FstabMountStatus.noConfusion hw
  have hready : Ready i (s.setStatus i .processing).trace :=
    (h.ready i c hc himportable.2.1).snoc ((quiet_statusSet i .processing).not_import i)
  have hother : ∀ j, i ≠ j → ¬ IsImport j (.importBegin i c.mount) := by
    rintro j hij ⟨record, hj⟩
    exact hij (FstabAction.importBegin.inj hj).1
  constructor
  · intro j d hd hwaiting
    exact (ht.ready j d hd hwaiting).snoc (hother j (Sound.processing_ne i hd hwaiting))
  · intro j hj
    exact (ht.beyond j hj).snoc (hother j fun hij => by simp [emit] at hj; omega)
  · intro j
    refine (ht.once j).snoc fun hj => ?_
    by_cases hij : i = j
    · exact hij ▸ hready
    · exact absurd hj (hother j hij)
  · refine ht.fixed.snoc fun hfixed y hy he => ?_
    -- after an erasure only removable records are importable
    obtain ⟨j, record, hj, hno⟩ := hfixed
    obtain ⟨rfl, rfl⟩ := FstabAction.importBegin.inj hj
    have hupdated : s.updatedFstabRecords = true := ht.updated y hy he
    rcases himportable.2.2 with hremovable | hnot
    · rw [FstabRecord.isRemovable, hno] at hremovable
      exact absurd hremovable (by decide)
    · exact hnot hupdated
  · intro a ha he
    rcases List.mem_append.mp ha with ha | ha
    · exact ht.updated a ha he
    · rw [List.mem_singleton.mp ha] at he
      exact FstabAction.noConfusion he
  · exact ht.interfaces

end FstabObserver

/-- The record stays what it is, and does not come to wait. -/
def FstabRecordContainer.Keeps (c d : FstabRecordContainer) : Prop :=
  d.mount = c.mount ∧ (d.mountStatus = .waiting → c.mountStatus = .waiting)

theorem keeps_refl (l : List FstabRecordContainer) : List.Forall₂ FstabRecordContainer.Keeps l l :=
  List.forall₂_same.mpr fun _ _ => ⟨rfl, id⟩

theorem keeps_trans {k l m : List FstabRecordContainer}
    (hkl : List.Forall₂ FstabRecordContainer.Keeps k l)
    (hlm : List.Forall₂ FstabRecordContainer.Keeps l m) :
    List.Forall₂ FstabRecordContainer.Keeps k m := by
  induction hkl generalizing m with
  | nil => exact hlm
  | cons hcd _ ih =>
      cases hlm with
      | cons hde htail =>
          exact .cons ⟨hde.1.trans hcd.1, fun hw => hcd.2 (hde.2 hw)⟩ (ih htail)

private theorem keeps_modify (l : List FstabRecordContainer) (i : Nat) {status : FstabMountStatus}
    (hstatus : status ≠ .waiting) :
    List.Forall₂ FstabRecordContainer.Keeps l
      (l.modify i fun c => { c with mountStatus := status }) := by
  induction l generalizing i with
  | nil => simp
  | cons c l ih =>
      cases i with
      | zero => exact .cons ⟨rfl, fun hw => absurd hw hstatus⟩ (keeps_refl l)
      | succ i => exact .cons ⟨rfl, id⟩ (ih i)

/-- How many records wait. -/
def waitingCount (l : List FstabRecordContainer) : Nat :=
  l.countP fun c => c.mountStatus = .waiting

private theorem waitingCount_le {l m : List FstabRecordContainer}
    (h : List.Forall₂ FstabRecordContainer.Keeps l m) :
    waitingCount m ≤ waitingCount l := by
  induction h with
  | nil => exact Nat.le_refl _
  | @cons c d l m hcd _ ih =>
      simp only [waitingCount, List.countP_cons] at ih ⊢
      by_cases hd : d.mountStatus = .waiting
      · simp only [hd, hcd.2 hd, decide_true, if_true]
        exact Nat.succ_le_succ ih
      · simp only [hd, decide_false, Bool.false_eq_true, if_false, Nat.add_zero]
        exact Nat.le_trans ih (Nat.le_add_right ..)

private theorem waitingCount_modify_lt (l : List FstabRecordContainer) (i : Nat)
    {c : FstabRecordContainer} (hc : l[i]? = some c) (hwaiting : c.mountStatus = .waiting)
    {status : FstabMountStatus} (hstatus : status ≠ .waiting) :
    waitingCount (l.modify i fun c => { c with mountStatus := status }) < waitingCount l := by
  induction l generalizing i with
  | nil => simp at hc
  | cons d l ih =>
      cases i with
      | zero =>
          obtain rfl : d = c := by simpa using hc
          simp [waitingCount, hwaiting, hstatus]
      | succ i =>
          have hlt := ih i (by simpa using hc)
          simp only [waitingCount, List.modify_succ_cons, List.countP_cons] at hlt ⊢
          omega

namespace FstabObserver

variable {s t u : FstabObserver}

/-- What an import, with those it causes, does to the observer. -/
structure Advances (s t : FstabObserver) : Prop where
  sound : t.Sound
  records : List.Forall₂ FstabRecordContainer.Keeps s.postponeMountsArray t.postponeMountsArray
  ended : ∀ i, Released (IsImport i) Erases (EndsImport i) s.trace →
    Released (IsImport i) Erases (EndsImport i) t.trace

theorem Advances.refl (h : s.Sound) : Advances s s := ⟨h, keeps_refl _, fun _ => id⟩

private theorem Advances.trans (hst : Advances s t) (htu : Advances t u) : Advances s u :=
  ⟨htu.sound, keeps_trans hst.records htu.records, fun i h => htu.ended i (hst.ended i h)⟩

theorem Advances.length_eq (h : Advances s t) :
    t.postponeMountsArray.length = s.postponeMountsArray.length := h.records.length_eq.symm

/-- The import of one record, with fewer than `n` waiting, ends and advances the observer. -/
def Imports (mountImport : FstabObserver → Nat → Option FstabObserver) (n : Nat) : Prop :=
  ∀ s : FstabObserver, s.Sound → waitingCount s.postponeMountsArray < n →
    ∀ i < s.postponeMountsArray.length, ∃ t, mountImport s i = some t ∧ Advances s t

variable {mountImport : FstabObserver → Nat → Option FstabObserver} {n : Nat}

theorem lazyMount_advances (hf : Imports mountImport n) (hs : s.Sound)
    (hn : waitingCount s.postponeMountsArray < n) (path : Text) :
    ∃ r t, lazyMount mountImport s path = some (r, t) ∧ Advances s t := by
  rw [lazyMount]
  cases hi : handleLocatePostponeMount s path .waiting with
  | none => exact ⟨-1, s, rfl, .refl hs⟩
  | some i =>
      have hlt := (List.findIdx?_eq_some_iff_getElem.mp hi).1
      obtain ⟨t, ht, hadv⟩ := hf s hs hn i hlt
      exact ⟨0, t, by simp only [ht, Option.map_some], hadv⟩

private theorem lazyMounts_advances (hf : Imports mountImport n) (hs : s.Sound)
    (hn : waitingCount s.postponeMountsArray < n) (paths : List Text) :
    ∃ t, lazyMounts mountImport s paths = some t ∧ Advances s t := by
  induction paths generalizing s with
  | nil => exact ⟨s, rfl, .refl hs⟩
  | cons path paths ih =>
      obtain ⟨r, t, ht, hst⟩ := lazyMount_advances hf hs hn path
      obtain ⟨u, hu, htu⟩ := ih hst.sound (Nat.lt_of_le_of_lt (waitingCount_le hst.records) hn)
      exact ⟨u, by rw [lazyMounts, ht, Option.bind_some, hu], hst.trans htu⟩

private theorem Advances.endImport {i : Nat} (hs : t.Sound)
    (hrecords : List.Forall₂ FstabRecordContainer.Keeps s.postponeMountsArray
      t.postponeMountsArray)
    (hother : ∀ j, i ≠ j → Released (IsImport j) Erases (EndsImport j) s.trace →
      Released (IsImport j) Erases (EndsImport j) t.trace) :
    Advances s (t.emit (.importEnd i)) where
  sound := hs.emitEnd i
  records := hrecords
  ended := by
    intro j hj
    have hquiet := (quiet_importEnd i).not_import j
    by_cases hij : i = j
    · subst hij
      exact .of_release rfl hquiet
    · exact (hother j hij hj).snoc hquiet

/-- With more fuel than there are waiting records an import ends, since each import within it takes
a waiting record away. -/
theorem handleMountImport_imports (archives : Archives) (fuel : Nat) :
    Imports (handleMountImport archives fuel) fuel := by
  induction fuel with
  | zero => exact fun s _ hn => absurd hn (Nat.not_lt_zero _)
  | succ fuel ih =>
      intro s hs hn i hi
      have hc := List.getElem?_eq_getElem hi
      set c := s.postponeMountsArray[i]
      have hinterfaces : s.interfacesSet = true :=
        hs.interfaces (List.ne_nil_of_length_pos (Nat.lt_of_le_of_lt (Nat.zero_le i) hi))
      rw [handleMountImport, if_pos hinterfaces]
      simp only [hc]
      by_cases himport : importable s c = true
      · rw [if_pos himport]
        have hwaiting := (of_decide_eq_true himport).2.1
        have hbegin := hs.beginImport hc himport
        set t := (s.setStatus i .processing).emit (.importBegin i c.mount)
        have hrecords : List.Forall₂ FstabRecordContainer.Keeps s.postponeMountsArray
            t.postponeMountsArray := keeps_modify s.postponeMountsArray i (by decide)
        have hfewer : waitingCount t.postponeMountsArray < waitingCount s.postponeMountsArray :=
          waitingCount_modify_lt s.postponeMountsArray i hc hwaiting (by decide)
        have hother : ∀ j, i ≠ j → Released (IsImport j) Erases (EndsImport j) s.trace →
            Released (IsImport j) Erases (EndsImport j) t.trace := by
          intro j hij hj
          refine (hj.snoc ((quiet_statusSet i .processing).not_import j)).snoc ?_
          rintro ⟨record, heq⟩
          exact hij (FstabAction.importBegin.inj heq).1
        cases archives t.trace c.mount with
        | none => exact ⟨_, rfl, .endImport hbegin hrecords hother⟩
        | some paths =>
            obtain ⟨u, hu, htu⟩ := lazyMounts_advances ih hbegin (by omega) paths
            simp only [hu, Option.map_some]
            refine ⟨_, rfl, .endImport (htu.sound.setStatus i .complete
              fun hw => FstabMountStatus.noConfusion hw) ?_ ?_⟩
            · exact keeps_trans hrecords (keeps_trans htu.records
                (keeps_modify u.postponeMountsArray i (by decide)))
            · intro j hij hj
              exact (htu.ended j (hother j hij hj)).snoc
                ((quiet_statusSet i .complete).not_import j)
      · rw [if_neg himport]
        exact ⟨s, rfl, .refl hs⟩

/-- Between two calls every import that began has ended. -/
structure Idle (s : FstabObserver) : Prop where
  sound : s.Sound
  ended : ∀ i, Released (IsImport i) Erases (EndsImport i) s.trace

theorem Idle.advances (h : s.Idle) (hst : Advances s t) : t.Idle :=
  ⟨hst.sound, fun i => hst.ended i (h.ended i)⟩

theorem waitingCount_lt_importFuel (s : FstabObserver) :
    waitingCount s.postponeMountsArray < importFuel s :=
  Nat.lt_succ_of_le List.countP_le_length

theorem Idle.importRecord (h : s.Idle) (archives : Archives) {i : Nat}
    (hi : i < s.postponeMountsArray.length) :
    ∃ t, handleMountImport archives (importFuel s) s i = some t ∧ t.Idle := by
  obtain ⟨t, ht, hst⟩ := handleMountImport_imports archives (importFuel s) s h.sound
    (waitingCount_lt_importFuel s) i hi
  exact ⟨t, ht, h.advances hst⟩

private theorem Idle.storeRecord (h : s.Idle) (record : FstabRecord) :
    Idle { s with
      postponeMountsArray := s.postponeMountsArray ++ [⟨record, .waiting⟩]
      interfacesSet := true
      trace := s.trace ++ [.statusSet s.postponeMountsArray.length .waiting] } := by
  have hquiet := quiet_statusSet s.postponeMountsArray.length .waiting
  refine ⟨h.sound.quiet hquiet (by simp) (fun _ => rfl) fun i c hc hwaiting => ?_,
    fun i => (h.ended i).snoc (hquiet.not_import i)⟩
  by_cases hi : i < s.postponeMountsArray.length
  · rw [List.getElem?_append_left hi] at hc
    exact (h.sound.ready i c hc hwaiting).snoc (hquiet.not_import i)
  · have hlt := (List.getElem?_eq_some_iff.mp hc).1
    rw [List.length_append, List.length_singleton] at hlt
    obtain rfl : i = s.postponeMountsArray.length := by omega
    exact ⟨.of_release rfl (hquiet.not_import _), (h.ended _).snoc (hquiet.not_import _)⟩

private theorem Idle.setInterfaces (h : s.Idle) : Idle { s with interfacesSet := true } where
  sound := { h.sound with interfaces := fun _ => rfl }
  ended := h.ended

private theorem Idle.setStatus (h : s.Idle) (i : Nat) (status : FstabMountStatus) :
    (s.setStatus i status).Idle where
  sound := h.sound.setStatus i status fun _ => h.ended i
  ended j := (h.ended j).snoc ((quiet_statusSet i status).not_import j)

private theorem Idle.resetLoop (h : s.Idle) (n i : Nat) : (resetLoop s n i).Idle := by
  induction n generalizing s i with
  | zero => exact h
  | succ n ih =>
      rw [Nvram.resetLoop]
      cases s.postponeMountsArray[i]? with
      | none => exact h
      | some c => exact ih (h.setStatus i _) (i + 1)

private theorem Idle.eraseOldMounts (h : s.Idle) : (handleEraseOldMounts s).Idle := by
  have herase : Erases .oldMountsErased := rfl
  have himport : ∀ i, ¬ IsImport i .oldMountsErased := fun i ⟨_, hi⟩ => FstabAction.noConfusion hi
  refine ⟨?_, fun i => (h.ended i).snoc (himport i)⟩
  constructor
  · intro i c hc
    simp [handleEraseOldMounts] at hc
  · exact fun i _ => .of_barrier herase (himport i)
  · exact fun i => (h.sound.once i).snoc fun hi => absurd hi (himport i)
  · exact h.sound.fixed.snoc fun ⟨i, record, hi, _⟩ => absurd ⟨record, hi⟩ (himport i)
  · exact fun _ _ _ => rfl
  · exact fun hne => absurd rfl hne

private theorem Idle.handleRecord (h : s.Idle) (archives : Archives) (record : FstabRecord) :
    ∃ t, handleFstabRecord archives s record = some t ∧ t.Idle := by
  rw [handleFstabRecord]
  split
  · have hstored := h.storeRecord record
    dsimp only
    split
    · exact hstored.importRecord archives (by simp)
    · exact ⟨_, rfl, hstored⟩
  · exact ⟨_, rfl, h.setInterfaces⟩

private theorem Idle.call (h : s.Idle) (archives : Archives) (call : FstabCall) :
    ∃ t, fstabCall archives s call = some t ∧ t.Idle := by
  cases call with
  | handleRecord record => exact h.handleRecord archives record
  | lazyMount path =>
      obtain ⟨r, t, ht, hst⟩ := lazyMount_advances
        (handleMountImport_imports archives (importFuel s)) h.sound
        (waitingCount_lt_importFuel s) path
      exact ⟨t, by rw [fstabCall, ht, Option.map_some], h.advances hst⟩
  | mountImport i =>
      rw [fstabCall]
      split
      · rename_i hi
        exact h.importRecord archives hi
      · exact ⟨s, rfl, h⟩
  | resetRemovable => exact ⟨_, rfl, h.resetLoop _ _⟩
  | eraseOldMounts => exact ⟨_, rfl, h.eraseOldMounts⟩

private theorem Idle.start : start.Idle := ⟨.start, fun _ => .nil⟩

end FstabObserver

/-- Every sequence of calls ends. In its trace no stored record is imported twice, unless the first
of the two ended and the record was set to waiting in between; after an erasure no record that stays
mounted is imported. -/
theorem fstabCall_runEnds (archives : Archives) (calls : List FstabCall) :
    RunEnds (fstabCall archives) FstabObserver.start calls fun s =>
      (∀ i, ImportedOnce i s.trace) ∧ CleanAfter Erases ImportsFixed s.trace := by
  have hstep : ∀ s call, FstabObserver.Idle s →
      ∃ t, fstabCall archives s call = some t ∧ t.Idle := fun s call h => h.call archives call
  obtain ⟨s, hs, hidle⟩ := runEnds_of_steps hstep calls FstabObserver.start .start
  exact ⟨s, hs, hidle.sound.once, hidle.sound.fixed⟩

end Zrt.Nvram
