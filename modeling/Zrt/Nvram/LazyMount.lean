import Zrt.Nvram.Fstab

/-!
# What a lazy mount leaves waiting

The loop of a lazy mount returns behind its first record, which may even be one that an import
refuses. Further records are imported only when unpacking the archive of the first one accesses paths
below their mountpoints.
-/

namespace Zrt.Nvram

open Zrt.Framework

namespace FstabObserver

variable {s t u : FstabObserver}

/-- An observer that has stored the records. -/
def ofRecords (records : List FstabRecordContainer) (updatedFstabRecords : Bool) : FstabObserver where
  postponeMountsArray := records
  updatedFstabRecords := updatedFstabRecords
  interfacesSet := true
  trace := []

private theorem sound_ofRecords (records : List FstabRecordContainer) (updatedFstabRecords : Bool) :
    (ofRecords records updatedFstabRecords).Sound where
  ready := fun _ _ _ _ => ⟨.nil, .nil⟩
  beyond := fun _ _ => .nil
  once := fun _ => ⟨.nil, .nil⟩
  fixed := .nil
  updated := by simp [ofRecords]
  interfaces := fun _ => rfl

/-- A record that the access of a path may import. -/
def Mountable (s : FstabObserver) (path : Text) (c : FstabRecordContainer) : Prop :=
  c.mount.mountpoint.isPrefixOf path = true ∧ importable s c = true

/-- The lazy mount at a path ends, and no record is left that it could import. -/
def MountsAll (archives : Archives) (s : FstabObserver) (path : Text) : Prop :=
  ∃ r t, lazyMount (handleMountImport archives (importFuel s)) s path = some (r, t) ∧
    ∀ c ∈ t.postponeMountsArray, ¬ t.Mountable path c

/-- No record can be imported but the first waiting one with a mountpoint above the path. -/
def OnlyFirst (s : FstabObserver) (path : Text) : Prop :=
  ∀ i c, s.postponeMountsArray[i]? = some c → s.Mountable path c →
    handleLocatePostponeMount s path .waiting = some i

/-! ## What stays -/

private theorem lazyMounts_updated {mountImport : FstabObserver → Nat → Option FstabObserver}
    (hf : ∀ s i t, mountImport s i = some t → t.updatedFstabRecords = s.updatedFstabRecords)
    (paths : List Text) (s t : FstabObserver) (h : lazyMounts mountImport s paths = some t) :
    t.updatedFstabRecords = s.updatedFstabRecords := by
  induction paths generalizing s with
  | nil => rw [← Option.some.inj h]
  | cons path paths ih =>
      rw [lazyMounts, Option.bind_eq_some_iff] at h
      obtain ⟨u, hu, hrest⟩ := h
      rw [ih u.2 hrest]
      rw [lazyMount] at hu
      cases hi : handleLocatePostponeMount s path .waiting with
      | none =>
          simp only [hi, Option.some.injEq] at hu
          rw [← hu]
      | some i =>
          simp only [hi] at hu
          obtain ⟨v, hv, rfl⟩ := Option.map_eq_some_iff.mp hu
          exact hf s i v hv

/-- An import of a record that is not importable does nothing. Another record is processed, and it
is complete after the lazy mounts of its unpacking. -/
theorem handleMountImport_cases {archives : Archives} {fuel i : Nat}
    (h : handleMountImport archives (fuel + 1) s i = some t) :
    ((∀ c, s.postponeMountsArray[i]? = some c → importable s c = false) ∧ t = s) ∨
    ∃ c, s.postponeMountsArray[i]? = some c ∧ importable s c = true ∧
      (t = ((s.setStatus i .processing).emit (.importBegin i c.mount)).emit (.importEnd i) ∨
        ∃ paths u, archives ((s.setStatus i .processing).emit (.importBegin i c.mount)).trace
            c.mount = some paths ∧
          lazyMounts (handleMountImport archives fuel)
            ((s.setStatus i .processing).emit (.importBegin i c.mount)) paths = some u ∧
          t = (u.setStatus i .complete).emit (.importEnd i)) := by
  rw [handleMountImport] at h
  split at h
  · cases hc : s.postponeMountsArray[i]? with
    | none =>
        simp only [hc, Option.some.injEq] at h
        exact .inl ⟨fun c hsome => (Option.some_ne_none c hsome.symm).elim, h.symm⟩
    | some c =>
        simp only [hc] at h
        split at h
        · rename_i himport
          refine .inr ⟨c, rfl, himport, ?_⟩
          split at h
          · exact .inl (Option.some.inj h).symm
          · rename_i paths hpaths
            obtain ⟨u, hu, rfl⟩ := Option.map_eq_some_iff.mp h
            exact .inr ⟨paths, u, hpaths, hu, rfl⟩
        · rename_i himport
          refine .inl ⟨?_, (Option.some.inj h).symm⟩
          intro d hd
          rw [← Option.some.inj hd]
          exact Bool.eq_false_iff.mpr himport
  · cases h

theorem handleMountImport_updated (archives : Archives) (fuel : Nat) (s : FstabObserver) (i : Nat)
    (t : FstabObserver) (h : handleMountImport archives fuel s i = some t) :
    t.updatedFstabRecords = s.updatedFstabRecords := by
  induction fuel generalizing s i t with
  | zero => cases h
  | succ fuel ih =>
      rcases handleMountImport_cases h with ⟨-, rfl⟩ | ⟨c, -, -, rfl | ⟨paths, u, -, hu, rfl⟩⟩
      · rfl
      · rfl
      · have hupdated := lazyMounts_updated ih _ _ u hu
        exact hupdated

theorem importable_congr {c d : FstabRecordContainer}
    (hupdated : t.updatedFstabRecords = s.updatedFstabRecords) (hkeeps : c.Keeps d)
    (h : importable t d = true) : importable s c = true := by
  have hd := of_decide_eq_true h
  rw [hkeeps.1, hupdated] at hd
  exact decide_eq_true ⟨hd.1, hkeeps.2 hd.2.1, hd.2.2⟩

private theorem Advances.getElem? (h : Advances s t) {i : Nat} {d : FstabRecordContainer}
    (hd : t.postponeMountsArray[i]? = some d) :
    ∃ c, s.postponeMountsArray[i]? = some c ∧ c.Keeps d := by
  obtain ⟨hlt, hget⟩ := List.getElem?_eq_some_iff.mp hd
  have hlt' : i < s.postponeMountsArray.length := by rwa [← h.length_eq]
  have hkeeps := (List.forall₂_iff_get.mp h.records).2 i hlt' hlt
  rw [List.get_eq_getElem, List.get_eq_getElem, hget] at hkeeps
  exact ⟨_, List.getElem?_eq_getElem hlt', hkeeps⟩

private theorem handleMountImport_taken {archives : Archives} {fuel i : Nat} {c d : FstabRecordContainer}
    (hc : s.postponeMountsArray[i]? = some c) (himport : importable s c = true)
    (ht : handleMountImport archives fuel s i = some t)
    (hd : t.postponeMountsArray[i]? = some d) : d.mountStatus ≠ .waiting := by
  intro hwaiting
  cases fuel with
  | zero => cases ht
  | succ fuel =>
      rcases handleMountImport_cases ht with ⟨hnot, -⟩ | ⟨e, -, -, rfl | ⟨paths, u, -, -, rfl⟩⟩
      · rw [hnot c hc] at himport
        cases himport
      · exact Sound.processing_ne i hd hwaiting rfl
      · change (u.setStatus i .complete).postponeMountsArray[i]? = some d at hd
        rw [getElem?_setStatus] at hd
        obtain ⟨f, -, rfl⟩ := Option.map_eq_some_iff.mp hd
        rw [if_pos rfl] at hwaiting
        cases hwaiting

/-! ## The first record only -/

theorem Mountable.waiting {path : Text} {c : FstabRecordContainer} (h : s.Mountable path c) :
    c.mountStatus = .waiting := (of_decide_eq_true h.2).2.1

private theorem OnlyFirst.mountsAll {path : Text} (h : s.OnlyFirst path) (hs : s.Sound)
    (archives : Archives) : s.MountsAll archives path := by
  obtain ⟨r, t, ht, hadv⟩ := lazyMount_advances
    (handleMountImport_imports archives (importFuel s)) hs (waitingCount_lt_importFuel s) path
  refine ⟨r, t, ht, ?_⟩
  intro d hd hmountable
  obtain ⟨i, hi⟩ := List.mem_iff_getElem?.mp hd
  obtain ⟨c, hc, hkeeps⟩ := hadv.getElem? hi
  rw [lazyMount] at ht
  cases hlocate : handleLocatePostponeMount s path .waiting with
  | none =>
      simp only [hlocate, Option.some.injEq, Prod.mk.injEq] at ht
      rw [← ht.2] at hi hmountable
      rw [h i d hi hmountable] at hlocate
      cases hlocate
  | some j =>
      simp only [hlocate] at ht
      obtain ⟨v, hv, hpair⟩ := Option.map_eq_some_iff.mp ht
      obtain ⟨-, rfl⟩ := Prod.mk.inj hpair
      have hupdated := handleMountImport_updated archives _ s j v hv
      have himport := importable_congr hupdated hkeeps hmountable.2
      have hbelow : c.mount.mountpoint.isPrefixOf path = true := hkeeps.1 ▸ hmountable.1
      have hfirst := h i c hc ⟨hbelow, himport⟩
      rw [hlocate, Option.some.injEq] at hfirst
      subst hfirst
      exact handleMountImport_taken hc himport hv hi hmountable.waiting

/-- Unpacking accesses no path at all. -/
def NoPaths (archives : Archives) : Prop :=
  ∀ trace record paths, archives trace record = some paths → paths = []

private theorem handleMountImport_other {archives : Archives} (harchives : NoPaths archives) (fuel : Nat)
    {i j : Nat} (hij : i ≠ j) (h : handleMountImport archives fuel s i = some t) :
    t.postponeMountsArray[j]? = s.postponeMountsArray[j]? := by
  have hset : ∀ (v : FstabObserver) status,
      (v.setStatus i status).postponeMountsArray[j]? = v.postponeMountsArray[j]? := by
    intro v status
    rw [getElem?_setStatus]
    simp only [if_neg hij, Option.map_id']
  cases fuel with
  | zero => cases h
  | succ fuel =>
      rcases handleMountImport_cases h with ⟨-, rfl⟩ | ⟨c, -, -, rfl | ⟨paths, u, hpaths, hu, rfl⟩⟩
      · rfl
      · exact hset s .processing
      · rw [harchives _ _ _ hpaths, lazyMounts, Option.some.injEq] at hu
        rw [← hu]
        exact (hset _ .complete).trans (hset s .processing)

private theorem MountsAll.onlyFirst {archives : Archives} (harchives : NoPaths archives) {path : Text}
    (h : s.MountsAll archives path) : s.OnlyFirst path := by
  obtain ⟨r, t, ht, hnone⟩ := h
  intro i c hc hmountable
  have hmatch : (c.mount.mountpoint.isPrefixOf path && c.mountStatus = .waiting) = true := by
    simp [hmountable.1, hmountable.waiting]
  rw [lazyMount] at ht
  cases hlocate : handleLocatePostponeMount s path .waiting with
  | none =>
      have hall := List.findIdx?_eq_none_iff.mp hlocate c (List.mem_of_getElem? hc)
      rw [hmatch] at hall
      cases hall
  | some j =>
      simp only [hlocate] at ht
      obtain ⟨v, hv, hpair⟩ := Option.map_eq_some_iff.mp ht
      obtain ⟨-, rfl⟩ := Prod.mk.inj hpair
      by_cases hij : j = i
      · rw [hij]
      · have hsame := handleMountImport_other harchives _ hij hv
        have hupdated := handleMountImport_updated archives _ s j v hv
        have hleft : v.Mountable path c :=
          ⟨hmountable.1, importable_congr hupdated.symm ⟨rfl, id⟩ hmountable.2⟩
        exact absurd hleft (hnone c (List.mem_of_getElem? (hsame.trans hc)))

end FstabObserver

open FstabObserver

/-- The lazy mount leaves no record that it could import, whatever the archives contain, where the
first waiting record above the path is the only one that can be imported. -/
theorem mountsAll_iff (records : List FstabRecordContainer) (updatedFstabRecords : Bool)
    (path : Text) :
    ((∀ archives, (ofRecords records updatedFstabRecords).MountsAll archives path) ↔
      (ofRecords records updatedFstabRecords).OnlyFirst path) ∧
    ∀ archives, NoPaths archives →
      ((ofRecords records updatedFstabRecords).MountsAll archives path ↔
        (ofRecords records updatedFstabRecords).OnlyFirst path) := by
  have hs := sound_ofRecords records updatedFstabRecords
  have hquiet : ∀ archives, NoPaths archives →
      ((ofRecords records updatedFstabRecords).MountsAll archives path ↔
        (ofRecords records updatedFstabRecords).OnlyFirst path) :=
    fun archives harchives => ⟨fun h => h.onlyFirst harchives, fun h => h.mountsAll hs archives⟩
  refine ⟨⟨fun h => ?_, fun h archives => h.mountsAll hs archives⟩, hquiet⟩
  have hnone : NoPaths fun _ _ => none := by
    intro trace record paths hpaths
    cases hpaths
  exact (hquiet _ hnone).mp (h _)

/-- A record to be saved to an archive stands before one to be read, both above the path. -/
def savedBeforeRead : List FstabRecordContainer :=
  [⟨⟨['/', 'd', 'e', 'v', '/', 'o'], ['/'], accessWrite, removableNo, fsnameDefault⟩, .waiting⟩,
    ⟨⟨['/', 'd', 'e', 'v', '/', 'i'], ['/', 'd'], accessRead, removableYes, fsnameDefault⟩,
      .waiting⟩]

theorem savedBeforeRead_leftWaiting :
    ¬ (ofRecords savedBeforeRead true).MountsAll (fun _ _ => some []) ['/', 'd', '/', 'x'] := by
  intro h
  obtain ⟨r, t, ht, hnone⟩ := h
  have hsame : lazyMount (handleMountImport (fun _ _ => some [])
      (importFuel (ofRecords savedBeforeRead true))) (ofRecords savedBeforeRead true)
      ['/', 'd', '/', 'x'] = some (0, ofRecords savedBeforeRead true) := by decide
  rw [hsame, Option.some.injEq, Prod.mk.injEq] at ht
  rw [← ht.2] at hnone
  exact hnone _ (List.mem_cons_of_mem _ List.mem_cons_self) ⟨by decide, by decide⟩

end Zrt.Nvram
