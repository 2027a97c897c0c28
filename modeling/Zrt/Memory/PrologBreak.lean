import Mathlib.Data.List.Basic
import Zrt.Memory.Allocation

/-!
# The break in the prolog layer

The prolog layer keeps a copy of the break, which a request overwrites before the memory manager
decides about it. A request that the manager refuses leaves the copy behind, and the next query is
made with it.
-/

namespace Zrt.Memory

open Zrt.Framework

/-- The static data of the prolog, and the manager behind it. -/
structure PrologLayer where
  prologDoingNow : Bool
  sbrkDefault : UInt32
  manager : MemoryManager

def ManagerCall.isMapping : ManagerCall → Bool
  | .sysbrk _ => false
  | .mmap _ _ _ => true
  | .munmap _ _ => true

/-- The return code and the pointer of `zrt_zcall_enhanced_sysbrk`. An error of the manager is the
address minus one. -/
def enhancedSysbrk (m : MemoryManager) (newbrk : UInt32) : (Int × UInt32) × MemoryManager :=
  let retaddr := match (m.memorySysbrk newbrk).1 with
    | .ok addr => addr
    | .error _ => 0xFFFFFFFF
  (if retaddr ≠ 0xFFFFFFFF then (0, retaddr) else (-1, newbrk), (m.memorySysbrk newbrk).2)

namespace PrologLayer

/-- What a request asks the manager for: a null pointer stands for the copy of the break. -/
def requested (p : PrologLayer) (newbrk : UInt32) : UInt32 :=
  if newbrk = 0 then p.sbrkDefault else newbrk

def prologSysbrk (p : PrologLayer) (newbrk : UInt32) : (Int × UInt32) × PrologLayer :=
  let p' := { p with sbrkDefault := p.requested newbrk }
  if p.prologDoingNow then ((0, p.requested newbrk), p')
  else
    let r := enhancedSysbrk p.manager (p.requested newbrk)
    (r.1, { p' with manager := r.2 })

/-- `mmap` and `munmap` are not available in the prolog. -/
def prologMapping (p : PrologLayer) (c : ManagerCall) : Option PrologLayer :=
  if p.prologDoingNow then some p
  else (p.manager.call c).map fun m => { p with manager := m }

def call (p : PrologLayer) : ManagerCall → Option PrologLayer
  | .sysbrk newbrk => some (p.prologSysbrk newbrk).2
  | .mmap fstat errno r => p.prologMapping (.mmap fstat errno r)
  | .munmap addr length => p.prologMapping (.munmap addr length)

/-- The end of the prolog: the manager starts from the copy of the break. -/
def zrtSetup (heapPtr heapSize : UInt32) (p : PrologLayer) : Option PrologLayer :=
  (MemoryManager.memoryInit heapPtr heapSize p.sbrkDefault).map fun m =>
    ⟨false, p.sbrkDefault, m⟩

/-- A query with a null pointer succeeds with this address. -/
def AnswersQuery (p : PrologLayer) (addr : UInt32) : Prop := (p.prologSysbrk 0).1 = (0, addr)

instance (p : PrologLayer) (addr : UInt32) : Decidable (p.AnswersQuery addr) :=
  inferInstanceAs (Decidable (_ = _))

/-- After a call the two copies of the break are equal. After a failed request the manager's is
unchanged, and the next query, whatever is mapped in between, answers it. -/
def KeepsBreak (p : PrologLayer) (c : ManagerCall) : Prop :=
  ∀ p', p.call c = some p' → p'.sbrkDefault = p'.manager.heapBrk ∧
    ∀ newbrk, c = .sysbrk newbrk → (p.prologSysbrk newbrk).1.1 = -1 →
      p'.manager.heapBrk = p.manager.heapBrk ∧
        ∀ cs : List ManagerCall, (∀ c ∈ cs, c.isMapping = true) → ∀ q, runFrom call p' cs = some q →
          q.AnswersQuery p.manager.heapBrk

/-- The manager accepts what is asked for, or it is the break itself, which is below the heap. -/
def Accepts (m : MemoryManager) (addr : UInt32) : Prop :=
  (m.heapStartPtr ≤ addr ∧ addr < m.heapLowestMmapAddr) ∨
    (addr = m.heapBrk ∧ m.heapBrk < m.heapStartPtr)

instance (m : MemoryManager) (addr : UInt32) : Decidable (Accepts m addr) :=
  inferInstanceAs (Decidable (_ ∨ _))

/-- A request is one that the manager accepts. -/
def Acceptable (p : PrologLayer) : ManagerCall → Prop
  | .sysbrk newbrk => Accepts p.manager (p.requested newbrk)
  | _ => True

/-- Behind the prolog, with equal copies of the break. -/
structure Agrees (p : PrologLayer) : Prop where
  started : p.prologDoingNow = false
  copies : p.sbrkDefault = p.manager.heapBrk

end PrologLayer

namespace MemoryManager

private theorem call_heapBrk {m m' : MemoryManager} {c : ManagerCall} (hc : c.isMapping = true)
    (h : m.call c = some m') : m'.heapBrk = m.heapBrk := by
  cases c with
  | sysbrk addr => cases hc
  | munmap addr length =>
      rcases memoryMunmap_cases h with ⟨rfl, -⟩ | ⟨-, -, b, rfl, -⟩
      · rfl
      · rfl
  | mmap fstat errno r =>
      obtain ⟨⟨result, m₂⟩, hmmap, rfl⟩ := Option.map_eq_some_iff.mp h
      rcases memoryMmap_cases hmmap with rfl | ⟨memsize, addr, m₁, halloc, hm⟩
      · rfl
      · have halloc' : m₁.heapBrk = m.heapBrk := by
          obtain ⟨b, -, -, hcases⟩ := allocMemoryPseudoMmap_cases _ _ _ _ halloc
          rcases hcases with ⟨-, rfl⟩ | ⟨index, -, -, -, -, -, -, -, rfl⟩
          · rfl
          · rfl
        rcases hm with rfl | ⟨-, rfl⟩
        · exact halloc'
        · exact halloc'

end MemoryManager

namespace PrologLayer

variable {p p' : PrologLayer} {newbrk : UInt32}

private theorem requested_zero (p : PrologLayer) : p.requested 0 = p.sbrkDefault := if_pos rfl

private theorem prologSysbrk_below (hstart : p.prologDoingNow = false)
    (hlt : p.requested newbrk < p.manager.heapStartPtr) :
    (p.prologSysbrk newbrk).2 = { p with sbrkDefault := p.requested newbrk } := by
  simp [prologSysbrk, hstart, enhancedSysbrk, MemoryManager.memorySysbrk, hlt]

theorem ne_minusOne_of_lt {a b : UInt32} (h : a < b) : a ≠ 0xFFFFFFFF := by
  rintro rfl
  have hlt := b.toNat_lt
  have hmax : (0xFFFFFFFF : UInt32).toNat = 4294967295 := rfl
  rw [UInt32.lt_iff_toNat_lt] at h
  omega

private theorem prologSysbrk_same (hstart : p.prologDoingNow = false)
    (heq : p.requested newbrk = p.manager.heapBrk)
    (hlt : p.manager.heapBrk < p.manager.heapStartPtr) :
    p.prologSysbrk newbrk =
      ((0, p.manager.heapBrk), { p with sbrkDefault := p.manager.heapBrk }) := by
  simp [prologSysbrk, hstart, enhancedSysbrk, MemoryManager.memorySysbrk, heq, hlt,
    ne_minusOne_of_lt hlt]

private theorem prologSysbrk_within (hstart : p.prologDoingNow = false)
    (hge : p.manager.heapStartPtr ≤ p.requested newbrk)
    (hlt : p.requested newbrk < p.manager.heapLowestMmapAddr) :
    p.prologSysbrk newbrk = ((0, p.requested newbrk),
      ⟨false, p.requested newbrk, { p.manager with heapBrk := p.requested newbrk }⟩) := by
  simp [prologSysbrk, hstart, enhancedSysbrk, MemoryManager.memorySysbrk,
    UInt32.not_lt.mpr hge, hlt, ne_minusOne_of_lt hlt]

theorem prologSysbrk_refused (hstart : p.prologDoingNow = false)
    (hge : p.manager.heapStartPtr ≤ p.requested newbrk)
    (hle : p.manager.heapLowestMmapAddr ≤ p.requested newbrk) :
    p.prologSysbrk newbrk =
      ((-1, p.requested newbrk), { p with sbrkDefault := p.requested newbrk }) := by
  simp [prologSysbrk, hstart, enhancedSysbrk, MemoryManager.memorySysbrk,
    UInt32.not_lt.mpr hge, UInt32.not_lt.mpr hle]

private theorem call_mapping {c : ManagerCall} (hc : c.isMapping = true) (hstart : p.prologDoingNow = false)
    (h : p.call c = some p') : ∃ m, p.manager.call c = some m ∧ p' = { p with manager := m } := by
  have hmapping : p.prologMapping c = some p' := by
    cases c with
    | sysbrk addr => cases hc
    | mmap fstat errno r => exact h
    | munmap addr length => exact h
  rw [prologMapping, if_neg (by simp [hstart])] at hmapping
  obtain ⟨m, hm, rfl⟩ := Option.map_eq_some_iff.mp hmapping
  exact ⟨m, hm, rfl⟩

theorem Agrees.mapping (h : p.Agrees) {c : ManagerCall} (hc : c.isMapping = true)
    (hcall : p.call c = some p') : p'.Agrees := by
  obtain ⟨m, hm, rfl⟩ := call_mapping hc h.started hcall
  exact ⟨h.started, h.copies.trans (MemoryManager.call_heapBrk hc hm).symm⟩

private theorem not_answersQuery (hstart : p.prologDoingNow = false)
    (hge : p.manager.heapStartPtr ≤ p.sbrkDefault)
    (hle : p.manager.heapLowestMmapAddr ≤ p.sbrkDefault) (addr : UInt32) :
    ¬ p.AnswersQuery addr := by
  rw [← requested_zero] at hge hle
  rw [AnswersQuery, prologSysbrk_refused hstart hge hle]
  simp

private theorem Agrees.not_keepsBreak_refused (h : p.Agrees)
    (hge : p.manager.heapStartPtr ≤ p.requested newbrk)
    (hle : p.manager.heapLowestMmapAddr ≤ p.requested newbrk) :
    ¬ p.KeepsBreak (.sysbrk newbrk) := by
  intro hkeeps
  have hrefused := prologSysbrk_refused h.started hge hle
  obtain ⟨-, hfail⟩ := hkeeps _ rfl
  obtain ⟨-, hquery⟩ := hfail newbrk rfl (by rw [hrefused])
  have hanswer := hquery [] (by simp) _ rfl
  rw [hrefused] at hanswer
  exact not_answersQuery (p := { p with sbrkDefault := p.requested newbrk }) h.started hge hle _
    hanswer

private theorem keepsBreak_of_ok (hret : (p.prologSysbrk newbrk).1.1 = 0)
    (hcopies : (p.prologSysbrk newbrk).2.sbrkDefault =
      (p.prologSysbrk newbrk).2.manager.heapBrk) : p.KeepsBreak (.sysbrk newbrk) := by
  intro p' hcall
  obtain rfl := Option.some.inj hcall
  refine ⟨hcopies, fun newbrk' heq hfail => ?_⟩
  cases heq
  rw [hret] at hfail
  cases hfail

theorem Agrees.keepsBreak_iff (h : p.Agrees) (c : ManagerCall) :
    p.KeepsBreak c ↔ p.Acceptable c := by
  cases hc : c.isMapping with
  | true =>
      have hacceptable : p.Acceptable c := by
        cases c with
        | sysbrk addr => cases hc
        | mmap fstat errno r => trivial
        | munmap addr length => trivial
      refine iff_of_true (fun p' hcall => ⟨(h.mapping hc hcall).copies, ?_⟩) hacceptable
      rintro newbrk rfl
      cases hc
  | false =>
      cases c with
      | mmap fstat errno r => cases hc
      | munmap addr length => cases hc
      | sysbrk newbrk =>
          rcases UInt32.lt_or_le (p.requested newbrk) p.manager.heapStartPtr with hlt | hge
          · -- the manager answers with its break and takes nothing
            have hstate := prologSysbrk_below h.started hlt
            constructor
            · intro hkeeps
              obtain ⟨hcopies, -⟩ := hkeeps _ rfl
              rw [hstate] at hcopies
              exact .inr ⟨hcopies, hcopies ▸ hlt⟩
            · rintro (⟨hge, -⟩ | ⟨heq, hbrk⟩)
              · exact absurd hlt (UInt32.not_lt.mpr hge)
              · have hsame := prologSysbrk_same h.started heq hbrk
                exact keepsBreak_of_ok (by rw [hsame]) (by rw [hsame])
          · rcases UInt32.lt_or_le (p.requested newbrk) p.manager.heapLowestMmapAddr with hlow | hle
            · have hwithin := prologSysbrk_within h.started hge hlow
              refine iff_of_true ?_ (.inl ⟨hge, hlow⟩)
              exact keepsBreak_of_ok (by rw [hwithin]) (by rw [hwithin])
            · refine iff_of_false (h.not_keepsBreak_refused hge hle) ?_
              rintro (⟨-, hlow⟩ | ⟨heq, hlt⟩)
              · exact absurd hlow (UInt32.not_lt.mpr hle)
              · exact absurd (heq ▸ hge) (UInt32.not_le.mpr hlt)

private theorem Agrees.call (h : p.Agrees) {c : ManagerCall} (hkeeps : p.KeepsBreak c)
    (hcall : p.call c = some p') : p'.Agrees := by
  refine ⟨?_, (hkeeps p' hcall).1⟩
  cases hc : c.isMapping with
  | true => exact (h.mapping hc hcall).started
  | false =>
      cases c with
      | mmap fstat errno r => cases hc
      | munmap addr length => cases hc
      | sysbrk newbrk =>
          obtain rfl := Option.some.inj hcall
          simp [prologSysbrk, h.started]

private theorem Agrees.zrtSetup {heapPtr heapSize : UInt32} (h : p.zrtSetup heapPtr heapSize = some p') :
    p'.Agrees := by
  obtain ⟨m, hm, rfl⟩ := Option.map_eq_some_iff.mp h
  refine ⟨rfl, ?_⟩
  simp only [MemoryManager.memoryInit] at hm
  split at hm
  · rw [Option.some.injEq] at hm
    subst m
    rfl
  · cases hm

/-- Behind the prolog the calls keep the break exactly when no request is refused or answered with
another address. -/
theorem run_keepsBreak_iff (heapPtr heapSize : UInt32) (p p' : PrologLayer)
    (hsetup : p.zrtSetup heapPtr heapSize = some p') (calls : List ManagerCall) :
    Guarded call KeepsBreak p' calls ↔ Guarded call Acceptable p' calls :=
  guarded_iff (fun _ c h => h.keepsBreak_iff c) (fun _ _ _ h hkeeps hcall => h.call hkeeps hcall)
    calls p' (Agrees.zrtSetup hsetup)

/-- The prolog on a heap of four pages, nothing of it used. -/
def beforeSetup : PrologLayer := ⟨true, 0x10000, MappingState.fourPages⟩

def afterSetup : PrologLayer := ⟨false, 0x10000, MappingState.fourPages⟩

/-- The break is raised, asked for, and asked for again above a mapping. -/
theorem run_keepsBreak_iff_fourPages :
    Guarded call KeepsBreak afterSetup [.sysbrk 0x20000, .mmap (fun _ => none) none
        (anonymousRequest 0x10000), .sysbrk 0] ↔
      Guarded call Acceptable afterSetup [.sysbrk 0x20000, .mmap (fun _ => none) none
        (anonymousRequest 0x10000), .sysbrk 0] :=
  run_keepsBreak_iff 0x10000 0x40000 beforeSetup afterSetup rfl _

/-- A request above the heap fails, and so does the next query, made with the refused address. -/
theorem refused_sysbrk_loses_break :
    beforeSetup.zrtSetup 0x10000 0x40000 = some afterSetup ∧
      (afterSetup.prologSysbrk 0x50000).1.1 = -1 ∧
      (afterSetup.prologSysbrk 0x50000).2.sbrkDefault ≠
        (afterSetup.prologSysbrk 0x50000).2.manager.heapBrk ∧
      ¬ (afterSetup.prologSysbrk 0x50000).2.AnswersQuery afterSetup.manager.heapBrk ∧
      ¬ Guarded call KeepsBreak afterSetup [.sysbrk 0x50000] := by
  have hagrees : afterSetup.Agrees := ⟨rfl, rfl⟩
  refine ⟨rfl, rfl, by decide, by decide, fun h => ?_⟩
  have haccepts : Accepts afterSetup.manager 0x50000 := (hagrees.keepsBreak_iff _).mp h.1
  revert haccepts
  decide

end PrologLayer

end Zrt.Memory
