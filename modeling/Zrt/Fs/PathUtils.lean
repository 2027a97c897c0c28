import Mathlib.Data.List.Basic

/-!
# Paths

The two path walkers of the library: the cursor functions of `path_utils`, which the channels mount
uses, and the component lists of the `Path` class, which the in-memory mount uses.
-/

namespace Zrt.Fs

abbrev Text := List Char

/-- Size of the buffers for paths, with the terminator. -/
def pathMax : Nat := 4096

/-- Mounts see absolute paths only; channel names are absolute too. -/
structure AbsolutePath where
  text : Text
  absolute : text.head? = some '/'
deriving DecidableEq

/-- The path below the root. -/
def AbsolutePath.fromRoot (text : Text) : AbsolutePath := ⟨'/' :: text, rfl⟩

/-- Rightmost position of the character among the first `len`. -/
def locateLastOccurence (str : Text) (c : Char) : Nat → Option Nat
  | 0 => none
  | i + 1 => if str[i]? = some c then some i else locateLastOccurence str c i

/-- One step back over the components of a path: start and length of the component, and the new
cursor. Empty components are skipped; the root is the last component, and minus one ends the walk. -/
def pathComponentBackward (path : Text) : Nat → Int → Option (Nat × Nat) × Int
  | 0, cursor => (none, cursor)
  | fuel + 1, cursor =>
      match locateLastOccurence path '/' cursor.toNat with
      | some i =>
          if cursor.toNat - i - 1 = 0 then pathComponentBackward path fuel i
          else (some (i + 1, cursor.toNat - i - 1), i)
      | none => if cursor = 0 ∧ path.head? = some '/' then (some (0, 1), -1) else (none, cursor)

/-- Length of the subpath that ends with the next component back. -/
def pathSubpathBackward (path : Text) (cursor : Int) : Option Nat × Int :=
  let r := pathComponentBackward path (path.length + 2) cursor
  (r.1.map fun p => p.1 + p.2, r.2)

/-- Skip the last component and answer the length of the subpath before it. -/
def parentSubpath (path : Text) : Option Nat :=
  (pathSubpathBackward path (pathSubpathBackward path path.length).2).1

/-- The text behind the last slash; the null pointer when nothing stands there. -/
def nameFromPath (fullpath : Text) : Option Text :=
  match locateLastOccurence fullpath '/' fullpath.length with
  | none => none
  | some i => if fullpath.drop (i + 1) = [] then none else some (fullpath.drop (i + 1))

theorem locateLastOccurence_eq_some {str : Text} {c : Char} {len i : Nat}
    (h : locateLastOccurence str c len = some i) :
    i < len ∧ str[i]? = some c ∧ ∀ j, i < j → j < len → str[j]? ≠ some c := by
  induction len with
  | zero => cases h
  | succ n ih =>
      rw [locateLastOccurence] at h
      by_cases hn : str[n]? = some c
      · rw [if_pos hn] at h
        cases h
        exact ⟨Nat.lt_succ_self _, hn, fun j h₁ h₂ => by omega⟩
      · rw [if_neg hn] at h
        obtain ⟨hlt, hi, hlast⟩ := ih h
        apply And.intro (Nat.lt_succ_of_lt hlt)
        apply And.intro hi
        intro j h₁ h₂
        rcases Nat.lt_or_eq_of_le (Nat.le_of_lt_succ h₂) with hj | rfl
        · exact hlast j h₁ hj
        · exact hn

theorem locateLastOccurence_isSome {str : Text} {c : Char} {len i : Nat} (hi : i < len)
    (hc : str[i]? = some c) : (locateLastOccurence str c len).isSome := by
  induction len with
  | zero => omega
  | succ n ih =>
      rw [locateLastOccurence]
      split
      · rfl
      · apply ih
        rcases Nat.lt_or_eq_of_le (Nat.le_of_lt_succ hi) with h | rfl
        · exact h
        · contradiction

/-- `Path::Split`: the components of a path; empty ones do not count. -/
def components (p : Text) : List Text := (p.splitOn '/').filter (· ≠ [])

theorem components_append_slash {pre name : Text} (hname : name ≠ []) (hslash : '/' ∉ name) :
    components (pre ++ '/' :: name) = components pre ++ [name] := by
  unfold components
  rw [List.splitOn_append_cons_self, List.splitOn_eq_singleton hslash, List.filter_append]
  simp [hname]

theorem slash_not_mem_of_mem_splitOn {p c : Text} (hc : c ∈ p.splitOn '/') : '/' ∉ c := by
  induction p generalizing c with
  | nil =>
      rw [List.splitOn_nil, List.mem_singleton] at hc
      rw [hc]
      exact List.not_mem_nil
  | cons x xs ih =>
      rw [List.splitOn_cons_eq_if_modifyHead] at hc
      split at hc
      · rcases List.mem_cons.mp hc with rfl | hc
        · exact List.not_mem_nil
        · exact ih hc
      · rename_i hx
        cases hs : xs.splitOn '/' with
        | nil => exact absurd hs (List.splitOn_ne_nil _ _)
        | cons t ts =>
            rw [hs] at hc ih
            rcases List.mem_cons.mp hc with rfl | hc
            · have ht := ih List.mem_cons_self
              simp only [List.mem_cons, not_or]
              exact ⟨fun he => hx (by simp [← he]), ht⟩
            · exact ih (List.mem_cons_of_mem _ hc)

/-- Drop single dots, and let two dots take back the component before them. -/
def collapseStep (newPath : List Text) (curr : Text) : List Text :=
  if curr = ['.'] then newPath
  else if curr = ['.', '.'] then newPath.dropLast
  else newPath ++ [curr]

def pathCollapse (cs : List Text) : List Text := cs.foldl collapseStep []

namespace AbsolutePath

/-- The canonical components the `Path` constructor leaves. -/
def path (p : AbsolutePath) : List Text := pathCollapse (components p.text)

def last (p : AbsolutePath) : Text := p.path.getLast?.getD ['/']

/-- The path the parent lookup walks. -/
def dotdot (p : AbsolutePath) : AbsolutePath where
  text := p.text ++ ['/', '.', '.']
  absolute := by
    have h := p.absolute
    cases ht : p.text with
    | nil => simp [ht] at h
    | cons c cs => simpa [ht] using h

@[simp] theorem path_dotdot (p : AbsolutePath) : p.dotdot.path = p.path.dropLast := by
  have h : components p.dotdot.text = components p.text ++ [['.', '.']] :=
    components_append_slash (by decide) (by decide)
  rw [path, h, pathCollapse, List.foldl_append]
  rfl

theorem path_eq_snoc {p : AbsolutePath} (h : p.path ≠ []) : p.path = p.dotdot.path ++ [p.last] := by
  rw [path_dotdot, last, List.getLast?_eq_getLast_of_ne_nil h, Option.getD_some,
    List.dropLast_append_getLast]

/-- Collapsing only drops components. -/
theorem slash_not_mem_of_mem_path {p : AbsolutePath} {c : Text} (hc : c ∈ p.path) : '/' ∉ c := by
  have key : ∀ (cs acc : List Text), (∀ t ∈ acc, '/' ∉ t) → (∀ t ∈ cs, '/' ∉ t) →
      ∀ t ∈ cs.foldl collapseStep acc, '/' ∉ t := by
    intro cs
    induction cs with
    | nil => exact fun acc hacc _ => hacc
    | cons x xs ih =>
        intro acc hacc hcs
        apply ih _ _ (fun t ht => hcs t (List.mem_cons_of_mem _ ht))
        intro t ht
        unfold collapseStep at ht
        split at ht
        · exact hacc t ht
        split at ht
        · exact hacc t (List.dropLast_subset acc ht)
        · rcases List.mem_append.mp ht with ht | ht
          · exact hacc t ht
          · exact hcs t (List.mem_singleton.mp ht ▸ List.mem_cons_self)
  exact key (components p.text) [] (by simp)
    (fun t ht => slash_not_mem_of_mem_splitOn (List.mem_of_mem_filter ht)) c hc

theorem slash_not_mem_last {p : AbsolutePath} (h : p.path ≠ []) : '/' ∉ p.last := by
  apply slash_not_mem_of_mem_path (p := p)
  rw [path_eq_snoc h]
  exact List.mem_append_right _ List.mem_cons_self

end AbsolutePath

end Zrt.Fs
