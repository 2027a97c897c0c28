import Mathlib.Logic.Basic

/-!
# Naming graphs

Objects, of which some are directories that name others. An object may have several names, and a name
is resolved one component at a time. Binding and unbinding change one entry.
-/

namespace Zrt.Framework

/-- Why a name does not lead anywhere. -/
inductive NoSuch
  | missing
  | notDirectory
deriving DecidableEq

structure Naming (ι κ : Type*) where
  isDir : ι → Bool
  entry : ι → κ → Option ι

namespace Naming

variable {ι κ : Type*}

def look (g : Naming ι κ) (o : ι) (k : κ) : Except NoSuch ι :=
  if g.isDir o then
    match g.entry o k with
    | some t => .ok t
    | none => .error .missing
  else .error .notDirectory

def resolve (g : Naming ι κ) : ι → List κ → Except NoSuch ι
  | o, [] => .ok o
  | o, k :: ks =>
      match g.look o k with
      | .ok t => g.resolve t ks
      | .error e => .error e

variable [DecidableEq ι] [DecidableEq κ]

def bind (g : Naming ι κ) (o : ι) (k : κ) (t : ι) : Naming ι κ :=
  { g with entry := fun o' k' => if o' = o ∧ k' = k then some t else g.entry o' k' }

def unbind (g : Naming ι κ) (o : ι) (k : κ) : Naming ι κ :=
  { g with entry := fun o' k' => if o' = o ∧ k' = k then none else g.entry o' k' }

/-- An object that names nothing yet. -/
def make (g : Naming ι κ) (o : ι) (dir : Bool) : Naming ι κ where
  isDir o' := if o' = o then dir else g.isDir o'
  entry o' k := if o' = o then none else g.entry o' k

variable {g : Naming ι κ} {o o' t : ι} {k k' : κ} {dir : Bool}

theorem look_bind_self (h : g.isDir o = true) : (g.bind o k t).look o k = .ok t := by
  simp [look, bind, h]

theorem look_bind_other (h : ¬ (o' = o ∧ k' = k)) : (g.bind o k t).look o' k' = g.look o' k' := by
  simp [look, bind, h]

theorem look_unbind_self (h : g.isDir o = true) :
    (g.unbind o k).look o k = .error .missing := by
  simp [look, unbind, h]

theorem look_unbind_other (h : ¬ (o' = o ∧ k' = k)) :
    (g.unbind o k).look o' k' = g.look o' k' := by
  simp [look, unbind, h]

omit [DecidableEq κ] in
theorem look_make_self :
    (g.make o dir).look o k = .error (if dir then .missing else .notDirectory) := by
  cases dir <;> simp [look, make]

omit [DecidableEq κ] in
theorem look_make_other (h : o' ≠ o) : (g.make o dir).look o' k = g.look o' k := by
  simp [look, make, h]

omit [DecidableEq ι] [DecidableEq κ] in
theorem resolve_snoc (ks : List κ) (k : κ) :
    g.resolve o (ks ++ [k]) =
      match g.resolve o ks with
      | .ok t => g.look t k
      | .error e => .error e := by
  induction ks generalizing o with
  | nil =>
      simp only [List.nil_append, resolve]
      cases g.look o k <;> rfl
  | cons x ks ih =>
      simp only [List.cons_append, resolve]
      cases g.look o x with
      | ok t => exact ih
      | error e => rfl

end Naming

end Zrt.Framework
