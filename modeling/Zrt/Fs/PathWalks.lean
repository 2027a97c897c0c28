import Zrt.Framework.Cursors
import Zrt.Fs.DirectoryTable

/-!
# Walks over a path

Iterated, the step over the components of a path lists them from the root on, and the step back lists
them from the last name on. The step back skips all empty components; the other one answers them as
slashes, except behind a slash at the end.
-/

namespace Zrt.Fs

open Framework

/-- Length of the subpath that ends with the next component. -/
def pathSubpathForward (path : Text) (cursor : Option Text) : Option Nat × Option Text :=
  let r := pathComponentForward path cursor
  (r.1.map fun component => path.length - (cursor.getD []).length + component.length, r.2)

/-- The characters of a component that is given by its start and its length. -/
def componentText (path : Text) (component : Nat × Nat) : Text :=
  (path.drop component.1).take component.2

/-- The two walks end, with the root and the names in order and with the same subpaths. -/
structure WalksAgree (path : Text) : Prop where
  exists_lists : ∃ forward backward subForward subBackward,
    Yields (pathComponentForward path) (some path) forward ∧
    Yields (pathComponentBackward path (path.length + 2)) (path.length : Int) backward ∧
    Yields (pathSubpathForward path) (some path) subForward ∧
    Yields (pathSubpathBackward path) (path.length : Int) subBackward ∧
    forward = ['/'] :: components path ∧
    forward = (backward.map (componentText path)).reverse ∧
    subForward = subBackward.reverse

/-! ## Names with their places -/

/-- The names among the pieces of a path, with their starts. -/
def placed : Nat → List Text → List (Nat × Text)
  | _, [] => []
  | offset, s :: ss =>
      if s = [] then placed (offset + 1) ss else (offset, s) :: placed (offset + s.length + 1) ss

def placedNames (offset : Nat) (path : Text) : List (Nat × Text) := placed offset (path.splitOn '/')

private theorem placed_append (offset : Nat) (xs ys : List Text) :
    placed offset (xs ++ ys) =
      placed offset xs ++ placed (offset + (xs.map fun s => s.length + 1).sum) ys := by
  induction xs generalizing offset with
  | nil => rfl
  | cons s xs ih =>
      rw [List.cons_append, placed, placed, ih, ih, List.map_cons, List.sum_cons]
      by_cases hs : s = []
      · rw [if_pos hs, if_pos hs, hs, List.length_nil]
        congr 2
        omega
      · rw [if_neg hs, if_neg hs, List.cons_append]
        congr 3
        omega

private theorem sum_length_splitOn (path : Text) :
    ((path.splitOn '/').map fun s => s.length + 1).sum = path.length + 1 := by
  induction path with
  | nil => rfl
  | cons x xs ih =>
      rw [List.splitOn_cons_eq_if_modifyHead]
      split
      · rw [List.map_cons, List.sum_cons, ih, List.length_nil, List.length_cons]
        omega
      · cases hs : xs.splitOn '/' with
        | nil => exact absurd hs (List.splitOn_ne_nil _ _)
        | cons t ts =>
            rw [hs, List.map_cons, List.sum_cons] at ih
            rw [List.modifyHead_cons, List.map_cons, List.sum_cons, List.length_cons,
              List.length_cons]
            omega

theorem placedNames_append (offset : Nat) (a b : Text) :
    placedNames offset (a ++ '/' :: b) =
      placedNames offset a ++ placedNames (offset + a.length + 1) b := by
  rw [placedNames, List.splitOn_append_cons_self, placed_append, sum_length_splitOn]
  rfl

theorem placedNames_name {s : Text} (offset : Nat) (hslash : '/' ∉ s) :
    placedNames offset s = if s = [] then [] else [(offset, s)] := by
  rw [placedNames, List.splitOn_eq_singleton hslash, placed, placed, placed]

theorem placedNames_snd (offset : Nat) (path : Text) :
    (placedNames offset path).map Prod.snd = components path := by
  have key : ∀ (pieces : List Text) (offset : Nat),
      (placed offset pieces).map Prod.snd = pieces.filter (· ≠ []) := by
    intro pieces
    induction pieces with
    | nil => exact fun _ => rfl
    | cons s ss ih =>
        intro offset
        rw [placed]
        by_cases hs : s = []
        · simp [hs, ih]
        · simp [hs, ih]
  exact key (path.splitOn '/') offset

private theorem take_drop_of_mem_placedNames (pre path : Text) {x : Nat × Text}
    (hx : x ∈ placedNames pre.length path) :
    ((pre ++ path).drop x.1).take x.2.length = x.2 := by
  induction path using slash_induction generalizing pre with
  | name s hs =>
      rw [placedNames_name _ hs] at hx
      split at hx
      · cases hx
      · rw [List.mem_singleton.mp hx, List.drop_left, List.take_length]
  | cut s r hs ih =>
      rw [placedNames_append, placedNames_name _ hs] at hx
      rcases List.mem_append.mp hx with hx | hx
      · split at hx
        · cases hx
        · rw [List.mem_singleton.mp hx, List.drop_left, List.take_left]
      · have hpre : pre ++ (s ++ '/' :: r) = (pre ++ s ++ ['/']) ++ r := by simp
        have hlen : pre.length + s.length + 1 = (pre ++ s ++ ['/']).length := by
          simp [Nat.add_assoc]
        rw [hlen] at hx
        rw [hpre]
        exact ih (pre ++ s ++ ['/']) hx

/-! ## The step forward -/

/-- The step forward with the place of the component. -/
def placedForward (path : Text) (cursor : Option Text) : Option (Nat × Text) × Option Text :=
  let r := pathComponentForward path cursor
  (r.1.map fun component => (path.length - (cursor.getD []).length, component), r.2)

private theorem pathComponentForward_eq_placed (path : Text) (cursor : Option Text) :
    pathComponentForward path cursor =
      ((placedForward path cursor).1.map Prod.snd, (placedForward path cursor).2) := by
  rw [placedForward, Option.map_map]
  simp [Function.comp_def]

private theorem pathSubpathForward_eq_placed (path : Text) (cursor : Option Text) :
    pathSubpathForward path cursor =
      ((placedForward path cursor).1.map fun x => x.1 + x.2.length,
        (placedForward path cursor).2) := by
  rw [placedForward, Option.map_map, pathSubpathForward]
  rfl

/-- No slash follows another one. -/
def SingleSlashes (path : Text) : Prop := ¬ ['/', '/'] <:+: path

private theorem SingleSlashes.tail {s r : Text} (h : SingleSlashes ('/' :: (s ++ '/' :: r))) :
    s ≠ [] ∧ SingleSlashes ('/' :: r) := by
  constructor
  · rintro rfl
    exact h ⟨[], r, rfl⟩
  · intro hr
    have hsuffix : '/' :: r <:+ '/' :: (s ++ '/' :: r) := ⟨'/' :: s, rfl⟩
    exact h (hr.trans hsuffix.isInfix)

private theorem placedForward_yields (path : Text) (offset : Nat) (rest : Text)
    (hoffset : offset + rest.length = path.length) (hsingle : SingleSlashes ('/' :: rest)) :
    Yields (placedForward path) (some rest) (placedNames offset rest) := by
  have hplace : path.length - rest.length = offset := by omega
  induction rest using slash_induction generalizing offset with
  | name s hs =>
      rw [placedNames_name _ hs]
      have hstep := pathComponentForward_last path hs
      by_cases hne : s = []
      · rw [if_pos hne] at hstep ⊢
        exact Yields.nil (by rw [placedForward, hstep]; rfl)
      · rw [if_neg hne] at hstep ⊢
        have hfirst : placedForward path (some s) = (some (offset, s), none) := by
          rw [placedForward, hstep, Option.getD_some, hplace]
          rfl
        exact Yields.cons hfirst (Yields.nil rfl)
  | cut s r hs ih =>
      obtain ⟨hne, htail⟩ := hsingle.tail
      have hlen : (s ++ '/' :: r).length = s.length + 1 + r.length := by simp; omega
      have hfirst : placedForward path (some (s ++ '/' :: r)) = (some (offset, s), some r) := by
        rw [placedForward, pathComponentForward_cut path r hs, if_neg fun h => hne h.1,
          Option.getD_some, hplace]
        rfl
      rw [placedNames_append, placedNames_name _ hs, if_neg hne, List.singleton_append]
      exact Yields.cons hfirst (ih (offset + s.length + 1) (by omega) htail (by omega))

private theorem doubled_of_append {s r : Text} (hs : '/' ∉ s) (h : ['/', '/'] <:+: s ++ '/' :: r) :
    ['/', '/'] <:+: '/' :: r := by
  induction s with
  | nil => exact h
  | cons x s ih =>
      rcases List.infix_cons_iff.mp h with hpart | htail
      · have hx : '/' = x := (List.cons_prefix_cons.mp hpart).1
        exact absurd (hx ▸ List.mem_cons_self) hs
      · exact ih (fun hmem => hs (List.mem_cons_of_mem x hmem)) htail

private theorem slash_mem_of_doubled (path : Text) (hhead : path.head? = some '/') (rest : Text)
    (hdouble : ['/', '/'] <:+: '/' :: rest) {l : List Text}
    (hl : Yields (pathComponentForward path) (some rest) l) : ['/'] ∈ l := by
  induction rest using slash_induction generalizing l with
  | name s hs =>
      rcases List.infix_cons_iff.mp hdouble with hpart | htail
      · exact absurd ((List.cons_prefix_cons.mp hpart).2.subset List.mem_cons_self) hs
      · exact absurd (htail.subset List.mem_cons_self) hs
  | cut s r hs ih =>
      rcases hl.cases_first with ⟨hend, -⟩ | ⟨b, c', tail, hnext, rfl, htail⟩
      · rw [pathComponentForward_cut path r hs] at hend
        cases hend
      · rw [pathComponentForward_cut path r hs, Prod.mk.injEq, Option.some.injEq] at hnext
        obtain ⟨rfl, rfl⟩ := hnext
        cases s with
        | nil =>
            rw [if_pos ⟨rfl, hhead⟩]
            exact List.mem_cons_self
        | cons x s =>
            have hdouble' : ['/', '/'] <:+: '/' :: r := by
              rcases List.infix_cons_iff.mp hdouble with hpart | hin
              · have hx : '/' = x := (List.cons_prefix_cons.mp (List.cons_prefix_cons.mp hpart).2).1
                exact absurd (hx ▸ List.mem_cons_self) hs
              · exact doubled_of_append hs hin
            exact List.mem_cons_of_mem _ (ih hdouble' htail)

/-! ## The step back -/

/-- A placed name as the start and the length of a component. -/
def place (x : Nat × Text) : Nat × Nat := (x.1, x.2.length)

/-- The root and the names with their places, from the root on. -/
def placedComponents (path : Text) : List (Nat × Text) := (0, ['/']) :: placedNames 0 path

private theorem pathComponentBackward_cut {path a s : Text} (hpart : a ++ '/' :: s <+: path)
    (hs : '/' ∉ s) (fuel : Nat) :
    pathComponentBackward path (fuel + 1) ((a ++ '/' :: s).length : Nat) =
      if s = [] then pathComponentBackward path fuel (a.length : Nat)
      else (some (a.length + 1, s.length), (a.length : Int)) := by
  obtain ⟨post, rfl⟩ := hpart
  have hlen : (a ++ '/' :: s).length - a.length - 1 = s.length := by
    rw [List.length_append, List.length_cons]
    omega
  rw [pathComponentBackward, Int.toNat_natCast,
    locateLastOccurence_append _ _ _ _ (Nat.le_refl _), locateLastOccurence_cut hs]
  simp only [hlen, List.length_eq_zero_iff]

private theorem pathComponentBackward_root {path : Text} (hhead : path.head? = some '/') (fuel : Nat) :
    pathComponentBackward path (fuel + 1) (0 : Nat) = (some (0, 1), -1) := by
  rw [pathComponentBackward, Int.toNat_natCast, locateLastOccurence]
  simp [hhead]

private theorem pathComponentBackward_yields {path : Text} (hhead : path.head? = some '/') (q : Text)
    (hpart : q <+: path) (hq : q = [] ∨ q.head? = some '/') (fuel : Nat) (hfuel : q.length < fuel) :
    ∃ b c' l, pathComponentBackward path fuel (q.length : Nat) = (some b, c') ∧
      Yields (pathComponentBackward path (path.length + 2)) c' l ∧
      b :: l = ((placedComponents q).map place).reverse := by
  induction hn : q.length using Nat.strongRecOn generalizing q fuel with
  | ind n ih =>
      obtain ⟨fuel, rfl⟩ : ∃ k, fuel = k + 1 := ⟨fuel - 1, by omega⟩
      rcases hq with rfl | hq
      · rw [← hn]
        refine ⟨_, _, [], pathComponentBackward_root hhead fuel, Yields.nil ?_, rfl⟩
        rfl
      · obtain ⟨a, s, rfl, hs⟩ := exists_cut hq
        have hlen : (a ++ '/' :: s).length = a.length + 1 + s.length := by simp; omega
        have ha : a <+: path := (List.prefix_append a ('/' :: s)).trans hpart
        have hahead : a = [] ∨ a.head? = some '/' := by
          cases a with
          | nil => exact Or.inl rfl
          | cons x a => exact Or.inr hq
        have hnames := placedNames_append 0 a s
        rw [placedNames_name _ hs] at hnames
        have hle := ha.length_le
        rw [← hn, pathComponentBackward_cut hpart hs, placedComponents, hnames]
        by_cases hne : s = []
        · rw [if_pos hne, if_pos hne, List.append_nil]
          exact ih a.length (by omega) a ha hahead fuel (by omega) rfl
        · rw [if_neg hne, if_neg hne]
          obtain ⟨b, c', l, hnext, hl, hlist⟩ :=
            ih a.length (by omega) a ha hahead (path.length + 2) (by omega) rfl
          refine ⟨_, _, b :: l, rfl, Yields.cons hnext hl, ?_⟩
          rw [hlist, placedComponents, ← List.cons_append, List.map_append, List.reverse_append,
            Nat.zero_add]
          rfl

private theorem pathComponentBackward_names (p : AbsolutePath) :
    Yields (pathComponentBackward p.text (p.text.length + 2)) (p.text.length : Int)
      ((placedComponents p.text).map place).reverse := by
  obtain ⟨b, c', l, hnext, hl, hlist⟩ := pathComponentBackward_yields p.absolute p.text
    (List.prefix_refl _) (Or.inr p.absolute) (p.text.length + 2) (by omega)
  rw [← hlist]
  exact Yields.cons hnext hl

private theorem map_componentText (p : AbsolutePath) :
    ((placedComponents p.text).map place).map (componentText p.text) =
      ['/'] :: components p.text := by
  have hroot : componentText p.text (0, 1) = ['/'] := by
    obtain ⟨rest, htext⟩ := List.head?_eq_some_iff.mp p.absolute
    rw [htext]
    rfl
  rw [placedComponents, List.map_cons, List.map_cons, List.map_map, ← placedNames_snd 0]
  congr 1
  apply List.map_congr_left
  intro x hx
  exact take_drop_of_mem_placedNames [] p.text hx

/-! ## Agreement -/

/-- The walks agree where no slash follows another one. -/
theorem walksAgree_iff (p : AbsolutePath) : WalksAgree p.text ↔ SingleSlashes p.text := by
  obtain ⟨rest, htext⟩ := List.head?_eq_some_iff.mp p.absolute
  have hhead := p.absolute
  have hfirst := pathComponentForward_cut p.text rest (List.not_mem_nil (a := '/'))
  rw [if_pos ⟨rfl, hhead⟩, List.nil_append, ← htext] at hfirst
  constructor
  · intro h hdouble
    obtain ⟨forward, backward, subForward, subBackward, hforward, -, -, -, hnames, -⟩ :=
      h.exists_lists
    rcases hforward.cases_first with ⟨hend, -⟩ | ⟨b, c', tail, hnext, hcons, htail⟩
    · rw [hfirst] at hend
      cases hend
    · rw [hfirst, Prod.mk.injEq, Option.some.injEq] at hnext
      obtain ⟨rfl, rfl⟩ := hnext
      have hslash := slash_mem_of_doubled p.text hhead rest (htext ▸ hdouble) htail
      rw [hcons] at hnames
      rw [(List.cons.inj hnames).2] at hslash
      exact absurd List.mem_cons_self (mem_components hslash).2
  · intro hsingle
    have hplaced : Yields (placedForward p.text) (some p.text) (placedComponents p.text) := by
      have hnames : placedNames 0 p.text = placedNames 1 rest := by
        rw [htext]
        exact placedNames_append 0 [] rest
      rw [placedComponents, hnames]
      apply Yields.cons
      · rw [placedForward, hfirst, Option.getD_some, Nat.sub_self]
        rfl
      · exact placedForward_yields p.text 1 rest (by rw [htext, List.length_cons, Nat.add_comm])
          (htext ▸ hsingle)
    have hback := pathComponentBackward_names p
    have htexts := map_componentText p
    refine ⟨_, _, _, _, hplaced.map _ (pathComponentForward_eq_placed p.text), hback,
      hplaced.map _ (pathSubpathForward_eq_placed p.text), hback.map (fun x => x.1 + x.2)
        (fun _ => rfl), ?_, ?_, ?_⟩
    · rw [placedComponents, List.map_cons, placedNames_snd]
    · rw [List.map_reverse, List.reverse_reverse, htexts, placedComponents, List.map_cons,
        placedNames_snd]
    · rw [List.map_reverse, List.reverse_reverse, List.map_map]
      rfl

/-- A path with two slashes in the middle. -/
def doubledPath : AbsolutePath := .fromRoot ['a', '/', '/', 'b']

theorem doubledPath_disagrees :
    Yields (pathComponentForward doubledPath.text) (some doubledPath.text)
      [['/'], ['a'], ['/'], ['b']] ∧ ¬ WalksAgree doubledPath.text := by
  have hwalk : Yields (pathComponentForward doubledPath.text) (some doubledPath.text)
      [['/'], ['a'], ['/'], ['b']] := ⟨5, by decide⟩
  refine ⟨hwalk, ?_⟩
  intro h
  obtain ⟨forward, backward, subForward, subBackward, hforward, -, -, -, hnames, -⟩ :=
    h.exists_lists
  rw [hforward.unique hwalk] at hnames
  revert hnames
  decide

end Zrt.Fs
