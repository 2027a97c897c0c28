import Zrt.Errno
import Zrt.Framework.Runs
import Zrt.Fs.PathUtils

/-!
# The directory cache of the unpacker

The unpacker makes the directories of the files it extracts. It remembers the last directory it has
made, and skips the call to `mkdir` for a path that the remembered one begins with. Nothing makes
sure that the path ends at a component there, or that what `mkdir` finds in its place is a
directory.
-/

namespace Zrt.Unpack

open Zrt.Framework Zrt.Fs

universe u

variable {σ : Type u}

/-- Size of `s_cached_full_path`. -/
def cachedPathSize : Nat := 4096

/-- A file system as seen through `mkdir`: it makes the directory it says it has made, changes nothing
when it fails, and a path leads through directories only. -/
structure Directories (σ : Type u) where
  mkdir : σ → Text → Except Errno Unit × σ
  isDir : σ → Text → Bool
  made : ∀ w w' p, mkdir w p = (.ok (), w') → isDir w' p = true
  kept : ∀ w p q, isDir w q = true → isDir (mkdir w p).2 q = true
  refused : ∀ w w' p e, mkdir w p = (.error e, w') → w' = w
  ancestor : ∀ w p q, isDir w (p ++ '/' :: q) = true → p ≠ [] → isDir w p = true
  slash : ∀ w p, isDir w p = true → isDir w (p ++ ['/']) = true
  root : ∀ w, isDir w ['/'] = true

/-- The remembered path, and the file system. -/
structure DirCache (σ : Type u) where
  cachedFullPath : Text
  world : σ

variable (D : Directories σ)

/-- The paths hold no NUL, so that `strncmp` compares their first `len` characters. `strncpy` must
leave a terminator in the array. -/
def createDirAndCacheName (s : DirCache σ) (dirpath : Text) (len : Nat) :
    Option (Int × DirCache σ) :=
  if dirpath.take len = s.cachedFullPath.take len then some (0, s)
  else if cachedPathSize < len ∨ cachedPathSize ≤ (dirpath.take len).length then none
  else
    match D.mkdir s.world (dirpath.take len) with
    | (.ok _, w) => some (0, ⟨dirpath.take len, w⟩)
    | (.error e, w) =>
        if e = .eexist then some (0, ⟨dirpath.take len, w⟩) else some (-1, ⟨[], w⟩)

/-- Short paths are not handled, and the result is not looked at. -/
def callbackParse (path : Text) (s : DirCache σ) (length : Nat) : Option (DirCache σ) :=
  if length < 2 then some s else (createDirAndCacheName D s path length).map Prod.snd

/-- The root is handled as a slash of its own. -/
def subpathLen (i len : Nat) : Nat := if i = 0 ∧ 1 < len then 1 else i

theorem subpathLen_lt {path : Text} {i len : Nat} (h : locateLastOccurence path '/' len = some i) :
    subpathLen i len < len := by
  have hlt := (locateLastOccurence_eq_some h).1
  unfold subpathLen
  split <;> omega

/-- The part before the rightmost slash first, then that part itself. -/
def processSubdirs (path : Text) (len : Nat) (s : DirCache σ) : Option (Nat × DirCache σ) :=
  match _h : locateLastOccurence path '/' len with
  | none => some (0, s)
  | some i =>
      (processSubdirs path (subpathLen i len) s).bind fun r =>
        (callbackParse D path r.2 (subpathLen i len)).map fun t => (1, t)
termination_by len
decreasing_by exact subpathLen_lt _h

/-- Length of the directory part, its slash included. -/
def dirPathLen (path : Text) : Nat :=
  match locateLastOccurence path '/' path.length with
  | some i => i + 1
  | none => path.length

/-- The directory part as a whole is tried first. -/
def parsePath (s : DirCache σ) (path : Text) : Option (Nat × DirCache σ) :=
  (createDirAndCacheName D s path (dirPathLen path)).bind fun r =>
    if r.1 ≠ 0 then processSubdirs D path (dirPathLen path) r.2 else some (0, r.2)

/-! ## Runs of calls -/

/-- A call on a nonempty part of an absolute path. -/
structure DirCall where
  path : AbsolutePath
  len : Nat
  pos : 0 < len
  le : len ≤ path.text.length

def DirCall.dir (c : DirCall) : Text := c.path.text.take c.len

/-- What happens in between removes no directory. -/
structure Directories.Growth (D : Directories σ) where
  act : σ → σ
  kept : ∀ w q, D.isDir w q = true → D.isDir (act w) q = true

inductive CacheStep (D : Directories σ) where
  | create (c : DirCall)
  | meanwhile (g : D.Growth)

def step (s : DirCache σ) : CacheStep D → Option (DirCache σ)
  | .create c => (createDirAndCacheName D s c.path.text c.len).map Prod.snd
  | .meanwhile g => some { s with world := g.act s.world }

/-- The call returns, and if it returns zero the directory is there. -/
def Creates (s : DirCache σ) : CacheStep D → Prop
  | .create c => ∃ r s', createDirAndCacheName D s c.path.text c.len = some (r, s') ∧
      (r = 0 → D.isDir s'.world c.dir = true)
  | .meanwhile _ => True

/-- The remembered path is the one asked for, or goes on with a new component. -/
def Boundary (dir cached : Text) : Prop :=
  dir = cached ∨ dir ++ ['/'] <+: cached ∨ dir.getLast? = some '/'

/-- What the cache relies on: what it finds ends at a component, and what `mkdir` finds is a directory. -/
def Clear (s : DirCache σ) : CacheStep D → Prop
  | .create c =>
      if c.dir = s.cachedFullPath.take c.len then
        Boundary c.dir s.cachedFullPath ∨ D.isDir s.world c.dir = true
      else
        c.len < cachedPathSize ∧
          ((D.mkdir s.world c.dir).1 = .error .eexist → D.isDir s.world c.dir = true)
  | .meanwhile _ => True

instance (s : DirCache σ) (a : CacheStep D) : Decidable (Clear D s a) :=
  match a with
  | .create c =>
      inferInstanceAs (Decidable (if c.dir = s.cachedFullPath.take c.len then
          (c.dir = s.cachedFullPath ∨ c.dir ++ ['/'] <+: s.cachedFullPath ∨
            c.dir.getLast? = some '/') ∨ D.isDir s.world c.dir = true
        else c.len < cachedPathSize ∧
          ((D.mkdir s.world c.dir).1 = .error .eexist → D.isDir s.world c.dir = true)))
  | .meanwhile _ => isTrue trivial

/-- A remembered path is a directory. -/
def Remembers (s : DirCache σ) : Prop :=
  s.cachedFullPath = [] ∨ D.isDir s.world s.cachedFullPath = true

section Lemmas

variable {D} {s t : DirCache σ} {c : DirCall}

theorem DirCall.length_dir (c : DirCall) : c.dir.length = c.len := by
  rw [DirCall.dir, List.length_take, Nat.min_eq_left c.le]

theorem DirCall.head_dir (c : DirCall) : c.dir.head? = some '/' := by
  rw [DirCall.dir, List.head?_take, if_neg (Nat.ne_of_gt c.pos), c.path.absolute]

private theorem DirCall.dir_ne_nil (c : DirCall) : c.dir ≠ [] := by
  intro h
  have hhead := c.head_dir
  rw [h] at hhead
  cases hhead

private theorem isDir_of_boundary {w : σ} {dir rest : Text} (hdir : dir.head? = some '/')
    (hb : Boundary dir (dir ++ rest)) (h : D.isDir w (dir ++ rest) = true) :
    D.isDir w dir = true := by
  have hne : dir ≠ [] := by
    intro hnil
    rw [hnil] at hdir
    cases hdir
  rcases hb with heq | ⟨more, hmore⟩ | hlast
  · rw [heq]
    exact h
  · apply D.ancestor w dir more _ hne
    rw [← hmore, List.append_assoc] at h
    exact h
  · -- the path asked for ends with a slash of its own
    obtain ⟨pre, rfl⟩ := List.getLast?_eq_some_iff.mp hlast
    by_cases hpre : pre = []
    · rw [hpre]
      exact D.root w
    · apply D.slash
      apply D.ancestor w pre rest _ hpre
      rw [List.append_assoc] at h
      exact h

theorem create_hit (hit : c.dir = s.cachedFullPath.take c.len) :
    createDirAndCacheName D s c.path.text c.len = some (0, s) := by
  rw [DirCall.dir] at hit
  rw [createDirAndCacheName, if_pos hit]

private theorem create_overflow (miss : c.dir ≠ s.cachedFullPath.take c.len) (h : cachedPathSize ≤ c.len) :
    createDirAndCacheName D s c.path.text c.len = none := by
  have hlen := c.length_dir
  rw [DirCall.dir] at miss hlen
  rw [createDirAndCacheName, if_neg miss, if_pos (Or.inr (by rw [hlen]; exact h))]

theorem create_mkdir (miss : c.dir ≠ s.cachedFullPath.take c.len) (h : c.len < cachedPathSize) :
    createDirAndCacheName D s c.path.text c.len =
      match D.mkdir s.world c.dir with
      | (.ok _, w) => some (0, ⟨c.dir, w⟩)
      | (.error e, w) => if e = .eexist then some (0, ⟨c.dir, w⟩) else some (-1, ⟨[], w⟩) := by
  have hlen := c.length_dir
  rw [DirCall.dir] at miss hlen
  rw [createDirAndCacheName, if_neg miss, if_neg (by omega)]
  rfl

private theorem exists_rest_of_hit (hit : c.dir = s.cachedFullPath.take c.len) :
    ∃ rest, s.cachedFullPath = c.dir ++ rest := by
  obtain ⟨rest, hrest⟩ := List.take_prefix c.len s.cachedFullPath
  exact ⟨rest, by rw [hit, hrest]⟩

private theorem Remembers.isDir_of_hit (h : Remembers D s) (hit : c.dir = s.cachedFullPath.take c.len)
    (hb : Boundary c.dir s.cachedFullPath) : D.isDir s.world c.dir = true := by
  obtain ⟨rest, hrest⟩ := exists_rest_of_hit hit
  rcases h with hnil | hdir
  · rw [hnil] at hrest
    exact absurd (List.append_eq_nil_iff.mp hrest.symm).1 c.dir_ne_nil
  · rw [hrest] at hb hdir
    exact isDir_of_boundary c.head_dir hb hdir

theorem Remembers.create (h : Remembers D s) (hclear : Clear D s (.create c)) :
    ∃ r s', createDirAndCacheName D s c.path.text c.len = some (r, s') ∧ Remembers D s' ∧
      (r = 0 → D.isDir s'.world c.dir = true) ∧
      (∀ q, D.isDir s.world q = true → D.isDir s'.world q = true) := by
  by_cases hit : c.dir = s.cachedFullPath.take c.len
  · rw [Clear, if_pos hit] at hclear
    refine ⟨0, s, create_hit hit, h, fun _ => ?_, fun q hq => hq⟩
    rcases hclear with hb | hdir
    · exact h.isDir_of_hit hit hb
    · exact hdir
  · rw [Clear, if_neg hit] at hclear
    obtain ⟨hlen, heexist⟩ := hclear
    have hkept := D.kept s.world c.dir
    rw [create_mkdir hit hlen]
    cases hmk : D.mkdir s.world c.dir with
    | mk res w =>
        rw [hmk] at hkept heexist
        cases res with
        | ok u =>
            have hmade := D.made s.world w c.dir hmk
            exact ⟨0, ⟨c.dir, w⟩, rfl, Or.inr hmade, fun _ => hmade, hkept⟩
        | error e =>
            simp only
            by_cases he : e = .eexist
            · rw [if_pos he]
              have hdir := hkept _ (heexist (by rw [he]))
              exact ⟨0, ⟨c.dir, w⟩, rfl, Or.inr hdir, fun _ => hdir, hkept⟩
            · rw [if_neg he]
              refine ⟨-1, ⟨[], w⟩, rfl, Or.inl rfl, ?_, hkept⟩
              intro hr
              cases hr

private theorem clear_of_creates (h : Creates D s (.create c)) : Clear D s (.create c) := by
  obtain ⟨r, s', hcall, hdir⟩ := h
  by_cases hit : c.dir = s.cachedFullPath.take c.len
  · rw [Clear, if_pos hit]
    rw [create_hit hit] at hcall
    cases hcall
    exact Or.inr (hdir rfl)
  · rw [Clear, if_neg hit]
    by_cases hlen : c.len < cachedPathSize
    · refine ⟨hlen, fun he => ?_⟩
      rw [create_mkdir hit hlen] at hcall
      cases hmk : D.mkdir s.world c.dir with
      | mk res w =>
          rw [hmk] at hcall he
          simp only at he
          subst he
          obtain rfl := D.refused s.world w c.dir _ hmk
          simp only [if_true] at hcall
          cases hcall
          exact hdir rfl
    · rw [create_overflow hit (by omega)] at hcall
      cases hcall

theorem creates_iff (h : Remembers D s) (a : CacheStep D) : Creates D s a ↔ Clear D s a := by
  cases a with
  | create c =>
      constructor
      · exact clear_of_creates
      · intro hclear
        obtain ⟨r, s', hcall, -, hdir, -⟩ := h.create hclear
        exact ⟨r, s', hcall, hdir⟩
  | meanwhile g => exact Iff.rfl

/-- A clear step keeps what is remembered a directory, and removes none. -/
theorem Remembers.step (h : Remembers D s) {a : CacheStep D} (hclear : Clear D s a)
    (hstep : step D s a = some t) :
    Remembers D t ∧ ∀ q, D.isDir s.world q = true → D.isDir t.world q = true := by
  cases a with
  | create c =>
      obtain ⟨r, s', hcall, hs', -, hkept⟩ := h.create hclear
      rw [Unpack.step, hcall, Option.map_some, Option.some.injEq] at hstep
      rw [← hstep]
      exact ⟨hs', hkept⟩
  | meanwhile g =>
      rw [Unpack.step, Option.some.injEq] at hstep
      rw [← hstep]
      refine ⟨?_, g.kept s.world⟩
      rcases h with hnil | hdir
      · exact Or.inl hnil
      · exact Or.inr (g.kept s.world _ hdir)

end Lemmas

/-! ## Whole paths -/

/-- The call `callback_parse` makes for a subpath, if it makes one. -/
def subdirCall (path : AbsolutePath) (len : Nat) (hlen : len ≤ path.text.length) : List DirCall :=
  if h2 : len < 2 then [] else [⟨path, len, by omega, hlen⟩]

/-- The calls that `process_subdirs_via_callback` makes, in their order. -/
def subdirCalls (path : AbsolutePath) (len : Nat) (hlen : len ≤ path.text.length) : List DirCall :=
  match h : locateLastOccurence path.text '/' len with
  | none => []
  | some i =>
      have hlt : subpathLen i len < len := subpathLen_lt h
      subdirCalls path (subpathLen i len) (by omega) ++ subdirCall path (subpathLen i len) (by omega)
termination_by len

section ParsePath

variable {D} {s t : DirCache σ} {path : AbsolutePath}

theorem dirPathLen_pos (path : AbsolutePath) : 0 < dirPathLen path.text := by
  unfold dirPathLen
  split
  · exact Nat.succ_pos _
  · apply List.length_pos_iff.mpr
    intro hnil
    have hhead := path.absolute
    rw [hnil] at hhead
    cases hhead

theorem dirPathLen_le (text : Text) : dirPathLen text ≤ text.length := by
  unfold dirPathLen
  split
  · rename_i i hi
    exact (locateLastOccurence_eq_some hi).1
  · exact Nat.le_refl _

/-- The first call of `parse_path`. -/
def firstCall (path : AbsolutePath) : DirCall :=
  ⟨path, dirPathLen path.text, dirPathLen_pos path, dirPathLen_le path.text⟩

/-- The calls with which `parse_path` goes on when the first one has failed. -/
def furtherCalls (path : AbsolutePath) : List DirCall :=
  subdirCalls path (dirPathLen path.text) (dirPathLen_le path.text)

theorem subdirCalls_eq {len i : Nat} (hlen : len ≤ path.text.length)
    (h : locateLastOccurence path.text '/' len = some i) (hsub : subpathLen i len ≤ path.text.length) :
    subdirCalls path len hlen =
      subdirCalls path (subpathLen i len) hsub ++ subdirCall path (subpathLen i len) hsub := by
  rw [subdirCalls]
  split
  · rename_i hnone
    rw [hnone] at h
    cases h
  · rename_i j hj
    rw [hj] at h
    cases h
    rfl

private theorem subdirCalls_nil {len : Nat} (hlen : len ≤ path.text.length)
    (h : locateLastOccurence path.text '/' len = none) : subdirCalls path len hlen = [] := by
  rw [subdirCalls]
  split
  · rfl
  · rename_i j hj
    rw [hj] at h
    cases h

private theorem callbackParse_eq {len : Nat} (hlen : len ≤ path.text.length) :
    callbackParse D path.text s len =
      runFrom (step D) s ((subdirCall path len hlen).map CacheStep.create) := by
  by_cases h2 : len < 2
  · rw [callbackParse, subdirCall, if_pos h2, dif_pos h2]
    rfl
  · rw [callbackParse, subdirCall, if_neg h2, dif_neg h2]
    simp only [List.map_cons, List.map_nil, runFrom, step, Option.bind_fun_some]

private theorem processSubdirs_eq (path : AbsolutePath) (len : Nat) (hlen : len ≤ path.text.length)
    (s : DirCache σ) :
    (processSubdirs D path.text len s).map Prod.snd =
      runFrom (step D) s ((subdirCalls path len hlen).map CacheStep.create) := by
  induction len using Nat.strongRecOn generalizing s with
  | ind len ih =>
      rw [processSubdirs]
      split
      · rename_i h
        rw [subdirCalls_nil hlen h]
        rfl
      · rename_i i h
        have hlt := subpathLen_lt h
        have hsub : subpathLen i len ≤ path.text.length := by omega
        rw [subdirCalls_eq hlen h hsub, List.map_append, runFrom_append, ← ih _ hlt hsub]
        cases processSubdirs D path.text (subpathLen i len) s with
        | none => rfl
        | some r =>
            rw [Option.bind_some, Option.map_some, Option.bind_some, ← callbackParse_eq hsub,
              Option.map_map]
            exact Option.map_id'

private theorem mem_subdirCalls {len j : Nat} (hlen : len ≤ path.text.length) (hj : j < len)
    (hslash : path.text[j]? = some '/') (h2 : 2 ≤ j) :
    ∃ c ∈ subdirCalls path len hlen, c.path = path ∧ c.len = j := by
  induction len using Nat.strongRecOn with
  | ind len ih =>
      obtain ⟨i, hi⟩ := Option.isSome_iff_exists.mp (locateLastOccurence_isSome hj hslash)
      obtain ⟨-, -, hlast⟩ := locateLastOccurence_eq_some hi
      have hji : j ≤ i := by
        by_contra hlt
        exact hlast j (by omega) hj hslash
      have hsubpath : subpathLen i len = i := by
        unfold subpathLen
        rw [if_neg (by omega)]
      have hlt := subpathLen_lt hi
      have hsub : subpathLen i len ≤ path.text.length := by omega
      rw [subdirCalls_eq hlen hi hsub]
      rcases Nat.lt_or_eq_of_le hji with hbefore | rfl
      · obtain ⟨c, hc, hpath, hclen⟩ := ih (subpathLen i len) hlt hsub (by omega)
        exact ⟨c, List.mem_append_left _ hc, hpath, hclen⟩
      · refine ⟨⟨path, subpathLen j len, by omega, hsub⟩, ?_, rfl, hsubpath⟩
        apply List.mem_append_right
        rw [subdirCall, dif_neg (by omega)]
        exact List.mem_singleton_self _

/-- The calls of `parse_path`. -/
def parseCalls (D : Directories σ) (s : DirCache σ) (path : AbsolutePath) : List DirCall :=
  firstCall path ::
    match createDirAndCacheName D s path.text (dirPathLen path.text) with
    | some (r, _) => if r ≠ 0 then furtherCalls path else []
    | none => []

private theorem parsePath_eq (D : Directories σ) (s : DirCache σ) (path : AbsolutePath) :
    (parsePath D s path.text).map Prod.snd =
      runFrom (step D) s ((parseCalls D s path).map CacheStep.create) := by
  rw [parsePath, parseCalls, List.map_cons, runFrom, step, firstCall]
  cases createDirAndCacheName D s path.text (dirPathLen path.text) with
  | none => rfl
  | some r =>
      simp only [Option.bind_some, Option.map_some]
      split
      · exact processSubdirs_eq path (dirPathLen path.text) (dirPathLen_le path.text) r.2
      · rfl

/-- `mkdir` is not called, or it succeeds, or it reports that the path exists. -/
def Fine (D : Directories σ) (s : DirCache σ) : CacheStep D → Prop
  | .create c => c.dir = s.cachedFullPath.take c.len ∨ (D.mkdir s.world c.dir).1 = .ok () ∨
      (D.mkdir s.world c.dir).1 = .error .eexist
  | .meanwhile _ => True

instance (D : Directories σ) (s : DirCache σ) (a : CacheStep D) : Decidable (Fine D s a) :=
  match a with
  | .create c =>
      inferInstanceAs (Decidable (c.dir = s.cachedFullPath.take c.len ∨
        (D.mkdir s.world c.dir).1 = .ok () ∨ (D.mkdir s.world c.dir).1 = .error .eexist))
  | .meanwhile _ => isTrue trivial

/-- All calls to `mkdir` are fine; the first one may also fail, if those that repeat it part by part
are. -/
def MkdirsFine (D : Directories σ) (s : DirCache σ) (path : AbsolutePath) : Prop :=
  Fine D s (.create (firstCall path)) ∨
    ∀ s₁, step D s (.create (firstCall path)) = some s₁ →
      Guarded (step D) (Fine D) s₁ ((furtherCalls path).map CacheStep.create)

instance (D : Directories σ) (s : DirCache σ) (path : AbsolutePath) :
    Decidable (MkdirsFine D s path) :=
  match hs : step D s (.create (firstCall path)) with
  | none => isTrue (Or.inr (by
      intro s₁ h
      rw [hs] at h
      cases h))
  | some s₁ => decidable_of_iff (Fine D s (.create (firstCall path)) ∨
      Guarded (step D) (Fine D) s₁ ((furtherCalls path).map CacheStep.create)) (by
        rw [MkdirsFine, hs]
        simp only [Option.some.injEq, forall_eq'])

/-- The root, or a part in front of a slash. -/
def IsAncestor (dir path : Text) : Prop :=
  dir = ['/'] ∨ (dir ≠ [] ∧ ∃ rest, path = dir ++ '/' :: rest)

theorem create_zero {c : DirCall} (hclear : Clear D s (.create c)) (hfine : Fine D s (.create c)) :
    ∃ s', createDirAndCacheName D s c.path.text c.len = some (0, s') := by
  by_cases hit : c.dir = s.cachedFullPath.take c.len
  · exact ⟨s, create_hit hit⟩
  · rw [Clear, if_neg hit] at hclear
    rw [create_mkdir hit hclear.1]
    rw [Fine] at hfine
    cases hmk : D.mkdir s.world c.dir with
    | mk res w =>
        rw [hmk] at hfine
        rcases hfine with hhit | hok | hexists
        · exact absurd hhit hit
        · simp only at hok
          rw [hok]
          exact ⟨_, rfl⟩
        · simp only at hexists
          rw [hexists]
          exact ⟨_, rfl⟩

private theorem run_created (cs : List DirCall) (h : Remembers D s)
    (hclear : Guarded (step D) (Clear D) s (cs.map CacheStep.create))
    (hfine : Guarded (step D) (Fine D) s (cs.map CacheStep.create)) :
    ∃ t, runFrom (step D) s (cs.map CacheStep.create) = some t ∧
      (∀ q, D.isDir s.world q = true → D.isDir t.world q = true) ∧
      ∀ c ∈ cs, D.isDir t.world c.dir = true := by
  induction cs generalizing s with
  | nil => exact ⟨s, rfl, fun q hq => hq, fun c hc => absurd hc List.not_mem_nil⟩
  | cons c cs ih =>
      obtain ⟨hc, hclear⟩ := hclear
      obtain ⟨hf, hfine⟩ := hfine
      obtain ⟨r, s₁, hcall, hs₁, hdir, hkept⟩ := h.create hc
      have hzero : r = 0 := by
        obtain ⟨s', hs'⟩ := create_zero hc hf
        rw [hcall] at hs'
        cases hs'
        rfl
      have hstep : step D s (.create c) = some s₁ := by rw [step, hcall, Option.map_some]
      obtain ⟨t, ht, htkept, htdirs⟩ := ih hs₁ (hclear s₁ hstep) (hfine s₁ hstep)
      refine ⟨t, ?_, fun q hq => htkept q (hkept q hq), ?_⟩
      · rw [List.map_cons, runFrom, hstep, Option.bind_some]
        exact ht
      · intro c' hc'
        rcases List.mem_cons.mp hc' with rfl | hmem
        · exact htkept _ (hdir hzero)
        · exact htdirs c' hmem

theorem dir_firstCall {dir rest : Text} (h : path.text = dir ++ '/' :: rest) :
    dir.length < dirPathLen path.text ∧ path.text[dir.length]? = some '/' ∧
      ∃ more, (firstCall path).dir = dir ++ '/' :: more := by
  have hslash : path.text[dir.length]? = some '/' := by
    rw [h, List.getElem?_append_right (Nat.le_refl _), Nat.sub_self]
    rfl
  have hlt : dir.length < path.text.length := by
    rw [h, List.length_append, List.length_cons]
    omega
  obtain ⟨i, hi⟩ := Option.isSome_iff_exists.mp (locateLastOccurence_isSome hlt hslash)
  obtain ⟨-, -, hlast⟩ := locateLastOccurence_eq_some hi
  have hle : dir.length ≤ i := by
    by_contra hbefore
    exact hlast dir.length (by omega) hlt hslash
  have hdirlen : dirPathLen path.text = i + 1 := by rw [dirPathLen, hi]
  refine ⟨by omega, hslash, rest.take (i - dir.length), ?_⟩
  show path.text.take (dirPathLen path.text) = _
  rw [hdirlen, h, List.take_append, List.take_of_length_le (by omega),
    Nat.succ_sub hle, List.take_succ_cons]

private theorem ancestor_of_firstCall {w : σ} {dir : Text}
    (hd : D.isDir w (firstCall path).dir = true) (h : IsAncestor dir path.text) :
    D.isDir w dir = true := by
  rcases h with rfl | ⟨hne, rest, hrest⟩
  · exact D.root w
  · obtain ⟨-, -, more, hmore⟩ := dir_firstCall hrest
    rw [hmore] at hd
    exact D.ancestor w dir more hd hne

/-- After a `parse_path` whose calls are clear and fine every ancestor is there. -/
theorem parsePath_created (h : Remembers D s)
    (hclear : Guarded (step D) (Clear D) s ((parseCalls D s path).map CacheStep.create))
    (hfine : MkdirsFine D s path) :
    ∃ n t, parsePath D s path.text = some (n, t) ∧
      ∀ dir, IsAncestor dir path.text → D.isDir t.world dir = true := by
  obtain ⟨hfirst, hfurther⟩ := hclear
  obtain ⟨r, s₁, hcall, hs₁, hdir, -⟩ := h.create hfirst
  have hstep : step D s (.create (firstCall path)) = some s₁ := by
    rw [step, hcall, Option.map_some]
  have hcall' : createDirAndCacheName D s path.text (dirPathLen path.text) = some (r, s₁) := hcall
  by_cases hr : r = 0
  · refine ⟨0, s₁, ?_, fun dir hanc => ancestor_of_firstCall (hdir hr) hanc⟩
    rw [parsePath, hcall', Option.bind_some]
    simp only [hr, ne_eq, not_true_eq_false, if_false]
  · have hagain : Guarded (step D) (Fine D) s₁ ((furtherCalls path).map CacheStep.create) := by
      rcases hfine with hf | hf
      · obtain ⟨s', hs'⟩ := create_zero hfirst hf
        rw [hcall] at hs'
        cases hs'
        exact absurd rfl hr
      · exact hf s₁ hstep
    have hparse := parsePath_eq D s path
    have hcalls := hfurther s₁ hstep
    simp only [parseCalls, hcall', ne_eq, hr, not_false_eq_true, if_true] at hcalls hparse
    obtain ⟨t, ht, -, hdirs⟩ := run_created (furtherCalls path) hs₁ hcalls hagain
    rw [List.map_cons, runFrom, hstep, Option.bind_some, ht, Option.map_eq_some_iff] at hparse
    obtain ⟨⟨n, t'⟩, hp, rfl⟩ := hparse
    refine ⟨n, t', hp, ?_⟩
    intro dir hanc
    rcases hanc with rfl | ⟨hne, rest, hrest⟩
    · exact D.root _
    · obtain ⟨hlt, hslash, -⟩ := dir_firstCall hrest
      by_cases h2 : 2 ≤ dir.length
      · obtain ⟨c, hc, hpath, hlen⟩ := mem_subdirCalls (dirPathLen_le path.text) hlt hslash h2
        have hmade := hdirs c hc
        rw [DirCall.dir, hpath, hlen, hrest, List.take_left'] at hmade
        · exact hmade
        · rfl
      · -- only the root is that short
        have hroot : dir = ['/'] := by
          have hhead := path.absolute
          rw [hrest] at hhead
          cases dir with
          | nil => exact absurd rfl hne
          | cons x more =>
              cases more with
              | nil =>
                  simp only [List.cons_append, List.head?_cons, Option.some.injEq] at hhead
                  rw [hhead]
              | cons y more =>
                  simp only [List.length_cons] at h2
                  omega
        rw [hroot]
        exact D.root _

end ParsePath

end Zrt.Unpack
