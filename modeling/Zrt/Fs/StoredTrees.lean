import Zrt.Framework.NamingTrees
import Zrt.Fs.FileCalls
import Zrt.Fs.NameCalls

/-!
# What is stored in the in-memory mount

The graph of names together with the contents of the files: what a path leads to is a directory or a
file with its bytes. The graph may be taken to hold single names only, which lead to objects that have
been made.
-/

namespace Zrt.Fs

open Zrt.Framework

namespace NameSpace

/-- Entries are single names and lead to objects that have been made. -/
def Formed (g : NameSpace) : Prop :=
  ∀ o k t, g.names.entry o k = some t → '/' ∉ k ∧ t < g.next

/-- The graph without entries that no path uses. -/
def trimmed (g : NameSpace) : NameSpace where
  names :=
    { g.names with
      entry := fun o k => if '/' ∈ k then none else (g.names.entry o k).filter (· < g.next) }
  next := g.next

private theorem formed_trimmed (g : NameSpace) : g.trimmed.Formed := by
  intro o k t h
  simp only [trimmed] at h
  split at h
  · cases h
  · rename_i hslash
    exact ⟨hslash, by simpa [trimmed] using (Option.filter_eq_some_iff.mp h).2⟩

theorem Formed.lt_of_look {g : NameSpace} (h : g.Formed) {o t : Nat} {k : Text}
    (hlook : g.names.look o k = .ok t) : '/' ∉ k ∧ t < g.next := by
  unfold Naming.look at hlook
  split at hlook
  · cases hentry : g.names.entry o k with
    | none =>
        rw [hentry] at hlook
        cases hlook
    | some u =>
        rw [hentry] at hlook
        cases hlook
        exact h o k t hentry
  · cases hlook

theorem Formed.lt_of_resolve {g : NameSpace} (h : g.Formed) {o t : Nat} (ho : o < g.next)
    {ks : List Text} (hks : g.names.resolve o ks = .ok t) : t < g.next := by
  induction ks generalizing o with
  | nil =>
      cases hks
      exact ho
  | cons k ks ih =>
      simp only [Naming.resolve] at hks
      cases hlook : g.names.look o k with
      | ok u =>
          rw [hlook] at hks
          exact ih (h.lt_of_look hlook).2 hks
      | error e =>
          rw [hlook] at hks
          cases hks

theorem Formed.unreached {g : NameSpace} (h : g.Formed) {o : Nat} (ho : o < g.next)
    (ks : List Text) : g.names.resolve o ks ≠ .ok g.next :=
  fun hks => Nat.lt_irrefl _ (h.lt_of_resolve ho hks)

theorem Formed.add {g : NameSpace} (h : g.Formed) {dir : Nat} {name : Text} (hname : '/' ∉ name)
    (isDir : Bool) : (g.add dir name isDir none).Formed := by
  intro o k t hentry
  simp only [NameSpace.add, Naming.bind, Naming.make] at hentry ⊢
  split at hentry
  · rename_i hnew
    cases hentry
    rw [hnew.2]
    exact ⟨hname, Nat.lt_succ_self _⟩
  · split at hentry
    · cases hentry
    · obtain ⟨hslash, hlt⟩ := h o k t hentry
      exact ⟨hslash, Nat.lt_succ_of_lt hlt⟩

end NameSpace

open NameSpace

namespace MemMount

variable {m : MemMount} {g : NameSpace}

private theorem Shows.trimmed (h : m.Shows g) (hm : m.Grounded) : m.Shows g.trimmed where
  next := h.next
  root := h.root
  kind := h.kind
  look := by
    intro s n name hs hn hvis hslash
    obtain ⟨r, hr, hfound⟩ := h.look s n name hs hn hvis hslash
    refine ⟨r, hr, ?_⟩
    have hsame : g.trimmed.names.look n.nodedata name = g.names.look n.nodedata name := by
      unfold Naming.look at hfound ⊢
      simp only [NameSpace.trimmed, hslash, if_false]
      split
      · rename_i hdir
        rw [if_pos hdir] at hfound
        cases hentry : g.names.entry n.nodedata name with
        | none => rfl
        | some t =>
            rw [hentry] at hfound
            have hlt : t < g.next := by
              generalize hx : (Except.ok t : Except NoSuch Nat) = x at hfound
              cases hfound with
              | ok hs' hn' hvis' =>
                  cases hx
                  rw [h.next]
                  exact hm.bounded _ _ hn'
            simp [Option.filter, hlt]
      · rfl
    rw [hsame]
    exact hfound

end MemMount

namespace Io

def contents (s : Io) (data : Nat) : List UInt8 := (s.files data).contents

/-- What names lead to from the root. -/
def lookupNames (s : Io) (names : List Text) : Option (Item (List UInt8)) :=
  match s.fs.mem.walk MemMount.rootSlot names with
  | some (.ok slot) =>
      (s.fs.mem.nodeAt slot).bind fun n =>
        (s.fs.mem.getData n.nodedata).map fun d =>
          if d.isDir then .dir else .file (s.contents n.nodedata)
  | _ => none

/-- What a path leads to. -/
def lookup (s : Io) (path : AbsolutePath) : Option (Item (List UInt8)) := s.lookupNames path.path

/-- A state that calls have left, with the names in it. -/
structure Stores (s : Io) (g : NameSpace) : Prop where
  named : s.fs.Named g
  formed : g.Formed
  accounts : s.fs.files.Accounts none
  sane : s.Sane

variable {s : Io} {g : NameSpace}

theorem Stores.sound (h : s.Stores g) : s.fs.mem.Sound := h.named.regular.orderly.sound

theorem stores_of_named (h : s.fs.Named g) (haccounts : s.fs.files.Accounts none) (hsane : s.Sane) :
    s.Stores g.trimmed where
  named := ⟨h.shows.trimmed h.regular.orderly.sound.grounded, h.regular⟩
  formed := formed_trimmed g
  accounts := haccounts
  sane := hsane

theorem Stores.walk (h : s.Stores g) {cs : List Text} (hcs : ∀ c ∈ cs, '/' ∉ c) :
    ∃ r, s.fs.mem.walk MemMount.rootSlot cs = some r ∧
      MemMount.Found s.fs.mem r (g.names.resolve rootObject cs) := by
  obtain ⟨n, hn, hroot⟩ := h.named.shows.root
  obtain ⟨r, hr, hfound⟩ := h.named.shows.walk (by decide) hn (Or.inl rfl) cs hcs
  rw [hroot] at hfound
  exact ⟨r, hr, hfound⟩

theorem Stores.lookupNames_eq (h : s.Stores g) {cs : List Text} (hcs : ∀ c ∈ cs, '/' ∉ c) :
    s.lookupNames cs = g.names.tree s.contents rootObject cs := by
  obtain ⟨r, hr, hfound⟩ := h.walk hcs
  unfold lookupNames Naming.tree
  rw [hr]
  generalize g.names.resolve rootObject cs = x at hfound
  cases hfound with
  | @ok slot n hs hn hvis =>
      obtain ⟨d, hd⟩ := h.sound.exists_data hs hn
      have hkind := h.named.shows.kind slot n d hs hn hvis hd
      simp [hn, hd, Naming.item, hkind]
  | error e => rfl

theorem Stores.lookup_eq (h : s.Stores g) (path : AbsolutePath) :
    s.lookup path = g.names.tree s.contents rootObject path.path :=
  h.lookupNames_eq fun _ hc => AbsolutePath.slash_not_mem_of_mem_path hc

theorem Stores.root_lt (h : s.Stores g) : rootObject < g.next := by
  obtain ⟨n, hn, hroot⟩ := h.named.shows.root
  rw [h.named.shows.next, ← hroot]
  exact h.sound.grounded.bounded _ _ hn

end Io

end Zrt.Fs
