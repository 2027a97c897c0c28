import Mathlib.Algebra.Order.BigOperators.Group.List
import Mathlib.Algebra.Order.Ring.Nat
import Zrt.Fs.ChannelsReaddir

/-!
# What the channels mount lists

A directory should list its own entry, its parent's, its direct subdirectories and its channels.
The prefix test accepts a name that merely continues the directory's name, and rejects a name of one
character in the root; the channels are counted from the same position as the subdirectories, so
that a directory with `n` subdirectories never shows the first `n` channels that pass the test.
-/

namespace Zrt.Fs

/-! ## The table -/

/-- Before the second pass a directory's inode is its position. -/
structure TableWF (dirs : List DirData) : Prop where
  inodes : dirs.map DirData.dirInode = List.range dirs.length
  parents : ∀ d ∈ dirs, d.parentDirInode < dirs.length
  nlinks : ∀ d ∈ dirs, d.nlink = 2
  paths : ∀ d ∈ dirs, d.path.head? = some '/'

private theorem TableWF.dirInode_lt {dirs : List DirData} (h : TableWF dirs) {d : DirData} (hd : d ∈ dirs) :
    d.dirInode < dirs.length := by
  have hm : d.dirInode ∈ dirs.map DirData.dirInode := List.mem_map_of_mem hd
  rw [h.inodes] at hm
  exact List.mem_range.mp hm

private theorem parentInodeOf_le {dirs : List DirData} (h : TableWF dirs) (path : Text) :
    parentInodeOf dirs path ≤ dirs.length := by
  unfold parentInodeOf
  split
  · rename_i parent hp
    obtain ⟨n, -, hn⟩ := Option.bind_eq_some_iff.mp hp
    exact (h.dirInode_lt (List.mem_of_find?_eq_some hn)).le
  · exact le_rfl

theorem callbackAddDir_wf {dirs : List DirData} (h : TableWF dirs) {path : Text}
    (hpath : path.head? = some '/') (len : Nat) : TableWF (callbackAddDir dirs path len) := by
  unfold callbackAddDir
  split
  · exact h
  split
  · exact h
  split
  · constructor
    · simp [List.range_succ, h.inodes]
    · intro d hd
      rw [List.length_append, List.length_singleton]
      rcases List.mem_append.mp hd with hd | hd
      · exact Nat.lt_succ_of_lt (h.parents d hd)
      · rw [List.mem_singleton.mp hd]
        exact Nat.lt_succ_of_le (parentInodeOf_le h _)
    · intro d hd
      rcases List.mem_append.mp hd with hd | hd
      · exact h.nlinks d hd
      · rw [List.mem_singleton.mp hd]
    · intro d hd
      rcases List.mem_append.mp hd with hd | hd
      · exact h.paths d hd
      · rw [List.mem_singleton.mp hd]
        rename_i hlen hnew hroom hd'
        rw [List.head?_take, if_neg hlen]
        exact hpath
  · exact h

private theorem processSubdirsViaCallback_wf {path : Text} (hpath : path.head? = some '/')
    {dirs : List DirData} (h : TableWF dirs) (fuel len : Nat) :
    TableWF (processSubdirsViaCallback path fuel dirs len) := by
  induction fuel generalizing len with
  | zero => exact h
  | succ fuel ih =>
      rw [processSubdirsViaCallback]
      split
      · exact h
      · exact callbackAddDir_wf (ih _) hpath _

private theorem collectDirs_wf (channels : List AbsolutePath) : TableWF (collectDirs channels) := by
  unfold collectDirs
  have h0 : TableWF ([] : List DirData) := ⟨rfl, by simp, by simp, by simp⟩
  -- the table is well formed after every channel, by induction from the left
  generalize ([] : List DirData) = dirs at h0
  induction channels generalizing dirs with
  | nil => exact h0
  | cons c cs ih => exact ih _ (processSubdirsViaCallback_wf c.absolute h0 _ _)

/-! ## Counting subdirectories -/

private theorem length_filter_of_findIdx? {α : Type*} {p : α → Bool} {l : List α} {k : Nat}
    (h : l.findIdx? p = some k) :
    (l.filter p).length = ((l.drop (k + 1)).filter p).length + 1 := by
  induction l generalizing k with
  | nil => simp at h
  | cons a l ih =>
      rw [List.findIdx?_cons] at h
      by_cases ha : p a = true
      · rw [if_pos ha] at h
        cases h
        simp [ha]
      · rw [if_neg ha] at h
        obtain ⟨j, hj, rfl⟩ := Option.map_eq_some_iff.mp h
        rw [List.filter_cons_of_neg ha, ih hj, List.drop_succ_cons]

private theorem subdirsCount_eq (dirs : List DirData) (dirpath : Text) (fuel index : Nat)
    (hfuel : dirs.length - index < fuel) :
    subdirsCount dirs dirpath fuel index =
      ((dirs.drop index).filter fun d => matchesContents dirpath d.path).length := by
  induction fuel generalizing index with
  | zero => omega
  | succ fuel ih =>
      rw [subdirsCount, getSubDirIndex]
      cases hk : (dirs.drop index).findIdx? fun d => matchesContents dirpath d.path with
      | none =>
          have hnone := List.findIdx?_eq_none_iff.mp hk
          have hempty : ((dirs.drop index).filter fun d => matchesContents dirpath d.path) = [] := by
            rw [List.filter_eq_nil_iff]
            intro d hd
            rw [hnone d hd]
            exact Bool.false_ne_true
          simp only [Option.map_none, hempty, List.length_nil]
      | some k =>
          have hlt : k < (dirs.drop index).length := (List.findIdx?_eq_some_iff_findIdx_eq.mp hk).1
          rw [List.length_drop] at hlt
          simp only [Option.map_some]
          rw [ih (index + k + 1) (by omega), length_filter_of_findIdx? hk, List.drop_drop]
          rfl

/-! ## Names -/

def baseName (p : Text) : Text := (components p).getLast?.getD []

/-- The path names an entry of the directory itself, not one further down. -/
def DirectlyIn (dirpath p : Text) : Prop :=
  components p ≠ [] ∧ (components p).dropLast = components dirpath

instance (dirpath p : Text) : Decidable (DirectlyIn dirpath p) :=
  inferInstanceAs (Decidable (_ ∧ _))

private theorem matchesContents_iff {d p : Text} :
    matchesContents d p = true ↔
      d <+: p ∧ d.length + 1 < p.length ∧ '/' ∉ p.drop (d.length + 1) := by
  simp [matchesContents, and_assoc]

theorem nameFromPath_of_matches {d p : Text} (hp : p.head? = some '/')
    (hm : matchesContents d p = true) : nameFromPath p = some (baseName p) := by
  obtain ⟨-, hlen, hslash⟩ := matchesContents_iff.mp hm
  have h0 : p[0]? = some '/' := by rw [← List.head?_eq_getElem?, hp]
  obtain ⟨i, hi⟩ := Option.isSome_iff_exists.mp
    (locateLastOccurence_isSome (show 0 < p.length by omega) h0)
  obtain ⟨hlt, hc, hlast⟩ := locateLastOccurence_eq_some hi
  have hsplit : p = p.take i ++ '/' :: p.drop (i + 1) := by
    have hget : p[i] = '/' := by simpa [List.getElem?_eq_getElem hlt] using hc
    rw [← hget, List.getElem_cons_drop, List.take_append_drop]
  have hrest : '/' ∉ p.drop (i + 1) := by
    intro hmem
    obtain ⟨j, hj⟩ := List.mem_iff_getElem?.mp hmem
    rw [List.getElem?_drop] at hj
    have hjlt : i + 1 + j < p.length := (List.getElem?_eq_some_iff.mp hj).1
    exact hlast (i + 1 + j) (by omega) hjlt hj
  have hne : p.drop (i + 1) ≠ [] := by
    intro hnil
    have hend : p.length ≤ i + 1 := List.drop_eq_nil_iff.mp hnil
    apply hslash
    apply List.mem_iff_getElem?.mpr
    exact ⟨i - (d.length + 1), by rw [List.getElem?_drop, Nat.add_sub_cancel' (by omega)]; exact hc⟩
  have hbase : baseName p = p.drop (i + 1) := by
    unfold baseName
    conv_lhs => rw [hsplit]
    rw [components_append_slash hne hrest]
    simp
  simp only [nameFromPath, hi, if_neg hne, hbase]

/-! ## The constructed mount -/

namespace ChannelMounts

private theorem construct_eq_some {channels : List AbsolutePath} {m : ChannelMounts}
    (h : channelsFilesystemConstruct channels = some m) :
    m = ⟨channels, (collectDirs channels).map
      (finishDir channels.length (collectDirs channels))⟩ := by
  rw [channelsFilesystemConstruct] at h
  split at h
  · exact (Option.some.inj h).symm
  · cases h

/-- What the construction guarantees. Channels take the inodes below, directories those above. -/
structure WF (m : ChannelMounts) : Prop where
  nodup : (m.manifestDirs.map DirData.dirInode).Nodup
  above : ∀ d ∈ m.manifestDirs, inodeFromZvmInode m.channels.length ≤ d.dirInode
  parents : ∀ d ∈ m.manifestDirs, ∃ e ∈ m.manifestDirs, e.dirInode = d.parentDirInode
  paths : ∀ d ∈ m.manifestDirs, d.path.head? = some '/'
  nlinks : ∀ d ∈ m.manifestDirs, d.nlink = 2 +
    (m.manifestDirs.filter fun e => matchesContents d.path e.path).length

theorem construct_wf {channels : List AbsolutePath} {m : ChannelMounts}
    (h : channelsFilesystemConstruct channels = some m) : m.WF := by
  rw [construct_eq_some h]
  have hwf := collectDirs_wf channels
  generalize collectDirs channels = dirs at hwf
  constructor
  · have hmap : (dirs.map (finishDir channels.length dirs)).map DirData.dirInode =
        (List.range dirs.length).map fun i => inodeFromZvmInode (i + channels.length) := by
      rw [← hwf.inodes, List.map_map, List.map_map]
      rfl
    show ((dirs.map (finishDir channels.length dirs)).map DirData.dirInode).Nodup
    rw [hmap]
    apply List.Nodup.map _ List.nodup_range
    intro i j hij
    simp only [inodeFromZvmInode] at hij
    omega
  · intro d hd
    obtain ⟨e, -, rfl⟩ := List.mem_map.mp hd
    simp only [finishDir, inodeFromZvmInode]
    omega
  · intro d hd
    obtain ⟨e, he, rfl⟩ := List.mem_map.mp hd
    have hlt := hwf.parents e he
    rw [← List.mem_range, ← hwf.inodes] at hlt
    obtain ⟨f, hf, hfe⟩ := List.mem_map.mp hlt
    apply Exists.intro (finishDir channels.length dirs f)
    apply And.intro (List.mem_map_of_mem hf)
    simp only [finishDir, hfe]
  · intro d hd
    obtain ⟨e, he, rfl⟩ := List.mem_map.mp hd
    exact hwf.paths e he
  · intro d hd
    obtain ⟨e, he, rfl⟩ := List.mem_map.mp hd
    have hcount := subdirsCount_eq dirs e.path (dirs.length + 1) 0 (by omega)
    simp only [finishDir, hwf.nlinks e he, hcount, List.drop_zero, List.filter_map,
      List.length_map]
    rfl

/-- The matched directories, in table order. -/
def matchedDirs (m : ChannelMounts) (dirpath : Text) : List DirData :=
  m.manifestDirs.filter fun d => matchesContents dirpath d.path

/-- The matched channels with their positions, in manifest order. -/
def matchedChannels (m : ChannelMounts) (dirpath : Text) : List (AbsolutePath × Nat) :=
  m.channels.zipIdx.filter fun c => matchesContents dirpath c.1.text

def dirDirent (d : DirData) : Dirent := ⟨d.dirInode, baseName d.path⟩

def channelDirent (c : AbsolutePath × Nat) : Dirent := ⟨inodeFromZvmInode c.2, baseName c.1.text⟩

def selfEntries (d : DirData) : List Dirent := [⟨d.dirInode, ['.']⟩, ⟨d.parentDirInode, ['.', '.']⟩]

/-- Everything the enumeration of a directory yields, by position. -/
def contents (m : ChannelMounts) (d : DirData) : List Dirent :=
  selfEntries d ++ ((m.matchedDirs d.path).map dirDirent ++
    ((m.matchedChannels d.path).drop (m.matchedDirs d.path).length).map channelDirent)

end ChannelMounts

private theorem iterateMatched_eq {α : Type*} (p : α → Bool) (index : Nat) (l : List α) (running : Nat)
    (h : running ≤ index) :
    iterateMatched p index l running = (l.filter p)[index - running]? := by
  induction l generalizing running with
  | nil => simp [iterateMatched]
  | cons a l ih =>
      rw [iterateMatched]
      by_cases ha : p a = true
      · rw [if_pos ha, List.filter_cons_of_pos ha]
        by_cases hi : index = running
        · simp [hi]
        · rw [if_neg hi, ih (running + 1) (by omega),
            show index - running = (index - (running + 1)) + 1 by omega, List.getElem?_cons_succ]
      · rw [if_neg ha, List.filter_cons_of_neg ha, ih running h]

namespace ChannelMounts

theorem WF.matchInode {m : ChannelMounts} (hwf : m.WF) {d : DirData} (hd : d ∈ m.manifestDirs) :
    matchInodeInDirectoryList m.manifestDirs d.dirInode = some d := by
  unfold matchInodeInDirectoryList
  cases hf : m.manifestDirs.find? fun e => e.dirInode == d.dirInode with
  | none =>
      have hall := List.find?_eq_none.mp hf d hd
      simp at hall
  | some e =>
      have hmem := List.mem_of_find?_eq_some hf
      have heq : e.dirInode = d.dirInode := by simpa using List.find?_some hf
      rw [List.inj_on_of_nodup_map hwf.nodup hmem hd heq]

private theorem WF.iterate_subdir {m : ChannelMounts} (hwf : m.WF) {dirpath : Text} {e : DirData} {i : Nat}
    (he : (m.matchedDirs dirpath)[i]? = some e) : subdirEntry e = some (dirDirent e) := by
  have hmem := List.mem_filter.mp (List.mem_of_getElem? he)
  have hname := nameFromPath_of_matches (hwf.paths e hmem.1) hmem.2
  simp only [subdirEntry, hname, Option.map_some, dirDirent]

private theorem iterate_channel {m : ChannelMounts} {dirpath : Text} {c : AbsolutePath × Nat} {i : Nat}
    (hc : (m.matchedChannels dirpath)[i]? = some c) : channelEntry c = some (channelDirent c) := by
  have hmem := List.mem_filter.mp (List.mem_of_getElem? hc)
  have hname := nameFromPath_of_matches c.1.absolute hmem.2
  simp only [channelEntry, hname, Option.map_some, channelDirent]

/-- The enumeration reads `contents` by position. A position serves the matched directories first,
and the matched channels only from as many on as there are matched directories. -/
theorem WF.iterateDirContents_eq {m : ChannelMounts} (hwf : m.WF) {d : DirData}
    (hd : d ∈ m.manifestDirs) (index : Nat) :
    m.iterateDirContents d.dirInode index = some (m.contents d)[index]? := by
  rw [iterateDirContents, hwf.matchInode hd, Option.bind_some]
  match index with
  | 0 => rfl
  | 1 => rfl
  | i + 2 =>
      have hdirs : iterateMatched (fun e => matchesContents d.path e.path) (i + 2)
          m.manifestDirs 2 = (m.matchedDirs d.path)[i]? := by
        rw [iterateMatched_eq _ _ _ _ (by omega), Nat.add_sub_cancel]
        rfl
      have hchannels : iterateMatched (fun c => matchesContents d.path c.1.text) (i + 2)
          m.channels.zipIdx 2 = (m.matchedChannels d.path)[i]? := by
        rw [iterateMatched_eq _ _ _ _ (by omega), Nat.add_sub_cancel]
        rfl
      have hcontents : (m.contents d)[i + 2]? = ((m.matchedDirs d.path).map dirDirent ++
          ((m.matchedChannels d.path).drop (m.matchedDirs d.path).length).map channelDirent)[i]? := rfl
      rw [if_neg (by omega), if_neg (by omega), hdirs, hchannels, hcontents]
      cases he : (m.matchedDirs d.path)[i]? with
      | some e =>
          have hlt := (List.getElem?_eq_some_iff.mp he).1
          rw [List.getElem?_append_left (by rwa [List.length_map]), List.getElem?_map, he]
          simp only [hwf.iterate_subdir he, Option.map_some]
      | none =>
          have hle := List.getElem?_eq_none_iff.mp he
          rw [List.getElem?_append_right (by rwa [List.length_map]), List.getElem?_map,
            List.length_map, List.getElem?_drop, Nat.add_sub_cancel' hle]
          cases hc : (m.matchedChannels d.path)[i]? with
          | some c => simp only [iterate_channel hc, Option.map_some]
          | none => rfl

private theorem WF.modeKnown_of_mem {m : ChannelMounts} (hwf : m.WF) {d : DirData}
    (hd : d ∈ m.manifestDirs) {e : Dirent} (he : e ∈ m.contents d) : m.modeKnown e.ino = true := by
  have hdir : ∀ f ∈ m.manifestDirs, m.modeKnown f.dirInode = true := by
    intro f hf
    rw [modeKnown, hwf.matchInode hf]
    simp
  rcases List.mem_append.mp he with he | he
  · simp only [selfEntries, List.mem_cons, List.not_mem_nil, or_false] at he
    rcases he with rfl | rfl
    · exact hdir d hd
    · obtain ⟨f, hf, hfd⟩ := hwf.parents d hd
      rw [← hfd]
      exact hdir f hf
  · rcases List.mem_append.mp he with he | he
    · obtain ⟨f, hf, rfl⟩ := List.mem_map.mp he
      exact hdir f (List.mem_of_mem_filter hf)
    · obtain ⟨c, hc, rfl⟩ := List.mem_map.mp he
      have hmem : c ∈ m.channels.zipIdx := List.mem_of_mem_filter (List.mem_of_mem_drop hc)
      rw [modeKnown, Bool.or_eq_true]
      apply Or.inl
      exact List.any_eq_true.mpr ⟨c, hmem, by simp [channelDirent]⟩

/-! ## Successive calls -/

section Calls

variable {layout : DirentLayout} {m : ChannelMounts} {d : DirData}

private theorem WF.getdentsLoop_spec (hwf : m.WF) (hd : d ∈ m.manifestDirs) (layout : DirentLayout)
    (fuel index space : Nat) :
    ∃ es, m.getdentsLoop layout d.dirInode fuel index space = some (es, index + es.length) ∧
      es <+: (m.contents d).drop index ∧
      (0 < fuel → (∀ e, (m.contents d)[index]? = some e → adjustedDirentSize layout e ≤ space) →
        es = [] → (m.contents d).drop index = []) := by
  induction fuel generalizing index space with
  | zero => exact ⟨[], rfl, List.nil_prefix, fun h => absurd h (lt_irrefl 0)⟩
  | succ fuel ih =>
      rw [getdentsLoop, hwf.iterateDirContents_eq hd, Option.bind_some]
      cases hi : (m.contents d)[index]? with
      | none =>
          have hnil : (m.contents d).drop index = [] :=
            List.drop_eq_nil_iff.mpr (List.getElem?_eq_none_iff.mp hi)
          exact ⟨[], rfl, List.nil_prefix, fun _ _ _ => hnil⟩
      | some e =>
          obtain ⟨hlt, hget⟩ := List.getElem?_eq_some_iff.mp hi
          have hdrop : (m.contents d).drop index = e :: (m.contents d).drop (index + 1) := by
            rw [List.drop_eq_getElem_cons hlt, hget]
          simp only [hwf.modeKnown_of_mem hd (List.mem_of_getElem? hi), if_true]
          by_cases hfit : adjustedDirentSize layout e ≤ space
          · obtain ⟨es, hes, hpre, -⟩ := ih (index + 1) (space - adjustedDirentSize layout e)
            rw [if_pos hfit, hes, hdrop]
            apply Exists.intro (e :: es)
            apply And.intro
            · simp only [Option.map_some, List.length_cons, Option.some.injEq, Prod.mk.injEq,
                true_and]
              omega
            · exact ⟨List.cons_prefix_cons.mpr ⟨rfl, hpre⟩, fun _ _ h => by cases h⟩
          · rw [if_neg hfit]
            exact ⟨[], rfl, List.nil_prefix, fun _ hall => absurd (hall e rfl) hfit⟩

private theorem getdentsCalls_length {inode offset : Nat} {bufs : List Nat} {calls : List (List Dirent)}
    (h : m.getdentsCalls layout inode offset bufs = some calls) : calls.length = bufs.length := by
  induction bufs generalizing offset calls with
  | nil =>
      cases h
      rfl
  | cons bufSize bufs ih =>
      rw [getdentsCalls] at h
      obtain ⟨r, -, hr⟩ := Option.bind_eq_some_iff.mp h
      obtain ⟨rest, hrest, rfl⟩ := Option.map_eq_some_iff.mp hr
      rw [List.length_cons, List.length_cons, ih hrest]

private theorem WF.channelsGetdents_spec (hwf : m.WF) (hd : d ∈ m.manifestDirs) {offset bufSize : Nat}
    (hoff : offset ≤ (m.contents d).length)
    (hfits : ∀ e, m.iterateDirContents d.dirInode offset = some (some e) →
      adjustedDirentSize layout e ≤ bufSize) :
    ∃ es, m.channelsGetdents layout d.dirInode offset bufSize = some (es, offset + es.length) ∧
      es ++ (m.contents d).drop (offset + es.length) = (m.contents d).drop offset ∧
      offset + es.length ≤ (m.contents d).length ∧
      (es = [] → (m.contents d).drop offset = []) := by
  obtain ⟨es, hes, ⟨rest, hsplit⟩, hempty⟩ :=
    hwf.getdentsLoop_spec hd layout (bufSize + 1) offset bufSize
  have hrest : rest = (m.contents d).drop (offset + es.length) := by
    rw [← List.drop_drop, ← hsplit, List.drop_left]
  refine ⟨es, hes, hrest ▸ hsplit, ?_, ?_⟩
  · have hlen := congrArg List.length hsplit
    rw [List.length_append, List.length_drop] at hlen
    omega
  · apply hempty (Nat.succ_pos _)
    intro e he
    apply hfits
    rw [hwf.iterateDirContents_eq hd, he]

theorem WF.getdentsCalls_spec (hwf : m.WF) (hd : d ∈ m.manifestDirs) (bufs : List Nat)
    (offset : Nat) (hoff : offset ≤ (m.contents d).length)
    (hb : m.BuffersHold layout d.dirInode offset bufs) :
    ∃ calls, m.getdentsCalls layout d.dirInode offset bufs = some calls ∧
      (calls.getLast? = some [] → calls.flatten = (m.contents d).drop offset) ∧
      ((m.contents d).length < offset + bufs.length → calls.getLast? = some []) := by
  induction bufs generalizing offset with
  | nil =>
      apply Exists.intro []
      refine ⟨rfl, by simp, ?_⟩
      intro h
      simp only [List.length_nil] at h
      omega
  | cons bufSize bufs ih =>
      obtain ⟨es, hcall, hsplit, hle, hend⟩ := hwf.channelsGetdents_spec hd hoff hb.1
      obtain ⟨calls, hcalls, hlast, henough⟩ := ih _ hle (hb.2 _ hcall)
      apply Exists.intro (es :: calls)
      refine ⟨by rw [getdentsCalls, hcall, Option.bind_some, hcalls, Option.map_some], ?_, ?_⟩
      · intro h
        rw [List.flatten_cons, ← hsplit]
        cases calls with
        | nil =>
            have hes0 : es = [] := by simpa using h
            rw [← hsplit, hes0] at hend
            simpa [hes0] using (hend rfl).symm
        | cons c cs =>
            rw [List.getLast?_cons_cons] at h
            rw [hlast h]
      · intro h
        rw [List.length_cons] at h
        cases calls with
        | nil =>
            have hbufs := getdentsCalls_length hcalls
            rw [List.length_nil] at hbufs
            have hes0 : es = [] := List.eq_nil_of_length_eq_zero (by omega)
            rw [hes0]
            rfl
        | cons c cs =>
            rw [List.getLast?_cons_cons]
            apply henough
            cases es with
            | cons e es => simp only [List.length_cons] at hle ⊢; omega
            | nil =>
                have hdone := List.drop_eq_nil_iff.mp (hend rfl)
                have hbufs := getdentsCalls_length hcalls
                simp only [List.length_cons] at hbufs
                simp only [List.length_nil]
                omega

private theorem WF.buffersHold_of_large (hwf : m.WF) (hd : d ∈ m.manifestDirs) {size : Nat}
    (hsize : ∀ e ∈ m.contents d, adjustedDirentSize layout e ≤ size) (count offset : Nat) :
    m.BuffersHold layout d.dirInode offset (List.replicate count size) := by
  induction count generalizing offset with
  | zero => trivial
  | succ count ih =>
      apply And.intro
      · intro e he
        rw [hwf.iterateDirContents_eq hd] at he
        exact hsize e (List.mem_of_getElem? (Option.some.inj he))
      · intro r _
        exact ih r.2

end Calls

/-! ## The listing a directory should have -/

def directSubdirs (m : ChannelMounts) (d : DirData) : List DirData :=
  m.manifestDirs.filter fun e => DirectlyIn d.path e.path

def directChannels (m : ChannelMounts) (d : DirData) : List (AbsolutePath × Nat) :=
  m.channels.zipIdx.filter fun c => DirectlyIn d.path c.1.text

def expectedEntries (m : ChannelMounts) (d : DirData) : List Dirent :=
  selfEntries d ++ ((m.directSubdirs d).map dirDirent ++ (m.directChannels d).map channelDirent)

/-- However the directory is read, reading it to the end yields each expected entry once and nothing
else, and the end is reached. -/
def ListsExactly (layout : DirentLayout) (m : ChannelMounts) (d : DirData) : Prop :=
  (∀ bufs, m.BuffersHold layout d.dirInode 0 bufs →
    ∃ calls, m.getdentsCalls layout d.dirInode 0 bufs = some calls ∧
      (calls.getLast? = some [] → calls.flatten.Perm (m.expectedEntries d)) ∧
      ((m.expectedEntries d).length < bufs.length → calls.getLast? = some [])) ∧
  d.nlink = 2 + (m.directSubdirs d).length

/-- The prefix test is exact on the directories, it misses no channel, and the channels it accepts
wrongly are the first ones, as many as there are subdirectories. -/
structure PrefixTestExact (m : ChannelMounts) (d : DirData) : Prop where
  dirs : ∀ e ∈ m.manifestDirs, matchesContents d.path e.path = true ↔ DirectlyIn d.path e.path
  channels : ∀ c ∈ m.channels, DirectlyIn d.path c.text → matchesContents d.path c.text = true
  skipped : ∀ c ∈ (m.channels.filter fun c => matchesContents d.path c.text).take
    (m.directSubdirs d).length, ¬DirectlyIn d.path c.text
  shown : ∀ c ∈ (m.channels.filter fun c => matchesContents d.path c.text).drop
    (m.directSubdirs d).length, DirectlyIn d.path c.text

section Exact

variable {m : ChannelMounts} {d : DirData}

theorem matchedChannels_map_fst (dirpath : Text) :
    (m.matchedChannels dirpath).map Prod.fst =
      m.channels.filter fun c => matchesContents dirpath c.text := by
  conv_rhs => rw [← List.zipIdx_map_fst 0 m.channels, List.filter_map]
  rfl

theorem matchedDirs_eq_directSubdirs (h : ∀ e ∈ m.manifestDirs,
    matchesContents d.path e.path = true ↔ DirectlyIn d.path e.path) :
    m.matchedDirs d.path = m.directSubdirs d := by
  apply List.filter_congr
  intro e he
  rw [Bool.eq_iff_iff, decide_eq_true_iff]
  exact h e he

private theorem PrefixTestExact.shown_eq (h : m.PrefixTestExact d) :
    (m.matchedChannels d.path).drop (m.directSubdirs d).length = m.directChannels d := by
  have hfilter : m.directChannels d =
      (m.matchedChannels d.path).filter fun c => DirectlyIn d.path c.1.text := by
    rw [matchedChannels, List.filter_filter]
    apply List.filter_congr
    intro c hc
    have hmem : c.1 ∈ m.channels := List.fst_mem_of_mem_zipIdx hc
    rw [Bool.eq_iff_iff, decide_eq_true_iff, Bool.and_eq_true, decide_eq_true_iff]
    exact ⟨fun hin => ⟨hin, h.channels c.1 hmem hin⟩, fun hin => hin.1⟩
  have hskipped := h.skipped
  have hshown := h.shown
  rw [← matchedChannels_map_fst, ← List.map_take] at hskipped
  rw [← matchedChannels_map_fst, ← List.map_drop] at hshown
  rw [hfilter]
  conv_rhs => rw [← List.take_append_drop (m.directSubdirs d).length (m.matchedChannels d.path)]
  rw [List.filter_append, List.filter_eq_nil_iff.mpr, List.nil_append, List.filter_eq_self.mpr]
  · intro c hc
    exact decide_eq_true (hshown c.1 (List.mem_map_of_mem hc))
  · intro c hc
    rw [decide_eq_true_iff]
    exact hskipped c.1 (List.mem_map_of_mem hc)

private theorem PrefixTestExact.contents_eq (h : m.PrefixTestExact d) : m.contents d = m.expectedEntries d := by
  rw [contents, expectedEntries, matchedDirs_eq_directSubdirs h.dirs, h.shown_eq]

/-! Entries determine what they were made from, because inodes are distinct. -/

private theorem WF.dirDirent_mem_iff (hwf : m.WF) {l : List DirData} (hl : ∀ f ∈ l, f ∈ m.manifestDirs)
    {k : List (AbsolutePath × Nat)} (hk : ∀ c ∈ k, c ∈ m.channels.zipIdx) {e : DirData}
    (he : e ∈ m.manifestDirs) :
    dirDirent e ∈ l.map dirDirent ++ k.map channelDirent ↔ e ∈ l := by
  constructor
  · intro h
    rcases List.mem_append.mp h with h | h
    · obtain ⟨f, hf, hfe⟩ := List.mem_map.mp h
      have hino : f.dirInode = e.dirInode := congrArg Dirent.ino hfe
      exact List.inj_on_of_nodup_map hwf.nodup (hl f hf) he hino ▸ hf
    · obtain ⟨c, hc, hce⟩ := List.mem_map.mp h
      have hino : inodeFromZvmInode c.2 = e.dirInode := congrArg Dirent.ino hce
      have hlt := List.snd_lt_of_mem_zipIdx (hk c hc)
      have hle := hwf.above e he
      simp only [inodeFromZvmInode] at hino hle
      omega
  · intro h
    exact List.mem_append_left _ (List.mem_map_of_mem h)

private theorem WF.channelDirent_mem_iff (hwf : m.WF) {l : List DirData}
    (hl : ∀ f ∈ l, f ∈ m.manifestDirs) {k : List (AbsolutePath × Nat)}
    (hk : ∀ c ∈ k, c ∈ m.channels.zipIdx) {c : AbsolutePath × Nat} (hc : c ∈ m.channels.zipIdx) :
    channelDirent c ∈ l.map dirDirent ++ k.map channelDirent ↔ c ∈ k := by
  constructor
  · intro h
    rcases List.mem_append.mp h with h | h
    · obtain ⟨f, hf, hfc⟩ := List.mem_map.mp h
      have hino : f.dirInode = inodeFromZvmInode c.2 := congrArg Dirent.ino hfc
      have hlt := List.snd_lt_of_mem_zipIdx hc
      have hle := hwf.above f (hl f hf)
      simp only [inodeFromZvmInode] at hino hle
      omega
    · obtain ⟨c', hc', hcc⟩ := List.mem_map.mp h
      have hino : inodeFromZvmInode c'.2 = inodeFromZvmInode c.2 := congrArg Dirent.ino hcc
      have hpos : c'.2 = c.2 := Nat.add_left_cancel hino
      have hfst := List.mem_zipIdx_iff_getElem?.mp (hk c' hc')
      rw [hpos, List.mem_zipIdx_iff_getElem?.mp hc] at hfst
      exact Prod.ext (Option.some.inj hfst) hpos.symm ▸ hc'
  · intro h
    exact List.mem_append_right _ (List.mem_map_of_mem h)

private theorem nodup_matchedChannels (dirpath : Text) : (m.matchedChannels dirpath).Nodup := by
  apply List.Nodup.filter
  apply List.Nodup.of_map Prod.snd
  rw [List.zipIdx_map_snd]
  exact List.nodup_range'

private theorem WF.prefixTestExact_of_perm (hwf : m.WF)
    (hperm : (m.contents d).Perm (m.expectedEntries d)) : m.PrefixTestExact d := by
  have hmem := fun x => ((List.perm_append_left_iff _).mp hperm).mem_iff (a := x)
  have hks : ∀ c ∈ (m.matchedChannels d.path).drop (m.matchedDirs d.path).length,
      c ∈ m.channels.zipIdx := fun c hc => List.mem_of_mem_filter (List.mem_of_mem_drop hc)
  have hls : ∀ f ∈ m.matchedDirs d.path, f ∈ m.manifestDirs :=
    fun f hf => List.mem_of_mem_filter hf
  have hlx : ∀ f ∈ m.directSubdirs d, f ∈ m.manifestDirs :=
    fun f hf => List.mem_of_mem_filter hf
  have hkx : ∀ c ∈ m.directChannels d, c ∈ m.channels.zipIdx :=
    fun c hc => List.mem_of_mem_filter hc
  have hdirs : ∀ e ∈ m.manifestDirs,
      matchesContents d.path e.path = true ↔ DirectlyIn d.path e.path := by
    intro e he
    have hiff := hmem (dirDirent e)
    rw [hwf.dirDirent_mem_iff hls hks he, hwf.dirDirent_mem_iff hlx hkx he] at hiff
    simpa [matchedDirs, directSubdirs, he] using hiff
  have hchan : ∀ c ∈ m.channels.zipIdx,
      c ∈ (m.matchedChannels d.path).drop (m.directSubdirs d).length ↔
        DirectlyIn d.path c.1.text := by
    intro c hc
    have hiff := hmem (channelDirent c)
    rw [hwf.channelDirent_mem_iff hls hks hc, hwf.channelDirent_mem_iff hlx hkx hc,
      matchedDirs_eq_directSubdirs hdirs] at hiff
    rw [hiff, directChannels, List.mem_filter, decide_eq_true_iff]
    exact and_iff_right hc
  have hsub : ∀ c ∈ m.matchedChannels d.path, c ∈ m.channels.zipIdx :=
    fun c hc => List.mem_of_mem_filter hc
  constructor
  · exact hdirs
  · intro c hc hin
    obtain ⟨i, hi⟩ := List.mem_iff_getElem?.mp hc
    have hz : (c, i) ∈ m.channels.zipIdx := List.mk_mem_zipIdx_iff_getElem?.mpr hi
    exact (List.mem_filter.mp (List.mem_of_mem_drop ((hchan (c, i) hz).mpr hin))).2
  · intro c hc hin
    rw [← matchedChannels_map_fst, ← List.map_take] at hc
    obtain ⟨x, hx, rfl⟩ := List.mem_map.mp hc
    have hdrop := (hchan x (hsub x (List.mem_of_mem_take hx))).mpr hin
    exact List.disjoint_take_drop (nodup_matchedChannels d.path) le_rfl hx hdrop
  · intro c hc
    rw [← matchedChannels_map_fst, ← List.map_drop] at hc
    obtain ⟨x, hx, rfl⟩ := List.mem_map.mp hc
    exact (hchan x (hsub x (List.mem_of_mem_drop hx))).mp hx

theorem WF.prefixTestExact_of_listsExactly (hwf : m.WF) (hd : d ∈ m.manifestDirs)
    {layout : DirentLayout} (h : m.ListsExactly layout d) : m.PrefixTestExact d := by
  let size := ((m.contents d).map (adjustedDirentSize layout)).sum
  have hsize : ∀ e ∈ m.contents d, adjustedDirentSize layout e ≤ size :=
    fun e he => List.le_sum_of_mem (List.mem_map_of_mem he)
  have hb := hwf.buffersHold_of_large hd hsize ((m.contents d).length + 1) 0
  obtain ⟨calls, hcalls, hlast, henough⟩ := hwf.getdentsCalls_spec hd _ 0 (Nat.zero_le _) hb
  obtain ⟨calls', hcalls', hexact, -⟩ := h.1 _ hb
  rw [hcalls] at hcalls'
  cases hcalls'
  have hend := henough (by rw [List.length_replicate]; omega)
  apply hwf.prefixTestExact_of_perm
  have hp := hexact hend
  rwa [hlast hend, List.drop_zero] at hp

private theorem WF.listsExactly_of_prefixTestExact (hwf : m.WF) (hd : d ∈ m.manifestDirs)
    (layout : DirentLayout) (h : m.PrefixTestExact d) : m.ListsExactly layout d := by
  apply And.intro
  · intro bufs hb
    obtain ⟨calls, hcalls, hlast, henough⟩ := hwf.getdentsCalls_spec hd _ 0 (Nat.zero_le _) hb
    apply Exists.intro calls
    apply And.intro hcalls
    apply And.intro
    · intro hend
      rw [hlast hend, List.drop_zero, h.contents_eq]
    · intro hlen
      apply henough
      rw [h.contents_eq]
      omega
  · rw [hwf.nlinks d hd]
    exact congrArg (fun l => 2 + l.length) (matchedDirs_eq_directSubdirs h.dirs)

end Exact

/-- A directory is listed exactly if and only if the prefix test is right about it and hides as many
wrong channels as the directory has subdirectories. -/
theorem listsExactly_iff (layout : DirentLayout) {channels : List AbsolutePath} {m : ChannelMounts}
    (hm : channelsFilesystemConstruct channels = some m) {d : DirData} (hd : d ∈ m.manifestDirs) :
    m.ListsExactly layout d ↔ m.PrefixTestExact d :=
  ⟨(construct_wf hm).prefixTestExact_of_listsExactly hd,
    (construct_wf hm).listsExactly_of_prefixTestExact hd layout⟩

/-- Standard input and one mount in a subdirectory of `/dev`. -/
def mountChannels : List AbsolutePath :=
  [⟨"/dev/stdin".toList, rfl⟩, ⟨"/dev/mount/import.tar".toList, rfl⟩]

/-- The one subdirectory of `/dev` takes the position of the first channel. -/
theorem dev_hides_stdin :
    ∃ m, channelsFilesystemConstruct mountChannels = some m ∧
      ∃ d ∈ m.manifestDirs, d.path = "/dev".toList ∧ ∀ layout, ¬m.ListsExactly layout d := by
  have hm : channelsFilesystemConstruct mountChannels =
      some ⟨mountChannels, processChannelsCreateDirList mountChannels⟩ := by decide
  refine ⟨_, hm, ⟨14, 13, 3, "/dev".toList⟩, by decide, rfl, ?_⟩
  intro layout h
  have hexact := (construct_wf hm).prefixTestExact_of_listsExactly (by decide) h
  exact hexact.skipped ⟨"/dev/stdin".toList, rfl⟩ (by decide) (by decide)

def standardChannels : List AbsolutePath :=
  [⟨"/dev/stdin".toList, rfl⟩, ⟨"/dev/stdout".toList, rfl⟩]

/-- Without subdirectories `/dev` shows both of its channels. -/
theorem dev_lists_standard_channels :
    ChannelMounts.ListsExactly ⟨11, 0⟩
      ⟨standardChannels, processChannelsCreateDirList standardChannels⟩
      ⟨14, 13, 2, "/dev".toList⟩ := by
  have hm : channelsFilesystemConstruct standardChannels =
      some ⟨standardChannels, processChannelsCreateDirList standardChannels⟩ := by decide
  apply (listsExactly_iff _ hm (by decide)).mpr
  exact ⟨by decide, by decide, by decide, by decide⟩

end ChannelMounts

end Zrt.Fs
