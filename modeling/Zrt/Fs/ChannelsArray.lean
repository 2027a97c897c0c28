import Mathlib.Algebra.Group.Nat.Defs
import Zrt.Fs.ChannelsReaddir

/-!
# The array of channels

The channels of the manifest and then the emulated ones are appended to a dynamic array. An emulated
channel that the manifest replaces is skipped, but the assertion at the end counts it. `none` stands
for a failed assertion or a null pointer. Allocation succeeds.
-/

namespace Zrt.Fs

universe u

/-! ## Dynamic arrays -/

/-- `SIZE_T_MAX`. -/
def sizeMax : Nat := 2 ^ 32 - 1

def pointerSize : Nat := 4

/-- The slots up to `num_entries`, among `ptr_array_space` ones. The slots behind are NULL. -/
structure DynArray (α : Type u) where
  entries : List (Option α)
  space : Nat
  space_pos : 0 < space
  fits : entries.length ≤ space

def bitsToAllocWords (nbits : Nat) : Nat := (nbits + 31) % (sizeMax + 1) / 32

/-- The loop over `desired_space`. -/
def desiredSpace (idx space : Nat) (h : 0 < space) : Option Nat :=
  if hidx : idx < space then some space
  else if htmp : 2 * space % (sizeMax + 1) < space then none
  else desiredSpace idx (2 * space % (sizeMax + 1)) (by omega)
termination_by idx + 1 - space
decreasing_by
  simp only [sizeMax] at htmp ⊢
  omega

theorem desiredSpace_of_lt {idx space : Nat} {h : 0 < space} (hidx : idx < space) :
    desiredSpace idx space h = some space := by
  rw [desiredSpace, dif_pos hidx]

theorem desiredSpace_gt {idx space desired : Nat} {h : 0 < space}
    (hd : desiredSpace idx space h = some desired) : idx < desired ∧ space ≤ desired := by
  induction space, h using desiredSpace.induct idx with
  | case1 space h hidx =>
      rw [desiredSpace_of_lt hidx] at hd
      cases hd
      exact ⟨hidx, le_rfl⟩
  | case2 space h hidx htmp =>
      rw [desiredSpace, dif_neg hidx, dif_pos htmp] at hd
      cases hd
  | case3 space h hidx htmp ih =>
      rw [desiredSpace, dif_neg hidx, dif_neg htmp] at hd
      have hgt := ih hd
      omega

namespace DynArray

variable {α : Type u}

def numEntries (a : DynArray α) : Nat := a.entries.length

end DynArray

def dynArrayCtor (α : Type u) (initialSize : Nat) : Option (DynArray α) :=
  let size := if initialSize = 0 then 32 else initialSize
  if sizeMax / pointerSize < size ∨ sizeMax / 4 < bitsToAllocWords size then none
  else some {
    entries := []
    space := size
    space_pos := by
      show 0 < if initialSize = 0 then 32 else initialSize
      split <;> omega
    fits := Nat.zero_le _ }

section Slots

variable {α : Type u} {n : Nat}

private theorem bitsToAllocWords_le (h : n ≤ sizeMax / pointerSize) :
    bitsToAllocWords n ≤ sizeMax / 4 := by
  simp only [bitsToAllocWords, sizeMax, pointerSize] at h ⊢
  omega

theorem dynArrayCtor_of_le (h : n ≤ sizeMax / pointerSize) :
    ∃ a, dynArrayCtor α n = some a ∧ a.entries = [] ∧ n ≤ a.space := by
  have hsize : (if n = 0 then 32 else n) ≤ sizeMax / pointerSize := by
    split
    · decide
    · exact h
  have hwords := bitsToAllocWords_le hsize
  have hle : n ≤ if n = 0 then 32 else n := by
    split <;> omega
  rw [dynArrayCtor, if_neg (not_or.mpr ⟨Nat.not_lt.mpr hsize, Nat.not_lt.mpr hwords⟩)]
  exact ⟨_, rfl, rfl, hle⟩

private theorem dynArrayCtor_of_gt (h : sizeMax / pointerSize < n) : dynArrayCtor α n = none := by
  have hn : n ≠ 0 := Nat.ne_of_gt (Nat.zero_lt_of_lt h)
  simp only [dynArrayCtor, if_neg hn, h, true_or, if_true]

def dynArrayGet (a : DynArray α) (idx : Nat) : Option α :=
  if idx < a.numEntries then a.entries[idx]?.join else none

private theorem dynArrayGet_items {a : DynArray α} {items : List α} (ha : a.entries = items.map some)
    (i : Nat) : dynArrayGet a i = items[i]? := by
  rw [dynArrayGet, DynArray.numEntries, ha, List.length_map, List.getElem?_map]
  by_cases hi : i < items.length <;> simp [hi]

/-- The slots after `ptr_array[idx] = ptr`. -/
def setSlot (entries : List (Option α)) (idx : Nat) (ptr : Option α) : List (Option α) :=
  if idx < entries.length then entries.set idx ptr
  else entries ++ (List.replicate (idx - entries.length) none ++ [ptr])

private theorem length_setSlot (entries : List (Option α)) (idx : Nat) (ptr : Option α) :
    (setSlot entries idx ptr).length = max entries.length (idx + 1) := by
  unfold setSlot
  split
  · rw [List.length_set]
    omega
  · rw [List.length_append, List.length_append, List.length_replicate, List.length_singleton]
    omega

theorem setSlot_length (entries : List (Option α)) (ptr : Option α) :
    setSlot entries entries.length ptr = entries ++ [ptr] := by
  simp [setSlot]

/-- `none` for the return value 0, which leaves the array as it was. -/
def dynArraySet (a : DynArray α) (idx : Nat) (ptr : Option α) : Option (DynArray α) :=
  match h : desiredSpace idx a.space a.space_pos with
  | none => none
  | some desired => some {
      entries := setSlot a.entries idx ptr
      space := desired
      space_pos := Nat.lt_of_lt_of_le a.space_pos (desiredSpace_gt h).2
      fits := by
        have hgt := desiredSpace_gt h
        have hfits := a.fits
        rw [length_setSlot]
        omega }

private theorem dynArraySet_numEntries (a : DynArray α) (ptr : Option α) (h : a.numEntries < a.space) :
    ∃ a', dynArraySet a a.numEntries ptr = some a' ∧ a'.entries = a.entries ++ [ptr] ∧
      a'.space = a.space := by
  have hsame := desiredSpace_of_lt (h := a.space_pos) h
  unfold dynArraySet
  split
  · rename_i hnone
    rw [hsame] at hnone
    cases hnone
  · rename_i desired hdesired
    rw [hsame] at hdesired
    cases hdesired
    exact ⟨_, rfl, setSlot_length _ _, rfl⟩

end Slots

/-! ## Channels -/

structure ChannelArrayItem (χ : Type u) where
  channel : χ
  inode : Nat
  emu : Int

abbrev ChannelsArray (χ : Type u) := DynArray (ChannelArrayItem χ)

inductive ChannelsCheck
  | zvmChannels
  | emuChannels
deriving DecidableEq

/-- The loop of the two matching functions. `none` when it meets a null item. -/
def matchItem {α : Type u} (p : α → Bool) : List (Option α) → Option (Option α)
  | [] => some none
  | none :: _ => none
  | some item :: rest => if p item then some (some item) else matchItem p rest

variable {χ : Type u} (name : χ → Text)

def channelsArrayMatchByName (a : ChannelsArray χ) (channelName : Text) :
    Option (Option (ChannelArrayItem χ)) :=
  matchItem (fun item => name item.channel = channelName) a.entries

def channelsArrayMatchByInode (a : ChannelsArray χ) (inode : Nat) :
    Option (Option (ChannelArrayItem χ)) :=
  matchItem (fun item => item.inode = inode) a.entries

-- `stale` is what `malloc` leaves in the `emu` words of the items.
variable (stale : Nat → Int)

/-- The item for entry `i`. -/
def newItem (check : ChannelsCheck) (i : Nat) (c : χ) : ChannelArrayItem χ where
  channel := c
  inode := inodeFromZvmInode i
  emu := if check = .emuChannels then 1 else stale i

/-- The result of `DynArraySet` is not looked at. -/
def addChannels (check : ChannelsCheck) : List χ → ChannelsArray χ → Option (ChannelsArray χ)
  | [], a => some a
  | c :: cs, a =>
      match if check = .emuChannels then channelsArrayMatchByName name a (name c) else some none with
      | none => none
      | some (some _) => addChannels check cs a
      | some none =>
          addChannels check cs ((dynArraySet a a.numEntries
            (some (newItem stale check a.numEntries c))).getD a)

def channelsArrayConstruct (zvmChannels emuChannels : List χ) : Option (ChannelsArray χ) := do
  let a ← dynArrayCtor (ChannelArrayItem χ) (zvmChannels.length + emuChannels.length)
  let a ← addChannels name stale .zvmChannels zvmChannels a
  let a ← addChannels name stale .emuChannels emuChannels a
  if a.numEntries = zvmChannels.length + emuChannels.length then some a else none

/-! ## What is appended -/

/-- The items for the channels, from entry `start` on. -/
def numbered (check : ChannelsCheck) (start : Nat) (channels : List χ) :
    List (ChannelArrayItem χ) :=
  (channels.zipIdx start).map fun c => newItem stale check c.2 c.1

/-- The names of the items. -/
def names (items : List (ChannelArrayItem χ)) : List Text :=
  items.map fun item => name item.channel

/-- The channels that are not skipped. -/
def appended (check : ChannelsCheck) (items : List (ChannelArrayItem χ))
    (channels : List χ) : List χ :=
  match check with
  | .zvmChannels => channels
  | .emuChannels => channels.filter fun c => name c ∉ names name items

variable {name stale} {check : ChannelsCheck} {start : Nat} {channels : List χ}

theorem numbered_cons (c : χ) :
    numbered stale check start (c :: channels) =
      newItem stale check start c :: numbered stale check (start + 1) channels := by
  simp [numbered]

theorem length_numbered : (numbered stale check start channels).length = channels.length := by
  simp [numbered]

theorem numbered_channels (stale : Nat → Int) (check : ChannelsCheck) (start : Nat)
    (channels : List χ) : (numbered stale check start channels).map ChannelArrayItem.channel = channels := by
  induction channels generalizing start with
  | nil => rfl
  | cons c cs ih =>
      rw [numbered_cons, List.map_cons, ih]
      rfl

private theorem numbered_inode {i : Nat} {item : ChannelArrayItem χ}
    (h : (numbered stale check start channels)[i]? = some item) :
    item.inode = inodeFromZvmInode (start + i) := by
  rw [numbered, List.getElem?_map, List.getElem?_zipIdx] at h
  cases hc : channels[i]? with
  | none =>
      rw [hc] at h
      cases h
  | some c =>
      rw [hc] at h
      cases h
      show inodeFromZvmInode (start + i) = _
      rfl

private theorem matchItem_items {α : Type u} (p : α → Bool) (items : List α) :
    matchItem p (items.map some) = some (items.find? p) := by
  induction items with
  | nil => rfl
  | cons item items ih =>
      rw [List.map_cons, matchItem, List.find?_cons, ih]
      cases p item <;> rfl

variable {a : ChannelsArray χ} {items : List (ChannelArrayItem χ)} {c : χ}

theorem matchByName_items (ha : a.entries = items.map some) (n : Text) :
    channelsArrayMatchByName name a n = some (items.find? fun item => name item.channel = n) := by
  rw [channelsArrayMatchByName, ha, matchItem_items]

private theorem find_name_eq_none {n : Text} (h : n ∉ names name items) :
    (items.find? fun item => name item.channel = n) = none := by
  apply List.find?_eq_none.mpr
  intro item hitem heq
  apply h
  rw [← of_decide_eq_true heq]
  exact List.mem_map_of_mem hitem

theorem find_name_isSome {n : Text} (h : n ∈ names name items) :
    ∃ item, (items.find? fun item => name item.channel = n) = some item := by
  obtain ⟨item, hitem, heq⟩ := List.mem_map.mp h
  apply Option.isSome_iff_exists.mp
  apply List.find?_isSome.mpr
  exact ⟨item, hitem, decide_eq_true heq⟩

private theorem appended_matched (h : name c ∈ names name items) :
    appended name .emuChannels items (c :: channels) = appended name .emuChannels items channels := by
  rw [appended, List.filter_cons_of_neg]
  · rfl
  · simpa using h

private theorem appended_cons (hnew : check = .emuChannels → name c ∉ names name items)
    (hnodup : check = .emuChannels → ((c :: channels).map name).Nodup) (i : Nat) :
    appended name check items (c :: channels) =
      c :: appended name check (items ++ [newItem stale check i c]) channels := by
  cases check with
  | zvmChannels => rfl
  | emuChannels =>
      have hfresh := hnew rfl
      have hdistinct := (List.nodup_cons.mp (hnodup rfl)).1
      rw [appended, List.filter_cons_of_pos (by simpa using hfresh), appended]
      apply congrArg (c :: ·)
      apply List.filter_congr
      intro d hd
      have hne : name d ≠ name c := by
        intro heq
        apply hdistinct
        rw [← heq]
        exact List.mem_map_of_mem hd
      simp [names, newItem, hne]

private theorem addChannels_items (name : χ → Text) (stale : Nat → Int) (check : ChannelsCheck) (channels : List χ)
    (hnodup : check = .emuChannels → (channels.map name).Nodup) (a : ChannelsArray χ)
    (items : List (ChannelArrayItem χ)) (ha : a.entries = items.map some)
    (hroom : items.length + channels.length ≤ a.space) :
    ∃ a', addChannels name stale check channels a = some a' ∧ a'.space = a.space ∧
      a'.entries = (items ++ numbered stale check items.length
        (appended name check items channels)).map some := by
  induction channels generalizing a items with
  | nil =>
      refine ⟨a, rfl, rfl, ?_⟩
      cases check <;> simpa [appended, numbered] using ha
  | cons c cs ih =>
      have hcs : check = .emuChannels → (cs.map name).Nodup :=
        fun h => (List.nodup_cons.mp (hnodup h)).2
      rw [List.length_cons] at hroom
      rw [addChannels, matchByName_items ha]
      by_cases hskip : check = .emuChannels ∧ name c ∈ names name items
      · obtain ⟨rfl, hmem⟩ := hskip
        obtain ⟨item, hitem⟩ := find_name_isSome hmem
        rw [if_pos rfl, hitem, appended_matched hmem]
        exact ih hcs a items ha (by omega)
      · have hnew : check = .emuChannels → name c ∉ names name items :=
          fun h hmem => hskip ⟨h, hmem⟩
        have hmatched : (if check = .emuChannels then
            some (items.find? fun item => name item.channel = name c) else some none) =
            some none := by
          split
          · rename_i hemu
            rw [find_name_eq_none (hnew hemu)]
          · rfl
        have hcount : a.numEntries = items.length := by
          rw [DynArray.numEntries, ha, List.length_map]
        obtain ⟨a₁, hset, hentries, hspace⟩ := dynArraySet_numEntries a
          (some (newItem stale check a.numEntries c)) (by omega)
        rw [hmatched]
        simp only [hset, Option.getD_some]
        have ha₁ : a₁.entries = (items ++ [newItem stale check items.length c]).map some := by
          rw [hentries, ha, hcount, List.map_append]
          rfl
        have hroom₁ : (items ++ [newItem stale check items.length c]).length + cs.length ≤
            a₁.space := by
          rw [hspace, List.length_append, List.length_singleton]
          omega
        obtain ⟨a', hadd, hspace', hentries'⟩ := ih hcs a₁ _ ha₁ hroom₁
        refine ⟨a', hadd, hspace'.trans hspace, ?_⟩
        rw [hentries', appended_cons hnew hnodup items.length, numbered_cons, List.append_assoc,
          List.length_append]
        rfl

/-! ## The whole array -/

/-- What the construction is for: the channels of the manifest in order, then the emulated ones that
it does not replace. -/
structure Constructed (name : χ → Text) (zvmChannels emuChannels : List χ)
    (a : ChannelsArray χ) : Prop where
  channels : a.entries.map (Option.map ChannelArrayItem.channel) =
    (zvmChannels ++ emuChannels.filter fun c => name c ∉ zvmChannels.map name).map some
  names_nodup : (a.entries.map (Option.map fun item => name item.channel)).Nodup
  prefers : ∀ c ∈ zvmChannels, ∃ item,
    channelsArrayMatchByName name a (name c) = some (some item) ∧ item.channel = c
  inodes : ∀ i item, dynArrayGet a i = some item → item.inode = inodeFromZvmInode i

variable {zvmChannels emuChannels : List χ}

theorem names_numbered : names name (numbered stale check start channels) = channels.map name := by
  have hmap := congrArg (List.map name) (numbered_channels stale check start channels)
  rw [List.map_map] at hmap
  exact hmap

/-- The items that the two loops leave. -/
def allItems (name : χ → Text) (stale : Nat → Int) (zvmChannels emuChannels : List χ) :
    List (ChannelArrayItem χ) :=
  numbered stale .zvmChannels 0 zvmChannels ++ numbered stale .emuChannels zvmChannels.length
    (emuChannels.filter fun c => name c ∉ zvmChannels.map name)

private theorem length_allItems : (allItems name stale zvmChannels emuChannels).length =
    zvmChannels.length + (emuChannels.filter fun c => name c ∉ zvmChannels.map name).length := by
  rw [allItems, List.length_append, length_numbered, length_numbered]

private theorem allItems_channels (name : χ → Text) (stale : Nat → Int) (zvmChannels emuChannels : List χ) :
    (allItems name stale zvmChannels emuChannels).map ChannelArrayItem.channel =
      zvmChannels ++ emuChannels.filter fun c => name c ∉ zvmChannels.map name := by
  rw [allItems, List.map_append, numbered_channels, numbered_channels]

private theorem construct_items (name : χ → Text) (stale : Nat → Int) (hemu : (emuChannels.map name).Nodup)
    (hfits : zvmChannels.length + emuChannels.length ≤ sizeMax / pointerSize) :
    ∃ a, a.entries = (allItems name stale zvmChannels emuChannels).map some ∧
      channelsArrayConstruct name stale zvmChannels emuChannels =
        if a.numEntries = zvmChannels.length + emuChannels.length then some a else none := by
  obtain ⟨a₀, hctor, hentries₀, hspace₀⟩ :=
    dynArrayCtor_of_le (α := ChannelArrayItem χ) hfits
  obtain ⟨a₁, hadd₁, hspace₁, hentries₁⟩ := addChannels_items name stale
    .zvmChannels zvmChannels (by intro h; cases h) a₀ [] hentries₀ (by simp; omega)
  rw [appended, List.nil_append, List.length_nil] at hentries₁
  obtain ⟨a₂, hadd₂, -, hentries₂⟩ := addChannels_items name stale
    .emuChannels emuChannels (fun _ => hemu) a₁ _ hentries₁ (by rw [length_numbered]; omega)
  rw [appended, names_numbered, length_numbered] at hentries₂
  refine ⟨a₂, hentries₂, ?_⟩
  simp only [channelsArrayConstruct, hctor, hadd₁, hadd₂, Option.bind_eq_bind, Option.bind_some]

private theorem allItems_names_nodup (stale : Nat → Int) (hzvm : (zvmChannels.map name).Nodup)
    (hemu : (emuChannels.map name).Nodup) :
    (names name (allItems name stale zvmChannels emuChannels)).Nodup := by
  have hnames : names name (allItems name stale zvmChannels emuChannels) = zvmChannels.map name ++
      (emuChannels.filter fun c => name c ∉ zvmChannels.map name).map name := by
    rw [allItems, names, List.map_append]
    exact congrArg₂ _ names_numbered names_numbered
  rw [hnames]
  apply List.Nodup.append hzvm
  · exact hemu.sublist (List.filter_sublist.map name)
  · intro n hn hmem
    obtain ⟨c, hc, rfl⟩ := List.mem_map.mp hmem
    exact of_decide_eq_true (List.mem_filter.mp hc).2 hn

private theorem allItems_inode {i : Nat} {item : ChannelArrayItem χ}
    (h : (allItems name stale zvmChannels emuChannels)[i]? = some item) :
    item.inode = inodeFromZvmInode i := by
  rw [allItems, List.getElem?_append] at h
  split at h
  · rw [numbered_inode h, Nat.zero_add]
  · rename_i hge
    rw [length_numbered] at h hge
    rw [numbered_inode h]
    exact congrArg inodeFromZvmInode (by omega)

private theorem constructed_allItems (hzvm : (zvmChannels.map name).Nodup)
    (hemu : (emuChannels.map name).Nodup)
    (ha : a.entries = (allItems name stale zvmChannels emuChannels).map some) :
    Constructed name zvmChannels emuChannels a where
  channels := by
    rw [ha, List.map_map, ← allItems_channels name stale, List.map_map]
    rfl
  names_nodup := by
    have hnodup := allItems_names_nodup stale hzvm hemu
    rw [ha, List.map_map]
    have hmap := hnodup.map fun m n (h : some m = some n) => Option.some.inj h
    rw [names, List.map_map] at hmap
    exact hmap
  prefers := by
    intro c hc
    have hchannels := allItems_channels name stale zvmChannels emuChannels
    have hmem : c ∈ (allItems name stale zvmChannels emuChannels).map ChannelArrayItem.channel := by
      rw [hchannels]
      exact List.mem_append_left _ hc
    obtain ⟨item₀, hitem₀, rfl⟩ := List.mem_map.mp hmem
    have hnames : name item₀.channel ∈ names name (allItems name stale zvmChannels emuChannels) :=
      List.mem_map_of_mem hitem₀
    obtain ⟨item, hitem⟩ := find_name_isSome hnames
    refine ⟨item, by rw [matchByName_items ha, hitem], ?_⟩
    have hname : name item.channel = name item₀.channel := by
      simpa using List.find?_some hitem
    have hsame := List.inj_on_of_nodup_map (allItems_names_nodup stale hzvm hemu)
      (List.mem_of_find?_eq_some hitem) hitem₀ hname
    rw [hsame]
  inodes := by
    intro i item hget
    rw [dynArrayGet_items ha] at hget
    exact allItems_inode hget

/-- The construction meets its purpose exactly when the manifest has no emulated channel. -/
theorem channelsArrayConstruct_iff (name : χ → Text) (stale : Nat → Int)
    (zvmChannels emuChannels : List χ) (hzvm : (zvmChannels.map name).Nodup)
    (hemu : (emuChannels.map name).Nodup) :
    (∃ a, channelsArrayConstruct name stale zvmChannels emuChannels = some a ∧
      Constructed name zvmChannels emuChannels a) ↔
      (∀ c ∈ emuChannels, name c ∉ zvmChannels.map name) ∧
        zvmChannels.length + emuChannels.length ≤ sizeMax / pointerSize := by
  by_cases hfits : zvmChannels.length + emuChannels.length ≤ sizeMax / pointerSize
  · obtain ⟨a, ha, hconstruct⟩ := construct_items name stale hemu hfits
    have hcount : a.numEntries = zvmChannels.length + emuChannels.length ↔
        ∀ c ∈ emuChannels, name c ∉ zvmChannels.map name := by
      rw [DynArray.numEntries, ha, List.length_map, length_allItems, Nat.add_left_cancel_iff,
        List.length_filter_eq_length_iff]
      simp only [decide_eq_true_eq]
    constructor
    · rintro ⟨a', ha', -⟩
      rw [hconstruct] at ha'
      split at ha'
      · rename_i hall
        exact ⟨hcount.mp hall, hfits⟩
      · cases ha'
    · intro h
      refine ⟨a, ?_, constructed_allItems hzvm hemu ha⟩
      rw [hconstruct, if_pos (hcount.mpr h.1)]
  · constructor
    · rintro ⟨a, ha, -⟩
      rw [channelsArrayConstruct, dynArrayCtor_of_gt (Nat.lt_of_not_le hfits)] at ha
      cases ha
    · intro h
      exact absurd h.2 hfits

/-- A manifest without the emulated channel. -/
theorem channelsArrayConstruct_iff_apart :
    ∃ a, channelsArrayConstruct String.toList (fun _ => 0) ["/dev/stdin"] ["/dev/null"] = some a ∧
      Constructed String.toList ["/dev/stdin"] ["/dev/null"] a :=
  (channelsArrayConstruct_iff String.toList (fun _ => 0) ["/dev/stdin"] ["/dev/null"]
    (by decide) (by decide)).mpr ⟨by decide, by decide⟩

/-- A manifest that replaces the emulated channel fails the assertion. -/
theorem channelsArrayConstruct_overlap :
    (channelsArrayConstruct String.toList (fun _ => 0) ["/dev/null"] ["/dev/null"]).isNone = true := by
  decide +kernel

end Zrt.Fs
