import Mathlib.Data.List.ReduceOption
import Mathlib.Data.List.Sort
import Zrt.Fs.ChannelsArray
import Zrt.Framework.Runs

/-!
# The configuration of a cluster

Every node keeps its channels to other nodes in a dynamic array. A channel is added at the end; asking
for the nodes of a type sorts the array, so that the channels do not stay where they were added. `none`
stands for a failed assertion or a null pointer. Allocation succeeds.
-/

namespace Zrt.Networking

open Fs Framework

inductive ChannelMode
  | read
  | write
deriving DecidableEq, Repr

/-- The types of the fields are narrower than those of the parameters they are set from. -/
structure UserChannel where
  nodetype : UInt8
  nodeid : UInt16
  fd : UInt16
  mode : ChannelMode
deriving DecidableEq

/-- The array is allocated with the first channel. -/
abbrev ChannelsConfig := Option (DynArray UserChannel)

def newChannel (nodetype nodeid channelfd : Int) (mode : ChannelMode) : UserChannel :=
  ⟨.ofInt nodetype, .ofInt nodeid, .ofInt channelfd, mode⟩

def addChannel (channels : ChannelsConfig) (nodetype nodeid channelfd : Int) (mode : ChannelMode) :
    Option (DynArray UserChannel) :=
  let array := match channels with
    | none => dynArrayCtor UserChannel 10
    | some a => some a
  array.bind fun a =>
    dynArraySet a a.numEntries (some (newChannel nodetype nodeid channelfd mode))

def cmpByNodeTypeAndId (c1 c2 : UserChannel) : Int :=
  if c1.nodetype < c2.nodetype then -1
  else if c2.nodetype < c1.nodetype then 1
  else if c1.nodeid < c2.nodeid then -1
  else if c2.nodeid < c1.nodeid then 1
  else 0

/-- A `qsort` by the comparison. What it does with equal channels is not fixed. -/
structure Qsort where
  sort : List UserChannel → List UserChannel
  perm : ∀ l, (sort l).Perm l
  sorted : ∀ l, (sort l).Pairwise fun c1 c2 => cmpByNodeTypeAndId c1 c2 ≤ 0

theorem cmpByNodeTypeAndId_nonpos (c1 c2 : UserChannel) :
    cmpByNodeTypeAndId c1 c2 ≤ 0 ↔ c1.nodetype.toNat < c2.nodetype.toNat ∨
      c1.nodetype.toNat = c2.nodetype.toNat ∧ c1.nodeid.toNat ≤ c2.nodeid.toNat := by
  simp only [cmpByNodeTypeAndId, UInt8.lt_iff_toNat_lt, UInt16.lt_iff_toNat_lt]
  split_ifs
  all_goals omega

/-- One sort that may be used. -/
def insertionQsort : Qsort where
  sort := List.insertionSort fun c1 c2 => cmpByNodeTypeAndId c1 c2 ≤ 0
  perm := List.perm_insertionSort _
  sorted l := by
    have htotal : Std.Total fun c1 c2 : UserChannel => cmpByNodeTypeAndId c1 c2 ≤ 0 := by
      constructor
      intro c1 c2
      simp only [cmpByNodeTypeAndId_nonpos]
      omega
    have htrans : IsTrans UserChannel fun c1 c2 => cmpByNodeTypeAndId c1 c2 ≤ 0 := by
      constructor
      intro c1 c2 c3
      simp only [cmpByNodeTypeAndId_nonpos]
      omega
    exact List.pairwise_insertionSort _ l

/-- The parameters are compared as `int`. -/
def UserChannel.Matches (ch : UserChannel) (nodetype : Int) (mode : ChannelMode) : Prop :=
  (ch.nodetype.toNat : Int) = nodetype ∧ ch.mode = mode

instance (ch : UserChannel) (nodetype : Int) (mode : ChannelMode) :
    Decidable (ch.Matches nodetype mode) :=
  inferInstanceAs (Decidable (_ ∧ _))

/-- The direction with more nodes, the written one when there are as many. -/
def listedMode (items : List UserChannel) (nodetype : Int) : ChannelMode :=
  let countRchan := items.countP fun ch => ch.Matches nodetype .read
  let countWchan := items.countP fun ch => ch.Matches nodetype .write
  if countWchan < countRchan then .read else .write

/-- The array after its pointers were sorted. -/
def sortEntries (q : Qsort) (a : DynArray UserChannel) (items : List UserChannel)
    (h : a.entries = items.map some) : DynArray UserChannel where
  entries := (q.sort items).map some
  space := a.space
  space_pos := a.space_pos
  fits := by
    have hfits := a.fits
    rw [h, List.length_map] at hfits
    rw [List.length_map, (q.perm items).length_eq]
    exact hfits

/-- The pointers of the array, none of which may be null. -/
def pointers (a : DynArray UserChannel) :
    Option { items : List UserChannel // a.entries = items.map some } :=
  if h : a.entries = a.entries.reduceOption.map some then some ⟨_, h⟩ else none

/-- The ids of the nodes and the array, sorted. -/
def getNodesListByType (q : Qsort) (channels : ChannelsConfig) (nodetype : Int) :
    Option (List Int × DynArray UserChannel) := do
  let a ← channels
  let ⟨items, h⟩ ← pointers a
  let mode := listedMode items nodetype
  let sorted := sortEntries q a items h
  return (((q.sort items).filter fun ch => ch.Matches nodetype mode).map fun ch => ch.nodeid.toNat,
    sorted)

/-- A channel found is returned; null pointers are passed over. -/
def channel (a : DynArray UserChannel) (nodetype nodeid : Int) (channelmode : ChannelMode) :
    Option UserChannel :=
  a.entries.findSome? fun ch => ch.filter fun ch =>
    ch.Matches nodetype channelmode ∧ (ch.nodeid.toNat : Int) = nodeid

/-- What is done to a configuration while it is built and used. -/
inductive ConfCall
  | add (nodetype nodeid channelfd : Int) (mode : ChannelMode)
  | nodesList (nodetype : Int)

def ConfCall.step (q : Qsort) (channels : ChannelsConfig) : ConfCall → Option ChannelsConfig
  | .add nodetype nodeid channelfd mode =>
      (addChannel channels nodetype nodeid channelfd mode).map some
  | .nodesList nodetype => (getNodesListByType q channels nodetype).map fun r => some r.2

/-- The channels that calls add. -/
def added (calls : List ConfCall) : List UserChannel :=
  calls.filterMap fun
    | .add nodetype nodeid channelfd mode => some (newChannel nodetype nodeid channelfd mode)
    | .nodesList _ => none

/-! ## What the array holds -/

/-- The array holds the channels in some order. -/
def Holds (a : DynArray UserChannel) (chs : List UserChannel) : Prop :=
  ∃ items : List UserChannel, a.entries = items.map some ∧ items.Perm chs

def ConfigHolds (channels : ChannelsConfig) (chs : List UserChannel) : Prop :=
  match channels with
  | none => chs = []
  | some a => Holds a chs

variable {q : Qsort} {a a' : DynArray UserChannel} {channels : ChannelsConfig}
  {chs : List UserChannel} {items : List UserChannel}

private theorem dynArraySet_entries {α : Type} {a a' : DynArray α} {ptr : Option α}
    (h : dynArraySet a a.numEntries ptr = some a') : a'.entries = a.entries ++ [ptr] := by
  unfold dynArraySet at h
  split at h
  · cases h
  · rw [Option.some.injEq] at h
    rw [← h]
    exact setSlot_length _ _

theorem pointers_of_items (h : a.entries = items.map some) : pointers a = some ⟨items, h⟩ := by
  have hitems : a.entries.reduceOption = items := by
    rw [h]
    simp [List.reduceOption]
  have heq : a.entries = a.entries.reduceOption.map some := by rw [hitems, h]
  rw [pointers, dif_pos heq]
  congr 1
  exact Subtype.ext hitems

theorem addChannel_holds {nodetype nodeid channelfd : Int} {mode : ChannelMode}
    (hold : ConfigHolds channels chs)
    (h : addChannel channels nodetype nodeid channelfd mode = some a) :
    Holds a (chs ++ [newChannel nodetype nodeid channelfd mode]) := by
  obtain ⟨before, hbefore, hset⟩ := Option.bind_eq_some_iff.mp h
  have hentries := dynArraySet_entries hset
  cases channels with
  | none =>
      have hempty : chs = [] := hold
      subst chs
      obtain ⟨b, hb, hnil, -⟩ := dynArrayCtor_of_le (α := UserChannel) (n := 10) (by decide)
      simp only [hb, Option.some.injEq] at hbefore
      subst before
      exact ⟨[newChannel nodetype nodeid channelfd mode], by rw [hentries, hnil]; rfl,
        List.Perm.refl _⟩
  | some b =>
      rw [Option.some.injEq] at hbefore
      subst before
      obtain ⟨items, hitems, hperm⟩ := hold
      exact ⟨items ++ [newChannel nodetype nodeid channelfd mode], by simp [hentries, hitems],
        hperm.append_right _⟩

theorem getNodesListByType_eq (nodetype : Int) (h : a.entries = items.map some) :
    getNodesListByType q (some a) nodetype =
      some (((q.sort items).filter fun ch =>
          ch.Matches nodetype (listedMode items nodetype)).map fun ch => (ch.nodeid.toNat : Int),
        sortEntries q a items h) := by
  simp only [getNodesListByType, Option.bind_eq_bind, Option.bind_some, pointers_of_items h]
  rfl

private theorem getNodesListByType_holds {nodetype : Int} {nodes : List Int}
    (hold : ConfigHolds channels chs)
    (h : getNodesListByType q channels nodetype = some (nodes, a)) : Holds a chs := by
  cases channels with
  | none => cases h
  | some b =>
      obtain ⟨items, hitems, hperm⟩ := hold
      rw [getNodesListByType_eq nodetype hitems, Option.some.injEq, Prod.mk.injEq] at h
      rw [← h.2]
      exact ⟨q.sort items, rfl, (q.perm items).trans hperm⟩

theorem step_holds {call : ConfCall} {channels' : ChannelsConfig}
    (hold : ConfigHolds channels chs) (h : call.step q channels = some channels') :
    ConfigHolds channels' (chs ++ added [call]) := by
  cases call with
  | add nodetype nodeid channelfd mode =>
      obtain ⟨a, ha, rfl⟩ := Option.map_eq_some_iff.mp h
      exact addChannel_holds hold ha
  | nodesList nodetype =>
      obtain ⟨r, hr, rfl⟩ := Option.map_eq_some_iff.mp h
      have hsame : chs ++ added [.nodesList nodetype] = chs := List.append_nil chs
      rw [hsame]
      exact getNodesListByType_holds hold hr

private theorem added_cons (call : ConfCall) (calls : List ConfCall) :
    added (call :: calls) = added [call] ++ added calls := by
  rw [← List.singleton_append, added, List.filterMap_append]
  rfl

private theorem run_holds (calls : List ConfCall) (channels channels' : ChannelsConfig)
    (hold : ConfigHolds channels chs)
    (hrun : runFrom (fun c call => call.step q c) channels calls = some channels') :
    ConfigHolds channels' (chs ++ added calls) := by
  induction calls generalizing channels chs with
  | nil =>
      simp only [runFrom, Option.some.injEq] at hrun
      simpa [added, hrun] using hold
  | cons call calls ih =>
      obtain ⟨next, hnext, hrest⟩ := runFrom_cons hrun
      have hall := ih next (step_holds hold hnext) hrest
      rwa [List.append_assoc, ← added_cons] at hall

/-! ## When calls complete -/

private theorem desiredSpace_isSome {idx space : Nat} {h : 0 < space} (hidx : idx < 2 ^ 31) :
    (desiredSpace idx space h).isSome := by
  induction space, h using desiredSpace.induct idx with
  | case1 space h hlt => rw [desiredSpace_of_lt hlt]; rfl
  | case2 space h hge htmp =>
      exfalso
      have hfits : 2 * space < sizeMax + 1 := by
        simp only [sizeMax]
        omega
      rw [Nat.mod_eq_of_lt hfits] at htmp
      omega
  | case3 space h hge htmp ih =>
      rw [desiredSpace, dif_neg hge, dif_neg htmp]
      exact ih

private theorem dynArraySet_isSome {α : Type} (a : DynArray α) {idx : Nat} (ptr : Option α)
    (hidx : idx < 2 ^ 31) : ∃ a', dynArraySet a idx ptr = some a' := by
  have hspace := desiredSpace_isSome (h := a.space_pos) hidx
  unfold dynArraySet
  split
  · rename_i hnone
    rw [hnone] at hspace
    cases hspace
  · exact ⟨_, rfl⟩

private theorem Holds.numEntries (hold : Holds a chs) : a.numEntries = chs.length := by
  obtain ⟨items, hitems, hperm⟩ := hold
  rw [DynArray.numEntries, hitems, List.length_map, hperm.length_eq]

theorem addChannel_completes (hold : ConfigHolds channels chs) (hlen : chs.length < 2 ^ 31)
    (nodetype nodeid channelfd : Int) (mode : ChannelMode) :
    ∃ a, addChannel channels nodetype nodeid channelfd mode = some a := by
  cases channels with
  | none =>
      obtain ⟨b, hb, hnil, -⟩ := dynArrayCtor_of_le (α := UserChannel) (n := 10) (by decide)
      have hzero : b.numEntries < 2 ^ 31 := by
        rw [DynArray.numEntries, hnil]
        decide
      obtain ⟨a, ha⟩ := dynArraySet_isSome b (some (newChannel nodetype nodeid channelfd mode)) hzero
      exact ⟨a, by rw [addChannel, hb, Option.bind_some, ha]⟩
  | some b =>
      have hcount : b.numEntries < 2 ^ 31 := hold.numEntries ▸ hlen
      exact dynArraySet_isSome b _ hcount

private theorem step_completes (hold : Holds a chs) (hlen : chs.length < 2 ^ 31) (call : ConfCall) :
    ∃ a', call.step q (some a) = some (some a') := by
  cases call with
  | add nodetype nodeid channelfd mode =>
      have hconf : ConfigHolds (some a) chs := hold
      obtain ⟨a', ha'⟩ := addChannel_completes hconf hlen nodetype nodeid channelfd mode
      exact ⟨a', by rw [ConfCall.step, ha', Option.map_some]⟩
  | nodesList nodetype =>
      obtain ⟨items, hitems, -⟩ := hold
      exact ⟨_, by rw [ConfCall.step, getNodesListByType_eq nodetype hitems, Option.map_some]⟩

private theorem run_completes (calls : List ConfCall) (a : DynArray UserChannel) (hold : Holds a chs)
    (hlen : chs.length + calls.length ≤ 2 ^ 31) :
    ∃ a', runFrom (fun c call => call.step q c) (some a) calls = some (some a') := by
  induction calls generalizing a chs with
  | nil => exact ⟨a, rfl⟩
  | cons call calls ih =>
      rw [List.length_cons] at hlen
      obtain ⟨next, hnext⟩ := step_completes (q := q) hold (by omega) call
      have hconf : ConfigHolds (some a) chs := hold
      have hthere : Holds next (chs ++ added [call]) := step_holds hconf hnext
      have hone : (added [call]).length ≤ 1 := List.length_filterMap_le _ _
      obtain ⟨a', ha'⟩ := ih next hthere (by rw [List.length_append]; omega)
      exact ⟨a', by rw [runFrom, hnext, Option.bind_some, ha']⟩

theorem run_completes_start (q : Qsort) (nodetype nodeid channelfd : Int) (mode : ChannelMode)
    (calls : List ConfCall) (hlen : calls.length < 2 ^ 31) :
    ∃ a, runFrom (fun c call => call.step q c) none
      (.add nodetype nodeid channelfd mode :: calls) = some (some a) := by
  have hnone : ConfigHolds none [] := rfl
  obtain ⟨first, hfirst⟩ := addChannel_completes hnone (by decide) nodetype nodeid channelfd mode
  obtain ⟨a, ha⟩ := run_completes (q := q) calls first (addChannel_holds hnone hfirst) (by
    simp only [List.nil_append, List.length_singleton]
    omega)
  exact ⟨a, by rw [runFrom, ConfCall.step, hfirst, Option.map_some, Option.bind_some, ha]⟩

/-! ## What is found in it -/

/-- The channel that `Channel` is asked for. -/
def UserChannel.Is (ch : UserChannel) (nodetype nodeid : Int) (mode : ChannelMode) : Prop :=
  ch.Matches nodetype mode ∧ (ch.nodeid.toNat : Int) = nodeid

instance (ch : UserChannel) (nodetype nodeid : Int) (mode : ChannelMode) :
    Decidable (ch.Is nodetype nodeid mode) :=
  inferInstanceAs (Decidable (_ ∧ _))

private theorem channel_items (h : a.entries = items.map some) (nodetype nodeid : Int)
    (mode : ChannelMode) :
    channel a nodetype nodeid mode = items.find? fun ch => ch.Is nodetype nodeid mode := by
  rw [channel, h, List.findSome?_map, List.find?_eq_findSome?_guard]
  rfl

theorem Holds.found (hold : Holds a chs) (nodetype nodeid : Int) (mode : ChannelMode) :
    (∀ ch, channel a nodetype nodeid mode = some ch → ch ∈ chs ∧ ch.Is nodetype nodeid mode) ∧
      ∀ ch ∈ chs, ch.Is nodetype nodeid mode →
        ∃ found, channel a nodetype nodeid mode = some found := by
  obtain ⟨items, hitems, hperm⟩ := hold
  rw [channel_items hitems]
  constructor
  · intro ch hch
    have his := List.find?_some hch
    exact ⟨hperm.mem_iff.mp (List.mem_of_find?_eq_some hch), by simpa using his⟩
  · intro ch hmem his
    apply Option.isSome_iff_exists.mp
    apply List.find?_isSome.mpr
    exact ⟨ch, hperm.mem_iff.mpr hmem, decide_eq_true his⟩

theorem run_holds_start (calls : List ConfCall)
    (hrun : runFrom (fun c call => call.step q c) none calls = some (some a)) :
    Holds a (added calls) := by
  have hold : ConfigHolds none [] := rfl
  exact run_holds calls none (some a) hold hrun

/-- However often the array was sorted, `Channel` finds a channel exactly if one was added with this
type, id and direction, and the one that was added where there is no other. -/
theorem run_channel (q : Qsort) (calls : List ConfCall) (a : DynArray UserChannel)
    (hrun : runFrom (fun c call => call.step q c) none calls = some (some a))
    (nodetype nodeid : Int) (mode : ChannelMode) :
    (channel a nodetype nodeid mode = none ↔
        ∀ ch ∈ added calls, ¬ ch.Is nodetype nodeid mode) ∧
      (∀ ch, channel a nodetype nodeid mode = some ch →
        ch ∈ added calls ∧ ch.Is nodetype nodeid mode) ∧
      ∀ ch ∈ added calls, ch.Is nodetype nodeid mode →
        (∀ other ∈ added calls, other.Is nodetype nodeid mode → other = ch) →
        channel a nodetype nodeid mode = some ch := by
  obtain ⟨hsound, hcomplete⟩ := (run_holds_start calls hrun).found nodetype nodeid mode
  refine ⟨⟨?_, ?_⟩, hsound, ?_⟩
  · intro hnone ch hch his
    obtain ⟨found, hfound⟩ := hcomplete ch hch his
    rw [hnone] at hfound
    cases hfound
  · intro hall
    cases hfound : channel a nodetype nodeid mode with
    | none => rfl
    | some ch =>
        obtain ⟨hch, his⟩ := hsound ch hfound
        exact absurd his (hall ch hch)
  · intro ch hch his honly
    obtain ⟨found, hfound⟩ := hcomplete ch hch his
    obtain ⟨hmem, hfoundIs⟩ := hsound found hfound
    rw [hfound, honly found hmem hfoundIs]

theorem run_channel_sortedBetween :
    ∃ a, channel a 1 2 .read = some ⟨1, 2, 5, .read⟩ := by
  obtain ⟨a, ha⟩ := run_completes_start insertionQsort 1 2 5 .read
    [.nodesList 1, .add 1 1 6 .read] (by decide)
  exact ⟨a, (run_channel insertionQsort _ a ha 1 2 .read).2.2 ⟨1, 2, 5, .read⟩
    (by decide) (by decide) (by decide)⟩

/-! ## The nodes of a type -/

theorem listedMode_perm {items items' : List UserChannel} (h : items.Perm items') (nodetype : Int) :
    listedMode items nodetype = listedMode items' nodetype := by
  simp only [listedMode, h.countP_eq]

private theorem countP_listedMode (items : List UserChannel) (nodetype : Int) :
    items.countP (fun ch => ch.Matches nodetype (listedMode items nodetype)) =
      max (items.countP fun ch => ch.Matches nodetype .read)
        (items.countP fun ch => ch.Matches nodetype .write) := by
  by_cases h : (items.countP fun ch => ch.Matches nodetype .write) <
      items.countP fun ch => ch.Matches nodetype .read
  · rw [show listedMode items nodetype = .read from if_pos h, Nat.max_eq_left (Nat.le_of_lt h)]
  · rw [show listedMode items nodetype = .write from if_neg h, Nat.max_eq_right (Nat.not_lt.mp h)]

private theorem nodeid_le_of_cmp {c1 c2 : UserChannel} (htype : c1.nodetype = c2.nodetype)
    (h : cmpByNodeTypeAndId c1 c2 ≤ 0) : c1.nodeid.toNat ≤ c2.nodeid.toNat := by
  have hcmp := (cmpByNodeTypeAndId_nonpos c1 c2).mp h
  rw [htype] at hcmp
  omega

private theorem UserChannel.Matches.type_eq {c1 c2 : UserChannel} {nodetype : Int} {mode mode' : ChannelMode}
    (h1 : c1.Matches nodetype mode) (h2 : c2.Matches nodetype mode') :
    c1.nodetype = c2.nodetype := by
  apply UInt8.toNat_inj.mp
  have heq := h1.1.trans h2.1.symm
  exact Int.ofNat.inj heq

/-- The ids of the channels of one type and direction. -/
def nodeids (chs : List UserChannel) (nodetype : Int) (mode : ChannelMode) : List Int :=
  (chs.filter fun ch => ch.Matches nodetype mode).map fun ch => (ch.nodeid.toNat : Int)

theorem nodeids_perm {chs chs' : List UserChannel} (h : chs.Perm chs') (nodetype : Int)
    (mode : ChannelMode) : (nodeids chs nodetype mode).Perm (nodeids chs' nodetype mode) :=
  (h.filter _).map _

theorem nodeids_sort (q : Qsort) (chs : List UserChannel) (nodetype : Int) (mode : ChannelMode) :
    (nodeids (q.sort chs) nodetype mode).Pairwise (· ≤ ·) := by
  have hfilter := (q.sorted chs).filter fun ch => ch.Matches nodetype mode
  rw [nodeids, List.pairwise_map]
  refine hfilter.imp_of_mem fun {c1 c2} h1 h2 hcmp => ?_
  have hm1 : c1.Matches nodetype mode := by simpa using (List.mem_filter.mp h1).2
  have hm2 : c2.Matches nodetype mode := by simpa using (List.mem_filter.mp h2).2
  exact Int.ofNat_le.mpr (nodeid_le_of_cmp (hm1.type_eq hm2) hcmp)

/-- After any calls the nodes of a type are listed in ascending order, each as often as a channel was
added for it in the direction that has more of them, and each of them has such a channel. The list
fills its memory exactly. -/
theorem run_nodesList (q : Qsort) (calls : List ConfCall) (a : DynArray UserChannel)
    (hrun : runFrom (fun c call => call.step q c) none calls = some (some a)) (nodetype : Int) :
    ∃ nodes a', getNodesListByType q (some a) nodetype = some (nodes, a') ∧
      nodes.Pairwise (· ≤ ·) ∧
      nodes.Perm (nodeids (added calls) nodetype (listedMode (added calls) nodetype)) ∧
      nodes.length = max ((added calls).countP fun ch => ch.Matches nodetype .read)
        ((added calls).countP fun ch => ch.Matches nodetype .write) ∧
      ∀ id ∈ nodes, ∃ ch,
        channel a' nodetype id (listedMode (added calls) nodetype) = some ch := by
  obtain ⟨items, hitems, hperm⟩ := run_holds_start calls hrun
  have hmode := listedMode_perm hperm nodetype
  have hsorted : (q.sort items).Perm (added calls) := (q.perm items).trans hperm
  have hids := nodeids_perm hsorted nodetype (listedMode (added calls) nodetype)
  have hheld : Holds (sortEntries q a items hitems) (added calls) := ⟨q.sort items, rfl, hsorted⟩
  refine ⟨_, _, getNodesListByType_eq nodetype hitems, nodeids_sort q items nodetype _, ?_, ?_, ?_⟩
  · rw [hmode]
    exact hids
  · rw [hmode, List.length_map, ← List.countP_eq_length_filter, hsorted.countP_eq,
      countP_listedMode]
  · rw [hmode]
    intro id hid
    obtain ⟨ch, hch, rfl⟩ := List.mem_map.mp hid
    obtain ⟨hmem, hmatch⟩ := List.mem_filter.mp hch
    exact (hheld.found nodetype _ _).2 ch (hsorted.mem_iff.mp hmem)
      ⟨by simpa using hmatch, rfl⟩

theorem run_nodesList_twoNodes :
    ∃ a nodes a', getNodesListByType insertionQsort (some a) 1 = some (nodes, a') ∧
      nodes.Perm [2, 1] ∧ nodes.Pairwise (· ≤ ·) := by
  obtain ⟨a, ha⟩ := run_completes_start insertionQsort 1 2 5 .read [.add 1 1 6 .read] (by decide)
  obtain ⟨nodes, a', hnodes, hsorted, hperm, -⟩ := run_nodesList insertionQsort _ a ha 1
  exact ⟨a, nodes, a', hnodes, hperm, hsorted⟩

end Zrt.Networking
