import Mathlib.Data.List.TakeWhile
import Zrt.MapReduce.EachToOther
import Zrt.Networking.ChannelsConf
import Zrt.Unpack.TarHeader

/-!
# A cluster read from directories

The channels to the nodes of a type are files whose name is the name of the type, a minus sign and the
id of the node. Reading a directory opens those files and adds their channels. The pattern that mappers
run over the channels so found is the one over the nodes.
-/

namespace Zrt.Networking

open Fs Framework Unpack

/-! ## Names of nodes -/

/-- A number outside the range of `int` is not cut, what C makes of it is not defined. -/
def atoi (s : Text) : Int :=
  match s.dropWhile isSpace with
  | '-' :: rest => -(Nat.ofDigitChars 10 (rest.takeWhile Char.isDigit) 0 : Int)
  | '+' :: rest => Nat.ofDigitChars 10 (rest.takeWhile Char.isDigit) 0
  | rest => Nat.ofDigitChars 10 (rest.takeWhile Char.isDigit) 0

/-- The length of the name of the type, and the id. -/
def extractNodeNameId (nameall : Text) : Nat × Int :=
  match locateLastOccurence nameall '-' nameall.length with
  | some s => (s, if s + 1 < nameall.length then atoi (nameall.drop (s + 1)) else -1)
  | none => (nameall.length, -1)

/-- Whether a file is a channel to a node of the type. -/
def related (nodename name : Text) : Bool :=
  (extractNodeNameId name).1 = nodename.length ∧ name.take (extractNodeNameId name).1 = nodename

/-- A single node needs no id. -/
def relatedId (name : Text) : Int :=
  if (extractNodeNameId name).2 = -1 then 1 else (extractNodeNameId name).2

/-- What `snprintf` leaves in `s_temp_path`. -/
def tempPath (dirpath name : Text) : Text := (dirpath ++ '/' :: name).take 254

/-! ## Reading a directory -/

-- What a file opens to: no descriptor on errors. Every file is opened once.
variable (openFile : Text → ChannelMode → Option Nat)

/-- The loop over the names of the directory. -/
def addRelated (dirpath : Text) (mode : ChannelMode) (nodetype : Int) (nodename : Text) :
    List Text → ChannelsConfig → Option ChannelsConfig
  | [], channels => some channels
  | name :: names, channels =>
      if related nodename name then do
        let fd ← openFile (tempPath dirpath name) mode
        let a ← addChannel channels nodetype (relatedId name) fd mode
        addRelated dirpath mode nodetype nodename names (some a)
      else addRelated dirpath mode nodetype nodename names channels

/-- A directory that cannot be opened adds nothing. -/
def addAllChannelsRelatedToNodeTypeFromDir (opendir : Text → Option (List Text))
    (channels : ChannelsConfig) (dirpath : Text) (mode : ChannelMode) (nodetype : Int)
    (nodename : Text) : Option ChannelsConfig :=
  match opendir dirpath with
  | none => some channels
  | some names => addRelated openFile dirpath mode nodetype nodename names channels

/-- The descriptors that are closed, in the order of the array. Null pointers are passed over here, but
freeing them fails an assertion. -/
def closeChannels (a : DynArray UserChannel) : Option (List UInt16) :=
  (pointers a).map fun items => items.1.map UserChannel.fd

/-! ## The pattern over channels -/

/-- A call of one of the callbacks, with the index of the other node and the descriptor. -/
inductive CommCall
  | write (index : Nat) (fd : UInt16)
  | read (index : Nat) (fd : UInt16)
deriving DecidableEq

/-- The turn of the own node. -/
def writeToOthers (a : DynArray UserChannel) (nodetype ownnodeid : Int) :
    List (Int × Nat) → Option (List CommCall)
  | [] => some []
  | (id, j) :: rest =>
      if id ≠ ownnodeid then do
        let ch ← channel a nodetype id .write
        let calls ← writeToOthers a nodetype ownnodeid rest
        return .write j ch.fd :: calls
      else writeToOthers a nodetype ownnodeid rest

/-- The loop over the nodes. -/
def eachTurn (a : DynArray UserChannel) (nodetype ownnodeid : Int) (nodesList : List Int) :
    List (Int × Nat) → Option (List CommCall)
  | [] => some []
  | (id, i) :: rest => do
      let calls ←
        if id = ownnodeid then writeToOthers a nodetype ownnodeid nodesList.zipIdx
        else (channel a nodetype id .read).map fun ch => [.read i ch.fd]
      let later ← eachTurn a nodetype ownnodeid nodesList rest
      return calls ++ later

/-- The calls that the pattern makes. -/
def startEachToOtherCommunication (q : Qsort) (channels : ChannelsConfig)
    (ownnodeid nodetype : Int) : Option (List CommCall) := do
  let (nodesList, a) ← getNodesListByType q channels nodetype
  if nodesList = [] then none else eachTurn a nodetype ownnodeid nodesList nodesList.zipIdx

/-! ## Names and ids -/

/-- The file of a node. -/
def nodeFile (nodename : Text) (id : Nat) : Text := nodename ++ '-' :: Nat.toDigits 10 id

private theorem locateLastOccurence_last {s t : Text} {c : Char} (h : c ∉ t) :
    locateLastOccurence (s ++ c :: t) c (s ++ c :: t).length = some s.length := by
  have hthere : (s ++ c :: t)[s.length]? = some c := by simp
  have hsome : (locateLastOccurence (s ++ c :: t) c (s ++ c :: t).length).isSome :=
    locateLastOccurence_isSome (by simp) hthere
  obtain ⟨i, hi⟩ := Option.isSome_iff_exists.mp hsome
  obtain ⟨hlt, hic, hlast⟩ := locateLastOccurence_eq_some hi
  rw [hi, Option.some.injEq]
  rcases Nat.lt_trichotomy i s.length with hless | heq | hmore
  · exact absurd hthere (hlast s.length hless (by simp))
  · exact heq
  · exfalso
    obtain ⟨d, rfl⟩ := Nat.exists_eq_add_of_lt hmore
    have hmem : t[d]? = some c := by
      rw [← hic, List.getElem?_append_right (by omega)]
      have hd : s.length + d + 1 - s.length = d + 1 := by omega
      rw [hd, List.getElem?_cons_succ]
    exact h (List.mem_of_getElem? hmem)

private theorem atoi_digits (id : Nat) : atoi (Nat.toDigits 10 id) = id := by
  have hdigit : ∀ c ∈ Nat.toDigits 10 id, c.isDigit = true := fun c hc =>
    Nat.isDigit_of_mem_toDigits (by decide) (by decide) hc
  have htake : (Nat.toDigits 10 id).takeWhile Char.isDigit = Nat.toDigits 10 id :=
    List.takeWhile_eq_self_iff.mpr hdigit
  cases hds : Nat.toDigits 10 id with
  | nil => exact absurd hds Nat.toDigits_ne_nil
  | cons d ds =>
      rw [hds] at hdigit htake
      have hd : d.isDigit = true := hdigit d List.mem_cons_self
      have hspace : isSpace d = false := by
        cases hs : isSpace d with
        | false => rfl
        | true =>
            simp only [isSpace, Bool.or_eq_true, decide_eq_true_eq] at hs
            rcases hs with ((((rfl | rfl) | rfl) | rfl) | rfl) | rfl <;> cases hd
      have hdrop : (d :: ds).dropWhile isSpace = d :: ds := by
        rw [List.dropWhile_cons_of_neg]
        simp [hspace]
      have hvalue : Nat.ofDigitChars 10 (d :: ds) 0 = id := by
        rw [← hds]
        exact Nat.ofDigitChars_ten_toDigits
      unfold atoi
      rw [hdrop]
      split
      · rename_i heq
        cases heq
        cases hd
      · rename_i heq
        cases heq
        cases hd
      · rename_i heq
        rw [htake, hvalue]

private theorem extractNodeNameId_nodeFile (nodename : Text) (id : Nat) :
    extractNodeNameId (nodeFile nodename id) = (nodename.length, (id : Int)) := by
  have hminus : '-' ∉ Nat.toDigits 10 id := by
    intro hmem
    have hdigit := Nat.isDigit_of_mem_toDigits (by decide) (by decide) hmem
    cases hdigit
  have hlen : nodename.length + 1 < (nodeFile nodename id).length := by
    have hpos := List.length_pos_iff.mpr (Nat.toDigits_ne_nil (n := id) (b := 10))
    simp only [nodeFile, List.length_append, List.length_cons]
    omega
  have hdrop : (nodeFile nodename id).drop (nodename.length + 1) = Nat.toDigits 10 id := by
    simp [nodeFile, List.drop_append]
  have hlast : locateLastOccurence (nodeFile nodename id) '-' (nodeFile nodename id).length =
      some nodename.length := locateLastOccurence_last hminus
  rw [extractNodeNameId, hlast]
  simp only [hlen, if_true, hdrop, atoi_digits]

private theorem relatedId_nodeFile (nodename : Text) (id : Nat) :
    relatedId (nodeFile nodename id) = id := by
  rw [relatedId, extractNodeNameId_nodeFile, if_neg (by simp only; omega)]

/-! ## The pattern over the nodes -/

open MapReduce

/-- The call that an action of the program of a mapper is. -/
def callOf {n : Nat} (fdIn fdOut : Fin n → UInt16) : CommAction (Fin n) → CommCall
  | .send b => .write b (fdOut b)
  | .recv a => .read a (fdIn a)

/-- There is a channel of this kind, and all of them have the descriptor. -/
def OnlyChannel (chs : List UserChannel) (nodetype nodeid : Int) (mode : ChannelMode) (fd : UInt16) :
    Prop :=
  (∃ ch ∈ chs, ch.Is nodetype nodeid mode) ∧
    ∀ ch ∈ chs, ch.Is nodetype nodeid mode → ch.fd = fd

/-- The channels of mapper `k`: its node list is that of the cluster, and it is joined to every other
mapper in both directions. -/
structure Connects {n : Nat} (chs : List UserChannel) (nodetype : Int) (k : Fin n)
    (fdIn fdOut : Fin n → UInt16) : Prop where
  listed : (nodeids chs nodetype (listedMode chs nodetype)).Perm
    ((List.finRange n).map fun i => (mapNodesList i : Int))
  reads : ∀ i, i ≠ k → OnlyChannel chs nodetype (mapNodesList i) .read (fdIn i)
  writes : ∀ i, i ≠ k → OnlyChannel chs nodetype (mapNodesList i) .write (fdOut i)

variable {q : Qsort} {a : DynArray UserChannel} {chs : List UserChannel} {nodetype : Int} {n : Nat}
  {k : Fin n} {fdIn fdOut : Fin n → UInt16}

theorem Holds.foundOnly (hold : Holds a chs) {nodeid : Int} {mode : ChannelMode} {fd : UInt16}
    (h : OnlyChannel chs nodetype nodeid mode fd) :
    ∃ ch, channel a nodetype nodeid mode = some ch ∧ ch.fd = fd := by
  obtain ⟨hsound, hcomplete⟩ := hold.found nodetype nodeid mode
  obtain ⟨⟨ch, hch, his⟩, hfd⟩ := h
  obtain ⟨found, hfound⟩ := hcomplete ch hch his
  obtain ⟨hmem, hfoundIs⟩ := hsound found hfound
  exact ⟨found, hfound, hfd found hmem hfoundIs⟩

/-- A node with its place in the list. -/
def placed (i : Fin n) : Int × Nat := (mapNodesList i, i.val)

theorem zipIdx_nodes :
    ((List.finRange n).map fun i => (mapNodesList i : Int)).zipIdx =
      (List.finRange n).map placed := by
  apply List.ext_getElem
  · simp
  · intro i h₁ h₂
    simp [placed]

theorem mapNodesList_int (i k : Fin n) : (mapNodesList i : Int) = mapNodesList k ↔ i = k := by
  rw [Int.ofNat_inj]
  exact mapNodesList_inj i k

private theorem writeToOthers_eq (hold : Holds a chs) (h : Connects chs nodetype k fdIn fdOut)
    (ids : List (Fin n)) :
    writeToOthers a nodetype (mapNodesList k) (ids.map placed) =
      some (((ids.filter fun j => j ≠ k).map CommAction.send).map (callOf fdIn fdOut)) := by
  induction ids with
  | nil => rfl
  | cons j ids ih =>
      rw [List.map_cons, placed, writeToOthers]
      by_cases hj : j = k
      · rw [if_neg (not_not.mpr ((mapNodesList_int j k).mpr hj)), ih]
        simp [hj]
      · obtain ⟨ch, hch, hfd⟩ := hold.foundOnly (h.writes j hj)
        rw [if_pos (mt (mapNodesList_int j k).mp hj), hch, ih]
        simp [hj, hfd, callOf]

private theorem eachTurn_eq (hold : Holds a chs) (h : Connects chs nodetype k fdIn fdOut)
    (ids : List (Fin n)) :
    eachTurn a nodetype (mapNodesList k) ((List.finRange n).map fun i => (mapNodesList i : Int))
        (ids.map placed) =
      some ((ids.flatMap fun i =>
        if i = k then ((List.finRange n).filter fun j => j ≠ k).map CommAction.send
        else [CommAction.recv i]).map (callOf fdIn fdOut)) := by
  induction ids with
  | nil => rfl
  | cons i ids ih =>
      rw [List.map_cons, placed, eachTurn, ih, zipIdx_nodes]
      by_cases hi : i = k
      · rw [if_pos ((mapNodesList_int i k).mpr hi), writeToOthers_eq hold h]
        simp [hi]
      · obtain ⟨ch, hch, hfd⟩ := hold.foundOnly (h.reads i hi)
        rw [if_neg (mt (mapNodesList_int i k).mp hi), hch]
        simp [hi, hfd, callOf]

private theorem nodeids_sorted_eq {items : List UserChannel} (hperm : items.Perm chs)
    (h : Connects chs nodetype k fdIn fdOut) :
    nodeids (q.sort items) nodetype (listedMode items nodetype) =
      (List.finRange n).map fun i => (mapNodesList i : Int) := by
  have hsame := nodeids_perm ((q.perm items).trans hperm) nodetype (listedMode items nodetype)
  have hlisted := h.listed
  rw [← listedMode_perm hperm] at hlisted
  have hascending : ((List.finRange n).map fun i => (mapNodesList i : Int)).Pairwise (· ≤ ·) := by
    rw [List.pairwise_map]
    refine (List.pairwise_lt_finRange n).imp fun {i j} hij => ?_
    have hlt : i.val < j.val := hij
    simp only [mapNodesList]
    omega
  have hsorted := nodeids_sort q items nodetype (listedMode items nodetype)
  apply List.Perm.eq_of_pairwise ?_ hsorted hascending (hsame.trans hlisted)
  intro x y _ _ hxy hyx
  exact Int.le_antisymm hxy hyx

/-- Over channels that connect a mapper to the others, the pattern calls the callbacks as the program
of the mapper says. -/
private theorem startEachToOther_mapperProgram (hold : Holds a chs)
    (h : Connects chs nodetype k fdIn fdOut) :
    startEachToOtherCommunication q (some a) (mapNodesList k) nodetype =
      some ((mapperProgram k).map (callOf fdIn fdOut)) := by
  obtain ⟨items, hitems, hperm⟩ := hold
  have hnodes := nodeids_sorted_eq (q := q) hperm h
  have hheld : Holds (sortEntries q a items hitems) chs :=
    ⟨q.sort items, rfl, (q.perm items).trans hperm⟩
  have hne : (List.finRange n).map (fun i => (mapNodesList i : Int)) ≠ [] := by
    have hmem := List.mem_map_of_mem (f := fun i => (mapNodesList i : Int)) (List.mem_finRange k)
    exact List.ne_nil_of_mem hmem
  rw [nodeids] at hnodes
  rw [startEachToOtherCommunication, getNodesListByType_eq nodetype hitems, hnodes]
  simp only [Option.bind_eq_bind, Option.bind_some, if_neg hne, zipIdx_nodes]
  rw [eachTurn_eq hheld h, mapperProgram_eq]

/-! ## From directories to channels -/

private theorem Holds.of_perm {chs' : List UserChannel} (hold : Holds a chs) (h : chs.Perm chs') :
    Holds a chs' := by
  obtain ⟨items, hitems, hperm⟩ := hold
  exact ⟨items, hitems, hperm.trans h⟩

private theorem ConfigHolds.of_perm {channels : ChannelsConfig} {chs' : List UserChannel}
    (hold : ConfigHolds channels chs) (h : chs.Perm chs') : ConfigHolds channels chs' := by
  cases channels with
  | none =>
      have hnil : chs = [] := hold
      rw [hnil] at h
      exact h.nil_eq.symm
  | some a => exact Holds.of_perm hold h

/-- Every descriptor that was added is closed as often as it was added, wherever sorting left it. -/
theorem closeChannels_perm (hold : Holds a chs) :
    ∃ fds, closeChannels a = some fds ∧ fds.Perm (chs.map UserChannel.fd) := by
  obtain ⟨items, hitems, hperm⟩ := hold
  refine ⟨items.map UserChannel.fd, ?_, hperm.map _⟩
  rw [closeChannels, pointers_of_items hitems, Option.map_some]

section Reading

variable {openFile : Text → ChannelMode → Option Nat} {dirpath nodename : Text}
  {mode : ChannelMode} {fdOf : Text → Nat}

/-- The channel that a file becomes. -/
def fileChannel (nodetype : Int) (mode : ChannelMode) (fdOf : Text → Nat) (name : Text) :
    UserChannel :=
  newChannel nodetype (relatedId name) (fdOf name) mode

private theorem addRelated_holds (nodetype : Int) (names : List Text) (channels : ChannelsConfig)
    (hopen : ∀ name ∈ names, related nodename name = true →
      openFile (tempPath dirpath name) mode = some (fdOf name))
    (hold : ConfigHolds channels chs) (hlen : chs.length + names.length ≤ 2 ^ 31) :
    ∃ channels', addRelated openFile dirpath mode nodetype nodename names channels =
        some channels' ∧
      ConfigHolds channels'
        (chs ++ (names.filter (related nodename)).map (fileChannel nodetype mode fdOf)) := by
  induction names generalizing channels chs with
  | nil => exact ⟨channels, rfl, by simpa using hold⟩
  | cons name names ih =>
      rw [List.length_cons] at hlen
      have hrest : ∀ name ∈ names, related nodename name = true →
          openFile (tempPath dirpath name) mode = some (fdOf name) :=
        fun other hother => hopen other (List.mem_cons_of_mem _ hother)
      rw [addRelated]
      by_cases hrel : related nodename name = true
      · obtain ⟨a, ha⟩ := addChannel_completes hold (by omega) nodetype (relatedId name)
          (fdOf name) mode
        have hadded : ConfigHolds (some a) (chs ++ [fileChannel nodetype mode fdOf name]) :=
          addChannel_holds hold ha
        obtain ⟨channels', hread, hheld⟩ := ih (some a) hrest hadded (by
          rw [List.length_append, List.length_singleton]
          omega)
        refine ⟨channels', ?_, ?_⟩
        · rw [if_pos hrel, hopen name List.mem_cons_self hrel]
          simp only [Option.bind_eq_bind, Option.bind_some, ha, hread]
        · rwa [List.filter_cons_of_pos hrel, List.map_cons, List.append_cons]
      · obtain ⟨channels', hread, hheld⟩ := ih channels hrest hold (by omega)
        refine ⟨channels', ?_, ?_⟩
        · rw [if_neg hrel, hread]
        · rwa [List.filter_cons_of_neg hrel]

end Reading

/-! ## A cluster of mappers -/

section Cluster

variable {nodename : Text} {mode : ChannelMode}

/-- The other mappers. -/
def others (k : Fin n) : List (Fin n) := (List.finRange n).filter fun i => i ≠ k

/-- The channel to a node. -/
def nodeChannel (nodetype : Int) (mode : ChannelMode) (fd : Fin n → Int) (i : Fin n) : UserChannel :=
  newChannel nodetype (mapNodesList i) (fd i) mode

/-- The channels to the others and the own one. -/
def clusterChannels (nodetype : Int) (k : Fin n) (fdIn fdOut : Fin n → Int) (ownfd : Int)
    (ownMode : ChannelMode) : List UserChannel :=
  (others k).map (nodeChannel nodetype .read fdIn) ++
    ((others k).map (nodeChannel nodetype .write fdOut) ++
      [newChannel nodetype (mapNodesList k) ownfd ownMode])

private theorem others_perm (k : Fin n) : (others k ++ [k]).Perm (List.finRange n) := by
  have hsplit := List.filter_append_perm (fun i => decide (i ≠ k)) (List.finRange n)
  have hown : (List.finRange n).filter (fun i => !decide (i ≠ k)) = [k] := by
    have hbeq : (fun i : Fin n => !decide (i ≠ k)) = fun i => i == k := by
      funext i
      by_cases hi : i = k <;> simp [hi]
    rw [hbeq, List.filter_beq, List.count_eq_one_of_mem (List.nodup_finRange n)
      (List.mem_finRange k)]
    rfl
  rwa [hown] at hsplit

variable (htype : 0 ≤ nodetype ∧ nodetype < 256) (hn : n < 2 ^ 16)

include htype in
theorem newChannel_matches {nodeid fd : Int} {mode' : ChannelMode} :
    (newChannel nodetype nodeid fd mode).Matches nodetype mode' ↔ mode = mode' := by
  have hwrap : ((UInt8.ofInt nodetype).toNat : Int) = nodetype := by
    rw [UInt8.ofInt, UInt8.toNat_ofNat']
    omega
  simp only [UserChannel.Matches, newChannel, hwrap, true_and]

theorem toNat_nodeid (hn : n < 2 ^ 16) (i : Fin n) :
    (UInt16.ofInt (mapNodesList i)).toNat = mapNodesList i := by
  have hi := i.isLt
  rw [UInt16.ofInt, UInt16.toNat_ofNat', mapNodesList]
  omega

include htype hn

private theorem nodeids_nodeChannels (mode : ChannelMode) (ids : List (Fin n)) (fd : Fin n → Int)
    (mode' : ChannelMode) :
    nodeids (ids.map (nodeChannel nodetype mode fd)) nodetype mode' =
      if mode = mode' then ids.map fun i => (mapNodesList i : Int) else [] := by
  induction ids with
  | nil => simp [nodeids]
  | cons i ids ih =>
      have hmatch : (nodeChannel nodetype mode fd i).Matches nodetype mode' ↔ mode = mode' :=
        newChannel_matches htype
      rw [nodeids] at ih ⊢
      rw [List.map_cons, List.filter_cons]
      by_cases hmode : mode = mode'
      · rw [if_pos hmode] at ih ⊢
        rw [if_pos (decide_eq_true (hmatch.mpr hmode)), List.map_cons, ih, List.map_cons]
        congr 1
        exact congrArg Int.ofNat (toNat_nodeid hn i)
      · rw [if_neg hmode] at ih ⊢
        rw [if_neg (by simpa using mt hmatch.mp hmode), ih]

theorem nodeids_cluster (k : Fin n) (fdIn fdOut : Fin n → Int) (ownfd : Int)
    (ownMode mode : ChannelMode) :
    nodeids (clusterChannels nodetype k fdIn fdOut ownfd ownMode) nodetype mode =
      (others k).map (fun i => (mapNodesList i : Int)) ++
        if ownMode = mode then [(mapNodesList k : Int)] else [] := by
  have hin := nodeids_nodeChannels htype hn .read (others k) fdIn mode
  have hout := nodeids_nodeChannels htype hn .write (others k) fdOut mode
  have hown := nodeids_nodeChannels htype hn ownMode [k] (fun _ => ownfd) mode
  simp only [nodeids] at hin hout hown
  rw [clusterChannels, nodeids, List.filter_append, List.filter_append, List.map_append,
    List.map_append, hin, hout]
  have hsingle : [newChannel nodetype (mapNodesList k) ownfd ownMode] =
      [k].map (nodeChannel nodetype ownMode fun _ => ownfd) := rfl
  rw [hsingle, hown]
  cases mode <;> simp

private theorem listedMode_cluster (k : Fin n) (fdIn fdOut : Fin n → Int) (ownfd : Int)
    (ownMode : ChannelMode) :
    listedMode (clusterChannels nodetype k fdIn fdOut ownfd ownMode) nodetype = ownMode := by
  have hcount : ∀ mode : ChannelMode,
      ((clusterChannels nodetype k fdIn fdOut ownfd ownMode).countP fun ch =>
        ch.Matches nodetype mode) = (others k).length + if ownMode = mode then 1 else 0 := by
    intro mode
    have hlen := congrArg List.length (nodeids_cluster htype hn k fdIn fdOut ownfd ownMode mode)
    rw [nodeids, List.length_map, ← List.countP_eq_length_filter] at hlen
    rw [hlen, List.length_append, List.length_map]
    split <;> rfl
  rw [listedMode]
  simp only [hcount]
  cases ownMode <;> simp

private theorem nodeChannel_is (fd : Fin n → Int) (i j : Fin n) (mode' : ChannelMode) :
    (nodeChannel nodetype mode fd i).Is nodetype (mapNodesList j) mode' ↔ mode = mode' ∧ i = j := by
  have hmatch : (nodeChannel nodetype mode fd i).Matches nodetype mode' ↔ mode = mode' :=
    newChannel_matches htype
  have hid : ((nodeChannel nodetype mode fd i).nodeid.toNat : Int) = mapNodesList i :=
    congrArg Int.ofNat (toNat_nodeid hn i)
  rw [UserChannel.Is, hmatch, hid, mapNodesList_int]

private theorem cluster_onlyChannel {k i : Fin n} (hi : i ≠ k) {fdIn fdOut fd : Fin n → Int} {ownfd : Int}
    {ownMode : ChannelMode} (mode : ChannelMode)
    (hfd : fd i = match mode with
      | .read => fdIn i
      | .write => fdOut i) :
    OnlyChannel (clusterChannels nodetype k fdIn fdOut ownfd ownMode) nodetype (mapNodesList i) mode
      (.ofInt (fd i)) := by
  have hmem : i ∈ others k := by simp [others, hi]
  constructor
  · cases mode with
    | read =>
        refine ⟨nodeChannel nodetype .read fdIn i, ?_, (nodeChannel_is htype hn _ _ _ _).mpr ⟨rfl, rfl⟩⟩
        exact List.mem_append_left _ (List.mem_map_of_mem hmem)
    | write =>
        refine ⟨nodeChannel nodetype .write fdOut i, ?_,
          (nodeChannel_is htype hn _ _ _ _).mpr ⟨rfl, rfl⟩⟩
        exact List.mem_append_right _ (List.mem_append_left _ (List.mem_map_of_mem hmem))
  · intro ch hch his
    rcases List.mem_append.mp hch with hread | hch
    · obtain ⟨j, -, rfl⟩ := List.mem_map.mp hread
      obtain ⟨rfl, rfl⟩ := (nodeChannel_is htype hn _ _ _ _).mp his
      rw [hfd]
      rfl
    · rcases List.mem_append.mp hch with hwrite | hown
      · obtain ⟨j, -, rfl⟩ := List.mem_map.mp hwrite
        obtain ⟨rfl, rfl⟩ := (nodeChannel_is htype hn _ _ _ _).mp his
        rw [hfd]
        rfl
      · rw [List.mem_singleton] at hown
        subst ch
        have hown := (nodeChannel_is htype hn (fun _ => ownfd) k i mode).mp his
        exact absurd hown.2.symm hi

private theorem clusterChannels_connect (k : Fin n) (fdIn fdOut : Fin n → Int) (ownfd : Int)
    (ownMode : ChannelMode) :
    Connects (clusterChannels nodetype k fdIn fdOut ownfd ownMode) nodetype k
      (fun i => .ofInt (fdIn i)) fun i => .ofInt (fdOut i) where
  listed := by
    have hperm := (others_perm k).map fun i => (mapNodesList i : Int)
    rw [listedMode_cluster htype hn, nodeids_cluster htype hn, if_pos rfl]
    rwa [List.map_append] at hperm
  reads i hi := cluster_onlyChannel htype hn hi .read rfl
  writes i hi := cluster_onlyChannel htype hn hi .write rfl

end Cluster

/-- The files of the other mappers. -/
def otherFiles (nodename : Text) (k : Fin n) : List Text :=
  (others k).map fun i => nodeFile nodename (mapNodesList i)

private theorem fileChannels_others {names : List Text} {nodename : Text} {fdOf : Text → Nat}
    {mode : ChannelMode} (h : (names.filter (related nodename)).Perm (otherFiles nodename k)) :
    ((names.filter (related nodename)).map (fileChannel nodetype mode fdOf)).Perm
      ((others k).map (nodeChannel nodetype mode fun i =>
        (fdOf (nodeFile nodename (mapNodesList i)) : Int))) := by
  have hmap := h.map (fileChannel nodetype mode fdOf)
  rw [otherFiles, List.map_map] at hmap
  have hsame : (fileChannel nodetype mode fdOf ∘ fun i => nodeFile nodename (mapNodesList i)) =
      nodeChannel nodetype mode fun i : Fin n =>
        (fdOf (nodeFile nodename (mapNodesList i)) : Int) := by
    funext i
    rw [Function.comp_apply, fileChannel, relatedId_nodeFile, nodeChannel]
  rwa [hsame] at hmap

/-- A mapper reads the channels to the others from two directories, whose files come in any order and
among others, and adds its own channel. The pattern then makes the calls of its program, each with the
descriptor that the file of the other mapper was opened to. -/
theorem startEachToOther_directories (q : Qsort) (openFile : Text → ChannelMode → Option Nat)
    (opendir : Text → Option (List Text)) (inDir outDir nodename : Text)
    (htype : 0 ≤ nodetype ∧ nodetype < 256) (hn : n < 2 ^ 16) (k : Fin n)
    (inNames outNames : List Text) (hlen : inNames.length + outNames.length < 2 ^ 31)
    (hinDir : opendir inDir = some inNames) (houtDir : opendir outDir = some outNames)
    (hin : (inNames.filter (related nodename)).Perm (otherFiles nodename k))
    (hout : (outNames.filter (related nodename)).Perm (otherFiles nodename k))
    (fdIn fdOut : Text → Nat)
    (hopenIn : ∀ name ∈ otherFiles nodename k,
      openFile (tempPath inDir name) .read = some (fdIn name))
    (hopenOut : ∀ name ∈ otherFiles nodename k,
      openFile (tempPath outDir name) .write = some (fdOut name))
    (ownfd : Int) (ownMode : ChannelMode) :
    (do
      let channels ← addAllChannelsRelatedToNodeTypeFromDir openFile opendir none inDir .read
        nodetype nodename
      let channels ← addAllChannelsRelatedToNodeTypeFromDir openFile opendir channels outDir .write
        nodetype nodename
      let a ← addChannel channels nodetype (mapNodesList k) ownfd ownMode
      startEachToOtherCommunication q (some a) (mapNodesList k) nodetype) =
    some ((mapperProgram k).map (callOf
      (fun i => .ofInt (fdIn (nodeFile nodename (mapNodesList i))))
      fun i => .ofInt (fdOut (nodeFile nodename (mapNodesList i))))) := by
  have hmem : ∀ {names : List Text}, (names.filter (related nodename)).Perm (otherFiles nodename k) →
      ∀ name ∈ names, related nodename name = true → name ∈ otherFiles nodename k :=
    fun h name hname hrel => h.mem_iff.mp (List.mem_filter.mpr ⟨hname, hrel⟩)
  -- Both directories are read to their ends.
  have hnone : ConfigHolds none [] := rfl
  obtain ⟨first, hfirst, hheld⟩ := addRelated_holds nodetype inNames none
    (fun name hname hrel => hopenIn name (hmem hin name hname hrel)) hnone (by
      rw [List.length_nil]
      omega)
  rw [List.nil_append] at hheld
  have hread := hheld.of_perm (fileChannels_others hin)
  obtain ⟨second, hsecond, hboth⟩ := addRelated_holds nodetype outNames first
    (fun name hname hrel => hopenOut name (hmem hout name hname hrel)) hread (by
      have hfew := hin.length_eq
      have hle := List.length_filter_le (related nodename) inNames
      rw [otherFiles, List.length_map] at hfew
      rw [List.length_map]
      omega)
  have hall := hboth.of_perm ((fileChannels_others hout).append_left _)
  -- The own channel is added last.
  obtain ⟨a, ha⟩ := addChannel_completes hall (by
    have hfew := hin.length_eq
    have hfew' := hout.length_eq
    have hle := List.length_filter_le (related nodename) inNames
    have hle' := List.length_filter_le (related nodename) outNames
    rw [otherFiles, List.length_map] at hfew hfew'
    rw [List.length_append, List.length_map, List.length_map]
    omega) nodetype (mapNodesList k) ownfd ownMode
  have hcluster := addChannel_holds hall ha
  rw [List.append_assoc] at hcluster
  simp only [addAllChannelsRelatedToNodeTypeFromDir, hinDir, houtDir, Option.bind_eq_bind, hfirst,
    Option.bind_some, hsecond, ha]
  exact startEachToOther_mapperProgram hcluster
    (clusterChannels_connect htype hn k _ _ ownfd ownMode)

def twoMaps : List Text := ["map-2".toList, "reduce-1".toList]

theorem startEachToOther_directories_first :
    (do
      let channels ← addAllChannelsRelatedToNodeTypeFromDir (fun _ _ => some 3) (fun _ => some twoMaps)
        none [] .read 1 "map".toList
      let channels ← addAllChannelsRelatedToNodeTypeFromDir (fun _ _ => some 3) (fun _ => some twoMaps)
        channels [] .write 1 "map".toList
      let a ← addChannel channels 1 (mapNodesList (0 : Fin 2)) (-1) .read
      startEachToOtherCommunication insertionQsort (some a) (mapNodesList (0 : Fin 2)) 1) =
    some ((mapperProgram (0 : Fin 2)).map (callOf (fun _ => .ofInt 3) fun _ => .ofInt 3)) :=
  startEachToOther_directories insertionQsort (fun _ _ => some 3) (fun _ => some twoMaps) [] []
    "map".toList (by decide) (by decide) 0 twoMaps twoMaps (by decide) rfl rfl (by decide) (by decide)
    (fun _ => 3) (fun _ => 3) (fun _ _ => rfl) (fun _ _ => rfl) (-1) .read

end Zrt.Networking
