import Mathlib.Data.List.Forall2
import Mathlib.Data.Option.Basic
import Zrt.MapReduce.Packets
import Zrt.MapReduce.Reducer

/-!
# The reducer on its channels

`ReduceNodeMain` reads bytes. On channels that carry packets one after the other it does what the
reducer of packets does, whether it ends or waits for ever.
-/

namespace Zrt.MapReduce.Wire

open Helpers Helpers.BufferedIOData

variable {mif : MapReduceData}

/-- The channel of a mapper, and `excluded_map_nodes`. -/
structure ChannelNode where
  stream : List UInt8
  excluded : Bool
deriving DecidableEq

abbrev Item (mif : MapReduceData) := ElasticBufItemData mif.valueAddrIsData

/-- One pass over the mappers. A packet that leaves its buffer uninitialised is as bad as a failed
assertion. -/
def pollChannels (mif : MapReduceData) : List ChannelNode → List (List (Item mif)) → Bool →
    Option (List ChannelNode × List (List (Item mif)) × Bool)
  | [], mergeBuffers, leaveMapNodes => some ([], mergeBuffers, leaveMapNodes)
  | node :: nodes, mergeBuffers, leaveMapNodes =>
      if node.excluded then
        (pollChannels mif nodes mergeBuffers leaveMapNodes).map fun r => (node :: r.1, r.2)
      else
        match recvDataFromSingleMap mif node.stream with
        | some ⟨exclFlag, some map, stream⟩ =>
            (pollChannels mif nodes (mergeBuffers ++ [map])
              (leaveMapNodes || decide (exclFlag ≠ excludeFlag true))).map fun r =>
                (⟨stream, decide (exclFlag = excludeFlag true)⟩ :: r.1, r.2)
        | _ => none

/-- The loop over the rounds. -/
def reduceChannelsLoop (mif : MapReduceData) (c : HashComparator (List UInt8))
    (combine : Option (List (Item mif) → List (Item mif))) :
    Nat → List ChannelNode → List (List (Item mif)) → List (Item mif) →
      Option (List ChannelNode × List (List (Item mif)) × List (Item mif))
  | 0, _, _, _ => none
  | fuel + 1, nodes, mergeBuffers, all =>
      (pollChannels mif nodes mergeBuffers false).bind fun (nodes, mergeBuffers, leaveMapNodes) =>
        match combine with
        | some combine =>
            (mergePreviousAndNew c ElasticBufItemData.keyHash mergeBuffers all).bind fun merged =>
              if leaveMapNodes then
                reduceChannelsLoop mif c (some combine) fuel nodes [] (combine merged)
              else some (nodes, [], combine merged)
        | none =>
            if leaveMapNodes then reduceChannelsLoop mif c none fuel nodes mergeBuffers all
            else some (nodes, mergeBuffers, all)

/-- The channels at the end and the buffer passed to `Reduce`. -/
def reduceChannels (mif : MapReduceData) (c : HashComparator (List UInt8))
    (combine : Option (List (Item mif) → List (Item mif))) (fuel : Nat)
    (nodes : List ChannelNode) : Option (List ChannelNode × List (Item mif)) :=
  (reduceChannelsLoop mif c combine fuel nodes [] []).bind fun (nodes, mergeBuffers, all) =>
    match combine with
    | some _ => some (nodes, all)
    | none => (mergePreviousAndNew c ElasticBufItemData.keyHash mergeBuffers all).map
        fun merged => (nodes, merged)

/-- What a mapper puts on the channel of one reducer: packets written one after the other, each with
a buffered writer that holds nothing back from before. -/
inductive Written (mif : MapReduceData) :
    List UInt8 → List (MapPacket (MrItem mif)) → Prop
  | done : Written mif [] []
  | packet {bio bio' : BufferedIOData} {map : List (MrItem mif)} {start count : Nat}
      {lastData : Bool} {sent rest : List UInt8} {packets : List (MapPacket (MrItem mif))}
      (hbio : bio.Pending [])
      (hsent : writeDataToReduce mif bio map start count (excludeFlag lastData) = some (bio', sent))
      (hrest : Written mif rest packets) :
      Written mif (sent ++ rest) (⟨lastData, slice map start count⟩ :: packets)

/-- A packet that its reader decodes. -/
structure Sendable (p : MapPacket (MrItem mif)) : Prop where
  count : p.items.length < 2 ^ 31
  filled : ∀ item ∈ p.items, item.1.Filled
  fits : SizeFits p.items

/-- The packet as the reducer sees it. -/
def decoded (p : MapPacket (MrItem mif)) : MapPacket (Item mif) :=
  ⟨p.exclFlag, p.items.map Subtype.val⟩

/-- A channel and the packets on it. -/
structure Carries (node : ChannelNode) (mapNode : MapNode (Item mif)) : Prop where
  excluded : node.excluded = mapNode.excluded
  packets : ∃ packets, Written mif node.stream packets ∧ (∀ p ∈ packets, Sendable p) ∧
    mapNode.packets = packets.map decoded

private theorem excludeFlag_eq_true (lastData : Bool) :
    excludeFlag lastData = excludeFlag true ↔ lastData = true := by
  cases lastData <;> decide

private theorem Written.recv {sent : List UInt8} {p : MapPacket (MrItem mif)}
    {packets : List (MapPacket (MrItem mif))} (h : Written mif sent (p :: packets))
    (hp : Sendable p) :
    ∃ rest, Written mif rest packets ∧ recvDataFromSingleMap mif sent =
      some ⟨excludeFlag p.exclFlag, some (p.items.map Subtype.val), rest⟩ := by
  cases h with
  | @packet bio bio' map start count lastData sent rest _ hbio hsent hrest =>
      have hrange : start + count ≤ map.length := by
        by_contra hnot
        simp [writeDataToReduce, hnot] at hsent
      obtain ⟨bio'', hwrite, -⟩ := writeDataToReduce_eq hbio map start count
        (excludeFlag lastData) hrange
      rw [hwrite, Option.some.injEq, Prod.mk.injEq] at hsent
      rw [← hsent.2]
      exact ⟨rest, hrest, recv_packet _ hp.count hp.filled hp.fits rest⟩

private theorem Carries.recv {node : ChannelNode} {mapNode : MapNode (Item mif)}
    (h : Carries node mapNode) :
    (mapNode.packets = [] ∧ recvDataFromSingleMap mif node.stream = none) ∨
      ∃ p packets rest, mapNode.packets = p :: packets ∧
        recvDataFromSingleMap mif node.stream =
          some ⟨excludeFlag p.exclFlag, some p.items, rest⟩ ∧
        Carries ⟨rest, p.exclFlag⟩ ⟨packets, p.exclFlag⟩ := by
  obtain ⟨packets, hwritten, hsendable, hpackets⟩ := h.packets
  cases packets with
  | nil =>
      generalize hstream : node.stream = stream at hwritten
      cases hwritten
      exact .inl ⟨hpackets, rfl⟩
  | cons p packets =>
      obtain ⟨rest, hrest, hrecv⟩ := hwritten.recv (hsendable p (by simp))
      exact .inr ⟨decoded p, packets.map decoded, rest, hpackets, hrecv, rfl, packets, hrest,
        fun q hq => hsendable q (List.mem_cons_of_mem p hq), rfl⟩

/-- Both reducers are stuck, or they end with the same buffers and with channels that carry what is
left of the packets. -/
def SameResult {β : Type} (result : Option (List ChannelNode × β))
    (result' : Option (List (MapNode (Item mif)) × β)) : Prop :=
  Option.Rel (fun r r' => List.Forall₂ Carries r.1 r'.1 ∧ r.2 = r'.2) result result'

section

variable {β γ : Type} {nodes : List ChannelNode} {mapNodes : List (MapNode (Item mif))}

theorem SameResult.mk {b : β} (h : List.Forall₂ Carries nodes mapNodes) :
    SameResult (some (nodes, b)) (some (mapNodes, b)) :=
  Option.Rel.some ⟨h, rfl⟩

theorem SameResult.bind {result : Option (List ChannelNode × β)}
    {result' : Option (List (MapNode (Item mif)) × β)} (h : SameResult result result')
    {f : List ChannelNode × β → Option (List ChannelNode × γ)}
    {f' : List (MapNode (Item mif)) × β → Option (List (MapNode (Item mif)) × γ)}
    (hf : ∀ nodes mapNodes b, List.Forall₂ Carries nodes mapNodes →
      SameResult (f (nodes, b)) (f' (mapNodes, b))) :
    SameResult (result.bind f) (result'.bind f') := by
  cases h with
  | none => exact Option.Rel.none
  | @some r r' hr =>
      obtain ⟨nodes, b⟩ := r
      obtain ⟨mapNodes, b'⟩ := r'
      obtain ⟨hnodes, rfl⟩ := hr
      exact hf nodes mapNodes b hnodes

private theorem SameResult.cons {result : Option (List ChannelNode × β)}
    {result' : Option (List (MapNode (Item mif)) × β)} (h : SameResult result result')
    {node : ChannelNode} {mapNode : MapNode (Item mif)} (hnode : Carries node mapNode) :
    SameResult (result.map fun r => (node :: r.1, r.2))
      (result'.map fun r => (mapNode :: r.1, r.2)) := by
  cases h with
  | none => exact Option.Rel.none
  | some hr => exact Option.Rel.some ⟨List.Forall₂.cons hnode hr.1, hr.2⟩

private theorem pollChannels_same (h : List.Forall₂ Carries nodes mapNodes)
    (bufs : List (List (Item mif))) (leave : Bool) :
    SameResult (pollChannels mif nodes bufs leave) (pollMapNodes mapNodes bufs leave) := by
  induction h generalizing bufs leave with
  | nil => exact SameResult.mk List.Forall₂.nil
  | @cons node mapNode nodes mapNodes hnode hrest ih =>
      rw [pollChannels, pollMapNodes, hnode.excluded]
      cases hexcluded : mapNode.excluded with
      | true => exact (ih bufs leave).cons hnode
      | false =>
          rcases hnode.recv with ⟨hpackets, hrecv⟩ | ⟨p, packets, rest, hpackets, hrecv, hnext⟩
          · simp only [hpackets, hrecv, Bool.false_eq_true, if_false]
            exact Option.Rel.none
          · have hflag : decide (excludeFlag p.exclFlag = excludeFlag true) = p.exclFlag := by
              simp [excludeFlag_eq_true]
            simp only [hpackets, hrecv, Bool.false_eq_true, if_false, ne_eq, decide_not, hflag]
            exact (ih _ _).cons hnext

variable (c : HashComparator (List UInt8))
  (combine : Option (List (Item mif) → List (Item mif)))

private theorem reduceChannelsLoop_same (fuel : Nat) (h : List.Forall₂ Carries nodes mapNodes)
    (bufs : List (List (Item mif))) (all : List (Item mif)) :
    SameResult (reduceChannelsLoop mif c combine fuel nodes bufs all)
      (reduceLoop c ElasticBufItemData.keyHash combine fuel mapNodes bufs all) := by
  induction fuel generalizing nodes mapNodes bufs all with
  | zero => exact Option.Rel.none
  | succ fuel ih =>
      rw [reduceChannelsLoop, reduceLoop]
      refine (pollChannels_same h bufs false).bind fun nodes' mapNodes' r hnodes => ?_
      obtain ⟨bufs', leave⟩ := r
      cases combine with
      | none =>
          cases leave with
          | true => exact ih hnodes bufs' all
          | false => exact SameResult.mk hnodes
      | some f =>
          simp only
          cases mergePreviousAndNew c ElasticBufItemData.keyHash bufs' all with
          | none => exact Option.Rel.none
          | some merged =>
              cases leave with
              | true => exact ih hnodes [] (f merged)
              | false => exact SameResult.mk hnodes

/-- On channels that carry packets the reducer ends exactly when the reducer of packets does, with
the same items for `Reduce` and with channels that carry the packets not read. -/
theorem reduceChannels_same (fuel : Nat) (h : List.Forall₂ Carries nodes mapNodes) :
    SameResult (reduceChannels mif c combine fuel nodes)
      (reduceNodeMain c ElasticBufItemData.keyHash combine fuel mapNodes) := by
  rw [reduceChannels, reduceNodeMain]
  refine (reduceChannelsLoop_same c combine fuel h [] []).bind fun nodes' mapNodes' r hnodes => ?_
  obtain ⟨bufs, all⟩ := r
  cases combine with
  | some f => exact SameResult.mk hnodes
  | none =>
      simp only
      cases mergePreviousAndNew c ElasticBufItemData.keyHash bufs all with
      | none => exact Option.Rel.none
      | some merged => exact SameResult.mk hnodes

end

/-- Hashes compared by their first byte. -/
def firstByteComparator : HashComparator (List UInt8) where
  cmp a b := (a.headD 0).toNat - (b.headD 0).toNat
  total a b := by omega
  trans a b c := by omega

def oneByteItem : MrItem byteHashes := ⟨⟨[1, 2], .data [3], [4]⟩, by decide, by decide, rfl⟩

/-- One mapper, whose two packets were written through a buffer of eight bytes. -/
theorem reduceChannels_same_twoPackets :
    SameResult
      (reduceChannels byteHashes firstByteComparator none 3
        [⟨packet (excludeFlag false) [oneByteItem] ++ packet (excludeFlag true) [oneByteItem],
          false⟩])
      (reduceNodeMain firstByteComparator ElasticBufItemData.keyHash none 3
        [⟨[⟨false, [oneByteItem.1]⟩, ⟨true, [oneByteItem.1]⟩], false⟩]) := by
  have hwrite : ∀ lastData, ∃ bio', writeDataToReduce byteHashes (alloc (List.replicate 8 0))
      [oneByteItem] 0 1 (excludeFlag lastData) =
        some (bio', packet (excludeFlag lastData) [oneByteItem]) := by
    intro lastData
    obtain ⟨bio', hbio, -⟩ := writeDataToReduce_eq (pending_alloc (List.replicate 8 0))
      [oneByteItem] 0 1 (excludeFlag lastData) (by decide)
    exact ⟨bio', hbio⟩
  obtain ⟨bio, hfirst⟩ := hwrite false
  obtain ⟨bio', hsecond⟩ := hwrite true
  have hwritten := Written.packet (pending_alloc _) hfirst
    (Written.packet (pending_alloc _) hsecond Written.done)
  rw [List.append_nil] at hwritten
  have hitems : [oneByteItem].length < 2 ^ 31 ∧ (∀ item ∈ [oneByteItem], item.1.Filled) ∧
      calculateSendingDataSize byteHashes [oneByteItem] < 2 ^ 31 := by decide
  have hsendable : ∀ lastData, Sendable ⟨lastData, [oneByteItem]⟩ :=
    fun _ => ⟨hitems.1, hitems.2.1, .inl hitems.2.2⟩
  refine reduceChannels_same firstByteComparator none 3 (List.Forall₂.cons ⟨rfl, _, hwritten, ?_, rfl⟩
    List.Forall₂.nil)
  intro p hp
  rcases List.mem_cons.mp hp with rfl | hp
  · exact hsendable false
  · rw [List.mem_singleton.mp hp]
    exact hsendable true

end Zrt.MapReduce.Wire
