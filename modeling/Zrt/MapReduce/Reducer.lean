import Mathlib.Data.List.Basic
import Mathlib.Data.List.Perm.Basic
import Zrt.Framework.KWayMerge
import Zrt.MapReduce.Dividers

/-!
# Reducer

`ReduceNodeMain` reads one packet of every mapper that has not sent its last one, round after round.
With a `Combine` function it merges and combines after every round, without one it merges once at
the end.
-/

namespace Zrt.MapReduce

open Zrt.Framework

variable {H I : Type*}

/-- A packet of a mapper as `RecvDataFromSingleMap` decodes it. -/
structure MapPacket (I : Type*) where
  exclFlag : Bool
  items : List I

/-- A mapper seen from the reducer: the packets it has not read, and `excluded_map_nodes`. -/
structure MapNode (I : Type*) where
  packets : List (MapPacket I)
  excluded : Bool

/-- `HASH_CMP` on the hashes of two items. -/
def HashComparator.leOn (c : HashComparator H) (keyHash : I → H) (x y : I) : Bool :=
  c.le (keyHash x) (keyHash y)

/-- Merge sorted buffers; each is represented by its items from its merge position on. -/
def mergeBuffersToNew (c : HashComparator H) (keyHash : I → H) (sourceArrays : List (List I)) :
    Option (List I) :=
  let allItemsCount := (sourceArrays.map List.length).sum
  mergeLists (c.leOn keyHash) allItemsCount sourceArrays

/-- One pass over the mappers: the mappers after it, the buffers received and `leave_map_nodes`. A
read from a mapper that sends nothing more never returns. -/
def pollMapNodes : List (MapNode I) → List (List I) → Bool →
    Option (List (MapNode I) × List (List I) × Bool)
  | [], mergeBuffers, leaveMapNodes => some ([], mergeBuffers, leaveMapNodes)
  | node :: nodes, mergeBuffers, leaveMapNodes =>
      if node.excluded then
        (pollMapNodes nodes mergeBuffers leaveMapNodes).map fun r => (node :: r.1, r.2)
      else
        match node.packets with
        | [] => none
        | p :: packets =>
            (pollMapNodes nodes (mergeBuffers ++ [p.items])
              (leaveMapNodes || !p.exclFlag)).map fun r => (⟨packets, p.exclFlag⟩ :: r.1, r.2)

/-- The macro `MERGE_PREVIOUS_AND_NEW`: the previous result is merged as the last buffer. -/
def mergePreviousAndNew (c : HashComparator H) (keyHash : I → H) (mergeBuffers : List (List I))
    (prevbuf : List I) : Option (List I) :=
  mergeBuffersToNew c keyHash (mergeBuffers ++ [prevbuf])

/-- The loop over the rounds, with the mappers, the buffers to merge and the buffer `all`. -/
def reduceLoop (c : HashComparator H) (keyHash : I → H) (combine : Option (List I → List I)) :
    Nat → List (MapNode I) → List (List I) → List I →
      Option (List (MapNode I) × List (List I) × List I)
  | 0, _, _, _ => none
  | fuel + 1, nodes, mergeBuffers, all =>
      (pollMapNodes nodes mergeBuffers false).bind fun (nodes, mergeBuffers, leaveMapNodes) =>
        match combine with
        | some combine =>
            (mergePreviousAndNew c keyHash mergeBuffers all).bind fun merged =>
              if leaveMapNodes then reduceLoop c keyHash (some combine) fuel nodes [] (combine merged)
              else some (nodes, [], combine merged)
        | none =>
            if leaveMapNodes then reduceLoop c keyHash none fuel nodes mergeBuffers all
            else some (nodes, mergeBuffers, all)

/-- The mappers at the end and the buffer passed to `Reduce`. -/
def reduceNodeMain (c : HashComparator H) (keyHash : I → H) (combine : Option (List I → List I))
    (fuel : Nat) (nodes : List (MapNode I)) : Option (List (MapNode I) × List I) :=
  (reduceLoop c keyHash combine fuel nodes [] []).bind fun (nodes, mergeBuffers, all) =>
    match combine with
    | some _ => some (nodes, all)
    | none => (mergePreviousAndNew c keyHash mergeBuffers all).map fun merged => (nodes, merged)

def SortedByHash (c : HashComparator H) (keyHash : I → H) (items : List I) : Prop :=
  items.Pairwise fun x y => c.cmp (keyHash x) (keyHash y) ≤ 0

instance (c : HashComparator H) (keyHash : I → H) (items : List I) :
    Decidable (SortedByHash c keyHash items) :=
  inferInstanceAs (Decidable (items.Pairwise fun x y => c.cmp (keyHash x) (keyHash y) ≤ 0))

theorem sortedByHash_iff (c : HashComparator H) (keyHash : I → H) (items : List I) :
    SortedByHash c keyHash items ↔ items.Pairwise fun x y => c.leOn keyHash x y := by
  simp only [SortedByHash, HashComparator.leOn, HashComparator.le, decide_eq_true_eq]

theorem mergeBuffersToNew_spec (c : HashComparator H) (keyHash : I → H)
    (sourceArrays : List (List I)) :
    ∃ dest, mergeBuffersToNew c keyHash sourceArrays = some dest ∧
      dest.Perm sourceArrays.flatten ∧
      ((∀ l ∈ sourceArrays, SortedByHash c keyHash l) → SortedByHash c keyHash dest) := by
  have htotal : ∀ x y, c.leOn keyHash x y || c.leOn keyHash y x := fun _ _ => c.le_total _ _
  have htrans : ∀ x y z, c.leOn keyHash x y → c.leOn keyHash y z → c.leOn keyHash x z :=
    fun _ _ _ => c.le_trans _ _ _
  obtain ⟨dest, hdest, hperm, hsorted⟩ :=
    mergeLists_spec htotal htrans _ sourceArrays (Nat.le_refl _)
  refine ⟨dest, hdest, hperm, fun hall => ?_⟩
  simp only [sortedByHash_iff] at hall ⊢
  exact hsorted hall

/-- A merge of sorted buffers: sorted, with the items of all buffers, those of one buffer in their
order. -/
structure MergedInOrder (c : HashComparator H) (keyHash : I → H) (sourceArrays : List (List I))
    (dest : List I) : Prop where
  sorted : SortedByHash c keyHash dest
  perm : dest.Perm sourceArrays.flatten
  stable : ∃ origins : List Nat, origins.length = dest.length ∧
    ∀ i, itemsFrom origins dest i = sourceArrays.getD i []

/-- Sorted buffers, any number of them and empty ones among them, are merged in order. -/
theorem mergeBuffersToNew_mergedInOrder (c : HashComparator H) (keyHash : I → H)
    (sourceArrays : List (List I)) (hsorted : ∀ l ∈ sourceArrays, SortedByHash c keyHash l) :
    ∃ dest, mergeBuffersToNew c keyHash sourceArrays = some dest ∧
      MergedInOrder c keyHash sourceArrays dest := by
  obtain ⟨dest, hdest, hperm, hkeeps⟩ := mergeBuffersToNew_spec c keyHash sourceArrays
  have htotal : ∀ x y, c.leOn keyHash x y || c.leOn keyHash y x := fun _ _ => c.le_total _ _
  have htrans : ∀ x y z, c.leOn keyHash x y → c.leOn keyHash y z → c.leOn keyHash x z :=
    fun _ _ _ => c.le_trans _ _ _
  have hinterleaves := mergeLists_interleaves htotal htrans _ sourceArrays dest hdest
  exact ⟨dest, hdest, hkeeps hsorted, hperm, hinterleaves.exists_origins⟩

/-- Three sources, one of them empty, with an item of equal hash in two of them. -/
theorem mergeBuffersToNew_mergedInOrder_bytes :
    ∃ dest, mergeBuffersToNew byteComparator id [[1, 3], [], [2, 3, 5]] = some dest ∧
      MergedInOrder byteComparator id [[1, 3], [], [2, 3, 5]] dest :=
  mergeBuffersToNew_mergedInOrder byteComparator id [[1, 3], [], [2, 3, 5]] (by decide)

/-- A mapper's packets, none but the last one flagged. -/
def FlaggedLast : List (MapPacket I) → Prop
  | [] => False
  | [p] => p.exclFlag = true
  | p :: q :: packets => p.exclFlag = false ∧ FlaggedLast (q :: packets)

/-- What the reducer may expect of a mapper: nothing more, or packets up to a flagged one; the
items of each packet sorted. -/
structure MapNode.Expected (c : HashComparator H) (keyHash : I → H) (node : MapNode I) : Prop where
  flagged : if node.excluded then node.packets = [] else FlaggedLast node.packets
  sorted : ∀ p ∈ node.packets, SortedByHash c keyHash p.items

/-- The items of all packets not read yet, and the number of these packets. -/
def unreadItems (nodes : List (MapNode I)) : List I :=
  nodes.flatMap fun node => node.packets.flatMap MapPacket.items

def unreadCount (nodes : List (MapNode I)) : Nat :=
  (nodes.map fun node => node.packets.length).sum

variable {c : HashComparator H} {keyHash : I → H}

private theorem MapNode.Expected.next {p : MapPacket I} {packets : List (MapPacket I)}
    (h : MapNode.Expected c keyHash ⟨p :: packets, false⟩) :
    MapNode.Expected c keyHash ⟨packets, p.exclFlag⟩ := by
  have hflag : FlaggedLast (p :: packets) := by simpa using h.flagged
  refine ⟨?_, fun q hq => h.sorted q (List.mem_cons_of_mem p hq)⟩
  cases packets with
  | nil => simp [FlaggedLast] at hflag; simp [hflag]
  | cons q packets => simp [hflag.1, hflag.2]

/-- What a pass over the mappers does. -/
structure Polled (c : HashComparator H) (keyHash : I → H) (nodes : List (MapNode I))
    (mergeBuffers : List (List I)) (leave : Bool) (nodes' : List (MapNode I))
    (mergeBuffers' : List (List I)) (leave' : Bool) : Prop where
  length : nodes'.length = nodes.length
  expected : ∀ node ∈ nodes', node.Expected c keyHash
  items : (mergeBuffers'.flatten ++ unreadItems nodes').Perm
    (mergeBuffers.flatten ++ unreadItems nodes)
  sorted : (∀ l ∈ mergeBuffers, SortedByHash c keyHash l) →
    ∀ l ∈ mergeBuffers', SortedByHash c keyHash l
  kept : leave = true → leave' = true
  done : leave' = false → ∀ node ∈ nodes', node.excluded = true
  count : unreadCount nodes' ≤ unreadCount nodes
  progress : leave' = true → leave = true ∨ unreadCount nodes' < unreadCount nodes

section

variable {nodes nodes' : List (MapNode I)} {bufs bufs' : List (List I)} {leave leave' : Bool}

private theorem Polled.skip (hp : Polled c keyHash nodes bufs leave nodes' bufs' leave')
    (hnode : MapNode.Expected c keyHash ⟨[], true⟩) :
    Polled c keyHash (⟨[], true⟩ :: nodes) bufs leave (⟨[], true⟩ :: nodes') bufs' leave' where
  length := by simp [hp.length]
  expected := by simpa using ⟨hnode, hp.expected⟩
  items := by simpa [unreadItems] using hp.items
  sorted := hp.sorted
  kept := hp.kept
  done := by simpa using hp.done
  count := by simpa [unreadCount] using hp.count
  progress := by simpa [unreadCount] using hp.progress

private theorem Polled.read {p : MapPacket I} {packets : List (MapPacket I)}
    (hp : Polled c keyHash nodes (bufs ++ [p.items]) (leave || !p.exclFlag) nodes' bufs' leave')
    (hnode : MapNode.Expected c keyHash ⟨p :: packets, false⟩) :
    Polled c keyHash (⟨p :: packets, false⟩ :: nodes) bufs leave
      (⟨packets, p.exclFlag⟩ :: nodes') bufs' leave' where
  length := by simp [hp.length]
  expected := by simpa using ⟨hnode.next, hp.expected⟩
  items := by
    have hitems := hp.items.append_left (packets.flatMap MapPacket.items)
    simp only [List.flatten_append, List.flatten_singleton, List.append_assoc] at hitems
    simp only [unreadItems, List.flatMap_cons, List.append_assoc]
    refine (List.perm_append_comm_assoc _ _ _).trans (hitems.trans ?_)
    refine (List.perm_append_comm_assoc _ _ _).trans ?_
    exact (List.perm_append_comm_assoc _ _ _).append_left _
  sorted := by
    intro hs
    refine hp.sorted fun l hl => ?_
    rcases List.mem_append.mp hl with hl | hl
    · exact hs l hl
    · rw [List.mem_singleton.mp hl]
      exact hnode.sorted p (by simp)
  kept := fun hleave => hp.kept (by simp [hleave])
  done := by
    intro hleave node hmem
    rcases List.mem_cons.mp hmem with rfl | hmem
    · -- a packet without the flag would have kept the loop going
      cases hflag : p.exclFlag with
      | true => rfl
      | false =>
          have hkept := hp.kept (by simp [hflag])
          rw [hleave] at hkept
          cases hkept
    · exact hp.done hleave node hmem
  count := by
    have hcount := hp.count
    simp only [unreadCount, List.map_cons, List.sum_cons, List.length_cons] at hcount ⊢
    omega
  progress := by
    intro _
    have hcount := hp.count
    simp only [unreadCount, List.map_cons, List.sum_cons, List.length_cons] at hcount ⊢
    omega

/-- A pass moves items from the mappers to the buffers, whatever else has been merged before. -/
theorem Polled.items_beside (hp : Polled c keyHash nodes bufs leave nodes' bufs' leave')
    (prev : List I) :
    (bufs'.flatten ++ prev ++ unreadItems nodes').Perm
      (bufs.flatten ++ prev ++ unreadItems nodes) := by
  have hmove : ∀ x y : List I, (x ++ prev ++ y).Perm (prev ++ (x ++ y)) := by
    intro x y
    rw [List.append_assoc]
    exact List.perm_append_comm_assoc _ _ _
  exact (hmove _ _).trans ((hp.items.append_left prev).trans (hmove _ _).symm)

end

/-- No mapper is waited for in vain. -/
theorem pollMapNodes_polled (nodes : List (MapNode I)) (bufs : List (List I)) (leave : Bool)
    (h : ∀ node ∈ nodes, node.Expected c keyHash) :
    ∃ nodes' bufs' leave', pollMapNodes nodes bufs leave = some (nodes', bufs', leave') ∧
      Polled c keyHash nodes bufs leave nodes' bufs' leave' := by
  induction nodes generalizing bufs leave with
  | nil =>
      exact ⟨[], bufs, leave, rfl, rfl, by simp, List.Perm.refl _, id, id, by simp,
        Nat.le_refl _, Or.inl⟩
  | cons node nodes ih =>
      have hnode := h node (by simp)
      have hnodes : ∀ x ∈ nodes, x.Expected c keyHash := fun x hx => h x (by simp [hx])
      obtain ⟨packets, excluded⟩ := node
      cases excluded with
      | true =>
          obtain ⟨nodes', bufs', leave', hpoll, hp⟩ := ih bufs leave hnodes
          have hempty : packets = [] := by simpa using hnode.flagged
          subst packets
          exact ⟨⟨[], true⟩ :: nodes', bufs', leave', by simp [pollMapNodes, hpoll],
            hp.skip hnode⟩
      | false =>
          cases packets with
          | nil => exact absurd hnode.flagged (by simp [FlaggedLast])
          | cons p packets =>
              obtain ⟨nodes', bufs', leave', hpoll, hp⟩ :=
                ih (bufs ++ [p.items]) (leave || !p.exclFlag) hnodes
              exact ⟨⟨packets, p.exclFlag⟩ :: nodes', bufs', leave',
                by simp [pollMapNodes, hpoll], hp.read hnode⟩

theorem mergePreviousAndNew_spec (c : HashComparator H) (keyHash : I → H) (bufs : List (List I))
    (prevbuf : List I) :
    ∃ merged, mergePreviousAndNew c keyHash bufs prevbuf = some merged ∧
      merged.Perm (bufs.flatten ++ prevbuf) ∧
      ((∀ l ∈ bufs, SortedByHash c keyHash l) → SortedByHash c keyHash prevbuf →
        SortedByHash c keyHash merged) := by
  obtain ⟨merged, hmerged, hperm, hsorted⟩ :=
    mergeBuffersToNew_spec c keyHash (bufs ++ [prevbuf])
  refine ⟨merged, hmerged, by simpa using hperm, fun hbufs hprev => hsorted ?_⟩
  intro l hl
  rcases List.mem_append.mp hl with hl | hl
  · exact hbufs l hl
  · rw [List.mem_singleton.mp hl]
    exact hprev

/-- What the loop ends with: every packet is read, and its items are in the buffers. -/
structure Received (c : HashComparator H) (keyHash : I → H) (items : List I) (count : Nat)
    (nodes : List (MapNode I)) (bufs : List (List I)) (all : List I) : Prop where
  read : nodes.map MapNode.packets = List.replicate count []
  items : (bufs.flatten ++ all).Perm items
  sorted : ∀ l ∈ bufs, SortedByHash c keyHash l
  sortedAll : SortedByHash c keyHash all

theorem packets_of_excluded (nodes : List (MapNode I))
    (h : ∀ node ∈ nodes, node.Expected c keyHash)
    (hdone : ∀ node ∈ nodes, node.excluded = true) :
    nodes.map MapNode.packets = List.replicate nodes.length [] ∧ unreadItems nodes = [] := by
  have hempty : ∀ node ∈ nodes, node.packets = [] := by
    intro node hmem
    have hflag := (h node hmem).flagged
    simpa [hdone node hmem] using hflag
  constructor
  · rw [List.eq_replicate_iff]
    simpa using hempty
  · simp only [unreadItems, List.flatMap_eq_nil_iff]
    intro node hmem
    simp [hempty node hmem]

private theorem reduceLoop_received (combine : Option (List I → List I))
    (hcopy : ∀ f ∈ combine, ∀ l, f l = l) (fuel : Nat) (nodes : List (MapNode I))
    (bufs : List (List I)) (all : List I) (h : ∀ node ∈ nodes, node.Expected c keyHash)
    (hsorted : ∀ l ∈ bufs, SortedByHash c keyHash l) (hall : SortedByHash c keyHash all)
    (hfuel : unreadCount nodes < fuel) :
    ∃ nodes' bufs' all', reduceLoop c keyHash combine fuel nodes bufs all =
        some (nodes', bufs', all') ∧
      (combine.isSome → bufs' = []) ∧
      Received c keyHash (bufs.flatten ++ all ++ unreadItems nodes) nodes.length nodes' bufs'
        all' := by
  induction fuel generalizing nodes bufs all with
  | zero => omega
  | succ fuel ih =>
      obtain ⟨nodes', bufs', leave, hpoll, hp⟩ := pollMapNodes_polled nodes bufs false h
      have hitems := hp.items_beside all
      have hfewer : leave = true → unreadCount nodes' < fuel := by
        intro hleave
        rcases hp.progress hleave with hfalse | hlt
        · cases hfalse
        · omega
      cases combine with
      | none =>
          cases leave with
          | true =>
              obtain ⟨nodes'', bufs'', all'', hloop, hnone, hrec⟩ :=
                ih nodes' bufs' all hp.expected (hp.sorted hsorted) hall (hfewer rfl)
              refine ⟨nodes'', bufs'', all'', by simp [reduceLoop, hpoll, hloop], by simp, ?_⟩
              exact ⟨hp.length ▸ hrec.read, hrec.items.trans hitems, hrec.sorted,
                hrec.sortedAll⟩
          | false =>
              obtain ⟨hread, hunread⟩ := packets_of_excluded nodes' hp.expected (hp.done rfl)
              refine ⟨nodes', bufs', all, by simp [reduceLoop, hpoll], by simp, ?_⟩
              refine ⟨hp.length ▸ hread, ?_, hp.sorted hsorted, hall⟩
              rwa [hunread, List.append_nil] at hitems
      | some f =>
          obtain ⟨merged, hmerge, hperm, hms⟩ := mergePreviousAndNew_spec c keyHash bufs' all
          have hf : f merged = merged := hcopy f rfl merged
          have hmerged := hms (hp.sorted hsorted) hall
          have htotal : (merged ++ unreadItems nodes').Perm
              (bufs.flatten ++ all ++ unreadItems nodes) :=
            (hperm.append_right _).trans hitems
          cases leave with
          | true =>
              obtain ⟨nodes'', bufs'', all'', hloop, hnone, hrec⟩ :=
                ih nodes' [] merged hp.expected (by simp) hmerged (hfewer rfl)
              refine ⟨nodes'', bufs'', all'',
                by simp [reduceLoop, hpoll, hmerge, hf, hloop], hnone, ?_⟩
              refine ⟨hp.length ▸ hrec.read, hrec.items.trans ?_, hrec.sorted, hrec.sortedAll⟩
              simpa using htotal
          | false =>
              obtain ⟨hread, hunread⟩ := packets_of_excluded nodes' hp.expected (hp.done rfl)
              refine ⟨nodes', [], merged, by simp [reduceLoop, hpoll, hmerge, hf], fun _ => rfl,
                ?_⟩
              refine ⟨hp.length ▸ hread, ?_, by simp, hmerged⟩
              simpa [hunread] using htotal

/-- The mappers before the first round. -/
def startNodes (mappers : List (List (MapPacket I))) : List (MapNode I) :=
  mappers.map fun packets => ⟨packets, false⟩

/-- The reducer ended after reading all packets, with their items in order. -/
def ReducedAll (c : HashComparator H) (keyHash : I → H) (mappers : List (List (MapPacket I)))
    (result : Option (List (MapNode I) × List I)) (out : List I) : Prop :=
  ∃ nodes, result = some (nodes, out) ∧
    nodes.map MapNode.packets = List.replicate mappers.length [] ∧
    out.Perm (mappers.flatMap fun packets => packets.flatMap MapPacket.items) ∧
    SortedByHash c keyHash out

private theorem reduceNodeMain_reducedAll (combine : Option (List I → List I))
    (hcopy : ∀ f ∈ combine, ∀ l, f l = l) (mappers : List (List (MapPacket I)))
    (hflag : ∀ packets ∈ mappers, FlaggedLast packets)
    (hsorted : ∀ packets ∈ mappers, ∀ p ∈ packets, SortedByHash c keyHash p.items)
    (fuel : Nat) (hfuel : (mappers.map List.length).sum < fuel) :
    ∃ out, ReducedAll c keyHash mappers
      (reduceNodeMain c keyHash combine fuel (startNodes mappers)) out := by
  have hexp : ∀ node ∈ startNodes mappers, node.Expected c keyHash := by
    intro node hnode
    obtain ⟨packets, hp, rfl⟩ := List.mem_map.mp hnode
    exact ⟨by simpa using hflag packets hp, hsorted packets hp⟩
  have hcount : unreadCount (startNodes mappers) < fuel := by
    simpa [unreadCount, startNodes, Function.comp_def] using hfuel
  obtain ⟨nodes, bufs, all, hloop, hnone, hrec⟩ := reduceLoop_received combine hcopy fuel
    (startNodes mappers) [] [] hexp (by simp) List.Pairwise.nil hcount
  have hread : nodes.map MapNode.packets = List.replicate mappers.length [] := by
    simpa [startNodes] using hrec.read
  have hitems : (bufs.flatten ++ all).Perm
      (mappers.flatMap fun packets => packets.flatMap MapPacket.items) := by
    simpa [unreadItems, startNodes, List.flatMap_map] using hrec.items
  cases combine with
  | none =>
      obtain ⟨merged, hmerge, hperm, hms⟩ := mergePreviousAndNew_spec c keyHash bufs all
      exact ⟨merged, nodes, by simp [reduceNodeMain, hloop, hmerge], hread, hperm.trans hitems,
        hms hrec.sorted hrec.sortedAll⟩
  | some f =>
      have hempty : bufs = [] := hnone rfl
      subst bufs
      exact ⟨all, nodes, by simp [reduceNodeMain, hloop], hread, by simpa using hitems,
        hrec.sortedAll⟩

/-- Without `Combine` and with a `Combine` that copies, the reducer reads every packet once and
passes all their items to `Reduce` in order of their hashes; the two results differ in the order of
items at most. -/
theorem reduceNodeMain_loses_nothing (c : HashComparator H) (keyHash : I → H)
    (copy : List I → List I) (hcopy : ∀ l, copy l = l) (mappers : List (List (MapPacket I)))
    (hflag : ∀ packets ∈ mappers, FlaggedLast packets)
    (hsorted : ∀ packets ∈ mappers, ∀ p ∈ packets, SortedByHash c keyHash p.items)
    (fuel : Nat) (hfuel : (mappers.map List.length).sum < fuel) :
    ∃ once incremental,
      ReducedAll c keyHash mappers
        (reduceNodeMain c keyHash none fuel (startNodes mappers)) once ∧
      ReducedAll c keyHash mappers
        (reduceNodeMain c keyHash (some copy) fuel (startNodes mappers)) incremental ∧
      once.Perm incremental := by
  obtain ⟨once, honce⟩ :=
    reduceNodeMain_reducedAll none (by simp) mappers hflag hsorted fuel hfuel
  obtain ⟨incremental, hinc⟩ :=
    reduceNodeMain_reducedAll (some copy) (by simpa using hcopy) mappers hflag hsorted fuel hfuel
  refine ⟨once, incremental, honce, hinc, ?_⟩
  obtain ⟨-, -, -, hperm, -⟩ := honce
  obtain ⟨-, -, -, hperm', -⟩ := hinc
  exact hperm.trans hperm'.symm

/-- Two mappers that finish in different rounds, with an empty packet and equal hashes. -/
theorem reduceNodeMain_loses_nothing_bytes :
    ∃ once incremental : List (Fin 256),
      ReducedAll byteComparator id
        [[⟨false, [3, 9]⟩, ⟨false, []⟩, ⟨true, [4]⟩], [⟨true, [3, 200]⟩]]
        (reduceNodeMain byteComparator id none 5
          (startNodes [[⟨false, [3, 9]⟩, ⟨false, []⟩, ⟨true, [4]⟩], [⟨true, [3, 200]⟩]]))
        once ∧
      ReducedAll byteComparator id
        [[⟨false, [3, 9]⟩, ⟨false, []⟩, ⟨true, [4]⟩], [⟨true, [3, 200]⟩]]
        (reduceNodeMain byteComparator id (some id) 5
          (startNodes [[⟨false, [3, 9]⟩, ⟨false, []⟩, ⟨true, [4]⟩], [⟨true, [3, 200]⟩]]))
        incremental ∧
      once.Perm incremental :=
  reduceNodeMain_loses_nothing byteComparator id id (fun _ => rfl)
    [[⟨false, [3, 9]⟩, ⟨false, []⟩, ⟨true, [4]⟩], [⟨true, [3, 200]⟩]]
    (by simp [FlaggedLast]) (by decide) 5 (by decide)

end Zrt.MapReduce
