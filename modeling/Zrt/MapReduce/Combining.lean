import Zrt.Framework.Totals
import Zrt.MapReduce.MapNode
import Zrt.MapReduce.Reducer

/-!
# Combining

`Combine` replaces the items of a sorted buffer, in the mappers before a buffer is sent and in the
reducers after every round. Whatever weight of the items it keeps the total of, mappers and reducers
keep it too.
-/

namespace Zrt.MapReduce

open Zrt.Framework

variable {H I σ M : Type*} [AddCommMonoid M]

/-- What a `Combine` does to a sorted buffer. -/
structure CombineKeeps (c : HashComparator H) (keyHash : I → H) (weigh : I → M)
    (combine : List I → List I) : Prop where
  sorted : ∀ l, SortedByHash c keyHash l → SortedByHash c keyHash (combine l)
  condenses : ∀ l, SortedByHash c keyHash l → Condenses keyHash weigh l (combine l)

section Reducer

variable {c : HashComparator H} {keyHash : I → H} {weigh : I → M}

/-- What the rounds end with when buffers are combined: every packet is read, and the buffers stand
for the items. -/
structure Collected (c : HashComparator H) (keyHash : I → H) (weigh : I → M) (items : List I)
    (count : Nat) (nodes : List (MapNode I)) (bufs : List (List I)) (all : List I) : Prop where
  read : nodes.map MapNode.packets = List.replicate count []
  condenses : Condenses keyHash weigh items (bufs.flatten ++ all)
  sorted : ∀ l ∈ bufs, SortedByHash c keyHash l
  sortedAll : SortedByHash c keyHash all

private theorem CombineKeeps.merged {f : List I → List I} (hf : CombineKeeps c keyHash weigh f)
    {bufs : List (List I)} {all merged rest items : List I}
    (hperm : merged.Perm (bufs.flatten ++ all)) (hsorted : SortedByHash c keyHash merged)
    (hitems : (bufs.flatten ++ all ++ rest).Perm items) :
    Condenses keyHash weigh items (f merged ++ rest) := by
  have hfirst : Condenses keyHash weigh items (merged ++ rest) :=
    Condenses.of_perm ((hperm.append_right rest).trans hitems)
  exact hfirst.trans ((hf.condenses merged hsorted).append (Condenses.refl rest))

private theorem reduceLoop_collected (combine : Option (List I → List I))
    (hkeeps : ∀ f ∈ combine, CombineKeeps c keyHash weigh f) (fuel : Nat)
    (nodes : List (MapNode I)) (bufs : List (List I)) (all : List I)
    (h : ∀ node ∈ nodes, node.Expected c keyHash)
    (hsorted : ∀ l ∈ bufs, SortedByHash c keyHash l) (hall : SortedByHash c keyHash all)
    (hfuel : unreadCount nodes < fuel) :
    ∃ nodes' bufs' all', reduceLoop c keyHash combine fuel nodes bufs all =
        some (nodes', bufs', all') ∧
      (combine.isSome → bufs' = []) ∧
      Collected c keyHash weigh (bufs.flatten ++ all ++ unreadItems nodes) nodes.length nodes'
        bufs' all' := by
  induction fuel generalizing nodes bufs all with
  | zero => omega
  | succ fuel ih =>
      obtain ⟨nodes', bufs', leave, hpoll, hp⟩ := pollMapNodes_polled nodes bufs false h
      have hitems := hp.items_beside all
      have hfewer : leave = true → unreadCount nodes' < fuel := by
        intro hleave
        rcases hp.progress hleave with hfalse | hlt
        · cases hfalse
        · omega
      cases combine with
      | none =>
          cases leave with
          | true =>
              obtain ⟨nodes'', bufs'', all'', hloop, hnone, hcol⟩ :=
                ih nodes' bufs' all hp.expected (hp.sorted hsorted) hall (hfewer rfl)
              refine ⟨nodes'', bufs'', all'', by simp [reduceLoop, hpoll, hloop], by simp, ?_⟩
              exact ⟨hp.length ▸ hcol.read, (Condenses.of_perm hitems).trans hcol.condenses,
                hcol.sorted, hcol.sortedAll⟩
          | false =>
              obtain ⟨hread, hunread⟩ := packets_of_excluded nodes' hp.expected (hp.done rfl)
              refine ⟨nodes', bufs', all, by simp [reduceLoop, hpoll], by simp, ?_⟩
              refine ⟨hp.length ▸ hread, Condenses.of_perm ?_, hp.sorted hsorted, hall⟩
              rwa [hunread, List.append_nil] at hitems
      | some f =>
          obtain ⟨merged, hmerge, hperm, hms⟩ := mergePreviousAndNew_spec c keyHash bufs' all
          have hf : CombineKeeps c keyHash weigh f := hkeeps f rfl
          have hmerged := hms (hp.sorted hsorted) hall
          have hround := hf.merged hperm hmerged hitems
          cases leave with
          | true =>
              obtain ⟨nodes'', bufs'', all'', hloop, hnone, hcol⟩ :=
                ih nodes' [] (f merged) hp.expected (by simp) (hf.sorted merged hmerged)
                  (hfewer rfl)
              refine ⟨nodes'', bufs'', all'', by simp [reduceLoop, hpoll, hmerge, hloop], hnone, ?_⟩
              refine ⟨hp.length ▸ hcol.read, hround.trans ?_, hcol.sorted, hcol.sortedAll⟩
              simpa using hcol.condenses
          | false =>
              obtain ⟨hread, hunread⟩ := packets_of_excluded nodes' hp.expected (hp.done rfl)
              refine ⟨nodes', [], f merged, by simp [reduceLoop, hpoll, hmerge], fun _ => rfl, ?_⟩
              refine ⟨hp.length ▸ hread, ?_, by simp, hf.sorted merged hmerged⟩
              simpa [hunread] using hround

/-- The reducer read all packets and hands `Reduce` sorted items that stand for theirs. -/
structure ReducedTo (c : HashComparator H) (keyHash : I → H) (weigh : I → M)
    (mappers : List (List (MapPacket I))) (result : Option (List (MapNode I) × List I))
    (out : List I) : Prop where
  ended : ∃ nodes, result = some (nodes, out) ∧
    nodes.map MapNode.packets = List.replicate mappers.length []
  sorted : SortedByHash c keyHash out
  condenses : Condenses keyHash weigh
    (mappers.flatMap fun packets => packets.flatMap MapPacket.items) out

theorem reduceNodeMain_reducedTo (combine : Option (List I → List I))
    (hkeeps : ∀ f ∈ combine, CombineKeeps c keyHash weigh f) (mappers : List (List (MapPacket I)))
    (hflag : ∀ packets ∈ mappers, FlaggedLast packets)
    (hsorted : ∀ packets ∈ mappers, ∀ p ∈ packets, SortedByHash c keyHash p.items)
    (fuel : Nat) (hfuel : (mappers.map List.length).sum < fuel) :
    ∃ out, ReducedTo c keyHash weigh mappers
      (reduceNodeMain c keyHash combine fuel (startNodes mappers)) out := by
  have hexp : ∀ node ∈ startNodes mappers, node.Expected c keyHash := by
    intro node hnode
    obtain ⟨packets, hp, rfl⟩ := List.mem_map.mp hnode
    exact ⟨by simpa using hflag packets hp, hsorted packets hp⟩
  have hcount : unreadCount (startNodes mappers) < fuel := by
    simpa [unreadCount, startNodes, Function.comp_def] using hfuel
  obtain ⟨nodes, bufs, all, hloop, hnone, hcol⟩ := reduceLoop_collected combine hkeeps fuel
    (startNodes mappers) [] [] hexp (by simp) List.Pairwise.nil hcount
  have hread : nodes.map MapNode.packets = List.replicate mappers.length [] := by
    simpa [startNodes] using hcol.read
  have hall : Condenses keyHash weigh
      (mappers.flatMap fun packets => packets.flatMap MapPacket.items) (bufs.flatten ++ all) := by
    simpa [unreadItems, startNodes, List.flatMap_map] using hcol.condenses
  cases combine with
  | none =>
      obtain ⟨merged, hmerge, hperm, hms⟩ := mergePreviousAndNew_spec c keyHash bufs all
      exact ⟨merged, ⟨nodes, by simp [reduceNodeMain, hloop, hmerge], hread⟩,
        hms hcol.sorted hcol.sortedAll, hall.trans (Condenses.of_perm hperm)⟩
  | some f =>
      have hempty : bufs = [] := hnone rfl
      subst bufs
      exact ⟨all, ⟨nodes, by simp [reduceNodeMain, hloop], hread⟩, hcol.sortedAll,
        by simpa using hall⟩

end Reducer

section Mapper

variable {mif : MapReduceUserIf H I σ} {weigh : I → M}

/-- What the library relies on in the user's functions: the item comparator is an order by hash
first, and `Combine` keeps totals. -/
structure UserContract (mif : MapReduceUserIf H I σ) (weigh : I → M) : Prop where
  total : ∀ x y, mif.comparatorMrItem x y ≤ 0 ∨ mif.comparatorMrItem y x ≤ 0
  trans : ∀ x y z, mif.comparatorMrItem x y ≤ 0 → mif.comparatorMrItem y z ≤ 0 →
    mif.comparatorMrItem x z ≤ 0
  byHash : ∀ x y, mif.comparatorMrItem x y ≤ 0 →
    mif.comparatorHash.cmp (mif.keyHash x) (mif.keyHash y) ≤ 0
  combine : ∀ f ∈ mif.combine, CombineKeeps mif.comparatorHash mif.keyHash weigh f

private theorem UserContract.localSort_sorted (h : UserContract mif weigh) (items : List I) :
    SortedByHash mif.comparatorHash mif.keyHash (localSort mif items) := by
  have htotal : Std.Total fun x y => mif.comparatorMrItem x y ≤ 0 := ⟨h.total⟩
  have htrans : IsTrans I fun x y => mif.comparatorMrItem x y ≤ 0 := ⟨h.trans⟩
  have hsorted := List.pairwise_insertionSort (fun x y => mif.comparatorMrItem x y ≤ 0) items
  exact hsorted.imp fun hle => h.byHash _ _ hle

theorem UserContract.localProcessing (h : UserContract mif weigh) (s : σ) (buf : List UInt8)
    (lastChunk : Bool) :
    SortedByHash mif.comparatorHash mif.keyHash
        (mapInputDataLocalProcessing mif s buf lastChunk).2.1 ∧
      Condenses mif.keyHash weigh (mif.map s buf lastChunk).2.1
        (mapInputDataLocalProcessing mif s buf lastChunk).2.1 := by
  have hsorted := h.localSort_sorted (mif.map s buf lastChunk).2.1
  have hperm : (localSort mif (mif.map s buf lastChunk).2.1).Perm (mif.map s buf lastChunk).2.1 :=
    List.perm_insertionSort _ _
  cases hcombine : mif.combine with
  | none =>
      simp only [mapInputDataLocalProcessing, hcombine]
      exact ⟨hsorted, Condenses.of_perm hperm⟩
  | some f =>
      have hf := h.combine f hcombine
      simp only [mapInputDataLocalProcessing, hcombine]
      exact ⟨hf.sorted _ hsorted, (Condenses.of_perm hperm).trans (hf.condenses _ hsorted)⟩

/-- Without `Combine` any weight will do. -/
theorem UserContract.reweigh {N : Type*} [AddCommMonoid N] (h : UserContract mif weigh)
    (hnone : mif.combine = none) (weigh' : I → N) : UserContract mif weigh' where
  total := h.total
  trans := h.trans
  byHash := h.byHash
  combine := by simp [hnone]

end Mapper

end Zrt.MapReduce
