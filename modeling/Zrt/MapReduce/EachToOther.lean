import Mathlib.Data.List.FinRange
import Mathlib.Data.List.OfFn
import Zrt.Framework.Network
import Zrt.MapReduce.Dividers

/-!
# Histogram exchange

All mappers run the same pattern over the same list of nodes: at its own turn a mapper sends its
histogram to all the others, at the turn of another mapper it waits for the histogram of that one.
No schedule deadlocks, and at the end all of them compute the same dividers.
-/

namespace Zrt.MapReduce

open Zrt.Framework

variable {H : Type*} {n : Nat}

/-- The calls of the read and write callbacks that one node makes. Nodes are named by their index in
the list, which is also what the callbacks are given. -/
def startEachToOtherCommunication (nodesList : Fin n → Nat) (ownnodeid : Nat) :
    List (CommAction (Fin n)) :=
  (List.finRange n).flatMap fun i =>
    (if nodesList i = ownnodeid then
        ((List.finRange n).filter fun j => nodesList j ≠ ownnodeid).map CommAction.send
      else []) ++
    if nodesList i ≠ ownnodeid then [CommAction.recv i] else []

structure Mapper (H : Type*) where
  ownnodeid : Nat
  histogramsList : List (Histogram H)

/-- The own histogram, whose index must be inside the array. -/
def writeHistogramToNode (m : Mapper H) (_index : Fin n) : Option (Histogram H) :=
  m.histogramsList[m.ownnodeid - 1]?

/-- Store a received histogram. Its place must be inside the array and hold no hash yet. -/
def readHistogramFromNode (m : Mapper H) (index : Fin n) (temp : Histogram H) :
    Option (Mapper H) :=
  match m.histogramsList[index.val]? with
  | none => none
  | some histogram =>
      if histogram.hashes.isEmpty then
        some { m with histogramsList := m.histogramsList.set index temp }
      else none

def histogramFromAllToAllPattern : Callbacks (Fin n) (Mapper H) (Histogram H) where
  write := writeHistogramToNode
  read := readHistogramFromNode

/-- The node list of every mapper: the ids from one to `n`. -/
def mapNodesList (i : Fin n) : Nat := i.val + 1

/-- The program of mapper `k`. -/
def mapperProgram (k : Fin n) : List (CommAction (Fin n)) :=
  startEachToOtherCommunication mapNodesList (mapNodesList k)

/-- The mappers before the exchange, each with its own histogram only. -/
def beforeExchange (own : Fin n → Histogram H) : Network (Fin n) (Mapper H) (Histogram H) where
  data k := ⟨mapNodesList k, (List.replicate n Histogram.empty).set k (own k)⟩
  todo := mapperProgram
  channel _ _ := []

/-- The turn of the node in its own and in every other program. -/
def turn (k : Fin n) : CommAction (Fin n) → Nat
  | .send _ => 2 * k.val
  | .recv a => 2 * a.val + 1

theorem mapNodesList_inj (i k : Fin n) : mapNodesList i = mapNodesList k ↔ i = k := by
  simp only [mapNodesList, Fin.ext_iff]
  omega

theorem mapperProgram_eq (k : Fin n) :
    mapperProgram k =
      (List.finRange n).flatMap fun i =>
        if i = k then ((List.finRange n).filter fun j => j ≠ k).map CommAction.send
        else [CommAction.recv i] := by
  simp only [mapperProgram, startEachToOtherCommunication, ne_eq, mapNodesList_inj]
  congr 1
  funext i
  by_cases hi : i = k <;> simp [hi]

private theorem send_mem_mapperProgram (k b : Fin n) :
    CommAction.send b ∈ mapperProgram k ↔ b ≠ k := by
  rw [mapperProgram_eq, List.mem_flatMap]
  constructor
  · rintro ⟨i, -, hi⟩
    by_cases hik : i = k
    · simpa [hik] using hi
    · simp [hik] at hi
  · intro hb
    exact ⟨k, List.mem_finRange k, by simpa using hb⟩

theorem recv_mem_mapperProgram (k a : Fin n) :
    CommAction.recv a ∈ mapperProgram k ↔ a ≠ k := by
  rw [mapperProgram_eq, List.mem_flatMap]
  constructor
  · rintro ⟨i, -, hi⟩
    by_cases hik : i = k
    · simp [hik] at hi
    · simp only [hik, if_false, List.mem_singleton, CommAction.recv.injEq] at hi
      rw [hi]
      exact hik
  · intro ha
    exact ⟨a, List.mem_finRange a, by simp [ha]⟩

theorem mapperProgram_nodup (k : Fin n) :
    (mapperProgram k).Nodup := by
  rw [mapperProgram_eq, List.nodup_flatMap]
  constructor
  · intro i _
    by_cases hik : i = k
    · rw [if_pos hik]
      exact ((List.nodup_finRange n).filter _).map fun _ _ h => CommAction.send.inj h
    · rw [if_neg hik]
      exact List.nodup_singleton _
  · refine (List.nodup_finRange n).imp ?_
    intro i j hij act hi hj
    by_cases hik : i = k
    · have hjk : j ≠ k := fun h => hij (hik.trans h.symm)
      simp only [hik, if_true, List.mem_map] at hi
      simp only [hjk, if_false, List.mem_singleton] at hj
      obtain ⟨b, -, hb⟩ := hi
      simp [← hb] at hj
    · simp only [hik, if_false, List.mem_singleton] at hi
      subst act
      by_cases hjk : j = k
      · simp [hjk] at hj
      · simp only [hjk, if_false, List.mem_singleton, CommAction.recv.injEq] at hj
        exact hij hj

private theorem mapperProgram_ordered (k : Fin n) :
    (mapperProgram k).Pairwise
      fun x y => turn k x ≤ turn k y := by
  have hturn : ∀ i : Fin n, ∀ act ∈ (if i = k then
      ((List.finRange n).filter fun j => j ≠ k).map CommAction.send else [CommAction.recv i]),
      2 * i.val ≤ turn k act ∧ turn k act ≤ 2 * i.val + 1 := by
    intro i act hact
    by_cases hik : i = k
    · simp only [hik, if_true, List.mem_map] at hact
      obtain ⟨b, -, rfl⟩ := hact
      simp [turn, hik]
    · simp only [hik, if_false, List.mem_singleton] at hact
      simp [hact, turn]
  rw [mapperProgram_eq, List.pairwise_flatMap]
  constructor
  · intro i _
    by_cases hik : i = k
    · rw [if_pos hik]
      refine List.pairwise_map.mpr (List.pairwise_of_forall fun _ _ => ?_)
      exact Nat.le_refl _
    · rw [if_neg hik]
      exact List.pairwise_singleton _ _
  · refine (List.pairwise_lt_finRange n).imp ?_
    intro i j hij x hx y hy
    have hxi := (hturn i x hx).2
    have hyj := (hturn j y hy).1
    have hlt : i.val < j.val := hij
    omega

private theorem mapperProgram_stamped : Network.Stamped turn (mapperProgram (n := n)) := by
  refine ⟨mapperProgram_ordered, fun a b => ?_⟩
  simp [turn]

private theorem beforeExchange_balanced (own : Fin n → Histogram H) : (beforeExchange own).Balanced := by
  intro a b
  simp only [beforeExchange, List.length_nil, Nat.add_zero]
  by_cases hab : a = b
  · rw [List.count_eq_zero_of_not_mem, List.count_eq_zero_of_not_mem]
    · rw [recv_mem_mapperProgram]
      exact fun h => h hab
    · rw [send_mem_mapperProgram]
      exact fun h => h hab.symm
  · rw [List.count_eq_one_of_mem (mapperProgram_nodup a) ((send_mem_mapperProgram a b).mpr
        (Ne.symm hab)),
      List.count_eq_one_of_mem (mapperProgram_nodup b) ((recv_mem_mapperProgram b a).mpr hab)]

/-- During the exchange a mapper holds the histograms of those it no longer waits for, and the
channels carry nothing but the histogram of their sender. -/
structure Exchanging (own : Fin n → Histogram H)
    (net : Network (Fin n) (Mapper H) (Histogram H)) : Prop where
  balanced : net.Balanced
  stamped : Network.Stamped turn net.todo
  nodup : ∀ k, (net.todo k).Nodup
  others : ∀ k, CommAction.recv k ∉ net.todo k
  ids : ∀ k, (net.data k).ownnodeid = mapNodesList k
  count : ∀ k, (net.data k).histogramsList.length = n
  slots : ∀ k a : Fin n, (net.data k).histogramsList[a.val]? =
    some (if CommAction.recv a ∈ net.todo k then Histogram.empty else own a)
  messages : ∀ a b, ∀ m ∈ net.channel a b, m = own a

variable {own : Fin n → Histogram H} {net net' : Network (Fin n) (Mapper H) (Histogram H)}
  {k : Fin n}

theorem exchanging_start (own : Fin n → Histogram H) : Exchanging own (beforeExchange own) where
  balanced := beforeExchange_balanced own
  stamped := mapperProgram_stamped
  nodup := mapperProgram_nodup
  others := fun k => by simp [beforeExchange, recv_mem_mapperProgram]
  ids := fun _ => rfl
  count := fun k => by simp [beforeExchange]
  slots := by
    intro k a
    by_cases ha : a = k
    · simp [beforeExchange, recv_mem_mapperProgram, ha]
    · have hne : k.val ≠ a.val := fun h => ha (Fin.ext h.symm)
      simp [beforeExchange, recv_mem_mapperProgram, ha, List.getElem_set_ne hne]
  messages := by simp [beforeExchange]

theorem Exchanging.write_eq (h : Exchanging own net) (k b : Fin n) :
    writeHistogramToNode (net.data k) b = some (own k) := by
  have hslot := h.slots k k
  rw [if_neg (h.others k)] at hslot
  rw [writeHistogramToNode, h.ids k]
  simpa [mapNodesList] using hslot

theorem Exchanging.read_eq (h : Exchanging own net) {a : Fin n}
    (ha : CommAction.recv a ∈ net.todo k) (m : Histogram H) :
    readHistogramFromNode (net.data k) a m =
      some { net.data k with histogramsList := (net.data k).histogramsList.set a m } := by
  have hslot := h.slots k a
  rw [if_pos ha] at hslot
  simp [readHistogramFromNode, hslot, Histogram.empty]

private theorem nodup_update {act : CommAction (Fin n)} {rest : List (CommAction (Fin n))}
    {todo : Fin n → List (CommAction (Fin n))} (h : ∀ x, (todo x).Nodup)
    (hk : todo k = act :: rest) (x : Fin n) : (Function.update todo k rest x).Nodup := by
  by_cases hx : x = k
  · subst x
    have hold := h k
    rw [hk] at hold
    simpa using hold.tail
  · simpa [hx] using h x

private theorem Exchanging.send {b : Fin n} {rest : List (CommAction (Fin n))} (h : Exchanging own net)
    (hstep : net.step histogramFromAllToAllPattern k = some net')
    (htodo : net.todo k = .send b :: rest)
    (hnet : net' = { net with
      todo := Function.update net.todo k rest
      channel := net.setChannel k b (net.channel k b ++ [own k]) }) : Exchanging own net' := by
  have hmem : ∀ x a, CommAction.recv a ∈ Function.update net.todo k rest x ↔
      CommAction.recv a ∈ net.todo x := by
    intro x a
    by_cases hx : x = k
    · subst x
      simp [htodo]
    · simp [hx]
  refine ⟨h.balanced.step hstep, h.stamped.step hstep, ?_, ?_, ?_, ?_, ?_, ?_⟩
  · simpa only [hnet] using nodup_update h.nodup htodo
  · intro x
    simpa [hnet, hmem] using h.others x
  · simpa [hnet] using h.ids
  · simpa [hnet] using h.count
  · intro x a
    simpa [hnet, hmem] using h.slots x a
  · intro x y m hm
    simp only [hnet, Network.setChannel_apply] at hm
    split at hm
    · rename_i hxy
      obtain ⟨rfl, rfl⟩ := hxy
      rcases List.mem_append.mp hm with hm | hm
      · exact h.messages x y m hm
      · simpa using hm
    · exact h.messages x y m hm

private theorem Exchanging.receive {a : Fin n} {rest : List (CommAction (Fin n))}
    {q : List (Histogram H)} (h : Exchanging own net)
    (hstep : net.step histogramFromAllToAllPattern k = some net')
    (htodo : net.todo k = .recv a :: rest) (hq : net.channel a k = own a :: q)
    (hnet : net' =
      { data := Function.update net.data k
          { net.data k with histogramsList := (net.data k).histogramsList.set a (own a) }
        todo := Function.update net.todo k rest
        channel := net.setChannel a k q }) : Exchanging own net' := by
  have hnot : CommAction.recv a ∉ rest := by
    have hold := h.nodup k
    rw [htodo] at hold
    exact (List.nodup_cons.mp hold).1
  refine ⟨h.balanced.step hstep, h.stamped.step hstep, ?_, ?_, ?_, ?_, ?_, ?_⟩
  · simpa only [hnet] using nodup_update h.nodup htodo
  · intro x
    by_cases hx : x = k
    · subst x
      have hold := h.others k
      rw [htodo] at hold
      simpa [hnet] using fun hin => hold (List.mem_cons_of_mem _ hin)
    · simpa [hnet, hx] using h.others x
  · intro x
    by_cases hx : x = k
    · subst x
      simpa [hnet] using h.ids k
    · simpa [hnet, hx] using h.ids x
  · intro x
    by_cases hx : x = k
    · subst x
      simpa [hnet] using h.count k
    · simpa [hnet, hx] using h.count x
  · intro x b
    by_cases hx : x = k
    · subst x
      by_cases hb : b = a
      · subst b
        have hlt : a.val < (net.data k).histogramsList.length := by
          rw [h.count k]
          exact a.isLt
        simp [hnet, hnot, List.getElem?_set_self hlt]
      · have hne : a.val ≠ b.val := fun heq => hb (Fin.ext heq.symm)
        have hold := h.slots k b
        simp only [htodo, List.mem_cons, CommAction.recv.injEq, hb, false_or] at hold
        simpa [hnet, List.getElem?_set_ne hne] using hold
    · simpa [hnet, hx] using h.slots x b
  · intro x y m hm
    simp only [hnet, Network.setChannel_apply] at hm
    split at hm
    · rename_i hxy
      obtain ⟨rfl, rfl⟩ := hxy
      exact h.messages x y m (by rw [hq]; exact List.mem_cons_of_mem _ hm)
    · exact h.messages x y m hm

theorem Exchanging.step (h : Exchanging own net)
    (hstep : net.step histogramFromAllToAllPattern k = some net') : Exchanging own net' := by
  rcases Network.step_cases hstep with
    ⟨b, rest, m, htodo, hm, hnet⟩ | ⟨a, rest, m, q, d, htodo, hq, hd, hnet⟩
  · have hmsg : some (own k) = some m := (h.write_eq k b).symm.trans hm
    cases hmsg
    exact h.send hstep htodo hnet
  · have hmsg : m = own a := h.messages a k m (by simp [hq])
    subst m
    have hin : CommAction.recv a ∈ net.todo k := by simp [htodo]
    have hdata := (h.read_eq hin (own a)).symm.trans hd
    cases hdata
    exact h.receive hstep htodo hq hnet

private theorem Exchanging.enabled (h : Exchanging own net) (hready : net.Ready k) :
    ∃ net', net.step histogramFromAllToAllPattern k = some net' := by
  rcases hready with ⟨b, rest, htodo⟩ | ⟨a, rest, m, q, htodo, hq⟩
  · have hwrite := h.write_eq k b
    simp only [Network.step, htodo, histogramFromAllToAllPattern, hwrite]
    exact ⟨_, rfl⟩
  · have hread := h.read_eq (k := k) (a := a) (by simp [htodo]) m
    simp only [Network.step, htodo, hq, histogramFromAllToAllPattern, hread]
    exact ⟨_, rfl⟩

theorem Exchanging.final (h : Exchanging own net) (hfinal : net.Final) (k : Fin n) :
    (net.data k).histogramsList = List.ofFn own := by
  apply List.ext_getElem?
  intro i
  by_cases hi : i < n
  · have hslot := h.slots k ⟨i, hi⟩
    simpa [hfinal k, hi] using hslot
  · rw [List.getElem?_eq_none (by rw [h.count k]; omega), List.getElem?_eq_none (by simp; omega)]

/-- In every schedule the exchange can go on until all mappers are done; then each of them holds at
index `id - 1` the histogram of mapper `id`, and all of them compute the same dividers. -/
theorem histogramExchange_agrees (c : HashComparator H) (maxHash : H) (own : Fin n → Histogram H)
    (reduceNodesCount : Nat) (schedule : List (Fin n))
    (net : Network (Fin n) (Mapper H) (Histogram H))
    (hrun : runFrom (Network.step histogramFromAllToAllPattern) (beforeExchange own) schedule =
      some net) :
    (¬ net.Final → ∃ k net', net.step histogramFromAllToAllPattern k = some net') ∧
      (net.Final → ∃ dividers, ∀ k,
        (∀ id : Fin n, (net.data k).histogramsList[mapNodesList id - 1]? = some (own id)) ∧
        (net.data k).histogramsList = List.ofFn own ∧
        getReducersDividerArrayBasedOnSummarizedHistograms c maxHash (net.data k).histogramsList
          (allocBufferCount reduceNodesCount) = some dividers) := by
  have h : Exchanging own net :=
    runFrom_preserves (fun _ _ _ h hs => h.step hs) schedule _ net (exchanging_start own) hrun
  constructor
  · intro hnot
    obtain ⟨k, hready⟩ := Network.exists_ready h.balanced h.stamped hnot
    exact ⟨k, h.enabled hready⟩
  · intro hfinal
    have hroom : 0 < allocBufferCount reduceNodesCount := by
      simp only [allocBufferCount]
      split <;> omega
    obtain ⟨ds, hds, -⟩ := getReducersDividerArrayBasedOnSummarizedHistograms_eq c maxHash
      (List.ofFn own) (allocBufferCount reduceNodesCount) hroom
    refine ⟨ds ++ [maxHash], fun k => ?_⟩
    have hall := h.final hfinal k
    refine ⟨fun id => ?_, hall, by rw [hall, hds]⟩
    rw [hall]
    simp [mapNodesList]

/-- Two mappers, the second without items. -/
def twoHistograms (k : Fin 2) : Histogram (Fin 256) :=
  if k.val = 0 then ⟨3, 3, [Fin.last 255], fun _ => rfl⟩ else Histogram.empty

theorem histogramExchange_agrees_two :
    RunEnds (Network.step histogramFromAllToAllPattern) (beforeExchange twoHistograms)
      [0, 1, 1, 0] fun net => net.Final ∧ ∃ dividers, ∀ k,
        (∀ id : Fin 2, (net.data k).histogramsList[mapNodesList id - 1]? =
          some (twoHistograms id)) ∧
        (net.data k).histogramsList = List.ofFn twoHistograms ∧
        getReducersDividerArrayBasedOnSummarizedHistograms byteComparator 255
          (net.data k).histogramsList (allocBufferCount 2) = some dividers := by
  have hrun : RunEnds (Network.step histogramFromAllToAllPattern) (beforeExchange twoHistograms)
      [0, 1, 1, 0] fun net => ∀ k, net.todo k = [] := by decide
  obtain ⟨net, hnet, hfinal⟩ := hrun
  exact ⟨net, hnet, hfinal,
    (histogramExchange_agrees byteComparator 255 twoHistograms 2 _ net hnet).2 hfinal⟩

end Zrt.MapReduce
