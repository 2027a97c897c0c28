import Mathlib.Data.List.Basic
import Mathlib.Data.List.GetD

/-!
# Distribution of map items to the reducers

`DistributeDataIntoBaskets` walks a sorted buffer of map items together with the list of reducer
dividers and cuts the buffer into one range per reducer; `MapSendToAllReducers` sends each range
to its reducer.
-/

namespace Zrt.MapReduce

variable {H I : Type*}

/-- The user's hash comparator. Only the sign of its result is used. -/
structure HashComparator (H : Type*) where
  cmp : H → H → Int
  total : ∀ a b, cmp a b ≤ 0 ∨ cmp b a ≤ 0
  trans : ∀ a b c, cmp a b ≤ 0 → cmp b c ≤ 0 → cmp a c ≤ 0

/-- One-byte hashes under the library's default byte comparison. -/
def byteComparator : HashComparator (Fin 256) where
  cmp a b := (a.val : Int) - b.val
  total a b := by omega
  trans a b c := by omega

theorem byteComparator_le_max (h : Fin 256) : byteComparator.cmp h 255 ≤ 0 := by
  have hlt := h.isLt
  simp only [byteComparator]
  omega

structure BasketInfo where
  dataStartIndex : Nat
  countInSection : Nat
deriving DecidableEq, Repr

/-- Loop variables of `DistributeDataIntoBaskets`; `basket_index` is the length of the array
filled so far. -/
structure BasketLoop (H : Type*) where
  basketArray : List BasketInfo
  dataStartIndex : Nat
  countInSection : Nat
  currentDividerIndex : Nat
  currentDividerHash : H

/-- Close the current basket at item index `j` and move to the next divider. The item at `j` is
counted into the next basket without being compared to its divider. -/
def switchBasket (dividers : List H) (j : Nat) (s : BasketLoop H) : BasketLoop H where
  basketArray := s.basketArray ++ [⟨s.dataStartIndex, s.countInSection⟩]
  dataStartIndex := j
  countInSection := 1
  currentDividerIndex := s.currentDividerIndex + 1
  currentDividerHash := dividers.getD (s.currentDividerIndex + 1) s.currentDividerHash

/-- The loop over the items from index `j` on, with its extra iteration past the last item. -/
def distributeLoop (c : HashComparator H) (keyHash : I → H) (dividers : List H) :
    List I → Nat → BasketLoop H → BasketLoop H
  | [], j, s => switchBasket dividers j s
  | x :: xs, j, s =>
      if c.cmp (keyHash x) s.currentDividerHash ≤ 0 then
        distributeLoop c keyHash dividers xs (j + 1)
          { s with countInSection := s.countInSection + 1 }
      else
        distributeLoop c keyHash dividers xs (j + 1) (switchBasket dividers j s)

/-- The baskets of one buffer. An empty divider list has no first divider to read. -/
def distributeDataIntoBaskets (c : HashComparator H) (keyHash : I → H) (dividers : List H)
    (map : List I) (basketCount : Nat) : Option (List BasketInfo) :=
  match dividers with
  | [] => none
  | d :: _ =>
      let baskets := (distributeLoop c keyHash dividers map 0 ⟨[], 0, 0, 0, d⟩).basketArray
      some (baskets ++ List.replicate (basketCount - baskets.length) ⟨0, 0⟩)

/-- What `WriteDataToReduce` puts on the channel of one reducer. -/
structure ReducePacket (I : Type*) where
  node : Nat
  lastDataFlag : Bool
  items : List I

/-- The slice of the buffer sent to one reducer, with the range assertion of the writer. -/
def writeDataToReduce (map : List I) (node : Nat) (info : BasketInfo) (lastDataFlag : Bool) :
    Option (ReducePacket I) :=
  if info.dataStartIndex + info.countInSection ≤ map.length then
    some ⟨node, lastDataFlag, (map.drop info.dataStartIndex).take info.countInSection⟩
  else none

def mapSendToAllReducers (c : HashComparator H) (keyHash : I → H) (dividers : List H)
    (reduceNodesList : List Nat) (lastData : Bool) (map : List I) :
    Option (List (ReducePacket I)) :=
  (distributeDataIntoBaskets c keyHash dividers map dividers.length).bind fun basketArray =>
    if reduceNodesList.length = dividers.length then
      (reduceNodesList.zip basketArray).mapM fun p => writeDataToReduce map p.1 p.2 lastData
    else none

/-- The dividers a mapper works with: nonempty, nondecreasing, the last one maximal. -/
structure DividerList (c : HashComparator H) where
  hashes : List H
  ne_nil : hashes ≠ []
  nondecreasing : hashes.Pairwise fun a b => c.cmp a b ≤ 0
  last_maximal : ∀ h, c.cmp h (hashes.getLast ne_nil) ≤ 0

variable {c : HashComparator H}

/-- The least index of a divider that is not below the hash. -/
def DividerList.reducerOf (ds : DividerList c) (h : H) : Nat :=
  ds.hashes.findIdx fun d => c.cmp h d ≤ 0

/-- From reducer `b` on, no item skips a divider: each item belongs to the reducer of its
predecessor or to the next one. -/
def DividerList.StepsByOne (ds : DividerList c) (keyHash : I → H) : Nat → List I → Prop
  | _, [] => True
  | b, x :: xs => ds.reducerOf (keyHash x) ≤ b + 1 ∧
      ds.StepsByOne keyHash (ds.reducerOf (keyHash x)) xs

theorem DividerList.reducerOf_lt (ds : DividerList c) (h : H) :
    ds.reducerOf h < ds.hashes.length := by
  apply List.findIdx_lt_length_of_exists
  exact ⟨ds.hashes.getLast ds.ne_nil, List.getLast_mem _, by simpa using ds.last_maximal h⟩

theorem DividerList.reducerOf_le_iff (ds : DividerList c) (h : H) (b : Nat)
    (hb : b < ds.hashes.length) :
    ds.reducerOf h ≤ b ↔ c.cmp h ds.hashes[b] ≤ 0 := by
  constructor
  · intro hle
    have hr := ds.reducerOf_lt h
    have hmem : c.cmp h ds.hashes[ds.reducerOf h] ≤ 0 :=
      of_decide_eq_true (List.findIdx_getElem (p := fun d => decide (c.cmp h d ≤ 0)) (w := hr))
    rcases Nat.lt_or_eq_of_le hle with hlt | heq
    · have hord := List.pairwise_iff_getElem.mp ds.nondecreasing _ _ hr hb hlt
      exact c.trans _ _ _ hmem hord
    · simpa only [heq] using hmem
  · intro hcmp
    by_contra hgt
    have hnot := List.not_of_lt_findIdx (p := fun d => decide (c.cmp h d ≤ 0))
      (show b < ds.hashes.findIdx _ from by simpa [reducerOf] using hgt)
    simp [hcmp] at hnot

theorem DividerList.reducerOf_mono (ds : DividerList c) (h k : H) (hk : c.cmp h k ≤ 0) :
    ds.reducerOf h ≤ ds.reducerOf k := by
  have hr := ds.reducerOf_lt k
  rw [ds.reducerOf_le_iff h _ hr]
  exact c.trans _ _ _ hk ((ds.reducerOf_le_iff k _ hr).mp (Nat.le_refl _))

/-- The items of the baskets from basket `b` on, `cur` being those already in basket `b`: an item
above the divider of the current basket opens the next basket, whatever the next divider is. -/
def DividerList.basketItems (ds : DividerList c) (keyHash : I → H) :
    List I → Nat → List I → List (List I)
  | cur, _, [] => [cur]
  | cur, b, x :: xs =>
      if ds.reducerOf (keyHash x) ≤ b then ds.basketItems keyHash (cur ++ [x]) b xs
      else cur :: ds.basketItems keyHash [x] (b + 1) xs

/-- The items a basket range denotes in the buffer. -/
def BasketInfo.items (map : List I) (info : BasketInfo) : List I :=
  (map.drop info.dataStartIndex).take info.countInSection

/-- Loop invariant: the array holds the closed baskets, the current divider is the one of the
basket being filled and the current range ends at the item index. -/
structure BasketLoop.Inv (ds : DividerList c) (map : List I) (j : Nat) (s : BasketLoop H) :
    Prop where
  index : s.currentDividerIndex = s.basketArray.length
  hash : ds.hashes[s.basketArray.length]? = some s.currentDividerHash
  cursor : s.dataStartIndex + s.countInSection = j
  bounds : ∀ info ∈ s.basketArray, info.dataStartIndex + info.countInSection ≤ map.length

private theorem BasketLoop.Inv.divider_le {ds : DividerList c} {map : List I} {j : Nat}
    {s : BasketLoop H} (h : s.Inv ds map j) (k : H) :
    ds.reducerOf k ≤ s.basketArray.length ↔ c.cmp k s.currentDividerHash ≤ 0 := by
  obtain ⟨hlt, hd⟩ := List.getElem?_eq_some_iff.mp h.hash
  rw [ds.reducerOf_le_iff k _ hlt, hd]

private theorem take_snoc (map pre xs : List I) (x : I) (start count : Nat)
    (hmap : map = pre ++ x :: xs) (hc : start + count = pre.length) :
    (map.drop start).take (count + 1) = (map.drop start).take count ++ [x] := by
  have hx : (map.drop start)[count]? = some x := by
    rw [List.getElem?_drop, hc, hmap]
    simp
  rw [List.take_add_one, hx]
  rfl

private theorem distributeLoop_items (ds : DividerList c) (keyHash : I → H) (map pre xs : List I)
    (s : BasketLoop H) (hmap : map = pre ++ xs) (h : s.Inv ds map pre.length) :
    let final := distributeLoop c keyHash ds.hashes xs pre.length s
    final.basketArray.map (BasketInfo.items map) =
        s.basketArray.map (BasketInfo.items map) ++
          ds.basketItems keyHash ((map.drop s.dataStartIndex).take s.countInSection)
            s.basketArray.length xs ∧
      ∀ info ∈ final.basketArray, info.dataStartIndex + info.countInSection ≤ map.length := by
  induction xs generalizing pre s with
  | nil =>
      have hlen : map.length = pre.length := by simp [hmap]
      refine ⟨by simp [distributeLoop, switchBasket, DividerList.basketItems, BasketInfo.items],
        ?_⟩
      intro info hi
      simp only [distributeLoop, switchBasket, List.mem_append, List.mem_singleton] at hi
      rcases hi with hi | rfl
      · exact h.bounds info hi
      · simp only [hlen]
        exact Nat.le_of_eq h.cursor
  | cons x xs ih =>
      have hpre : map = (pre ++ [x]) ++ xs := by simp [hmap]
      have hlen : (pre ++ [x]).length = pre.length + 1 := by simp
      have hle : pre.length ≤ map.length := by simp [hmap]
      by_cases hx : ds.reducerOf (keyHash x) ≤ s.basketArray.length
      · have hcmp := (h.divider_le _).mp hx
        have hnext := ih (pre ++ [x]) { s with countInSection := s.countInSection + 1 } hpre
          ⟨h.index, h.hash, by rw [hlen, ← h.cursor]; rfl, h.bounds⟩
        rw [hlen] at hnext
        simpa only [distributeLoop, hcmp, if_true, DividerList.basketItems, hx,
          take_snoc map pre xs x _ _ hmap h.cursor] using hnext
      · have hcmp := mt (h.divider_le _).mpr hx
        have hlt : s.basketArray.length + 1 < ds.hashes.length :=
          Nat.lt_of_le_of_lt (Nat.lt_of_not_le hx) (ds.reducerOf_lt _)
        have hinv : (switchBasket ds.hashes pre.length s).Inv ds map (pre ++ [x]).length := by
          refine ⟨by simp [switchBasket, h.index], ?_, by simp [switchBasket], ?_⟩
          · simp [switchBasket, h.index, List.getElem?_eq_getElem hlt]
          · intro info hi
            simp only [switchBasket, List.mem_append, List.mem_singleton] at hi
            rcases hi with hi | rfl
            · exact h.bounds info hi
            · rw [h.cursor]
              exact hle
        have hnext := ih (pre ++ [x]) _ hpre hinv
        rw [hlen] at hnext
        have hone : (map.drop pre.length).take 1 = [x] := by simp [hmap]
        simpa only [distributeLoop, hcmp, if_false, DividerList.basketItems, hx, switchBasket,
          List.map_append, List.map_cons, List.map_nil, List.length_append, List.length_singleton,
          BasketInfo.items, hone, List.append_assoc, List.singleton_append] using hnext

private theorem DividerList.basketItems_length (ds : DividerList c) (keyHash : I → H) (cur : List I)
    (b : Nat) (xs : List I) (hb : b < ds.hashes.length) :
    (ds.basketItems keyHash cur b xs).length + b ≤ ds.hashes.length := by
  induction xs generalizing cur b with
  | nil =>
      simp only [basketItems, List.length_singleton]
      omega
  | cons x xs ih =>
      by_cases hx : ds.reducerOf (keyHash x) ≤ b
      · simpa only [basketItems, hx, if_true] using ih (cur ++ [x]) b hb
      · have hlt := ds.reducerOf_lt (keyHash x)
        have hnext := ih [x] (b + 1) (by omega)
        simp only [basketItems, hx, if_false, List.length_cons]
        omega

/-- The items of every basket, the baskets no item reaches being empty. -/
def DividerList.allBasketItems (ds : DividerList c) (keyHash : I → H) (map : List I) :
    List (List I) :=
  ds.basketItems keyHash [] 0 map ++
    List.replicate (ds.hashes.length - (ds.basketItems keyHash [] 0 map).length) []

theorem DividerList.allBasketItems_length (ds : DividerList c) (keyHash : I → H) (map : List I) :
    (ds.allBasketItems keyHash map).length = ds.hashes.length := by
  have h := ds.basketItems_length keyHash [] 0 map (List.length_pos_of_ne_nil ds.ne_nil)
  simp only [allBasketItems, List.length_append, List.length_replicate]
  omega

private theorem distributeDataIntoBaskets_items (ds : DividerList c) (keyHash : I → H) (map : List I) :
    ∃ baskets, distributeDataIntoBaskets c keyHash ds.hashes map ds.hashes.length = some baskets ∧
      baskets.map (BasketInfo.items map) = ds.allBasketItems keyHash map ∧
      ∀ info ∈ baskets, info.dataStartIndex + info.countInSection ≤ map.length := by
  obtain ⟨d, rest, hd⟩ := List.exists_cons_of_ne_nil ds.ne_nil
  have hinv : (⟨[], 0, 0, 0, d⟩ : BasketLoop H).Inv ds map ([] : List I).length :=
    ⟨rfl, by simp [hd], rfl, by simp⟩
  have hloop := distributeLoop_items ds keyHash map [] map _ (List.nil_append map).symm hinv
  simp only [List.map_nil, List.nil_append, List.drop_zero, List.take_zero, List.length_nil]
    at hloop
  have hlen := congrArg List.length hloop.1
  rw [List.length_map] at hlen
  refine ⟨_, by simp only [distributeDataIntoBaskets, hd]; rfl, ?_, ?_⟩
  · rw [← hd, List.map_append, List.map_replicate, hloop.1, hlen]
    rfl
  · intro info hi
    rw [← hd] at hi
    rcases List.mem_append.mp hi with hi | hi
    · exact hloop.2 info hi
    · rw [List.eq_of_mem_replicate hi]
      exact Nat.zero_le _

private theorem writeAll_eq (map : List I) (last : Bool) (nodes : List Nat)
    (baskets : List BasketInfo)
    (hb : ∀ info ∈ baskets, info.dataStartIndex + info.countInSection ≤ map.length) :
    ((nodes.zip baskets).mapM fun p => writeDataToReduce map p.1 p.2 last) =
      some ((nodes.zip (baskets.map (BasketInfo.items map))).map
        fun p => ⟨p.1, last, p.2⟩) := by
  induction nodes generalizing baskets with
  | nil => simp
  | cons n nodes ih =>
      cases baskets with
      | nil => simp
      | cons info baskets =>
          have hi := hb info (by simp)
          have hrest := ih baskets (fun i hm => hb i (by simp [hm]))
          simp only [List.zip_cons_cons, List.mapM_cons, hrest, List.map_cons]
          simp [writeDataToReduce, hi, BasketInfo.items]

theorem mapSendToAllReducers_eq (ds : DividerList c) (keyHash : I → H) (nodes : List Nat)
    (last : Bool) (map : List I) (hn : nodes.length = ds.hashes.length) :
    mapSendToAllReducers c keyHash ds.hashes nodes last map =
      some ((nodes.zip (ds.allBasketItems keyHash map)).map fun p => ⟨p.1, last, p.2⟩) := by
  obtain ⟨baskets, hb, hitems, hbounds⟩ := distributeDataIntoBaskets_items ds keyHash map
  rw [mapSendToAllReducers, hb, Option.bind_some, if_pos hn,
    writeAll_eq map last nodes baskets hbounds, hitems]

private theorem basketItems_head (ds : DividerList c) (keyHash : I → H) (cur : List I)
    (b : Nat) (xs : List I) :
    ∃ t rest, ds.basketItems keyHash cur b xs = (cur ++ t) :: rest := by
  induction xs generalizing cur b with
  | nil => exact ⟨[], [], by simp [DividerList.basketItems]⟩
  | cons x xs ih =>
      by_cases hx : ds.reducerOf (keyHash x) ≤ b
      · obtain ⟨t, rest, ht⟩ := ih (cur ++ [x]) b
        exact ⟨x :: t, rest, by simp [DividerList.basketItems, hx, ht]⟩
      · exact ⟨[], ds.basketItems keyHash [x] (b + 1) xs,
          by simp [DividerList.basketItems, hx]⟩

/-- The baskets from `b` on hold what the dividers say. -/
private def RightFrom (ds : DividerList c) (keyHash : I → H) (cur : List I) (b : Nat)
    (xs : List I) : Prop :=
  ∀ i, (ds.basketItems keyHash cur b xs).getD i [] =
    (if i = 0 then cur else []) ++ xs.filter fun x => ds.reducerOf (keyHash x) = b + i

private theorem rightFrom_same (ds : DividerList c) (keyHash : I → H) (cur : List I) {b : Nat}
    {x : I} (xs : List I) (heq : ds.reducerOf (keyHash x) = b) :
    RightFrom ds keyHash cur b (x :: xs) ↔ RightFrom ds keyHash (cur ++ [x]) b xs := by
  apply forall_congr'
  intro i
  cases i <;> simp [DividerList.basketItems, heq]

/-- The basket opened by `x` starts with `x`, so its divider is the one of `x`. -/
private theorem RightFrom.opens {ds : DividerList c} {keyHash : I → H} {cur : List I} {b : Nat}
    {x : I} {xs : List I} (hright : RightFrom ds keyHash cur b (x :: xs))
    (hlt : ¬ ds.reducerOf (keyHash x) ≤ b) : ds.reducerOf (keyHash x) = b + 1 := by
  have hone := hright 1
  obtain ⟨t, rest, ht⟩ := basketItems_head ds keyHash [x] (b + 1) xs
  have hget : (ds.basketItems keyHash cur b (x :: xs)).getD 1 [] = [x] ++ t := by
    simp [DividerList.basketItems, hlt, ht]
  have hmem : x ∈ (x :: xs).filter fun y => ds.reducerOf (keyHash y) = b + 1 := by
    rw [hget] at hone
    simp only [Nat.one_ne_zero, if_false, List.nil_append] at hone
    rw [← hone]
    simp
  simpa using hmem

private theorem rightFrom_next (ds : DividerList c) (keyHash : I → H) (cur : List I) {b : Nat}
    {x : I} {xs : List I} (heq : ds.reducerOf (keyHash x) = b + 1)
    (hmono : ∀ y ∈ xs, ds.reducerOf (keyHash x) ≤ ds.reducerOf (keyHash y)) :
    RightFrom ds keyHash cur b (x :: xs) ↔ RightFrom ds keyHash [x] (b + 1) xs := by
  have hgt : ¬ ds.reducerOf (keyHash x) ≤ b := by omega
  have htail : ∀ i, ((x :: xs).filter fun y => ds.reducerOf (keyHash y) = b + (i + 1)) =
      (if i = 0 then [x] else []) ++ xs.filter fun y => ds.reducerOf (keyHash y) = b + 1 + i := by
    intro i
    cases i with
    | zero => simp [heq]
    | succ i =>
        have hne : ds.reducerOf (keyHash x) ≠ b + (i + 1 + 1) := by omega
        simp [hne, Nat.add_comm, Nat.add_left_comm]
  constructor
  · intro hright i
    have hi := hright (i + 1)
    simp only [DividerList.basketItems, hgt, if_false, List.getD_cons_succ] at hi
    rw [hi, htail]
    rfl
  · intro hrest i
    cases i with
    | zero =>
        have hnil : (x :: xs).filter (fun y => ds.reducerOf (keyHash y) = b) = [] := by
          apply List.filter_eq_nil_iff.mpr
          intro y hy
          rcases List.mem_cons.mp hy with rfl | hy
          · simp [heq]
          · have hle := hmono y hy
            simp only [decide_eq_true_eq]
            omega
        simp [DividerList.basketItems, hgt, hnil]
    | succ i =>
        simp only [DividerList.basketItems, hgt, if_false, List.getD_cons_succ]
        rw [hrest i, htail]
        rfl

/-- Along a sorted list that does not go below reducer `b`, the baskets are right exactly when no
item skips a divider. -/
private theorem rightFrom_iff (ds : DividerList c) (keyHash : I → H) (cur : List I) (b : Nat)
    (xs : List I) (hge : ∀ x ∈ xs, b ≤ ds.reducerOf (keyHash x))
    (hsorted : xs.Pairwise fun x y => c.cmp (keyHash x) (keyHash y) ≤ 0) :
    RightFrom ds keyHash cur b xs ↔ ds.StepsByOne keyHash b xs := by
  induction xs generalizing cur b with
  | nil =>
      refine ⟨fun _ => trivial, fun _ i => ?_⟩
      cases i <;> simp [DividerList.basketItems]
  | cons x xs ih =>
      have hsort := List.pairwise_cons.mp hsorted
      have hx := hge x (by simp)
      have hmono : ∀ y ∈ xs, ds.reducerOf (keyHash x) ≤ ds.reducerOf (keyHash y) :=
        fun y hy => ds.reducerOf_mono _ _ (hsort.1 y hy)
      rw [DividerList.StepsByOne]
      by_cases hle : ds.reducerOf (keyHash x) ≤ b
      · have heq : ds.reducerOf (keyHash x) = b := Nat.le_antisymm hle hx
        have hih := ih (cur ++ [x]) b (fun y hy => heq ▸ hmono y hy) hsort.2
        rw [rightFrom_same ds keyHash cur xs heq, hih, heq]
        exact ⟨fun h => ⟨by omega, h⟩, fun h => h.2⟩
      · have hgt : b + 1 ≤ ds.reducerOf (keyHash x) := Nat.lt_of_not_le hle
        have hih := ih [x] (b + 1) (fun y hy => Nat.le_trans hgt (hmono y hy)) hsort.2
        constructor
        · intro hright
          have heq := hright.opens hle
          rw [rightFrom_next ds keyHash cur heq hmono, hih] at hright
          exact ⟨Nat.le_of_eq heq, heq ▸ hright⟩
        · rintro ⟨hstep, hrest⟩
          have heq : ds.reducerOf (keyHash x) = b + 1 := Nat.le_antisymm hstep hgt
          rw [heq, ← hih] at hrest
          exact (rightFrom_next ds keyHash cur heq hmono).mpr hrest

/-- One packet goes to every reducer, and the packet of reducer `b` carries, in buffer order,
exactly the items for which `b` is the least index of a divider not below their hash. -/
def PlacedByDividers (ds : DividerList c) (keyHash : I → H) (nodes : List Nat) (last : Bool)
    (map : List I) : Prop :=
  ∃ packets, mapSendToAllReducers c keyHash ds.hashes nodes last map = some packets ∧
    packets.map ReducePacket.node = nodes ∧
    ∀ b pk, packets[b]? = some pk →
      pk.items = map.filter fun x => ds.reducerOf (keyHash x) = b

private theorem placed_iff_rightFrom (ds : DividerList c) (keyHash : I → H) (nodes : List Nat)
    (last : Bool) (map : List I) (hn : nodes.length = ds.hashes.length) :
    PlacedByDividers ds keyHash nodes last map ↔ RightFrom ds keyHash [] 0 map := by
  have hlen := ds.allBasketItems_length keyHash map
  have hget (b : Nat) : (ds.allBasketItems keyHash map).getD b [] =
      (ds.basketItems keyHash [] 0 map).getD b [] := by
    rw [DividerList.allBasketItems]
    by_cases hb : b < (ds.basketItems keyHash [] 0 map).length
    · rw [List.getD_append _ _ _ _ hb]
    · rw [List.getD_append_right _ _ _ _ (Nat.le_of_not_lt hb),
        List.getD_eq_default _ _ (Nat.le_of_not_lt hb)]
      rw [List.getD_eq_getElem?_getD, List.getElem?_replicate]
      split <;> rfl
  have hpk (b : Nat) (pk : ReducePacket I) :
      ((nodes.zip (ds.allBasketItems keyHash map)).map
          (fun p => (⟨p.1, last, p.2⟩ : ReducePacket I)))[b]? = some pk →
        pk.items = (ds.allBasketItems keyHash map).getD b [] := by
    intro h
    obtain ⟨p, hp, rfl⟩ := by simpa only [List.getElem?_map, Option.map_eq_some_iff] using h
    have hz := (List.getElem?_zip_eq_some.mp hp).2
    simp [List.getD_eq_getElem?_getD, hz]
  constructor
  · rintro ⟨packets, hsend, -, hitems⟩ b
    rw [mapSendToAllReducers_eq ds keyHash nodes last map hn, Option.some.injEq] at hsend
    subst hsend
    rw [← hget]
    by_cases hb : b < ds.hashes.length
    · have hbn : b < nodes.length := by omega
      have hba : b < (ds.allBasketItems keyHash map).length := by omega
      have hsome : ((nodes.zip (ds.allBasketItems keyHash map)).map
          (fun p => (⟨p.1, last, p.2⟩ : ReducePacket I)))[b]? =
            some ⟨nodes[b], last, (ds.allBasketItems keyHash map)[b]⟩ := by
        rw [List.getElem?_map, List.getElem?_eq_getElem (by simp; omega), List.getElem_zip]
        rfl
      have hi := hitems b _ hsome
      rw [hpk b _ hsome] at hi
      simpa using hi
    · have hnone : map.filter (fun x => ds.reducerOf (keyHash x) = 0 + b) = [] := by
        apply List.filter_eq_nil_iff.mpr
        intro x _
        have := ds.reducerOf_lt (keyHash x)
        simp only [Nat.zero_add, decide_eq_true_eq]
        omega
      rw [List.getD_eq_default _ _ (by omega), hnone]
      simp
  · intro hright
    refine ⟨_, mapSendToAllReducers_eq ds keyHash nodes last map hn, ?_, ?_⟩
    · rw [List.map_map]
      exact List.map_fst_zip (by omega)
    · intro b pk h
      rw [hpk b pk h, hget, hright b]
      simp

/-- A sorted buffer is placed by its dividers exactly when no item skips a divider. Two such
buffers, of any mappers with the same dividers, send items of equal hash to the same reducer. -/
theorem mapSendToAllReducers_placed_iff (ds : DividerList c) (keyHash : I → H)
    (nodes : List Nat) (hn : nodes.length = ds.hashes.length) :
    (∀ (last : Bool) (map : List I),
      map.Pairwise (fun x y => c.cmp (keyHash x) (keyHash y) ≤ 0) →
        (PlacedByDividers ds keyHash nodes last map ↔ ds.StepsByOne keyHash 0 map)) ∧
    ∀ (last₁ last₂ : Bool) (map₁ map₂ : List I),
      map₁.Pairwise (fun x y => c.cmp (keyHash x) (keyHash y) ≤ 0) →
      map₂.Pairwise (fun x y => c.cmp (keyHash x) (keyHash y) ≤ 0) →
      ds.StepsByOne keyHash 0 map₁ → ds.StepsByOne keyHash 0 map₂ →
      ∀ packets₁ packets₂,
        mapSendToAllReducers c keyHash ds.hashes nodes last₁ map₁ = some packets₁ →
        mapSendToAllReducers c keyHash ds.hashes nodes last₂ map₂ = some packets₂ →
        ∀ (b₁ b₂ : Nat) (pk₁ pk₂ : ReducePacket I),
          packets₁[b₁]? = some pk₁ → packets₂[b₂]? = some pk₂ →
          ∀ x ∈ pk₁.items, ∀ y ∈ pk₂.items,
            c.cmp (keyHash x) (keyHash y) ≤ 0 → c.cmp (keyHash y) (keyHash x) ≤ 0 → b₁ = b₂ := by
  have hiff (last : Bool) (map : List I)
      (hs : map.Pairwise fun x y => c.cmp (keyHash x) (keyHash y) ≤ 0) :
      PlacedByDividers ds keyHash nodes last map ↔ ds.StepsByOne keyHash 0 map := by
    rw [placed_iff_rightFrom ds keyHash nodes last map hn]
    exact rightFrom_iff ds keyHash [] 0 map (fun _ _ => Nat.zero_le _) hs
  refine ⟨hiff, ?_⟩
  intro last₁ last₂ map₁ map₂ hs₁ hs₂ hstep₁ hstep₂ packets₁ packets₂ hsend₁ hsend₂
    b₁ b₂ pk₁ pk₂ hb₁ hb₂ x hx y hy hxy hyx
  obtain ⟨_, hp₁, -, hplace₁⟩ := (hiff last₁ map₁ hs₁).mpr hstep₁
  obtain ⟨_, hp₂, -, hplace₂⟩ := (hiff last₂ map₂ hs₂).mpr hstep₂
  rw [hsend₁, Option.some.injEq] at hp₁
  rw [hsend₂, Option.some.injEq] at hp₂
  subst hp₁ hp₂
  rw [hplace₁ b₁ pk₁ hb₁] at hx
  rw [hplace₂ b₂ pk₂ hb₂] at hy
  have hx' : ds.reducerOf (keyHash x) = b₁ := by simpa using (List.mem_filter.mp hx).2
  have hy' : ds.reducerOf (keyHash y) = b₂ := by simpa using (List.mem_filter.mp hy).2
  rw [← hx', ← hy']
  exact Nat.le_antisymm (ds.reducerOf_mono _ _ hxy) (ds.reducerOf_mono _ _ hyx)

/-- Loop invariant for dividers in any order, the last one maximal: the current divider exists and
every closed range lies in the buffer. -/
structure BasketLoop.InRange (dividers : List H) (mapCount j : Nat) (s : BasketLoop H) : Prop where
  index : s.currentDividerIndex = s.basketArray.length
  hash : dividers[s.basketArray.length]? = some s.currentDividerHash
  cursor : s.dataStartIndex + s.countInSection = j
  bounds : ∀ info ∈ s.basketArray, info.dataStartIndex + info.countInSection ≤ mapCount

private theorem InRange.closed {dividers : List H} {mapCount j : Nat} {s : BasketLoop H}
    (h : s.InRange dividers mapCount j) (hj : j ≤ mapCount) :
    ∀ info ∈ s.basketArray ++ [⟨s.dataStartIndex, s.countInSection⟩],
      info.dataStartIndex + info.countInSection ≤ mapCount := by
  intro info hi
  rcases List.mem_append.mp hi with hi | hi
  · exact h.bounds info hi
  · rw [List.mem_singleton.mp hi]
    simp only [h.cursor]
    exact hj

private theorem distributeLoop_inRange (c : HashComparator H) (keyHash : I → H) (ds : List H) (m : H)
    (hmax : ∀ h, c.cmp h m ≤ 0) (xs : List I) (j : Nat) (s : BasketLoop H)
    (h : s.InRange (ds ++ [m]) (j + xs.length) j) :
    let final := distributeLoop c keyHash (ds ++ [m]) xs j s
    final.basketArray.length ≤ ds.length + 1 ∧
      ∀ info ∈ final.basketArray,
        info.dataStartIndex + info.countInSection ≤ j + xs.length := by
  induction xs generalizing j s with
  | nil =>
      have hlt := (List.getElem?_eq_some_iff.mp h.hash).1
      simp only [List.length_append, List.length_singleton] at hlt
      refine ⟨?_, InRange.closed h (Nat.le_refl _)⟩
      simp only [distributeLoop, switchBasket, List.length_append, List.length_singleton]
      omega
  | cons x xs ih =>
      have hlen : j + (x :: xs).length = j + 1 + xs.length := by
        simp only [List.length_cons]
        omega
      rw [hlen] at h ⊢
      by_cases hx : c.cmp (keyHash x) s.currentDividerHash ≤ 0
      · simp only [distributeLoop, hx, if_true]
        exact ih (j + 1) _ ⟨h.index, h.hash, by rw [← h.cursor]; rfl, h.bounds⟩
      · simp only [distributeLoop, hx, if_false]
        apply ih
        -- the last divider is maximal, so the one just passed was not the last one
        obtain ⟨hlt, hget⟩ := List.getElem?_eq_some_iff.mp h.hash
        have hnext : s.basketArray.length + 1 < (ds ++ [m]).length := by
          by_contra hlast
          simp only [List.length_append, List.length_singleton] at hlt hlast
          have heq : s.basketArray.length = ds.length := by omega
          simp only [heq, List.getElem_concat_length] at hget
          exact hx (hget ▸ hmax (keyHash x))
        refine ⟨by simp [switchBasket, h.index], ?_, by simp [switchBasket],
          InRange.closed h (by omega)⟩
        simp only [switchBasket, h.index, List.length_append, List.length_singleton,
          List.getD_eq_getElem?_getD, List.getElem?_eq_getElem hnext, Option.getD_some]

theorem distributeDataIntoBaskets_inRange (c : HashComparator H) (keyHash : I → H) (ds : List H)
    (m : H) (hmax : ∀ h, c.cmp h m ≤ 0) (map : List I) :
    ∃ baskets, distributeDataIntoBaskets c keyHash (ds ++ [m]) map (ds ++ [m]).length =
        some baskets ∧
      baskets.length = ds.length + 1 ∧
      ∀ info ∈ baskets, info.dataStartIndex + info.countInSection ≤ map.length := by
  obtain ⟨d, rest, hd⟩ : ∃ d rest, ds ++ [m] = d :: rest :=
    List.exists_cons_of_ne_nil (by simp)
  have hstart : (⟨[], 0, 0, 0, d⟩ : BasketLoop H).InRange (ds ++ [m]) (0 + map.length) 0 :=
    ⟨rfl, by simp [hd], rfl, by simp⟩
  obtain ⟨hlen, hbounds⟩ := distributeLoop_inRange c keyHash ds m hmax map 0 _ hstart
  rw [Nat.zero_add] at hbounds
  have hcount : (ds ++ [m]).length = ds.length + 1 := by simp
  refine ⟨_, by simp only [distributeDataIntoBaskets, hd]; rfl, ?_, ?_⟩
  · rw [← hd, List.length_append, List.length_replicate, hcount]
    omega
  · intro info hi
    rw [← hd] at hi
    rcases List.mem_append.mp hi with hi | hi
    · exact hbounds info hi
    · rw [List.eq_of_mem_replicate hi]
      exact Nat.zero_le _

/-- The item indexes of a range. -/
def BasketInfo.indexes (info : BasketInfo) : List Nat :=
  List.range' info.dataStartIndex info.countInSection

private theorem distributeLoop_indexes (c : HashComparator H) (keyHash : I → H) (dividers : List H)
    (xs : List I) (j : Nat) (s : BasketLoop H) (hcursor : s.dataStartIndex + s.countInSection = j)
    (hcovers : s.basketArray.flatMap BasketInfo.indexes ++
      List.range' s.dataStartIndex s.countInSection = List.range j) :
    (distributeLoop c keyHash dividers xs j s).basketArray.flatMap BasketInfo.indexes =
      List.range (j + xs.length) := by
  induction xs generalizing j s with
  | nil =>
      simp only [distributeLoop, switchBasket, List.flatMap_append, List.flatMap_cons,
        List.flatMap_nil, List.append_nil, BasketInfo.indexes, List.length_nil, Nat.add_zero]
      exact hcovers
  | cons x xs ih =>
      have hlen : j + (x :: xs).length = j + 1 + xs.length := by
        simp only [List.length_cons]
        omega
      rw [hlen]
      by_cases hx : c.cmp (keyHash x) s.currentDividerHash ≤ 0
      · simp only [distributeLoop, hx, if_true]
        apply ih
        · simp only [← hcursor, Nat.add_assoc]
        · rw [List.range'_1_concat, ← List.append_assoc, hcovers, hcursor, List.range_succ]
      · simp only [distributeLoop, hx, if_false]
        apply ih
        · rfl
        · simp only [switchBasket, List.flatMap_append, List.flatMap_cons, List.flatMap_nil,
            List.append_nil]
          rw [BasketInfo.indexes, hcovers, List.range_succ]
          rfl

/-- For any items and any dividers that end with the maximal hash there is exactly one entry for each
divider, and the ranges in basket order enumerate the item indexes, each of them once. -/
theorem distributeDataIntoBaskets_partition (c : HashComparator H) (keyHash : I → H)
    (dividers : List H) (hne : dividers ≠ []) (hmax : ∀ h, c.cmp h (dividers.getLast hne) ≤ 0)
    (map : List I) :
    ∃ baskets, distributeDataIntoBaskets c keyHash dividers map dividers.length = some baskets ∧
      baskets.length = dividers.length ∧
      baskets.flatMap BasketInfo.indexes = List.range map.length := by
  have hsnoc := List.dropLast_append_getLast hne
  obtain ⟨baskets, hbaskets, hlength, -⟩ := distributeDataIntoBaskets_inRange c keyHash
    dividers.dropLast (dividers.getLast hne) hmax map
  rw [hsnoc] at hbaskets
  have hcount : dividers.dropLast.length + 1 = dividers.length := by
    rw [← hsnoc]
    simp
  refine ⟨baskets, hbaskets, hlength.trans hcount, ?_⟩
  obtain ⟨d, rest, rfl⟩ := List.exists_cons_of_ne_nil hne
  have hloop := distributeLoop_indexes c keyHash (d :: rest) map 0 ⟨[], 0, 0, 0, d⟩ rfl rfl
  rw [Nat.zero_add] at hloop
  simp only [distributeDataIntoBaskets, Option.some.injEq] at hbaskets
  have hempty : ∀ n, (List.replicate n (⟨0, 0⟩ : BasketInfo)).flatMap BasketInfo.indexes = [] := by
    intro n
    rw [List.flatMap_eq_nil_iff]
    intro info hinfo
    rw [List.eq_of_mem_replicate hinfo]
    rfl
  rw [← hbaskets, List.flatMap_append, hloop, hempty, List.append_nil]

/-- Neither the items nor the dividers are in order. -/
theorem distributeDataIntoBaskets_partition_bytes :
    ∃ baskets, distributeDataIntoBaskets byteComparator id [20, 10, 255] [(15 : Fin 256), 30, 5] 3 =
        some baskets ∧ baskets.length = 3 ∧
      baskets.flatMap BasketInfo.indexes = List.range 3 :=
  distributeDataIntoBaskets_partition byteComparator id [20, 10, 255] (by decide)
    byteComparator_le_max [15, 30, 5]

theorem mapSendToAllReducers_flags (c : HashComparator H) (keyHash : I → H) (ds : List H) (m : H)
    (hmax : ∀ h, c.cmp h m ≤ 0) (nodes : List Nat) (last : Bool) (map : List I)
    (hn : nodes.length = ds.length + 1) :
    ∃ packets, mapSendToAllReducers c keyHash (ds ++ [m]) nodes last map = some packets ∧
      packets.map ReducePacket.node = nodes ∧ ∀ p ∈ packets, p.lastDataFlag = last := by
  obtain ⟨baskets, hb, hlen, hbounds⟩ :=
    distributeDataIntoBaskets_inRange c keyHash ds m hmax map
  have hsend : mapSendToAllReducers c keyHash (ds ++ [m]) nodes last map =
      some ((nodes.zip (baskets.map (BasketInfo.items map))).map fun p => ⟨p.1, last, p.2⟩) := by
    rw [mapSendToAllReducers, hb, Option.bind_some, if_pos (by simpa using hn),
      writeAll_eq map last nodes baskets hbounds]
  refine ⟨_, hsend, ?_, ?_⟩
  · rw [List.map_map]
    exact List.map_fst_zip (Nat.le_of_eq (by rw [List.length_map, hlen, hn]))
  · intro p hp
    obtain ⟨q, -, rfl⟩ := List.mem_map.mp hp
    rfl

/-- Three reducers over one-byte hashes. -/
def byteDividers : DividerList byteComparator where
  hashes := [10, 20, 255]
  ne_nil := by decide
  nondecreasing := by decide
  last_maximal h := by
    simp only [List.getLast_cons_cons, List.getLast_singleton]
    exact byteComparator_le_max h

theorem mapSendToAllReducers_placed_iff_bytes :
    byteDividers.StepsByOne id 0 [(5 : Fin 256), 15, 25] ∧
      PlacedByDividers byteDividers id [1, 2, 3] true [(5 : Fin 256), 15, 25] := by
  have hsteps : byteDividers.StepsByOne id 0 [(5 : Fin 256), 15, 25] := by
    refine ⟨by decide, by decide, by decide, trivial⟩
  exact ⟨hsteps, ((mapSendToAllReducers_placed_iff byteDividers id [1, 2, 3] rfl).1 true
    [5, 15, 25] (by decide)).mpr hsteps⟩

/-- A first item beyond two dividers goes to reducer 1 instead of reducer 2, so that two mappers
with the same dividers send the hash 25 to different reducers. -/
theorem mapSendToAllReducers_skips_divider :
    ¬ PlacedByDividers byteDividers id [1, 2, 3] true [(25 : Fin 256)] ∧
      ((mapSendToAllReducers byteComparator id byteDividers.hashes [1, 2, 3] true
        [(25 : Fin 256)]).map fun ps => ps.map ReducePacket.items) = some [[], [25], []] ∧
      ((mapSendToAllReducers byteComparator id byteDividers.hashes [1, 2, 3] true
        [(15 : Fin 256), 25]).map fun ps => ps.map ReducePacket.items) = some [[], [15], [25]] := by
  refine ⟨?_, by decide, by decide⟩
  rintro ⟨packets, hsend, -, hitems⟩
  have hval : packets = [⟨1, true, []⟩, ⟨2, true, [25]⟩, ⟨3, true, []⟩] :=
    (Option.some.inj hsend).symm
  subst hval
  exact absurd (hitems 1 _ rfl) (by decide)

end Zrt.MapReduce
