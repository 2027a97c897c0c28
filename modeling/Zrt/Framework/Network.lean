import Mathlib.Data.List.Basic
import Mathlib.Data.List.Count
import Mathlib.Logic.Function.Basic
import Zrt.Framework.Runs

/-!
# Networks of straight-line programs

Every node has its data and the list of its remaining actions; two nodes are joined by an unbounded
FIFO channel in each direction. Sending never waits, receiving waits for a message. When the
actions can be stamped such that every program is in the order of its stamps and a message is sent
before it is received, some node can always go on.
-/

namespace Zrt.Framework

/-- A send or a receive, with the node at the other end. -/
inductive CommAction (ι : Type*) where
  | send (peer : ι)
  | recv (peer : ι)
deriving DecidableEq

/-- `channel a b` holds the messages on their way from `a` to `b`, the oldest first. -/
structure Network (ι L M : Type*) where
  data : ι → L
  todo : ι → List (CommAction ι)
  channel : ι → ι → List M

/-- What the actions do to the data of a node; a failed assertion is `none`. -/
structure Callbacks (ι L M : Type*) where
  write : L → ι → Option M
  read : L → ι → M → Option L

namespace Network

variable {ι L M : Type*} [DecidableEq ι]

/-- Append one message to one channel, or replace the contents of one channel. -/
def setChannel (net : Network ι L M) (a b : ι) (q : List M) : ι → ι → List M :=
  Function.update net.channel a (Function.update (net.channel a) b q)

/-- The next action of node `k`. A node that is done and one that waits for a message have no
step. -/
def step (cb : Callbacks ι L M) (net : Network ι L M) (k : ι) : Option (Network ι L M) :=
  match net.todo k with
  | [] => none
  | .send b :: rest =>
      (cb.write (net.data k) b).map fun m =>
        { net with
          todo := Function.update net.todo k rest
          channel := net.setChannel k b (net.channel k b ++ [m]) }
  | .recv a :: rest =>
      match net.channel a k with
      | [] => none
      | m :: q =>
          (cb.read (net.data k) a m).map fun d =>
            { data := Function.update net.data k d
              todo := Function.update net.todo k rest
              channel := net.setChannel a k q }

/-- Every node has finished its program. -/
def Final (net : Network ι L M) : Prop := ∀ k, net.todo k = []

/-- The next action of the node does not have to wait. -/
def Ready (net : Network ι L M) (k : ι) : Prop :=
  (∃ b rest, net.todo k = .send b :: rest) ∨
    ∃ a rest m q, net.todo k = .recv a :: rest ∧ net.channel a k = m :: q

theorem step_cases {cb : Callbacks ι L M} {net net' : Network ι L M} {k : ι}
    (h : net.step cb k = some net') :
    (∃ b rest m, net.todo k = .send b :: rest ∧ cb.write (net.data k) b = some m ∧
      net' = { net with
        todo := Function.update net.todo k rest
        channel := net.setChannel k b (net.channel k b ++ [m]) }) ∨
    ∃ a rest m q d, net.todo k = .recv a :: rest ∧ net.channel a k = m :: q ∧
      cb.read (net.data k) a m = some d ∧
      net' = { data := Function.update net.data k d
               todo := Function.update net.todo k rest
               channel := net.setChannel a k q } := by
  rw [step] at h
  split at h
  · cases h
  · rename_i b rest htodo
    obtain ⟨m, hm, rfl⟩ := Option.map_eq_some_iff.mp h
    exact Or.inl ⟨b, rest, m, htodo, hm, rfl⟩
  · rename_i a rest htodo
    split at h
    · cases h
    · rename_i m q hq
      obtain ⟨d, hd, rfl⟩ := Option.map_eq_some_iff.mp h
      exact Or.inr ⟨a, rest, m, q, d, htodo, hq, hd, rfl⟩

theorem setChannel_apply (net : Network ι L M) (a b : ι) (q : List M) (x y : ι) :
    net.setChannel a b q x y = if x = a ∧ y = b then q else net.channel x y := by
  by_cases hx : x = a
  · subst x
    by_cases hy : y = b <;> simp [setChannel, hy]
  · simp [setChannel, hx]

/-- Every message still to be received is on its way or still to be sent. -/
def Balanced (net : Network ι L M) : Prop :=
  ∀ a b, (net.todo a).count (.send b) + (net.channel a b).length = (net.todo b).count (.recv a)

/-- The programs run in the order of their stamps, and every send is stamped before its receive. -/
structure Stamped (stamp : ι → CommAction ι → Nat) (todo : ι → List (CommAction ι)) : Prop where
  ordered : ∀ k, (todo k).Pairwise fun x y => stamp k x ≤ stamp k y
  sent_first : ∀ a b, stamp a (.send b) < stamp b (.recv a)

variable {stamp : ι → CommAction ι → Nat} {net net' : Network ι L M} {cb : Callbacks ι L M}
  {k : ι}

theorem Stamped.tail {todo : ι → List (CommAction ι)} (h : Stamped stamp todo)
    {act : CommAction ι} {rest : List (CommAction ι)} (hk : todo k = act :: rest) :
    Stamped stamp (Function.update todo k rest) := by
  refine ⟨fun x => ?_, h.sent_first⟩
  by_cases hx : x = k
  · subst x
    have hold := h.ordered k
    rw [hk] at hold
    simpa using hold.tail
  · simpa [hx] using h.ordered x

theorem Stamped.step (h : Stamped stamp net.todo) (hstep : net.step cb k = some net') :
    Stamped stamp net'.todo := by
  rcases step_cases hstep with ⟨b, rest, m, htodo, -, rfl⟩ | ⟨a, rest, m, q, d, htodo, -, -, rfl⟩
  · exact h.tail htodo
  · exact h.tail htodo

private theorem count_update {todo : ι → List (CommAction ι)} {head : CommAction ι}
    {rest : List (CommAction ι)} (hk : todo k = head :: rest) (x : ι) (act : CommAction ι) :
    (Function.update todo k rest x).count act + (if x = k ∧ act = head then 1 else 0) =
      (todo x).count act := by
  by_cases hx : x = k
  · subst x
    by_cases hact : act = head
    · simp [hk, hact]
    · have hne : head ≠ act := fun h => hact h.symm
      simp [hk, hact, List.count_cons_of_ne hne]
  · simp [hx]

theorem Balanced.step (h : net.Balanced) (hstep : net.step cb k = some net') :
    net'.Balanced := by
  intro x y
  have hxy := h x y
  rcases step_cases hstep with ⟨b, rest, m, htodo, -, rfl⟩ | ⟨a, rest, m, q, d, htodo, hq, -, rfl⟩
  · have hsend := count_update htodo x (.send y)
    have hrecv := count_update htodo y (.recv x)
    simp only [CommAction.send.injEq] at hsend
    simp only [reduceCtorEq, and_false, if_false, Nat.add_zero] at hrecv
    simp only [setChannel_apply]
    by_cases hpair : x = k ∧ y = b
    · obtain ⟨rfl, rfl⟩ := hpair
      simp only [and_self, if_true, List.length_append, List.length_singleton] at hsend ⊢
      omega
    · simp only [hpair, if_false] at hsend ⊢
      omega
  · have hsend := count_update htodo x (.send y)
    have hrecv := count_update htodo y (.recv x)
    simp only [reduceCtorEq, and_false, if_false, Nat.add_zero] at hsend
    simp only [CommAction.recv.injEq] at hrecv
    simp only [setChannel_apply]
    by_cases hpair : y = k ∧ x = a
    · obtain ⟨rfl, rfl⟩ := hpair
      simp only [hq, List.length_cons] at hxy
      simp only [and_self, if_true] at hrecv ⊢
      omega
    · simp only [hpair, if_false] at hrecv
      simp only [show ¬ (x = a ∧ y = k) from fun hp => hpair hp.symm, if_false]
      omega

/-- A node that waits points to a node with an earlier stamp, so some node does not wait. -/
theorem exists_ready (hb : net.Balanced) (hs : Stamped stamp net.todo) (hnot : ¬ net.Final) :
    ∃ k, net.Ready k := by
  have hwait : ∀ n k act rest, net.todo k = act :: rest → stamp k act = n → ∃ k, net.Ready k := by
    intro n
    induction n using Nat.strongRecOn with
    | _ n ih =>
        intro k act rest htodo hn
        cases act with
        | send b => exact ⟨k, Or.inl ⟨b, rest, htodo⟩⟩
        | recv a =>
            cases hq : net.channel a k with
            | cons m q => exact ⟨k, Or.inr ⟨a, rest, m, q, htodo, hq⟩⟩
            | nil =>
                have hcount := hb a k
                rw [hq, htodo, List.count_cons_self, List.length_nil] at hcount
                have hmem : CommAction.send k ∈ net.todo a :=
                  List.count_pos_iff.mp (by omega)
                cases hta : net.todo a with
                | nil => simp [hta] at hmem
                | cons act' rest' =>
                    have hle : stamp a act' ≤ stamp a (.send k) := by
                      have hord := hs.ordered a
                      rw [hta] at hord hmem
                      rcases List.mem_cons.mp hmem with heq | hin
                      · exact Nat.le_of_eq (congrArg (stamp a) heq.symm)
                      · exact List.rel_of_pairwise_cons hord hin
                    have hlt := hs.sent_first a k
                    exact ih _ (by omega) a act' rest' hta rfl
  simp only [Final, not_forall] at hnot
  obtain ⟨k, hk⟩ := hnot
  cases htodo : net.todo k with
  | nil => exact absurd htodo hk
  | cons act rest => exact hwait _ k act rest htodo rfl

end Network

end Zrt.Framework
