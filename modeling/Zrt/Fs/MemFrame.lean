import Zrt.Fs.MemSound

/-!
# What the changes leave resolvable

In a sound state a lookup fails only by finding nothing, and each change affects the lookups of one
entry: the one that is made, removed or hidden. A walk that does not arrive there is not affected.
-/

namespace Zrt.Fs

namespace MemMount

variable {m m' : MemMount} {slot s t x : Nat} {n : MemNode} {d : MemData} {name : Text}

/-! ## Total walks -/

theorem Sound.exists_data (h : m.Sound) (hs : s ≠ 0) (hn : m.nodeAt s = some n) :
    ∃ d, m.getData n.nodedata = some d := by
  obtain ⟨d, hd, -⟩ := h.counted s n hs hn
  exact ⟨d, hd⟩

theorem findChild_total (name : Text) {cs : List Nat} (h : ∀ c ∈ cs, (m.nodeAt c).isSome) :
    ∃ r, m.findChild name cs = some r := by
  induction cs with
  | nil => exact ⟨none, rfl⟩
  | cons c cs ih =>
      obtain ⟨n, hn⟩ := Option.isSome_iff_exists.mp (h c List.mem_cons_self)
      obtain ⟨r, hr⟩ := ih fun c' hc' => h c' (List.mem_cons_of_mem c hc')
      simp only [findChild, hn, Option.bind_some]
      split
      · exact ⟨some c, rfl⟩
      · exact ⟨r, hr⟩

theorem Sound.lookup (h : m.Sound) (hs : s ≠ 0) (hn : m.nodeAt s = some n) (name : Text) :
    (∃ e, m.walk s [name] = some (.error e)) ∨
    ∃ t tn, m.walk s [name] = some (.ok t) ∧ t ≠ 0 ∧ t ≠ rootSlot ∧ m.nodeAt t = some tn ∧
      tn.name = name := by
  obtain ⟨d, hd⟩ := h.exists_data hs hn
  simp only [walk, dataAt_of hn, hd, Option.bind_some]
  by_cases hdir : d.isDir = true
  · rw [if_pos hdir]
    have hchildren := h.children s n d hn hd hdir
    obtain ⟨r, hr⟩ := findChild_total name fun c hc => (hchildren c hc).2.2
    rw [hr]
    cases r with
    | none => exact Or.inl ⟨_, rfl⟩
    | some t =>
        obtain ⟨hmem, tn, htn, hname⟩ := findChild_found hr
        obtain ⟨h0, h1, -⟩ := hchildren t hmem
        exact Or.inr ⟨t, tn, rfl, h0, h1, htn, hname⟩
  · rw [if_neg hdir]
    exact Or.inl ⟨_, rfl⟩

/-- The slots a walk arrives at. -/
def arrivals (m : MemMount) : Nat → List Text → List Nat
  | _, [] => []
  | slot, name :: rest =>
      match m.walk slot [name] with
      | some (.ok t) => t :: arrivals m t rest
      | _ => []

theorem Sound.walk_total (h : m.Sound) (hs : s ≠ 0) (hn : m.nodeAt s = some n) (names : List Text) :
    (∃ e, m.walk s names = some (.error e)) ∨
    ∃ t tn, m.walk s names = some (.ok t) ∧ t ≠ 0 ∧ m.nodeAt t = some tn := by
  induction names generalizing s n with
  | nil => exact Or.inr ⟨s, n, rfl, hs, hn⟩
  | cons name rest ih =>
      rw [walk_cons]
      rcases h.lookup hs hn name with ⟨e, he⟩ | ⟨t, tn, ht, h0, -, htn, -⟩
      · rw [he]
        exact Or.inl ⟨e, rfl⟩
      · rw [ht]
        exact ih h0 htn

theorem Sound.getSlot_ok (h : m.Sound) {path : AbsolutePath} (hs : m.getSlot path = some (.ok s)) :
    s ≠ 0 ∧ ∃ n, m.nodeAt s = some n := by
  obtain ⟨rn, hrn, -⟩ := h.grounded.root
  rcases h.walk_total (by decide) hrn path.path with ⟨e, he⟩ | ⟨t, tn, ht, h0, htn⟩
  · rw [getSlot, he] at hs
    cases hs
  · rw [getSlot, ht] at hs
    cases hs
    exact ⟨h0, tn, htn⟩

theorem Sound.getMemNode_iff (h : m.Sound) {path : AbsolutePath} :
    m.getMemNode path = some (some s) ↔ m.getSlot path = some (.ok s) := by
  rw [getMemNode_eq_some]
  apply and_iff_left_of_imp
  intro hs
  obtain ⟨-, n, hn⟩ := h.getSlot_ok hs
  rw [hn]
  rfl

/-- Every lookup of a walk is made in an allocated slot, and what it finds the walk arrives at. -/
theorem Sound.mem_lookups (h : m.Sound) (hs : s ≠ 0) (hn : m.nodeAt s = some n) {names : List Text}
    {q : Nat × Text} (hq : q ∈ m.lookups s names) :
    q.1 ≠ 0 ∧ (∃ xn, m.nodeAt q.1 = some xn) ∧ q.2 ∈ names ∧
      (q.1 = s ∨ q.1 ∈ m.arrivals s names) ∧
      ∀ t, m.walk q.1 [q.2] = some (.ok t) → t ∈ m.arrivals s names := by
  induction names generalizing s n with
  | nil => cases hq
  | cons name rest ih =>
      rcases List.mem_cons.mp hq with rfl | hq
      · refine ⟨hs, ⟨n, hn⟩, List.mem_cons_self, Or.inl rfl, fun t ht => ?_⟩
        rw [arrivals, ht]
        exact List.mem_cons_self
      · rcases h.lookup hs hn name with ⟨e, he⟩ | ⟨t, tn, ht, h0, -, htn, -⟩
        · rw [he] at hq
          cases hq
        · rw [ht] at hq
          obtain ⟨hq0, hex, hname, harr, hall⟩ := ih h0 htn hq
          rw [arrivals, ht]
          refine ⟨hq0, hex, List.mem_cons_of_mem _ hname, ?_, fun t' ht' => ?_⟩
          · rcases harr with rfl | harr
            · exact Or.inr List.mem_cons_self
            · exact Or.inr (List.mem_cons_of_mem _ harr)
          · exact List.mem_cons_of_mem _ (hall t' ht')

theorem Sound.mem_arrivals (h : m.Sound) (hs : s ≠ 0) (hn : m.nodeAt s = some n) {names : List Text}
    (hx : x ∈ m.arrivals s names) :
    x ≠ 0 ∧ x ≠ rootSlot ∧ ∃ xn, m.nodeAt x = some xn ∧ xn.name ∈ names := by
  induction names generalizing s n with
  | nil => cases hx
  | cons name rest ih =>
      rcases h.lookup hs hn name with ⟨e, he⟩ | ⟨t, tn, ht, h0, h1, htn, hname⟩
      · rw [arrivals, he] at hx
        cases hx
      · rw [arrivals, ht] at hx
        rcases List.mem_cons.mp hx with rfl | hx
        · exact ⟨h0, h1, tn, htn, by rw [hname]; exact List.mem_cons_self⟩
        · obtain ⟨hx0, hx1, xn, hxn, hmem⟩ := ih h0 htn hx
          exact ⟨hx0, hx1, xn, hxn, List.mem_cons_of_mem _ hmem⟩

/-- A walk ends where it began or at its last arrival. -/
theorem mem_arrivals_of_walk {names : List Text} (h : m.walk s names = some (.ok t)) :
    t = s ∨ t ∈ m.arrivals s names := by
  induction names generalizing s with
  | nil =>
      cases h
      exact Or.inl rfl
  | cons name rest ih =>
      rw [walk_cons] at h
      obtain ⟨r, hr, h⟩ := Option.bind_eq_some_iff.mp h
      cases r with
      | error e => cases h
      | ok u =>
          rw [arrivals, hr]
          rcases ih h with rfl | hmem
          · exact Or.inr List.mem_cons_self
          · exact Or.inr (List.mem_cons_of_mem _ hmem)

theorem lookups_congr {names : List Text}
    (h : ∀ q ∈ m.lookups s names, m'.walk q.1 [q.2] = m.walk q.1 [q.2]) :
    m'.lookups s names = m.lookups s names := by
  induction names generalizing s with
  | nil => rfl
  | cons name rest ih =>
      have hstep : m'.walk s [name] = m.walk s [name] := h (s, name) List.mem_cons_self
      rw [lookups, lookups, hstep]
      cases hr : m.walk s [name] with
      | none => rfl
      | some r =>
          cases r with
          | error e => rfl
          | ok u =>
              simp only
              rw [ih]
              intro q hq
              exact h q (mem_lookups_cons hr hq)

theorem arrivals_eq_filterMap (m : MemMount) (s : Nat) (names : List Text) :
    m.arrivals s names =
      (m.lookups s names).filterMap fun q => (m.walk q.1 [q.2]).bind Except.toOption := by
  induction names generalizing s with
  | nil => rfl
  | cons name rest ih =>
      rw [arrivals, lookups, List.filterMap_cons]
      cases hr : m.walk s [name] with
      | none => rfl
      | some r =>
          cases r with
          | error e => rfl
          | ok u => exact congrArg (u :: ·) (ih u)

theorem arrivals_congr {names : List Text}
    (h : ∀ q ∈ m.lookups s names, m'.walk q.1 [q.2] = m.walk q.1 [q.2]) :
    m'.arrivals s names = m.arrivals s names := by
  rw [arrivals_eq_filterMap, arrivals_eq_filterMap, lookups_congr h]
  apply List.filterMap_congr
  intro q hq
  rw [h q hq]

theorem exists_lookup_of_arrival {names : List Text} (hx : x ∈ m.arrivals s names) :
    ∃ q ∈ m.lookups s names, m.walk q.1 [q.2] = some (.ok x) := by
  rw [arrivals_eq_filterMap] at hx
  obtain ⟨q, hq, hfound⟩ := List.mem_filterMap.mp hx
  obtain ⟨r, hr, hok⟩ := Option.bind_eq_some_iff.mp hfound
  cases r with
  | error e => cases hok
  | ok u =>
      cases hok
      exact ⟨q, hq, hr⟩

theorem arrivals_append {names : List Text} (h : m.walk s names = some (.ok t))
    (rest : List Text) : m.arrivals s (names ++ rest) = m.arrivals s names ++ m.arrivals t rest := by
  induction names generalizing s with
  | nil =>
      cases h
      rfl
  | cons name names ih =>
      rw [walk_cons] at h
      obtain ⟨r, hr, h⟩ := Option.bind_eq_some_iff.mp h
      cases r with
      | error e => cases h
      | ok u =>
          rw [List.cons_append, arrivals, arrivals, hr]
          simp only [ih h, List.cons_append]

/-! ## Lookups after a change -/

theorem findChild_filter {cs : List Nat} (hn : m.nodeAt slot = some n)
    (h : m.findChild name cs ≠ some (some slot)) :
    m.findChild name (cs.filter (· ≠ slot)) = m.findChild name cs := by
  induction cs with
  | nil => rfl
  | cons c cs ih =>
      by_cases hc : c = slot
      · subst hc
        simp only [findChild, hn, Option.bind_some] at h ⊢
        split at h
        · exact absurd rfl h
        · rename_i hname
          rw [if_neg hname, List.filter_cons_of_neg (by simp)]
          exact ih h
      · rw [List.filter_cons_of_pos (by simp [hc])]
        simp only [findChild] at h ⊢
        cases hcn : m.nodeAt c with
        | none => rfl
        | some cn =>
            rw [hcn, Option.bind_some] at h
            simp only [Option.bind_some]
            split at h
            · rename_i hname
              rw [if_pos hname, if_pos hname]
            · rename_i hname
              rw [if_neg hname, if_neg hname]
              exact ih h

private theorem Sound.lookup_removeNode (h : m.Sound) (hr : m.Removable slot n d)
    (hlisted : m.listedByParent slot = true) {xn : MemNode} (hx0 : x ≠ 0)
    (hxn : m.nodeAt x = some xn) (hxs : x ≠ slot) (hres : m.walk x [name] ≠ some (.ok slot)) :
    (m.removeNode slot).walk x [name] = m.walk x [name] := by
  have hxn' : (m.removeNode slot).nodeAt x = some xn := by
    rw [nodeAt_removeNode hr.node, if_neg hxs, hxn]
  obtain ⟨d', hd'⟩ := (h.removeNode hr hlisted).exists_data hx0 hxn'
  obtain ⟨b, hb, hdir, -, -, -, hchildren⟩ := backward_removeNode hr.node hd'
  simp only [walk, dataAt_of hxn, dataAt_of hxn', hb, hd', Option.bind_some, hdir] at hres ⊢
  by_cases hbdir : b.isDir = true
  · simp only [hbdir, if_true] at hres ⊢
    have hfind : m.findChild name b.children ≠ some (some slot) := by
      intro he
      rw [he] at hres
      exact hres rfl
    have hnames : (m.removeNode slot).findChild name d'.children = m.findChild name d'.children := by
      apply findChild_congr
      intro c hc
      rw [hchildren] at hc
      rw [nodeAt_removeNode hr.node,
        if_neg (ne_of_mem_filtered hr.node hlisted hxn hb hbdir hc)]
    rw [hnames, hchildren]
    split
    · rw [findChild_filter hr.node hfind]
    · rfl
  · rw [if_neg hbdir, if_neg hbdir]

private theorem findChild_hideNode {cs : List Nat} (hn : m.nodeAt slot = some n) (hname : name ≠ deletedName)
    (h : m.findChild name cs ≠ some (some slot)) :
    (m.hideNode slot).findChild name cs = m.findChild name cs := by
  induction cs with
  | nil => rfl
  | cons c cs ih =>
      simp only [findChild] at h ⊢
      rw [nodeAt_hideNode hn]
      by_cases hc : c = slot
      · subst hc
        rw [if_pos rfl]
        simp only [hn, Option.bind_some] at h ⊢
        split at h
        · exact absurd rfl h
        · rename_i hne
          rw [if_neg (Ne.symm hname), if_neg hne]
          exact ih h
      · rw [if_neg hc]
        cases hcn : m.nodeAt c with
        | none => rfl
        | some cn =>
            rw [hcn, Option.bind_some] at h
            simp only [Option.bind_some]
            split at h
            · rename_i heq
              rw [if_pos heq, if_pos heq]
            · rename_i hne
              rw [if_neg hne, if_neg hne]
              exact ih h

theorem lookup_hideNode (hn : m.nodeAt slot = some n) (hname : name ≠ deletedName)
    (hres : m.walk x [name] ≠ some (.ok slot)) :
    (m.hideNode slot).walk x [name] = m.walk x [name] := by
  have hdata : ((m.hideNode slot).dataAt x).map (fun d => (d.isDir, d.children)) =
      (m.dataAt x).map fun d => (d.isDir, d.children) := by
    have hread : (m.hideNode slot).dataAt x = (m.nodeAt x).bind fun xn =>
        (m.hideNode slot).getData xn.nodedata := by
      rw [dataAt, nodeAt_hideNode hn]
      split
      · rename_i hs
        rw [hs, hn]
        rfl
      · rfl
    rw [hread, dataAt]
    cases m.nodeAt x with
    | none => rfl
    | some xn =>
        simp only [Option.bind_some]
        rw [getData_hideNode hn]
        split
        · rw [Option.map_map]
          rfl
        · rfl
  apply lookup_congr hdata
  intro d hd hdir
  apply findChild_hideNode hn hname
  intro he
  apply hres
  simp only [walk, hd, Option.bind_some, if_pos hdir, he]

private theorem findChild_append {c : Nat} {cs : List Nat} {cn : MemNode} (hcn : m.nodeAt c = some cn)
    (hne : cn.name ≠ name) : m.findChild name (cs ++ [c]) = m.findChild name cs := by
  induction cs with
  | nil => simp [findChild, hcn, hne]
  | cons b cs ih => simp only [List.cons_append, findChild, ih]

theorem findChild_append_self {c : Nat} {cs : List Nat} {cn : MemNode} (hcn : m.nodeAt c = some cn)
    (hname : cn.name = name) (h : m.findChild name cs = some none) :
    m.findChild name (cs ++ [c]) = some (some c) := by
  induction cs with
  | nil => simp [findChild, hcn, hname]
  | cons b cs ih =>
      simp only [List.cons_append, findChild] at h ⊢
      obtain ⟨bn, hbn, h⟩ := Option.bind_eq_some_iff.mp h
      rw [hbn, Option.bind_some]
      split at h
      · cases h
      · rename_i hne
        rw [if_neg hne]
        exact ih h

section Enter

variable {parent : Nat} {isDir : Bool} {hardlink : Option Nat} {pn : MemNode} {pd : MemData}
  {new : Text} (mode : Nat)

theorem Sound.enterNode_data (h : m.Sound) (he : m.Enterable parent new isDir hardlink pn pd)
    {xn : MemNode} (hx0 : x ≠ 0) (hxn : m.nodeAt x = some xn) :
    ∃ b d', m.getData xn.nodedata = some b ∧
      (m.enterNode parent new isDir mode hardlink).getData xn.nodedata = some d' ∧
      d'.isDir = b.isDir ∧ d'.children = if xn.nodedata = pn.nodedata then
        b.children ++ [m.newSlot parent new isDir mode hardlink] else b.children := by
  obtain ⟨b, hb⟩ := h.exists_data hx0 hxn
  obtain ⟨d', hd'⟩ := he.forward hb
  rcases he.backward hd' with ⟨b₀, hb₀, hdir, -, -, hchildren⟩ | ⟨-, hlen, -⟩
  · rw [hb] at hb₀
    cases Option.some.inj hb₀
    exact ⟨b, d', hb, hd', hdir, hchildren⟩
  · have hlt := lt_heap_length hb
    omega

theorem Sound.findChild_enterNode (h : m.Sound) {xn : MemNode} {b : MemData}
    (hxn : m.nodeAt x = some xn) (hb : m.getData xn.nodedata = some b) (hdir : b.isDir = true) :
    (m.enterNode parent new isDir mode hardlink).findChild name b.children =
      m.findChild name b.children := by
  apply findChild_congr
  intro c hc
  obtain ⟨-, -, hsome⟩ := h.children x xn b hxn hb hdir c hc
  obtain ⟨cn, hcn⟩ := Option.isSome_iff_exists.mp hsome
  rw [nodeAt_enterNode_of_some hcn, hcn]

theorem Sound.lookup_enterNode (h : m.Sound) (he : m.Enterable parent new isDir hardlink pn pd)
    {xn : MemNode} (hx0 : x ≠ 0) (hxn : m.nodeAt x = some xn)
    (hother : xn.nodedata ≠ pn.nodedata ∨ name ≠ new) :
    (m.enterNode parent new isDir mode hardlink).walk x [name] = m.walk x [name] := by
  obtain ⟨b, d', hb, hd', hdir, hchildren⟩ := h.enterNode_data mode he hx0 hxn
  have hxn' : (m.enterNode parent new isDir mode hardlink).nodeAt x = some xn :=
    nodeAt_enterNode_of_some hxn
  simp only [walk, dataAt_of hxn, dataAt_of hxn', hb, hd', Option.bind_some, hdir]
  by_cases hbdir : b.isDir = true
  · simp only [hbdir, if_true]
    have hold : (m.enterNode parent new isDir mode hardlink).findChild name b.children =
        m.findChild name b.children := h.findChild_enterNode mode hxn hb hbdir
    rw [hchildren]
    split
    · rename_i hp
      have hnew : (m.enterNode parent new isDir mode hardlink).nodeAt
          (m.newSlot parent new isDir mode hardlink) = some ⟨new, parent, m.newData hardlink⟩ := by
        rw [nodeAt_enterNode, if_pos rfl]
      have hne : name ≠ new := by
        rcases hother with hdata | hne
        · exact absurd hp hdata
        · exact hne
      rw [findChild_append hnew (Ne.symm hne), hold]
    · rw [hold]
  · simp only [hbdir, Bool.false_eq_true, if_false]

theorem Sound.lookup_newSlot (h : m.Sound) (he : m.Enterable parent new isDir hardlink pn pd)
    {xn : MemNode} (hx0 : x ≠ 0) (hxn : m.nodeAt x = some xn) (hdata : xn.nodedata = pn.nodedata) :
    (m.enterNode parent new isDir mode hardlink).walk x [new] =
      some (.ok (m.newSlot parent new isDir mode hardlink)) := by
  obtain ⟨b, d', hb, hd', hdir, hchildren⟩ := h.enterNode_data mode he hx0 hxn
  have hxn' : (m.enterNode parent new isDir mode hardlink).nodeAt x = some xn :=
    nodeAt_enterNode_of_some hxn
  have hpd := he.data
  rw [← hdata, hb] at hpd
  cases hpd
  have hnew : (m.enterNode parent new isDir mode hardlink).nodeAt
      (m.newSlot parent new isDir mode hardlink) = some ⟨new, parent, m.newData hardlink⟩ := by
    rw [nodeAt_enterNode, if_pos rfl]
  have hmissing : (m.enterNode parent new isDir mode hardlink).findChild new pd.children =
      some none := by
    rw [h.findChild_enterNode mode hxn hb he.dir, he.missing]
  simp only [walk, dataAt_of hxn', hd', Option.bind_some, hdir, he.dir, if_true]
  rw [hchildren, if_pos hdata, findChild_append_self hnew rfl hmissing]
  rfl

end Enter

/-! ## Walks after a removal -/

theorem ne_deletedName (h : '/' ∉ name) : name ≠ deletedName := by
  intro he
  rw [he] at h
  exact h (by decide)

/-- The node is gone from the places that paths can reach, and nothing else is. -/
structure Vanishes (m m' : MemMount) (slot : Nat) : Prop where
  sound : m'.Sound
  shrinks : Shrinks m m'
  node : ∀ t n, t ≠ slot → m.nodeAt t = some n → m'.nodeAt t = some n
  other : ∀ x xn name, x ≠ 0 → m.nodeAt x = some xn → x ≠ slot → '/' ∉ name →
    m.walk x [name] ≠ some (.ok slot) → m'.walk x [name] = m.walk x [name]
  gone : ∀ x xn name, x ≠ 0 → m.nodeAt x = some xn → x ≠ slot → '/' ∉ name →
    m.walk x [name] = some (.ok slot) → m'.walk x [name] = some (.error .enoent)

/-- Since nothing else in the directory has the name, it is not found again. -/
theorem Sound.lookup_gone (h : m.Sound) (hs : Shrinks m m') (hm' : m'.Sound) {xn : MemNode}
    (hx0 : x ≠ 0) (hxn : m.nodeAt x = some xn) (hxn' : m'.nodeAt x = some xn) (hslash : '/' ∉ name)
    (hgone : ∀ n', m'.nodeAt slot = some n' → n'.name = deletedName)
    (hres : m.walk x [name] = some (.ok slot)) : m'.walk x [name] = some (.error .enoent) := by
  obtain ⟨d', hd'⟩ := hm'.exists_data hx0 hxn'
  obtain ⟨b, hb, hdir, hsub⟩ := hs.data _ d' hd'
  obtain ⟨b₀, hb₀, hbdir, hfind⟩ := walk_singleton_ok hres
  rw [dataAt_of hxn, hb] at hb₀
  cases hb₀
  obtain ⟨hmem, sn, hsn, hname⟩ := findChild_found hfind
  have hd'dir : d'.isDir = true := by rw [hdir, hbdir]
  obtain ⟨r, hr⟩ := findChild_total (m := m') name
    fun c hc => (hm'.children x xn d' hxn' hd' hd'dir c hc).2.2
  cases r with
  | none => simp only [walk, dataAt_of hxn', hd', Option.bind_some, if_pos hd'dir, hr]
  | some c =>
      obtain ⟨hc, cn', hcn', hcname⟩ := findChild_found hr
      obtain ⟨cn, hcn, -, -, hnames⟩ := hs.node c cn' hcn'
      have hkept : cn.name = name := by
        rcases hnames with heq | hdel
        · rw [← heq, hcname]
        · rw [hcname] at hdel
          exact absurd hdel (ne_deletedName hslash)
      have hcs : c = slot := by
        rcases h.names x xn b hxn hb hbdir c (hsub.subset hc) slot hmem cn sn hcn hsn
          (by rw [hkept, hname]) with he | hdel
        · exact he
        · rw [hkept] at hdel
          exact absurd hdel (ne_deletedName hslash)
      have hdel := hgone cn' (hcs ▸ hcn')
      rw [hcname] at hdel
      exact absurd hdel (ne_deletedName hslash)

theorem Sound.vanishes_removeNode (h : m.Sound) (hr : m.Removable slot n d)
    (hlisted : m.listedByParent slot = true) : Vanishes m (m.removeNode slot) slot where
  sound := h.removeNode hr hlisted
  shrinks := shrinks_removeNode hr.node
  node := by
    intro t tn hts htn
    rw [nodeAt_removeNode hr.node, if_neg hts, htn]
  other := fun x xn name hx0 hxn hxs _ hres => h.lookup_removeNode hr hlisted hx0 hxn hxs hres
  gone := by
    intro x xn name hx0 hxn hxs hslash hres
    have hxn' : (m.removeNode slot).nodeAt x = some xn := by
      rw [nodeAt_removeNode hr.node, if_neg hxs, hxn]
    apply h.lookup_gone (shrinks_removeNode hr.node) (h.removeNode hr hlisted) hx0 hxn hxn' hslash _
      hres
    intro n' hn'
    rw [nodeAt_removeNode hr.node, if_pos rfl] at hn'
    cases hn'

theorem Sound.vanishes_hideNode (h : m.Sound) (hh : m.Hideable slot n d) :
    Vanishes m (m.hideNode slot) slot where
  sound := h.hideNode hh
  shrinks := shrinks_hideNode hh.node
  node := by
    intro t tn hts htn
    rw [nodeAt_hideNode hh.node, if_neg hts, htn]
  other := fun x xn name _ _ _ hslash hres => lookup_hideNode hh.node (ne_deletedName hslash) hres
  gone := by
    intro x xn name hx0 hxn hxs hslash hres
    have hxn' : (m.hideNode slot).nodeAt x = some xn := by
      rw [nodeAt_hideNode hh.node, if_neg hxs, hxn]
    apply h.lookup_gone (shrinks_hideNode hh.node) (h.hideNode hh) hx0 hxn hxn' hslash _ hres
    intro n' hn'
    rw [nodeAt_hideNode hh.node, if_pos rfl] at hn'
    cases hn'
    rfl

section Vanishes

variable {names : List Text} {sn : MemNode}

/-- The lookups of a walk that does not arrive at the node stay as they are. -/
theorem Vanishes.lookup_other (hv : Vanishes m m' slot) (h : m.Sound) (hs0 : s ≠ 0)
    (hsn : m.nodeAt s = some sn) (hss : s ≠ slot) (hslash : ∀ name ∈ names, '/' ∉ name)
    (hnot : slot ∉ m.arrivals s names) {q : Nat × Text} (hq : q ∈ m.lookups s names) :
    m'.walk q.1 [q.2] = m.walk q.1 [q.2] := by
  obtain ⟨hq0, ⟨xn, hxn⟩, hname, harr, hall⟩ := h.mem_lookups hs0 hsn hq
  apply hv.other q.1 xn q.2 hq0 hxn _ (hslash q.2 hname)
  · intro he
    exact hnot (hall slot he)
  · rcases harr with he | hmem
    · rw [he]
      exact hss
    · intro he
      exact hnot (he ▸ hmem)

theorem Vanishes.walk_other (hv : Vanishes m m' slot) (h : m.Sound) (hs0 : s ≠ 0)
    (hsn : m.nodeAt s = some sn) (hss : s ≠ slot) (hslash : ∀ name ∈ names, '/' ∉ name)
    (hnot : slot ∉ m.arrivals s names) : m'.walk s names = m.walk s names :=
  walk_congr fun _ hq => hv.lookup_other h hs0 hsn hss hslash hnot hq

/-- A walk that arrives at the node fails from now on. -/
theorem Vanishes.walk_gone (hv : Vanishes m m' slot) (h : m.Sound) (hs0 : s ≠ 0)
    (hsn : m.nodeAt s = some sn) (hss : s ≠ slot) (hslash : ∀ name ∈ names, '/' ∉ name)
    (hmem : slot ∈ m.arrivals s names) : m'.walk s names = some (.error .enoent) := by
  induction names generalizing s sn with
  | nil => cases hmem
  | cons name rest ih =>
      have hname := hslash name List.mem_cons_self
      rcases h.lookup hs0 hsn name with ⟨e, he⟩ | ⟨t, tn, ht, h0, -, htn, -⟩
      · rw [arrivals, he] at hmem
        cases hmem
      · rw [arrivals, ht] at hmem
        rw [walk_cons]
        by_cases hts : t = slot
        · subst hts
          rw [hv.gone s sn name hs0 hsn hss hname ht]
          rfl
        · have hres : m.walk s [name] ≠ some (.ok slot) := by
            rw [ht]
            intro heq
            cases heq
            exact hts rfl
          rw [hv.other s sn name hs0 hsn hss hname hres, ht, Option.bind_some]
          rcases List.mem_cons.mp hmem with he | hmem
          · exact absurd he.symm hts
          · exact ih h0 htn hts (fun name hname => hslash name (List.mem_cons_of_mem _ hname)) hmem

end Vanishes

end MemMount

end Zrt.Fs
