import Mathlib.Data.List.Perm.Subperm
import ClosureCodegen.Proofs.Coloring.Proper

/-!
# When colouring succeeds

Simplification keeps count: the degree of a remaining node is the number of its remaining
neighbours, and the worklist has the remaining nodes with fewer neighbours than there are registers.
So a node that is not set aside as a candidate for spilling has few enough neighbours above it on
the stack, unless only barred nodes remained and each of them had too many.  Only such a barred node
can be left without a register and without a way out.  If barred nodes have fewer barred neighbours
than there are registers, there is none, and colouring finds a register for every node or a
candidate to spill.
-/

namespace ClosureCodegen
open List

variable {m id a : Nat} {c : Bool} {exempt : Nat → Prop} {x : String} {ys : List String}

/-- What the proofs need of a graph: neighbours are nodes, each listed once, and mutual. -/
structure InterferenceGraph.IsSimple (g : InterferenceGraph) : Prop where
  size_adjacency : g.adjacency.size = g.size
  symm : ∀ {a b}, b ∈ g.neighbours a → a ∈ g.neighbours b
  nodup : ∀ a, (g.neighbours a).Nodup
  lt_size : ∀ {a b}, b ∈ g.neighbours a → b < g.size

/-- A stack whose nodes are different, with fewer than `k` neighbours above each node that is neither
a candidate nor exempt. -/
def Simplified (g : InterferenceGraph) (k : Nat) (exempt : Nat → Prop) : List SetAside → Prop
  | [] => True
  | c :: below =>
    c.node ∉ below.map SetAside.node ∧
      (c.candidate = false → exempt c.node ∨
        (g.neighbours c.node).countP (fun m => m ∉ below.map SetAside.node) < k) ∧
      Simplified g k exempt below

namespace Simplifier

variable {g : InterferenceGraph} {k : Nat} {s : Simplifier}

/-- The number of remaining neighbours of a node. -/
def left (g : InterferenceGraph) (s : Simplifier) (m : Nat) : Nat :=
  (g.neighbours m).countP fun x => !s.isRemoved x

structure Consistent (g : InterferenceGraph) (s : Simplifier) : Prop where
  size_removed : s.removed.size = g.size
  size_degree : s.degree.size = g.size
  degree : ∀ m, s.isRemoved m = false → s.degreeOf m = s.left g m
  remaining : s.remaining = (List.range g.size).countP fun m => !s.isRemoved m
  stack : ∀ m, m ∈ s.stack.map SetAside.node ↔ m < g.size ∧ s.isRemoved m = true

/-- The worklist has the remaining nodes with few neighbours. -/
def Listed (k : Nat) (s : Simplifier) : Prop :=
  ∀ m, s.isRemoved m = false → (m ∈ s.worklist ↔ s.degreeOf m < k)

/-! ## The first state -/

theorem degreeOf_start (m : Nat) :
    (start g k).degreeOf m = (g.neighbours m).length := by
  simp only [degreeOf, start, InterferenceGraph.neighbours, Array.getD_eq_getD_getElem?,
    Array.getElem?_map]
  cases g.adjacency[m]? <;> rfl

theorem isRemoved_start (m : Nat) : (start g k).isRemoved m = false ↔ m < g.size := by
  simp only [isRemoved, start, Array.getD_eq_getD_getElem?, Array.getElem?_replicate]
  by_cases h : m < g.size <;> simp [h]

theorem consistent_start (hg : g.IsSimple) : Consistent g (start g k) where
  size_removed := Array.size_replicate
  size_degree := by
    rw [start, Array.size_map]
    exact hg.size_adjacency
  degree m _ := by
    rw [degreeOf_start, left, countP_eq_length.mpr]
    intro x hx
    rw [(isRemoved_start x).mpr (hg.lt_size hx)]
    rfl
  remaining := by
    rw [countP_eq_length.mpr, length_range]
    · rfl
    · intro m hm
      rw [(isRemoved_start m).mpr (mem_range.mp hm)]
      rfl
  stack m := by
    refine ⟨nofun, fun ⟨hm, hremoved⟩ => ?_⟩
    rw [(isRemoved_start m).mpr hm] at hremoved
    cases hremoved

theorem listed_start : Listed k (start g k) := by
  intro m hm
  rw [isRemoved_start] at hm
  exact mem_filter.trans ⟨fun h => of_decide_eq_true h.2,
    fun h => ⟨mem_range.mpr hm, decide_eq_true h⟩⟩

/-! ## Setting a node aside -/

theorem getD_setIfInBounds_nat {degree : Array Nat} {x d : Nat} (hm : m < degree.size) :
    (degree.setIfInBounds m d).getD x 0 = if x = m then d else degree.getD x 0 := by
  rw [Array.getD_eq_getD_getElem?, Array.getElem?_setIfInBounds, Array.getD_eq_getD_getElem?]
  by_cases h : m = x
  · subst h
    simp [hm]
  · rw [if_neg h, if_neg (Ne.symm h)]

theorem foldl_loseNeighbour (k : Nat) (removed : Array Bool) {ms : List Nat} (hms : ms.Nodup)
    {degree : Array Nat} (hlt : ∀ m ∈ ms, m < degree.size) (worklist : List Nat) (x : Nat) :
    let counts := ms.foldl (loseNeighbour k removed) (degree, worklist)
    counts.1.size = degree.size ∧
      counts.1.getD x 0 = (if x ∈ ms ∧ removed.getD x true = false then degree.getD x 0 - 1
        else degree.getD x 0) ∧
      (x ∈ counts.2 ↔ x ∈ worklist ∨
        (x ∈ ms ∧ removed.getD x true = false ∧ degree.getD x 0 - 1 + 1 = k)) := by
  induction ms generalizing degree worklist with
  | nil => simp
  | cons m ms ih =>
    obtain ⟨hnew, hms⟩ := nodup_cons.mp hms
    have hm : m < degree.size := hlt m mem_cons_self
    simp only [foldl_cons]
    cases hr : removed.getD m true with
    | true =>
      have hlose : loseNeighbour k removed (degree, worklist) m = (degree, worklist) := by
        rw [loseNeighbour, if_pos hr]
      rw [hlose]
      obtain ⟨hsize, hdegree, hlist⟩ :=
        ih hms (fun x hx => hlt x (mem_cons_of_mem m hx)) worklist
      refine ⟨hsize, hdegree.trans ?_, hlist.trans ?_⟩
      · by_cases hx : x = m
        · subst hx
          simp [hr]
        · simp [hx]
      · by_cases hx : x = m
        · subst hx
          simp [hr]
        · simp [hx]
    | false =>
      have hlose : loseNeighbour k removed (degree, worklist) m =
          (degree.setIfInBounds m (degree.getD m 0 - 1),
            if degree.getD m 0 - 1 + 1 = k then worklist ++ [m] else worklist) := by
        rw [loseNeighbour, if_neg (by rw [hr]; exact Bool.false_ne_true)]
      rw [hlose]
      have hlt' : ∀ x ∈ ms, x < (degree.setIfInBounds m (degree.getD m 0 - 1)).size := by
        intro x hx
        rw [Array.size_setIfInBounds]
        exact hlt x (mem_cons_of_mem m hx)
      obtain ⟨hsize, hdegree, hlist⟩ :=
        ih hms hlt' (if degree.getD m 0 - 1 + 1 = k then worklist ++ [m] else worklist)
      rw [getD_setIfInBounds_nat hm] at hdegree hlist
      refine ⟨hsize.trans Array.size_setIfInBounds, hdegree.trans ?_, hlist.trans ?_⟩
      · by_cases hx : x = m
        · subst hx
          simp [hnew, hr]
        · simp [hx]
      · by_cases hx : x = m
        · subst hx
          by_cases hk : degree.getD x 0 - 1 + 1 = k
          · rw [if_pos hk]
            exact iff_of_true (.inl (mem_append_right _ (mem_singleton_self x)))
              (.inr ⟨mem_cons_self, hr, hk⟩)
          · rw [if_neg hk]
            simp only [hnew, hk, false_and, and_false]
        · have hlist : x ∈ (if degree.getD m 0 - 1 + 1 = k then worklist ++ [m] else worklist) ↔
              x ∈ worklist := by
            by_cases hk : degree.getD m 0 - 1 + 1 = k
            · rw [if_pos hk, mem_append, mem_singleton, or_iff_left hx]
            · rw [if_neg hk]
          rw [hlist, if_neg hx, mem_cons, or_iff_right hx]

theorem isRemoved_remove (hs : s.removed.size = g.size) (hid : id < g.size) (c : Bool) (m : Nat) :
    (s.remove g k id c).isRemoved m = (m == id || s.isRemoved m) := by
  simp only [isRemoved, remove, Array.getD_eq_getD_getElem?, Array.getElem?_setIfInBounds]
  by_cases h : id = m
  · subst h
    simp [hs, hid]
  · simp [h, Ne.symm h]

/-- Among nodes listed once each, one fewer remains if the node that is set aside is listed. -/
theorem countP_remove (hs : s.removed.size = g.size) (hid : id < g.size)
    (hleft : s.isRemoved id = false) (c : Bool) {ns : List Nat} (hns : ns.Nodup) :
    ns.countP (fun x => !(s.remove g k id c).isRemoved x) + (if id ∈ ns then 1 else 0) =
      ns.countP fun x => !s.isRemoved x := by
  induction ns with
  | nil => rfl
  | cons n ns ih =>
    obtain ⟨hnew, hns⟩ := nodup_cons.mp hns
    have ih := ih hns
    rw [countP_cons, countP_cons, isRemoved_remove hs hid]
    by_cases hn : n = id
    · subst hn
      simp only [hnew, if_false, Nat.add_zero] at ih
      simp [hleft, ih]
    · simp only [mem_cons, Ne.symm hn, false_or, beq_eq_false_iff_ne.mpr hn, Bool.false_or]
      omega

theorem left_remove (hg : g.IsSimple) (hs : s.removed.size = g.size) (hid : id < g.size)
    (hleft : s.isRemoved id = false) (c : Bool) (m : Nat) :
    (s.remove g k id c).left g m + (if id ∈ g.neighbours m then 1 else 0) = s.left g m :=
  countP_remove hs hid hleft c (hg.nodup m)

theorem degreeOf_remove (hg : g.IsSimple) (h : s.Consistent g) (id : Nat) (c : Bool)
    (hm : (s.remove g k id c).isRemoved m = false) :
    (s.remove g k id c).degreeOf m =
      (if m ∈ g.neighbours id then s.degreeOf m - 1 else s.degreeOf m) ∧
    (m ∈ (s.remove g k id c).worklist ↔
      m ∈ s.worklist ∨ (m ∈ g.neighbours id ∧ s.degreeOf m - 1 + 1 = k)) := by
  have hlt : ∀ x ∈ g.neighbours id, x < s.degree.size := fun x hx =>
    h.size_degree ▸ hg.lt_size hx
  obtain ⟨_, hdegree, hlist⟩ :=
    foldl_loseNeighbour k (s.removed.setIfInBounds id true) (hg.nodup id) hlt s.worklist m
  have hm' : (s.removed.setIfInBounds id true).getD m true = false := hm
  rw [hm'] at hdegree hlist
  simp only [and_true, true_and] at hdegree hlist
  exact ⟨hdegree, hlist⟩

theorem Consistent.remove (hg : g.IsSimple) (h : s.Consistent g) (hid : id < g.size)
    (hleft : s.isRemoved id = false) : (s.remove g k id c).Consistent g where
  size_removed := by
    rw [Simplifier.remove, Array.size_setIfInBounds]
    exact h.size_removed
  size_degree := by
    have hlt : ∀ x ∈ g.neighbours id, x < s.degree.size := fun x hx =>
      h.size_degree ▸ hg.lt_size hx
    obtain ⟨hsize, _⟩ :=
      foldl_loseNeighbour k (s.removed.setIfInBounds id true) (hg.nodup id) hlt s.worklist 0
    exact hsize.trans h.size_degree
  degree := by
    intro m hm
    have hold : s.isRemoved m = false := by
      rw [isRemoved_remove h.size_removed hid] at hm
      exact (Bool.or_eq_false_iff.mp hm).2
    have hcount := left_remove (k := k) hg h.size_removed hid hleft c m
    rw [(degreeOf_remove hg h id c hm).1, h.degree m hold]
    by_cases hmem : m ∈ g.neighbours id
    · rw [if_pos (hg.symm hmem)] at hcount
      rw [if_pos hmem]
      omega
    · rw [if_neg fun hn => hmem (hg.symm hn)] at hcount
      rw [if_neg hmem]
      omega
  remaining := by
    have hcount := countP_remove (k := k) h.size_removed hid hleft c (nodup_range (n := g.size))
    rw [if_pos (mem_range.mpr hid)] at hcount
    have hrem : (s.remove g k id c).remaining = s.remaining - 1 := rfl
    rw [hrem, h.remaining]
    omega
  stack := by
    intro m
    rw [isRemoved_remove h.size_removed hid, Bool.or_eq_true, beq_iff_eq]
    refine (mem_cons.trans (or_congr_right (h.stack m))).trans
      ⟨?_, fun ⟨hm, hor⟩ => hor.imp_right (⟨hm, ·⟩)⟩
    rintro (rfl | ⟨hm, hremoved⟩)
    · exact ⟨hid, .inl rfl⟩
    · exact ⟨hm, .inr hremoved⟩

/-- A node with a low degree has few neighbours above it, wherever it ends up on the stack. -/
theorem simplified_remove (hg : g.IsSimple) (h : s.Consistent g)
    (hleft : s.isRemoved id = false) (hc : c = false → exempt id ∨ s.degreeOf id < k)
    (hs : Simplified g k exempt s.stack) : Simplified g k exempt (s.remove g k id c).stack := by
  refine ⟨fun hmem => ?_, fun hcand => (hc hcand).imp_right fun hlt => ?_, hs⟩
  · rw [((h.stack id).mp hmem).2] at hleft
    cases hleft
  · rw [h.degree id hleft, left] at hlt
    refine Nat.lt_of_le_of_lt (countP_mono_left fun m hm hnot => ?_) hlt
    rw [Bool.not_eq_true', ← Bool.not_eq_true]
    exact fun hremoved => of_decide_eq_true hnot ((h.stack m).mpr ⟨hg.lt_size hm, hremoved⟩)

theorem Listed.remove (hg : g.IsSimple) (h : s.Consistent g) (hid : id < g.size)
    (hleft : s.isRemoved id = false)
    (hl : ∀ m, s.isRemoved m = false → m ≠ id → (m ∈ s.worklist ↔ s.degreeOf m < k)) :
    (s.remove g k id c).Listed k := by
  intro m hm
  obtain ⟨hdegree, hlist⟩ := degreeOf_remove hg h id c hm
  rw [isRemoved_remove h.size_removed hid, Bool.or_eq_false_iff, beq_eq_false_iff_ne] at hm
  rw [hdegree, hlist, hl m hm.2 hm.1]
  by_cases hmem : m ∈ g.neighbours id
  · have hcount := left_remove (k := k) hg h.size_removed hid hleft c m
    rw [if_pos (hg.symm hmem), ← h.degree m hm.2] at hcount
    simp only [hmem, true_and, if_true]
    omega
  · simp [hmem]

/-! ## Setting all nodes aside -/

theorem highest?_eq_none {ids : List Nat} (h : s.highest? ids = none) : ids = [] := by
  rcases s.highest?_cases ids with ⟨-, hids⟩ | ⟨i, -, hsome⟩
  · exact hids
  · cases hsome.symm.trans h

/-- The node that is chosen remains; it is a candidate unless no other candidate remains. -/
theorem choose?_eq_some {spillable : List Nat} (hsp : ∀ m ∈ spillable, m < g.size) {c : SetAside}
    (h : s.choose? g spillable = some c) : c.node < g.size ∧ s.isRemoved c.node = false ∧
      (c.candidate = false → ∀ m ∈ spillable, s.isRemoved m = true) := by
  have hmem : ∀ {ids : List Nat} {id : Nat}, s.highest? (s.remainingOf ids) = some id →
      id ∈ ids ∧ s.isRemoved id = false := by
    intro ids id hid
    have := mem_filter.mp (highest?_mem hid)
    exact ⟨this.1, by simpa using this.2⟩
  unfold choose? at h
  split at h
  · next id hid =>
    cases h
    exact ⟨hsp _ (hmem hid).1, (hmem hid).2, by rintro ⟨⟩⟩
  · next hnone =>
    obtain ⟨id, hid, rfl⟩ := Option.map_eq_some_iff.mp h
    refine ⟨mem_range.mp (hmem hid).1, (hmem hid).2, fun _ m hm => ?_⟩
    by_contra hleft
    rw [Bool.not_eq_true] at hleft
    have : m ∈ s.remainingOf spillable := mem_filter.mpr ⟨hm, by simp [hleft]⟩
    rw [highest?_eq_none hnone] at this
    cases this

theorem choose?_eq_none {spillable : List Nat} (h : s.choose? g spillable = none) :
    ∀ m < g.size, s.isRemoved m = true := by
  intro m hm
  unfold choose? at h
  split at h
  · cases h
  · by_contra hleft
    rw [Bool.not_eq_true] at hleft
    have : m ∈ s.remainingOf (List.range g.size) :=
      mem_filter.mpr ⟨mem_range.mpr hm, by simp [hleft]⟩
    rw [highest?_eq_none (Option.map_eq_none_iff.mp h)] at this
    cases this

theorem lt_size_of_isRemoved (h : s.Consistent g) (hleft : s.isRemoved id = false) :
    id < g.size := by
  by_contra hge
  have hnone : s.removed[id]? = none :=
    Array.getElem?_eq_none (h.size_removed ▸ Nat.le_of_not_lt hge)
  rw [isRemoved, Array.getD_eq_getD_getElem?, hnone] at hleft
  cases hleft

theorem Consistent.withWorklist (h : s.Consistent g) (worklist : List Nat) :
    Consistent g { s with worklist } :=
  ⟨h.size_removed, h.size_degree, h.degree, h.remaining, h.stack⟩

section Run

variable {spillable : List Nat} {s' : Simplifier}

theorem Consistent.step (hg : g.IsSimple) (hsp : ∀ m ∈ spillable, m < g.size)
    (hstep : Step g k spillable s s') (h : s.Consistent g) : s'.Consistent g := by
  cases hstep with
  | skip => exact h.withWorklist _
  | low _ _ hleft => exact (h.withWorklist _).remove hg (lt_size_of_isRemoved h hleft) hleft
  | chosen _ _ hchoose =>
    obtain ⟨hid, hleft, _⟩ := choose?_eq_some hsp hchoose
    exact h.remove hg hid hleft

theorem Listed.step (hg : g.IsSimple) (hsp : ∀ m ∈ spillable, m < g.size)
    (hstep : Step g k spillable s s') (h : s.Consistent g) (hl : s.Listed k) : s'.Listed k := by
  -- what the worklist lost is the node at its head
  have hrest : ∀ {id rest}, s.worklist = id :: rest → ∀ m, s.isRemoved m = false → m ≠ id →
      (m ∈ rest ↔ s.degreeOf m < k) := by
    intro id rest hw m hm hne
    have := hl m hm
    rwa [hw, mem_cons, or_iff_right hne] at this
  cases hstep with
  | skip _ hw hremoved =>
    intro m hm
    refine hrest hw m hm fun he => ?_
    rw [← he, show s.isRemoved m = false from hm] at hremoved
    cases hremoved
  | low _ hw hleft =>
    exact .remove hg (h.withWorklist _) (lt_size_of_isRemoved h hleft) hleft (hrest hw)
  | chosen _ _ hchoose =>
    obtain ⟨hid, hleft, _⟩ := choose?_eq_some hsp hchoose
    exact .remove hg h hid hleft fun m hm _ => hl m hm

/-- What is known of every state of simplification: all its nodes that are no candidates are exempt or
have few neighbours above them. -/
structure Kept (g : InterferenceGraph) (k : Nat) (exempt : Nat → Prop) (s : Simplifier) : Prop where
  consistent : s.Consistent g
  listed : s.Listed k
  simplified : Simplified g k exempt s.stack

theorem kept_start (hg : g.IsSimple) (exempt : Nat → Prop) : (start g k).Kept g k exempt :=
  ⟨consistent_start hg, listed_start, trivial⟩

/-- A step keeps this if every node that is chosen without being a candidate is exempt or has a low
degree. -/
theorem Kept.step (hg : g.IsSimple) (hsp : ∀ m ∈ spillable, m < g.size) {exempt : Nat → Prop}
    (hexempt : ∀ {s : Simplifier} {c : SetAside}, s.Kept g k exempt → s.worklist = [] →
      s.choose? g spillable = some c → c.candidate = false →
        exempt c.node ∨ s.degreeOf c.node < k)
    (hstep : Step g k spillable s s') (h : s.Kept g k exempt) : s'.Kept g k exempt := by
  refine ⟨h.consistent.step hg hsp hstep, h.listed.step hg hsp hstep h.consistent, ?_⟩
  cases hstep with
  | skip => exact h.simplified
  | low _ hw hleft =>
    refine simplified_remove hg (h.consistent.withWorklist _) hleft (fun _ => .inr ?_) h.simplified
    exact (h.listed _ hleft).mp (hw ▸ mem_cons_self)
  | chosen _ hw hchoose =>
    obtain ⟨_, hleft, _⟩ := choose?_eq_some hsp hchoose
    exact simplified_remove hg h.consistent hleft (hexempt h hw hchoose) h.simplified

/-- Where the run ends, every node has been set aside. -/
theorem Consistent.isRemoved_of_end (h : s.Consistent g)
    (hend : s.remaining = 0 ∨ s.choose? g spillable = none) : ∀ m < g.size, s.isRemoved m = true := by
  intro m hm
  rcases hend with hzero | hnone
  · rw [h.remaining, countP_eq_zero] at hzero
    simpa using hzero m (mem_range.mpr hm)
  · exact choose?_eq_none hnone m hm

theorem degreeOf_le_of_choose? (h : s.Consistent g) (hsp : ∀ m ∈ spillable, m < g.size)
    {c : SetAside} (hchoose : s.choose? g spillable = some c) (hc : c.candidate = false) :
    c.node < g.size ∧ c.node ∉ spillable ∧
      s.degreeOf c.node ≤ (g.neighbours c.node).countP fun x => x ∉ spillable := by
  obtain ⟨hid, hleft, hrest⟩ := choose?_eq_some hsp hchoose
  refine ⟨hid, fun hmem => ?_, ?_⟩
  · rw [hrest hc _ hmem] at hleft
    cases hleft
  · rw [h.degree _ hleft, left]
    refine countP_mono_left fun m _ hm => decide_eq_true fun hmem => ?_
    rw [hrest hc m hmem] at hm
    cases hm

end Run

end Simplifier

/-! ## Selection -/

namespace InterferenceGraph

variable {g : InterferenceGraph} {order : List PhysReg}

theorem exists_find?_not_mem {taken : List PhysReg} (hnodup : order.Nodup)
    (h : taken.length < order.length) : ∃ r, order.find? (fun r => r ∉ taken) = some r := by
  rw [← Option.isSome_iff_exists, find?_isSome]
  by_contra hall
  have hsub : order ⊆ taken := fun r hr => by
    by_contra hn
    exact hall ⟨r, hr, decide_eq_true hn⟩
  exact absurd (subperm_of_subset hnodup hsub).length_le (Nat.not_le.mpr h)

/-- Selection from a simplified stack fails only at an exempt node. Otherwise it colours everything
unless it spills. -/
theorem select_simplified (hnodup : order.Nodup) {stack : List SetAside}
    {colors : Array (Option PhysReg)} (h : Simplified g order.length exempt stack)
    (hstack : ∀ m ∈ stack.map SetAside.node, colors.getD m none = none) :
    (∃ c, g.select order stack colors = .ok c ∧ ∀ registers, c = .assigned registers →
      ∀ m x, g.IsNode m x → m < colors.size →
        m ∈ stack.map SetAside.node ∨ (colors.getD m none).isSome → ∃ p, (x, p) ∈ registers) ∨
    ∃ m ∈ stack.map SetAside.node, exempt m ∧
      g.select order stack colors = .error (.uncolorableNode (g.nameOf m)) := by
  induction stack generalizing colors with
  | nil =>
    refine .inl ⟨_, rfl, ?_⟩
    rintro _ ⟨⟩ m x hx _ hm
    obtain ⟨p, hp⟩ := Option.isSome_iff_exists.mp (hm.resolve_left not_mem_nil)
    exact ⟨p, mem_assigned.mpr ⟨m, hx, hp⟩⟩
  | cons a stack ih =>
    obtain ⟨hnew, hfew, hrest⟩ := h
    cases hfind : order.find? fun r => r ∉ g.taken colors a.node with
    | none =>
      cases hcand : a.candidate with
      | true =>
        refine .inl ⟨.spill (g.nameOf a.node), ?_, nofun⟩
        simp only [select, hfind, hcand, if_true]
      | false =>
        rcases hfew hcand with hexempt | hfew
        · refine .inr ⟨a.node, mem_cons_self, hexempt, ?_⟩
          simp only [select, hfind, hcand, Bool.false_eq_true, if_false]
        -- the coloured neighbours are among those above the node
        · have htaken : (g.taken colors a.node).length ≤
              (g.neighbours a.node).countP fun m => m ∉ stack.map SetAside.node := by
            rw [taken, length_filterMap_eq_countP]
            refine countP_mono_left fun m _ hm => decide_eq_true fun hmem => ?_
            rw [hstack m (mem_cons_of_mem _ hmem)] at hm
            cases hm
          obtain ⟨r, hr⟩ := exists_find?_not_mem hnodup (Nat.lt_of_le_of_lt htaken hfew)
          rw [hfind] at hr
          cases hr
    | some r =>
      have hstack' : ∀ m ∈ stack.map SetAside.node,
          (colors.setIfInBounds a.node (some r)).getD m none = none := by
        intro m hm
        have hne : a.node ≠ m := fun he => hnew (he ▸ hm)
        rw [Array.getD_eq_getD_getElem?, Array.getElem?_setIfInBounds, if_neg hne,
          ← Array.getD_eq_getD_getElem?]
        exact hstack m (mem_cons_of_mem _ hm)
      have hselect : g.select order (a :: stack) colors =
          g.select order stack (colors.setIfInBounds a.node (some r)) := by
        simp only [select, hfind]
      rw [hselect]
      rcases ih hrest hstack' with ⟨c, hc, hall⟩ | ⟨m, hm, hexempt, hc⟩
      · refine .inl ⟨c, hc, fun registers hregs m x hx hm hcolored => ?_⟩
        refine hall registers hregs m x hx (by rwa [Array.size_setIfInBounds]) ?_
        by_cases hnode : a.node = m
        · right
          rw [Array.getD_eq_getD_getElem?, Array.getElem?_setIfInBounds, if_pos hnode, hnode,
            if_pos hm]
          rfl
        · rw [Array.getD_eq_getD_getElem?, Array.getElem?_setIfInBounds, if_neg hnode,
            ← Array.getD_eq_getD_getElem?]
          refine hcolored.imp_left fun hmem => ?_
          exact (mem_cons.mp hmem).resolve_left (Ne.symm hnode)
      · exact .inr ⟨m, mem_cons_of_mem _ hm, hexempt, hc⟩

/-! ## The colouring of a class -/

variable {visit : UseVisit} {l : Liveness} {cls : RegClass} {barred : List String}

theorem isSimple_ofLiveness : (ofLiveness visit l cls).IsSimple where
  size_adjacency := by simp [ofLiveness, size]
  symm := mem_neighbours_symm
  nodup _ := pairwise_neighbours.imp Nat.ne_of_lt
  lt_size hb := (lt_size_of_mem_neighbours hb).2

theorem isNode_nameOf (ha : a < (ofLiveness visit l cls).size) :
    (ofLiveness visit l cls).IsNode a ((ofLiveness visit l cls).nameOf a) := by
  obtain ⟨x, hx⟩ := exists_isNode ha
  rwa [nameOf_eq hx]

theorem IsNode.unique {b : Nat} (ha : (ofLiveness visit l cls).IsNode a x)
    (hb : (ofLiveness visit l cls).IsNode b x) : a = b :=
  (getElem?_inj ha.lt_size nodup_names_ofLiveness).mp (ha.trans hb.symm)

theorem countP_neighbours_le {p : Nat → Bool}
    (hys : ∀ b ∈ (ofLiveness visit l cls).neighbours a, p b = true →
      (ofLiveness visit l cls).nameOf b ∈ ys) :
    ((ofLiveness visit l cls).neighbours a).countP p ≤ ys.length := by
  rw [countP_eq_length_filter, ← length_map (f := (ofLiveness visit l cls).nameOf)]
  refine (subperm_of_subset ?_ fun y hy => ?_).length_le
  · refine (isSimple_ofLiveness.nodup a |>.filter _).map_on fun b hb c hc hbc => ?_
    have hb' := isNode_nameOf (lt_size_of_mem_neighbours (mem_of_mem_filter hb)).2
    rw [hbc] at hb'
    exact hb'.unique (isNode_nameOf (lt_size_of_mem_neighbours (mem_of_mem_filter hc)).2)
  · obtain ⟨b, hb, rfl⟩ := mem_map.mp hy
    obtain ⟨hb, hp⟩ := mem_filter.mp hb
    exact hys b hb hp

/-- A node whose barred neighbours are among given names has no more of them than there are names. -/
theorem countP_barred_le (ha : (ofLiveness visit l cls).IsNode a x)
    (hys : ∀ y ∈ barred, y ≠ x → ∀ i < l.size, x ∈ l.clique cls i → y ∈ l.clique cls i → y ∈ ys) :
    ((ofLiveness visit l cls).neighbours a).countP
      (fun b => (ofLiveness visit l cls).nameOf b ∈ barred) ≤ ys.length := by
  refine countP_neighbours_le fun b hb hbar => ?_
  have hnode := isNode_nameOf (lt_size_of_mem_neighbours hb).2
  obtain ⟨hne, i, hi, hx, hy⟩ := (mem_neighbours_ofLiveness ha hnode).mp hb
  refine hys _ (of_decide_eq_true hbar) (fun he => hne ?_) i hi hx hy
  rw [he] at hnode
  exact ha.unique hnode

theorem mem_spillable : m ∈ g.spillable barred ↔ m < g.size ∧ g.nameOf m ∉ barred := by
  rw [spillable, mem_filter, mem_range, decide_eq_true_eq]

variable (hnodup : order.Nodup)
include hnodup

/-- Colouring fails only at an exempt node, if every node that simplification chooses without its being
a candidate is exempt or has a low degree. Otherwise it finds a variable to spill, or a register for
every variable. -/
theorem color_of_exempt (exempt : Nat → Prop) (hexempt : ∀ {s : Simplifier} {c : SetAside},
      s.Kept (ofLiveness visit l cls) order.length exempt → s.worklist = [] →
      s.choose? (ofLiveness visit l cls) ((ofLiveness visit l cls).spillable barred) = some c →
      c.candidate = false → exempt c.node ∨ s.degreeOf c.node < order.length) :
    (∃ c, (ofLiveness visit l cls).color order barred = .ok c ∧ ∀ registers,
      c = .assigned registers → ∀ x ∈ (ofLiveness visit l cls).names, ∃ p, (x, p) ∈ registers) ∨
    ∃ m, exempt m ∧ (ofLiveness visit l cls).color order barred =
      .error (.uncolorableNode ((ofLiveness visit l cls).nameOf m)) := by
  obtain ⟨s, h, hrun, hend⟩ := Simplifier.exists_run_eq
    (Simplifier.Kept.step isSimple_ofLiveness (fun m hm => (mem_spillable.mp hm).1) hexempt)
    (Simplifier.kept_start isSimple_ofLiveness exempt)
  rcases select_simplified hnodup (hrun ▸ h.simplified) fun m _ => getD_replicate_none _ m with
    ⟨c, hc, hregs⟩ | ⟨m, _, hm, herror⟩
  · refine .inl ⟨c, hc, fun registers he x hx => ?_⟩
    obtain ⟨m, hm⟩ := mem_iff_getElem?.mp hx
    have hnode : (ofLiveness visit l cls).IsNode m x := hm
    exact hregs registers he m x hnode (by rw [Array.size_replicate]; exact hnode.lt_size)
      (.inl (hrun ▸ (h.consistent.stack m).mpr
        ⟨hnode.lt_size, h.consistent.isRemoved_of_end hend m hnode.lt_size⟩))
  · exact .inr ⟨m, hm, herror⟩

/-- If every node that simplification chooses without its being a candidate has a low degree, colouring
succeeds. -/
theorem exists_color_of_low (hlow : ∀ {s : Simplifier} {c : SetAside},
      s.Kept (ofLiveness visit l cls) order.length (fun _ => False) → s.worklist = [] →
      s.choose? (ofLiveness visit l cls) ((ofLiveness visit l cls).spillable barred) = some c →
      c.candidate = false → s.degreeOf c.node < order.length) :
    ∃ c, (ofLiveness visit l cls).color order barred = .ok c ∧ ∀ registers,
      c = .assigned registers → ∀ x ∈ (ofLiveness visit l cls).names, ∃ p, (x, p) ∈ registers := by
  have hcolor := color_of_exempt hnodup (fun _ => False) fun h hw hchoose hc =>
    .inr (hlow h hw hchoose hc)
  exact hcolor.resolve_right fun ⟨_, h, _⟩ => h

/-- If every barred variable interferes with fewer barred variables than there are registers,
colouring succeeds: it finds a variable to spill, or a register for every variable. -/
theorem exists_color_eq_ok
    (hbarred : ∀ x ∈ barred, x ∈ (ofLiveness visit l cls).names → ∃ ys : List String,
      ys.length < order.length ∧ ∀ y ∈ barred, y ≠ x → ∀ i < l.size, x ∈ l.clique cls i →
      y ∈ l.clique cls i → y ∈ ys) :
    ∃ c, (ofLiveness visit l cls).color order barred = .ok c ∧ ∀ registers,
      c = .assigned registers → ∀ x ∈ (ofLiveness visit l cls).names, ∃ p, (x, p) ∈ registers := by
  refine exists_color_of_low hnodup fun {s c} hs _ hchoose hc => ?_
  obtain ⟨hlt, hmem, hle⟩ := Simplifier.degreeOf_le_of_choose? hs.consistent
    (fun m hm => (mem_spillable.mp hm).1) hchoose hc
  obtain ⟨x, hx⟩ := exists_isNode hlt
  have hbar : x ∈ barred := by
    by_contra hn
    exact hmem (mem_spillable.mpr ⟨hlt, by rwa [nameOf_eq hx]⟩)
  obtain ⟨ys, hlen, hys⟩ := hbarred x hbar (mem_of_getElem? hx)
  refine Nat.lt_of_le_of_lt (Nat.le_trans hle ?_)
    (Nat.lt_of_le_of_lt (countP_barred_le hx hys) hlen)
  refine countP_mono_left fun b hb hn => ?_
  rw [decide_eq_true_eq, mem_spillable, not_and, not_not] at hn
  exact decide_eq_true (hn (lt_size_of_mem_neighbours hb).2)

end InterferenceGraph
end ClosureCodegen
