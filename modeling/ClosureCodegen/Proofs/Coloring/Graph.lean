import Mathlib.Data.List.Nodup
import ClosureCodegen.Coloring.Interference

/-!
# Nodes and edges of the interference graph

The graph is built from masks, one for each instruction.  Read back through names it is what it is
meant to be: the nodes are the variables that the body mentions, each once, and two of them are
neighbours if they are different and some instruction has both in its clique.
-/

namespace ClosureCodegen
open List ClosureCodegen.Numbering

variable {n : Numbering} {xs : List String} {y x : String} {k id a b : Nat} {cliques : List Nat}
  {g : InterferenceGraph}

/-! ## Numberings -/

namespace Numbering

theorem mem_insertAll : y ∈ (n.insertAll xs).toList ↔ y ∈ n.toList ∨ y ∈ xs := by
  unfold insertAll
  induction xs generalizing n with
  | nil => simp
  | cons x xs ih =>
    rw [foldl_cons, ih, mem_insert, mem_cons, or_assoc]

theorem nodup_insertAll (h : n.toList.Nodup) : (n.insertAll xs).toList.Nodup := by
  unfold insertAll
  induction xs generalizing n with
  | nil => exact h
  | cons x xs ih => exact ih (nodup_insert h)

/-- A list of names with one more at the end, unless it is there. -/
def appendNew (names : List String) (x : String) : List String :=
  if x ∈ names then names else names ++ [x]

theorem toList_insertAll (n : Numbering) (xs : List String) :
    (n.insertAll xs).toList = xs.foldl appendNew n.toList := by
  unfold insertAll
  induction xs generalizing n with
  | nil => rfl
  | cons x xs ih => rw [foldl_cons, ih, toList_insert, foldl_cons, appendNew]

theorem number?_eq_some_iff (h : n.toList.Nodup) :
    n.number? x = some k ↔ n.toList[k]? = some x := by
  rw [number?_eq, List.idxOf?, findIdx?_eq_some_iff_getElem, List.getElem?_eq_some_iff]
  constructor
  · rintro ⟨hk, he, _⟩
    exact ⟨hk, eq_of_beq he⟩
  · rintro ⟨hk, he⟩
    refine ⟨hk, beq_iff_eq.mpr he, fun j hj hb => ?_⟩
    have := (List.Nodup.getElem_inj_iff h).mp ((eq_of_beq hb).trans he.symm)
    omega

theorem insertAll_append (n : Numbering) (xs ys : List String) :
    n.insertAll (xs ++ ys) = (n.insertAll xs).insertAll ys := foldl_append

def ofNames (xs : List String) : Numbering where
  names := (xs.foldl appendNew []).toArray
  index := (empty.insertAll xs).index
  index_eq x := by
    rw [(empty.insertAll xs).index_eq x]
    change List.idxOf? x (empty.insertAll xs).toList = _
    rw [toList_insertAll]
    rfl

theorem insertAll_empty (xs : List String) : empty.insertAll xs = ofNames xs := by
  have h : ∀ n m : Numbering, n.toList = m.toList → n.index = m.index → n = m := by
    rintro ⟨names, index, hn⟩ ⟨names', index', hm⟩ hl rfl
    obtain rfl : names = names' := Array.toList_inj.mp hl
    rfl
  exact h _ _ (toList_insertAll _ _) rfl

end Numbering

/-! ## Masks -/

theorem testBit_nodeMask {ids : List Nat} : (nodeMask ids).testBit k = true ↔ k ∈ ids := by
  have h : ∀ m : Nat, (ids.foldl (fun m id => m ||| 1 <<< id) m).testBit k = true ↔
      m.testBit k = true ∨ k ∈ ids := by
    induction ids with
    | nil => simp
    | cons id ids ih =>
      intro m
      rw [foldl_cons, ih, Nat.testBit_or, Bool.or_eq_true, Nat.one_shiftLeft,
        Nat.testBit_two_pow, decide_eq_true_eq, mem_cons, or_assoc, eq_comm (a := id)]
  rw [nodeMask, h]
  simp

namespace InterferenceGraph

theorem testBit_row :
    (row cliques id).testBit k = true ↔
      ∃ c ∈ cliques, c.testBit id = true ∧ c.testBit k = true := by
  have h : ∀ acc : Nat,
      (cliques.foldl (fun acc c => if c.testBit id then acc ||| c else acc) acc).testBit k = true ↔
        acc.testBit k = true ∨ ∃ c ∈ cliques, c.testBit id = true ∧ c.testBit k = true := by
    induction cliques with
    | nil => simp
    | cons c cliques ih =>
      intro acc
      rw [foldl_cons, ih]
      cases hc : c.testBit id <;> simp [hc, or_assoc]
  rw [row, h]
  simp

theorem mem_neighboursIn {size : Nat} :
    k ∈ neighboursIn cliques size id ↔ k < size ∧ k ≠ id ∧
      ∃ c ∈ cliques, c.testBit id = true ∧ c.testBit k = true := by
  simp only [neighboursIn, mem_filter, mem_range, Bool.and_eq_true, bne_iff_ne,
    testBit_row]

end InterferenceGraph

/-! ## The graph of a body -/

namespace Liveness

variable {visit : UseVisit} {l : Liveness} {cls : RegClass}

theorem nodup_mentions : (l.mentions visit cls).toList.Nodup := by
  have h : ∀ (is : List Nat) (n : Numbering), n.toList.Nodup →
      (is.foldl (fun n i => (n.insertAll (visit cls i ((l.uses i).namesOf cls))).insertAll
        (l.clique cls i)) n).toList.Nodup := by
    intro is
    induction is with
    | nil => exact fun n hn => hn
    | cons i is ih =>
      exact fun n hn => ih _ (nodup_insertAll (nodup_insertAll hn))
  exact h _ _ nodup_nil

theorem mem_mentions :
    x ∈ (l.mentions visit cls).toList ↔
    ∃ i < l.size, x ∈ visit cls i ((l.uses i).namesOf cls) ∨ x ∈ l.clique cls i := by
  have h : ∀ (is : List Nat) (n : Numbering),
      x ∈ (is.foldl (fun n i => (n.insertAll (visit cls i ((l.uses i).namesOf cls))).insertAll
        (l.clique cls i)) n).toList ↔ x ∈ n.toList ∨
          ∃ i ∈ is, x ∈ visit cls i ((l.uses i).namesOf cls) ∨ x ∈ l.clique cls i := by
    intro is
    induction is with
    | nil => simp
    | cons i is ih =>
      intro n
      rw [foldl_cons, ih, mem_insertAll, mem_insertAll]
      simp only [mem_cons, exists_eq_or_imp, or_assoc]
  rw [mentions, h, toList_empty]
  simp only [not_mem_nil, false_or, mem_range]

theorem mem_clique {i : Nat} :
    x ∈ l.clique cls i ↔ (⟨x, cls⟩ : Reg) ∈ l.liveOut i ∨ (⟨x, cls⟩ : Reg) ∈ l.defs i := by
  rw [clique, LiveSet.mem_namesOf, LiveSet.mem_union]

theorem mentions_eq (visit : UseVisit) (l : Liveness) (cls : RegClass) :
    l.mentions visit cls = .ofNames ((List.range l.size).flatMap fun i =>
      visit cls i ((l.uses i).namesOf cls) ++ l.clique cls i) := by
  have h : ∀ (is : List Nat) (n : Numbering),
      is.foldl (fun n i => (n.insertAll (visit cls i ((l.uses i).namesOf cls))).insertAll
        (l.clique cls i)) n = n.insertAll (is.flatMap fun i =>
          visit cls i ((l.uses i).namesOf cls) ++ l.clique cls i) := by
    intro is
    induction is with
    | nil => exact fun n => rfl
    | cons i is ih =>
      intro n
      rw [foldl_cons, ih, flatMap_cons, insertAll_append,
        insertAll_append]
  rw [← insertAll_empty]
  exact h _ _

end Liveness

namespace InterferenceGraph

variable {visit : UseVisit} {l : Liveness} {cls : RegClass}

def IsNode (g : InterferenceGraph) (id : Nat) (x : String) : Prop := g.names[id]? = some x

theorem nodup_names_ofLiveness : (ofLiveness visit l cls).names.Nodup := Liveness.nodup_mentions

theorem IsNode.lt_size (h : g.IsNode id x) : id < g.size :=
  (List.getElem?_eq_some_iff.mp h).1

theorem nameOf_eq (h : g.IsNode id x) : g.nameOf id = x := by
  rw [nameOf, Array.getD_eq_getD_getElem?, ← Array.getElem?_toList]
  rw [IsNode, names, toList] at h
  rw [h, Option.getD_some]

theorem testBit_clique (hn : n.toList.Nodup) (ha : n.toList[a]? = some x) :
    (nodeMask (xs.filterMap n.number?)).testBit a = true ↔ x ∈ xs := by
  rw [testBit_nodeMask, mem_filterMap]
  constructor
  · rintro ⟨y, hy, hk⟩
    rw [number?_eq_some_iff hn, ha, Option.some.injEq] at hk
    exact hk ▸ hy
  · intro hx
    exact ⟨x, hx, (number?_eq_some_iff hn).mpr ha⟩

theorem neighbours_ofLiveness (ha : a < (ofLiveness visit l cls).size) :
    (ofLiveness visit l cls).neighbours a = neighboursIn
      ((List.range l.size).map fun i =>
        nodeMask ((l.clique cls i).filterMap (l.mentions visit cls).number?))
      (l.mentions visit cls).size a := by
  have hlt : a < (l.mentions visit cls).size := ha
  simp [neighbours, ofLiveness, Array.getD_eq_getD_getElem?, getElem?_range hlt]

theorem lt_size_of_mem_neighbours (hb : b ∈ (ofLiveness visit l cls).neighbours a) :
    a < (ofLiveness visit l cls).size ∧ b < (ofLiveness visit l cls).size := by
  by_cases ha : a < (ofLiveness visit l cls).size
  · rw [neighbours_ofLiveness ha, mem_neighboursIn] at hb
    exact ⟨ha, hb.1⟩
  · have hsize : (ofLiveness visit l cls).adjacency.size = (ofLiveness visit l cls).size := by
      simp [ofLiveness, size]
    have hnone : (ofLiveness visit l cls).adjacency[a]? = none :=
      Array.getElem?_eq_none (hsize ▸ Nat.le_of_not_lt ha)
    rw [neighbours, Array.getD_eq_getD_getElem?, hnone] at hb
    exact absurd hb not_mem_nil

theorem mem_neighbours_ofLiveness (ha : (ofLiveness visit l cls).IsNode a x)
    (hb : (ofLiveness visit l cls).IsNode b y) :
    b ∈ (ofLiveness visit l cls).neighbours a ↔
      a ≠ b ∧ ∃ i < l.size, x ∈ l.clique cls i ∧ y ∈ l.clique cls i := by
  have hn : (l.mentions visit cls).toList.Nodup := Liveness.nodup_mentions
  have hlt : b < (l.mentions visit cls).size := hb.lt_size
  rw [neighbours_ofLiveness ha.lt_size, mem_neighboursIn]
  constructor
  · rintro ⟨_, hne, c, hc, hca, hcb⟩
    obtain ⟨i, hi, rfl⟩ := mem_map.mp hc
    refine ⟨Ne.symm hne, i, mem_range.mp hi, ?_, ?_⟩
    · exact (testBit_clique hn ha).mp hca
    · exact (testBit_clique hn hb).mp hcb
  · rintro ⟨hne, i, hi, hx, hy⟩
    refine ⟨hlt, Ne.symm hne, _, mem_map_of_mem (mem_range.mpr hi), ?_, ?_⟩
    · exact (testBit_clique hn ha).mpr hx
    · exact (testBit_clique hn hb).mpr hy

/-- The neighbours of a node ascend, so that one of them can be found by halving. -/
theorem pairwise_neighbours : ((ofLiveness visit l cls).neighbours a).Pairwise (· < ·) := by
  by_cases ha : a < (ofLiveness visit l cls).size
  · rw [neighbours_ofLiveness ha]
    exact pairwise_lt_range.filter _
  · rw [eq_nil_iff_forall_not_mem.mpr fun b hb => ha (lt_size_of_mem_neighbours hb).1]
    exact .nil

theorem exists_isNode (h : a < g.size) : ∃ x, g.IsNode a x :=
  ⟨_, getElem?_eq_getElem h⟩

theorem mem_neighbours_symm (h : b ∈ (ofLiveness visit l cls).neighbours a) :
    a ∈ (ofLiveness visit l cls).neighbours b := by
  obtain ⟨ha, hb⟩ := lt_size_of_mem_neighbours h
  obtain ⟨x, hx⟩ := exists_isNode ha
  obtain ⟨y, hy⟩ := exists_isNode hb
  obtain ⟨hne, i, hi, hxi, hyi⟩ := (mem_neighbours_ofLiveness hx hy).mp h
  exact (mem_neighbours_ofLiveness hy hx).mpr ⟨Ne.symm hne, i, hi, hyi, hxi⟩

/-! ## The graph without its index

The index of a numbering only serves to find numbers fast.  The graph can be computed from the list
of names alone. -/

theorem ofLiveness_eq (visit : UseVisit) (l : Liveness) (cls : RegClass) :
    ofLiveness visit l cls =
      let nodes := ofNames ((List.range l.size).flatMap fun i =>
        visit cls i ((l.uses i).namesOf cls) ++ l.clique cls i)
      let cliques := (List.range l.size).map fun i =>
        nodeMask ((l.clique cls i).filterMap fun x => nodes.toList.idxOf? x)
      { nodes
        adjacency := ((List.range nodes.size).map (neighboursIn cliques nodes.size)).toArray } := by
  simp only [ofLiveness, Liveness.mentions_eq, ← number?_eq]

end InterferenceGraph
end ClosureCodegen
