import Mathlib.Data.Finset.Powerset
import ClosureCodegen.Allocation.Basic
import ClosureCodegen.Proofs.Coloring.Attribution

/-!
# Sparse graphs are coloured without a spill

If every set of variables has one that interferes with fewer variables of the set than there are
registers, simplification never has to choose a candidate: the variables that remain have such a
variable among them, and its node is on the worklist.  So every node is set aside with few enough
neighbours, and all are coloured.  This is so in particular if every variable interferes with fewer
others than there are registers, and a body with such a graph for each class is allocated in one
round.
-/

namespace ClosureCodegen
open List InterferenceGraph

variable {s : Simplifier} {a : Nat} {x : String}
namespace InterferenceGraph

/-- Every set of variables has one that interferes with fewer than `k` of the set. -/
def IsSparse (g : InterferenceGraph) (k : Nat) : Prop :=
  ∀ vars : Finset String, vars.Nonempty → (∀ x ∈ vars, x ∈ g.names) →
    ∃ x ∈ vars, (vars.filter fun y => g.interferes x y = true).card < k

variable {visit : UseVisit} {l : Liveness} {cls : RegClass} {order : List PhysReg}
  {barred : List String} {k : Nat}

theorem isSparse_of_degree_lt
    (h : ∀ x ∈ (ofLiveness visit l cls).names, (ofLiveness visit l cls).degree x < k) :
    (ofLiveness visit l cls).IsSparse k := by
  rintro vars ⟨x, hx⟩ hvars
  refine ⟨x, hx, Nat.lt_of_le_of_lt ?_ (h x (hvars x hx))⟩
  obtain ⟨a, ha⟩ := exists_isNode_of_mem (hvars x hx)
  have hdegree : (ofLiveness visit l cls).degree x =
      (((ofLiveness visit l cls).neighbours a).map (ofLiveness visit l cls).nameOf).length := by
    have hnumber : (ofLiveness visit l cls).nodes.number? x = some a :=
      (Numbering.number?_eq_some_iff nodup_names_ofLiveness).mpr ha
    rw [degree, hnumber, length_map]
  rw [hdegree]
  refine le_trans (Finset.card_le_card fun y hy => ?_) (toFinset_card_le _)
  obtain ⟨hy, hxy⟩ := Finset.mem_filter.mp hy
  obtain ⟨b, hb⟩ := exists_isNode_of_mem (hvars y hy)
  rw [mem_toFinset, ← nameOf_eq hb]
  exact mem_map_of_mem ((interferes_iff ha hb).mp hxy)

/-- The variables of the nodes that remain. -/
def remainingVars (g : InterferenceGraph) (s : Simplifier) : Finset String :=
  ((s.remainingOf (List.range g.size)).map g.nameOf).toFinset

theorem mem_remainingVars (ha : (ofLiveness visit l cls).IsNode a x) :
    x ∈ (ofLiveness visit l cls).remainingVars s ↔ s.isRemoved a = false := by
  rw [remainingVars, mem_toFinset, mem_map]
  constructor
  · rintro ⟨b, hb, he⟩
    obtain ⟨hlt, hleft⟩ := mem_filter.mp hb
    have hnode := isNode_nameOf (mem_range.mp hlt)
    rw [he] at hnode
    rw [ha.unique hnode]
    simpa using hleft
  · intro hleft
    exact ⟨a, mem_filter.mpr ⟨mem_range.mpr ha.lt_size, by simp [hleft]⟩, nameOf_eq ha⟩

theorem exists_of_mem_remainingVars (hx : x ∈ (ofLiveness visit l cls).remainingVars s) :
    ∃ a, (ofLiveness visit l cls).IsNode a x ∧ s.isRemoved a = false := by
  obtain ⟨a, ha, rfl⟩ := mem_map.mp (mem_toFinset.mp hx)
  have hnode := isNode_nameOf (mem_range.mp (mem_of_mem_filter ha))
  exact ⟨a, hnode, (mem_remainingVars hnode).mp hx⟩

/-- A node has no more neighbours left than there are variables left that interfere with its own. -/
theorem left_le_card (ha : (ofLiveness visit l cls).IsNode a x) :
    s.left (ofLiveness visit l cls) a ≤ (((ofLiveness visit l cls).remainingVars s).filter
      fun y => (ofLiveness visit l cls).interferes x y = true).card := by
  rw [← Finset.length_toList]
  refine countP_neighbours_le fun b hb hleft => ?_
  have hnode := isNode_nameOf (lt_size_of_mem_neighbours hb).2
  rw [Finset.mem_toList, Finset.mem_filter]
  exact ⟨(mem_remainingVars hnode).mpr (by simpa using hleft), (interferes_iff ha hnode).mpr hb⟩

theorem IsSparse.worklist_ne_nil (hsparse : (ofLiveness visit l cls).IsSparse k)
    (h : s.Consistent (ofLiveness visit l cls)) (hl : s.Listed k) {m : Nat}
    (hm : s.isRemoved m = false) : s.worklist ≠ [] := by
  have hnode := isNode_nameOf (Simplifier.lt_size_of_isRemoved h hm)
  obtain ⟨x, hx, hfew⟩ := hsparse ((ofLiveness visit l cls).remainingVars s)
    ⟨_, (mem_remainingVars hnode).mpr hm⟩ fun x hx => by
      obtain ⟨a, ha, _⟩ := exists_of_mem_remainingVars hx
      exact mem_of_getElem? ha
  obtain ⟨a, ha, hleft⟩ := exists_of_mem_remainingVars hx
  have hlow : s.degreeOf a < k := by
    rw [h.degree a hleft]
    exact Nat.lt_of_le_of_lt (left_le_card ha) hfew
  exact ne_nil_of_mem ((hl a hleft).mpr hlow)

theorem IsSparse.choose?_eq_none (hsparse : (ofLiveness visit l cls).IsSparse k)
    {exempt : Nat → Prop} (h : s.Kept (ofLiveness visit l cls) k exempt) (hw : s.worklist = []) :
    s.choose? (ofLiveness visit l cls) ((ofLiveness visit l cls).spillable barred) = none := by
  refine Option.eq_none_iff_forall_ne_some.mpr fun c hc => ?_
  obtain ⟨_, hleft, _⟩ := Simplifier.choose?_eq_some (fun m hm => (mem_spillable.mp hm).1) hc
  exact hsparse.worklist_ne_nil h.consistent h.listed hleft hw

theorem IsSparse.run_noCandidates (hsparse : (ofLiveness visit l cls).IsSparse k) :
    ∀ c ∈ (Simplifier.start (ofLiveness visit l cls) k).run (ofLiveness visit l cls) k
      ((ofLiveness visit l cls).spillable barred), c.candidate = false := by
  have hsp : ∀ m ∈ (ofLiveness visit l cls).spillable barred, m < (ofLiveness visit l cls).size :=
    fun m hm => (mem_spillable.mp hm).1
  obtain ⟨s, ⟨_, hs⟩, hrun, _⟩ := Simplifier.exists_run_eq
    (P := fun s => s.Kept (ofLiveness visit l cls) k (fun _ => True) ∧
      ∀ c ∈ s.stack, c.candidate = false)
    (fun {s s'} hstep h => by
      refine ⟨h.1.step isSimple_ofLiveness hsp (fun _ _ _ _ => .inl trivial) hstep, ?_⟩
      cases hstep with
      | skip => exact h.2
      | low => exact forall_mem_cons.mpr ⟨rfl, h.2⟩
      | chosen _ hw hchoose =>
        rw [hsparse.choose?_eq_none h.1 hw] at hchoose
        cases hchoose)
    ⟨Simplifier.kept_start isSimple_ofLiveness _, forall_mem_nil _⟩
  rwa [hrun]

theorem IsSparse.exists_color_eq (hsparse : (ofLiveness visit l cls).IsSparse order.length)
    (hnodup : order.Nodup) (barred : List String) :
    ∃ registers, (ofLiveness visit l cls).color order barred = .ok (.assigned registers) := by
  have hok : ∃ c, (ofLiveness visit l cls).color order barred = .ok c := by
    refine (exists_color_of_low hnodup fun {s c} h hw hchoose _ => ?_).imp fun _ h => h.1
    rw [hsparse.choose?_eq_none h hw] at hchoose
    cases hchoose
  obtain ⟨c, hc⟩ := hok
  rcases color_cases hc with ⟨colors, _, _, rfl⟩ | ⟨s, hs, hcand, _⟩
  · exact ⟨_, hc⟩
  · rw [hsparse.run_noCandidates s hs] at hcand
    cases hcand

end InterferenceGraph

/-! ## Bodies -/

/-- Colouring spills nothing if every set of variables has one that interferes with fewer variables of
the set than there are registers. In particular a body whose variables interfere with fewer others
each is never spilled: its allocation is the renaming of the first round. -/
theorem sparse_not_spilled :
    (∀ (visit : UseVisit) (l : Liveness) (cls : RegClass) (order : List PhysReg)
      (barred : List String), order.Nodup →
      (InterferenceGraph.ofLiveness visit l cls).IsSparse order.length →
      ∃ registers,
        (InterferenceGraph.ofLiveness visit l cls).color order barred = .ok (.assigned registers)) ∧
    ∀ (visit : Nat → UseVisit) (order : AllocationOrder) (code : Code) (l : Liveness),
      (∀ cls, (order.ofClass cls).Nodup) → Liveness.ofCode (markUnusedParams code) = .ok l →
      (∀ cls, ∀ x ∈ (InterferenceGraph.ofLiveness (visit 1) l cls).names,
        (InterferenceGraph.ofLiveness (visit 1) l cls).degree x < (order.ofClass cls).length) →
      ∃ registers, allocateVisiting visit order code = do
        let code ← (removeDeadDefinitions (markUnusedParams code)).mapM (renameInstr registers)
        return ⟨code, 1, 0, 0⟩ := by
  refine ⟨fun visit l cls order barred hnodup hsparse => hsparse.exists_color_eq hnodup barred,
    fun visit order code l hnodup hl hdegree => ?_⟩
  have hclass : ∀ cls, ∃ result, colorClass (visit 1) order {} l cls = .ok result ∧
      result.spills = [] := by
    intro cls
    obtain ⟨registers, hc⟩ := (InterferenceGraph.isSparse_of_degree_lt (hdegree cls)).exists_color_eq
      (hnodup cls) []
    exact ⟨_, by rw [colorClass]; exact congrArg (· >>= _) hc, rfl⟩
  obtain ⟨ints, hints, hi⟩ := hclass .int
  obtain ⟨floats, hfloats, hf⟩ := hclass .float
  have hround : colorRound (visit 1) order {} (markUnusedParams code) = .ok _ :=
    Outcome.bind_eq_ok.mpr ⟨l, hl, Outcome.bind_eq_ok.mpr ⟨ints, hints,
      Outcome.bind_eq_ok.mpr ⟨floats, hfloats, rfl⟩⟩⟩
  refine ⟨ints.registers ++ floats.registers, ?_⟩
  rw [allocateVisiting, allocateRounds, hround]
  exact if_pos (by rw [hi, hf]; rfl)

/-- A body whose variables overlap like the links of a chain. -/
def chainOfFour : Code :=
  [.li (.int "a") 1, .li (.int "b") 2, .store (.int "a") (.int "b") 0, .li (.int "c") 3,
    .store (.int "b") (.int "c") 0, .li (.int "d") 4, .store (.int "c") (.int "d") 0]

/-- Whether two variables are neighbouring links. -/
def areLinked (x y : String) : Bool :=
  (x, y) ∈ [("a", "b"), ("b", "a"), ("b", "c"), ("c", "b"), ("c", "d"), ("d", "c")]

theorem graph_chainOfFour : ∃ l, Liveness.ofCode (markUnusedParams chainOfFour) = .ok l ∧
    (ofLiveness .byName l .int).names = ["a", "b", "c", "d"] ∧
    (ofLiveness .byName l .float).names = [] ∧
    (∀ x ∈ ["a", "b", "c", "d"], ∀ y ∈ ["a", "b", "c", "d"],
      (ofLiveness .byName l .int).interferes x y = areLinked x y) ∧
    ∀ x ∈ ["a", "b", "c", "d"], (ofLiveness .byName l .int).degree x < 3 := by
  have h : ((Liveness.ofCode (markUnusedParams chainOfFour)).toOption.any fun l => decide (
      (ofLiveness .byName l .int).names = ["a", "b", "c", "d"] ∧
      (ofLiveness .byName l .float).names = [] ∧
      (∀ x ∈ ["a", "b", "c", "d"], ∀ y ∈ ["a", "b", "c", "d"],
        (ofLiveness .byName l .int).interferes x y = areLinked x y) ∧
      ∀ x ∈ ["a", "b", "c", "d"],
        (ofLiveness .byName l .int).degree x < 3)) = true := by
    simp only [interferes, degree, Numbering.number?_eq,
      ofLiveness_eq]
    decide +kernel
  obtain ⟨l, hl, hgraph⟩ := (Option.any_eq_true ..).mp h
  exact ⟨l, Outcome.eq_ok_of_toOption hl, of_decide_eq_true hgraph⟩

/-- Two registers are enough for the chain, though its inner links interfere with two others each; with
three the body is allocated in one round. -/
theorem sparse_not_spilled_chainOfFour :
    (∃ l registers, Liveness.ofCode (markUnusedParams chainOfFour) = .ok l ∧
      (InterferenceGraph.ofLiveness .byName l .int).IsSparse 2 ∧
      (InterferenceGraph.ofLiveness .byName l .int).color [⟨.int, 10⟩, ⟨.int, 11⟩] ["a", "d"] =
        .ok (.assigned registers)) ∧
    ∃ registers, allocate ⟨[⟨.int, 10⟩, ⟨.int, 11⟩, ⟨.int, 12⟩], []⟩ chainOfFour = do
      let code ← (removeDeadDefinitions (markUnusedParams chainOfFour)).mapM (renameInstr registers)
      return ⟨code, 1, 0, 0⟩ := by
  obtain ⟨l, hl, hints, hfloats, hlinked, hdegree⟩ := graph_chainOfFour
  have hchain : ∀ vars ∈ (["a", "b", "c", "d"].toFinset).powerset, vars.Nonempty →
      ∃ x ∈ vars, (vars.filter fun y => areLinked x y = true).card < 2 := by decide +kernel
  have hsparse : (InterferenceGraph.ofLiveness .byName l .int).IsSparse 2 := by
    intro vars hne hvars
    rw [hints] at hvars
    obtain ⟨x, hx, hfew⟩ :=
      hchain vars (Finset.mem_powerset.mpr fun x hx => mem_toFinset.mpr (hvars x hx)) hne
    refine ⟨x, hx, ?_⟩
    rwa [Finset.filter_congr fun y hy => by rw [hlinked x (hvars x hx) y (hvars y hy)]]
  obtain ⟨registers, hcolor⟩ := sparse_not_spilled.1 .byName l .int [⟨.int, 10⟩, ⟨.int, 11⟩]
    ["a", "d"] (by decide) hsparse
  refine ⟨⟨l, registers, hl, hsparse, hcolor⟩, sparse_not_spilled.2 (fun _ => .byName) _ chainOfFour l
    (fun cls => by cases cls <;> decide) hl fun cls => ?_⟩
  cases cls with
  | int =>
    rw [hints]
    exact hdegree
  | float =>
    rw [hfloats]
    exact forall_mem_nil _

end ClosureCodegen
