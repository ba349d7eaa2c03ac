import Mathlib.Data.Set.Card
import ClosureCodegen.Proofs.Allocation.Rounds
import ClosureCodegen.Proofs.Coloring.Attribution

/-!
# Interference is being live together

Read through names, the interference graph of a class says which variables some instruction needs at
once, and nothing else.  The order in which uses are visited decides the numbers of the nodes only.

* `interferes_iff_clique`: two variables interfere if they are different and share a clique.
* `ncard_interfering`: the degree of a variable counts the variables it interferes with.
-/

namespace ClosureCodegen

/-- Visits the uses from the last name to the first. -/
def UseVisit.backwards : UseVisit := fun _ _ names => names.reverse

theorem UseVisit.isOrder_backwards : UseVisit.backwards.IsOrder := fun _ _ xs => xs.reverse_perm

namespace InterferenceGraph
open List

variable {visit : UseVisit} {l : Liveness} {cls : RegClass} {x y : String} {a b : Nat}

theorem mem_names_ofLiveness (hvisit : visit.IsOrder) :
    x ∈ (ofLiveness visit l cls).names ↔ (⟨x, cls⟩ : Reg) ∈ l.touched := by
  change x ∈ (l.mentions visit cls).toList ↔ _
  simp only [Liveness.mem_mentions, (hvisit _ _ _).mem_iff, LiveSet.mem_namesOf, Liveness.mem_clique,
    Liveness.touched, LiveSet.mem_unions, mem_flatMap, mem_range]
  constructor
  · rintro ⟨i, hi, hu | ho | hd⟩
    · exact ⟨l.uses i, ⟨i, hi, by simp⟩, hu⟩
    · exact ⟨l.liveOut i, ⟨i, hi, by simp⟩, ho⟩
    · exact ⟨l.defs i, ⟨i, hi, by simp⟩, hd⟩
  · rintro ⟨s, ⟨i, hi, hs⟩, hx⟩
    simp only [mem_cons, not_mem_nil, or_false] at hs
    rcases hs with rfl | rfl | rfl
    · exact ⟨i, hi, .inr (.inl hx)⟩
    · exact ⟨i, hi, .inr (.inr hx)⟩
    · exact ⟨i, hi, .inl hx⟩

theorem number?_eq_some_iff_isNode :
    (ofLiveness visit l cls).nodes.number? x = some a ↔ (ofLiveness visit l cls).IsNode a x :=
  Numbering.number?_eq_some_iff Liveness.nodup_mentions

theorem IsNode.eq_iff (ha : (ofLiveness visit l cls).IsNode a x)
    (hb : (ofLiveness visit l cls).IsNode b y) : a = b ↔ x = y := by
  constructor
  · rintro rfl
    exact Option.some.inj (ha.symm.trans hb)
  · rintro rfl
    rw [← number?_eq_some_iff_isNode] at ha hb
    exact Option.some.inj (ha.symm.trans hb)

theorem exists_isNode_of_mem_clique (visit : UseVisit) {i : Nat} (hi : i < l.size)
    (hx : x ∈ l.clique cls i) : ∃ a, (ofLiveness visit l cls).IsNode a x :=
  mem_iff_getElem?.mp (Liveness.mem_mentions.mpr ⟨i, hi, .inr hx⟩)

theorem interferes_eq_true_iff (ha : (ofLiveness visit l cls).IsNode a x) :
    (ofLiveness visit l cls).interferes x y = true ↔
      ∃ b ∈ (ofLiveness visit l cls).neighbours a, (ofLiveness visit l cls).IsNode b y := by
  simp only [interferes, number?_eq_some_iff_isNode.mpr ha]
  cases hy : (ofLiveness visit l cls).nodes.number? y with
  | none =>
    refine iff_of_false Bool.false_ne_true ?_
    rintro ⟨b, -, hb⟩
    rw [number?_eq_some_iff_isNode.mpr hb] at hy
    cases hy
  | some b =>
    have hb := number?_eq_some_iff_isNode.mp hy
    rw [contains_iff_mem]
    refine ⟨fun h => ⟨b, h, hb⟩, ?_⟩
    rintro ⟨c, hc, hcy⟩
    rwa [← (hcy.eq_iff hb).mpr rfl]

theorem interferes_iff_clique : (ofLiveness visit l cls).interferes x y = true ↔
    x ≠ y ∧ ∃ i < l.size, x ∈ l.clique cls i ∧ y ∈ l.clique cls i := by
  constructor
  · intro h
    cases hx : (ofLiveness visit l cls).nodes.number? x with
    | none => simp [interferes, hx] at h
    | some a =>
      have ha := number?_eq_some_iff_isNode.mp hx
      obtain ⟨b, hb, hby⟩ := (interferes_eq_true_iff ha).mp h
      obtain ⟨hne, hclique⟩ := (mem_neighbours_ofLiveness ha hby).mp hb
      exact ⟨fun he => hne ((ha.eq_iff hby).mpr he), hclique⟩
  · rintro ⟨hne, i, hi, hx, hy⟩
    obtain ⟨a, ha⟩ := exists_isNode_of_mem_clique visit hi hx
    obtain ⟨b, hb⟩ := exists_isNode_of_mem_clique visit hi hy
    refine (interferes_eq_true_iff ha).mpr ⟨b, (mem_neighbours_ofLiveness ha hb).mpr ?_, hb⟩
    exact ⟨fun he => hne ((ha.eq_iff hb).mp he), i, hi, hx, hy⟩

theorem ncard_interfering :
    {y | (ofLiveness visit l cls).interferes x y = true}.ncard =
      (ofLiveness visit l cls).degree x := by
  unfold degree
  cases hx : (ofLiveness visit l cls).nodes.number? x with
  | none =>
    have hempty : {y | (ofLiveness visit l cls).interferes x y = true} = ∅ :=
      Set.eq_empty_iff_forall_notMem.mpr fun y hy => by simp [interferes, hx] at hy
    rw [hempty, Set.ncard_empty]
  | some a =>
    have ha := number?_eq_some_iff_isNode.mp hx
    have hnode : ∀ b ∈ (ofLiveness visit l cls).neighbours a,
        (ofLiveness visit l cls).IsNode b ((ofLiveness visit l cls).nameOf b) := fun b hb => by
      obtain ⟨y, hy⟩ := exists_isNode (lt_size_of_mem_neighbours hb).2
      rwa [nameOf_eq hy]
    -- the names of the neighbours list the interfering variables without repetition
    have hset : {y | (ofLiveness visit l cls).interferes x y = true} =
        (((ofLiveness visit l cls).neighbours a).map (ofLiveness visit l cls).nameOf).toFinset := by
      ext y
      rw [Set.mem_ofPred_eq, interferes_eq_true_iff ha, coe_toFinset, Set.mem_ofPred_eq, mem_map]
      refine exists_congr fun b => and_congr_right fun hb => ⟨nameOf_eq, ?_⟩
      rintro rfl
      exact hnode b hb
    have hnodup : ((ofLiveness visit l cls).neighbours a).Nodup :=
      pairwise_neighbours.imp Nat.ne_of_lt
    rw [hset, Set.ncard_coe_finset, toFinset_card_of_nodup, length_map]
    exact hnodup.map_on fun b hb c hc he =>
      ((hnode b hb).eq_iff (hnode c hc)).mpr he

/-- The graph of a class is the relation of being live together, whatever the visiting order. -/
theorem ofLiveness_exact (l : Liveness) (cls : RegClass) (hvisit : visit.IsOrder) :
    (ofLiveness visit l cls).names.Nodup ∧
    (∀ x, x ∈ (ofLiveness visit l cls).names ↔ (⟨x, cls⟩ : Reg) ∈ l.touched) ∧
    (∀ x y, x ≠ y → ((ofLiveness visit l cls).interferes x y = true ↔ ∃ i < l.size,
      (⟨x, cls⟩ : Reg) ∈ (l.liveOut i).union (l.defs i) ∧
        (⟨y, cls⟩ : Reg) ∈ (l.liveOut i).union (l.defs i))) ∧
    (∀ x y, (ofLiveness visit l cls).interferes x y = (ofLiveness visit l cls).interferes y x) ∧
    (∀ x, (ofLiveness visit l cls).interferes x x = false) ∧
    (∀ x, (ofLiveness visit l cls).degree x =
      {y | (ofLiveness visit l cls).interferes x y = true}.ncard) ∧
    ∀ visit' : UseVisit, visit'.IsOrder →
      (ofLiveness visit' l cls).names.Perm (ofLiveness visit l cls).names ∧
        (ofLiveness visit' l cls).interferes = (ofLiveness visit l cls).interferes := by
  refine ⟨nodup_names_ofLiveness, fun x => mem_names_ofLiveness hvisit, fun x y hne => ?_,
    fun x y => ?_, fun x => ?_, fun x => ncard_interfering.symm, fun visit' hvisit' => ⟨?_, ?_⟩⟩
  · rw [interferes_iff_clique, and_iff_right hne]
    simp only [Liveness.mem_clique, LiveSet.mem_union]
  · rw [Bool.eq_iff_iff, interferes_iff_clique, interferes_iff_clique]
    simp only [ne_comm, and_comm]
  · exact Bool.eq_false_iff.mpr fun h => (interferes_iff_clique.mp h).1 rfl
  · refine (perm_ext_iff_of_nodup nodup_names_ofLiveness nodup_names_ofLiveness).mpr fun x => ?_
    rw [mem_names_ofLiveness hvisit, mem_names_ofLiveness hvisit']
  · funext x y
    rw [Bool.eq_iff_iff, interferes_iff_clique, interferes_iff_clique]

theorem ofLiveness_exact_countDown : ∃ l, Liveness.ofCode countDown = .ok l ∧
    UseVisit.byName.IsOrder ∧ UseVisit.backwards.IsOrder ∧
    (ofLiveness .byName l .int).interferes "n" "d" = true ∧
    (ofLiveness .backwards l .int).interferes "n" "d" = true := by
  have h : ((Liveness.ofCode countDown).toOption.any fun l => decide (1 < l.size ∧
      .int "n" ∈ (l.liveOut 1).union (l.defs 1) ∧ .int "d" ∈ (l.liveOut 1).union (l.defs 1))) =
        true := by
    decide +kernel
  obtain ⟨l, hl, hclique⟩ := (Option.any_eq_true ..).mp h
  obtain ⟨-, -, hiff, -, -, -, hsame⟩ := ofLiveness_exact l .int UseVisit.isOrder_byName
  have hinterferes := (hiff "n" "d" (by decide)).mpr ⟨1, of_decide_eq_true hclique⟩
  refine ⟨l, Outcome.eq_ok_of_toOption hl, UseVisit.isOrder_byName, UseVisit.isOrder_backwards,
    hinterferes, ?_⟩
  rw [(hsame _ UseVisit.isOrder_backwards).2]
  exact hinterferes

end InterferenceGraph
end ClosureCodegen
