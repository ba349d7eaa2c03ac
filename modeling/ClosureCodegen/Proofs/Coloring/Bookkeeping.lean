import Mathlib.Logic.Relation
import ClosureCodegen.Proofs.Coloring.Simplification

/-!
# Simplification keeps count

The counters of simplification are updated one at a time, and what they count is never recomputed.
`bookkeeping_exact` says that they are right in every state of the loop, that no counter is lowered
below zero, and that every node ends up on the stack once.
-/

namespace ClosureCodegen
open List InterferenceGraph
namespace Simplifier

variable {g : InterferenceGraph} {k : Nat} {spillable : List Nat} {s : Simplifier}

/-- The states of the loop. -/
def Reaches (g : InterferenceGraph) (k : Nat) (spillable : List Nat) : Simplifier → Prop :=
  Relation.ReflTransGen (Step g k spillable) (start g k)

theorem Reaches.kept (hg : g.IsSimple) (hsp : ∀ m ∈ spillable, m < g.size)
    (h : Reaches g k spillable s) : s.Kept g k fun _ => True := by
  induction h with
  | refl => exact kept_start hg _
  | tail _ hstep ih => exact ih.step hg hsp (fun _ _ _ _ => .inl trivial) hstep

theorem nodup_of_simplified {exempt : Nat → Prop} {stack : List SetAside}
    (h : Simplified g k exempt stack) : (stack.map SetAside.node).Nodup := by
  induction stack with
  | nil => exact nodup_nil
  | cons c stack ih => exact nodup_cons.mpr ⟨h.1, ih h.2.2⟩

/-- A neighbour of a remaining node has a neighbour to lose, also after other neighbours of that node
have lost theirs. -/
theorem Consistent.degree_pos (hg : g.IsSimple) (h : s.Consistent g) {id m : Nat}
    (hid : s.isRemoved id = false) (hm : s.isRemoved m = false) {before after : List Nat}
    (hsplit : g.neighbours id = before ++ m :: after) (removed : Array Bool) (worklist : List Nat) :
    0 < (before.foldl (loseNeighbour k removed) (s.degree, worklist)).1.getD m 0 := by
  have hmem : m ∈ g.neighbours id := hsplit ▸ mem_append_right _ mem_cons_self
  have hnodup := hg.nodup id
  rw [hsplit, nodup_append] at hnodup
  have hnew : m ∉ before := fun hb => hnodup.2.2 m hb m mem_cons_self rfl
  obtain ⟨_, hdegree, _⟩ := foldl_loseNeighbour k removed hnodup.1
    (fun x hx => h.size_degree ▸ hg.lt_size (hsplit ▸ mem_append_left _ hx)) worklist m
  rw [hdegree, if_neg fun hb => hnew hb.1]
  change 0 < s.degreeOf m
  rw [h.degree m hm, left, countP_pos_iff]
  exact ⟨id, hg.symm hmem, by rw [hid]; rfl⟩

/-- In every state of the loop the counter of a remaining node is the number of its remaining
neighbours, and setting a node aside lowers no counter that is zero. The worklist has every remaining
node with fewer than `k` remaining neighbours, so when it is empty, and a node is chosen, every
remaining node has `k` or more. The stack has the nodes that were set aside, once each, and the number
of the others is kept. In the end the stack has all nodes. -/
theorem bookkeeping_exact (visit : UseVisit) (l : Liveness) (cls : RegClass) (k : Nat)
    (barred : List String) :
    let g := ofLiveness visit l cls
    (∀ s, Reaches g k (g.spillable barred) s →
      (∀ m, s.isRemoved m = false → s.degreeOf m = s.left g m ∧ (s.left g m < k → m ∈ s.worklist)) ∧
      (∀ id m before after removed worklist, s.isRemoved id = false → s.isRemoved m = false →
        g.neighbours id = before ++ m :: after →
        0 < (before.foldl (loseNeighbour k removed) (s.degree, worklist)).1.getD m 0) ∧
      (s.worklist = [] → ∀ m, s.isRemoved m = false → k ≤ s.left g m) ∧
      (s.stack.map SetAside.node).Nodup ∧
      (∀ m, m ∈ s.stack.map SetAside.node ↔ m < g.size ∧ s.isRemoved m = true) ∧
      s.remaining = (List.range g.size).countP fun m => !s.isRemoved m) ∧
    ∃ s, Reaches g k (g.spillable barred) s ∧ s.remaining = 0 ∧
      (start g k).run g k (g.spillable barred) = s.stack ∧
      (s.stack.map SetAside.node).Perm (List.range g.size) := by
  intro g
  have hkept : ∀ {s}, Reaches g k (g.spillable barred) s → s.Kept g k fun _ => True :=
    fun h => h.kept isSimple_ofLiveness fun m hm => (mem_spillable.mp hm).1
  constructor
  · intro s hs
    have h := hkept hs
    have hlisted : ∀ m, s.isRemoved m = false → s.left g m < k → m ∈ s.worklist := by
      intro m hm hlow
      rw [← h.consistent.degree m hm] at hlow
      exact (h.listed m hm).mpr hlow
    refine ⟨fun m hm => ⟨h.consistent.degree m hm, hlisted m hm⟩,
      fun id m before after removed worklist hid hm hsplit =>
        h.consistent.degree_pos isSimple_ofLiveness hid hm hsplit removed worklist,
      fun hempty m hm => ?_, nodup_of_simplified h.simplified, h.consistent.stack,
      h.consistent.remaining⟩
    by_contra hlow
    exact not_mem_nil (hempty ▸ hlisted m hm (Nat.lt_of_not_le hlow))
  · obtain ⟨s, hs, hrun, hend⟩ := exists_run_eq (P := Reaches g k (g.spillable barred))
      (fun hstep h => h.tail hstep) .refl
    have h := hkept hs
    have hall := h.consistent.isRemoved_of_end hend
    refine ⟨s, hs, ?_, hrun, ?_⟩
    · rw [h.consistent.remaining, countP_eq_zero]
      intro m hm
      simp [hall m (mem_range.mp hm)]
    · refine (perm_ext_iff_of_nodup (nodup_of_simplified h.simplified) nodup_range).mpr fun m => ?_
      rw [h.consistent.stack, mem_range]
      exact ⟨And.left, fun hm => ⟨hm, hall m hm⟩⟩

end Simplifier
end ClosureCodegen
