import ClosureCodegen.Proofs.Code.Skeleton

/-!
# Liveness is exact

The flow graph of a body has an edge from each instruction to the instructions that control can go on
with.  A register is in the solution behind an instruction if and only if some path of the graph leads
from there to a use of the register, and none of the instructions between defines it.  The sweeps
themselves need no bound: they come to rest with the solution.

A body has no solution only if it has a branch that control cannot follow, and the failure is that of
the first such branch.

* `Liveness.exists_ofCode_iff`: a body has a solution if each of its branches names a label of it.
* `FlowEquations.Rests`: the sweeps without a bound on their number.
* `LeadsToUse`: the paths.
* `Liveness.ofCode_exact`: all of this together.
-/

namespace ClosureCodegen
open List

/-! ## Bodies without a solution -/

/-- Control cannot follow a branch: it names no label, or one that the body does not have. -/
inductive Instr.BranchFails (code : Code) (i : Instr) : Failure → Prop where
  | malformed : i.op.isBranch = true → i.label? = none →
      BranchFails code i (.malformedInstruction i .liveness)
  | missing {l : String} : i.op.isBranch = true → i.label? = some l → l ∉ labelNames code →
      BranchFails code i (.missingLabel l .liveness)

variable {code : Code} {i : Instr} {p : Nat} {e : Failure}

theorem successorsOf_eq_error_iff :
    successorsOf code (labelTable code) i p = .error e ↔ i.BranchFails code e := by
  unfold successorsOf
  by_cases hj : i.op = .j
  · rw [if_pos hj]
    refine ⟨nofun, fun h => ?_⟩
    rcases h with ⟨hb, _⟩ | ⟨hb, _, _⟩ <;> rw [hj] at hb <;> cases hb
  · rw [if_neg hj]
    cases hb : i.op.isBranch with
    | false =>
      refine ⟨nofun, fun h => ?_⟩
      rcases h with ⟨hb', _⟩ | ⟨hb', _, _⟩ <;> rw [hb] at hb' <;> cases hb'
    | true =>
      simp only [if_true, Outcome.bind_eq_error]
      constructor
      · rintro (h | ⟨target, _, h⟩)
        · unfold branchTarget at h
          split at h
          · next hl =>
            cases h
            exact .malformed hb hl
          · next l hl =>
            split at h
            · next hpos =>
              cases h
              exact .missing hb hl (labelIndex?_eq_none_iff.mp (position?_labelTable l code ▸ hpos))
            · cases h
        · cases target <;> cases h
      · rintro (⟨_, hl⟩ | ⟨_, hl, hn⟩)
        · left
          simp only [branchTarget, hl]
        · left
          simp only [branchTarget, hl, position?_labelTable, labelIndex?_eq_none_iff.mpr hn]

theorem successors_eq_error_iff : successors code = .error e ↔
    ∃ front i rest, code = front ++ i :: rest ∧ i.BranchFails code e ∧
      ∀ k ∈ front, ∀ e', ¬k.BranchFails code e' := by
  rw [successors, Outcome.mapM_eq_error]
  constructor
  · rintro ⟨front, ⟨i, p⟩, rest, heq, hfail, hfront⟩
    refine ⟨front.map Prod.fst, i, rest.map Prod.fst, ?_, successorsOf_eq_error_iff.mp hfail,
      fun k hk e' hk' => ?_⟩
    · have := congrArg (List.map Prod.fst) heq
      rwa [zipIdx_map_fst, map_append, map_cons] at this
    · obtain ⟨⟨k, n⟩, hmem, rfl⟩ := mem_map.mp hk
      obtain ⟨b, hb⟩ := hfront _ hmem
      cases hb.symm.trans (successorsOf_eq_error_iff.mpr hk')
  · rintro ⟨front, i, rest, heq, hfail, hfront⟩
    refine ⟨front.zipIdx, (i, front.length), rest.zipIdx (front.length + 1), ?_,
      successorsOf_eq_error_iff.mpr hfail, fun x hx => ?_⟩
    · rw [heq, zipIdx_append, zipIdx_cons, Nat.zero_add]
    · obtain ⟨k, n⟩ := x
      cases hs : successorsOf code (labelTable code) k n with
      | ok b => exact ⟨b, hs⟩
      | error e' =>
        exact absurd (successorsOf_eq_error_iff.mp hs) (hfront k (fst_mem_of_mem_zipIdx hx) e')

theorem Liveness.ofCode_eq_error_iff : ofCode code = .error e ↔ successors code = .error e := by
  simp only [ofCode, FlowEquations.ofCode, Outcome.bind_eq_error]
  constructor
  · rintro ((h | ⟨_, _, h⟩) | ⟨_, _, h⟩)
    · exact h
    · cases h
    · cases h
  · exact fun h => .inl (.inl h)

theorem Liveness.exists_ofCode_iff : (∃ l, ofCode code = .ok l) ↔
    ∀ i ∈ code, i.op.isBranch = true → ∃ l, i.label? = some l ∧ l ∈ labelNames code := by
  constructor
  · rintro ⟨l, hl⟩ i hi hb
    obtain ⟨eqs, heqs, -⟩ := ofCode_eq_ok hl
    obtain ⟨k, hk⟩ := mem_iff_getElem?.mp hi
    have hfollows : ∀ e, ¬i.BranchFails code e := fun e he =>
      nomatch (FlowEquations.next_ofCode heqs hk).symm.trans (successorsOf_eq_error_iff.mpr he)
    cases hlabel : i.label? with
    | none => exact (hfollows _ (.malformed hb hlabel)).elim
    | some target => exact ⟨target, rfl, not_not.mp fun hn => hfollows _ (.missing hb hlabel hn)⟩
  · intro h
    cases hl : ofCode code with
    | ok l => exact ⟨l, rfl⟩
    | error e =>
      obtain ⟨front, i, rest, rfl, hfail, -⟩ := successors_eq_error_iff.mp (ofCode_eq_error_iff.mp hl)
      have hmem : i ∈ front ++ i :: rest := mem_append_right front mem_cons_self
      cases hfail with
      | malformed hb hlabel =>
        obtain ⟨_, hlabel', -⟩ := h i hmem hb
        cases hlabel.symm.trans hlabel'
      | missing hb hlabel hn =>
        obtain ⟨_, hlabel', hl⟩ := h i hmem hb
        cases hlabel.symm.trans hlabel'
        exact absurd hl hn

variable {eqs : FlowEquations}

/-! ## The sweeps -/

namespace FlowEquations

variable {out : Array LiveSet}

/-- Sweeps lead from one row of sets to another, which the next sweep does not change. -/
inductive Rests (eqs : FlowEquations) : Array LiveSet → Array LiveSet → Prop where
  | rest {out : Array LiveSet} : eqs.sweep out = out → Rests eqs out out
  | sweep {out out' : Array LiveSet} : eqs.sweep out ≠ out → Rests eqs (eqs.sweep out) out' →
      Rests eqs out out'

/-- If a bounded number of sweeps comes to rest, so do the sweeps. -/
theorem rests_settle {fuel : Nat} (h : eqs.sweep (eqs.settle fuel out) = eqs.settle fuel out) :
    eqs.Rests out (eqs.settle fuel out) := by
  induction fuel generalizing out with
  | zero => exact .rest h
  | succ fuel ih =>
    rw [settle] at h ⊢
    by_cases hs : eqs.sweep out = out
    · simp only [hs, if_true]
      exact .rest hs
    · simp only [hs, if_false] at h ⊢
      exact .sweep hs (ih h)

end FlowEquations

/-! ## Paths -/

/-- A path in a flow graph from an instruction by way of others to a use of a register, with no
definition of the register on the way. -/
structure LeadsToUse (code : Code) (succs : List (List Nat)) (v : Reg) (p : Nat) (way : List Nat)
    (q : Nat) : Prop where
  chain : (p :: (way ++ [q])).IsChain fun a b => b ∈ succs.getD a []
  passes : ∀ j ∈ way, ∀ i, code[j]? = some i → v ∉ i.defs
  use : ∃ i, code[q]? = some i ∧ v ∈ i.uses

section Paths

variable {succs : List (List Nat)} {v : Reg} {q : Nat}

theorem FlowEquations.exists_successors (h : ofCode code = .ok eqs) :
    ∃ succs, successors code = .ok succs ∧ ∀ p, eqs.next.getD p [] = succs.getD p [] := by
  obtain ⟨succs, hs, rfl⟩ := ofCode_eq_ok h
  exact ⟨succs, hs, fun p => by simp [Array.getD_eq_getD_getElem?, getD_eq_getElem?_getD]⟩

theorem FlowEquations.exists_of_mem_next (h : ofCode code = .ok eqs) (hq : q ∈ eqs.next.getD p []) :
    ∃ i, code[q]? = some i ∧ i.isLabel = false := by
  obtain ⟨succs, hsucc, hnext⟩ := exists_successors h
  rw [hnext] at hq
  obtain ⟨i, hi⟩ := exists_getElem?_of_mem_successors hsucc hq
  obtain ⟨hs, hplace⟩ := suffix_of_getElem? hi
  rw [← hplace] at hq
  obtain ⟨_, _, _, _, hreal⟩ := (mem_successors hsucc hs).mp hq
  obtain ⟨k, hk, hreal⟩ := isReal_of_nextReal? hreal
  exact ⟨k, hk, Instr.isLabel_of_isReal hreal⟩

theorem FlowEquations.liveBehind_iff (he : ofCode code = .ok eqs)
    (hnext : ∀ p, eqs.next.getD p [] = succs.getD p []) (hv : v.isReserved = false)
    (hi : code[p]? = some i) (hl : i.isLabel = false) :
    eqs.LiveBehind v p ↔ ∃ way q, LeadsToUse code succs v p way q := by
  constructor
  · intro h
    clear hi hl
    induction h with
    | @use p q _ hq hu =>
      obtain ⟨k, hk, _⟩ := exists_of_mem_next he hq
      refine ⟨[], q, ⟨?_, nofun, k, hk, ?_⟩⟩
      · simpa [hnext] using hq
      · exact (Instr.mem_trackedUses.mp ((mem_uses_ofCode he hk).mp hu)).1
    | @pass p j _ hj hd _ ih =>
      obtain ⟨way, q, hpath⟩ := ih
      refine ⟨j :: way, q, ⟨?_, forall_mem_cons.mpr ⟨fun k hk hmem => hd ?_, hpath.passes⟩,
        hpath.use⟩⟩
      · exact .cons_cons (hnext p ▸ hj) hpath.chain
      · exact (mem_defs_ofCode he hk).mpr (Instr.mem_trackedDefs.mpr ⟨hmem, hv⟩)
  · rintro ⟨way, q, hchain, hpasses, k, hk, hu⟩
    -- along the path, from its first edge on
    induction way generalizing p i with
    | nil =>
      have hq : q ∈ eqs.next.getD p [] := by simpa [hnext] using hchain
      refine .use ((labels_ofCode he hi).trans hl) hq ?_
      exact (mem_uses_ofCode he hk).mpr (Instr.mem_trackedUses.mpr ⟨hu, hv⟩)
    | cons j way ih =>
      rw [cons_append, isChain_cons_cons, ← hnext] at hchain
      obtain ⟨hj, hchain⟩ := hchain
      obtain ⟨m, hm, hml⟩ := exists_of_mem_next he hj
      rw [forall_mem_cons] at hpasses
      refine .pass ((labels_ofCode he hi).trans hl) hj (fun hd => ?_)
        (ih hm hml hchain hpasses.2)
      exact hpasses.1 m hm (Instr.mem_trackedDefs.mp ((mem_defs_ofCode he hm).mp hd)).1

theorem FlowEquations.not_liveBehind_of_isLabel (he : ofCode code = .ok eqs)
    (hi : code[p]? = some i) (hl : i.isLabel = true) : ¬eqs.LiveBehind v p := by
  have hlabel : eqs.labels.getD p true = true := (labels_ofCode he hi).trans hl
  rintro (⟨h, _, _⟩ | ⟨h, _, _, _⟩) <;>
  · rw [hlabel] at h
    cases h

end Paths

/-! ## The solution -/

/-- What is live behind an instruction is what some path leads to a use of, nothing is live behind a
label, and the sweeps come to rest with the solution. There is none exactly if control cannot follow
some branch, and the failure is that of the first one. -/
theorem Liveness.ofCode_exact (code : Code) :
    (∀ l, ofCode code = .ok l → ∃ succs, successors code = .ok succs ∧
      (∀ p i v, code[p]? = some i → i.isLabel = false → v.isReserved = false →
        (v ∈ l.liveOut p ↔ ∃ way q, LeadsToUse code succs v p way q)) ∧
      (∀ p i, code[p]? = some i → i.isLabel = true → l.liveOut p = ∅) ∧
      FlowEquations.ofCode code = .ok l.equations ∧
      l.equations.Rests (Array.replicate code.length ∅) l.out) ∧
    ∀ e, ofCode code = .error e ↔ ∃ front i rest, code = front ++ i :: rest ∧
      i.BranchFails code e ∧ ∀ k ∈ front, ∀ e', ¬k.BranchFails code e' := by
  refine ⟨fun l hl => ?_, fun e => ofCode_eq_error_iff.trans successors_eq_error_iff⟩
  obtain ⟨eqs, he, rfl⟩ := ofCode_eq_ok hl
  obtain ⟨succs, hs, hnext⟩ := FlowEquations.exists_successors he
  refine ⟨succs, hs, fun p i v hi hlabel hv => ?_, fun p i hi hlabel => ?_, he, ?_⟩
  · exact FlowEquations.mem_solve_iff.trans
      (FlowEquations.liveBehind_iff he hnext hv hi hlabel)
  · refine LiveSet.ext fun v => iff_of_false (fun hv => ?_) (LiveSet.not_mem_empty v)
    exact FlowEquations.not_liveBehind_of_isLabel he hi hlabel (FlowEquations.mem_solve_iff.mp hv)
  · rw [← FlowEquations.size_ofCode he]
    exact FlowEquations.rests_settle FlowEquations.sweep_solve

def countDown : Code :=
  [.li (.int "n") 10, .li (.int "d") 1, .labelled "loop",
    .binary .sub (.int "n") (.int "n") (.int "d"), .branch .blt (.int "x0") (.int "n") "loop",
    ⟨.returnValue, [Reg.int "n"]⟩]

/-- Its flow graph: the label is passed over, and the branch leads back behind it. -/
def countDownGraph : List (List Nat) := [[1], [3], [3], [4], [5, 3], []]

theorem successors_countDown : successors countDown = .ok countDownGraph :=
  Outcome.eq_ok_of_toOption (by decide)

theorem Liveness.ofCode_exact_countDown :
    (∃ l, ofCode countDown = .ok l ∧ Reg.int "d" ∈ l.liveOut 3) ∧
      ofCode (countDown.drop 3) = .error (.missingLabel "loop" .liveness) := by
  constructor
  · cases hl : ofCode countDown with
    | error e =>
      cases (ofCode_eq_error_iff.mp hl).symm.trans successors_countDown
    | ok l =>
      obtain ⟨succs, hs, hlive, _⟩ := (ofCode_exact countDown).1 l hl
      cases hs.symm.trans successors_countDown
      refine ⟨l, rfl, (hlive 3 _ _ rfl rfl (by decide)).mpr ⟨[4], 3, ?_⟩⟩
      exact ⟨by decide, by decide, _, rfl, by decide⟩
  · -- the label was in front of what is left
    refine ((ofCode_exact _).2 _).mpr ⟨countDown.drop 3 |>.take 1, _, countDown.drop 5, rfl,
      .missing rfl rfl (by decide), fun k hk e hfail => ?_⟩
    cases mem_singleton.mp hk
    rcases hfail with ⟨hb, _⟩ | ⟨hb, _, _⟩ <;> cases hb

end ClosureCodegen
