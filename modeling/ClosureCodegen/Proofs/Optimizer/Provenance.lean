import ClosureCodegen.Optimizer.Basic
import ClosureCodegen.Proofs.Optimizer.Coalescing
import ClosureCodegen.Proofs.Optimizer.Peephole
import ClosureCodegen.Proofs.Optimizer.Scheduling

/-!
# What the optimizer makes its code of

The optimizer moves, drops and merges instructions, but it never brings in a register: every register
of the optimized body is one of the body, or the zero register of an idle lane, or the stack pointer
of an adjustment.  Nor does it bring in an opcode, apart from those of the accesses, sums and empty
instructions it works with.  `MadeFrom` is this relation between a body and what a pass makes of it;
it is transitive, and holds of each pass.
-/

namespace ClosureCodegen
open List Outcome Instr

variable {i access k : Instr} {n : Nat} {r : Reg} {code rest : Code} {pending : Word}
  {c : Coalesced} {a first : ScalarAccess} {v w : Vectorized} {options : OptimizerOptions}

/-- The opcodes of the instructions that the optimizer writes itself. -/
def Opcode.isWritten : Opcode → Bool
  | .nop | .addi | .sub | .lw | .flw | .sw | .fsw | .vlw | .vsw => true
  | _ => false

/-- An instruction made of the registers and opcodes of a body. -/
structure MadeOf (code : Code) (k : Instr) : Prop where
  regs : ∀ r, .reg r ∈ k.operands → r = zeroReg ∨ r = stackReg ∨ ∃ i ∈ code, .reg r ∈ i.operands
  op : k.op.isWritten = true ∨ ∃ i ∈ code, i.op = k.op

/-- All instructions are made of the registers and opcodes of a body. -/
def MadeFrom (code out : Code) : Prop := ∀ k ∈ out, MadeOf code k

section Making

variable {code' out : Code}

theorem MadeOf.of_mem (hk : k ∈ code) : MadeOf code k :=
  ⟨fun _ hr => .inr (.inr ⟨k, hk, hr⟩), .inr ⟨k, hk, rfl⟩⟩

theorem MadeOf.trans (hcode : MadeFrom code code') (hk : MadeOf code' k) : MadeOf code k where
  regs r hr := by
    rcases hk.regs r hr with hz | hs | ⟨i, hi, hri⟩
    · exact .inl hz
    · exact .inr (.inl hs)
    · exact (hcode i hi).regs r hri
  op := by
    rcases hk.op with hw | ⟨i, hi, hop⟩
    · exact .inl hw
    · exact hop ▸ (hcode i hi).op

theorem madeOf_nop (code : Code) : MadeOf code .nop :=
  ⟨fun _ hr => absurd hr not_mem_nil, .inl rfl⟩

theorem madeOf_moveStack (code : Code) (delta : Word) : MadeOf code (.moveStack delta) where
  regs r hr := by
    simp only [moveStack, immediate, mem_cons, Operand.reg.injEq, reduceCtorEq,
      not_mem_nil, or_false, or_self] at hr
    exact .inr (.inl hr)
  op := .inl rfl

theorem MadeOf.setOperand (hi : MadeOf code i) {o : Operand} (n : Nat)
    (ho : ∀ r, o = .reg r → r = zeroReg ∨ r = stackReg ∨ ∃ j ∈ code, .reg r ∈ j.operands) :
    MadeOf code (i.setOperand n o) where
  regs r hr := by
    rcases mem_or_eq_of_mem_set hr with hr | hr
    · exact hi.regs r hr
    · exact ho r hr.symm
  op := hi.op

theorem MadeOf.setImm (hi : MadeOf code i) (n : Nat) (w : Word) :
    MadeOf code (i.setOperand n (.imm w)) :=
  hi.setOperand n nofun

namespace MadeFrom

theorem of_subset (h : out ⊆ code) : MadeFrom code out := fun _ hk => .of_mem (h hk)

theorem refl (code : Code) : MadeFrom code code := of_subset (List.Subset.refl code)

theorem trans (h : MadeFrom code code') (h' : MadeFrom code' out) : MadeFrom code out :=
  fun k hk => .trans h (h' k hk)

theorem filter (code : Code) (keep : Instr → Bool) : MadeFrom code (code.filter keep) :=
  of_subset fun _ hk => mem_of_mem_filter hk

end MadeFrom

end Making

theorem Instr.mem_operands_of_reg? (h : i.reg? n = some r) : .reg r ∈ i.operands := by
  obtain ⟨o, ho, hr⟩ := Option.bind_eq_some_iff.mp h
  cases o with
  | reg q =>
    cases hr
    exact mem_of_getElem? ho
  | imm | fimm | label | mask => cases hr

/-! ## Shorthands and cleanup -/

/-- A load or store at an absolute address, of the register that its shorthand names. -/
theorem madeOf_absolute {r : Reg} (hi : i ∈ code) (hr : i.reg? 0 = some r) (address : Word) :
    MadeOf code (.load r zeroReg address) ∧ MadeOf code (.store zeroReg r address) := by
  have hregs : ∀ q, q = r ∨ q = zeroReg →
      q = zeroReg ∨ q = stackReg ∨ ∃ i ∈ code, .reg q ∈ i.operands := by
    rintro q (rfl | rfl)
    · exact .inr (.inr ⟨i, hi, i.mem_operands_of_reg? hr⟩)
    · exact .inl rfl
  refine ⟨⟨fun q hq => hregs q ?_, .inl ?_⟩, ⟨fun q hq => hregs q ?_, .inl ?_⟩⟩
  · simpa [load] using hq
  · rcases r with ⟨x, _ | _⟩ <;> rfl
  · simpa [store, or_comm] using hq
  · rcases r with ⟨x, _ | _⟩ <;> rfl

theorem madeFrom_expandShorthands (code : Code) : MadeFrom code (expandShorthands code) := by
  have hkept : MadeFrom code (deleteNops code) := .filter code _
  refine hkept.trans fun k hk => ?_
  obtain ⟨i, hi, rfl⟩ := mem_map.mp hk
  unfold plain
  split
  · next d s _ _ hd hs =>
    refine ⟨fun r hr => ?_, .inl rfl⟩
    simp only [binary, mem_cons, Operand.reg.injEq, not_mem_nil, or_false] at hr
    rcases hr with rfl | rfl | rfl
    · exact .inr (.inr ⟨i, hi, i.mem_operands_of_reg? hd⟩)
    · exact .inl rfl
    · exact .inr (.inr ⟨i, hi, i.mem_operands_of_reg? hs⟩)
  · next hd _ => exact (madeOf_absolute hi hd _).1
  · next hd _ => exact (madeOf_absolute hi hd _).1
  · next hs _ => exact (madeOf_absolute hi hs _).2
  · next hs _ => exact (madeOf_absolute hi hs _).2
  · exact .of_mem hi

theorem madeOf_foldOffset {sum : Instr} (hsum : MadeOf code sum) (haccess : MadeOf code access) :
    MadeOf code (foldOffset sum access) := by
  rcases foldOffset_cases sum access with heq | ⟨d, s, k, base, b, offset, -, hs, -, -, -, -, -, -, -,
    heq⟩
  · rwa [heq]
  · rw [heq]
    refine MadeOf.setImm (haccess.setOperand base fun r hr => ?_) _ _
    cases hr
    exact hsum.regs s (sum.mem_operands_of_reg? hs)

theorem madeFrom_peepholePairs (code : Code) : MadeFrom code (peepholePairs code) := by
  have hpairs := expands_peepholePairs (P := MadeOf code) (R := fun _ => MadeOf code) id
    (fun _ h => h) (madeOf_nop code) (fun _ _ => madeOf_nop code)
    (fun hsum haccess => ⟨madeOf_foldOffset hsum haccess, madeOf_foldOffset hsum haccess⟩)
    fun _ hi => .of_mem hi
  refine hpairs.forall_mem ?_
  rintro i _ ⟨k, rfl, hk⟩
  exact forall_mem_singleton.mpr hk

/-! ## The stack pointer -/

theorem madeFrom_coalesceStack (h : coalesceStack code = .ok c) : MadeFrom code c.code :=
  (coalesceStack_eq_ok_iff.mp ⟨c.absorbed, h⟩).forall_mem (madeOf_moveStack code)
    (fun hi _ _ => hi.setImm _) fun _ hi => .of_mem hi

/-! ## Threading -/

theorem mem_setFirstLabel {target : String} {os : List Operand}
    (h : .reg r ∈ setFirstLabel target os) : .reg r ∈ os := by
  induction os with
  | nil => cases h
  | cons o os ih =>
    cases o with
    | label l => simpa [setFirstLabel] using h
    | reg q | imm q | fimm q | mask q =>
      simp only [setFirstLabel, mem_cons] at h
      exact mem_cons.mpr (h.imp_right ih)

theorem madeFrom_thread (select : Opcode → Bool) (code : Code) :
    MadeFrom code (thread select code).1 := by
  intro k hk
  simp only [thread, map_map, mem_map, Function.comp_apply] at hk
  obtain ⟨i, hi, rfl⟩ := hk
  cases threadedTarget? code (labelTable code) select i with
  | none => exact .of_mem hi
  | some target =>
    exact ⟨fun r hr => .inr (.inr ⟨i, hi, mem_setFirstLabel hr⟩), .inr ⟨i, hi, rfl⟩⟩

/-! ## Vector accesses -/

/-- An access that an instruction of a body makes. -/
def ScalarAccess.IsOf (code : Code) (a : ScalarAccess) : Prop :=
  ∃ i ∈ code, i.scalarAccess? = some a

theorem ScalarAccess.IsOf.mono {part : Code} (hpart : part ⊆ code) (ha : a.IsOf part) :
    a.IsOf code := by
  obtain ⟨i, hi, h⟩ := ha
  exact ⟨i, hpart hi, h⟩

theorem ScalarAccess.IsOf.mem_operands (ha : a.IsOf code) :
    ∃ i ∈ code, .reg a.base ∈ i.operands ∧ .reg a.value ∈ i.operands := by
  obtain ⟨i, hi, h⟩ := ha
  refine ⟨i, hi, ?_⟩
  unfold scalarAccess? at h
  split at h
  case h_5 => cases h
  all_goals
    simp only [Option.bind_eq_bind, Option.bind_eq_some_iff, Option.pure_def, Option.some.injEq] at h
    obtain ⟨b, hb, v, hv, o, -, rfl⟩ := h
    exact ⟨i.mem_operands_of_reg? hb, i.mem_operands_of_reg? hv⟩

theorem isOf_of_mem_growRun {step : Word} {room : Nat} {run : List ScalarAccess}
    {last : ScalarAccess} {grown : List ScalarAccess} (hcode : rest ⊆ code)
    (hrun : ∀ a ∈ run, a.IsOf code) (h : growRun step room run last rest = .ok grown) :
    ∀ a ∈ grown, a.IsOf code := by
  fun_induction growRun step room run last rest with
  | case1 | case2 | case3 =>
    cases h
    exact hrun
  | case4 room run last i rest next hnext ih =>
    simp only [bind_eq_ok] at h
    obtain ⟨extended, -, h⟩ := h
    split at h
    · refine ih (fun j hj => hcode (mem_cons_of_mem i hj)) ?_ h
      rw [forall_mem_append]
      exact ⟨hrun, by simpa using ⟨i, hcode mem_cons_self, hnext⟩⟩
    · cases h
      exact hrun

theorem findRun?_eq_some {run : Run} (h : findRun? code = .ok (some run)) :
    ∃ i rest first, code = i :: rest ∧ i.scalarAccess? = some first ∧
      first.value.name ≠ first.base.name ∧ 2 ≤ run.accesses.length ∧
      growRun (if run.descending then -Word.size else Word.size) (laneCount - 1) [first] first rest =
        .ok run.accesses := by
  unfold findRun? at h
  split at h
  · cases h
  · next i rest =>
    split at h
    · cases h
    · next first hfirst =>
      split at h
      · cases h
      · next hne =>
        obtain ⟨up, hup, h⟩ := bind_eq_ok.mp h
        split at h
        · next hlen =>
          cases h
          exact ⟨i, rest, first, rfl, hfirst, hne, hlen, hup⟩
        · obtain ⟨down, hdown, h⟩ := bind_eq_ok.mp h
          split at h
          · next hlen =>
            cases h
            exact ⟨i, rest, first, rfl, hfirst, hne, hlen, hdown⟩
          · cases h

theorem isOf_of_findRun? {run : Run} (h : findRun? code = .ok (some run)) :
    ∀ a ∈ run.accesses, a.IsOf code := by
  obtain ⟨i, rest, first, rfl, hfirst, -, -, hgrow⟩ := findRun?_eq_some h
  exact isOf_of_mem_growRun (subset_cons_self i rest)
    (by simpa using ⟨i, mem_cons_self, hfirst⟩) hgrow

/-- The lanes of a run, the idle ones as the zero register. -/
def Run.lanes (run : Run) : List Reg :=
  let values := run.accesses.map ScalarAccess.value
  let idle := List.replicate (laneCount - values.length) zeroReg
  if run.descending then (values ++ idle).reverse else values ++ idle

def Run.mask (run : Run) : BitVec 8 :=
  if run.descending then trailingMask run.accesses.length else leadingMask run.accesses.length

theorem Run.vector_eq_ok {run : Run} (h : run.vector first = .ok k) :
    ∃ offset,
      offset = (if run.descending then first.offset - Word.ofCount (laneCount - 1)
        else first.offset) ∧
      k = ⟨if first.op.isScalarLoad then .vlw else .vsw,
        .reg first.base :: run.lanes.map .reg ++ [.imm offset, .mask run.mask]⟩ := by
  simp only [vector, lanes, mask, length_map] at h ⊢
  cases hd : run.descending with
  | true =>
    simp only [hd, if_true, bind_eq_ok, pure_eq_ok] at h
    obtain ⟨offset, hoffset, rfl⟩ := h
    exact ⟨offset, Word.eq_sub_of_sub? (Fault.liftM_eq_ok.mp hoffset), rfl⟩
  | false =>
    simp only [hd] at h
    cases h
    exact ⟨_, rfl, rfl⟩

theorem mem_lanes {run : Run} (h : r ∈ run.lanes) :
    r = zeroReg ∨ ∃ a ∈ run.accesses, a.value = r := by
  have hmem : r ∈ run.accesses.map ScalarAccess.value ++
      List.replicate (laneCount - (run.accesses.map ScalarAccess.value).length) zeroReg := by
    simp only [Run.lanes] at h
    split at h
    · exact mem_reverse.mp h
    · exact h
  rcases mem_append.mp hmem with h | h
  · exact .inr (mem_map.mp h)
  · exact .inl (eq_of_mem_replicate h)

theorem madeOf_vector {run : Run} (hrun : ∀ a ∈ run.accesses, a.IsOf code)
    (hfirst : first ∈ run.accesses) (h : run.vector first = .ok k) : MadeOf code k := by
  obtain ⟨offset, -, rfl⟩ := Run.vector_eq_ok h
  refine ⟨fun r hr => ?_, .inl (by dsimp only; split <;> rfl)⟩
  simp only [cons_append, mem_cons, Operand.reg.injEq, mem_append, mem_map,
    reduceCtorEq, not_mem_nil, or_self, or_false, exists_eq_right] at hr
  rcases hr with rfl | hr
  · obtain ⟨i, hi, hbase, -⟩ := (hrun first hfirst).mem_operands
    exact .inr (.inr ⟨i, hi, hbase⟩)
  · rcases mem_lanes hr with rfl | ⟨a, ha, rfl⟩
    · exact .inl rfl
    · obtain ⟨i, hi, -, hvalue⟩ := (hrun a ha).mem_operands
      exact .inr (.inr ⟨i, hi, hvalue⟩)

/-- What vector formation makes of the front of a body: a vector access in the place of a run, or the
first instruction as it is. -/
theorem vectorize_cons_eq_ok (h : vectorize (i :: rest) = .ok v) :
    (∃ run first later access tail, findRun? (i :: rest) = .ok (some run) ∧
      run.accesses = first :: later ∧ run.vector first = .ok access ∧
      vectorize (rest.drop later.length) = .ok tail ∧ v = ⟨access :: tail.code, tail.formed + 1⟩) ∨
    ∃ tail, findRun? (i :: rest) = .ok none ∧ vectorize rest = .ok tail ∧
      v = ⟨i :: tail.code, tail.formed⟩ := by
  rw [vectorize] at h
  obtain ⟨run?, hrun, h⟩ := bind_eq_ok.mp h
  split at h
  · next run =>
    split at h
    · next first later haccesses =>
      simp only [bind_eq_ok, pure_eq_ok] at h
      obtain ⟨access, haccess, tail, htail, rfl⟩ := h
      exact .inl ⟨run, first, later, access, tail, hrun, haccesses, haccess, htail, rfl⟩
    · next haccesses =>
      obtain ⟨_, _, _, -, -, -, hlength, -⟩ := findRun?_eq_some hrun
      rw [haccesses] at hlength
      cases hlength
  · simp only [bind_eq_ok, pure_eq_ok] at h
    obtain ⟨tail, htail, rfl⟩ := h
    exact .inr ⟨tail, hrun, htail, rfl⟩

/-- Vector formation keeps instructions, and it forms vector accesses from the accesses of a body. -/
theorem mem_vectorize (h : vectorize code = .ok v) (hk : k ∈ v.code) :
    k ∈ code ∨ ∃ run first, (∀ a ∈ run.accesses, a.IsOf code) ∧
      first ∈ run.accesses ∧ Run.vector run first = .ok k := by
  fun_induction vectorize code generalizing v with
  | case1 =>
    cases h
    cases hk
  | case2 i rest ihrun ih =>
    rw [← vectorize] at h
    rcases vectorize_cons_eq_ok h with ⟨run, first, later, access, tail, hrun, haccesses, haccess,
      htail, rfl⟩ | ⟨tail, -, htail, rfl⟩
    · rcases mem_cons.mp hk with rfl | hk
      · exact .inr ⟨run, first, isOf_of_findRun? hrun,
          by rw [haccesses]; exact mem_cons_self, haccess⟩
      · have hdrop : rest.drop later.length ⊆ i :: rest := fun j hj =>
          mem_cons_of_mem i (mem_of_mem_drop hj)
        exact (ihrun later htail hk).imp (fun hk => hdrop hk)
          fun ⟨run, first, hall, h⟩ => ⟨run, first, fun a ha => (hall a ha).mono hdrop, h⟩
    · rcases mem_cons.mp hk with rfl | hk
      · exact .inl mem_cons_self
      · exact (ih htail hk).imp (mem_cons_of_mem i) fun ⟨run, first, hall, h⟩ =>
          ⟨run, first, fun a ha => (hall a ha).mono (subset_cons_self i rest), h⟩

theorem madeFrom_vectorize (h : vectorize code = .ok v) : MadeFrom code v.code := by
  intro k hk
  rcases mem_vectorize h hk with hk | ⟨run, first, hall, hfirst, hvector⟩
  · exact .of_mem hk
  · exact madeOf_vector hall hfirst hvector

/-- Alignment leaves an instruction alone, or it moves the lanes of a vector access by some lanes. -/
theorem alignLanes_eq_ok (h : i.alignLanes = .ok k) :
    k = i ∨ ∃ (base r₀ r₁ r₂ r₃ : Operand) (offset : Word) (mask : BitVec 8),
      (i.op = .vlw ∨ i.op = .vsw) ∧
      i.operands = [base, r₀, r₁, r₂, r₃, .imm offset, .mask mask] ∧
      mask ≠ 0 ∧ idleLanes mask ≤ laneCount ∧
      k = { i with
        operands := base :: ([r₀, r₁, r₂, r₃].drop (idleLanes mask) ++
          List.replicate (idleLanes mask) (.reg zeroReg)) ++
          [.imm (offset + Word.ofCount (idleLanes mask)), .mask (mask >>> idleLanes mask)] } := by
  unfold alignLanes at h
  split at h
  · cases h
    exact .inl rfl
  next hop =>
  split at h
  · next base r₀ r₁ r₂ r₃ offset mask hoperands =>
    dsimp only at h
    split at h
    · cases h
      exact .inl rfl
    next hmask =>
    split at h
    · cases h
    next hshift =>
    simp only [bind_eq_ok, pure_eq_ok] at h
    obtain ⟨moved, hmoved, rfl⟩ := h
    rw [Word.eq_add_of_add? (Fault.liftM_eq_ok.mp hmoved)]
    refine .inr ⟨base, r₀, r₁, r₂, r₃, offset, mask, ?_, hoperands, ?_, Nat.le_of_not_lt hshift, rfl⟩
    · by_contra hne
      exact hop ⟨fun h => hne (.inl h), fun h => hne (.inr h)⟩
    · exact fun hz => hmask (.inl hz)
  · cases h
    exact .inl rfl

theorem madeOf_alignLanes (h : i.alignLanes = .ok k) : MadeOf [i] k := by
  rcases alignLanes_eq_ok h with rfl | ⟨base, r₀, r₁, r₂, r₃, offset, mask, -, hoperands, -, -, rfl⟩
  · exact .of_mem (mem_singleton_self k)
  refine ⟨fun r hr => ?_, .inr ⟨i, mem_singleton_self i, rfl⟩⟩
  simp only [cons_append, mem_cons, mem_append, mem_replicate, reduceCtorEq,
    not_mem_nil, or_self, or_false, Operand.reg.injEq] at hr
  rcases hr with rfl | hr | ⟨-, rfl⟩
  · exact .inr (.inr ⟨i, mem_singleton_self i, by rw [hoperands]; exact mem_cons_self⟩)
  · refine .inr (.inr ⟨i, mem_singleton_self i, ?_⟩)
    have hlane := mem_of_mem_drop hr
    rw [hoperands]
    simp only [mem_cons, not_mem_nil, or_false, reduceCtorEq] at hlane ⊢
    exact .inr hlane
  · exact .inl rfl

theorem exists_of_mem_of_forall₂ {α β : Type} {R : α → β → Prop} {as : List α} {bs : List β}
    (h : List.Forall₂ R as bs) {b : β} (hb : b ∈ bs) : ∃ a ∈ as, R a b := by
  induction h with
  | nil => cases hb
  | cons hr _ ih => grind

theorem madeFrom_alignVectors {out : Code} (h : alignVectors code = .ok out) :
    MadeFrom code out := by
  intro k hk
  obtain ⟨i, hi, h⟩ := exists_of_mem_of_forall₂ (mapM_eq_ok.mp h) hk
  exact .trans (.of_subset (by simpa using hi)) (madeOf_alignLanes h)

/-! ## Scheduling -/

theorem scheduleFrom_subset (done rest : Code) (swaps : Nat) :
    (scheduleFrom done swaps rest).code ⊆ done ++ rest := by
  fun_induction scheduleFrom done swaps rest with
  | case9 done swaps rest _ => simp
  | _ => grind

/-! ## The whole optimizer -/

theorem madeFrom_optimizeRound (h : optimizeRound options v = .ok w) : MadeFrom v.code w.code := by
  obtain ⟨coalesced, hcoalesced, h⟩ := bind_eq_ok.mp h
  have hthreaded : MadeFrom v.code (threadJumps coalesced.code).1 :=
    (((madeFrom_peepholePairs v.code).trans (.filter _ _)).trans (madeFrom_coalesceStack hcoalesced)).trans
      (madeFrom_thread _ _)
  dsimp only at h
  split at h
  · simp only [vectorRound, bind_eq_ok, pure_eq_ok] at h
    obtain ⟨_, ⟨u, hu, aligned, haligned, rfl⟩, rfl⟩ := h
    exact ((hthreaded.trans (madeFrom_vectorize hu)).trans (madeFrom_alignVectors haligned)).trans
      (.filter _ _)
  · cases h
    exact hthreaded.trans (.filter _ _)

theorem madeFrom_optimizeRounds (h : optimizeRounds options n v = .ok w) :
    MadeFrom v.code w.code := by
  induction n generalizing v with
  | zero =>
    cases h
    exact .refl _
  | succ n ih =>
    obtain ⟨u, hu, h⟩ := bind_eq_ok.mp h
    exact (madeFrom_optimizeRound hu).trans (ih h)

theorem madeFrom_optimize (h : optimize options code = .ok v) : MadeFrom code v.code := by
  simp only [optimize, bind_eq_ok, pure_eq_ok] at h
  obtain ⟨w, hw, rfl⟩ := h
  have hthreaded : MadeFrom code (threadBranches w.code).1 :=
    ((madeFrom_expandShorthands code).trans (madeFrom_optimizeRounds hw)).trans (madeFrom_thread _ _)
  dsimp only
  split
  · exact hthreaded.trans (.of_subset (scheduleFrom_subset [] _ 0))
  · exact hthreaded

end ClosureCodegen
