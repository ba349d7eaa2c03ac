import ClosureCodegen.Proofs.Optimizer.Coalescing

/-!
# Coalesced code

Coalesced code is in a normal form.  What adjustments are left in it stand directly in front of
something that sees the stack pointer, and none of them adds zero.  A second pass finds nothing to do:
it absorbs each of them, and carries it out again in the same place.

Only adjustments and offsets are touched.  `stackless` is what a body is without them, and a pass keeps
it.
-/

namespace ClosureCodegen
open List

/-! ## Without adjustments and offsets -/

/-- An access to the stack with its offset put to zero. -/
def Instr.withoutOffset (i : Instr) : Instr :=
  match i.stackOffset? with
  | some n => if (i.imm? n).isSome then i.setOperand n (.imm 0) else i
  | none => i

/-- What is left of a body without its adjustments of the stack pointer and without the offsets of its
accesses to the stack. -/
def stackless (code : Code) : Code :=
  (code.filter fun i => i.stackAdjustment?.isNone).map Instr.withoutOffset

theorem stackless_append (a b : Code) : stackless (a ++ b) = stackless a ++ stackless b := by
  rw [stackless, filter_append, map_append, stackless, stackless]

theorem stackless_cons_adjustment {i : Instr} {k : Word} (h : i.stackAdjustment? = some k)
    (code : Code) : stackless (i :: code) = stackless code := by
  rw [stackless, filter_cons_of_neg (by simp [h]), stackless]

theorem stackless_cons {i : Instr} (h : i.stackAdjustment? = none) (code : Code) :
    stackless (i :: code) = i.withoutOffset :: stackless code := by
  rw [stackless, filter_cons_of_pos (by simp [h]), stackless, map_cons]

theorem stackAdjustment?_moveStack (p : Word) : (Instr.moveStack p).stackAdjustment? = some p := rfl

@[simp] theorem stackless_settleStack (p : Word) : stackless (settleStack p) = [] := by
  unfold settleStack
  split
  · rfl
  · exact stackless_cons_adjustment (stackAdjustment?_moveStack p) []

/-! ## Displaced accesses -/

theorem Word.add?_zero (a : Word) : Word.add? a 0 = .ok a := by
  have hlt := BitVec.toInt_lt (x := a)
  have hle := BitVec.le_toInt a
  rw [Word.add?, if_neg, show a + 0 = a from BitVec.add_zero a]
  simp [BitVec.saddOverflow]
  omega

theorem Word.zero_add? (a : Word) : Word.add? 0 a = .ok a := by
  have hlt := BitVec.toInt_lt (x := a)
  have hle := BitVec.le_toInt a
  rw [Word.add?, if_neg, show 0 + a = a from BitVec.zero_add a]
  simp [BitVec.saddOverflow]
  omega

namespace Instr

variable {i i' : Instr} {n : Nat} {p w : Word}

theorem stackAdjustment?_of_stackOffset? (h : i.stackOffset? = some n) : i.stackAdjustment? = none := by
  refine stackAdjustment?_eq_none fun hop => ?_
  have haddr := addressing?_of_stackOffset? h
  rw [hop] at haddr
  cases haddr

theorem stackOffset?_setOperand (h : i.stackOffset? = some n) (o : Operand) :
    (i.setOperand n o).stackOffset? = some n := by
  obtain ⟨⟨base, offset⟩, haddr, h⟩ := Option.bind_eq_some_iff.mp h
  rw [Option.ite_none_right_eq_some, Option.some.injEq] at h
  obtain ⟨hbase, rfl⟩ := h
  have hne : offset ≠ base := by
    rcases Opcode.family_of_addressing? haddr with ⟨-, rfl, rfl⟩ | ⟨-, rfl, rfl⟩ | ⟨-, rfl, rfl⟩ |
      ⟨-, rfl, rfl⟩ <;> decide
  refine Option.bind_eq_some_iff.mpr ⟨(base, offset), haddr, if_pos ?_⟩
  rw [regNames, reg?, setOperand, getElem?_set_ne hne]
  exact hbase

theorem imm?_setOperand (h : (i.imm? n).isSome = true) (w : Word) :
    (i.setOperand n (.imm w)).imm? n = some w := by
  obtain ⟨o, ho⟩ := Option.isSome_iff_exists.mp h
  obtain ⟨a, ha, -⟩ := Option.bind_eq_some_iff.mp ho
  rw [imm?, setOperand, getElem?_set_self (List.getElem?_eq_some_iff.mp ha).1]
  rfl

theorem setOperand_setOperand (i : Instr) (n : Nat) (o o' : Operand) :
    (i.setOperand n o).setOperand n o' = i.setOperand n o' := by
  rw [setOperand, setOperand, setOperand, set_set]

theorem stackOffset?_displace (hn : i.stackOffset? = some n) (h : i.displace n p = .ok i') :
    i'.stackOffset? = some n := by
  rcases displace_eq_ok h with ⟨-, rfl⟩ | ⟨_, _, -, -, rfl⟩
  · exact hn
  · exact stackOffset?_setOperand hn _

theorem withoutOffset_displace (hn : i.stackOffset? = some n) (h : i.displace n p = .ok i') :
    i'.withoutOffset = i.withoutOffset := by
  rcases displace_eq_ok h with ⟨-, rfl⟩ | ⟨offset, w, ho, -, rfl⟩
  · rfl
  · have hsome : (i.imm? n).isSome = true := by rw [ho]; rfl
    simp only [withoutOffset, hn, stackOffset?_setOperand hn, imm?_setOperand hsome, hsome, if_true,
      Option.isSome_some, setOperand_setOperand]

theorem displace_zero (h : i.displace n p = .ok i') : i'.displace n 0 = .ok i' := by
  rcases displace_eq_ok h with ⟨ho, rfl⟩ | ⟨offset, w, ho, -, rfl⟩
  · rw [displace, ho]
    rfl
  · have hsome : (i.imm? n).isSome = true := by rw [ho]; rfl
    rw [displace, imm?_setOperand hsome]
    simp only [Word.add?_zero]
    exact congrArg Except.ok (setOperand_setOperand i n _ _)

end Instr

/-! ## Where adjustments stand -/

/-- What the stack pointer has to be up to date for: a call, a jump or a return, a branch that is not
that of a conditional, a label of a conditional, and the end of the body. -/
inductive ObservesStack : Code → Prop where
  | atEnd : ObservesStack []
  | transfer {i : Instr} {rest : Code} : i.op.seesStack = true → ObservesStack (i :: rest)
  | branch {i : Instr} {rest : Code} : i.op.isBranch = true → ¬ i.HeadsConditional (labelNames rest) →
      ObservesStack (i :: rest)
  | taken {i : Instr} {rest : Code} {l m : String} : i.joint? = some (.label l) →
      endifOf? l = some m → ObservesStack (i :: rest)
  | join {i : Instr} {rest : Code} {l m : String} : i.joint? = some (.label m) →
      endifOf? l = some m → ObservesStack (i :: rest)

/-- Every adjustment that a body makes is needed where it stands. -/
def AdjustsOnDemand (code : Code) : Prop :=
  ∀ i rest k, i :: rest <:+ code → i.stackAdjustment? = some k → k ≠ 0 ∧ ObservesStack rest

namespace AdjustsOnDemand

variable {code : Code} {i : Instr}

theorem nil : AdjustsOnDemand [] := by
  intro i rest k h
  cases suffix_nil.mp h

theorem cons (hi : ∀ k, i.stackAdjustment? = some k → k ≠ 0 ∧ ObservesStack code)
    (h : AdjustsOnDemand code) : AdjustsOnDemand (i :: code) := by
  intro j rest k hs hk
  rcases suffix_cons_iff.mp hs with heq | hs
  · cases heq
    exact hi k hk
  · exact h j rest k hs hk

theorem cons_none (hi : i.stackAdjustment? = none) (h : AdjustsOnDemand code) :
    AdjustsOnDemand (i :: code) :=
  h.cons fun k hk => by cases hi.symm.trans hk

theorem settle (h : AdjustsOnDemand code) (ho : ObservesStack code) (p : Word) :
    AdjustsOnDemand (settleStack p ++ code) := by
  unfold settleStack
  split
  · exact h
  · next hp =>
    refine h.cons fun k hk => ?_
    cases hk
    exact ⟨hp, ho⟩

end AdjustsOnDemand

theorem Instr.stackAdjustment?_of_joint {i : Instr} {l : String} (h : i.joint? = some (.label l)) :
    i.stackAdjustment? = none := by
  refine stackAdjustment?_eq_none ?_
  rw [show i.op = .label from of_decide_eq_true (joint?_eq_label h).1]
  nofun

theorem stackAdjustment?_of_settles {i : Instr} (h : i.op.isBranch = true ∨ i.op.seesStack = true) :
    i.stackAdjustment? = none ∧ i.stackOffset? = none := by
  have hop : i.op ≠ .addi ∧ i.op.addressing? = none := by
    rcases h with hb | hs
    · exact Opcode.addressing?_of_isBranch hb
    · obtain ⟨hop, haddr, -⟩ := Opcode.addressing?_of_seesStack hs
      exact ⟨hop, haddr⟩
  exact ⟨Instr.stackAdjustment?_eq_none hop.1, Instr.stackOffset?_eq_none hop.2⟩

namespace Coalesces

variable {behind : List String} {p : Word} {part out : Code}

theorem adjustsOnDemand (h : Coalesces behind p part out) {tail : Code}
    (hbehind : labelNames tail = behind) (htail : AdjustsOnDemand tail) (ho : ObservesStack tail) :
    AdjustsOnDemand (out ++ tail) := by
  induction h generalizing tail with
  | done p => exact htail.settle ho p
  | adjust _ _ _ ih => exact ih hbehind htail ho
  | access hn hi' _ ih =>
    exact .cons_none (Instr.stackAdjustment?_of_stackOffset? (Instr.stackOffset?_displace hn hi'))
      (ih hbehind htail ho)
  | keep hk _ _ _ _ ih => exact .cons_none hk (ih hbehind htail ho)
  | @settle _ p i rest out hs hnone h ih =>
    have hlabels : labelNames (out ++ tail) = labelNames rest ++ labelNames tail := by
      rw [labelNames_append, h.labelNames_eq]
    subst hbehind
    rw [append_assoc]
    refine .settle (.cons_none (stackAdjustment?_of_settles hs).1 (ih rfl htail ho)) ?_ p
    rcases hs with hb | hs
    · exact .branch hb (by rwa [hlabels])
    · exact .transfer hs
  | @cond _ p i taken join l m first first' second second' rest rest' ha _ h₂ h₃ ih₁ ih₂ ih₃ =>
    subst hbehind
    obtain ⟨hb, -, hend⟩ := Instr.arms?_eq_some_iff.mp ha.arms
    obtain ⟨hop, -⟩ := Opcode.addressing?_of_isBranch hb
    have hrest : labelNames (rest' ++ tail) = labelNames rest ++ labelNames tail := by
      rw [labelNames_append, h₃.labelNames_eq]
    have hjoin := ha.labelNames_join hrest
    have htaken := ha.labelNames_taken h₂.labelNames_eq hrest
    simp only [cons_append, append_assoc]
    refine .cons_none (Instr.stackAdjustment?_eq_none hop) (ih₁ htaken ?_ (.taken ha.taken hend))
    refine .cons_none (Instr.stackAdjustment?_of_joint ha.taken) (ih₂ hjoin ?_ (.join ha.join hend))
    exact .cons_none (Instr.stackAdjustment?_of_joint ha.join) (ih₃ rfl htail ho)

theorem stackless_eq (h : Coalesces behind p part out) : stackless out = stackless part := by
  induction h with
  | done p => exact stackless_settleStack p
  | adjust hk _ _ ih => rw [stackless_cons_adjustment hk, ih]
  | access hn hi' _ ih =>
    rw [stackless_cons (Instr.stackAdjustment?_of_stackOffset? hn), stackless_cons
      (Instr.stackAdjustment?_of_stackOffset? (Instr.stackOffset?_displace hn hi')), ih,
      Instr.withoutOffset_displace hn hi']
  | keep hk _ _ _ _ ih => rw [stackless_cons hk, stackless_cons hk, ih]
  | settle hs _ _ ih =>
    obtain ⟨hk, -⟩ := stackAdjustment?_of_settles hs
    rw [stackless_append, stackless_settleStack, nil_append, stackless_cons hk,
      stackless_cons hk, ih]
  | cond ha _ _ _ ih₁ ih₂ ih₃ =>
    obtain ⟨hk, -⟩ := stackAdjustment?_of_settles (.inl (Instr.isBranch_of_arms? ha.arms))
    simp only [stackless_append, stackless_cons hk,
      stackless_cons (Instr.stackAdjustment?_of_joint ha.taken),
      stackless_cons (Instr.stackAdjustment?_of_joint ha.join), ih₁, ih₂, ih₃]

theorem settled {rest : Code} (h : Coalesces behind p part (settleStack p ++ rest)) :
    Coalesces behind 0 (settleStack p ++ part) (settleStack p ++ rest) := by
  by_cases hp : p = 0
  · subst hp
    exact h
  · simp only [settleStack, if_neg hp] at h ⊢
    exact .adjust (stackAdjustment?_moveStack p) (Word.zero_add? p) h

theorem again (h : Coalesces behind p part out) : Coalesces behind 0 out out := by
  induction h with
  | @done behind p =>
    have hempty : Coalesces behind p [] (settleStack p ++ []) := by
      rw [append_nil]
      exact .done p
    simpa only [append_nil] using hempty.settled
  | adjust _ _ _ ih => exact ih
  | access hn hi' _ ih =>
    exact .access (Instr.stackOffset?_displace hn hi') (Instr.displace_zero hi') ih
  | keep hk hn hb hs _ ih => exact .keep hk hn hb hs ih
  | settle hs hnone h ih =>
    rw [← h.labelNames_eq] at hnone
    exact settled (.settle hs hnone ih)
  | cond ha _ h₂ h₃ ih₁ ih₂ ih₃ =>
    rw [← h₃.labelNames_eq] at ha ih₁ ih₂
    rw [← h₂.labelNames_eq] at ha ih₁
    exact .cond ha ih₁ ih₂ ih₃

end Coalesces

/-- Coalescing reaches a normal form in one pass: a second pass leaves it as it is, only adjustments
and offsets are touched, and what adjustments are left are needed where they stand. -/
theorem coalesceStack_normal {code : Code} {c : Coalesced} (h : coalesceStack code = .ok c) :
    (∃ n, coalesceStack c.code = .ok ⟨c.code, n⟩) ∧ stackless c.code = stackless code ∧
      ∀ i rest k, i :: rest <:+ c.code → i.stackAdjustment? = some k → k ≠ 0 ∧ ObservesStack rest := by
  have hcoalesces : Coalesces [] 0 code c.code := coalesceStack_eq_ok_iff.mp ⟨c.absorbed, h⟩
  refine ⟨coalesceStack_eq_ok_iff.mpr hcoalesces.again, hcoalesces.stackless_eq, ?_⟩
  have hdemand := hcoalesces.adjustsOnDemand rfl .nil .atEnd
  rwa [append_nil] at hdemand

theorem coalesceStack_normal_loopWithFrame :
    coalesceStack loopWithFrame = .ok ⟨loopWithFrameCoalesced, 4⟩ ∧
      (∃ n, coalesceStack loopWithFrameCoalesced = .ok ⟨loopWithFrameCoalesced, n⟩) ∧
      stackless loopWithFrameCoalesced = stackless loopWithFrame ∧
      ∀ i rest k, i :: rest <:+ loopWithFrameCoalesced → i.stackAdjustment? = some k →
        k ≠ 0 ∧ ObservesStack rest :=
  ⟨coalesceStack_loopWithFrame, coalesceStack_normal coalesceStack_loopWithFrame⟩

end ClosureCodegen
