import ClosureCodegen.Optimizer.Peephole
import ClosureCodegen.Optimizer.StackPointer
import ClosureCodegen.Proofs.Execution.StraightLine

/-!
# Tidy machine code

The optimizer trusts the code it works on.  It takes for granted that each instruction has the
operands of its opcode, that nothing but an indirect jump or an idle lane names the register `x0` as
a destination, and that the stack pointer is moved by constants and otherwise only addresses memory.
Such instructions are *tidy*.  Expansion emits nothing else, and every pass keeps it so.

A body `Simplifies` to another if stretches of straight code were replaced, one after another, by
code of the same effect.  Most passes are of this kind: they are reduced here to what they do
to one stretch.
-/

namespace ClosureCodegen
open List

/-! ## Operands by opcode -/

/-- The operands that instructions of a form have, for the forms that passes look into. -/
def Family.Fits : Family → List Operand → Prop
  | .unary, os => ∃ d s : Reg, os = [.reg d, .reg s]
  | .immediate, os => ∃ (d s : Reg) (w : Word), os = [.reg d, .reg s, .imm w]
  | .load, os => ∃ (d b : Reg) (o : Word), os = [.reg d, .reg b, .imm o]
  | .store, os => ∃ (b s : Reg) (o : Word), os = [.reg b, .reg s, .imm o]
  | .vectorLoad, os => ∃ (b p q r s : Reg) (o : Word) (k : BitVec 8),
    os = [.reg b, .reg p, .reg q, .reg r, .reg s, .imm o, .mask k]
  | .vectorStore, os => ∃ (b p q r s : Reg) (o : Word) (k : BitVec 8),
    os = [.reg b, .reg p, .reg q, .reg r, .reg s, .imm o, .mask k]
  | .branch, os => ∃ (s t : Reg) (l : String), os = [.reg s, .reg t, .label l]
  | .jump, os => ∃ l : String, os = [.label l]
  | _, _ => True

theorem Opcode.family_of_isBranch {op : Opcode} (h : op.isBranch = true) : op.family = .branch := by
  cases op <;> first | rfl | cases h

namespace Instr

variable {i : Instr}

theorem fits_of_decodes (hs : i.decode?.isSome = true) : i.op.family.Fits i.operands := by
  obtain ⟨d, hd⟩ := Option.isSome_iff_exists.mp hs
  obtain ⟨op, os⟩ := i
  have hdec : Decodes op op.family os d := decodes_of_decode? hd
  simp only
  generalize op.family = form at hdec
  cases hdec <;> simp [Family.Fits]

/-! ## Effects by opcode -/

variable {env : Environment} {h : Hart} {op : Opcode}

theorem effect_move (hop : op.isMove = true) (d s : Reg) :
    (⟨op, [.reg d, .reg s]⟩ : Instr).effect env h = h.set d (h.get s) := by
  cases op <;> first | rfl | cases hop

theorem effect_addi (d s : Reg) (w : Word) :
    (⟨.addi, [.reg d, .reg s, .imm w]⟩ : Instr).effect env h = h.set d (h.get s + w) := rfl

theorem effect_load (hop : op.family = .load) (d b : Reg) (o : Word) :
    (⟨op, [.reg d, .reg b, .imm o]⟩ : Instr).effect env h = h.set d (h.memory (h.get b + o)) := by
  cases op <;> first | rfl | cases hop

theorem effect_store (hop : op.family = .store) (b s : Reg) (o : Word) :
    (⟨op, [.reg b, .reg s, .imm o]⟩ : Instr).effect env h = h.write (h.get b + o) (h.get s) := by
  cases op <;> first | rfl | cases hop

theorem exists_test (hb : op.isBranch = true) (env : Environment) :
    ∃ test : Word → Word → Bool, ∀ (r s : Reg) (l : String) (h : Hart),
      (⟨op, [.reg r, .reg s, .label l]⟩ : Instr).run env h =
        some (h, if test (h.get r) (h.get s) then .branch l else .next) := by
  have hf := Opcode.family_of_isBranch hb
  obtain ⟨test, htest⟩ := env.test?_isSome hf
  refine ⟨test, fun r s l h => ?_⟩
  have hdec : (⟨op, [.reg r, .reg s, .label l]⟩ : Instr).decode? = some ⟨.branch op l, [r, s], []⟩ :=
    decode?_of_decodes (by dsimp only at hf ⊢; rw [hf]; exact .branch r s l)
  rw [run, hdec]
  simp only [Option.bind_some, Operation.isNative, if_true, map_cons, map_nil,
    Operation.perform, htest, Option.map_some]
  rfl

/-! ## Tidy instructions -/

/-- The registers of an instruction besides the base of an access. -/
def otherRegs (i : Instr) : List Reg :=
  match i.op.addressing? with
  | some (base, _) => i.regs.eraseIdx base
  | none => i.regs

/-- A machine instruction of the kind that expansion emits. -/
structure IsTidy (i : Instr) : Prop where
  decodes : i.decode?.isSome = true
  named : i.isLabel = true → i.label?.isSome = true
  isMachine : i.op.isPseudo = false
  zero : ∀ d ∈ i.defs, d.names .zero = true → i.op = .vlw ∨ i.op = .jalr
  stack : i.stackAdjustment?.isSome = true ∨ ∀ r ∈ i.otherRegs, r.names .stackPointer = false
  lanes : ∀ k, .mask k ∈ i.operands → k.toNat < 16

namespace IsTidy

theorem isStraight (hi : i.IsTidy) (hf : i.op.family.isStraight = true) (hl : i.op ≠ .label) :
    i.IsStraight :=
  ⟨hi.decodes, hf, decide_eq_false hl⟩

theorem nop : Instr.nop.IsTidy where
  decodes := rfl
  named := nofun
  isMachine := rfl
  zero _ hd := absurd hd not_mem_nil
  stack := .inr fun _ hr => absurd hr not_mem_nil
  lanes _ hk := absurd hk not_mem_nil

theorem label?_of_isBranch (hi : i.IsTidy) (hb : i.op.isBranch = true) :
    ∃ l, i.label? = some l := by
  have hfit := fits_of_decodes hi.decodes
  rw [Opcode.family_of_isBranch hb] at hfit
  obtain ⟨r, s, l, ho⟩ := hfit
  exact ⟨l, by rw [label?, ho]; rfl⟩

end IsTidy

theorem isTidy_load (hf : op.family = .load) {d b : Reg} {o : Word} :
    (⟨op, [.reg d, .reg b, .imm o]⟩ : Instr).IsTidy ↔
      d.names .zero = false ∧ d.names .stackPointer = false := by
  constructor
  · intro hi
    refine ⟨Bool.eq_false_iff.mpr fun hz => ?_, ?_⟩
    · have hd : d ∈ (⟨op, [.reg d, .reg b, .imm o]⟩ : Instr).defs := by
        rw [defs, Opcode.effect_eq, hf]
        exact mem_cons_self
      rcases hi.zero d hd hz with h | h <;> rw [show op = _ from h] at hf <;> cases hf
    · rcases hi.stack with h | h
      · cases op <;> cases hf <;> cases h
      · refine h d ?_
        cases op <;> cases hf <;> exact mem_cons_self
  · rintro ⟨hz, hsp⟩
    cases op <;> cases hf <;>
      exact ⟨rfl, by rintro ⟨⟩, rfl, by simp [defs, Opcode.effect, regs, hz],
        .inr (by simp [otherRegs, Opcode.addressing?, regs, hsp]), by simp⟩

theorem isTidy_store (hf : op.family = .store) {b s : Reg} {o : Word} :
    (⟨op, [.reg b, .reg s, .imm o]⟩ : Instr).IsTidy ↔ s.names .stackPointer = false := by
  constructor
  · intro hi
    rcases hi.stack with h | h
    · cases op <;> cases hf <;> cases h
    · refine h s ?_
      cases op <;> cases hf <;> exact mem_cons_self
  · intro hsp
    cases op <;> cases hf <;>
      exact ⟨rfl, by rintro ⟨⟩, rfl, by simp [defs, Opcode.effect],
        .inr (by simp [otherRegs, Opcode.addressing?, regs, hsp]), by simp⟩

end Instr

/-! ## Simplification -/

/-- Stretches of straight code are replaced, one after another, by code of the same effect whose
instructions are of some kind. -/
inductive Simplifies (P : Instr → Prop) : Code → Code → Prop where
  | refl (code : Code) : Simplifies P code code
  | step {a a' code : Code} (pre post : Code) : SameEffect a a' → (∀ i ∈ a', P i) →
    Simplifies P (pre ++ (a' ++ post)) code → Simplifies P (pre ++ (a ++ post)) code

namespace Simplifies

variable {P : Instr → Prop} {code code' code'' : Code}

theorem trans (h : Simplifies P code code') (h' : Simplifies P code' code'') :
    Simplifies P code code'' := by
  induction h with
  | refl => exact h'
  | step pre post hs ht _ ih => exact .step pre post hs ht (ih h')

theorem front {a a' : Code} (hs : SameEffect a a') (ht : ∀ i ∈ a', P i) (post : Code) :
    Simplifies P (a ++ post) (a' ++ post) :=
  .step [] post hs ht (.refl _)

theorem append_left (pre : Code) (h : Simplifies P code code') :
    Simplifies P (pre ++ code) (pre ++ code') := by
  induction h with
  | refl => exact .refl _
  | step p post hs ht _ ih =>
    rw [← append_assoc] at ih ⊢
    exact .step (pre ++ p) post hs ht ih

theorem cons (i : Instr) (h : Simplifies P code code') : Simplifies P (i :: code) (i :: code') :=
  h.append_left [i]

theorem forall_mem (h : Simplifies P code code') (hcode : ∀ i ∈ code, P i) : ∀ i ∈ code', P i := by
  induction h with
  | refl => exact hcode
  | step pre post hs ht _ ih =>
    refine ih fun i hi => ?_
    simp only [mem_append] at hi hcode
    rcases hi with hi | hi | hi
    · exact hcode i (.inl hi)
    · exact ht i hi
    · exact hcode i (.inr (.inr hi))

/-- Simplified code behaves as before, on every machine that performs straight instructions. -/
theorem runAlike {E : Type} {env : Environment}
    {machine : Code → HartConfig → Progress HartConfig (Exit × Hart) E}
    (hs : Simplifies P code code') (hm : IsLinear env machine) : RunAlike machine code code' := by
  induction hs with
  | refl => exact .refl _
  | step pre post hs _ _ ih => exact ((Rewrites.stretch pre post hs).runAlike hm).trans ih

theorem behavesLike (hs : Simplifies P code code') (env : HartEnvironment) (h : Hart) (n : Nat) :
    BehavesLike (hartStep env code) ⟨code, h, n⟩ (hartStep env code') ⟨code', h, n⟩ :=
  (hs.runAlike (isLinear_hartStep env)).start h n

end Simplifies
end ClosureCodegen
