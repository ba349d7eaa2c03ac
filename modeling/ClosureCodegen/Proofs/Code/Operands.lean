import ClosureCodegen.Code.Effects

/-!
# Operands under renaming

Renaming all registers of an instruction, or only those it uses, changes what it defines and uses as
one would expect, and nothing else about it.
-/

namespace ClosureCodegen
open List

namespace Operand

theorem filterMap_reg?_mapReg (f : Reg → Reg) (os : List Operand) :
    (os.map (mapReg f)).filterMap reg? = (os.filterMap reg?).map f := by
  rw [filterMap_map, map_filterMap]
  congr 1
  funext o
  cases o <;> rfl

theorem label?_mapReg (f : Reg → Reg) (o : Operand) : (o.mapReg f).label? = o.label? := by
  cases o <;> rfl

theorem findSome?_label?_mapReg (f : Reg → Reg) (os : List Operand) :
    (os.map (mapReg f)).findSome? label? = os.findSome? label? := by
  induction os with
  | nil => rfl
  | cons o os ih => rw [map_cons, findSome?_cons, findSome?_cons, label?_mapReg, ih]

end Operand

namespace Instr

variable (f : Reg → Reg)

/-! ## Single operands -/

theorem filterMap_reg?_mapLaterRegs (os : List Operand) :
    (mapLaterRegs f os).filterMap Operand.reg? =
      (os.filterMap Operand.reg?).take 1 ++ ((os.filterMap Operand.reg?).drop 1).map f := by
  induction os with
  | nil => rfl
  | cons o os ih =>
    cases o with
    | reg r =>
      rw [mapLaterRegs, filterMap_cons_some (by rfl), filterMap_cons_some (by rfl),
        Operand.filterMap_reg?_mapReg]
      rfl
    | imm w | fimm w | label w | mask w => exact ih

theorem filterMap_reg?_mapFirstReg (os : List Operand) :
    (mapFirstReg f os).filterMap Operand.reg? =
      ((os.filterMap Operand.reg?).take 1).map f ++ (os.filterMap Operand.reg?).drop 1 := by
  induction os with
  | nil => rfl
  | cons o os ih =>
    cases o with
    | reg r => rfl
    | imm w | fimm w | label w | mask w => exact ih

theorem findSome?_label?_mapLaterRegs (os : List Operand) :
    (mapLaterRegs f os).findSome? Operand.label? = os.findSome? Operand.label? := by
  induction os with
  | nil => rfl
  | cons o os ih =>
    cases o with
    | reg r => exact Operand.findSome?_label?_mapReg f os
    | label l => rfl
    | imm w | fimm w | mask w => exact ih

theorem findSome?_label?_mapFirstReg (os : List Operand) :
    (mapFirstReg f os).findSome? Operand.label? = os.findSome? Operand.label? := by
  induction os with
  | nil => rfl
  | cons o os ih =>
    cases o with
    | reg r | label l => rfl
    | imm w | fimm w | mask w => exact ih

theorem length_mapLaterRegs (os : List Operand) : (mapLaterRegs f os).length = os.length := by
  induction os with
  | nil => rfl
  | cons o os ih =>
    cases o with
    | reg r => exact congrArg (· + 1) (length_map _)
    | imm w | fimm w | label w | mask w => exact congrArg (· + 1) ih

theorem length_mapFirstReg (os : List Operand) : (mapFirstReg f os).length = os.length := by
  induction os with
  | nil => rfl
  | cons o os ih =>
    cases o with
    | reg r => rfl
    | imm w | fimm w | label w | mask w => exact congrArg (· + 1) ih

/-! ## Definitions and uses -/

variable (i : Instr)

theorem regs_mapRegs : (i.mapRegs f).regs = i.regs.map f := Operand.filterMap_reg?_mapReg f _

theorem defs_mapRegs : (i.mapRegs f).defs = i.defs.map f := by
  have hlen : (i.mapRegs f).operands.length = i.operands.length := length_map _
  simp only [defs, regs_mapRegs, hlen, show (i.mapRegs f).op = i.op from rfl]
  split <;> (try split) <;> simp

theorem op_mapUses : (i.mapUses f).op = i.op := by
  unfold mapUses
  split
  case h_5 => split <;> rfl
  all_goals rfl

theorem length_operands_mapUses : (i.mapUses f).operands.length = i.operands.length := by
  unfold mapUses
  split
  case h_5 =>
    split
    · exact length_mapLaterRegs f _
    · exact length_map _
  case h_1 => exact length_mapLaterRegs f _
  case h_3 => exact length_map _
  case h_4 => exact length_mapFirstReg f _
  all_goals rfl

theorem regs_mapUses : (i.mapUses f).regs =
    match i.op.effect with
    | .defineFirst => i.regs.take 1 ++ (i.regs.drop 1).map f
    | .defineAll | .none => i.regs
    | .useAll => i.regs.map f
    | .vectorLoad => (i.regs.take 1).map f ++ i.regs.drop 1
    | .indirectJump =>
      if i.operands.length = 3 then i.regs.take 1 ++ (i.regs.drop 1).map f else i.regs.map f := by
  cases h : i.op.effect with
  | defineFirst =>
    simp only [mapUses, h]
    exact filterMap_reg?_mapLaterRegs f _
  | useAll =>
    simp only [mapUses, h]
    exact regs_mapRegs f i
  | vectorLoad =>
    simp only [mapUses, h]
    exact filterMap_reg?_mapFirstReg f _
  | indirectJump =>
    simp only [mapUses, h]
    split
    · exact filterMap_reg?_mapLaterRegs f _
    · exact regs_mapRegs f i
  | defineAll | none => simp only [mapUses, h]

theorem defs_mapUses : (i.mapUses f).defs = i.defs := by
  rw [defs, defs, op_mapUses, length_operands_mapUses, regs_mapUses]
  cases i.op.effect with
  | indirectJump => by_cases h : i.operands.length = 3 <;> cases i.regs <;> simp [h]
  | _ => cases i.regs <;> simp

theorem uses_mapUses : (i.mapUses f).uses = i.uses.map f := by
  rw [uses, uses, op_mapUses, length_operands_mapUses, regs_mapUses]
  cases i.op.effect with
  | indirectJump => by_cases h : i.operands.length = 3 <;> cases i.regs <;> simp [h]
  | _ => cases i.regs <;> simp

theorem mem_regs_mapUses {f : Reg → Reg} {i : Instr} {r : Reg} (h : r ∈ (i.mapUses f).regs) :
    r ∈ i.regs ∨ ∃ q ∈ i.regs, f q = r := by
  rw [regs_mapUses] at h
  have hfirst : r ∈ i.regs.take 1 ++ (i.regs.drop 1).map f → r ∈ i.regs ∨ ∃ q ∈ i.regs, f q = r := by
    intro hr
    rw [mem_append, mem_map] at hr
    exact hr.imp mem_of_mem_take fun ⟨q, hq, he⟩ => ⟨q, mem_of_mem_drop hq, he⟩
  have hall : r ∈ i.regs.map f → r ∈ i.regs ∨ ∃ q ∈ i.regs, f q = r :=
    fun hr => .inr (mem_map.mp hr)
  split at h
  · exact hfirst h
  · exact .inl h
  · exact .inl h
  · exact hall h
  · rw [mem_append, mem_map] at h
    exact h.symm.imp mem_of_mem_drop fun ⟨q, hq, he⟩ => ⟨q, mem_of_mem_take hq, he⟩
  · split at h
    · exact hfirst h
    · exact hall h

theorem label?_mapUses : (i.mapUses f).label? = i.label? := by
  unfold mapUses
  split
  case h_5 =>
    split
    · exact findSome?_label?_mapLaterRegs f _
    · exact Operand.findSome?_label?_mapReg f _
  case h_1 => exact findSome?_label?_mapLaterRegs f _
  case h_3 => exact Operand.findSome?_label?_mapReg f _
  case h_4 => exact findSome?_label?_mapFirstReg f _
  all_goals rfl

end Instr
end ClosureCodegen
