import ClosureCodegen.Code.Instr

/-!
# Definitions and uses

The effect of its opcode splits the register operands of an instruction into those it defines and
those it uses.  Registers with a fixed role are part of both lists; the *tracked* definitions and
uses leave them out, and are what liveness and allocation see.
-/

namespace ClosureCodegen
namespace Instr

/-- The registers an instruction defines, in operand order. -/
def defs (i : Instr) : List Reg :=
  match i.op.effect with
  | .defineFirst => i.regs.take 1
  | .defineAll => i.regs
  | .useAll => []
  | .vectorLoad => i.regs.drop 1
  | .indirectJump => if i.operands.length = 3 then i.regs.take 1 else []
  | .none => []

/-- The registers that an instruction reads. -/
def uses (i : Instr) : List Reg :=
  match i.op.effect with
  | .defineFirst => i.regs.drop 1
  | .defineAll => []
  | .useAll => i.regs
  | .vectorLoad => i.regs.take 1
  | .indirectJump => if i.operands.length = 3 then i.regs.drop 1 else i.regs
  | .none => []

def trackedDefs (i : Instr) : List Reg :=
  i.defs.filter fun r => !r.isReserved

def trackedUses (i : Instr) : List Reg :=
  i.uses.filter fun r => !r.isReserved

/-! ## Renaming what is read -/

def mapFirstReg (f : Reg → Reg) : List Operand → List Operand
  | [] => []
  | .reg r :: os => .reg (f r) :: os
  | o :: os => o :: mapFirstReg f os

def mapLaterRegs (f : Reg → Reg) : List Operand → List Operand
  | [] => []
  | .reg r :: os => .reg r :: os.map (Operand.mapReg f)
  | o :: os => o :: mapLaterRegs f os

/-- Applies a function to every register that an instruction uses, and not to those it defines. -/
def mapUses (f : Reg → Reg) (i : Instr) : Instr :=
  match i.op.effect with
  | .defineFirst => { i with operands := mapLaterRegs f i.operands }
  | .defineAll => i
  | .useAll => i.mapRegs f
  | .vectorLoad => { i with operands := mapFirstReg f i.operands }
  | .indirectJump =>
    if i.operands.length = 3 then { i with operands := mapLaterRegs f i.operands } else i.mapRegs f
  | .none => i

end Instr
end ClosureCodegen
