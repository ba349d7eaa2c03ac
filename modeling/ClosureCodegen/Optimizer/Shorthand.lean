import ClosureCodegen.Code.Instr

/-!
# Assembler shorthands

Negation and accesses at absolute addresses are shorthands for plain instructions that involve the
zero register.  They are written out before the optimizer starts, so that its passes see one form
of each instruction.  Empty instructions are dropped.
-/

namespace ClosureCodegen

/-- Takes out instructions that do nothing. -/
def deleteNops (code : Code) : Code :=
  code.filter fun i => i.op ≠ .nop

/-- The plain instruction a shorthand stands for, and any other instruction itself. -/
def Instr.plain (i : Instr) : Instr :=
  let zero := Reg.ofPhys .zero
  match i.op, i.reg? 0, i.reg? 1, i.imm? 1 with
  | .neg, some d, some s, _ => .binary .sub d zero s
  | .lwi, some d, _, some address | .flwi, some d, _, some address => .load d zero address
  | .swi, some s, _, some address | .fswi, some s, _, some address => .store zero s address
  | _, _, _, _ => i

/-- Writes out all shorthands and drops empty instructions. -/
def expandShorthands (code : Code) : Code :=
  (deleteNops code).map Instr.plain

end ClosureCodegen
