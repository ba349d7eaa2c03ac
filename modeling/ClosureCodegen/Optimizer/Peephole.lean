import ClosureCodegen.Code.Instr

/-!
# Peephole cleanup

Three rules look at one instruction and the next.  A move of a register to itself is emptied,
and so is a move that undoes the move in front of it.  The sum of a register and a constant is
folded into the offset of an access that follows and uses it as its base.  Afterwards additions of
zero to a register in place are dropped.  Registers are compared by name, so the rules apply
before and after allocation.

Additions to the stack pointer are left alone: they belong to stack-pointer coalescing.
-/

namespace ClosureCodegen

/-- A copy between registers of one class. -/
def Opcode.isMove : Opcode → Bool
  | .mv | .fmv => true
  | _ => false

/-- Whether two operand positions hold registers of one name. -/
def sameName (a : Instr) (k : Nat) (b : Instr) (m : Nat) : Bool :=
  match a.reg? k, b.reg? m with
  | some r, some s => r.name == s.name
  | _, _ => false

/-- The operand position of the base of a scalar access. -/
def Opcode.base? : Opcode → Option Nat
  | .lw | .flw => some 1
  | .sw | .fsw => some 0
  | _ => none

/-- Whether a move copies a register to itself. -/
def Instr.isSelfMove (i : Instr) : Bool :=
  i.op.isMove && sameName i 0 i 1

/-- Whether the second of two adjacent moves copies back what the first copied. -/
def undoes (first second : Instr) : Bool :=
  first.op.isMove && second.op = first.op && sameName first 0 second 1 && sameName first 1 second 0

/-- An access behind the sum of a register and a constant, with the sum folded into its offset if
it is based on it. -/
def foldOffset (sum access : Instr) : Instr :=
  match sum.reg? 0, sum.reg? 1, sum.imm? 2, access.op.base? with
  | some d, some s, some k, some base =>
    if d.names .stackPointer || s.names .stackPointer || d.name == s.name then access
    else
      match access.reg? base, access.imm? 2 with
      | some b, some offset =>
        if b.name == d.name then (access.setOperand base s).setOperand 2 (offset + k) else access
      | _, _ => access
  | _, _, _, _ => access

/-- Cleans up each instruction together with the one that follows it, from the front. -/
def peepholePairs : Code → Code
  | [] => []
  | [i] => [if i.isSelfMove then .nop else i]
  | i :: next :: code =>
    if i.isSelfMove then .nop :: peepholePairs (next :: code)
    else if undoes i next then i :: peepholePairs (.nop :: code)
    else if i.op = .addi then i :: peepholePairs (foldOffset i next :: code)
    else i :: peepholePairs (next :: code)
termination_by code => code.length

def Instr.addsNothing (i : Instr) : Bool :=
  i.op = .addi && sameName i 0 i 1 && i.imm? 2 = some 0

/-- One pass of peephole cleanup. Emptied instructions stay as such. -/
def peephole (code : Code) : Code :=
  (peepholePairs code).filter fun i => !i.addsNothing

end ClosureCodegen
