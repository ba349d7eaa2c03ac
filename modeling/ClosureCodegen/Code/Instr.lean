import ClosureCodegen.Code.Opcode
import ClosureCodegen.Machine.Register
import ClosureCodegen.Machine.Word
import ClosureCodegen.Numeral.Binary64

/-!
# Instructions

An instruction is an opcode with a list of operands.  A register operand names a variable before
allocation and a physical register after it; the name and the class together identify it.

Nothing here forces an opcode to come with the operands it is meant for.  Passes look an operand
up at the position where they expect it and leave the instruction alone if it is not there, so
they are total on every list of instructions, also one that was put together by hand.
-/

namespace ClosureCodegen

/-- A register operand: a variable or a physical register, by name. -/
structure Reg where
  name : String
  cls : RegClass
  deriving DecidableEq, Repr

namespace Reg

abbrev int (name : String) : Reg := ⟨name, .int⟩

abbrev float (name : String) : Reg := ⟨name, .float⟩

def ofPhys (r : PhysReg) : Reg := ⟨r.name, r.cls⟩

/-- Whether the register has a fixed role. -/
def isReserved (r : Reg) : Bool := isReservedName r.name

def names (r : Reg) (p : PhysReg) : Bool := r.name == p.name

def phys? (r : Reg) : Option PhysReg := PhysReg.ofName? r.name

end Reg

/-- An operand of an instruction. -/
inductive Operand where
  | reg (r : Reg)
  | imm (w : Word)
  | fimm (v : Binary64)
  | label (name : String)
  /-- The lanes a vector access touches: bit `k` stands for lane `k`. -/
  | mask (m : BitVec 8)
  deriving DecidableEq, Repr

namespace Operand

def reg? : Operand → Option Reg
  | .reg r => some r
  | _ => none

def imm? : Operand → Option Word
  | .imm w => some w
  | _ => none

def label? : Operand → Option String
  | .label l => some l
  | _ => none

def mapReg (f : Reg → Reg) : Operand → Operand
  | .reg r => .reg (f r)
  | o => o

instance : Coe Reg Operand := ⟨.reg⟩
instance : Coe Word Operand := ⟨.imm⟩

end Operand

/-- An opcode with its operands. -/
structure Instr where
  op : Opcode
  operands : List Operand
  deriving DecidableEq, Repr

namespace Instr

/-! ## Operands by position and kind -/

def reg? (i : Instr) (k : Nat) : Option Reg :=
  i.operands[k]?.bind Operand.reg?

def imm? (i : Instr) (k : Nat) : Option Word :=
  i.operands[k]?.bind Operand.imm?

def labelAt? (i : Instr) (k : Nat) : Option String :=
  i.operands[k]?.bind Operand.label?

/-- The first label operand: the target of a jump, branch or call, or the name of a label. -/
def label? (i : Instr) : Option String :=
  i.operands.findSome? Operand.label?

def regs (i : Instr) : List Reg :=
  i.operands.filterMap Operand.reg?

def regNames (i : Instr) (k : Nat) (p : PhysReg) : Bool :=
  (i.reg? k).any fun r => r.names p

def isLabel (i : Instr) : Bool :=
  i.op = .label

/-! ## Changing operands -/

def setOperand (i : Instr) (k : Nat) (o : Operand) : Instr :=
  { i with operands := i.operands.set k o }

def mapRegs (f : Reg → Reg) (i : Instr) : Instr :=
  { i with operands := i.operands.map (Operand.mapReg f) }

def setFirstLabel (target : String) : List Operand → List Operand
  | [] => []
  | .label _ :: os => .label target :: os
  | o :: os => o :: setFirstLabel target os

def setLabel (i : Instr) (target : String) : Instr :=
  { i with operands := setFirstLabel target i.operands }

/-! ## Forms -/

/-- Marks a place in the list that jumps and branches can name. -/
def labelled (name : String) : Instr := ⟨.label, [.label name]⟩

def nop : Instr := ⟨.nop, []⟩

def unary (op : Opcode) (d s : Reg) : Instr := ⟨op, [d, s]⟩

def binary (op : Opcode) (d s t : Reg) : Instr := ⟨op, [d, s, t]⟩

def immediate (op : Opcode) (d s : Reg) (w : Word) : Instr := ⟨op, [d, s, w]⟩

def li (d : Reg) (w : Word) : Instr := ⟨.li, [d, w]⟩

def la (d : Reg) (name : String) : Instr := ⟨.la, [d, .label name]⟩

def load (d base : Reg) (offset : Word) : Instr :=
  ⟨match d.cls with | .int => .lw | .float => .flw, [d, base, offset]⟩

def store (base s : Reg) (offset : Word) : Instr :=
  ⟨match s.cls with | .int => .sw | .float => .fsw, [base, s, offset]⟩

def move (d s : Reg) : Instr :=
  unary (match d.cls with | .int => .mv | .float => .fmv) d s

/-- Transfers to a label if a comparison of two registers holds. -/
def branch (op : Opcode) (s t : Reg) (target : String) : Instr := ⟨op, [s, t, .label target]⟩

def jump (target : String) : Instr := ⟨.j, [.label target]⟩

def moveStack (delta : Word) : Instr :=
  immediate .addi (.ofPhys .stackPointer) (.ofPhys .stackPointer) delta

end Instr

/-- The instructions of a body. -/
abbrev Code := List Instr

end ClosureCodegen
