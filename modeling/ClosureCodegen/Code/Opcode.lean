/-!
# Opcodes

One opcode type serves every stage from lowering to the final listing.  Besides the machine's own
instructions it has labels, comments, and the *pseudo-operations*: spill traffic, parameter markers,
calls and returns, all of which calling-convention expansion replaces by machine code.  The table
below gives each opcode its mnemonic and its `Effect`, which says how register operands split into
definitions and uses.
-/

namespace ClosureCodegen

/-- What an instruction of the listing does. -/
inductive Opcode where
  | li | fli | la | mv | fmv | fmvWX | neg | fneg | fabs | fsqrt | fcvtSW | fcvtWS
  | addi | slli | srli | add | sub | sll | srl
  | fadd | fsub | fmul | fdiv | feq | fle | flt | fsgnj | fsgnjn | fsgnjx
  | lw | flw | sw | fsw | lwi | flwi | swi | fswi | vlw | vsw
  | beq | bge | blt | bfeq | bfle | bflt
  | j | jalr | call | ret | nop | label | comment
  /-- Writes a register to the slot of a spilled variable. -/
  | spillStore
  /-- Reads a register from the slot of a spilled variable. -/
  | spillLoad
  /-- Marks the register a parameter arrives in. -/
  | param
  /-- Reads a captured variable from the closure. -/
  | captured
  /-- Keeps the register of a parameter that is never read. -/
  | unusedParam
  | callDirect | callDirectResult | callClosure | callClosureResult
  | tailDirect | tailClosure | returnValue | returnUnit
  deriving DecidableEq, Repr

/-- How the register operands of an opcode split into definitions and uses. -/
inductive Effect where
  /-- Defines the first and uses the others. -/
  | defineFirst
  | defineAll
  | useAll
  /-- Uses the base and defines the lanes. -/
  | vectorLoad
  /-- With three operands like `defineFirst`, otherwise like `useAll`. -/
  | indirectJump
  | none
  deriving DecidableEq, Repr

namespace Opcode

/-- The name of an opcode in assembler text. No two opcodes share one. -/
def mnemonic : Opcode → String
  | li => "li"
  | fli => "fli"
  | la => "la"
  | mv => "mv"
  | fmv => "fmv"
  | fmvWX => "fmv.w.x"
  | neg => "neg"
  | fneg => "fneg"
  | fabs => "fabs"
  | fsqrt => "fsqrt"
  | fcvtSW => "fcvt.s.w"
  | fcvtWS => "fcvt.w.s"
  | addi => "addi"
  | slli => "slli"
  | srli => "srli"
  | add => "add"
  | sub => "sub"
  | sll => "sll"
  | srl => "srl"
  | fadd => "fadd"
  | fsub => "fsub"
  | fmul => "fmul"
  | fdiv => "fdiv"
  | feq => "feq"
  | fle => "fle"
  | flt => "flt"
  | fsgnj => "fsgnj"
  | fsgnjn => "fsgnjn"
  | fsgnjx => "fsgnjx"
  | lw => "lw"
  | flw => "flw"
  | sw => "sw"
  | fsw => "fsw"
  | lwi => "lwi"
  | flwi => "flwi"
  | swi => "swi"
  | fswi => "fswi"
  | vlw => "vlw"
  | vsw => "vsw"
  | beq => "beq"
  | bge => "bge"
  | blt => "blt"
  | bfeq => "bfeq"
  | bfle => "bfle"
  | bflt => "bflt"
  | j => "j"
  | jalr => "jalr"
  | call => "call"
  | ret => "ret"
  | nop => "nop"
  | label => "<label>"
  | comment => "#"
  | spillStore => "store"
  | spillLoad => "restore"
  | param => "* args"
  | captured => "* formal_fv"
  | unusedParam => "* not used args"
  | callDirect => "app_dir"
  | callDirectResult => "app_dir_ret"
  | callClosure => "app_cls"
  | callClosureResult => "app_cls_ret"
  | tailDirect => "tail_dir"
  | tailClosure => "tail_cls"
  | returnValue => "return"
  | returnUnit => "return_unit"

def all : List Opcode :=
  [li, fli, la, mv, fmv, fmvWX, neg, fneg, fabs, fsqrt, fcvtSW, fcvtWS, addi, slli, srli, add, sub,
   sll, srl, fadd, fsub, fmul, fdiv, feq, fle, flt, fsgnj, fsgnjn, fsgnjx, lw, flw, sw, fsw, lwi,
   flwi, swi, fswi, vlw, vsw, beq, bge, blt, bfeq, bfle, bflt, j, jalr, call, ret, nop, label,
   comment, spillStore, spillLoad, param, captured, unusedParam, callDirect, callDirectResult,
   callClosure, callClosureResult, tailDirect, tailClosure, returnValue, returnUnit]

def ofMnemonic? (s : String) : Option Opcode :=
  all.find? fun op => op.mnemonic == s

/-- How an opcode treats its register operands. -/
def effect : Opcode → Effect
  | li | fli | la | lwi | flwi | spillLoad | param | captured => .defineAll
  | mv | fmv | fmvWX | neg | fneg | fabs | fsqrt | fcvtSW | fcvtWS | addi | slli | srli | add | sub
  | sll | srl | fadd | fsub | fmul | fdiv | feq | fle | flt | fsgnj | fsgnjn | fsgnjx | lw | flw
  | callDirectResult | callClosureResult => .defineFirst
  | sw | fsw | swi | fswi | vsw | beq | bge | blt | bfeq | bfle | bflt | spillStore | unusedParam
  | callDirect | callClosure | tailDirect | tailClosure | returnValue => .useAll
  | vlw => .vectorLoad
  | jalr => .indirectJump
  | j | call | ret | nop | label | comment | returnUnit => .none

/-- Whether control may go on or transfer to a label, depending on two registers. -/
def isBranch : Opcode → Bool
  | beq | bge | blt | bfeq | bfle | bflt => true
  | _ => false

/-- Whether expansion replaces the opcode by machine code. -/
def isPseudo : Opcode → Bool
  | spillStore | spillLoad | param | captured | unusedParam | callDirect | callDirectResult
  | callClosure | callClosureResult | tailDirect | tailClosure | returnValue | returnUnit => true
  | _ => false

def isLoad : Opcode → Bool
  | lw | flw | vlw => true
  | _ => false

/-- A load of one word at a base register. -/
def isScalarLoad : Opcode → Bool
  | lw | flw => true
  | _ => false

/-- A call, in tail position or not, before expansion. -/
def isCall : Opcode → Bool
  | callDirect | callDirectResult | callClosure | callClosureResult | tailDirect | tailClosure =>
    true
  | _ => false

end Opcode
end ClosureCodegen
