import ClosureCodegen.Calling.Site
import ClosureCodegen.Code.Effects
import ClosureCodegen.Proofs.Execution.Runs

/-!
# Running instructions

A machine has registers, named as operands name them, a memory of words and, for the spill traffic
of an allocated body, slots with names.  The integer register `x0` reads as zero.  Registers of both
classes hold words; operations on floats are not interpreted, and neither are the addresses of
labels nor what a callee does.  All of that is the `Environment` of a run.  A callee is one fixed
function of who it is, its arguments and the heap, that is the memory and the heap pointer.

An instruction is first *decoded*: what it computes, which registers it reads and which it writes.
Decoding looks at the operands themselves and knows nothing of the table of effects.  An instruction
without the operands its opcode needs has no meaning and is stuck.  A vector load writes the registers
of the lanes that its mask names; an idle lane does nothing, whatever register it names.

The control of a configuration is the part of the body in front of it.  Where a body has two
labels of one name, the later one is the target of jumps and branches.

A run shows which way its branches go, what it writes to memory, where it moves the heap pointer,
and which calls it makes with which arguments.
-/

namespace ClosureCodegen

namespace Word

def shiftLeft (a b : Word) : Word := a <<< (b.toNat % 32)

/-- A logical shift to the right, by the low five bits of a word. -/
def shiftRight (a b : Word) : Word := a >>> (b.toNat % 32)

end Word

/-! ## The environment of a run -/

/-- The memory, and how much of it is in use. -/
structure Heap where
  memory : Word → Word
  top : Word

/-- Whom a call transfers to. -/
inductive Callee where
  /-- A function, by its label. -/
  | function (label : String)
  /-- The code of a closure, by the address of the closure. -/
  | closure (address : Word)
  /-- Code, by its address. -/
  | code (address : Word)
  deriving DecidableEq

/-- What a run depends on besides the body and the state it starts in. -/
structure Environment where
  /-- The pattern of a float literal in a register. -/
  literal : Binary64 → Word
  literal_zero : literal .zero = 0
  /-- Where a label ends up. -/
  address : String → Word
  /-- The float operations on one operand. -/
  unary : Opcode → Word → Word
  /-- The float operations on two operands. -/
  binary : Opcode → Word → Word → Word
  /-- The float comparisons. -/
  compare : Opcode → Word → Word → Bool
  /-- What a callee returns, and what it leaves of the heap. -/
  call : Callee → List Word → Heap → Word × Heap
  /-- What arrives in each parameter. -/
  incoming : Nat → Word

/-- Something a run shows. -/
inductive Event where
  | branch (taken : Bool)
  | store (address value : Word)
  | heapTop (top : Word)
  | call (callee : Callee) (args : List Word)
  deriving DecidableEq

/-- How a run ends. -/
inductive Exit where
  /-- Behind the last instruction. -/
  | atEnd
  | returned (value : Option Word)
  | tailCall (callee : Callee) (args : List Word)
  /-- By a return to the address in the return-address register. -/
  | toCaller
  /-- By a jump to a label that the body does not have. -/
  | toLabel (label : String)
  | toAddress (address : Word)
  deriving DecidableEq

/-- Where control goes behind an instruction. -/
inductive Transfer where
  | next
  /-- To a label that the body must have. -/
  | branch (label : String)
  /-- To a label of this body or of another. -/
  | jump (label : String)
  | exit (exit : Exit)
  deriving DecidableEq

/-! ## Decoding -/

/-- What an instruction computes, its registers apart. -/
inductive Operation where
  | constant (w : Word)
  | literal (v : Binary64)
  | address (label : String)
  | unary (op : Opcode)
  | binary (op : Opcode)
  | immediate (op : Opcode) (w : Word)
  | load (offset : Word)
  | store (offset : Word)
  | loadAt (address : Word)
  | storeAt (address : Word)
  | vectorLoad (offset : Word) (mask : BitVec 8)
  | vectorStore (offset : Word) (mask : BitVec 8)
  | branch (op : Opcode) (label : String)
  | jump (label : String)
  /-- A call of a label, with arguments in machine registers only. -/
  | machineCall (label : String)
  /-- A call of an address; the result is dropped or kept. -/
  | indirectCall (offset : Word) (result : Bool)
  | indirectJump (offset : Word)
  | machineReturn
  | idle
  | slotStore (slot : String)
  | slotLoad (slot : String)
  | param
  | captured (offset : Word)
  /-- A call of a label, or of the closure that is read first. -/
  | call (label : Option String) (result : Bool)
  | tailCall (label : Option String)
  | returnValue
  | returnUnit

structure Decoded where
  operation : Operation
  reads : List Reg
  writes : List Reg

/-- The opcodes of one form of operands. -/
inductive Family where
  | constant | literal | address | unary | binary | immediate | load | store | loadAt | storeAt
  | vectorLoad | vectorStore | branch | jump | machineCall | indirect | machineReturn | idle
  | slotStore | slotLoad | param | captured | unusedParam | call | callResult | tailCall
  | returnValue | returnUnit
  deriving DecidableEq

/-- The form of operands of an opcode. -/
def Opcode.family : Opcode → Family
  | .li => .constant
  | .fli => .literal
  | .la => .address
  | .mv | .fmv | .fmvWX | .neg | .fneg | .fabs | .fsqrt | .fcvtSW | .fcvtWS => .unary
  | .addi | .slli | .srli => .immediate
  | .add | .sub | .sll | .srl | .fadd | .fsub | .fmul | .fdiv | .feq | .fle | .flt | .fsgnj
  | .fsgnjn | .fsgnjx => .binary
  | .lw | .flw => .load
  | .sw | .fsw => .store
  | .lwi | .flwi => .loadAt
  | .swi | .fswi => .storeAt
  | .vlw => .vectorLoad
  | .vsw => .vectorStore
  | .beq | .bge | .blt | .bfeq | .bfle | .bflt => .branch
  | .j => .jump
  | .jalr => .indirect
  | .call => .machineCall
  | .ret => .machineReturn
  | .nop | .label | .comment => .idle
  | .spillStore => .slotStore
  | .spillLoad => .slotLoad
  | .param => .param
  | .captured => .captured
  | .unusedParam => .unusedParam
  | .callDirect | .callClosure => .call
  | .callDirectResult | .callClosureResult => .callResult
  | .tailDirect | .tailClosure => .tailCall
  | .returnValue => .returnValue
  | .returnUnit => .returnUnit

/-- The register that reads as zero. -/
def zeroReg : Reg := .ofPhys .zero

def heapReg : Reg := .ofPhys .heapPointer

/-- The closure pointer as an operand. -/
def closureReg : Reg := .ofPhys .closure

namespace CallTarget

def label? : CallTarget → Option String
  | .direct l => some l
  | .closure _ => none

/-- The registers a call reads: that of its closure, if it has one, and those of its arguments. -/
def reads (t : CallTarget) (args : List Reg) : List Reg :=
  match t with
  | .direct _ => args
  | .closure r => r :: args

end CallTarget

/-- The registers that a vector load writes: the zero register stands for those of idle lanes. -/
def maskedLanes (mask : BitVec 8) (lanes : List Reg) : List Reg :=
  lanes.zipIdx.map fun (r, k) => if mask.getLsbD k then r else zeroReg

def Instr.decode? (i : Instr) : Option Decoded :=
  match i.op.family, i.operands with
  | .constant, [.reg d, .imm w] => some ⟨.constant w, [], [d]⟩
  | .literal, [.reg d, .fimm v] => some ⟨.literal v, [], [d]⟩
  | .address, [.reg d, .label l] => some ⟨.address l, [], [d]⟩
  | .unary, [.reg d, .reg s] => some ⟨.unary i.op, [s], [d]⟩
  | .binary, [.reg d, .reg s, .reg t] => some ⟨.binary i.op, [s, t], [d]⟩
  | .immediate, [.reg d, .reg s, .imm w] => some ⟨.immediate i.op w, [s], [d]⟩
  | .load, [.reg d, .reg b, .imm o] => some ⟨.load o, [b], [d]⟩
  | .store, [.reg b, .reg s, .imm o] => some ⟨.store o, [b, s], []⟩
  | .loadAt, [.reg d, .imm a] => some ⟨.loadAt a, [], [d]⟩
  | .storeAt, [.reg s, .imm a] => some ⟨.storeAt a, [s], []⟩
  | .vectorLoad, [.reg b, .reg p, .reg q, .reg r, .reg s, .imm o, .mask k] =>
    some ⟨.vectorLoad o k, [b], maskedLanes k [p, q, r, s]⟩
  | .vectorStore, [.reg b, .reg p, .reg q, .reg r, .reg s, .imm o, .mask k] =>
    some ⟨.vectorStore o k, [b, p, q, r, s], []⟩
  | .branch, [.reg s, .reg t, .label l] => some ⟨.branch i.op l, [s, t], []⟩
  | .jump, [.label l] => some ⟨.jump l, [], []⟩
  | .machineCall, [.label l] => some ⟨.machineCall l, [], []⟩
  | .indirect, [.reg s] => some ⟨.indirectCall 0 false, [s], []⟩
  | .indirect, [.reg d, .reg s, .imm o] =>
    some ⟨if d = zeroReg then .indirectJump o else .indirectCall o true, [s], [d]⟩
  | .machineReturn, [] => some ⟨.machineReturn, [], []⟩
  | .idle, _ => some ⟨.idle, [], []⟩
  | .slotStore, [.reg s, .label l] => some ⟨.slotStore l, [s], []⟩
  | .slotLoad, [.reg d, .label l] => some ⟨.slotLoad l, [], [d]⟩
  | .param, [.reg d] => some ⟨.param, [], [d]⟩
  | .captured, [.reg d, .imm o] => some ⟨.captured o, [], [d]⟩
  | .unusedParam, [.reg s] => some ⟨.idle, [s], []⟩
  | .call, os =>
    (CallSite.targetAndArgs? os).map fun (t, args) => ⟨.call t.label? false, t.reads args, []⟩
  | .callResult, .reg d :: os =>
    (CallSite.targetAndArgs? os).map fun (t, args) => ⟨.call t.label? true, t.reads args, [d]⟩
  | .tailCall, os =>
    (CallSite.targetAndArgs? os).map fun (t, args) => ⟨.tailCall t.label?, t.reads args, []⟩
  | .returnValue, [.reg s] => some ⟨.returnValue, [s], []⟩
  | .returnUnit, [] => some ⟨.returnUnit, [], []⟩
  | _, _ => none

/-! ## Performing operations -/

/-- What an operation sees of the machine besides the registers it reads. -/
structure Context where
  heap : Heap
  /-- The closure that the body was entered through. -/
  closure : Word
  slots : String → Word

/-- What an operation does. -/
structure Effects where
  /-- The values of the registers that are written. -/
  values : List Word
  heap : Heap
  slots : String → Word
  events : List Event
  transfer : Transfer

def Opcode.immediate? (op : Opcode) : Option (Word → Word → Word) :=
  match op with
  | .addi => some (· + ·)
  | .slli => some Word.shiftLeft
  | .srli => some Word.shiftRight
  | _ => none

namespace Environment

variable (env : Environment)

/-- The operation of an opcode with one source. -/
def unary? (op : Opcode) : Option (Word → Word) :=
  match op with
  | .mv | .fmv | .fmvWX => some id
  | .neg => some (- ·)
  | .fneg | .fabs | .fsqrt | .fcvtSW | .fcvtWS => some (env.unary op)
  | _ => none

/-- The operation of an opcode with two sources. -/
def binary? (op : Opcode) : Option (Word → Word → Word) :=
  match op with
  | .add => some (· + ·)
  | .sub => some (· - ·)
  | .sll => some Word.shiftLeft
  | .srl => some Word.shiftRight
  | .fadd | .fsub | .fmul | .fdiv | .feq | .fle | .flt | .fsgnj | .fsgnjn | .fsgnjx =>
    some (env.binary op)
  | _ => none

def test? (op : Opcode) : Option (Word → Word → Bool) :=
  match op with
  | .beq => some fun a b => a = b
  | .bge => some fun a b => b.sle a
  | .blt => some fun a b => a.slt b
  | .bfeq | .bfle | .bflt => some (env.compare op)
  | _ => none

end Environment

namespace Context

/-- Only registers are written. -/
def give (ctx : Context) (values : List Word) : Effects :=
  ⟨values, ctx.heap, ctx.slots, [], .next⟩

def leave (ctx : Context) (values : List Word) (t : Transfer) : Effects :=
  ⟨values, ctx.heap, ctx.slots, [], t⟩

/-- Words are written to memory one after another. -/
def write (ctx : Context) (writes : List (Word × Word)) : Effects :=
  { values := []
    heap := { ctx.heap with
      memory := writes.foldl (fun m (a, v) => fun b => if b = a then v else m b) ctx.heap.memory }
    slots := ctx.slots
    events := writes.map fun (a, v) => .store a v
    transfer := .next }

def invoke (ctx : Context) (env : Environment) (callee : Callee) (args : List Word)
    (result : Bool) : Effects :=
  let outcome := env.call callee args ctx.heap
  { values := if result then [outcome.1] else []
    heap := outcome.2
    slots := ctx.slots
    events := [.call callee args]
    transfer := .next }

end Context

/-- Whom a call transfers to, and its arguments, given the values it reads. -/
def calleeAndArgs? : Option String → List Word → Option (Callee × List Word)
  | some l, args => some (.function l, args)
  | none, p :: args => some (.closure p, args)
  | none, [] => none

def laneAddress (base offset : Word) (lane : Nat) : Word :=
  base + offset + Word.ofCount lane

/-- Performs an operation on the values that were read. The value that arrives in a parameter is
given as well. -/
def Operation.perform (env : Environment) (arriving : Word) (ctx : Context) :
    Operation → List Word → Option Effects
  | .constant w, [] => some (ctx.give [w])
  | .literal v, [] => some (ctx.give [env.literal v])
  | .address l, [] => some (ctx.give [env.address l])
  | .unary op, [a] => (env.unary? op).map fun f => ctx.give [f a]
  | .binary op, [a, b] => (env.binary? op).map fun f => ctx.give [f a b]
  | .immediate op w, [a] => op.immediate?.map fun f => ctx.give [f a w]
  | .load o, [a] => some (ctx.give [ctx.heap.memory (a + o)])
  | .store o, [a, v] => some (ctx.write [(a + o, v)])
  | .loadAt a, [] => some (ctx.give [ctx.heap.memory a])
  | .storeAt a, [v] => some (ctx.write [(a, v)])
  | .vectorLoad o k, [a] =>
    some (ctx.give ((List.range 4).map fun lane =>
      if k.getLsbD lane then ctx.heap.memory (laneAddress a o lane) else 0))
  | .vectorStore o k, a :: vs =>
    some (ctx.write ((vs.zipIdx.filter fun (_, lane) => k.getLsbD lane).map fun (v, lane) =>
      (laneAddress a o lane, v)))
  | .branch op l, [a, b] => (env.test? op).map fun f =>
    { ctx.give [] with
      events := [.branch (f a b)]
      transfer := if f a b then .branch l else .next }
  | .jump l, [] => some (ctx.leave [] (.jump l))
  | .machineCall l, [] => some (ctx.invoke env (.function l) [] false)
  | .indirectCall o result, [a] => some (ctx.invoke env (.code (a + o)) [] result)
  | .indirectJump o, [a] => some (ctx.leave [0] (.exit (.toAddress (a + o))))
  | .machineReturn, [] => some (ctx.leave [] (.exit .toCaller))
  | .idle, _ => some (ctx.give [])
  | .slotStore s, [v] =>
    some { ctx.give [] with slots := fun t => if t = s then v else ctx.slots t }
  | .slotLoad s, [] => some (ctx.give [ctx.slots s])
  | .param, [] => some (ctx.give [arriving])
  | .captured o, [] => some (ctx.give [ctx.heap.memory (ctx.closure + o)])
  | .call l result, vs => (calleeAndArgs? l vs).map fun (callee, args) =>
    ctx.invoke env callee args result
  | .tailCall l, vs => (calleeAndArgs? l vs).map fun (callee, args) =>
    ctx.leave [] (.exit (.tailCall callee args))
  | .returnValue, [v] => some (ctx.leave [] (.exit (.returned (some v))))
  | .returnUnit, [] => some (ctx.leave [] (.exit (.returned none)))
  | _, _ => none

/-! ## Machines -/

structure Machine where
  regs : Reg → Word
  memory : Word → Word
  slots : String → Word

namespace Machine

/-- What a register reads as. -/
def get (m : Machine) (r : Reg) : Word :=
  if r = zeroReg then 0 else m.regs r

/-- Writes a register. -/
def set (m : Machine) (r : Reg) (v : Word) : Machine :=
  { m with regs := fun q => if q = r then v else m.regs q }

/-- Writes registers one after another. -/
def setAll (m : Machine) (rs : List Reg) (vs : List Word) : Machine :=
  (rs.zip vs).foldl (fun m (r, v) => m.set r v) m

def heap (m : Machine) : Heap := ⟨m.memory, m.get heapReg⟩

/-- What operations see besides the registers they read. -/
def context (m : Machine) : Context := ⟨m.heap, m.get closureReg, m.slots⟩

/-- Takes over what an operation leaves of memory, heap pointer and slots. -/
def adopt (m : Machine) (e : Effects) : Machine :=
  { m.set heapReg e.heap.top with memory := e.heap.memory, slots := e.slots }

end Machine

/-- The state, the events and the transfer of control behind an instruction. -/
structure Execution where
  machine : Machine
  events : List Event
  transfer : Transfer

def Decoded.exec (env : Environment) (arriving : Word) (d : Decoded) (m : Machine) :
    Option Execution :=
  (d.operation.perform env arriving m.context (d.reads.map m.get)).map fun e =>
    let after := (m.adopt e).setAll d.writes e.values
    { machine := after
      events := e.events ++ if heapReg ∈ d.writes then [.heapTop (after.get heapReg)] else []
      transfer := e.transfer }

/-! ## Bodies -/

/-- The part of a body behind a label, the last one of its name. -/
def codeAfter? (l : String) : Code → Option Code
  | [] => none
  | i :: code =>
    match codeAfter? l code with
    | some rest => some rest
    | none => if i.isLabel && i.label? = some l then some code else none

/-- A configuration: the part of the body that is in front, and the state. -/
structure Config where
  rest : Code
  machine : Machine

/-- Whether an instruction takes an incoming value. -/
def Instr.isParam (i : Instr) : Bool := i.op = .param

/-- How many parameters of a body stand in front of a part of it. -/
def paramsBefore (code rest : Code) : Nat :=
  code.countP Instr.isParam - rest.countP Instr.isParam

/-- What an execution leads to in front of the rest of a body. -/
def Execution.continueIn (code rest : Code) (e : Execution) :
    Progress Config (Exit × Heap) Event :=
  match e.transfer with
  | .next => .next e.events ⟨rest, e.machine⟩
  | .branch l =>
    match codeAfter? l code with
    | some target => .next e.events ⟨target, e.machine⟩
    | none => .stuck
  | .jump l =>
    match codeAfter? l code with
    | some target => .next e.events ⟨target, e.machine⟩
    | none => .exit e.events (.toLabel l, e.machine.heap)
  | .exit x => .exit e.events (x, e.machine.heap)

def Instr.exec (env : Environment) (arriving : Word) (i : Instr) (m : Machine) : Option Execution :=
  i.decode?.bind fun d => d.exec env arriving m

def step (env : Environment) (code : Code) (c : Config) : Progress Config (Exit × Heap) Event :=
  match c.rest with
  | [] => .exit [] (.atEnd, c.machine.heap)
  | i :: rest =>
    match i.exec env (env.incoming (paramsBefore code (i :: rest))) c.machine with
    | none => .stuck
    | some e => e.continueIn code rest

/-! ## Examples -/

/-- An environment without calls or floats worth speaking of, where the parameters are numbered. -/
def plainEnvironment : Environment where
  literal _ := 0
  literal_zero := rfl
  address _ := 0
  unary _ _ := 0
  binary _ _ _ := 0
  compare _ _ _ := false
  call _ _ heap := (0, heap)
  incoming n := BitVec.ofNat 32 n

/-- A machine with the same word in all registers without a fixed role and in all slots. -/
def filledMachine (w : Word) : Machine where
  regs r := if r.isReserved then 0 else w
  memory _ := 0
  slots _ := w

end ClosureCodegen
