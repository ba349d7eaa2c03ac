import ClosureCodegen.Code.Conditional
import ClosureCodegen.Lowering.Scope

/-!
# Lowering expressions to instructions

An expression is lowered together with the register that receives its value, or with none if
nobody needs the value.  A conditional becomes a branch, the arm that is not taken, a jump over
the other arm, and that arm between its labels.  Closures and tuples are laid out at the heap
pointer, which then moves up.  An array access computes its address by a shift and an addition,
for address folding to look at afterwards.

A record holds its integer fields first and its float fields behind them, each in the order in
which they are written down, and a closure has its code address in front.  Whoever builds a record
and whoever takes it apart lay it out by the same rule.
-/

namespace ClosureCodegen

def topLevelName : String := "main"

/-! ## Pieces -/

/-- Stores registers one behind another, from a number of words behind the base. -/
def storeFields (base : Reg) (start : Nat) (rs : List Reg) : Code :=
  rs.mapIdx fun k r => .store base r (Word.ofCount (start + k))

/-- Loads registers one behind another. -/
def loadFields (base : Reg) (rs : List Reg) : Code :=
  rs.mapIdx fun k r => .load r base (Word.ofCount k)

/-- Names a register for the next words of the heap, and claims them. -/
def claimHeap (d : Reg) (words : Nat) : Code :=
  let heap := Reg.ofPhys .heapPointer
  [.move d heap, .immediate .addi heap heap (Word.ofCount words)]

/-- Computes the address of an element of an array. -/
def elementAddress (scaled address : Reg) (array index : String) : Code :=
  [.immediate .slli scaled (.int index) 2, .binary .add address (.int array) scaled]

def UnaryOp.opcode : UnaryOp → Opcode
  | .neg => .neg
  | .fneg => .fneg

def UnaryOp.cls : UnaryOp → RegClass
  | .neg => .int
  | .fneg => .float

def BinaryOp.opcode : BinaryOp → Opcode
  | .add => .add
  | .sub => .sub
  | .mul => .sll
  | .div => .srl
  | .fadd => .fadd
  | .fsub => .fsub
  | .fmul => .fmul
  | .fdiv => .fdiv

def BinaryOp.cls : BinaryOp → RegClass
  | .add | .sub | .mul | .div => .int
  | .fadd | .fsub | .fmul | .fdiv => .float

/-- The branch that decides a comparison. For a comparison that has no branch of its own it
decides the opposite, see `Comparison.takesElse`. Only floats have a branch for "at most"; for
integers the operands change places. -/
def Comparison.branch (cmp : Comparison) (x y : Reg) (target : String) : Instr :=
  match cmp, x.cls with
  | .eq, .int | .ne, .int => .branch .beq x y target
  | .eq, .float | .ne, .float => .branch .bfeq x y target
  | .le, .int => .branch .bge y x target
  | .le, .float => .branch .bfle x y target
  | .lt, .int => .branch .blt x y target
  | .lt, .float => .branch .bflt x y target

/-- Whether the branch of a comparison leads to the arm for the case that the comparison fails. -/
def Comparison.takesElse : Comparison → Bool
  | .ne => true
  | _ => false

/-- A conditional: a branch, the arm that is fallen into, and the arm that is branched to. -/
def conditional (branch : Instr) (n : Nat) (fallthrough taken : Code) : Code :=
  branch :: fallthrough ++ .jump (endifLabel n) :: .labelled (thenLabel n) :: taken ++
    [.labelled (endifLabel n)]

/-- Loads a float constant. Zero needs no constant in memory. -/
def loadFloat (d : Reg) (v : Binary64) : Instr :=
  if v.isZero then .unary .fmvWX d (.ofPhys .zero) else ⟨.fli, [d, .fimm v]⟩

/-- A call with a destination, if there is one, its callee and its arguments. -/
def callInstr (plain withResult : Opcode) (d? : Option Reg) (callee : Operand) (args : List Reg) :
    Instr :=
  match d? with
  | some d => ⟨withResult, .reg d :: callee :: args.map Operand.reg⟩
  | none => ⟨plain, callee :: args.map Operand.reg⟩

/-! ## Expressions -/

open Lower in
/-- Lowers an expression, with its value delivered to a register if one is given. -/
def Expr.lower (e : Expr) (d? : Option Reg) : Lower Code :=
  match e with
  | .unit => return []
  | .int n => return d?.toList.map fun d => .li d n
  | .float v => return d?.toList.map fun d => loadFloat d v
  | .unary op x => return d?.toList.map fun d => .unary op.opcode d ⟨x, op.cls⟩
  | .binary op x y => return d?.toList.map fun d => .binary op.opcode d ⟨x, op.cls⟩ ⟨y, op.cls⟩
  | .var x => return d?.toList.map fun d => .move d ⟨x, d.cls⟩
  | .externArray name => return d?.toList.map fun d => .la d name
  | .cond cmp x y holds fails => do
    let r ← look (·.operandOf x)
    let s ← look (·.operandOf y)
    let n ← nextNumber
    let branch := cmp.branch r s (thenLabel n)
    if cmp.takesElse then
      let fallthrough ← holds.lower d?
      let taken ← fails.lower d?
      return conditional branch n fallthrough taken
    else
      let fallthrough ← fails.lower d?
      let taken ← holds.lower d?
      return conditional branch n fallthrough taken
  | .letIn b e₁ e₂ => do
    let value ← e₁.lower (b.ty.cls?.map (Reg.mk b.name))
    bindVar b
    return value ++ (← e₂.lower d?)
  | .makeClosure b c body => do
    bindVar b
    let captured ← look (·.regsOf c.captured)
    let entry ← temp "makecls" .int
    let this := Reg.int b.name
    let build := claimHeap this (captured.length + 1) ++ .la entry c.entry ::
      .store this entry 0 :: storeFields this 1 captured
    return build ++ (← body.lower d?)
  | .callClosure f args => do
    let regs ← look (·.regsOf args)
    return [callInstr .callClosure .callClosureResult d? (.reg (.int f)) regs]
  | .callDirect f args => do
    let regs ← look (·.regsOf args)
    return [callInstr .callDirect .callDirectResult d? (.label f) regs]
  | .tuple xs =>
    match d? with
    | none => return []
    | some d => do
      let fields ← look (·.regsOf xs)
      let this ← temp "tuple" .int
      return claimHeap this fields.length ++ storeFields this 0 fields ++ [.move d this]
  | .letTuple bs t body => do
    bs.forM bindVar
    return loadFields (.int t) (bindingRegs bs) ++ (← body.lower d?)
  | .get array index =>
    match d? with
    | none => return []
    | some d => do
      let scaled ← temp "get" .int
      let address ← temp "get" .int
      return elementAddress scaled address array index ++ [.load d address 0]
  | .put array index value => do
    match ← look (·.regOf value) with
    | none => return []
    | some v =>
      let scaled ← temp "put" .int
      let address ← temp "put" .int
      return elementAddress scaled address array index ++ [.store address v 0]

/-! ## Bodies -/

open Lower in
/-- Lowers a definition. Its body starts with a marker for each parameter and each captured
variable, and ends with a return. -/
def Definition.lower (d : Definition) : Lower Code := do
  enter d.name (d.binding :: d.params ++ d.captured)
  let params := (bindingRegs d.params).map fun r => ⟨.param, [.reg r]⟩
  let captured := (bindingRegs d.captured).mapIdx fun k r =>
    ⟨.captured, [.reg r, .imm (Word.ofCount (k + 1))]⟩
  let start := .labelled d.name :: params ++ captured ++ [.move (.int d.name) (.ofPhys .closure)]
  match d.resultTy.cls? with
  | some cls => do
    let result ← temp "ret" cls
    return start ++ (← d.body.lower (some result)) ++ [⟨.returnValue, [.reg result]⟩]
  | none => return start ++ (← d.body.lower none) ++ [⟨.returnUnit, []⟩]

/-- Claims the part of the heap that is laid out in advance, and fills the constant registers. The
float constants go through the register of the last integer constant, as single-precision bit
patterns. -/
def startUp (heapOffset : Word) : Code :=
  let heap := Reg.ofPhys .heapPointer
  let staging := Reg.ofPhys .three
  [.immediate .addi heap heap heapOffset,
    .unary .fmvWX (.ofPhys .floatZero) (.ofPhys .zero),
    .li staging 0x3f800000,
    .unary .fmvWX (.ofPhys .floatOne) staging,
    .li staging 0x40000000,
    .unary .fmvWX (.ofPhys .floatTwo) staging,
    .li (.ofPhys .one) 1,
    .li (.ofPhys .two) 2,
    .li staging 3]

open Lower in
/-- Lowers the top-level body. -/
def lowerTopLevel (e : Expr) (heapOffset : Word) : Lower Code := do
  enter topLevelName []
  return .labelled topLevelName :: startUp heapOffset ++ (← e.lower none)

end ClosureCodegen
