import ClosureCodegen.Allocation.Parameters

/-!
# Call sites

A call names its target, a label or the register of a closure, and the registers of its arguments.
A call with a result has its destination in front of them.  The last argument of a class travels
in the first argument register of the class, the one before it in the second, and so on, which is
where the parameters of a function are moved to.
-/

namespace ClosureCodegen

/-- What a call goes to. -/
inductive CallTarget where
  | direct (label : String)
  /-- The code of a closure, by the register that holds the closure. -/
  | closure (reg : Reg)
  deriving DecidableEq, Repr

def CallTarget.name : CallTarget → String
  | .direct label => label
  | .closure reg => reg.name

/-- A call with its target and arguments. -/
structure CallSite where
  dest? : Option Reg
  target : CallTarget
  args : List Reg
  deriving DecidableEq, Repr

/-- The registers of a list of register operands; none if there is another operand among them. -/
def allRegs? : List Operand → Option (List Reg)
  | [] => some []
  | o :: os => do return (← o.reg?) :: (← allRegs? os)

namespace CallSite

def targetAndArgs? : List Operand → Option (CallTarget × List Reg)
  | .label l :: os => (allRegs? os).map fun args => (.direct l, args)
  | .reg r :: os => (allRegs? os).map fun args => (.closure r, args)
  | _ => none

/-- The parts of a call, if it has the operands of one. -/
def ofInstr? (i : Instr) : Option CallSite :=
  match i.op with
  | .callDirectResult | .callClosureResult => do
    let dest ← i.reg? 0
    let (target, args) ← targetAndArgs? (i.operands.drop 1)
    return ⟨some dest, target, args⟩
  | _ => do
    let (target, args) ← targetAndArgs? i.operands
    return ⟨none, target, args⟩

/-- The call of an instruction, which must be one. -/
def ofInstr (i : Instr) : Outcome CallSite :=
  match ofInstr? i with
  | some site => .ok site
  | none => .error (.malformedInstruction i .expansion)

end CallSite

/-- The argument registers of a list of arguments that fits: as many arguments of its class as
follow an argument stand below it. -/
def argumentRegs : List Reg → List PhysReg
  | [] => []
  | a :: args =>
    (PhysReg.argument? a.cls (args.countP fun b => b.cls = a.cls)).toList ++ argumentRegs args

/-- The registers in which the arguments of a call are passed, in argument order. -/
def assignArgs (callee : String) (args : List Reg) : Outcome (List PhysReg) := do
  for cls in RegClass.all do
    checkArgumentCount callee cls (args.countP fun a => a.cls = cls)
  return argumentRegs args

end ClosureCodegen
