import ClosureCodegen.Code.Text

/-!
# Failures

The reasons for which a program has no listing, each with the text it is reported with.  A failure
carries what it is about: a name, a label, an instruction, or the numbers that did not fit.
-/

namespace ClosureCodegen

/-- The stages that follow labels or rely on the operands of an instruction. -/
inductive Stage where
  | liveness
  | expansion
  | stackCoalescing
  deriving DecidableEq, Repr

def Stage.name : Stage → String
  | .liveness => "liveness"
  | .expansion => "calling-convention expansion"
  | .stackCoalescing => "stack-pointer coalescing"

/-- Why a program cannot be compiled. -/
inductive Failure where
  /-- A variable whose class is needed has no binding in the body being lowered. -/
  | undefinedVariable (name body : String)
  /-- A branch whose label is not where the stage needs it. -/
  | missingLabel (label : String) (stage : Stage)
  /-- A variable that must not be spilled found no register. -/
  | uncolorableNode (var : String)
  /-- A register operand that no definition or use of the body covers. -/
  | unassignedRegister (var : String)
  /-- A spill slot that is read on a path that never filled it. -/
  | spillSlotUnavailable (slot : String)
  /-- More arguments of one class than it has argument registers. -/
  | tooManyArguments (callee : String) (cls : RegClass) (count : Nat)
  /-- Allocation went on for more rounds than there are variables to spill. -/
  | roundLimit (rounds : Nat)
  /-- An instruction without the operands its opcode needs. -/
  | malformedInstruction (instr : Instr) (stage : Stage)
  /-- A step on offsets, lanes or operands had no result. -/
  | fault (f : Fault)
  deriving DecidableEq, Repr

/-- What is printed of a failure. -/
def Failure.message : Failure → String
  | .undefinedVariable name body => "Undefined variable `" ++ name ++ "` while lowering " ++ body
  | .missingLabel label stage => "Missing label `" ++ label ++ "` during " ++ stage.name
  | .uncolorableNode var =>
    "Node `" ++ var ++ "` could not be coloured and is not a spill candidate"
  | .unassignedRegister var => "No register assigned to `" ++ var ++ "`"
  | .spillSlotUnavailable slot => "Variable `" ++ slot ++ "` has no available spill slot"
  | .tooManyArguments callee cls count =>
    "Call to `" ++ callee ++ "` passes " ++ Decimal.natText count ++ " " ++ cls.name ++
      " arguments, at most " ++ Decimal.natText cls.argumentCount ++ " fit in registers"
  | .roundLimit rounds =>
    "Register allocation failed: no colouring after " ++ Decimal.natText rounds ++ " rounds"
  | .malformedInstruction instr stage =>
    "Malformed instruction `" ++ instr.text ++ "` in " ++ stage.name
  | .fault f => f.message

/-- The result of a stage that may fail. -/
abbrev Outcome (α : Type) := Except Failure α

instance : MonadLift (Except Fault) (Except Failure) :=
  ⟨fun x => x.mapError Failure.fault⟩

end ClosureCodegen
