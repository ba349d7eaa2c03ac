import ClosureCodegen.Failure
import ClosureCodegen.Machine.Convention

/-!
# Parameter registers

A caller passes the last argument of a class in the first argument register of the class, the one
before it in the second, and so on.  A function is allocated without regard to that, and its
registers are permuted afterwards: each parameter moves to the register its callers use, and a
register that is displaced by that takes a place that a parameter has vacated.  The renaming is a
permutation, so two variables that had different registers still have.
-/

namespace ClosureCodegen

/-- The registers of the arguments of a class in a call with `n` of them, first argument first. -/
def argumentTargets (cls : RegClass) (n : Nat) : List PhysReg :=
  (List.range n).filterMap fun i => PhysReg.argument? cls (n - 1 - i)

/-- Fails if a call or definition has more arguments of a class than fit. -/
def checkArgumentCount (callee : String) (cls : RegClass) (count : Nat) : Outcome Unit :=
  if cls.argumentCount < count then .error (.tooManyArguments callee cls count) else .ok ()

/-- The names of the registers in which the parameters of a class arrive. -/
def paramNames (code : Code) (cls : RegClass) : List String :=
  ((code.filter fun i => i.op = .param).filterMap fun i => i.reg? 0).filterMap fun r =>
    if r.cls = cls then some r.name else none

/-- The renaming that moves parameters to their targets and displaced registers to vacated ones. A
pair stands before those it overrules. -/
def paramRenaming (params targets : List String) : List (String × String) :=
  let displaced := targets.filter fun t => t ∉ params
  let vacated := params.filter fun p => p ∉ targets
  (params.zip targets).reverse ++ (displaced.zip vacated).reverse

/-- The renaming for the parameters of one class. -/
def classRenaming (function : String) (code : Code) (cls : RegClass) :
    Outcome (List (String × String)) := do
  let params := paramNames code cls
  checkArgumentCount function cls params.length
  return paramRenaming params ((argumentTargets cls params.length).map PhysReg.name)

def Reg.renameBy (table : List (String × String)) (r : Reg) : Reg :=
  { r with name := (table.lookup r.name).getD r.name }

/-- The renaming for the parameters of both classes. The banks are apart, so no pair overrules one of
the other class. -/
def paramTable (function : String) (code : Code) : Outcome (List (String × String)) := do
  let ints ← classRenaming function code .int
  let floats ← classRenaming function code .float
  return floats ++ ints

/-- Moves the parameters of an allocated function to the registers its callers use, in the code
itself. -/
def moveParams (function : String) : ExceptT Failure (StateM Code) Unit := do
  let table ← MonadExcept.ofExcept (paramTable function (← get))
  modify (List.map (Instr.mapRegs (Reg.renameBy table)))

/-- The code after its parameters are moved. -/
def assignParams (function : String) (code : Code) : Outcome Code :=
  let moved := (moveParams function).run.run code
  moved.1.map fun _ => moved.2

end ClosureCodegen
