import ClosureCodegen.Machine.RegisterSet

/-!
# The calling convention

A call may overwrite the caller-saved registers and must preserve the callee-saved ones.  Together
these are the allocatable registers; the reserved ones are in neither list.  An `AllocationOrder`
ranks the registers of each class for the allocator.  A function prefers caller-saved registers,
which cost it nothing to use.  The top-level body prefers callee-saved ones, since it returns to
nobody, and argument registers last, since its calls want them.
-/

namespace ClosureCodegen

namespace PhysReg

def ofNames (names : List String) : List PhysReg :=
  names.filterMap ofName?

def arguments (cls : RegClass) : List PhysReg :=
  (List.range cls.argumentCount).filterMap (argument? cls)

/-- Registers a callee may overwrite, apart from the argument registers. -/
def temporaries : RegClass → List PhysReg
  | .int => ofNames ["x5", "x6", "x7", "x28", "x29", "x30", "x31"]
  | .float => ofNames ["f0", "f1", "f2", "f3", "f5", "f6", "f7", "f28", "f29", "f30", "f31"]

/-- Registers a callee may overwrite. -/
def callerSaved (cls : RegClass) : List PhysReg :=
  arguments cls ++ temporaries cls

/-- Registers a callee must preserve. -/
def calleeSaved : RegClass → List PhysReg
  | .int => ofNames ["x8", "x9", "x18", "x19", "x20", "x21", "x22", "x23", "x24"]
  | .float => ofNames ["f8", "f9", "f18", "f19", "f20", "f21", "f22", "f23", "f24"]

end PhysReg

namespace RegSet

def callerSaved : RegSet :=
  ofList (RegClass.all.flatMap PhysReg.callerSaved)

def calleeSaved : RegSet :=
  ofList (RegClass.all.flatMap PhysReg.calleeSaved)

def arguments : RegSet :=
  ofList (RegClass.all.flatMap PhysReg.arguments)

end RegSet

/-- Registers in order of preference. -/
structure AllocationOrder where
  ints : List PhysReg
  floats : List PhysReg
  deriving Repr

namespace AllocationOrder

def ofClass (o : AllocationOrder) : RegClass → List PhysReg
  | .int => o.ints
  | .float => o.floats

/-- For functions: caller-saved registers first. -/
def function : AllocationOrder :=
  let order := fun cls => PhysReg.callerSaved cls ++ PhysReg.calleeSaved cls
  ⟨order .int, order .float⟩

/-- For the top-level body: callee-saved ones first. -/
def topLevel : AllocationOrder :=
  let order := fun cls =>
    PhysReg.calleeSaved cls ++ PhysReg.temporaries cls ++ PhysReg.arguments cls
  ⟨order .int, order .float⟩

end AllocationOrder
end ClosureCodegen
