/-!
# Physical registers

The target has two banks of thirty-two registers, one for each register class.  A bank is listed by
the assembler names of its registers.  Some registers have a fixed role: they hold a constant, the
stack, heap or closure pointer, the return address, or relay a value within one expanded sequence.
Such a register is *reserved*.  Liveness does not track it and the allocator never hands it out.
-/

namespace ClosureCodegen

/-- The class of a value: which bank can hold it. -/
inductive RegClass where
  | int
  | float
  deriving DecidableEq, Repr

namespace RegClass

def name : RegClass → String
  | .int => "int"
  | .float => "float"

/-- Both classes, in the order in which they are treated. -/
def all : List RegClass := [.int, .float]

def argumentCount : RegClass → Nat
  | .int => 7
  | .float => 8

def bank : RegClass → Nat
  | .int => 0
  | .float => 1

end RegClass

/-- A register of one of the two banks. -/
structure PhysReg where
  cls : RegClass
  id : Fin 32
  deriving DecidableEq, Repr

namespace PhysReg

def intNames : List String :=
  ["x0", "ra", "sp", "hp", "x4", "x5", "x6", "x7", "x8", "x9", "a0", "a1", "a2", "a3", "a4", "a5",
   "a6", "a7", "x18", "x19", "x20", "x21", "x22", "x23", "x24", "x25", "x26", "x27", "x28", "x29",
   "x30", "x31"]

def floatNames : List String :=
  ["f0", "f1", "f2", "f3", "f4", "f5", "f6", "f7", "f8", "f9", "fa0", "fa1", "fa2", "fa3", "fa4",
   "fa5", "fa6", "fa7", "f18", "f19", "f20", "f21", "f22", "f23", "f24", "f25", "f26", "f27", "f28",
   "f29", "f30", "f31"]

def bankNames : RegClass → List String
  | .int => intNames
  | .float => floatNames

def name (r : PhysReg) : String :=
  (bankNames r.cls).getD r.id ""

def bankRegs (cls : RegClass) : List PhysReg :=
  (List.finRange 32).map fun id => ⟨cls, id⟩

/-- All registers, the integer bank first. -/
def all : List PhysReg :=
  bankRegs .int ++ bankRegs .float

def ofName? (s : String) : Option PhysReg :=
  all.find? fun r => r.name == s

/-! ## Fixed roles -/

def zero : PhysReg := ⟨.int, 0⟩
def returnAddress : PhysReg := ⟨.int, 1⟩
def stackPointer : PhysReg := ⟨.int, 2⟩
def heapPointer : PhysReg := ⟨.int, 3⟩
/-- Relays the code address of a closure call and integer results. -/
def scratch : PhysReg := ⟨.int, 4⟩
/-- The closure that the current function was called through. -/
def closure : PhysReg := ⟨.int, 10⟩
def intResult : PhysReg := ⟨.int, 11⟩
def one : PhysReg := ⟨.int, 25⟩
def two : PhysReg := ⟨.int, 26⟩
def three : PhysReg := ⟨.int, 27⟩
/-- Relays float results and holds the zero of an inlined sign test. -/
def floatScratch : PhysReg := ⟨.float, 4⟩
def floatResult : PhysReg := ⟨.float, 10⟩
def floatZero : PhysReg := ⟨.float, 25⟩
def floatOne : PhysReg := ⟨.float, 26⟩
def floatTwo : PhysReg := ⟨.float, 27⟩

/-- The registers with a fixed role. -/
def reserved : List PhysReg :=
  [zero, returnAddress, stackPointer, heapPointer, closure, scratch, one, two, three, floatScratch,
   floatZero, floatOne, floatTwo]

/-- The register that returns a value of a class. -/
def result : RegClass → PhysReg
  | .int => intResult
  | .float => floatResult

/-- The register that relays a result of a class past the reloads after a call. -/
def relay : RegClass → PhysReg
  | .int => scratch
  | .float => floatScratch

def firstArgument : RegClass → Nat
  | .int => 11
  | .float => 10

/-- The `index`-th argument register of a class: `a1` to `a7`, and `fa0` to `fa7`. -/
def argument? (cls : RegClass) (index : Nat) : Option PhysReg :=
  if index < cls.argumentCount then some ⟨cls, Fin.ofNat 32 (firstArgument cls + index)⟩ else none

end PhysReg

def reservedNames : List String :=
  PhysReg.reserved.map PhysReg.name

/-- Whether a name has a fixed role, in either class. -/
def isReservedName (s : String) : Bool :=
  reservedNames.contains s

/-- The class of a name that denotes a register with a fixed role. -/
def reservedClass? (s : String) : Option RegClass :=
  if isReservedName s then (PhysReg.ofName? s).map PhysReg.cls else none

end ClosureCodegen
