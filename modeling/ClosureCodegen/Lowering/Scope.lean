import ClosureCodegen.Failure
import ClosureCodegen.Program.Expr

/-!
# The state of lowering

Lowering hands out labels and temporaries from one counter that spans all bodies of a program, so
that no label occurs twice in the listing.  Within a body it keeps the types of the variables met
so far; a later binding of a name hides an earlier one.  The state survives a failure, and a next
body starts with a fresh scope but the same counter.
-/

namespace ClosureCodegen

/-- The state of lowering. -/
structure LowerState where
  counter : Nat := 0
  /-- The bindings of the body so far, the latest first. -/
  scope : List Binding := []
  body : String := ""
  deriving Repr

/-- A step of lowering. -/
abbrev Lower := EStateM Failure LowerState

namespace LowerState

def tyOf? (s : LowerState) (x : String) : Option Ty :=
  (s.scope.find? fun b => b.name = x).map Binding.ty

/-- The register of a variable; a unit variable has none. A register with a fixed role needs no
binding. -/
def regOf (s : LowerState) (x : String) : Outcome (Option Reg) :=
  match reservedClass? x with
  | some c => .ok (some ⟨x, c⟩)
  | none =>
    match s.tyOf? x with
    | some t => .ok (t.cls?.map (Reg.mk x))
    | none => .error (.undefinedVariable x s.body)

/-- The register of an operand of a comparison. A unit variable stands for an integer there. -/
def operandOf (s : LowerState) (x : String) : Outcome Reg := do
  return (← s.regOf x).getD (.int x)

end LowerState

/-- The integer registers in front of the float registers. -/
def integersFirst (rs : List Reg) : List Reg :=
  rs.filter (·.cls = .int) ++ rs.filter (·.cls = .float)

/-- The registers of bindings, integers first. Unit bindings have none. -/
def bindingRegs (bs : List Binding) : List Reg :=
  integersFirst (bs.filterMap fun b => b.ty.cls?.map (Reg.mk b.name))

namespace LowerState

/-- The registers of variables, integers first. Unit variables have none. -/
def regsOf (s : LowerState) (xs : List String) : Outcome (List Reg) := do
  return integersFirst ((← xs.mapM s.regOf).filterMap id)

end LowerState

namespace Lower

def look {α : Type} (f : LowerState → Outcome α) : Lower α := fun s =>
  match f s with
  | .ok a => .ok a s
  | .error e => .error e s

def bindVar (b : Binding) : Lower Unit :=
  modify fun s => { s with scope := b :: s.scope }

def nextNumber : Lower Nat := do
  modify fun s => { s with counter := s.counter + 1 }
  return (← get).counter

/-- A register of its own for an intermediate value. The percent sign keeps it apart from the
variables of the program. -/
def temp (role : String) (cls : RegClass) : Lower Reg := do
  return ⟨"%" ++ role ++ "." ++ Decimal.natText (← nextNumber), cls⟩

def enter (body : String) (bs : List Binding) : Lower Unit :=
  modify fun s => { s with scope := bs.reverse, body := body }

end Lower
end ClosureCodegen
