import ClosureCodegen.Machine.Word
import ClosureCodegen.Numeral.Binary64
import ClosureCodegen.Program.Ty

/-!
# Programs

A program is a list of closed definitions and an expression to run.  It is closure-converted, so a
definition lists the variables it captures, and in A-normal form, so that every operand is a name.
-/

namespace ClosureCodegen

/-- A name with the type it is bound at. -/
structure Binding where
  name : String
  ty : Ty
  deriving Repr, Inhabited

inductive UnaryOp where
  | neg
  | fneg
  deriving DecidableEq, Repr

inductive BinaryOp where
  | add
  | sub
  /-- Shifts to the left: products are by powers of two, given by their exponents. -/
  | mul
  /-- Shifts to the right, likewise. -/
  | div
  | fadd
  | fsub
  | fmul
  | fdiv
  deriving DecidableEq, Repr

/-- The conditions of a branch. -/
inductive Comparison where
  | eq
  | ne
  | le
  | lt
  deriving DecidableEq, Repr

/-- A closure to be built: the code it enters, and the variables it captures. -/
structure Closure where
  entry : String
  captured : List String
  deriving DecidableEq, Repr

/-- An expression. -/
inductive Expr where
  | unit
  | int (n : Word)
  | float (v : Binary64)
  | unary (op : UnaryOp) (x : String)
  | binary (op : BinaryOp) (x y : String)
  /-- The first arm is taken if the comparison holds. -/
  | cond (cmp : Comparison) (x y : String) (holds fails : Expr)
  | letIn (binding : Binding) (value body : Expr)
  | var (x : String)
  | makeClosure (binding : Binding) (closure : Closure) (body : Expr)
  | callClosure (f : String) (args : List String)
  | callDirect (f : String) (args : List String)
  | tuple (items : List String)
  | letTuple (bindings : List Binding) (tuple : String) (body : Expr)
  | get (array index : String)
  | put (array index value : String)
  /-- The address of an array that is laid out elsewhere. -/
  | externArray (name : String)
  deriving Repr, Inhabited

/-- A function with its parameters and captured variables. -/
structure Definition where
  binding : Binding
  params : List Binding
  captured : List Binding
  body : Expr
  deriving Repr

namespace Definition

def name (d : Definition) : String := d.binding.name

/-- The type of the results. A definition at a type that is no function type returns a unit value.
-/
def resultTy (d : Definition) : Ty := d.binding.ty.result?.getD .unit

end Definition

/-- A program: its functions and its top-level body. -/
structure Program where
  /-- The bytes of the heap that are laid out in advance. -/
  heapOffset : Word
  definitions : List Definition
  body : Expr
  deriving Repr

end ClosureCodegen
