import ClosureCodegen.Numeral.Binary64.Read
import ClosureCodegen.Program.Expr
import ClosureCodegen.Program.Reader

/-!
# The grammar of program dumps

A dump names each form of expression by a word and gives its parts in brackets.  The types and
expressions nest; their readers carry a bound on the depth.  Each level starts with a token of its
own, so the number of tokens bounds the depth of every text, and the readers for whole texts never
come to the bound.
-/

namespace ClosureCodegen

/-! ## Types -/

namespace Reader

/-- Reads a type, given a reader for the types in it. -/
def tyOf (inner : Reader Ty) : Reader Ty := do
  if ← tryMark '(' then
    let _ ← mark ')'
    return .unit
  let name ← word
  if name = "unit" then return .unit
  else if name = "bool" then return .bool
  else if name = "int" then return .int
  else if name = "float" then return .float
  else if name = "Fun" then
    let _ ← mark '('
    let params ← list inner
    let _ ← mark ','
    let result ← inner
    let _ ← mark ')'
    return .fn params result
  else if name = "Tuple" then
    let _ ← mark '('
    let items ← list inner
    let _ ← mark ')'
    return .tuple items
  else if name = "Array" then
    let _ ← mark '('
    let element ← inner
    let _ ← mark ')'
    return .array element
  else
    if ← peekMark '(' then skipGroup
    return .named name

/-- Reads a type of bounded depth. -/
def ty : Nat → Reader Ty
  | 0 => throw .exhausted
  | depth + 1 => tyOf (ty depth)

/-- Reads a type. -/
def anyTy : Reader Ty := do
  ty (← get).bound

def binding : Reader Binding := do
  let _ ← mark '('
  let name ← word
  let _ ← mark ','
  let t ← anyTy
  let _ ← mark ')'
  return ⟨name, t⟩

def field (name : String) : Reader Unit := do
  keyword name
  let _ ← mark ':'

def closure : Reader Closure := do
  let _ ← mark '\x7b'
  field "entry"
  let entry ← word
  let _ ← mark ','
  field "actual_fv"
  let captured ← list word
  let _ ← mark '\x7d'
  return ⟨entry, captured⟩

end Reader

/-! ## Forms of expressions -/

/-- The forms of expressions. -/
inductive Form where
  | int
  | float
  | unary (op : UnaryOp)
  | binary (op : BinaryOp)
  | cond (cmp : Comparison)
  | letIn
  | var
  | makeClosure
  | callClosure
  | callDirect
  | tuple
  | letTuple
  | get
  | put
  | externArray
  deriving DecidableEq, Repr

namespace Form

def name : Form → String
  | .int => "Int"
  | .float => "Float"
  | .unary .neg => "Neg"
  | .unary .fneg => "FNeg"
  | .binary .add => "Add"
  | .binary .sub => "Sub"
  | .binary .mul => "Mul"
  | .binary .div => "Div"
  | .binary .fadd => "FAdd"
  | .binary .fsub => "FSub"
  | .binary .fmul => "FMul"
  | .binary .fdiv => "FDiv"
  | .cond .eq => "IfEq"
  | .cond .ne => "IfNEq"
  | .cond .le => "IfLE"
  | .cond .lt => "IfLT"
  | .letIn => "Let"
  | .var => "Var"
  | .makeClosure => "MakeCls"
  | .callClosure => "AppCls"
  | .callDirect => "AppDir"
  | .tuple => "Tuple"
  | .letTuple => "LetTuple"
  | .get => "Get"
  | .put => "Put"
  | .externArray => "ExtArray"

def all : List Form :=
  [.int, .float, .unary .neg, .unary .fneg, .binary .add, .binary .sub, .binary .mul, .binary .div,
    .binary .fadd, .binary .fsub, .binary .fmul, .binary .fdiv, .cond .eq, .cond .ne, .cond .le,
    .cond .lt, .letIn, .var, .makeClosure, .callClosure, .callDirect, .tuple, .letTuple, .get, .put,
    .externArray]

def ofName? (s : String) : Option Form :=
  all.find? fun f => f.name = s

end Form

/-- The value of a float literal. A point at the end stands for one with a zero behind it. -/
def floatLiteral? (s : String) : Option Binary64 :=
  Binary64.ofText? (if s.toList.getLast? = some '.' then s ++ "0" else s)

/-! ## Expressions and programs -/

namespace Reader

def pair : Reader (String × String) := do
  let x ← word
  let _ ← mark ','
  return (x, ← word)

/-- Reads the parts of a form, given a reader for the expressions among them. -/
def parts (expr : Reader Expr) : Form → Reader Expr
  | .int => return .int (← literal Word.ofText? .invalidInteger)
  | .float => return .float (← literal floatLiteral? .invalidFloat)
  | .unary op => return .unary op (← word)
  | .binary op => do
    let (x, y) ← pair
    return .binary op x y
  | .cond cmp => do
    let (x, y) ← pair
    let _ ← mark ','
    let holds ← expr
    let _ ← mark ','
    return .cond cmp x y holds (← expr)
  | .letIn => do
    let b ← binding
    let _ ← mark ','
    let value ← expr
    let _ ← mark ','
    return .letIn b value (← expr)
  | .var => return .var (← word)
  | .makeClosure => do
    let b ← binding
    let _ ← mark ','
    let c ← closure
    let _ ← mark ','
    return .makeClosure b c (← expr)
  | .callClosure => do
    let f ← word
    let _ ← mark ','
    return .callClosure f (← list word)
  | .callDirect => do
    let f ← word
    let _ ← mark ','
    return .callDirect f (← list word)
  | .tuple => return .tuple (← list word)
  | .letTuple => do
    let bs ← list binding
    let _ ← mark ','
    let t ← word
    let _ ← mark ','
    return .letTuple bs t (← expr)
  | .get => do
    let (a, i) ← pair
    return .get a i
  | .put => do
    let (a, i) ← pair
    let _ ← mark ','
    return .put a i (← word)
  | .externArray => return .externArray (← word)

/-- Reads an expression whose parts are read by `inner`. -/
def exprOf (inner : Reader Expr) : Reader Expr := do
  let name ← word
  if name = "Unit" then return .unit
  let opened ← mark '('
  match Form.ofName? name with
  | some form =>
    let e ← parts inner form
    let _ ← mark ')'
    return e
  | none => throw (.failed opened (.unknownExpression name))

/-- Reads an expression of bounded depth. -/
def expr : Nat → Reader Expr
  | 0 => throw .exhausted
  | depth + 1 => exprOf (expr depth)

/-- Reads an expression. -/
def anyExpr : Reader Expr := do
  expr (← get).bound

def definition : Reader Definition := do
  let _ ← mark '\x7b'
  field "name"
  let b ← binding
  let _ ← mark ','
  field "args"
  let params ← list binding
  let _ ← mark ','
  field "formal_fv"
  let captured ← list binding
  let _ ← mark ','
  field "body"
  let body ← anyExpr
  let _ ← mark '\x7d'
  return ⟨b, params, captured, body⟩

/-- Reads a program. -/
def program : Reader Program := do
  field "first_hp"
  let heapOffset ← literal Word.ofText? .invalidHeapOffset
  keyword "fundef"
  field "list"
  let definitions ← list definition
  field "t"
  return ⟨heapOffset, definitions, ← anyExpr⟩

end Reader

/-- The type that a text denotes. -/
def Ty.ofText (s : String) : Except ReadError Ty :=
  Reader.anyTy.run s

/-- The expression that a text denotes. -/
def Expr.ofText (s : String) : Except ReadError Expr :=
  Reader.run (do
    let e ← Reader.anyExpr
    Reader.atEnd .trailingAfterExpression
    return e) s

/-- The program that a text denotes. -/
def Program.ofText (s : String) : Except ReadError Program :=
  Reader.run (do
    let p ← Reader.program
    Reader.atEnd .trailingAfterProgram
    return p) s

end ClosureCodegen
