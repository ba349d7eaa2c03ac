import ClosureCodegen.Program.Expr

/-!
# Constant registers in programs

Some registers hold a small constant all the time.  A variable that is bound to such a constant
needs no register of its own: its uses name the constant's register, and the binding is mostly
left without a use.  The name of a register is a name like any other, so the result is again
an expression.

Arguments of calls and captured variables keep their names.  The operands of array accesses are
renamed only on request: folding an address looks for the instruction that defines a constant.
-/

namespace ClosureCodegen

/-- The register that holds a small integer. -/
def Word.constantRegister? (n : Word) : Option PhysReg :=
  if n = 0 then some .zero
  else if n = 1 then some .one
  else if n = 2 then some .two
  else if n = 3 then some .three
  else none

/-- The register that holds a float. Both zeros count as zero. -/
def Binary64.constantRegister? (v : Binary64) : Option PhysReg :=
  if v.isZero then some .floatZero
  else if v = .one then some .floatOne
  else if v = .two then some .floatTwo
  else none

/-- The register that holds the value of a literal. -/
def Expr.constantRegister? : Expr → Option PhysReg
  | .int n => Word.constantRegister? n
  | .float v => v.constantRegister?
  | _ => none

/-- What the variables in scope stand for, innermost first. A variable without a register hides
outer ones of its name. -/
abbrev Aliases := List (String × Option PhysReg)

namespace Aliases

def rename (as : Aliases) (x : String) : String :=
  match as.lookup x with
  | some (some r) => r.name
  | _ => x

def hide (as : Aliases) (bs : List Binding) : Aliases :=
  bs.foldl (fun as b => (b.name, none) :: as) as

end Aliases

namespace Expr

/-- Renames variables that are bound to constants. Operands of array accesses are renamed if
`arrays` is set. -/
def useConstants (arrays : Bool) (as : Aliases) : Expr → Expr
  | .var x => .var (as.rename x)
  | .unary op x => .unary op (as.rename x)
  | .binary op x y => .binary op (as.rename x) (as.rename y)
  | .cond cmp x y e₁ e₂ =>
    .cond cmp (as.rename x) (as.rename y) (useConstants arrays as e₁) (useConstants arrays as e₂)
  | .letIn b e₁ e₂ =>
    .letIn b (useConstants arrays as e₁)
      (useConstants arrays ((b.name, e₁.constantRegister?) :: as) e₂)
  | .makeClosure b c e => .makeClosure b c (useConstants arrays ((b.name, none) :: as) e)
  | .letTuple bs t e => .letTuple bs t (useConstants arrays (as.hide bs) e)
  | .tuple xs => .tuple (xs.map as.rename)
  | .get a i => if arrays then .get (as.rename a) (as.rename i) else .get a i
  | .put a i v => if arrays then .put (as.rename a) (as.rename i) (as.rename v) else .put a i v
  | e => e

/-- Renames variables that are bound to constants in a closed scope. -/
def propagateConstants (arrays : Bool) (e : Expr) : Expr :=
  e.useConstants arrays []

end Expr

/-- Renames variables that are bound to constants in the body of a definition. -/
def Definition.propagateConstants (arrays : Bool) (d : Definition) : Definition :=
  { d with body := d.body.propagateConstants arrays }

end ClosureCodegen
