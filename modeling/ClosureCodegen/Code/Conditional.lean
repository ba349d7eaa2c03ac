import ClosureCodegen.Code.Flow

/-!
# Labels of conditionals

The `n`-th conditional of a listing branches to the label `then<n>`, and both its arms end at the
label `endif<n>`.  The arm behind the branch comes first and the arm behind the `then` label
second, so the pair of labels delimits both.  Passes that follow the arms of a conditional recover
the pair from the target of the branch.
-/

namespace ClosureCodegen

/-- The label at which the arm taken by the `n`-th conditional starts. -/
def thenLabel (n : Nat) : String := "then" ++ Decimal.natText n

/-- The label at which both arms of the `n`-th conditional end. -/
def endifLabel (n : Nat) : String := "endif" ++ Decimal.natText n

/-- The end label that belongs to a label of the form `then<digits>`. -/
def endifOf? (l : String) : Option String :=
  match l.toList with
  | 't' :: 'h' :: 'e' :: 'n' :: ds =>
    if !ds.isEmpty && ds.all Char.isDigit then some ("endif" ++ String.ofList ds) else none
  | _ => none

/-- The labels that delimit the arms of a conditional. -/
structure Arms where
  takenLabel : String
  endLabel : String
  deriving DecidableEq, Repr

/-- The labels of the arms of a branch, if it branches to a label of a conditional. -/
def Instr.arms? (i : Instr) : Option Arms :=
  if i.op.isBranch then do
    let l ← i.label?
    return ⟨l, ← endifOf? l⟩
  else none

end ClosureCodegen
