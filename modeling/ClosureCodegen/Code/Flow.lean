import ClosureCodegen.Failure

/-!
# Control flow of a body

Labels and comments are places, not steps: control passes over them to the next real instruction.
A branch continues there or behind its label.  A jump continues behind its label, and leaves the
body if the label is not in it.  Every other instruction continues with the next real one, returns
included: what follows a return is only ever reached through a label.
-/

namespace ClosureCodegen

/-- The labels of a body with their positions, the last one first. -/
abbrev LabelTable := List (String × Nat)

/-- The labels among instructions that start at a position, on top of those already found. -/
def labelsFrom (found : LabelTable) (start : Nat) : Code → LabelTable
  | [] => found
  | i :: code =>
    match i.isLabel, i.label? with
    | true, some l => labelsFrom ((l, start) :: found) (start + 1) code
    | _, _ => labelsFrom found (start + 1) code

/-- The labels of a body. Of two labels with one name, the later is the one that counts. -/
def labelTable (code : Code) : LabelTable :=
  labelsFrom [] 0 code

def LabelTable.position? (table : LabelTable) (l : String) : Option Nat :=
  table.lookup l

/-- Whether control stops at an instruction, rather than passing over a label or comment. -/
def Instr.isReal (i : Instr) : Bool :=
  !(i.op = .label || i.op = .comment)

/-- The first real instruction at or after a position. -/
def nextReal? (code : Code) (start : Nat) : Option Nat :=
  ((code.drop start).findIdx? Instr.isReal).map (start + ·)

/-- The instruction control reaches through the label of a branch. -/
def branchTarget (code : Code) (table : LabelTable) (i : Instr) : Outcome (Option Nat) :=
  match i.label? with
  | none => .error (.malformedInstruction i .liveness)
  | some l =>
    match table.position? l with
    | none => .error (.missingLabel l .liveness)
    | some p => .ok (nextReal? code (p + 1))

/-- Where control can go from the instruction at a position. -/
def successorsOf (code : Code) (table : LabelTable) (i : Instr) (position : Nat) :
    Outcome (List Nat) :=
  if i.op = .j then
    .ok ((i.label?.bind table.position?).bind fun p => nextReal? code (p + 1)).toList
  else
    let next := (nextReal? code (position + 1)).toList
    if i.op.isBranch then do
      match ← branchTarget code table i with
      | some t => return if t ∈ next then next else next ++ [t]
      | none => return next
    else .ok next

/-- The positions that can follow each position. -/
def successors (code : Code) : Outcome (List (List Nat)) :=
  let table := labelTable code
  code.zipIdx.mapM fun (i, position) => successorsOf code table i position

end ClosureCodegen
