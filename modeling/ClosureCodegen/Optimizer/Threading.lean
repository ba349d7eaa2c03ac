import ClosureCodegen.Code.Flow

/-!
# Jump threading

A jump or branch to a label behind which there is only another jump may as well go where that jump
goes.  Labels, comments and empty instructions in between do not matter.  A chain of jumps that
closes to a circle is followed to the label at which it closes.
-/

namespace ClosureCodegen

/-- Whether an instruction does nothing at all. -/
def Opcode.isIdle : Opcode → Bool
  | .label | .nop | .comment => true
  | _ => false

def jumpBehind? (code : Code) (table : LabelTable) (l : String) : Option String := do
  let p ← table.position? l
  let i ← (code.drop (p + 1)).find? fun i => !i.op.isIdle
  if i.op = .j then i.label? else none

/-- Follows jumps from a label, at most `fuel` of them, up to a label that was seen before or that
has no jump behind it. -/
def followJumps (code : Code) (table : LabelTable) : Nat → List String → String → String
  | 0, _, l => l
  | fuel + 1, seen, l =>
    if l ∈ seen then l
    else
      match jumpBehind? code table l with
      | some next => followJumps code table fuel (l :: seen) next
      | none => l

/-- The label at which the jumps behind a label end. Each jump is followed at most once. -/
def finalTarget (code : Code) (table : LabelTable) (l : String) : String :=
  followJumps code table (code.length + 1) [] l

/-- The new target of an instruction that is to be threaded, if it changes. -/
def threadedTarget? (code : Code) (table : LabelTable) (select : Opcode → Bool) (i : Instr) :
    Option String :=
  if select i.op then
    i.label?.bind fun l =>
      let target := finalTarget code table l
      if target = l then none else some target
  else none

/-- Threads the selected instructions, and counts those that change. -/
def thread (select : Opcode → Bool) (code : Code) : Code × Nat :=
  let table := labelTable code
  let threaded := code.map fun i => (i, threadedTarget? code table select i)
  (threaded.map fun (i, t?) => (t?.map i.setLabel).getD i, threaded.countP fun (_, t?) => t?.isSome)

/-- Threads jumps. -/
def threadJumps (code : Code) : Code × Nat :=
  thread (· = .j) code

/-- Threads branches. Their labels delimit the arms of conditionals, so this comes after every pass
that follows arms. -/
def threadBranches (code : Code) : Code × Nat :=
  thread Opcode.isBranch code

end ClosureCodegen
