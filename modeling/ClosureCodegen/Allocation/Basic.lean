import ClosureCodegen.Allocation.DeadDefinition
import ClosureCodegen.Allocation.Spill
import ClosureCodegen.Coloring.Assignment
import ClosureCodegen.Machine.Convention

/-!
# Register allocation

Allocation works in rounds.  A round solves liveness and colours the interference graph of each
class.  If a class asks for a spill, the variable is spilled and the next round starts.  Once both
classes are coloured, dead definitions are deleted and every variable is replaced by its register.

A parameter that the body never reads would be dead as soon as it arrives and could share its
register with the next one.  A marker that uses it keeps the registers of all parameters apart.
-/

namespace ClosureCodegen

/-- An allocated body, with the numbers that were needed for it. -/
structure Allocation where
  code : Code
  rounds : Nat
  spilledInts : Nat
  spilledFloats : Nat
  deriving Repr

/-- Puts a marker behind the parameters for every parameter that the body never reads. -/
def markUnusedParams (code : Code) : Code :=
  let isParam := fun i : Instr => i.op = .param
  let front := code.takeWhile fun i => !isParam i
  let params := (code.drop front.length).takeWhile isParam
  let used := usedAnywhere code
  let markers := (params.filterMap fun i => i.reg? 0).filterMap fun r =>
    if r ∈ used then none else some (⟨.unusedParam, [r]⟩ : Instr)
  front ++ params ++ markers ++ code.drop (front.length + params.length)

/-- The colouring of both classes in one round. -/
structure RoundResult where
  /-- The number of nodes of both graphs. -/
  nodes : Nat
  registers : List (Reg × PhysReg)
  /-- Variables that must be spilled first, at most one of each class. -/
  spills : List Reg
  deriving DecidableEq, Repr

/-- Colours the variables of a class in one round. -/
def colorClass (visit : UseVisit) (order : AllocationOrder) (s : SpillState) (l : Liveness)
    (cls : RegClass) : Outcome RoundResult := do
  let g := InterferenceGraph.ofLiveness visit l cls
  match ← g.color (order.ofClass cls) (s.barredNames cls) with
  | .assigned registers => return ⟨g.size, registers.map fun (x, p) => (⟨x, cls⟩, p), []⟩
  | .spill var => return ⟨g.size, [], [⟨var, cls⟩]⟩

/-- Colours both classes of a body, integers first. -/
def colorRound (visit : UseVisit) (order : AllocationOrder) (s : SpillState) (code : Code) :
    Outcome RoundResult := do
  let l ← Liveness.ofCode code
  let ints ← colorClass visit order s l .int
  let floats ← colorClass visit order s l .float
  return ⟨ints.nodes + floats.nodes, ints.registers ++ floats.registers,
    ints.spills ++ floats.spills⟩

/-- Replaces every register without a fixed role by the one assigned to it. -/
def renameOperand (registers : List (Reg × PhysReg)) : Operand → Outcome Operand
  | .reg r =>
    if r.isReserved then .ok (.reg r)
    else
      match registers.lookup r with
      | some p => .ok (.reg ⟨p.name, r.cls⟩)
      | none => .error (.unassignedRegister r.name)
  | o => .ok o

def renameInstr (registers : List (Reg × PhysReg)) (i : Instr) : Outcome Instr := do
  return { i with operands := ← i.operands.mapM (renameOperand registers) }

/-- Spills the variables a round asked for, in order. -/
def spillAll (s : SpillState) (code : Code) (vars : List Reg) : Code × SpillState :=
  vars.foldl (fun (code, s) var => spill s code var) (code, s)

/-- Rounds of allocation from a given one on, at most `fuel` of them. The visiting order may differ
from round to round. -/
def allocateRounds (visit : Nat → UseVisit) (order : AllocationOrder) :
    Nat → Nat → SpillState → List Reg → Code → Outcome Allocation
  | 0, round, _, _, _ => .error (.roundLimit round)
  | fuel + 1, round, s, spilled, code => do
    let result ← colorRound (visit round) order s code
    if result.spills.isEmpty then
      let code ← (removeDeadDefinitions code).mapM (renameInstr result.registers)
      return {
        code
        rounds := round
        spilledInts := spilled.countP fun r => r.cls = .int
        spilledFloats := spilled.countP fun r => r.cls = .float }
    else if result.nodes + s.reloads + 1 < round then .error (.roundLimit round)
    else
      let (code, s) := spillAll s code result.spills
      allocateRounds visit order fuel (round + 1) s (spilled ++ result.spills) code

/-- Allocates registers for a body, visiting uses in given orders. Every round but the last spills a
register of the body that was not spilled before, so the number of register operands bounds them. -/
def allocateVisiting (visit : Nat → UseVisit) (order : AllocationOrder) (code : Code) :
    Outcome Allocation :=
  let marked := markUnusedParams code
  allocateRounds visit order ((marked.flatMap Instr.regs).length + 2) 1 {} [] marked

/-- Allocates registers for a body. -/
def allocate (order : AllocationOrder) (code : Code) : Outcome Allocation :=
  allocateVisiting (fun _ => UseVisit.byName) order code

end ClosureCodegen
