import ClosureCodegen.Code.Flow
import ClosureCodegen.Liveness.LiveSet
import ClosureCodegen.Machine.RegisterSet

/-!
# Liveness

A register is live behind an instruction if control can go from there to a use of it without
passing a definition.  The live sets are the least solution of the flow equations: behind an
instruction is live what is live in front of a successor, and in front of an instruction is live
what it uses, together with what is live behind it and not defined by it.  Labels are no steps,
and nothing is live behind them.

The solution is reached from empty sets by sweeps over the body from its last instruction to its
first.  Sets only grow, and there are only so many registers, so the sweeps come to rest;
`capacity` bounds their number.
-/

namespace ClosureCodegen

/-- The equations of liveness. -/
structure FlowEquations where
  defs : Array LiveSet
  uses : Array LiveSet
  next : Array (List Nat)
  labels : Array Bool

namespace FlowEquations

/-- The equations of a body, or the failure of its first branch without a target. -/
def ofCode (code : Code) : Outcome FlowEquations := do
  let succs ← successors code
  return {
    defs := (code.map fun i => LiveSet.ofList i.trackedDefs).toArray
    uses := (code.map fun i => LiveSet.ofList i.trackedUses).toArray
    next := succs.toArray
    labels := (code.map Instr.isLabel).toArray }

def size (eqs : FlowEquations) : Nat := eqs.labels.size

/-- What is live in front of an instruction, given what is live behind it. -/
def liveIn (eqs : FlowEquations) (out : Array LiveSet) (i : Nat) : LiveSet :=
  ((out.getD i ∅).diff (eqs.defs.getD i ∅)).union (eqs.uses.getD i ∅)

/-- Adds to what is live behind an instruction what is live in front of its successors. -/
def update (eqs : FlowEquations) (i : Nat) (out : Array LiveSet) : Array LiveSet :=
  if eqs.labels.getD i true then out
  else
    let incoming := (eqs.next.getD i []).map (eqs.liveIn out)
    out.setIfInBounds i (incoming.foldl LiveSet.union (out.getD i ∅))

/-- One update of every instruction, the last one first. -/
def sweep (eqs : FlowEquations) (out : Array LiveSet) : Array LiveSet :=
  (List.range eqs.size).foldr eqs.update out

/-- Sweeps until nothing changes, at most `fuel` times. -/
def settle (eqs : FlowEquations) : Nat → Array LiveSet → Array LiveSet
  | 0, out => out
  | fuel + 1, out =>
    let next := eqs.sweep out
    if next = out then out else settle eqs fuel next

/-- A bound on the sweeps that can change something: every change adds a register that is defined or
used somewhere to the set of an instruction. -/
def capacity (eqs : FlowEquations) : Nat :=
  let mentions := fun sets : Array LiveSet => (sets.toList.flatMap LiveSet.toList).length
  eqs.size * (mentions eqs.defs + mentions eqs.uses) + 1

/-- What is live behind each instruction. -/
def solve (eqs : FlowEquations) : Array LiveSet :=
  eqs.settle eqs.capacity (Array.replicate eqs.size ∅)

end FlowEquations

/-- The flow equations of a body with their solution. -/
structure Liveness where
  equations : FlowEquations
  /-- What is live behind each instruction. -/
  out : Array LiveSet

namespace Liveness

/-- The liveness of a body. -/
def ofCode (code : Code) : Outcome Liveness := do
  let eqs ← FlowEquations.ofCode code
  return ⟨eqs, eqs.solve⟩

def size (l : Liveness) : Nat := l.equations.size

/-- What is live behind a position. -/
def liveOut (l : Liveness) (i : Nat) : LiveSet := l.out.getD i ∅

def defs (l : Liveness) (i : Nat) : LiveSet := l.equations.defs.getD i ∅

def uses (l : Liveness) (i : Nat) : LiveSet := l.equations.uses.getD i ∅

/-- What is live in front of a position. -/
def liveIn (l : Liveness) (i : Nat) : LiveSet := l.equations.liveIn l.out i

/-- Everything that is live behind, defined by or used by some instruction. -/
def touched (l : Liveness) : LiveSet :=
  LiveSet.unions ((List.range l.size).flatMap fun i => [l.liveOut i, l.defs i, l.uses i])

end Liveness

/-- The registers of the machine in a set. -/
def LiveSet.phys (s : LiveSet) : RegSet :=
  RegSet.ofList (s.toList.filterMap Reg.phys?)

/-- The physical registers a body mentions. -/
def touchedRegisters (code : Code) : Outcome RegSet := do
  return (← Liveness.ofCode code).touched.phys

end ClosureCodegen
