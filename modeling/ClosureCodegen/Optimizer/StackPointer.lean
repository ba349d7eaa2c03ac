import ClosureCodegen.Code.Conditional

/-!
# Stack-pointer coalescing

An adjustment of the stack pointer need not be carried out at once.  It is absorbed into a
*pending* displacement, and accesses relative to the stack pointer have the displacement added to
their offsets instead.  The displacement is carried out as one adjustment in front of anything
that sees the stack pointer itself: a call, an indirect jump, a return, a jump, or a branch that
belongs to no conditional.

The arms of a conditional are treated separately, both from the displacement at the branch.  Each
carries out its own before it ends, so nothing is pending where they meet.
-/

namespace ClosureCodegen

/-- How far an instruction moves the stack pointer. -/
def Instr.stackAdjustment? (i : Instr) : Option Word :=
  if i.op = .addi && i.regNames 0 .stackPointer && i.regNames 1 .stackPointer then i.imm? 2
  else none

/-- The operand positions of the base and the offset of an access. -/
def Opcode.addressing? : Opcode → Option (Nat × Nat)
  | .lw | .flw => some (1, 2)
  | .sw | .fsw => some (0, 2)
  | .vlw | .vsw => some (0, 5)
  | _ => none

/-- The position of the offset of an access relative to the stack pointer. -/
def Instr.stackOffset? (i : Instr) : Option Nat :=
  i.op.addressing?.bind fun (base, offset) =>
    if i.regNames base .stackPointer then some offset else none

/-- Whether control leaves the straight line and needs the stack pointer itself. -/
def Opcode.seesStack : Opcode → Bool
  | .call | .jalr | .ret | .j => true
  | _ => false

/-- Adds a displacement to the offset at a position. -/
def Instr.displace (i : Instr) (k : Nat) (pending : Word) : Outcome Instr := do
  match i.imm? k with
  | some offset =>
    return i.setOperand k (.imm (← (Word.add? offset pending : Except Fault Word)))
  | none => return i

/-- Carries out a pending displacement. -/
def settleStack (pending : Word) : Code :=
  if pending = 0 then [] else [.moveStack pending]

/-- The positions of the labels of a conditional whose arms follow a branch in order. -/
def armPositions? (table : LabelTable) (i : Instr) (position : Nat) : Option (Nat × Nat) := do
  let arms ← i.arms?
  let taken ← table.position? arms.takenLabel
  let join ← table.position? arms.endLabel
  if position < taken ∧ taken < join then return (taken, join) else none

theorem armPositions?_lt {table : LabelTable} {i : Instr} {position taken join : Nat}
    (h : armPositions? table i position = some (taken, join)) :
    position < taken ∧ taken < join := by
  simp only [armPositions?, Option.bind_eq_bind, Option.bind_eq_some_iff] at h
  obtain ⟨_, _, _, _, _, _, h⟩ := h
  split at h
  · next hlt => cases h; exact hlt
  · cases h

/-- A coalesced part of a body, and the number of adjustments that were absorbed. -/
structure Coalesced where
  code : Code
  absorbed : Nat
  deriving Repr

namespace Coalesced

def prepend (front : Code) (c : Coalesced) : Coalesced :=
  ⟨front ++ c.code, c.absorbed⟩

def append (c d : Coalesced) : Coalesced :=
  ⟨c.code ++ d.code, c.absorbed + d.absorbed⟩

end Coalesced

/-- Coalesces the instructions from `start` up to `stop`, with a displacement pending in front of
them. -/
def coalesceRange (code : Array Instr) (table : LabelTable) (start stop : Nat) (pending : Word) :
    Outcome Coalesced :=
  if _h : start < stop then
    match code[start]? with
    | none => .ok ⟨settleStack pending, 0⟩
    | some i =>
      match i.stackAdjustment? with
      | some k => do
        let sum ← (Word.add? pending k : Except Fault Word)
        let rest ← coalesceRange code table (start + 1) stop sum
        return ⟨rest.code, rest.absorbed + 1⟩
      | none =>
        match i.stackOffset? with
        | some k => do
          let access ← i.displace k pending
          let rest ← coalesceRange code table (start + 1) stop pending
          return rest.prepend [access]
        | none =>
          match _hp : armPositions? table i start with
          | some (taken, join) =>
            if _hj : join < stop then do
              let first ← coalesceRange code table (start + 1) taken pending
              let second ← coalesceRange code table taken join pending
              let rest ← coalesceRange code table join stop 0
              return ((first.append second).append rest).prepend [i]
            else throw (.missingLabel i.text .stackCoalescing)
          | none =>
            if i.op.isBranch || i.op.seesStack then do
              let rest ← coalesceRange code table (start + 1) stop 0
              return rest.prepend (settleStack pending ++ [i])
            else do
              let rest ← coalesceRange code table (start + 1) stop pending
              return rest.prepend [i]
  else .ok ⟨settleStack pending, 0⟩
termination_by stop - start
decreasing_by
  all_goals
    try have arms := armPositions?_lt _hp
    omega

/-- Joins movements of the stack pointer. -/
def coalesceStack (code : Code) : Outcome Coalesced :=
  coalesceRange code.toArray (labelTable code) 0 code.length 0

end ClosureCodegen
