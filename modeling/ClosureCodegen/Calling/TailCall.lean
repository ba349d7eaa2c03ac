import ClosureCodegen.Code.Flow

/-!
# Tail calls

A call is in tail position if control goes from it to a return of its result, or to a return
without a value, and executes nothing in between.  Labels, comments and empty instructions are
nothing, and an unconditional jump only continues elsewhere in the body.  Such a call becomes a
tail call, which lets the callee return to the caller's caller.  A call with a result gives up its
first operand for that, the register of the result, so it is a fault if it has no operands.
-/

namespace ClosureCodegen

/-- Whether control goes straight from the front of `rest` to a return of `result`, or to a return
without a value, by way of at most `budget` jumps. -/
def reachesReturn (code : Code) (table : LabelTable) (result : Option Reg) (budget : Nat)
    (rest : Code) : Bool :=
  match rest with
  | [] => false
  | i :: rest =>
    match i.op with
    | .label | .nop | .comment => reachesReturn code table result budget rest
    | .j =>
      match budget, i.label?.bind table.position? with
      | budget + 1, some p => reachesReturn code table result budget (code.drop (p + 1))
      | _, _ => false
    | .returnUnit => true
    | .returnValue => result.isSome && i.reg? 0 = result
    | _ => false
termination_by (budget, rest.length)

/-- The register that gets the result of a call. -/
def Instr.callResult? (i : Instr) : Option Reg :=
  match i.op with
  | .callDirectResult | .callClosureResult => i.reg? 0
  | _ => none

/-- The tail call to the target of a call. -/
def Instr.asTailCall? (i : Instr) : Option Instr :=
  match i.op with
  | .callDirect => some ⟨.tailDirect, i.operands⟩
  | .callClosure => some ⟨.tailClosure, i.operands⟩
  | .callDirectResult => some ⟨.tailDirect, i.operands.drop 1⟩
  | .callClosureResult => some ⟨.tailClosure, i.operands.drop 1⟩
  | _ => none

/-- Whether a call with a result lacks the operand that receives it. -/
def Instr.lacksResult (i : Instr) : Bool :=
  (i.op = .callDirectResult || i.op = .callClosureResult) && i.operands.isEmpty

/-- The tail call for the call at a position, if it is in tail position. A walk that jumps more
often than the body has instructions goes in circles. -/
def tailCallAt? (code : Code) (table : LabelTable) (i : Instr) (position : Nat) : Option Instr :=
  i.asTailCall?.filter fun _ =>
    reachesReturn code table i.callResult? code.length (code.drop (position + 1))

/-- Each instruction of a body with the tail call that takes its place, if there is one. -/
def markTailCalls (code : Code) : List (Instr × Option Instr) :=
  let table := labelTable code
  code.zipIdx.map fun (i, position) => (i, tailCallAt? code table i position)

/-- Turns the calls in tail position into tail calls, and counts them. -/
def makeTailCalls (code : Code) : Outcome (Code × Nat) :=
  let marked := markTailCalls code
  if marked.any fun (i, t?) => t?.isSome && i.lacksResult then .error (.fault .missingOperand)
  else .ok (marked.map fun (i, t?) => t?.getD i, marked.countP fun (_, t?) => t?.isSome)

end ClosureCodegen
