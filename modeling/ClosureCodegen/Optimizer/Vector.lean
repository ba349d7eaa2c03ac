import ClosureCodegen.Failure

/-!
# Vector accesses

The target loads and stores four consecutive words with one instruction.  A *run* is a sequence of
two to four scalar accesses of one opcode and one base whose offsets go up or down by one word
each.  It becomes one vector access: lane `k` stands for the word at the offset plus `k` words,
and the mask has a bit for each lane that takes part.  The other lanes name the zero register.

A descending run fills its lanes from the last one down, which leaves idle lanes in front.
Alignment then moves the lanes in use to the front and the offset up by as many words.
-/

namespace ClosureCodegen

def laneCount : Nat := 4

/-- A load or a store of a word. -/
structure ScalarAccess where
  op : Opcode
  base : Reg
  value : Reg
  offset : Word
  deriving DecidableEq, Repr

/-- The access that an instruction makes. -/
def Instr.scalarAccess? (i : Instr) : Option ScalarAccess :=
  match i.op with
  | .lw | .flw => do return ⟨i.op, ← i.reg? 1, ← i.reg? 0, ← i.imm? 2⟩
  | .sw | .fsw => do return ⟨i.op, ← i.reg? 0, ← i.reg? 1, ← i.imm? 2⟩
  | _ => none

/-- Whether an access can follow the accesses of a run, of which `last` is the latest. A load must
not overwrite the base or a register that the run has loaded; a store of the base ends the run
too. -/
def extendsRun (run : List ScalarAccess) (last next : ScalarAccess) (step : Word) :
    Outcome Bool := do
  if next.op ≠ last.op ∨ next.base.name ≠ last.base.name then return false
  if next.offset ≠ (← (Word.add? last.offset step : Except Fault Word)) then return false
  if next.value.name = last.base.name then return false
  return !(next.op.isScalarLoad && run.any fun a => a.value.name == next.value.name)

/-- The longest run with a step that goes on from `run` with at most `room` of the instructions. -/
def growRun (step : Word) :
    Nat → List ScalarAccess → ScalarAccess → Code → Outcome (List ScalarAccess)
  | 0, run, _, _ => .ok run
  | _ + 1, run, _, [] => .ok run
  | room + 1, run, last, i :: code =>
    match i.scalarAccess? with
    | none => .ok run
    | some next => do
      if ← extendsRun run last next step then
        growRun step room (run ++ [next]) next code
      else return run

/-- A run of at least two accesses. -/
structure Run where
  accesses : List ScalarAccess
  descending : Bool
  deriving Repr

/-- The longest run at the front of a body. An ascending run is preferred. -/
def findRun? (code : Code) : Outcome (Option Run) :=
  match code with
  | [] => .ok none
  | i :: rest =>
    match i.scalarAccess? with
    | none => .ok none
    | some first =>
      if first.value.name = first.base.name then .ok none
      else do
        let up ← growRun Word.size (laneCount - 1) [first] first rest
        if 2 ≤ up.length then return some ⟨up, false⟩
        let down ← growRun (-Word.size) (laneCount - 1) [first] first rest
        if 2 ≤ down.length then return some ⟨down, true⟩
        return none

def leadingMask (n : Nat) : BitVec 8 := BitVec.ofNat 8 (1 <<< n - 1)

def trailingMask (n : Nat) : BitVec 8 := leadingMask n <<< (laneCount - n)

/-- The vector access for a run of scalar ones. -/
def Run.vector (run : Run) (first : ScalarAccess) : Outcome Instr := do
  let values := run.accesses.map ScalarAccess.value
  let idle := List.replicate (laneCount - values.length) (Reg.ofPhys .zero)
  let lanes := if run.descending then (values ++ idle).reverse else values ++ idle
  let mask := if run.descending then trailingMask values.length else leadingMask values.length
  let offset ←
    if run.descending then
      (Word.sub? first.offset (Word.ofCount (laneCount - 1)) : Except Fault Word)
    else pure first.offset
  let op := if first.op.isScalarLoad then .vlw else .vsw
  return ⟨op, Operand.reg first.base :: lanes.map Operand.reg ++ [.imm offset, .mask mask]⟩

/-- A body with vector accesses, and how many were formed. -/
structure Vectorized where
  code : Code
  formed : Nat
  deriving Repr

/-- Replaces runs by vector accesses, from the front. -/
def vectorize (code : Code) : Outcome Vectorized :=
  match code with
  | [] => .ok ⟨[], 0⟩
  | i :: rest => do
    match ← findRun? (i :: rest) with
    | some run =>
      match run.accesses with
      | first :: later =>
        let access ← run.vector first
        let tail ← vectorize (rest.drop later.length)
        return ⟨access :: tail.code, tail.formed + 1⟩
      | [] =>
        let tail ← vectorize rest
        return ⟨i :: tail.code, tail.formed⟩
    | none =>
      let tail ← vectorize rest
      return ⟨i :: tail.code, tail.formed⟩
termination_by code.length
decreasing_by all_goals simp only [List.length_cons, List.length_drop]; omega

/-- The number of clear bits below the first set bit of a mask. -/
def idleLanes (mask : BitVec 8) : Nat :=
  ((List.range 8).takeWhile fun k => !mask.getLsbD k).length

/-- Moves the lanes in use of a vector access to the front. -/
def Instr.alignLanes (i : Instr) : Outcome Instr := do
  if i.op ≠ .vlw ∧ i.op ≠ .vsw then return i
  match i.operands with
  | [base, r₀, r₁, r₂, r₃, .imm offset, .mask mask] =>
    let shift := idleLanes mask
    if mask = 0 ∨ shift = 0 then return i
    if laneCount < shift then throw (.fault .laneRange)
    let lanes := [r₀, r₁, r₂, r₃].drop shift ++ List.replicate shift (.reg (.ofPhys .zero))
    let moved ← (Word.add? offset (Word.ofCount shift) : Except Fault Word)
    return { i with operands := base :: lanes ++ [.imm moved, .mask (mask >>> shift)] }
  | _ => return i

/-- Moves the lanes in use of every vector access to the front. -/
def alignVectors (code : Code) : Outcome Code :=
  code.mapM Instr.alignLanes

end ClosureCodegen
