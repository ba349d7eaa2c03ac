import ClosureCodegen.Code.Effects

/-!
# Load-use scheduling

A load stalls if the next instruction reads what it loads.  The load is then moved in front of the
instruction before it, or the reader behind the instruction after it, provided that the two commute.
Control flow, calls, stores and labels are never moved and never crossed.
-/

namespace ClosureCodegen

/-- Whether an instruction has to stay where it is. -/
def Opcode.isBarrier (op : Opcode) : Bool :=
  op.isBranch || op.isPseudo ||
    match op with
    | .j | .jalr | .call | .ret | .nop | .label | .comment => true
    | .sw | .fsw | .swi | .fswi | .vsw => true
    | _ => false

/-- Whether two lists name a register in common, other than the zero register. -/
def overlaps (rs ss : List Reg) : Bool :=
  rs.any fun r => !r.names .zero && ss.any fun s => r.name == s.name

/-- Whether two adjacent instructions may change places. -/
def independent (first second : Instr) : Bool :=
  !(overlaps first.defs second.defs || overlaps first.uses second.defs ||
    overlaps first.defs second.uses)

/-- Whether an instruction has to wait for the load in front of it. -/
def stalls (load reader : Instr) : Bool :=
  load.op.isLoad && overlaps load.defs reader.uses

/-- A scheduled body, and the number of exchanges that were made. -/
structure Schedule where
  code : Code
  swaps : Nat
  deriving Repr

/-- Schedules the instructions of `rest` behind those of `done`, which stand in reverse order. -/
def scheduleFrom (done : Code) (swaps : Nat) (rest : Code) : Schedule :=
  match rest with
  | load :: reader :: rest =>
    if load.op.isBarrier || reader.op.isBarrier || !stalls load reader then
      scheduleFrom (load :: done) swaps (reader :: rest)
    else
      match done, rest with
      | previous :: earlier, rest =>
        if !previous.op.isBarrier && independent previous load then
          scheduleFrom (previous :: load :: earlier) (swaps + 1) (reader :: rest)
        else
          match rest with
          | following :: later =>
            if !following.op.isBarrier && independent reader following then
              scheduleFrom (load :: previous :: earlier) (swaps + 1) (following :: reader :: later)
            else scheduleFrom (load :: previous :: earlier) swaps (reader :: following :: later)
          | [] => scheduleFrom (load :: previous :: earlier) swaps [reader]
      | [], following :: later =>
        if !following.op.isBarrier && independent reader following then
          scheduleFrom [load] (swaps + 1) (following :: reader :: later)
        else scheduleFrom [load] swaps (reader :: following :: later)
      | [], [] => scheduleFrom [load] swaps [reader]
  | rest => ⟨done.reverse ++ rest, swaps⟩
termination_by rest.length

/-- Separates loads from the instructions that read what they load. -/
def scheduleLoads (code : Code) : Schedule :=
  scheduleFrom [] 0 code

end ClosureCodegen
