import ClosureCodegen.Optimizer.LoadUse
import ClosureCodegen.Optimizer.Peephole
import ClosureCodegen.Optimizer.Shorthand
import ClosureCodegen.Optimizer.StackPointer
import ClosureCodegen.Optimizer.Threading
import ClosureCodegen.Optimizer.Vector

/-!
# The machine optimizer

An expanded body is first brought to plain instructions, so that every later pass sees one form.
Then come a fixed number of rounds of cleanup, stack-pointer coalescing, jump threading and vector
formation; a fixed number keeps the optimizer bounded even where two passes undo each other.
Branches are threaded once at the end, because coalescing still needs the labels that delimit the
arms of a conditional, and loads are scheduled last, on the final order of the instructions.
-/

namespace ClosureCodegen

/-- What the optimizer may do. -/
structure OptimizerOptions where
  /-- Rounds of the main loop. -/
  rounds : Nat := 10
  /-- Whether vector accesses are formed. -/
  vectorize : Bool := true
  /-- Whether loads are scheduled. -/
  scheduleLoads : Bool := true
  deriving DecidableEq, Repr

/-- The vector formation of one round: runs become vector accesses, which are then aligned. -/
def vectorRound (code : Code) : Outcome Vectorized := do
  let v ← vectorize code
  return { v with code := ← alignVectors v.code }

/-- One round of the main loop. The count is the number of vector accesses formed so far. -/
def optimizeRound (options : OptimizerOptions) (v : Vectorized) : Outcome Vectorized := do
  let coalesced ← coalesceStack (peephole v.code)
  let threaded := (threadJumps coalesced.code).1
  if options.vectorize then
    let w ← vectorRound threaded
    return ⟨deleteNops w.code, v.formed + w.formed⟩
  else return ⟨deleteNops threaded, v.formed⟩

/-- A number of rounds of the main loop. -/
def optimizeRounds (options : OptimizerOptions) : Nat → Vectorized → Outcome Vectorized
  | 0, v => .ok v
  | n + 1, v => do optimizeRounds options n (← optimizeRound options v)

/-- Optimizes an expanded body. The count is the number of vector accesses that were formed. -/
def optimize (options : OptimizerOptions) (code : Code) : Outcome Vectorized := do
  let v ← optimizeRounds options options.rounds ⟨expandShorthands code, 0⟩
  let threaded := (threadBranches v.code).1
  return ⟨if options.scheduleLoads then (scheduleLoads threaded).code else threaded, v.formed⟩

end ClosureCodegen
