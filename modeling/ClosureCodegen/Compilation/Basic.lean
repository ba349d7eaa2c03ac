import ClosureCodegen.Allocation.Basic
import ClosureCodegen.Calling.Expansion
import ClosureCodegen.Calling.Intrinsic
import ClosureCodegen.Calling.TailCall
import ClosureCodegen.Compilation.Session
import ClosureCodegen.Lowering.AddressFolding
import ClosureCodegen.Lowering.Basic
import ClosureCodegen.Optimizer.Basic
import ClosureCodegen.Program.ConstantRegister

/-!
# Compiling programs

Each definition, and then the top-level expression, is lowered, cleaned up, given registers, and
freed of tail calls and calls of intrinsics.  A function can only publish the registers it
overwrites once it has come so far, and a caller asks its callees for them, so all bodies go this
far before the first one is expanded.  Then each body gets its stack frame, is expanded and
optimized, and its text goes to the listing behind the builtin routines.
-/

namespace ClosureCodegen

/-- What a compilation is asked to do. -/
structure Options extends OptimizerOptions where
  /-- Whether operands of array accesses may name constant registers. -/
  propagateArrays : Bool := false
  /-- Whether the listing contains the builtin routines. -/
  emitBuiltins : Bool := true
  deriving DecidableEq, Repr

/-- A body with registers, before calls are expanded. -/
structure AllocatedBody where
  name : String
  code : Code
  /-- Whether the body is that of a function, and not the top-level one. -/
  isFunction : Bool
  deriving DecidableEq, Repr

/-- The state of a compilation. -/
structure CompileState extends Session where
  lowering : LowerState := {}
  deriving Repr

/-- A step of a compilation. -/
abbrev Compile := EStateM Failure CompileState

namespace Compile

variable {α : Type}

/-- A step that does not look at the state. -/
def ofOutcome (x : Outcome α) : Compile α := fun s =>
  match x with
  | .ok a => .ok a s
  | .error e => .error e s

/-- A step of lowering as one of the compilation. -/
def ofLower (x : Lower α) : Compile α := fun s =>
  match x s.lowering with
  | .ok a l => .ok a { s with lowering := l }
  | .error e l => .error e { s with lowering := l }

/-- Changes the session. -/
def note (f : Session → Session) : Compile Unit :=
  modify fun s => { s with toSession := f s.toSession }

end Compile

open Compile

/-- The stages from address folding to intrinsics. -/
def allocateBody (name : String) (code : Code) (isFunction : Bool) : Compile AllocatedBody := do
  note (.enter name)
  let code := deleteNops (peephole (foldAddresses code))
  let order := if isFunction then AllocationOrder.function else AllocationOrder.topLevel
  let allocation ← ofOutcome (allocate order code)
  note (.recordAllocation allocation.rounds allocation.spilledInts allocation.spilledFloats)
  let code ←
    if isFunction then ofOutcome (assignParams name allocation.code) else pure allocation.code
  let (code, tailCalls) ← ofOutcome (makeTailCalls code)
  note (.recordTailCalls tailCalls)
  let (code, inlined) := inlineIntrinsics code
  inlined.forM fun callee => note (.recordInlined callee)
  return ⟨name, code, isFunction⟩

/-- The frame of a body. The top-level body returns to nobody and needs none. -/
def AllocatedBody.frame? (b : AllocatedBody) : Outcome (Option Frame) := do
  if b.isFunction then return some (.ofTouched (← touchedRegisters b.code)) else return none

/-- The stages from expansion to the end. -/
def finishBody (options : OptimizerOptions) (clobbers : ClobberTable) (b : AllocatedBody) :
    Compile Code := do
  note (.enter b.name)
  let frame? ← ofOutcome b.frame?
  let (expanded, _) ← ofOutcome (expand frame? clobbers .empty b.code)
  let v ← ofOutcome (optimize options expanded)
  note (.recordVectors v.formed)
  note (.recordCompiled b.name v.code.length)
  return v.code

/-- Lowers and allocates a function. -/
def allocateDefinition (options : Options) (d : Definition) : Compile AllocatedBody := do
  let code ← ofLower (d.propagateConstants options.propagateArrays).lower
  allocateBody d.name code true

/-- Lowers and allocates the top-level body. -/
def allocateTopLevel (options : Options) (p : Program) : Compile AllocatedBody := do
  let body := p.body.propagateConstants options.propagateArrays
  let code ← ofLower (lowerTopLevel body p.heapOffset)
  allocateBody topLevelName code false

/-- What callers know of the builtin routines and of the functions of a program. -/
def publishBodies (builtins : BuiltinTable) (bodies : List AllocatedBody) : ClobberTable :=
  (bodies.filter AllocatedBody.isFunction).foldl (fun t b => t.publish b.name b.code)
    (.ofBuiltins builtins)

def codeText (code : Code) : String :=
  String.join (code.map fun i => i.text ++ "\n")

/-- The text of a compiled program. -/
def listing (options : Options) (builtins : BuiltinTable) (bodies : List Code) : String :=
  ".globl main\n\n.text\n\n" ++
    (if options.emitBuiltins then String.join (builtins.map fun b => b.text ++ "\n") else "") ++
    String.join (bodies.map codeText) ++ "\n\tebreak\n"

/-- Compiles a program: all bodies are allocated before the first one is expanded. -/
def compileProgram (options : Options) (builtins : BuiltinTable) (p : Program) :
    Compile String := do
  let functions ← p.definitions.mapM (allocateDefinition options)
  let bodies := functions ++ [← allocateTopLevel options p]
  let clobbers := publishBodies builtins bodies
  let finished ← bodies.mapM (finishBody options.toOptimizerOptions clobbers)
  return listing options builtins finished

/-- What a compilation ends with: the listing or a failure, and the session. -/
structure Compilation where
  result : Outcome String
  session : Session

/-- Compiles a program in a session of its own. -/
def Program.compile (p : Program) (options : Options) (builtins : BuiltinTable) : Compilation :=
  match compileProgram options builtins p {} with
  | .ok text s => ⟨.ok text, s.toSession⟩
  | .error e s => ⟨.error e, s.toSession⟩

end ClosureCodegen
