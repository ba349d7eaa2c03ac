import ClosureCodegen.Calling.Builtin
import ClosureCodegen.Code.Instr

/-!
# Clobber sets

A caller need not save a register that its callee leaves alone.  For a builtin the overwritten
registers are listed.  For a compiled function they are known if it makes no call: then they are
among the registers it mentions, together with the register it returns its value in.  Of any other
callee nothing is known, and it is taken to overwrite every caller-saved register.
-/

namespace ClosureCodegen

/-- The callees whose overwritten registers are known. -/
structure ClobberTable where
  known : List (String × RegSet)
  deriving Repr

/-- Whether an instruction hands control to another function. -/
def Instr.callsOut (i : Instr) : Bool :=
  i.op.isCall || i.op = .call || i.op = .jalr

def isLeaf (code : Code) : Bool := !code.any Instr.callsOut

/-- The physical registers an instruction mentions and that have no fixed role, together with the
register it returns a value in. -/
def Instr.mentioned (i : Instr) : List PhysReg :=
  let operands := (i.regs.filter fun r => !r.isReserved).filterMap Reg.phys?
  if i.op = .returnValue then
    operands ++ ((i.reg? 0).map fun r => PhysReg.result r.cls).toList
  else operands

namespace ClobberTable

def empty : ClobberTable := ⟨[]⟩

def get? (t : ClobberTable) (callee : String) : Option RegSet := t.known.lookup callee

def erase (t : ClobberTable) (callee : String) : ClobberTable :=
  ⟨t.known.filter fun e => e.1 != callee⟩

/-- Records what a callee overwrites, in the place of what was known. -/
def insert (t : ClobberTable) (callee : String) (s : RegSet) : ClobberTable :=
  ⟨(callee, s) :: (t.erase callee).known⟩

def ofBuiltins (table : BuiltinTable) : ClobberTable :=
  table.foldl (fun t b => t.insert b.name b.clobbers) empty

/-- Records a compiled function. If it calls out, nothing is known of it. -/
def publish (t : ClobberTable) (name : String) (code : Code) : ClobberTable :=
  if isLeaf code then t.insert name (RegSet.ofList (code.flatMap Instr.mentioned))
  else t.erase name

/-- The registers that a call may change. -/
def clobbers (t : ClobberTable) (callee : String) : RegSet :=
  match t.get? callee with
  | some s => RegSet.callerSaved.inter s
  | none => RegSet.callerSaved

end ClobberTable
end ClosureCodegen
