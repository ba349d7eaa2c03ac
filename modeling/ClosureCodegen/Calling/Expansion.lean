import ClosureCodegen.Calling.Clobber
import ClosureCodegen.Calling.Frame
import ClosureCodegen.Calling.Site
import ClosureCodegen.Calling.Slots
import ClosureCodegen.Code.Conditional
import ClosureCodegen.Liveness.Solution

/-!
# Calling-convention expansion

Expansion replaces every pseudo-operation of an allocated body by machine code.

* Spill traffic becomes accesses to the slots of the frame.  A slot can be read only if every path
  to the load has filled it: both arms of a conditional are expanded from the state at the branch,
  and their states meet behind it.
* A call first steps over the filled slots and saves the caller-saved registers that are live
  behind it and that the callee or the passing of arguments may overwrite.  Arguments go to their
  registers by way of the stack, so that none is overwritten before it is read.  The return
  address is saved around the transfer.  The result is relayed through a scratch register, since a
  reload may need the result register.
* A tail call passes its arguments, undoes the frame and jumps.
* A function sets its frame up behind its entry label and undoes it before every return.
-/

namespace ClosureCodegen

/-- What the expansion of a body depends on. -/
structure ExpansionContext where
  code : Array Instr
  liveOut : Nat → LiveSet
  labels : LabelTable
  layout : SlotLayout
  frame? : Option Frame
  clobbers : ClobberTable

/-- Undoes the frame, if there is one. -/
def ExpansionContext.leave (ctx : ExpansionContext) : Code :=
  match ctx.frame? with
  | some f => f.epilogue
  | none => []

/-- The moves a call needs, the last argument first. An argument that is in its register stays. -/
def argumentMoves (args : List Reg) (targets : List PhysReg) : List (Reg × PhysReg) :=
  (args.zip targets).reverse.filter fun (a, t) => !a.names t

/-- Passes arguments by way of the words below the stack pointer. -/
def passArguments (args : List Reg) (targets : List PhysReg) : Code :=
  let moves := (argumentMoves args targets).zipIdx
  (moves.map fun ((a, _), k) => Instr.store stackReg a (Word.below k)) ++
    moves.map fun ((_, t), k) => Instr.load (.ofPhys t) stackReg (Word.below k)

/-- Loads the code address of a closure and passes the closure itself. -/
def enterClosure : CallTarget → Code
  | .direct _ => []
  | .closure c => [.load (.ofPhys .scratch) c 0, .move (.ofPhys .closure) c]

/-- Moves the stack pointer, unless by nothing. -/
def stepStack (delta : Word) : Code :=
  if delta = 0 then [] else [.moveStack delta]

/-- The instruction that calls a target. -/
def transfer : CallTarget → Instr
  | .direct l => ⟨.call, [.label l]⟩
  | .closure _ => ⟨.jalr, [Reg.ofPhys .scratch]⟩

/-- The instruction that goes to a target for good. -/
def tailTransfer : CallTarget → Instr
  | .direct l => .jump l
  | .closure _ => ⟨.jalr, [Reg.ofPhys .zero, Reg.ofPhys .scratch, (0 : Word)]⟩

/-- The live registers that a call overwrites. -/
def savedAcross (clobbers : ClobberTable) (site : CallSite) (targets : List PhysReg)
    (live : LiveSet) : List PhysReg :=
  let overwritten :=
    match site.target with
    | .direct l => clobbers.clobbers l
    | .closure _ => RegSet.callerSaved
  let saved := (overwritten.union (RegSet.ofList targets)).inter live.phys
  match site.dest?.bind Reg.phys? with
  | some d => (saved.erase d).toList
  | none => saved.toList

/-- The code of a call, given the bytes of filled slots below the stack pointer. -/
def callCode (site : CallSite) (height : Word) (targets saved : List PhysReg) : Code :=
  let ra := Reg.ofPhys .returnAddress
  let saveSize := Word.ofCount saved.length
  let relayed := match site.dest? with
    | some d => [Instr.move (.ofPhys (.relay d.cls)) (.ofPhys (.result d.cls))]
    | none => []
  let delivered := match site.dest? with
    | some d => [Instr.move d (.ofPhys (.relay d.cls))]
    | none => []
  stepStack (-height) ++ Frame.stores saved ++ stepStack (-saveSize) ++
    enterClosure site.target ++ passArguments site.args targets ++
    [.store stackReg ra (Word.below 0), .moveStack (-Word.size), transfer site.target,
      .moveStack Word.size, .load ra stackReg (Word.below 0)] ++
    relayed ++ stepStack saveSize ++ Frame.loads saved ++ stepStack height ++ delivered

def slotBytes (stack : SlotState) : Outcome Word := do
  let bytes ← (Word.mul? (← stack.height) Word.size : Except Fault Word)
  -- The stack pointer moves by the negation.
  let _ ← (Word.neg? bytes : Except Fault Word)
  return bytes

/-- Expands a call. -/
def expandCall (ctx : ExpansionContext) (position : Nat) (i : Instr) (stack : SlotState) :
    Outcome Code := do
  let site ← CallSite.ofInstr i
  let height ← slotBytes stack
  let targets ← assignArgs site.target.name site.args
  let saved := savedAcross ctx.clobbers site targets (ctx.liveOut position)
  return callCode site height targets saved

/-- Expands a tail call. -/
def expandTailCall (ctx : ExpansionContext) (i : Instr) : Outcome Code := do
  let site ← CallSite.ofInstr i
  let targets ← assignArgs site.target.name site.args
  return enterClosure site.target ++ passArguments site.args targets ++ ctx.leave ++
    [tailTransfer site.target]

/-- The register and the slot of spill traffic. -/
def ExpansionContext.slot (ctx : ExpansionContext) (i : Instr) : Outcome (Reg × String × Nat) :=
  match i.reg? 0, i.labelAt? 1 with
  | some r, some slot =>
    match ctx.layout.position? slot with
    | some p => .ok (r, slot, p)
    | none => .error (.spillSlotUnavailable slot)
  | _, _ => .error (.malformedInstruction i .expansion)

/-- Expands one instruction, given the slots that are filled in front of it. -/
def expandInstr (ctx : ExpansionContext) (position : Nat) (i : Instr) (stack : SlotState) :
    Outcome (Code × SlotState) :=
  match i.op with
  | .spillStore => do
    let (r, _, p) ← ctx.slot i
    return ([.store stackReg r (← SlotLayout.checkedOffset p)], stack.fill p)
  | .spillLoad => do
    let (r, slot, p) ← ctx.slot i
    if stack.isFilled p then return ([.load r stackReg (← SlotLayout.checkedOffset p)], stack)
    else throw (.spillSlotUnavailable (assemblerName slot))
  | .param | .unusedParam => .ok ([], stack)
  | .captured =>
    match i.reg? 0, i.imm? 1 with
    | some r, some offset => .ok ([.load r (.ofPhys .closure) offset], stack)
    | _, _ => .error (.malformedInstruction i .expansion)
  | .returnValue =>
    let deliver := match i.reg? 0 with
      | some r => [Instr.move (.ofPhys (.result r.cls)) r]
      | none => []
    .ok (deliver ++ ctx.leave ++ [⟨.ret, []⟩], stack)
  | .returnUnit => .ok (ctx.leave ++ [⟨.ret, []⟩], stack)
  | .callDirect | .callDirectResult | .callClosure | .callClosureResult => do
    return (← expandCall ctx position i stack, stack)
  | .tailDirect | .tailClosure => do
    return (← expandTailCall ctx i, stack)
  | _ => .ok ([i], stack)

/-- The position of a label that the code must have. -/
def ExpansionContext.position (ctx : ExpansionContext) (l : String) : Outcome Nat :=
  match ctx.labels.position? l with
  | some p => .ok p
  | none => .error (.missingLabel l .expansion)

/-- Expands the instructions from `start` up to `stop`, given the slots that are filled in front of
them. -/
def expandRange (ctx : ExpansionContext) (start stop : Nat) (stack : SlotState) :
    Outcome (Code × SlotState) :=
  if _h : start < stop then
    match ctx.code[start]? with
    | none => .ok ([], stack)
    | some i =>
      match i.arms? with
      | some arms => do
        let taken ← ctx.position arms.takenLabel
        let join ← ctx.position arms.endLabel
        if _h : start < taken ∧ taken < join ∧ join < stop then
          let (first, s) ← expandRange ctx (start + 1) taken stack
          let (second, t) ← expandRange ctx taken join stack
          let (rest, u) ← expandRange ctx join stop (s.meet t)
          return (i :: (first ++ second ++ rest), u)
        else throw (.missingLabel arms.endLabel .expansion)
      | none => do
        let (head, s) ← expandInstr ctx start i stack
        let (rest, t) ← expandRange ctx (start + 1) stop s
        return (head ++ rest, t)
  else .ok ([], stack)
termination_by stop - start

/-- Expands a body from given filled slots. A function has a frame and the top-level body has
none. -/
def expand (frame? : Option Frame) (clobbers : ClobberTable) (stack : SlotState) (code : Code) :
    Outcome (Code × SlotState) := do
  let l ← Liveness.ofCode code
  let ctx : ExpansionContext :=
    { code := code.toArray
      liveOut := l.liveOut
      labels := labelTable code
      layout := SlotLayout.ofCode code
      frame?
      clobbers }
  match frame?, code with
  | some f, i :: _ =>
    if i.isLabel then
      let (body, t) ← expandRange ctx 1 code.length stack
      return (i :: (f.prologue ++ body), t)
    else
      let (body, t) ← expandRange ctx 0 code.length stack
      return (f.prologue ++ body, t)
  | some f, [] => return (f.prologue, stack)
  | none, _ => expandRange ctx 0 code.length stack

end ClosureCodegen
