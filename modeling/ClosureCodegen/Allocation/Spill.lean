import ClosureCodegen.Code.Effects

/-!
# Spilling

A spilled variable lives in a slot of the stack frame that is named after it.  Every instruction
that defines the variable is followed by a store to the slot.  Every instruction that reads it is
preceded by a load into a fresh temporary, which the instruction reads instead.  Between the two
the variable occupies a register only for an instant, so it and the temporaries are barred from
being spilled again: that would gain nothing.
-/

namespace ClosureCodegen

/-- What earlier spills leave behind. -/
structure SpillState where
  /-- The number of temporaries made so far. -/
  reloads : Nat := 0
  /-- Registers that must not be spilled. -/
  barred : List Reg := []
  deriving Repr

namespace SpillState

def barredNames (s : SpillState) (cls : RegClass) : List String :=
  (s.barred.filter fun r => r.cls = cls).map Reg.name

end SpillState

/-- The temporary with a number that stands for a spilled variable. -/
def reloadTemp (n : Nat) (cls : RegClass) : Reg :=
  ⟨"%reload." ++ Decimal.natText n, cls⟩

/-- Spills a variable in one instruction. The new state counts and bars the temporary, if one was
needed. -/
def spillInstr (var : Reg) (s : SpillState) (i : Instr) : Code × SpillState :=
  let slot := Operand.label var.name
  let after := if var ∈ i.trackedDefs then [⟨.spillStore, [var, slot]⟩] else []
  if var ∈ i.uses then
    let temp := reloadTemp (s.reloads + 1) var.cls
    let renamed := i.mapUses fun r => if r = var then temp else r
    (⟨.spillLoad, [temp, slot]⟩ :: renamed :: after,
      { reloads := s.reloads + 1, barred := temp :: s.barred })
  else (i :: after, s)

/-- Spills a variable in a list of instructions. -/
def spillCode (var : Reg) (s : SpillState) : Code → Code × SpillState
  | [] => ([], s)
  | i :: code =>
    let (head, s) := spillInstr var s i
    let (tail, s) := spillCode var s code
    (head ++ tail, s)

/-- Spills a variable and bars it from being spilled again. -/
def spill (s : SpillState) (code : Code) (var : Reg) : Code × SpillState :=
  spillCode var { s with barred := var :: s.barred } code

end ClosureCodegen
