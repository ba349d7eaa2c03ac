import ClosureCodegen.Code.Effects

/-!
# Folding array addresses

An array access is lowered to a shift of the index, an addition to the base, and an access at the
sum.  Arrays that are laid out in advance have a fixed base, and many an index is a constant.  If
both are known the access names its address; if only the base is known it becomes the offset of
the access; if only the index is known the shift and the addition become one addition of a
constant.

A value is known if its only definition in the body is a constant, the negation of a known value
or a copy of one.  A name that is defined more than once has a value that depends on the path, and
is never known.
-/

namespace ClosureCodegen

def Instr.definedName? (i : Instr) : Option String :=
  match i.op.effect with
  | .defineFirst | .defineAll => (i.reg? 0).map Reg.name
  | _ => none

/-- Whether a body defines a name more than once. -/
def isAmbiguous (code : Code) (name : String) : Bool :=
  1 < code.countP fun i => i.definedName? = some name

/-- Names with the constants that they hold. -/
abbrev KnownValues := List (String × Word)

namespace KnownValues

def get? (known : KnownValues) (r : Reg) : Option Word :=
  if r.names .zero then some 0
  else if r.names .one then some 1
  else if r.names .two then some 2
  else if r.names .three then some 3
  else known.lookup r.name

def valueOf? (known : KnownValues) (i : Instr) : Option Word :=
  match i.op with
  | .li => i.imm? 1
  | .neg => ((i.reg? 1).bind known.get?).map (- ·)
  | .mv => (i.reg? 1).bind known.get?
  | _ => none

def record (code : Code) (known : KnownValues) (i : Instr) : KnownValues :=
  match i.reg? 0 with
  | none => known
  | some d =>
    if d.isReserved || isAmbiguous code d.name then known
    else
      match known.valueOf? i with
      | some v => (d.name, v) :: known
      | none => known

end KnownValues

/-- The parts of a lowered array access. -/
structure ElementAccess where
  index : Reg
  scaled : Reg
  base : Reg
  address : Reg
  op : Opcode
  /-- The destination of a load, or the source of a store. -/
  value : Reg
  deriving DecidableEq, Repr

namespace ElementAccess

/-- The positions of the address and of the value among the operands of an access. -/
def positions? : Opcode → Option (Nat × Nat)
  | .lw | .flw => some (1, 0)
  | .sw | .fsw => some (0, 1)
  | _ => none

/-- The access that three instructions make. -/
def of? (shift sum access : Instr) : Option ElementAccess := do
  guard (shift.op = .slli ∧ shift.imm? 2 = some 2 ∧ sum.op = .add)
  let scaled ← shift.reg? 0
  let address ← sum.reg? 0
  guard (sum.reg? 2 = some scaled)
  let (addressAt, valueAt) ← positions? access.op
  guard (access.reg? addressAt = some address ∧ access.imm? 2 = some 0)
  return ⟨← shift.reg? 1, scaled, ← sum.reg? 1, address, access.op, ← access.reg? valueAt⟩

def atOffset (a : ElementAccess) (base : Reg) (offset : Word) : Instr :=
  if a.op.isScalarLoad then .load a.value base offset else .store base a.value offset

def absoluteOp (a : ElementAccess) : Opcode :=
  match a.op with
  | .lw => .lwi
  | .flw => .flwi
  | .sw => .swi
  | _ => .fswi

/-- The access at a constant place. -/
def fold? (a : ElementAccess) (known : KnownValues) : Option Code :=
  match known.get? a.base, known.get? a.index with
  | some base, some index =>
    some [⟨a.absoluteOp, [.reg a.value, .imm (base + index * Word.size)]⟩]
  | some base, none => some [.immediate .slli a.scaled a.index 2, a.atOffset a.scaled base]
  | none, some index =>
    some [.immediate .addi a.address a.base (index * Word.size), a.atOffset a.address 0]
  | none, none => none

end ElementAccess

/-- Folds the accesses of `rest`, a part of a body, given the values known in front of it. -/
def foldFrom (code : Code) (known : KnownValues) (rest : Code) : Code :=
  match rest with
  | i :: j :: k :: rest =>
    match (ElementAccess.of? i j k).bind (·.fold? known) with
    | some folded => folded ++ foldFrom code known rest
    | none => i :: foldFrom code (known.record code i) (j :: k :: rest)
  | rest => rest
termination_by rest.length

/-- Folds accesses at constant places. -/
def foldAddresses (code : Code) : Code :=
  foldFrom code [] code

end ClosureCodegen
