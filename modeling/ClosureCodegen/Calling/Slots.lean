import ClosureCodegen.Failure

/-!
# Spill slots

Each spilled variable has a slot, a word below the stack pointer of the body.  Slots are numbered in
the order in which the body first mentions them.  While a body is expanded a `SlotState` tells which
slots hold a value on the current path.  Where two paths meet, only a slot that both have filled can
still be read.
-/

namespace ClosureCodegen

/-- The slots of a body, in the order of their numbers. -/
structure SlotLayout where
  slots : List String
  deriving DecidableEq, Repr

/-- The slot that an instruction accesses. -/
def Instr.slot? (i : Instr) : Option String :=
  if i.op = .spillStore ∨ i.op = .spillLoad then i.labelAt? 1 else none

namespace SlotLayout

/-- The slots of a body by appearance. -/
def ofCode (code : Code) : SlotLayout :=
  ⟨(code.filterMap Instr.slot?).foldl (fun slots s => if s ∈ slots then slots else slots ++ [s]) []⟩

def position? (l : SlotLayout) (slot : String) : Option Nat := l.slots.idxOf? slot

def size (l : SlotLayout) : Nat := l.slots.length

/-- The offset of a slot from the stack pointer. -/
def offset (position : Nat) : Word := Word.below position

/-- The offset of a slot from the stack pointer, computed within the range of a word. -/
def checkedOffset (position : Nat) : Outcome Word := do
  let count ← (Word.add? (BitVec.ofNat 32 position) 1 : Except Fault Word)
  let negated ← (Word.neg? count : Except Fault Word)
  (Word.mul? negated Word.size : Except Fault Word)

end SlotLayout

/-- Puts a number in its place in an ascending list, unless it is there. -/
def insertPosition (p : Nat) : List Nat → List Nat
  | [] => [p]
  | q :: ps => if p = q then q :: ps else if p < q then p :: q :: ps else q :: insertPosition p ps

/-- The slots that hold a value, by number in ascending order. -/
structure SlotState where
  filled : List Nat
  deriving DecidableEq, Repr

namespace SlotState

def empty : SlotState := ⟨[]⟩

def fill (s : SlotState) (p : Nat) : SlotState := ⟨insertPosition p s.filled⟩

def ofList (ps : List Nat) : SlotState := ps.foldl fill empty

def isFilled (s : SlotState) (p : Nat) : Bool := s.filled.contains p

def meet (s t : SlotState) : SlotState := ⟨s.filled.filter t.isFilled⟩

/-- The number of words that reach past every filled slot. -/
def height (s : SlotState) : Outcome Word :=
  match s.filled.getLast? with
  | none => .ok 0
  | some p => (Word.add? (BitVec.ofNat 32 p) 1 : Except Fault Word)

end SlotState
end ClosureCodegen
