import ClosureCodegen.Code.Instr
import ClosureCodegen.Machine.Convention

/-!
# Frames

A function stores the callee-saved registers it touches below the stack pointer it was entered with
and then drops the stack pointer past them.  Before it returns it takes the same steps backwards.
-/

namespace ClosureCodegen

/-- The registers a function saves, in the order of their places below the stack pointer. -/
structure Frame where
  saved : List PhysReg
  deriving DecidableEq, Repr

def stackReg : Reg := .ofPhys .stackPointer

namespace Frame

/-- The frame of a body that changes some registers. -/
def ofTouched (touched : RegSet) : Frame :=
  ⟨(RegSet.calleeSaved.inter touched).toList⟩

/-- Saves one more register, unless it is saved already. -/
def save (f : Frame) (r : PhysReg) : Frame :=
  if r ∈ f.saved then f else ⟨f.saved ++ [r]⟩

/-- The bytes below the stack pointer that the saved registers take. -/
def size (f : Frame) : Word := Word.ofCount f.saved.length

/-- Stores of some registers in the words below the stack pointer. -/
def stores (rs : List PhysReg) : Code :=
  rs.zipIdx.map fun (r, k) => .store stackReg (.ofPhys r) (Word.below k)

/-- Loads of some registers from the words below the stack pointer, the last one first. -/
def loads (rs : List PhysReg) : Code :=
  rs.zipIdx.reverse.map fun (r, k) => .load (.ofPhys r) stackReg (Word.below k)

/-- Saves registers on entry. -/
def prologue (f : Frame) : Code :=
  stores f.saved ++ if f.size = 0 then [] else [.moveStack (-f.size)]

/-- Restores registers before a return. -/
def epilogue (f : Frame) : Code :=
  (if f.size = 0 then [] else [.moveStack f.size]) ++ loads f.saved

end Frame
end ClosureCodegen
