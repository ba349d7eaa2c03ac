import ClosureCodegen.Proofs.Calling.Expansion
import ClosureCodegen.Proofs.Calling.Parameters
import ClosureCodegen.Proofs.Execution.Contracts

/-!
# The stack of a function

The words below the address that the stack pointer has at entry are the *cells* of a function,
counted downwards.  The first cells hold the callee-saved registers that the function saves; `Entered`
says that they still do, how deep the stack pointer is, and that the other callee-saved registers
are untouched.  In `Working` the return address is in its register as well.

A function stays at work while it writes free registers and cells below the stack pointer.
-/

namespace ClosureCodegen
open Word PhysReg Hart

variable {k : Nat} {p : PhysReg} {r : Reg} {h' : Hart}

/-! ## Cells -/

namespace Word

theorem ofCount_add (m n : Nat) : ofCount (m + n) = ofCount m + ofCount n := by
  simp only [ofCount, BitVec.ofNat_add, BitVec.mul_add]

theorem ofCount_one : ofCount 1 = size := rfl

theorem toNat_ofCount {n : Nat} (h : n < 2 ^ 30) : (ofCount n).toNat = 4 * n := by
  have hsize : size.toNat = 4 := rfl
  rw [ofCount, BitVec.toNat_mul, BitVec.toNat_ofNat, hsize, Nat.mod_eq_of_lt (a := n) (by omega)]
  exact Nat.mod_eq_of_lt (by omega)

theorem sub_ofCount_add_below (a : Word) (m k : Nat) :
    a - ofCount m + below k = a + below (m + k) := by
  have h : ofCount (m + k + 1) = ofCount m + ofCount (k + 1) := by
    rw [Nat.add_assoc, ofCount_add]
  rw [below, below, h]
  generalize ofCount m = x
  generalize ofCount (k + 1) = y
  bv_omega

theorem below_injective {j : Nat} (hj : j < 2 ^ 30 - 1) (hk : k < 2 ^ 30 - 1) {a : Word}
    (h : a + below j = a + below k) : j = k := by
  have h' : ofCount (j + 1) = ofCount (k + 1) := by
    rw [below, below] at h
    generalize ofCount (j + 1) = x at *
    generalize ofCount (k + 1) = y at *
    bv_omega
  have := congrArg BitVec.toNat h'
  rw [toNat_ofCount (by omega), toNat_ofCount (by omega)] at this
  omega

end Word

theorem Hart.inFrame_cell {h : Hart} {top : Word} {depth : Nat}
    (hs : h.get stackReg = top - ofCount depth) (hk : k < depth) (hd : depth < 2 ^ 30) :
    h.InFrame top (top + below k) := by
  have hdepth := toNat_ofCount hd
  have hcell := toNat_ofCount (n := k + 1) (by omega)
  rw [InFrame, hs, below]
  generalize ofCount depth = x at *
  generalize ofCount (k + 1) = y at *
  have h₁ : (top + -y - (top - x)).toNat = 4 * depth - 4 * (k + 1) := by bv_omega
  have h₂ : (top - (top - x)).toNat = 4 * depth := by bv_omega
  omega

/-! ## The state of a function -/

/-- A register that a function may write without harm to its caller: it is neither the stack
pointer nor the return address, and no callee-saved register but one that is saved. -/
structure Reg.IsFree (saved : List PhysReg) (r : Reg) : Prop where
  stack : r.name ≠ PhysReg.stackPointer.name
  returnAddress : r.name ≠ PhysReg.returnAddress.name
  kept : ∀ p, RegSet.calleeSaved.contains p = true → p ∉ saved → r.name ≠ p.name

/-- The stack pointer is some cells deep, the first cells hold the registers that are saved, and the
other callee-saved registers are as they were at entry. -/
structure Entered (start : Hart) (saved : List PhysReg) (depth : Nat) (h : Hart) : Prop where
  stack : h.get stackReg = start.get stackReg - Word.ofCount depth
  stored : ∀ k r, saved[k]? = some r →
    h.memory (start.get stackReg + Word.below k) = start.get (.ofPhys r)
  kept : ∀ r, RegSet.calleeSaved.contains r = true → r ∉ saved →
    h.get (.ofPhys r) = start.get (.ofPhys r)

def linkReg : Reg := .ofPhys .returnAddress

/-- The function runs some cells deep, and can return. -/
structure Working (start : Hart) (saved : List PhysReg) (depth : Nat) (h : Hart) : Prop
    extends Entered start saved depth h where
  link : h.get linkReg = start.get linkReg

section States

variable {start h : Hart} {saved : List PhysReg} {depth : Nat}

theorem PhysReg.calleeSaved_ne (hp : RegSet.calleeSaved.contains p = true) :
    p ≠ .stackPointer ∧ p ≠ .returnAddress ∧ p ∉ reserved := by
  have hall : ∀ q ∈ all, RegSet.calleeSaved.contains q = true →
      q ≠ .stackPointer ∧ q ≠ .returnAddress ∧ q ∉ reserved := by decide
  exact hall p (mem_all p) hp

variable (hw : Working start saved depth h)
include hw

/-- A function stays at work as long as the saved cells and the registers it has to keep do. -/
theorem Working.congr (hs : h'.get stackReg = h.get stackReg) (hl : h'.get linkReg = h.get linkReg)
    (hk : ∀ p, RegSet.calleeSaved.contains p = true → p ∉ saved →
      h'.get (.ofPhys p) = h.get (.ofPhys p))
    (hm : ∀ k < saved.length, h'.memory (start.get stackReg + below k) =
      h.memory (start.get stackReg + below k)) : Working start saved depth h' where
  stack := hs.trans hw.stack
  stored k p hp := (hm k (List.getElem?_eq_some_iff.mp hp).1).trans (hw.stored k p hp)
  kept p hc hp := (hk p hc hp).trans (hw.kept p hc hp)
  link := hl.trans hw.link

theorem Working.cell (k : Nat) :
    h.get stackReg + below k = start.get stackReg + below (depth + k) := by
  rw [hw.stack, sub_ofCount_add_below]

theorem Working.set (hr : r.IsFree saved) (v : Word) : Working start saved depth (h.set r v) := by
  refine hw.congr (get_set_of_ne hr.stack.symm) (get_set_of_ne hr.returnAddress.symm)
    (fun p hp hps => get_set_of_ne (hr.kept p hp hps).symm) fun k _ => ?_
  rw [memory_set]

theorem Working.write (hd : saved.length ≤ depth) (hk : depth + k < 2 ^ 30 - 1) (v : Word) :
    Working start saved depth (h.write (h.get stackReg + below k) v) := by
  refine hw.congr rfl rfl (fun _ _ _ => rfl) fun j hj => memory_write_of_ne fun heq => ?_
  rw [hw.cell] at heq
  have := below_injective (by omega) (by omega) heq
  omega

end States

end ClosureCodegen
