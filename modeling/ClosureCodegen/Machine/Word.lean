import ClosureCodegen.Numeral.Decimal

/-!
# Machine words

Immediates, access offsets, stack displacements and integer literals are 32-bit words, read in two's
complement wherever a sign matters.  Arithmetic on addresses wraps around.  Arithmetic on offsets
that the optimizer moves between instructions must not: an offset that no longer fits would address
another cell, so those sums, differences, products and negations are checked, and a step that leaves
the range of a word is a `Fault`.
-/

namespace ClosureCodegen

/-- A word of the machine. -/
abbrev Word := BitVec 32

/-- A step on offsets, lanes or operands that has no result. -/
inductive Fault where
  | addition
  | subtraction
  | multiplication
  | negation
  /-- A vector mask whose first set bit lies beyond the lanes. -/
  | laneRange
  /-- An operand that is taken from an instruction without operands. -/
  | missingOperand
  deriving DecidableEq, Repr

def Fault.message : Fault → String
  | .addition => "attempt to add with overflow"
  | .subtraction => "attempt to subtract with overflow"
  | .multiplication => "attempt to multiply with overflow"
  | .negation => "attempt to negate with overflow"
  | .laneRange => "assertion failed: mid <= self.len()"
  | .missingOperand => "removal index (is 0) should be < len (is 0)"

namespace Word

/-- Bytes per machine word. -/
def size : Word := 4

def text (w : Word) : String :=
  Decimal.intText w.toInt

/-- Reads a signed numeral that fits a word. -/
def ofText? (s : String) : Option Word :=
  (Decimal.int? s.toList).bind fun n =>
    if -0x80000000 ≤ n ∧ n < 0x80000000 then some (BitVec.ofInt 32 n) else none

def ofCount (n : Nat) : Word :=
  size * BitVec.ofNat 32 n

/-- The offset of the `index`-th word below a pointer. -/
def below (index : Nat) : Word :=
  -ofCount (index + 1)

/-- The sum, unless it leaves the range of a word. -/
def add? (a b : Word) : Except Fault Word :=
  if a.saddOverflow b then .error .addition else .ok (a + b)

def sub? (a b : Word) : Except Fault Word :=
  if a.ssubOverflow b then .error .subtraction else .ok (a - b)

def mul? (a b : Word) : Except Fault Word :=
  if a.smulOverflow b then .error .multiplication else .ok (a * b)

def neg? (a : Word) : Except Fault Word :=
  if a.negOverflow then .error .negation else .ok (-a)

end Word
end ClosureCodegen
