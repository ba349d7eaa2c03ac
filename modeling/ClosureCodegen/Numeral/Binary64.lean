/-!
# Double-precision literals

A float literal is kept as its 64-bit interchange pattern: a sign bit, eleven exponent bits and
fifty-two fraction bits.  The back end never computes with a literal.  It only reads one from a
dump, compares it with the few constants that live in registers, and writes it into a listing, and
all three are questions about the pattern.  Equality of patterns is decidable and tells the two
zeros apart; `isValue` is the comparison of numbers, in which they are the same.
-/

namespace ClosureCodegen

/-- A double-precision number, as its bit pattern. -/
structure Binary64 where
  bits : BitVec 64
  deriving DecidableEq, Repr

namespace Binary64

def isNegative (v : Binary64) : Bool :=
  v.bits.getLsbD 63

/-- The pattern without its sign, as a number. Magnitudes of finite numbers are ordered like it. -/
def magnitude (v : Binary64) : Nat :=
  v.bits.toNat % (1 <<< 63)

/-- The magnitude of an infinity: all exponent bits and no fraction bit. -/
def infinityMagnitude : Nat := 0x7ff <<< 52

/-- The number with a given sign and magnitude. -/
def ofMagnitude (negative : Bool) (m : Nat) : Binary64 :=
  ⟨BitVec.ofNat 64 (m % (1 <<< 63) + if negative then 1 <<< 63 else 0)⟩

def infinity (negative : Bool) : Binary64 :=
  ofMagnitude negative infinityMagnitude

/-- A quiet not-a-number. -/
def nan (negative : Bool) : Binary64 :=
  ofMagnitude negative (infinityMagnitude + 1 <<< 51)

def isNaN (v : Binary64) : Bool :=
  infinityMagnitude < v.magnitude

def isInfinite (v : Binary64) : Bool :=
  v.magnitude = infinityMagnitude

def isZero (v : Binary64) : Bool :=
  v.magnitude = 0

def zero : Binary64 := ⟨0⟩

def one : Binary64 := ⟨0x3ff0000000000000⟩

def two : Binary64 := ⟨0x4000000000000000⟩

/-- Equality of numbers: the zeros are equal, and a not-a-number equals nothing. -/
def isValue (v w : Binary64) : Bool :=
  !v.isNaN && (v = w || (v.isZero && w.isZero))

/-- The least positive number is two to the power of minus this. -/
def leastScale : Nat := 1074

/-- The significand of a finite number of absolute value `significand * 2 ^ scale / 2 ^
leastScale`. -/
def significand (v : Binary64) : Nat :=
  if v.magnitude < 1 <<< 52 then v.magnitude else 1 <<< 52 + v.magnitude % (1 <<< 52)

/-- The exponent of the last significand bit, counted from that of the least positive number. -/
def scale (v : Binary64) : Nat :=
  v.magnitude >>> 52 - 1

end Binary64
end ClosureCodegen
