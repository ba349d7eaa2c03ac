import ClosureCodegen.Numeral.Binary64
import ClosureCodegen.Numeral.Decimal

/-!
# Reading float literals

A literal is an optional sign followed by a decimal number or by one of the words `inf`,
`infinity` and `nan`, in any case.  A number has digits before or after a point, or both, and may
end in an exponent with a sign of its own.  Its value is the double nearest to the written
decimal, the one with an even significand where two are equally near.  The rounding is done on
exact fractions of natural numbers, so a literal of any length is read correctly.
-/

namespace ClosureCodegen
namespace Binary64

/-- The magnitude nearest to `num / den`, ties to the even significand.

The quotient is taken in units of `2 ^ unit / 2 ^ leastScale`, where the unit is the least that
leaves it below `2 ^ 53`.  Adding the rounded quotient to `unit * 2 ^ 52` gives the magnitude in
every case: a quotient with its top bit set carries one into the exponent field, a smaller one only
occurs at unit zero, where the exponent field is zero, and rounding up to `2 ^ 53` carries two. -/
def nearestMagnitude (num den : Nat) : Nat :=
  let start := num.log2 + leastScale - 53 - den.log2
  let quotient := fun unit : Nat => (num <<< leastScale) / (den <<< unit)
  let unit := if 1 <<< 53 ≤ quotient start then start + 1 else start
  let divisor := den <<< unit
  let whole := (num <<< leastScale) / divisor
  let rest := (num <<< leastScale) % divisor
  let up := divisor < 2 * rest || (2 * rest = divisor && whole % 2 = 1)
  min infinityMagnitude (unit <<< 52 + if up then whole + 1 else whole)

/-- The magnitude nearest to `digits * 10 ^ exponent`.  A decimal whose leading digit lies beyond
the largest finite number or far below half the least positive one is settled without its power of
ten. -/
def decimalMagnitude (digits : Nat) (exponent : Int) : Nat :=
  if digits = 0 then 0
  else
    let top := (Nat.toDigits 10 digits).length + exponent
    if 310 < top then infinityMagnitude
    else if top < -330 then 0
    else if 0 ≤ exponent then nearestMagnitude (digits * Nat.pow 10 exponent.toNat) 1
    else nearestMagnitude digits (Nat.pow 10 (-exponent).toNat)

def splitDigits (cs : List Char) : List Char × List Char :=
  (cs.takeWhile Char.isDigit, cs.dropWhile Char.isDigit)

/-- The exponent part of a number: nothing, or a mark and a signed numeral. -/
def exponent? : List Char → Option Int
  | [] => some 0
  | c :: cs => if c = 'e' ∨ c = 'E' then Decimal.int? cs else none

/-- An unsigned decimal number, as its digits and the power of ten they are scaled by. -/
def number? (cs : List Char) : Option (Nat × Int) :=
  let (whole, rest) := splitDigits cs
  let (fraction, rest) :=
    match rest with
    | '.' :: rest => splitDigits rest
    | rest => ([], rest)
  (Decimal.nat? (whole ++ fraction)).bind fun digits =>
    (exponent? rest).map fun e => (digits, e - fraction.length)

def magnitude? (cs : List Char) : Option Nat :=
  match number? cs with
  | some (digits, e) => some (decimalMagnitude digits e)
  | none =>
    let word := cs.map Char.toLower
    if word = "inf".toList ∨ word = "infinity".toList then some infinityMagnitude
    else if word = "nan".toList then some (nan false).magnitude
    else none

/-- The float that a text denotes. -/
def ofText? (s : String) : Option Binary64 :=
  match s.toList with
  | '-' :: cs => (magnitude? cs).map (ofMagnitude true)
  | '+' :: cs => (magnitude? cs).map (ofMagnitude false)
  | cs => (magnitude? cs).map (ofMagnitude false)

end Binary64
end ClosureCodegen
