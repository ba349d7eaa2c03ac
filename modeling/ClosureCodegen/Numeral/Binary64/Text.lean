import ClosureCodegen.Numeral.Binary64
import ClosureCodegen.Numeral.Decimal

/-!
# Writing float literals

A finite number is written with the fewest decimal digits that read back as the same number, and
of those with the digits nearest to it, the larger where two are equally near.  The reals that
round to a number form an interval around it.  For one digit, two digits, and so on, the number
has two neighbours on the grid of decimals with that many digits, and the first grid on which a
neighbour falls into the interval decides.  Seventeen digits always suffice.  All comparisons are
exact, on natural numbers.

The digits are set positionally from `0.0001` up to below `10 ^ 16`, always with a point, and with
an exponent outside that range.
-/

namespace ClosureCodegen
namespace Binary64

/-- The reals that round to a number, scaled so that all its points are natural numbers: the
interval reaches from `value - low` to `value + high`, in units of which `unit` make one. -/
structure RoundingInterval where
  value : Nat
  low : Nat
  high : Nat
  unit : Nat
  /-- Whether the ends round to the number too. -/
  closed : Bool
  deriving Repr

/-- The interval of a finite nonzero number.  It reaches half a step of the last significand bit
both ways, except at a power of two, below which the numbers stand twice as close. -/
def roundingInterval (v : Binary64) : RoundingInterval :=
  let step := 1 <<< v.scale
  let narrow := v.significand = 1 <<< 52 ∧ v.scale ≠ 0
  { value := 4 * v.significand * step
    low := if narrow then step else 2 * step
    high := 2 * step
    unit := 1 <<< (leastScale + 2)
    closed := v.significand % 2 = 0 }

/-- A decimal `digits * 10 ^ exponent`. -/
structure ShortDecimal where
  digits : Nat
  exponent : Int
  deriving DecidableEq, Repr

namespace RoundingInterval

/-- Whether the point `n / d` of the scaled line lies in the interval. -/
def contains (r : RoundingInterval) (n d : Nat) : Bool :=
  if r.closed then (r.value - r.low) * d ≤ n && n ≤ (r.value + r.high) * d
  else (r.value - r.low) * d < n && n < (r.value + r.high) * d

/-- The neighbour of the value on the grid of multiples of `10 ^ e` that lies in the interval, the
nearer where both do, and of two equally near ones the larger. -/
def neighbour? (r : RoundingInterval) (e : Int) : Option ShortDecimal :=
  -- A grid point `k` sits at `k * num / den` on the scaled line.
  let num := if 0 ≤ e then r.unit * Nat.pow 10 e.toNat else r.unit
  let den := if 0 ≤ e then 1 else Nat.pow 10 (-e).toNat
  let below := r.value * den / num
  let above := below + 1
  let inBelow := r.contains (below * num) den
  let inAbove := r.contains (above * num) den
  let belowNearer := 2 * (r.value * den) < (below + above) * num
  if inBelow && (belowNearer || !inAbove) then some ⟨below, e⟩
  else if inAbove then some ⟨above, e⟩
  else none

/-- The least exponent of ten above the value, searched upwards from an estimate below it. -/
def leadingExponent (r : RoundingInterval) : Nat → Int → Int
  | 0, e => e
  | fuel + 1, e =>
    let reached :=
      if 0 ≤ e then r.value < r.unit * Nat.pow 10 e.toNat
      else r.value * Nat.pow 10 (-e).toNat < r.unit
    if reached then e else leadingExponent r fuel (e + 1)

/-- The decimal of the first grid with a neighbour in the interval, from `count` grids starting at
that of the exponent `e` and refining by one digit each. -/
def shortestFrom (r : RoundingInterval) : Nat → Int → ShortDecimal
  | 0, e => ⟨r.value / r.unit, e⟩
  | count + 1, e => (r.neighbour? e).getD (shortestFrom r count (e - 1))

end RoundingInterval

/-- The fewest digits that read back as a finite nonzero number. -/
def shortest (v : Binary64) : ShortDecimal :=
  let r := v.roundingInterval
  -- `5 / 17` is slightly below the decimal logarithm of two and `16 / 53` slightly above it.
  let binary : Int := Int.ofNat r.value.log2 - Int.ofNat (leastScale + 2)
  let estimate := if 0 ≤ binary then binary * 5 / 17 else binary * 16 / 53 - 1
  let top := r.leadingExponent 20 estimate
  r.shortestFrom 17 (top - 1)

def trimZeros (ds : List Char) : List Char :=
  (ds.reverse.dropWhile (· == '0')).reverse

/-- Sets digits with a point after the first `point` of them, padding with zeros on either side. -/
def positional (ds : List Char) (point : Int) : String :=
  if point ≤ 0 then
    "0." ++ String.ofList (List.replicate (-point).toNat '0' ++ ds)
  else if ds.length ≤ point.toNat then
    String.ofList (ds ++ List.replicate (point.toNat - ds.length) '0') ++ ".0"
  else
    String.ofList (ds.take point.toNat) ++ "." ++ String.ofList (ds.drop point.toNat)

/-- Sets digits with a point after the first and the power of ten that leaves. -/
def scientific (ds : List Char) (exponent : Int) : String :=
  let tail := ds.drop 1
  let point := if tail.isEmpty then "" else "."
  String.ofList (ds.take 1) ++ point ++ String.ofList tail ++ "e" ++ Decimal.intText exponent

/-- The text of a number without its sign. -/
def magnitudeText (v : Binary64) : String :=
  if v.isInfinite then "inf"
  else if v.isZero then "0.0"
  else
    let short := v.shortest
    let all := Nat.toDigits 10 short.digits
    let point := all.length + short.exponent
    let ds := trimZeros all
    if -3 ≤ point ∧ point ≤ 16 then positional ds point else scientific ds (point - 1)

/-- The text of a float literal. A not-a-number is written without its sign. -/
def text (v : Binary64) : String :=
  if v.isNaN then "NaN"
  else if v.isNegative then "-" ++ v.magnitudeText
  else v.magnitudeText

end Binary64
end ClosureCodegen
