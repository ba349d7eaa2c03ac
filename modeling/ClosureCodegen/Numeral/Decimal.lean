/-!
# Decimal numerals

Every number in a program dump, an option or a listing is written in ASCII decimal.  A numeral is a
nonempty run of the ten digits; signs and ranges are added by the types that are read from one.
Nothing else is a digit here: neither an underscore nor a digit of another script.
-/

namespace ClosureCodegen
namespace Decimal

def digit? (c : Char) : Option Nat :=
  if c.isDigit then some (c.toNat - '0'.toNat) else none

/-- Reads the digits of `cs` onto the value `acc` already read. -/
def digitsFrom? (acc : Nat) : List Char → Option Nat
  | [] => some acc
  | c :: cs => (digit? c).bind fun d => digitsFrom? (10 * acc + d) cs

/-- The value of a numeral: one digit or more, and nothing but digits. -/
def nat? : List Char → Option Nat
  | [] => none
  | c :: cs => digitsFrom? 0 (c :: cs)

/-- A numeral that may carry a plus or a minus sign. -/
def int? : List Char → Option Int
  | '+' :: cs => (nat? cs).map Int.ofNat
  | '-' :: cs => (nat? cs).map fun n => -Int.ofNat n
  | cs => (nat? cs).map Int.ofNat

/-- The digits of a natural number, most significant first. -/
def natText (n : Nat) : String :=
  String.ofList (Nat.toDigits 10 n)

/-- The digits of an integer after a minus sign where it is negative. -/
def intText : Int → String
  | .ofNat n => natText n
  | .negSucc n => "-" ++ natText (n + 1)

end Decimal
end ClosureCodegen
