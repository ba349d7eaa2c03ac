/-!
# Blank characters

A program dump may be laid out with any character of the Unicode property `White_Space`: the ASCII
controls from tabulation to carriage return and the space, the next-line control, the no-break
space, the ogham space mark, the typographic spaces, the two separators, and the ideographic
space.  Zero width characters and the other controls are ordinary characters of a name.
-/

namespace ClosureCodegen
namespace Text

/-- The blank code points, as inclusive ranges in ascending order. -/
def blankRanges : List (Nat × Nat) :=
  [(0x09, 0x0d), (0x20, 0x20), (0x85, 0x85), (0xa0, 0xa0), (0x1680, 0x1680), (0x2000, 0x200a),
   (0x2028, 0x2029), (0x202f, 0x202f), (0x205f, 0x205f), (0x3000, 0x3000)]

def isBlank (c : Char) : Bool :=
  blankRanges.any fun r => r.1 ≤ c.toNat && c.toNat ≤ r.2

end Text
end ClosureCodegen
