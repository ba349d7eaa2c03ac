import ClosureCodegen.Text.Unprintable

/-!
# Quoted text

A quoted text stands between double quotes.  Quotes and backslashes in it get a backslash in
front, the usual controls have a letter, and every other unprintable character is written as its
number in hexadecimal digits.
-/

namespace ClosureCodegen
namespace Text

def escapeChar (c : Char) : String :=
  match c with
  | '"' => "\\\""
  | '\\' => "\\\\"
  | '\n' => "\\n"
  | '\t' => "\\t"
  | '\r' => "\\r"
  | '\x00' => "\\0"
  | c =>
    if isUnprintable c then "\\u\x7b" ++ String.ofList (Nat.toDigits 16 c.toNat) ++ "\x7d"
    else c.toString

def quoted (s : String) : String :=
  "\"" ++ String.join (s.toList.map escapeChar) ++ "\""

end Text
end ClosureCodegen
