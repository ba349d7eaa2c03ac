import ClosureCodegen.Text.Blank

/-!
# Tokens of a program dump

The text of a program consists of marks, which are single characters, and words, which are the
longest runs of characters that are neither marks nor blank.  Blanks separate words and mean
nothing else.  A token knows where it starts and where it ends: an error is reported either in
front of a token that does not fit or behind one that cannot be read.
-/

namespace ClosureCodegen

/-- A place in a text. Lines count from one, and so do the bytes of a line. -/
structure Position where
  line : Nat
  column : Nat
  deriving DecidableEq, Repr

namespace Position

def start : Position := ⟨1, 1⟩

def pass (p : Position) (c : Char) : Position :=
  if c = '\n' then ⟨p.line + 1, 1⟩ else ⟨p.line, p.column + c.utf8Size⟩

def passAll (p : Position) (cs : List Char) : Position :=
  cs.foldl pass p

end Position

def marks : List Char := ['(', ')', '[', ']', '\x7b', '\x7d', ',', ':']

def isWordChar (c : Char) : Bool :=
  !Text.isBlank c && !marks.contains c

/-- A mark or a word. -/
inductive Token where
  | mark (c : Char)
  | word (s : String)
  deriving DecidableEq, Repr

def Token.first? : Token → Option Char
  | .mark c => some c
  | .word s => s.toList.head?

/-- A token with the places in front of it and behind it. -/
structure Lexeme where
  token : Token
  start : Position
  stop : Position
  deriving DecidableEq, Repr

/-- The tokens of a text that starts at a place. -/
def scan (p : Position) (cs : List Char) : List Lexeme :=
  match cs with
  | [] => []
  | c :: rest =>
    if Text.isBlank c then scan (p.pass c) rest
    else if marks.contains c then ⟨.mark c, p, p.pass c⟩ :: scan (p.pass c) rest
    else
      let word := c :: rest.takeWhile isWordChar
      ⟨.word (String.ofList word), p, p.passAll word⟩ ::
        scan (p.passAll word) (rest.dropWhile isWordChar)
termination_by cs.length
decreasing_by
  all_goals simp only [List.length_cons]
  · omega
  · omega
  · exact Nat.lt_succ_of_le (List.dropWhile_sublist _).length_le

end ClosureCodegen
