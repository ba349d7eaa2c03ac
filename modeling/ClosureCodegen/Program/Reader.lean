import ClosureCodegen.Numeral.Decimal
import ClosureCodegen.Program.Token

/-!
# Readers

A reader takes tokens from the front of an input and returns what they say, or the reason why they
say nothing.  The readers here are those that every grammar over marks and words needs; the
grammar of programs is built from them.
-/

namespace ClosureCodegen

/-- Why a text cannot be read. -/
inductive ReadReason where
  /-- Another character, or the end of the text, stands where a mark is needed. -/
  | expectedMark (c : Char) (found : Option Char)
  | expectedName
  | expectedKeyword (keyword found : String)
  | invalidHeapOffset (word : String)
  | invalidInteger (word : String)
  | invalidFloat (word : String)
  | unknownExpression (word : String)
  /-- The arguments of an unknown type are not closed. -/
  | unbalancedArguments
  | trailingAfterProgram
  | trailingAfterExpression
  deriving DecidableEq, Repr

/-- A piece of the text as it stands in a report. -/
def inBackticks (s : String) : String := "`" ++ s ++ "`"

def ReadReason.text : ReadReason → String
  | .expectedMark c found =>
    "expected " ++ inBackticks c.toString ++ ", found " ++
      (match found with
      | some d => inBackticks d.toString
      | none => "end of input")
  | .expectedName => "expected a name"
  | .expectedKeyword keyword found =>
    "expected " ++ inBackticks keyword ++ ", found " ++ inBackticks found
  | .invalidHeapOffset word => "invalid heap offset " ++ inBackticks word
  | .invalidInteger word => "invalid integer literal " ++ inBackticks word
  | .invalidFloat word => "invalid float literal " ++ inBackticks word
  | .unknownExpression word => "unknown expression " ++ inBackticks word
  | .unbalancedArguments => "unbalanced type arguments"
  | .trailingAfterProgram => "trailing input after top-level expression"
  | .trailingAfterExpression => "trailing input after expression"

/-- Why reading a text has no value. -/
inductive ReadError where
  | failed (position : Position) (reason : ReadReason)
  /-- A bound on the depth of nesting or on the items of a list was reached. -/
  | exhausted
  deriving DecidableEq, Repr

def ReadError.message : ReadError → String
  | .failed position reason =>
    "Parse error at line " ++ Decimal.natText position.line ++ ", column " ++
      Decimal.natText position.column ++ ": " ++ reason.text
  | .exhausted => "Reading reached its bound"

/-- The tokens that are still to be read, and the place behind the text. -/
structure Input where
  tokens : List Lexeme
  finish : Position
  deriving Repr

namespace Input

/-- The tokens of a text. -/
def ofText (s : String) : Input :=
  ⟨scan .start s.toList, Position.start.passAll s.toList⟩

/-- The place in front of the next token. -/
def position (i : Input) : Position :=
  (i.tokens.head?.map Lexeme.start).getD i.finish

/-- The number of tokens, and one more. A reading that takes a token at every level of nesting, or
for every item of a list, ends below this bound. -/
def bound (i : Input) : Nat :=
  i.tokens.length + 1

end Input

/-- Reads a value from the tokens in front. -/
abbrev Reader (α : Type) := StateT Input (Except ReadError) α

namespace Reader

variable {α : Type}

/-- Reads with a text as the input. The tokens that are left over are dropped. -/
def run (r : Reader α) (s : String) : Except ReadError α :=
  (StateT.run r (Input.ofText s)).map Prod.fst

/-- Fails in front of the next token. -/
def failHere (reason : ReadReason) : Reader α :=
  fun input => .error (.failed input.position reason)

/-- Takes a mark if it comes next. -/
def tryMark (c : Char) : Reader Bool := fun input =>
  match input.tokens with
  | t :: ts =>
    if t.token = .mark c then .ok (true, { input with tokens := ts }) else .ok (false, input)
  | [] => .ok (false, input)

def peekMark (c : Char) : Reader Bool := fun input =>
  .ok (input.tokens.head?.any fun t => t.token = .mark c, input)

/-- Takes a mark, and returns the place behind it. -/
def mark (c : Char) : Reader Position := fun input =>
  match input.tokens with
  | t :: ts =>
    if t.token = .mark c then .ok (t.stop, { input with tokens := ts })
    else .error (.failed t.start (.expectedMark c t.token.first?))
  | [] => .error (.failed input.finish (.expectedMark c none))

/-- Takes a word, and returns it with the place behind it. -/
def locatedWord : Reader (String × Position) := fun input =>
  match input.tokens with
  | ⟨.word s, _, stop⟩ :: ts => .ok ((s, stop), { input with tokens := ts })
  | ⟨.mark _, start, _⟩ :: _ => .error (.failed start .expectedName)
  | [] => .error (.failed input.finish .expectedName)

def word : Reader String := do
  return (← locatedWord).1

def keyword (k : String) : Reader Unit := do
  let (w, stop) ← locatedWord
  if w = k then return () else throw (.failed stop (.expectedKeyword k w))

/-- Takes a word that stands for a value. -/
def literal (value? : String → Option α) (reason : String → ReadReason) : Reader α := do
  let (w, stop) ← locatedWord
  match value? w with
  | some v => return v
  | none => throw (.failed stop (reason w))

/-- Takes the items of a list up to its end, given a reader for those behind the first one. -/
def itemsOf (item : Reader α) (more : Reader (List α)) : Reader (List α) := do
  if ← tryMark ']' then return []
  let x ← item
  if ← tryMark ',' then return x :: (← more)
  let _ ← mark ']'
  return [x]

/-- Takes the items of a list up to its end, fewer than `bound` of them. -/
def items (item : Reader α) : Nat → Reader (List α)
  | 0 => throw .exhausted
  | bound + 1 => itemsOf item (items item bound)

def allItems (item : Reader α) : Reader (List α) := do
  items item (← get).bound

/-- Takes a list in brackets. A comma may follow the last item. -/
def list (item : Reader α) : Reader (List α) := do
  let _ ← mark '['
  allItems item

/-- The tokens behind the bracket that closes `depth` open ones. -/
def closeBrackets? : Nat → List Lexeme → Option (List Lexeme)
  | _, [] => none
  | depth, t :: ts =>
    match t.token with
    | .mark '(' | .mark '[' => closeBrackets? (depth + 1) ts
    | .mark ')' | .mark ']' =>
      if depth ≤ 1 then some ts else closeBrackets? (depth - 1) ts
    | _ => closeBrackets? depth ts

/-- Takes a group in brackets, whatever it holds. The two kinds of brackets close each other. -/
def skipGroup : Reader Unit := fun input =>
  match closeBrackets? 0 input.tokens with
  | some ts => .ok ((), { input with tokens := ts })
  | none => .error (.failed input.finish .unbalancedArguments)

/-- Fails unless every token was taken. -/
def atEnd (reason : ReadReason) : Reader Unit := do
  if (← get).tokens.isEmpty then return () else failHere reason

end Reader
end ClosureCodegen
