import ClosureCodegen.Failure

/-!
# Compilation sessions

A session remembers the body that is being compiled, so that a failure can be reported with it, and
counts what the stages did.
-/

namespace ClosureCodegen

/-- What the stages of a compilation did. -/
structure Statistics where
  /-- The number of bodies, the top-level one included. -/
  compiled : Nat := 0
  /-- The number of instructions in the listing, without the builtin routines. -/
  instructions : Nat := 0
  largestSize : Nat := 0
  /-- The name of the first body of the largest size. -/
  largestName : String := ""
  allocatorRounds : Nat := 0
  spilledInts : Nat := 0
  spilledFloats : Nat := 0
  tailCalls : Nat := 0
  /-- The callees of inlined calls, each with the number of calls. -/
  inlined : List (String × Nat) := []
  vectors : Nat := 0
  deriving DecidableEq, Repr

/-- A session: the body that is being compiled, and the statistics so far. -/
structure Session where
  current : Option String := none
  stats : Statistics := {}
  deriving DecidableEq, Repr

namespace Statistics

def countCall (callee : String) : List (String × Nat) → List (String × Nat)
  | [] => [(callee, 1)]
  | (name, n) :: counts =>
    if name = callee then (name, n + 1) :: counts else (name, n) :: countCall callee counts

/-- The order of callees in the report: by falling number of calls, then by name. -/
def callsBefore (a b : String × Nat) : Bool :=
  b.2 < a.2 || (a.2 == b.2 && a.1 ≤ b.1)

/-- The numbers that grow as a session goes on. -/
def counters (s : Statistics) : List Nat :=
  [s.compiled, s.instructions, s.allocatorRounds, s.spilledInts, s.spilledFloats, s.tailCalls,
    s.vectors] ++ s.inlined.map Prod.snd

/-- The numbers a counter can hold are those below this one. -/
def counterBound : Nat := UInt64.size

def line (title value : String) : String :=
  "  " ++ title ++ ": " ++ value ++ "\n"

def text (s : Statistics) : String :=
  let num := Decimal.natText
  "Compilation Session Statistics:\n" ++
    line "Functions compiled" (num s.compiled) ++
    line "Instructions emitted" (num s.instructions) ++
    line "Allocator rounds" (num s.allocatorRounds) ++
    line "Spilled variables" (num s.spilledInts ++ " int, " ++ num s.spilledFloats ++ " float") ++
    line "Tail calls" (num s.tailCalls) ++
    line "Vector accesses" (num s.vectors) ++
    (if s.largestName = "" then ""
      else
        line "Largest function"
          (s.largestName ++ " (" ++ num s.largestSize ++ " instructions)")) ++
    (if s.inlined = [] then ""
      else "  Inlined intrinsics:\n" ++
        String.join ((s.inlined.mergeSort callsBefore).map fun (callee, n) =>
          "  " ++ line callee (num n)))

end Statistics

namespace Session

def enter (name : String) (s : Session) : Session :=
  { s with current := some name }

/-- Counts a finished body with its number of instructions. -/
def recordCompiled (name : String) (n : Nat) (s : Session) : Session :=
  let t := s.stats
  let larger := t.largestSize < n
  { s with
    stats := { t with
      compiled := t.compiled + 1
      instructions := t.instructions + n
      largestSize := if larger then n else t.largestSize
      largestName := if larger then name else t.largestName } }

def recordAllocation (rounds ints floats : Nat) (s : Session) : Session :=
  let t := s.stats
  { s with
    stats := { t with
      allocatorRounds := t.allocatorRounds + rounds
      spilledInts := t.spilledInts + ints
      spilledFloats := t.spilledFloats + floats } }

def recordTailCalls (n : Nat) (s : Session) : Session :=
  { s with stats := { s.stats with tailCalls := s.stats.tailCalls + n } }

def recordInlined (callee : String) (s : Session) : Session :=
  { s with stats := { s.stats with inlined := Statistics.countCall callee s.stats.inlined } }

def recordVectors (n : Nat) (s : Session) : Session :=
  { s with stats := { s.stats with vectors := s.stats.vectors + n } }

/-- A session that was told of arbitrary numbers, unless one of its counters has run over. What a
compilation counts are parts of its listing, so it never comes near the bound. -/
def checked (s : Session) : Outcome Session :=
  if s.stats.counters.all (· < Statistics.counterBound) then .ok s else .error (.fault .addition)

end Session
end ClosureCodegen
