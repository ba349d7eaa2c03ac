import ClosureCodegen.Compilation.Basic
import ClosureCodegen.Files.Tree
import ClosureCodegen.Program.Grammar

/-!
# The command line

The command reads a program from a file or from its input, and writes the listing to a file or to
its output.  An argument is an option by its long name, whose value follows behind an equals sign
or as the next argument, or by its short name, whose value may follow at once.  Every option
stands at most once.  There are no other arguments.

Arguments are read from the first to the last, and the first that settles the matter does: one that
cannot be read, or one that asks for the version or for help.
-/

namespace ClosureCodegen

/-! ## Arguments -/

/-- What a compilation by the command is asked to do. -/
structure Invocation where
  /-- The file to read, if it is not the input. -/
  input : Option String := none
  /-- The file to write, if it is not the output. -/
  output : Option String := none
  options : Options := {}
  deriving DecidableEq, Repr

/-- What a command line asks for. -/
inductive Command where
  /-- Nothing that can be read from its arguments. -/
  | rejected
  | help
  | version
  | compile (inv : Invocation)
  deriving DecidableEq, Repr

/-- The options of the command. -/
inductive Switch where
  | input
  | output
  | optRounds
  | noVectorize
  | noSchedule
  | propagateArrayOperands
  | noRuntime
  | help
  | version
  deriving DecidableEq, Repr

namespace Switch

def name : Switch → String
  | .input => "input"
  | .output => "output"
  | .optRounds => "opt-rounds"
  | .noVectorize => "no-vectorize"
  | .noSchedule => "no-schedule"
  | .propagateArrayOperands => "propagate-array-operands"
  | .noRuntime => "no-runtime"
  | .help => "help"
  | .version => "version"

def letter? : Switch → Option Char
  | .input => some 'i'
  | .output => some 'o'
  | .help => some 'h'
  | .version => some 'V'
  | _ => none

/-- What an option does, as help puts it. -/
def description : Switch → String
  | .input => "IR dump to compile; stdin when absent"
  | .output => "Listing destination; stdout when absent"
  | .optRounds => "Rounds of the machine optimizer loop [default: 10]"
  | .noVectorize => ""
  | .noSchedule => ""
  | .propagateArrayOperands => "Also rewrite array get/put operands to constant registers"
  | .noRuntime => "Leave the runtime bodies out of the listing"
  | .help => "Print help"
  | .version => "Print version"

def valueName? : Switch → Option String
  | .input => some "INPUT"
  | .output => some "OUTPUT"
  | .optRounds => some "OPT_ROUNDS"
  | _ => none

def all : List Switch :=
  [.input, .output, .optRounds, .noVectorize, .noSchedule, .propagateArrayOperands, .noRuntime,
    .help, .version]

def ofName? (s : String) : Option Switch :=
  all.find? fun o => o.name = s

def ofLetter? (c : Char) : Option Switch :=
  all.find? fun o => o.letter? = some c

def takesValue (s : Switch) : Bool :=
  s.valueName?.isSome

def usage (s : Switch) : String :=
  (match s.letter? with
    | some c => "-" ++ c.toString ++ ", "
    | none => "    ") ++ "--" ++ s.name ++
    (match s.valueName? with
    | some v => " <" ++ v ++ ">"
    | none => "")

end Switch

/-- Whether an argument can stand for a value. One with a hyphen in front looks like an option, a
hyphen alone does not. -/
def canBeValue (arg : String) : Bool :=
  arg.toList.head? ≠ some '-' || arg = "-"

/-- A word of the command line. -/
inductive Argument where
  /-- An option that stands without a value. -/
  | plain (s : Switch)
  /-- An option with its value attached. -/
  | attached (s : Switch) (value : String)
  deriving DecidableEq, Repr

def dropEquals : List Char → List Char
  | '=' :: cs => cs
  | cs => cs

/-- The option an argument gives. Behind the short name of an option without a value other short
names may follow, but those options end the reading, so they are not looked at. -/
def Argument.ofText? (arg : String) : Option Argument :=
  match arg.toList with
  | '-' :: '-' :: cs =>
    let name := String.ofList (cs.takeWhile (· ≠ '='))
    (Switch.ofName? name).map fun s =>
      match cs.dropWhile (· ≠ '=') with
      | _ :: value => .attached s (String.ofList value)
      | [] => .plain s
  | '-' :: c :: cs =>
    (Switch.ofLetter? c).map fun s =>
      if s.takesValue ∧ cs ≠ [] then .attached s (String.ofList (dropEquals cs)) else .plain s
  | _ => none

def path? (value : String) : Option String :=
  if value = "" then none else some value

/-- The largest number of rounds that can be asked for. -/
def maxRounds : Nat := UInt64.size - 1

/-- A number of rounds. A plus sign may stand in front. -/
def roundCount? (value : String) : Option Nat :=
  let digits := match value.toList with
    | '+' :: cs => cs
    | cs => cs
  (Decimal.nat? digits).filter (· ≤ maxRounds)

namespace Invocation

def withValue? (inv : Invocation) (s : Switch) (value : String) : Option Invocation :=
  match s with
  | .input => do return { inv with input := some (← path? value) }
  | .output => do return { inv with output := some (← path? value) }
  | .optRounds => do return { inv with options.rounds := ← roundCount? value }
  | _ => none

def withFlag? (inv : Invocation) (s : Switch) : Option Invocation :=
  match s with
  | .noVectorize => some { inv with options.vectorize := false }
  | .noSchedule => some { inv with options.scheduleLoads := false }
  | .propagateArrayOperands => some { inv with options.propagateArrays := true }
  | .noRuntime => some { inv with options.emitBuiltins := false }
  | _ => none

end Invocation

namespace Command

/-- Reads the arguments that follow the options `given`, which ask for `inv`. Two hyphens may stand
at the end. -/
def read (inv : Invocation) (given : List Switch) : List String → Command
  | [] => .compile inv
  | arg :: args =>
    if arg = "--" then (if args = [] then .compile inv else .rejected)
    else
      match Argument.ofText? arg with
      | none => .rejected
      | some (.plain .help) => .help
      | some (.plain .version) => .version
      | some (.plain s) =>
        if s ∈ given then .rejected
        else if s.takesValue then
          match args with
          | [] => .rejected
          | value :: args =>
            if canBeValue value then
              match inv.withValue? s value with
              | some inv => read inv (s :: given) args
              | none => .rejected
            else .rejected
        else
          match inv.withFlag? s with
          | some inv => read inv (s :: given) args
          | none => .rejected
      | some (.attached s value) =>
        if s ∈ given then .rejected
        else
          match inv.withValue? s value with
          | some inv => read inv (s :: given) args
          | none => .rejected

/-- What the arguments ask for. -/
def ofArguments (args : List String) : Command :=
  read {} [] args

end Command

/-! ## Responses -/

/-- What the command does once it has its input. -/
structure Response where
  exitCode : Nat
  output : String := ""
  errors : String := ""
  /-- A file to write, with its text. -/
  file : Option (String × String) := none
  deriving DecidableEq, Repr

def ReadError.report : ReadError → String
  | .failed position reason =>
    "Error: Parse \x7b line: " ++ Decimal.natText position.line ++ ", column: " ++
      Decimal.natText position.column ++ ", reason: " ++ Text.quoted reason.text ++ " \x7d\n"
  | e@.exhausted => "Error: " ++ e.message ++ "\n"

namespace Response

/-- The response to arguments that cannot be read. -/
def rejected : Response := { exitCode := 2 }

def commandName : String := "rvback"

def version : Response := { exitCode := 0, output := commandName ++ " 0.1.0\n" }

def descriptionColumn : Nat :=
  ((Switch.all.map fun s => s.usage.length).max?.getD 0) + 2

def help : Response :=
  { exitCode := 0
    output := "Compile an IR dump to assembly\n\nUsage: " ++ commandName ++
      " [OPTIONS]\n\nOptions:\n" ++
      String.join (Switch.all.map fun s =>
        "  " ++ s.usage.pushn ' ' (descriptionColumn - s.usage.length) ++ s.description ++ "\n") }

def fileError (e : FileError) : Response := { exitCode := 1, errors := e.report }

/-- The response once its file, if it has one, is written to a place of a tree. -/
def deliver (r : Response) (t : FileTree) : Response :=
  match r.file with
  | none => r
  | some (path, text) =>
    match t.openForWriting path with
    | .error e => fileError e
    | .ok none => r
    | .ok (some .output) => { r with output := text, file := none }
    | .ok (some .errors) => { r with errors := text, file := none }
    | .ok (some _) => { r with file := none }

end Response

/-- The response to a program text. An arithmetic fault ends the command with a code of its own. -/
def Invocation.respond (inv : Invocation) (dump : String) : Response :=
  match Program.ofText dump with
  | .error e => { exitCode := 1, errors := e.report }
  | .ok p =>
    let c := p.compile inv.options .standard
    match c.result with
    | .error (.fault f) => { exitCode := 101, errors := f.message ++ "\n" }
    | .error e =>
      { exitCode := 1
        errors := "Error in " ++ c.session.current.getD "" ++ ": " ++ e.message ++ "\n" }
    | .ok text =>
      match inv.output with
      | some path => { exitCode := 0, file := some (path, text) }
      | none => { exitCode := 0, output := text }

/-- The text that an invocation compiles, in a tree and with an input of the command. -/
def Invocation.dump (inv : Invocation) (t : FileTree) (input : String) : Except FileError String :=
  match inv.input with
  | some path => t.read input path
  | none => .ok input

/-- Runs a command on files and standard input. -/
def Command.run (c : Command) (t : FileTree) (input : String) : Response :=
  match c with
  | .rejected => .rejected
  | .help => .help
  | .version => .version
  | .compile inv =>
    match inv.dump t input with
    | .error e => .fileError e
    | .ok text => (inv.respond text).deliver t

end ClosureCodegen
