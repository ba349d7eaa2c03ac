import ClosureCodegen.CommandLine

/-!
# The command

Reads the program text that the arguments name, and writes the response.
-/

namespace ClosureCodegen

/-- The reason with a number that may come negated. -/
def FileError.ofWord (code : UInt32) (details : String) : FileError :=
  .ofCode (min code.toNat (-code).toNat) details

/-- The reason for an error of the system. One without a number is about the text. -/
def FileError.ofSystem : IO.Error → FileError
  | .noFileOrDirectory _ code details => .ofWord code details
  | .permissionDenied _ code details => .ofWord code details
  | .inappropriateType _ code details => .ofWord code details
  | .resourceExhausted _ code details => .ofWord code details
  | .invalidArgument _ code details => .ofWord code details
  | .hardwareFault code details => .ofWord code details
  | .otherError code details => .ofWord code details
  | _ => .notText

/-- The text of a file, or of the input. -/
def readDump (path : Option String) : IO String := do
  match path with
  | some p => IO.FS.readFile p
  | none => (← IO.getStdin).readToEnd

def writeText (path text : String) : IO Unit :=
  IO.FS.withFile path .write fun h => do
    h.putStr text
    h.flush

/-- Writes what goes to the two outputs, and returns the exit code. -/
def Response.print (r : Response) : IO UInt32 := do
  IO.print r.output
  IO.eprint r.errors
  return r.exitCode.toUInt32

/-- Carries out a response, and returns the exit code. -/
def Response.write (r : Response) : IO UInt32 := do
  match r.file with
  | none => r.print
  | some (path, text) =>
    match ← (writeText path text).toBaseIO with
    | .ok () => r.print
    | .error e => (Response.fileError (FileError.ofSystem e)).print

end ClosureCodegen

open ClosureCodegen

/-- Runs the command of the arguments. -/
def main (args : List String) : IO UInt32 := do
  match Command.ofArguments args with
  | .rejected => Response.rejected.print
  | .help => Response.help.print
  | .version => Response.version.print
  | .compile inv =>
    match ← (readDump inv.input).toBaseIO with
    | .ok text => (inv.respond text).write
    | .error e => (Response.fileError (FileError.ofSystem e)).print
