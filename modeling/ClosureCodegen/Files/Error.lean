import ClosureCodegen.Numeral.Decimal
import ClosureCodegen.Text.Quoted

/-!
# File errors

The reasons for which a file cannot be read or written.  Most are known to the system by a number,
and are reported by that number, the kind of the error and the system's own message.
-/

namespace ClosureCodegen

/-- Why a file cannot be read or written. -/
inductive FileError where
  | notFound
  | permissionDenied
  /-- Something that is not a directory stands where a directory is needed. -/
  | notDirectory
  | isDirectory
  | noSpace
  | nameTooLong
  /-- A text that is not encoded in UTF-8. -/
  | notText
  /-- Any other reason, by its number and message. -/
  | other (code : Nat) (message : String)
  deriving DecidableEq, Repr

namespace FileError

/-- The reasons that have a kind of their own. -/
def common : List FileError :=
  [.notFound, .permissionDenied, .notDirectory, .isDirectory, .noSpace, .nameTooLong]

def code? : FileError → Option Nat
  | .notFound => some 2
  | .permissionDenied => some 13
  | .notDirectory => some 20
  | .isDirectory => some 21
  | .noSpace => some 28
  | .nameTooLong => some 36
  | .notText => none
  | .other code _ => some code

def kind : FileError → String
  | .notFound => "NotFound"
  | .permissionDenied => "PermissionDenied"
  | .notDirectory => "NotADirectory"
  | .isDirectory => "IsADirectory"
  | .noSpace => "StorageFull"
  | .nameTooLong => "InvalidFilename"
  | .notText => "InvalidData"
  | .other .. => "Uncategorized"

def message : FileError → String
  | .notFound => "No such file or directory"
  | .permissionDenied => "Permission denied"
  | .notDirectory => "Not a directory"
  | .isDirectory => "Is a directory"
  | .noSpace => "No space left on device"
  | .nameTooLong => "File name too long"
  | .notText => "stream did not contain valid UTF-8"
  | .other _ message => message

/-- The reason with a number, whose message is needed only if it has no kind of its own. -/
def ofCode (code : Nat) (message : String) : FileError :=
  (common.find? fun e => e.code? = some code).getD (.other code message)

def report (e : FileError) : String :=
  let rest := "kind: " ++ e.kind ++ ", message: " ++ Text.quoted e.message ++ " \x7d\n"
  match e.code? with
  | some code => "Error: Os \x7b code: " ++ Decimal.natText code ++ ", " ++ rest
  | none => "Error: Error \x7b " ++ rest

end FileError
end ClosureCodegen
