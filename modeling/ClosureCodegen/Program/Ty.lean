import ClosureCodegen.Machine.Register

/-!
# Types of a program

Code generation needs a type only for the class of register that holds its values: floats have a
bank of their own, a unit value needs no register at all, and everything else is one machine word.
-/

namespace ClosureCodegen

/-- The types of variables. -/
inductive Ty where
  | unit
  | bool
  | int
  | float
  | fn (params : List Ty) (result : Ty)
  | tuple (items : List Ty)
  | array (element : Ty)
  /-- Any other type, of which only the name is kept. Its values are machine words. -/
  | named (name : String)
  deriving Repr, Inhabited

namespace Ty

/-- The class of the registers that hold values of a type; a unit value needs none. -/
def cls? : Ty → Option RegClass
  | .unit => none
  | .float => some .float
  | _ => some .int

def result? : Ty → Option Ty
  | .fn _ r => some r
  | _ => none

mutual

def text : Ty → String
  | .unit => "()"
  | .bool => "bool"
  | .int => "int"
  | .float => "float"
  | .fn params result => "Fun([" ++ listText params ++ "]," ++ result.text ++ ")"
  | .tuple items => "Tuple([" ++ listText items ++ "])"
  | .array element => "Array(" ++ element.text ++ ")"
  | .named name => name

/-- The texts of types, divided by commas. -/
def listText : List Ty → String
  | [] => ""
  | t :: ts => t.text ++ tailText ts

/-- The texts of types, each behind a comma. -/
def tailText : List Ty → String
  | [] => ""
  | t :: ts => "," ++ t.text ++ tailText ts

end

end Ty
end ClosureCodegen
