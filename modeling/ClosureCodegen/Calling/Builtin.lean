import ClosureCodegen.Machine.Convention

/-!
# Builtin routines

Every listing starts with a set of hand-written routines: array creation, conversions, sign tests,
and input and output through address zero.  A routine states which registers it
overwrites, so that a caller saves only those.
-/

namespace ClosureCodegen

/-- A hand-written routine. -/
structure Builtin where
  name : String
  result : Option RegClass
  intClobbers : List String
  floatClobbers : List String
  /-- The lines behind the entry label. A line that ends in a colon is a label. -/
  body : List String
  deriving DecidableEq, Repr

namespace Builtin

/-- The registers that a routine may change. -/
def clobbers (b : Builtin) : RegSet :=
  RegSet.ofList (PhysReg.ofNames (b.intClobbers ++ b.floatClobbers))

def lineText (line : String) : String :=
  (if line.endsWith ":" then line else "\t" ++ line) ++ "\n"

def text (b : Builtin) : String :=
  b.name ++ ":\n" ++ String.join (b.body.map lineText)

end Builtin

abbrev BuiltinTable := List Builtin

namespace BuiltinTable

/-- Adds a routine, in the place of one with the same name. -/
def insert (table : BuiltinTable) (b : Builtin) : BuiltinTable :=
  if table.any fun c => c.name == b.name then
    table.map fun c => if c.name == b.name then b else c
  else table ++ [b]

def get? (table : BuiltinTable) (name : String) : Option Builtin :=
  table.find? fun b => b.name == name

def text (table : BuiltinTable) : String :=
  String.join (table.map Builtin.text)

/-- The table of a list of routines, of which a later one replaces an earlier one. -/
def ofList (builtins : List Builtin) : BuiltinTable :=
  builtins.foldl insert []

/-- Reads a word from the input byte by byte, the most significant first, into `a1`. -/
def readWord : List String :=
  "lw a1, 0(x0)" ::
    (List.replicate 3 ["lw a2, 0(x0)", "slli a1, a1, 8", "or a1, a1, a2"]).flatten

/-- The routines of every listing. -/
def standard : BuiltinTable :=
  [{ name := "min_caml_create_array", result := some .int
     intClobbers := ["a1", "a2", "a3", "a4"], floatClobbers := []
     body :=
      ["mv a3, hp", "beq a1, x0, end_loop_min_caml_create_array", "slli a1, a1, 2",
       "add hp, hp, a1", "li a1, 0", "mv a4, a3", "loop_min_caml_create_array:", "sw a2, 0(a4)",
       "addi a1, a1, 4", "add a4, a1, a3", "bne hp, a4, loop_min_caml_create_array",
       "end_loop_min_caml_create_array:", "mv a1, a3", "ret"] },
   { name := "min_caml_create_float_array", result := some .int
     intClobbers := ["a1", "a2", "a4"], floatClobbers := ["fa0"]
     body :=
      ["mv a2, hp", "beq a1, x0, end_loop_min_caml_create_float_array", "slli a1, a1, 2",
       "add hp, hp, a1", "li a1, 0", "mv a4, a2", "loop_min_caml_create_float_array:",
       "fsw fa0, 0(a4)", "addi a1, a1, 4", "add a4, a1, a2",
       "bne hp, a4, loop_min_caml_create_float_array", "end_loop_min_caml_create_float_array:",
       "mv a1, a2", "ret"] },
   { name := "min_caml_float_of_int", result := some .float
     intClobbers := ["a1"], floatClobbers := ["fa0"], body := ["fcvt.s.w fa0, a1", "ret"] },
   { name := "min_caml_int_of_float", result := some .int
     intClobbers := ["a1"], floatClobbers := ["fa0"], body := ["fcvt.w.s a1, fa0", "ret"] },
   { name := "min_caml_fless", result := some .int
     intClobbers := ["a1"], floatClobbers := ["fa0", "fa1"], body := ["flt a1, fa0, fa1", "ret"] },
   { name := "min_caml_fneg", result := some .float
     intClobbers := [], floatClobbers := ["fa0"], body := ["fsgnjn fa0, fa0, fa0", "ret"] },
   { name := "min_caml_fsqr", result := some .float
     intClobbers := [], floatClobbers := ["fa0"], body := ["fmul fa0, fa0, fa0", "ret"] },
   { name := "min_caml_fabs", result := some .float
     intClobbers := [], floatClobbers := ["fa0"], body := ["fsgnjx fa0, fa0, fa0", "ret"] },
   { name := "min_caml_fsgnj", result := some .float
     intClobbers := [], floatClobbers := ["fa0"], body := ["fsgnj fa0, fa0, fa0", "ret"] },
   { name := "min_caml_floor", result := some .float
     intClobbers := ["a1"], floatClobbers := ["fa0", "fa1"]
     body :=
      ["fcvt.w.s a1, fa0", "fcvt.s.w fa1, a1", "fle a1, fa1, fa0",
       "beq a1, x0, min_caml_floor_else",
       "fmv fa0, fa1", "ret", "min_caml_floor_else:", "li a1, 1065353216", "fmv.w.x fa0, a1",
       "fsub fa0, fa1, fa0", "fcvt.w.s a1, fa0", "fcvt.s.w fa1, a1", "ret"] },
   { name := "min_caml_fhalf", result := some .float
     intClobbers := ["a1"], floatClobbers := ["fa0", "fa1"]
     body := ["li a1, 1056964608", "fmv.w.x fa1, a1", "fmul fa0, fa0, fa1", "ret"] },
   { name := "min_caml_sqrt", result := some .float
     intClobbers := [], floatClobbers := ["fa0"], body := ["fsqrt fa0, fa0", "ret"] },
   { name := "min_caml_fisneg", result := some .int
     intClobbers := ["a1"], floatClobbers := ["fa0", "fa1"]
     body := ["fmv.w.x fa1, x0", "flt a1, fa0, fa1", "ret"] },
   { name := "min_caml_fispos", result := some .int
     intClobbers := ["a1"], floatClobbers := ["fa0", "fa1"]
     body := ["fmv.w.x fa1, x0", "flt a1, fa1, fa0", "ret"] },
   { name := "min_caml_fiszero", result := some .int
     intClobbers := ["a1"], floatClobbers := ["fa0", "fa1"]
     body := ["fmv.w.x fa1, x0", "feq a1, fa0, fa1", "ret"] },
   { name := "min_caml_print_char", result := none
     intClobbers := ["a1"], floatClobbers := [], body := ["sw a1, 0(x0)", "ret"] },
   { name := "min_caml_print_int", result := none
     intClobbers := ["a1", "a2", "a3", "a4"], floatClobbers := []
     body :=
      ["li a2, 0", "li a3, 0", "li a4, 100", "min_caml_print_int_hundreds:",
       "blt a1, a4, min_caml_print_int_tens_pre", "sub a1, a1, a4", "addi a2, a2, 1",
       "j min_caml_print_int_hundreds", "min_caml_print_int_tens_pre:", "li a4, 10",
       "min_caml_print_int_tens:", "blt a1, a4, min_caml_print_int_ones", "sub a1, a1, a4",
       "addi a3, a3, 1", "j min_caml_print_int_tens", "min_caml_print_int_ones:", "addi a2, a2, 48",
       "sw a2, 0(x0)", "addi a3, a3, 48", "sw a3, 0(x0)", "addi a1, a1, 48", "sw a1, 0(x0)",
       "ret"] },
   { name := "min_caml_read_int", result := some .int
     intClobbers := ["a1", "a2"], floatClobbers := [], body := readWord ++ ["ret"] },
   { name := "min_caml_read_float", result := some .float
     intClobbers := ["a1", "a2"], floatClobbers := ["fa0"]
     body := readWord ++ ["fmv.w.x fa0, a1", "ret"] },
   { name := "min_caml_debug_int", result := none
     intClobbers := [], floatClobbers := [], body := ["ret"] },
   { name := "min_caml_debug_float", result := none
     intClobbers := [], floatClobbers := [], body := ["ret"] }]

end BuiltinTable
end ClosureCodegen
