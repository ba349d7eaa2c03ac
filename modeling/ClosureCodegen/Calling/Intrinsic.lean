import ClosureCodegen.Code.Instr

/-!
# Intrinsics

Some builtin routines do the work of one or two machine instructions.  A call of one whose result is
wanted is replaced by these instructions, provided that the classes of its arguments and of its
destination are those of the routine.  Sign tests compare with a zero that is put into the float
scratch register.
-/

namespace ClosureCodegen

/-- The register of an argument list that consists of one register of a class. -/
def single? (cls : RegClass) : List Reg → Option Reg
  | [r] => if r.cls = cls then some r else none
  | _ => none

/-- The code of a callee that needs no call. -/
def intrinsic? (callee : String) (dest : Reg) (args : List Reg) : Option Code :=
  let zero := Reg.ofPhys .floatScratch
  let setZero := Instr.unary .fmvWX zero (.ofPhys .zero)
  match dest.cls, callee with
  | .float, "min_caml_float_of_int" => (single? .int args).map fun x => [.unary .fcvtSW dest x]
  | .float, "min_caml_fneg" => (single? .float args).map fun x => [.unary .fneg dest x]
  | .float, "min_caml_fsqr" => (single? .float args).map fun x => [.binary .fmul dest x x]
  | .float, "min_caml_fabs" => (single? .float args).map fun x => [.unary .fabs dest x]
  | .float, "min_caml_sqrt" => (single? .float args).map fun x => [.unary .fsqrt dest x]
  | .int, "min_caml_int_of_float" => (single? .float args).map fun x => [.unary .fcvtWS dest x]
  | .int, "min_caml_fless" =>
    -- The arguments arrive in reverse order, so the routine compares the second with the first.
    match args with
    | [x, y] => if x.cls = .float ∧ y.cls = .float then some [.binary .flt dest y x] else none
    | _ => none
  | .int, "min_caml_fisneg" =>
    (single? .float args).map fun x => [setZero, .binary .flt dest x zero]
  | .int, "min_caml_fispos" =>
    (single? .float args).map fun x => [setZero, .binary .flt dest zero x]
  | .int, "min_caml_fiszero" =>
    (single? .float args).map fun x => [setZero, .binary .feq dest zero x]
  | _, _ => none

/-- The callee and the instructions of an instruction that calls an intrinsic for its result. -/
def Instr.intrinsic? (i : Instr) : Option (String × Code) :=
  if i.op = .callDirectResult then do
    let dest ← i.reg? 0
    let callee ← i.labelAt? 1
    return (callee, ← ClosureCodegen.intrinsic? callee dest (i.regs.drop 1))
  else none

/-- Replaces intrinsic calls, and lists their callees in order. -/
def inlineIntrinsics (code : Code) : Code × List String :=
  let found := code.map fun i => (i, i.intrinsic?)
  (found.flatMap fun (i, inlined?) => (inlined?.map Prod.snd).getD [i],
    found.filterMap fun (_, inlined?) => inlined?.map Prod.fst)

end ClosureCodegen
