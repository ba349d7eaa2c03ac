import ClosureCodegen.Code.Instr
import ClosureCodegen.Numeral.Binary64.Text

/-!
# Assembler text

The text of an instruction is a tab, its mnemonic padded to a column, and its operands.  Loads,
stores, indirect jumps and vector accesses with the operands they are meant for use the
`offset(base)` form.  Names of variables and labels may contain points, which the assembler does
not accept in a name, so a point is written as an underscore.  The text of a comment is left as it
is.
-/

namespace ClosureCodegen

/-- A name as the assembler can read it. -/
def assemblerName (s : String) : String :=
  s.map fun c => if c = '.' then '_' else c

def laneText (m : BitVec 8) : String :=
  String.ofList ((List.range 4).map fun k => if m.getLsbD k then '1' else '0')

def Operand.text : Operand → String
  | .reg r => assemblerName r.name
  | .imm w => w.text
  | .fimm v => v.text
  | .label l => assemblerName l
  | .mask m => laneText m

/-- The mnemonic padded on the right to the operand column. -/
def Opcode.column (op : Opcode) : String :=
  op.mnemonic.pushn ' ' (10 - op.mnemonic.length)

/-- The operands of an instruction, in the notation of its opcode. -/
def Instr.operandText (i : Instr) : String :=
  match i.op, i.operands.map Operand.text with
  | .sw, [base, s, offset] | .fsw, [base, s, offset] => s ++ ", " ++ offset ++ "(" ++ base ++ ")"
  | .lw, [d, base, offset] | .flw, [d, base, offset] | .jalr, [d, base, offset] =>
    d ++ ", " ++ offset ++ "(" ++ base ++ ")"
  | .vlw, [base, r₀, r₁, r₂, r₃, offset, mask] | .vsw, [base, r₀, r₁, r₂, r₃, offset, mask] =>
    ", ".intercalate [r₀, r₁, r₂, r₃, offset ++ "(" ++ base ++ ")", mask]
  | _, texts => ", ".intercalate texts

/-- The line of an instruction in a listing. -/
def Instr.text (i : Instr) : String :=
  match i.op, i.operands with
  | .label, [] => "<label>:"
  | .label, o :: _ => o.text ++ ":"
  | .comment, .label s :: _ => "# " ++ s
  | .comment, _ => "#"
  | op, [] => "\t" ++ op.mnemonic
  | op, _ => "\t" ++ op.column ++ i.operandText

end ClosureCodegen
