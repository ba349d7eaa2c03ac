import ClosureCodegen.Liveness.LiveSet

/-!
# Dead definitions

An instruction is dead if it does nothing but define registers that no instruction of the body
reads.  Deleting it may leave other registers unread, so deletion is repeated until nothing
changes.  A call whose result nobody reads stays, without a destination.  Each round either
deletes an instruction or takes a destination away, so the `weight` of the body falls until the
rounds come to rest.
-/

namespace ClosureCodegen

/-- Whether an opcode has no effect beyond the registers it defines. -/
def Opcode.isPure : Opcode → Bool
  | .li | .fli | .la | .mv | .fmv | .fmvWX | .neg | .fneg | .fabs | .fsqrt | .fcvtSW | .fcvtWS
  | .addi | .slli | .srli | .add | .sub | .sll | .srl | .fadd | .fsub | .fmul | .fdiv | .feq | .fle
  | .flt | .fsgnj | .fsgnjn | .fsgnjx | .lw | .flw | .lwi | .flwi | .spillLoad | .captured => true
  | _ => false

/-- Everything some instruction reads. -/
def usedAnywhere (code : Code) : LiveSet :=
  LiveSet.ofList (code.flatMap Instr.trackedUses)

/-- Whether an instruction defines something, and nothing that is used. -/
def Instr.isUnread (used : LiveSet) (i : Instr) : Bool :=
  !i.trackedDefs.isEmpty && i.trackedDefs.all fun r => r ∉ used

/-- What is left of an instruction once it defines nothing that is used. -/
def Instr.withoutUnread (used : LiveSet) (i : Instr) : Option Instr :=
  if i.isUnread used then
    match i.op with
    | .callDirectResult => some ⟨.callDirect, i.operands.drop 1⟩
    | .callClosureResult => some ⟨.callClosure, i.operands.drop 1⟩
    | op => if op.isPure then none else some i
  else some i

/-- How much of an instruction can still be deleted. -/
def Instr.weight (i : Instr) : Nat :=
  if i.op = .callDirectResult ∨ i.op = .callClosureResult then 2 else 1

/-- How much of a body can still be deleted. -/
def codeWeight : Code → Nat
  | [] => 0
  | i :: code => i.weight + codeWeight code

/-- Drops definitions that the body uses nowhere. Calls only lose their results. -/
def dropUnread (code : Code) : Code :=
  code.filterMap (Instr.withoutUnread (usedAnywhere code))

theorem Instr.weight_pos (i : Instr) : 0 < i.weight := by
  unfold weight; split <;> omega

theorem Instr.weight_withoutUnread {used : LiveSet} {i k : Instr}
    (h : i.withoutUnread used = some k) : k = i ∨ k.weight < i.weight := by
  unfold withoutUnread at h
  split at h
  · split at h
    · next hop => cases h; right; simp [weight, hop]
    · next hop => cases h; right; simp [weight, hop]
    · split at h
      · cases h
      · exact .inl (Option.some.inj h).symm
  · exact .inl (Option.some.inj h).symm

theorem codeWeight_filterMap (used : LiveSet) (code : Code) :
    code.filterMap (Instr.withoutUnread used) = code ∨
      codeWeight (code.filterMap (Instr.withoutUnread used)) < codeWeight code := by
  have hle : ∀ c : Code,
      codeWeight (c.filterMap (Instr.withoutUnread used)) ≤ codeWeight c := by
    intro c
    induction c with
    | nil => exact Nat.le_refl _
    | cons i c ih =>
      rw [codeWeight]
      cases hi : i.withoutUnread used with
      | none =>
        rw [List.filterMap_cons_none hi]
        omega
      | some k =>
        rw [List.filterMap_cons_some hi, codeWeight]
        rcases Instr.weight_withoutUnread hi with rfl | h <;> omega
  induction code with
  | nil => exact .inl rfl
  | cons i c ih =>
    cases hi : i.withoutUnread used with
    | none =>
      right
      have h := hle c
      have hp := i.weight_pos
      rw [List.filterMap_cons_none hi]
      rw [codeWeight]
      omega
    | some k =>
      rw [List.filterMap_cons_some hi]
      have h := hle c
      rw [codeWeight, codeWeight]
      rcases Instr.weight_withoutUnread hi with rfl | hk
      · rcases ih with ih | ih
        · left; rw [ih]
        · right; omega
      · right; omega

/-- Drops unused definitions until nothing changes. -/
def removeDeadDefinitions (code : Code) : Code :=
  let next := dropUnread code
  if next = code then code else removeDeadDefinitions next
termination_by codeWeight code
decreasing_by
  exact (codeWeight_filterMap (usedAnywhere code) code).resolve_left ‹_›

end ClosureCodegen
