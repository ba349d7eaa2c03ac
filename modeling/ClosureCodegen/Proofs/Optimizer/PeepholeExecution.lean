import ClosureCodegen.Proofs.Optimizer.Vectorization

/-!
# Peephole cleanup between stops

Peephole cleanup works on virtual code as well, where pseudo-operations stand among the instructions
of the machine.  So the code before and the code behind are compared on a machine that leaves open
what instructions do that are not straight: it *stops* at every label, branch, jump, call and
pseudo-operation, shows the state there, and goes on in any way.  Registers are told apart by their
names only, and addresses are taken modulo `2 ^ 32`.
-/

namespace ClosureCodegen

open Instr

instance (i : Instr) : Decidable i.IsStraight :=
  decidable_of_iff
    (i.decode?.isSome = true ∧ i.op.family.isStraight = true ∧ i.isLabel = false)
    ⟨fun h => ⟨h.1, h.2.1, h.2.2⟩, fun h => ⟨h.decodes, h.family, h.noLabel⟩⟩

/-- A step that shows something else. -/
def Progress.showing {C X E F : Type} (events : List F) : Progress C X E → Progress C X F
  | .stuck => .stuck
  | .exit _ x => .exit events x
  | .next _ c => .next events c

/-- One step in a body.  Straight instructions are performed, and the others are stops. -/
def openStep (env : Environment) (meaning : Meaning) (code : Code) (c : HartConfig) :
    Progress HartConfig (Exit × Hart) Stop :=
  match c.rest with
  | [] => .exit [] (.atEnd, c.hart)
  | i :: rest =>
    if i.IsStraight then .next [] ⟨rest, i.effect env c.hart, c.calls⟩
    else
      let (h, t) := meaning c.calls i c.hart
      (t.continueOn code rest h (c.calls + 1)).showing [⟨some i, c.hart⟩]

variable {env : Environment} {meaning : Meaning}

theorem openStep_ne_stuck (code : Code) (c : HartConfig) : openStep env meaning code c ≠ .stuck := by
  obtain ⟨rest, h, n⟩ := c
  cases rest with
  | nil => nofun
  | cons i rest =>
    simp only [openStep]
    split
    · nofun
    · have hnot := Transfer.continueOn_ne_stuck code rest (meaning n i h).1 (n + 1) (meaning n i h).2
      generalize (meaning n i h).2.continueOn code rest (meaning n i h).1 (n + 1) = x at hnot ⊢
      cases x with
      | stuck => exact absurd rfl hnot
      | _ => nofun

theorem isLinear_openStep : IsLinear env (openStep env meaning) where
  straight hi h n := by simp only [openStep, if_pos hi]
  same hlabels hrest i h n := by
    simp only [openStep]
    split
    · exact .next _ ⟨hrest, rfl, rfl⟩
    · have hmatch := Transfer.matches_continueOn hlabels (meaning n i h).2 (fun _ => hrest)
        (meaning n i h).1 (n + 1)
      revert hmatch
      generalize (meaning n i h).2.continueOn _ _ _ _ = x
      generalize (meaning n i h).2.continueOn _ _ _ _ = y
      intro hmatch
      cases hmatch with
      | stuck => exact .stuck
      | exit => exact .exit _ _
      | next _ hp => exact .next _ hp
  atEnd _ _ _ := rfl

/-- Peephole cleanup keeps what a body does.  Whatever the other instructions do, and from the start
of the body as from each of its labels, runs before and behind the cleanup come to the same stops in
the same states, go on alike from there, and leave alike in the same state. -/
theorem peephole_runAlike {code : Code} (hcode : ∀ i ∈ code, i.IsClean) (env : Environment)
    (meaning : Meaning) :
    RunAlike (openStep env meaning) code (peephole code) ∧
      ∀ body c, openStep env meaning body c ≠ .stuck :=
  ⟨(simplifies_peephole isKept_isClean hcode).runAlike isLinear_openStep, openStep_ne_stuck⟩

/-- A loop that reads an element at a sum, copies it to and fro and spills it. -/
def loopWithSlot : Code :=
  [.labelled "f", ⟨.addi, [.reg (.int "t"), .reg (.int "a"), .imm 8]⟩,
    .load (.int "x") (.int "t") 4, .move (.int "y") (.int "x"), .move (.int "x") (.int "y"),
    ⟨.spillStore, [.reg (.int "x")]⟩, .branch .beq (.int "x") (.int "y") "f"]

theorem peephole_runAlike_loopWithSlot :
    peephole loopWithSlot =
      [.labelled "f", ⟨.addi, [.reg (.int "t"), .reg (.int "a"), .imm 8]⟩,
        .load (.int "x") (.int "a") 12, .move (.int "y") (.int "x"), .nop,
        ⟨.spillStore, [.reg (.int "x")]⟩, .branch .beq (.int "x") (.int "y") "f"] ∧
      RunAlike (openStep plainEnvironment fun _ _ h => (h, .next)) loopWithSlot
        (peephole loopWithSlot) := by
  have hclean : ∀ i ∈ loopWithSlot, i.IsClean := by
    simp only [loopWithSlot, List.forall_mem_cons]
    exact ⟨⟨fun _ => trivial, by decide⟩, ⟨fun _ => ⟨_, _, _, rfl⟩, by decide⟩,
      ⟨fun _ => ⟨_, _, _, rfl⟩, by decide⟩, ⟨fun _ => ⟨_, _, rfl⟩, by decide⟩,
      ⟨fun _ => ⟨_, _, rfl⟩, by decide⟩, ⟨fun _ => trivial, by decide⟩,
      ⟨fun _ => ⟨_, _, _, rfl⟩, by decide⟩, nofun⟩
  exact ⟨by with_unfolding_all rfl, (peephole_runAlike hclean _ _).1⟩

end ClosureCodegen
