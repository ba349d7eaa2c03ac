import ClosureCodegen.Calling.Frame
import ClosureCodegen.Proofs.Execution.Blocks
import ClosureCodegen.Proofs.Execution.Hart

/-!
# Runs in which everyone keeps to the stack discipline

A body that shares its stack with others can promise something about it only in runs in which the
others keep to the rules.  A callee returns with the stack pointer and the callee-saved registers it
was entered with, and leaves the words from there upwards alone; the body itself touches these words
only by way of the stack pointer.  `Visits` are the configurations of such runs.

Addresses wrap around, so "upwards" is said relative to the address `top` at which the frame of the
body begins: the words of the frame are those from the stack pointer up to `top`.

To follow a run through a block one says what has to hold in front of each instruction and where
control leaves the block: `Leads`.  For a straight stretch of instructions `Passes` relates what
holds in front of it to what holds behind it, and stretches are put together with `Passes.append`.
-/

namespace ClosureCodegen
open List

/-- The words from the stack pointer of a hart up to an address. -/
def Hart.InFrame (top : Word) (h : Hart) (a : Word) : Prop :=
  (a - h.get stackReg).toNat < (top - h.get stackReg).toNat

def Instr.namesStack (i : Instr) : Bool := i.regs.any fun r => r.names .stackPointer

/-- What a callee leaves as it found it. -/
structure Hart.Returns (top : Word) (h h' : Hart) : Prop where
  stack : h'.get stackReg = h.get stackReg
  saved : ∀ r, RegSet.calleeSaved.contains r = true → h'.get (.ofPhys r) = h.get (.ofPhys r)
  memory : ∀ a, h.InFrame top a → h'.memory a = h.memory a

/-- A step that keeps to the stack discipline. -/
structure HartConfig.Respects (top : Word) (c : HartConfig) (events : List HartEvent)
    (c' : HartConfig) : Prop where
  /-- A callee restores what it has to. -/
  callee : events ≠ [] → c.hart.Returns top c'.hart
  /-- Where the stack pointer is no operand, memory is the heap's and not the stack's. -/
  heap : ∀ i rest, c.rest = i :: rest → i.namesStack = false → events = [] →
    ∀ a, c.hart.InFrame top a → c'.hart.memory a = c.hart.memory a

/-- The configurations that a run visits while everyone keeps to the stack discipline. -/
inductive Visits (env : HartEnvironment) (code : Code) (top : Word) (start : HartConfig) :
    HartConfig → Prop where
  | start : Visits env code top start start
  | step {c c' : HartConfig} {events : List HartEvent} : Visits env code top start c →
      hartStep env code c = .next events c' → c.Respects top events c' →
      Visits env code top start c'

namespace Visits

variable {env : HartEnvironment} {code : Code} {top : Word} {start c c' : HartConfig}
  (hv : Visits env code top start c)
include hv

theorem onStack {i : Instr} {rest : Code} (hs : hartStep env code c = .next [] c')
    (hi : c.rest = i :: rest) (hn : i.namesStack = true) : Visits env code top start c' := by
  refine .step hv hs ⟨nofun, fun k _ hk hkn => ?_⟩
  rw [hi] at hk
  cases hk
  rw [hn] at hkn
  cases hkn

theorem onRegs (hs : hartStep env code c = .next [] c') (hm : c'.hart.memory = c.hart.memory) :
    Visits env code top start c' :=
  .step hv hs ⟨nofun, fun _ _ _ _ _ a _ => congrFun hm a⟩

theorem onCall {e : HartEvent} (hs : hartStep env code c = .next [e] c') (hh : c'.hart = c.hart) :
    Visits env code top start c' :=
  .step hv hs ⟨fun _ => hh ▸ ⟨rfl, fun _ _ => rfl, fun _ _ => rfl⟩, nofun⟩

end Visits

/-! ## Single instructions -/

/-- What one instruction can make of a hart while everyone keeps to the stack discipline, and where
control goes. -/
def Instr.Moves (env : Environment) (top : Word) (i : Instr) (h h' : Hart) (t : Transfer) : Prop :=
  (∃ callee, i.callee? h = some callee ∧ t = .next ∧ h.Returns top h') ∨
    (i.callee? h = none ∧ i.run env h = some (h', t) ∧
      (i.namesStack = false → ∀ a, h.InFrame top a → h'.memory a = h.memory a))

theorem exists_moves_of_hartStep {env : HartEnvironment} {code : Code} {top : Word}
    {c c' : HartConfig} {events : List HartEvent} (hs : hartStep env code c = .next events c')
    (hr : c.Respects top events c') : ∃ i rest t, c.rest = i :: rest ∧
      i.Moves env.toEnvironment top c.hart c'.hart t ∧ Follows code rest t c'.rest := by
  obtain ⟨rest, h, calls⟩ := c
  unfold hartStep at hs
  cases rest with
  | nil => cases hs
  | cons i rest =>
    refine ⟨i, rest, ?_⟩
    cases hcallee : i.callee? h with
    | some callee =>
      simp only [hcallee] at hs
      cases hs
      exact ⟨.next, rfl, .inl ⟨callee, hcallee, rfl, hr.callee nofun⟩, rfl⟩
    | none =>
      simp only [hcallee] at hs
      split at hs
      · next h' t hrun =>
        have hmoves : events = [] → c'.hart = h' →
            i.Moves env.toEnvironment top h c'.hart t := fun he hh =>
          .inr ⟨hcallee, hh ▸ hrun, fun hn a ha => hr.heap i rest rfl hn he a ha⟩
        refine ⟨t, rfl, ?_⟩
        cases t with
        | next =>
          cases hs
          exact ⟨hmoves rfl rfl, rfl⟩
        | branch l | jump l =>
          simp only [Transfer.continueOn] at hs
          split at hs
          · next target htarget =>
            cases hs
            exact ⟨hmoves rfl rfl, htarget⟩
          · cases hs
        | exit x => cases hs
      · cases hs

theorem Instr.Moves.of_run {env : Environment} {top : Word} {i : Instr} {h h' k : Hart}
    {t u : Transfer} (hm : i.Moves env top h h' t) (hc : i.callee? h = none)
    (hr : i.run env h = some (k, u)) : h' = k ∧ t = u := by
  rcases hm with ⟨callee, hcallee, _⟩ | ⟨_, hrun, _⟩
  · rw [hc] at hcallee
    cases hcallee
  · rw [hr] at hrun
    cases hrun
    exact ⟨rfl, rfl⟩

theorem Instr.Moves.of_callee {env : Environment} {top : Word} {i : Instr} {h h' : Hart}
    {t : Transfer} {callee : Callee} (hm : i.Moves env top h h' t) (hc : i.callee? h = some callee) :
    t = .next ∧ h.Returns top h' := by
  rcases hm with ⟨_, _, rfl, hr⟩ | ⟨hnone, _⟩
  · exact ⟨rfl, hr⟩
  · rw [hc] at hnone
    cases hnone

/-! ## Blocks -/

section Blocks

variable (env : Environment) (top : Word)

/-- Control goes through a block, with a check in front of every instruction, and leaves it with a
postcondition. -/
inductive Leads (check : Instr → Hart → Prop) (post : Transfer → Hart → Prop) :
    Code → Hart → Prop where
  | nil {h : Hart} : post .next h → Leads check post [] h
  | cons {i : Instr} {block : Code} {h : Hart} : check i h →
      (∀ h', i.Moves env top h h' .next → Leads check post block h') →
      (∀ h' t, t ≠ .next → i.Moves env top h h' t → post t h') → Leads check post (i :: block) h

/-- Control goes straight through a block, from one property to another. -/
def Passes (check : Instr → Hart → Prop) (P : Hart → Prop) (block : Code) (Q : Hart → Prop) :
    Prop :=
  ∀ h, P h → Leads env top check (fun t h' => t = .next ∧ Q h') block h

variable {env top} {check : Instr → Hart → Prop} {post : Transfer → Hart → Prop}
  {P Q R : Hart → Prop} {a b : Code}

theorem Passes.leads (hp : Passes env top check P a Q)
    (hb : ∀ h, Q h → Leads env top check post b h) {h : Hart} (hP : P h) :
    Leads env top check post (a ++ b) h := by
  have hl := hp h hP
  clear hp hP
  induction hl with
  | nil hQ => exact hb _ hQ.2
  | cons hc _ hout ih =>
    exact .cons hc ih fun h' t ht hm => absurd (hout h' t ht hm).1 ht

theorem Passes.append (ha : Passes env top check P a Q) (hb : Passes env top check Q b R) :
    Passes env top check P (a ++ b) R :=
  fun _ hP => ha.leads hb hP

theorem Passes.nil (h : ∀ h, P h → Q h) : Passes env top check P [] Q :=
  fun k hP => .nil ⟨rfl, h k hP⟩

theorem Passes.cons {i : Instr} (ha : Passes env top check P [i] Q)
    (hb : Passes env top check Q b R) : Passes env top check P (i :: b) R :=
  Passes.append ha hb

theorem Passes.instr {i : Instr} (hc : ∀ h, P h → check i h)
    (hm : ∀ h h' t, P h → i.Moves env top h h' t → t = .next ∧ Q h') :
    Passes env top check P [i] Q := by
  intro h hP
  exact .cons (hc h hP) (fun h' hmove => .nil (hm h h' .next hP hmove)) fun h' t _ hmove =>
    hm h h' t hP hmove

theorem Passes.leads_self (hp : Passes env top check P a Q) (hpost : ∀ h, Q h → post .next h)
    {h : Hart} (hP : P h) : Leads env top check post a h := by
  have := hp.leads (b := []) (fun k hQ => .nil (hpost k hQ)) hP
  rwa [append_nil] at this

theorem leads_singleton {i : Instr} {h : Hart} (hc : check i h)
    (hm : ∀ h' t, i.Moves env top h h' t → post t h') : Leads env top check post [i] h :=
  .cons hc (fun h' hmove => .nil (hm h' .next hmove)) fun h' t _ hmove => hm h' t hmove

end Blocks

end ClosureCodegen
