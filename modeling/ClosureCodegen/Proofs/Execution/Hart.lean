import ClosureCodegen.Proofs.Execution.Correspondence

/-!
# Running machine code

Expanded code runs on a *hart*: registers by their assembler names, and a memory of words.  The
register `x0` reads as zero, whatever is written to it.  Float operations and the addresses of labels
are those of the `Environment`; slots, parameters and the other pseudo-operations have no meaning
any more.

A call hands the whole hart over and gets a hart back.  What a callee returns may depend on how many
calls there have been, so nothing is assumed of what happens between two of them.  A run shows its
calls, each with the state of the hart, and leaves in one of the ways of `Exit`, again with the
state of the hart.  A jump or a branch to a label that the body does not have leaves it.
-/

namespace ClosureCodegen

/-- The machine that expanded code runs on. -/
structure Hart where
  regs : String → Word
  memory : Word → Word

namespace Hart

/-- What a register reads as. -/
def get (h : Hart) (r : Reg) : Word :=
  if r.names .zero then 0 else h.regs r.name

/-- Writes a register. -/
def set (h : Hart) (r : Reg) (v : Word) : Hart :=
  if r.names .zero then h else { h with regs := fun x => if x = r.name then v else h.regs x }

/-- Writes registers one after another. -/
def setAll (h : Hart) (rs : List Reg) (vs : List Word) : Hart :=
  (rs.zip vs).foldl (fun h (r, v) => h.set r v) h

def write (h : Hart) (a v : Word) : Hart :=
  { h with memory := fun b => if b = a then v else h.memory b }

/-- What operations see besides the registers they read. -/
def context (h : Hart) : Context := ⟨⟨h.memory, 0⟩, 0, fun _ => 0⟩

end Hart

/-- Whether an operation is one of the machine and makes no call. -/
def Operation.isNative : Operation → Bool
  | .machineCall _ | .indirectCall .. | .slotStore _ | .slotLoad _ | .param | .captured _ | .call ..
  | .tailCall _ | .returnValue | .returnUnit => false
  | _ => true

/-- Executes an instruction that makes no call. -/
def Instr.run (env : Environment) (i : Instr) (h : Hart) : Option (Hart × Transfer) :=
  i.decode?.bind fun d =>
    if d.operation.isNative then
      (d.operation.perform env 0 h.context (d.reads.map h.get)).map fun e =>
        (({ h with memory := e.heap.memory } : Hart).setAll d.writes e.values, e.transfer)
    else none

def Instr.callee? (i : Instr) (h : Hart) : Option Callee :=
  i.decode?.bind fun d =>
    match d.operation, d.reads with
    | .machineCall l, _ => some (.function l)
    | .indirectCall offset _, [s] => some (.code (h.get s + offset))
    | _, _ => none

/-- What a run on a hart depends on. -/
structure HartEnvironment extends Environment where
  /-- What comes back from a call, given how many there have been before. -/
  reply : Nat → Callee → Hart → Hart

/-- A call, with the state in which it is made. -/
structure HartEvent where
  callee : Callee
  hart : Hart

/-- The part of the body that is in front, the state, and the number of calls so far. -/
structure HartConfig where
  rest : Code
  hart : Hart
  calls : Nat

/-- Where control goes, with the rest of the body and the hart behind an instruction. -/
def Transfer.continueOn (code rest : Code) (h : Hart) (calls : Nat) :
    Transfer → Progress HartConfig (Exit × Hart) HartEvent
  | .next => .next [] ⟨rest, h, calls⟩
  | .branch l | .jump l =>
    match codeAfter? l code with
    | some target => .next [] ⟨target, h, calls⟩
    | none => .exit [] (.toLabel l, h)
  | .exit x => .exit [] (x, h)

def hartStep (env : HartEnvironment) (code : Code) (c : HartConfig) :
    Progress HartConfig (Exit × Hart) HartEvent :=
  match c.rest with
  | [] => .exit [] (.atEnd, c.hart)
  | i :: rest =>
    match i.callee? c.hart with
    | some callee =>
      .next [⟨callee, c.hart⟩] ⟨rest, env.reply c.calls callee c.hart, c.calls + 1⟩
    | none =>
      match i.run env.toEnvironment c.hart with
      | some (h, t) => t.continueOn code rest h c.calls
      | none => .stuck

/-! ## Registers -/

namespace Hart

variable {h : Hart} {q r : Reg} {v w : Word}

theorem get_of_names_zero (hr : r.names .zero = true) : h.get r = 0 := if_pos hr

theorem get_of_not_names_zero (hr : r.names .zero = false) : h.get r = h.regs r.name :=
  if_neg (Bool.eq_false_iff.mp hr)

theorem names_zero_congr (hn : q.name = r.name) : q.names .zero = r.names .zero := by
  rw [Reg.names, Reg.names, hn]

theorem get_congr (hn : q.name = r.name) : h.get q = h.get r := by
  rw [get, get, names_zero_congr hn, hn]

theorem get_set_of_ne (hn : q.name ≠ r.name) : (h.set r v).get q = h.get q := by
  unfold set
  split
  · rfl
  · simp only [get, if_neg hn]

theorem get_set_self (hr : r.names .zero = false) : (h.set r v).get r = v := by
  rw [set, if_neg (Bool.eq_false_iff.mp hr), get_of_not_names_zero hr]
  exact if_pos rfl

theorem set_of_names_zero (hr : r.names .zero = true) : h.set r v = h := if_pos hr

theorem set_get_self (hn : q.name = r.name) : h.set q (h.get r) = h := by
  cases hr : r.names .zero with
  | true => exact set_of_names_zero (by rw [names_zero_congr hn, hr])
  | false =>
    have hq : q.names .zero = false := by rw [names_zero_congr hn, hr]
    rw [set, if_neg (Bool.eq_false_iff.mp hq), get_of_not_names_zero hr]
    congr 1
    funext x
    split
    · next hx => rw [hx, hn]
    · rfl

theorem set_comm (hn : q.name ≠ r.name) : (h.set q v).set r w = (h.set r w).set q v := by
  unfold set
  split
  · split <;> rfl
  · split
    · rfl
    · simp only [mk.injEq, and_true]
      funext x
      split
      · next hx => rw [if_neg (by rw [hx]; exact Ne.symm hn)]
      · rfl

@[simp] theorem memory_set : (h.set r v).memory = h.memory := by
  unfold set
  split <;> rfl

@[simp] theorem setAll_nil (h : Hart) (vs : List Word) : h.setAll [] vs = h := rfl

@[simp] theorem setAll_cons (h : Hart) (r : Reg) (rs : List Reg) (v : Word) (vs : List Word) :
    h.setAll (r :: rs) (v :: vs) = (h.set r v).setAll rs vs := rfl

@[simp] theorem memory_setAll (h : Hart) (rs : List Reg) (vs : List Word) :
    (h.setAll rs vs).memory = h.memory := by
  induction rs generalizing h vs with
  | nil => rfl
  | cons r rs ih =>
    cases vs with
    | nil => rfl
    | cons v vs => rw [setAll_cons, ih, memory_set]

/-- A register keeps its value if all that is written is other registers and `x0`. -/
theorem get_setAll_of_apart {rs : List Reg} {vs : List Word}
    (hr : ∀ d ∈ rs, d.names .zero = true ∨ d.name ≠ r.name) : (h.setAll rs vs).get r = h.get r := by
  induction rs generalizing h vs with
  | nil => rfl
  | cons d rs ih =>
    rw [List.forall_mem_cons] at hr
    cases vs with
    | nil => rfl
    | cons v vs =>
      rw [setAll_cons, ih hr.2]
      rcases hr.1 with hz | hn
      · rw [set_of_names_zero hz]
      · rw [get_set_of_ne hn.symm]

@[simp] theorem get_write (a : Word) : (h.write a v).get r = h.get r := rfl

theorem memory_write_self (a : Word) : (h.write a v).memory a = v := if_pos rfl

theorem memory_write_of_ne {a b : Word} (hb : b ≠ a) : (h.write a v).memory b = h.memory b :=
  if_neg hb

end Hart

/-! ## Instructions -/

namespace Instr

variable {env : Environment} {h h' : Hart} {t : Transfer}

theorem run_eq_some {i : Instr} (hr : i.run env h = some (h', t)) : ∃ d e,
    i.decode? = some d ∧ d.operation.isNative = true ∧
      d.operation.perform env 0 h.context (d.reads.map h.get) = some e ∧
      h' = ({ h with memory := e.heap.memory } : Hart).setAll d.writes e.values ∧ t = e.transfer := by
  obtain ⟨d, hd, hr⟩ := Option.bind_eq_some_iff.mp hr
  split at hr
  · next hn =>
    obtain ⟨e, he, heq⟩ := Option.map_eq_some_iff.mp hr
    cases heq
    exact ⟨d, e, hd, hn, he, rfl, rfl⟩
  · cases hr

/-- All that is written is `x0` and what the table of effects says. -/
theorem names_zero_or_mem_defs {i : Instr} {d : Decoded} {r : Reg} (hd : i.decode? = some d)
    (hr : r ∈ d.writes) : r.names .zero = true ∨ r ∈ i.defs := by
  rcases mem_defs_of_mem_writes hd hr with rfl | hr
  · exact .inl rfl
  · exact .inr hr

theorem get_setAll_writes {i : Instr} {d : Decoded} {r : Reg} {vs : List Word} (hd : i.decode? = some d)
    (hn : ∀ d ∈ i.defs, r.name ≠ d.name) : (h.setAll d.writes vs).get r = h.get r :=
  Hart.get_setAll_of_apart fun e he => (names_zero_or_mem_defs hd he).imp_right fun he => (hn e he).symm

theorem get_run_of_not_mem {i : Instr} (hr : i.run env h = some (h', t)) {r : Reg}
    (hn : ∀ d ∈ i.defs, r.name ≠ d.name) : h'.get r = h.get r := by
  obtain ⟨d, e, hd, _, _, rfl, _⟩ := run_eq_some hr
  exact get_setAll_writes hd hn

theorem canTransfer_run {i : Instr} (hr : i.run env h = some (h', t)) : i.CanTransfer t := by
  obtain ⟨d, e, hd, _, he, _, rfl⟩ := run_eq_some hr
  exact canTransfer_decode? hd (Operation.perform_inv he).2.1

theorem run_load (d b : Reg) (o : Word) :
    (Instr.load d b o).run env h = some (h.set d (h.memory (h.get b + o)), .next) := by
  rcases d with ⟨x, c⟩
  cases c <;> rfl

theorem run_store (b r : Reg) (o : Word) :
    (Instr.store b r o).run env h = some (h.write (h.get b + o) (h.get r), .next) := by
  rcases r with ⟨x, c⟩
  cases c <;> rfl

theorem op_of_callee? {i : Instr} {callee : Callee} (hc : i.callee? h = some callee) :
    i.op = .call ∨ i.op = .jalr := by
  obtain ⟨op, os⟩ := i
  have hop : (op = .call ∨ op = .jalr) ↔ op.family = .machineCall ∨ op.family = .indirect := by
    cases op <;> simp [Opcode.family]
  obtain ⟨d, hd, hc⟩ := Option.bind_eq_some_iff.mp hc
  have hdec : Decodes op op.family os d := decodes_of_decode? hd
  simp only [hop]
  generalize op.family = form at hdec
  cases hdec <;> first | exact .inl rfl | exact .inr rfl | cases hc

@[simp] theorem callee?_load (d b : Reg) (o : Word) : (Instr.load d b o).callee? h = none := by
  rcases d with ⟨x, c⟩
  cases c <;> rfl

@[simp] theorem callee?_store (b r : Reg) (o : Word) : (Instr.store b r o).callee? h = none := by
  rcases r with ⟨x, c⟩
  cases c <;> rfl

end Instr

end ClosureCodegen
