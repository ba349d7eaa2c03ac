import ClosureCodegen.Calling.Frame
import ClosureCodegen.Proofs.Code.Skeleton
import ClosureCodegen.Proofs.Optimizer.Tidy

/-!
# Deferred adjustments of the stack pointer

Two runs of almost the same code: the second one has not carried out some adjustments of the stack
pointer yet, and adds what is *pending* to the offsets of its accesses instead.  `Defers` relates the
places of two such bodies.  As long as two runs are at related places, the hart of the first one is
that of the second one with the pending adjustment carried out; at every event they have caught up.

The stack pointer may be moved by constants and be the base of accesses, but nothing else may be done
with it: such instructions are `StackSafe`.

* `Hart.moveStack`: a hart with the stack pointer moved.
* `DefersTo.behavesLike`: the two bodies behave alike.
-/

namespace ClosureCodegen
open List Hart Opcode Instr Operation

variable {r : Reg} {i i' : Instr} {n : Nat} {p : Word} {f : Word → Operation} {h' h : Hart}
  {t : Transfer} {rest rest' : Code}

/-! ## Moving the stack pointer -/

theorem Reg.names_stackPointer : r.names .stackPointer = true ↔ r.name = stackReg.name := beq_iff_eq

theorem Reg.not_names_stackPointer : r.names .stackPointer = false ↔ r.name ≠ stackReg.name :=
    beq_eq_false_iff_ne

namespace Hart

variable {v q : Word}

def moveStack (h : Hart) (p : Word) : Hart := h.set stackReg (h.get stackReg + p)

@[simp] theorem moveStack_zero (h : Hart) : h.moveStack 0 = h := by
  rw [moveStack, show h.get stackReg + 0 = h.get stackReg from BitVec.add_zero _]
  exact set_get_self rfl

theorem get_moveStack_of_apart (hr : r.names .stackPointer = false) :
    (h.moveStack p).get r = h.get r :=
  get_set_of_ne (Reg.not_names_stackPointer.mp hr)

theorem get_moveStack_self (hr : r.names .stackPointer = true) :
    (h.moveStack p).get r = h.get r + p := by
  have hn := Reg.names_stackPointer.mp hr
  rw [get_congr hn, get_congr hn, moveStack, get_set_self rfl]

theorem set_moveStack (hr : r.names .stackPointer = false) :
    (h.moveStack p).set r v = (h.set r v).moveStack p := by
  have hn := Reg.not_names_stackPointer.mp hr
  rw [moveStack, moveStack, get_set_of_ne hn.symm, set_comm hn.symm]

theorem setAll_moveStack {rs : List Reg} {vs : List Word}
    (hr : ∀ r ∈ rs, r.names .stackPointer = false) :
    (h.moveStack p).setAll rs vs = (h.setAll rs vs).moveStack p := by
  induction rs generalizing h vs with
  | nil => rfl
  | cons r rs ih =>
    rw [forall_mem_cons] at hr
    cases vs with
    | nil => rfl
    | cons v vs => rw [setAll_cons, setAll_cons, set_moveStack hr.1, ih hr.2]

theorem withMemory_moveStack (m : Word → Word) :
    ({ h.moveStack p with memory := m } : Hart) = ({ h with memory := m } : Hart).moveStack p := rfl

@[simp] theorem memory_moveStack : (h.moveStack p).memory = h.memory := memory_set

theorem set_add_moveStack {d s : Reg} (hd : d.names .stackPointer = true)
    (hs : s.names .stackPointer = true) :
    (h.moveStack p).set d ((h.moveStack p).get s + q) = h.moveStack (p + q) := by
  have hdn := Reg.names_stackPointer.mp hd
  have hz : d.names .zero = false := by rw [names_zero_congr hdn]; rfl
  rw [get_moveStack_self hs, get_congr (Reg.names_stackPointer.mp hs), BitVec.add_assoc]
  simp only [moveStack, set, hz, Bool.false_eq_true, if_false,
    show stackReg.names .zero = false from rfl, hdn]
  congr 1
  funext x
  split <;> rfl

end Hart

/-! ## Instructions on a hart with the stack pointer moved -/

namespace Instr

theorem stackAdjustment?_eq_none (h : i.op ≠ .addi) : i.stackAdjustment? = none := by
  simp [stackAdjustment?, h]

theorem stackOffset?_eq_none (h : i.op.addressing? = none) : i.stackOffset? = none := by
  simp [stackOffset?, h]

end Instr

theorem Instr.isStraight_of_addressing? (hd : i.decode?.isSome = true)
    (ha : i.op.addressing?.isSome = true) : i.IsStraight := by
  obtain ⟨op, os⟩ := i
  refine ⟨hd, ?_, ?_⟩
  all_goals cases op <;> first | rfl | cases ha

theorem Opcode.addressing?_of_isBranch {op : Opcode} (h : op.isBranch = true) :
    op ≠ .addi ∧ op.addressing? = none := by
  cases op <;> first | exact absurd h (by decide) | exact ⟨by decide, rfl⟩

theorem Opcode.not_seesStack_of_isBranch {op : Opcode} (h : op.isBranch = true) :
    op.seesStack = false := by
  cases op <;> first | rfl | cases h

theorem Opcode.not_seesStack_of_addressing? {op : Opcode} (h : op.addressing?.isSome = true) :
    op.isBranch = false ∧ op.seesStack = false := by
  cases op <;> first | exact ⟨rfl, rfl⟩ | cases h

theorem Instr.addressing?_of_stackOffset? (h : i.stackOffset? = some n) :
    i.op.addressing?.isSome = true := by
  obtain ⟨a, ha, -⟩ := Option.bind_eq_some_iff.mp h
  rw [ha]
  rfl

theorem Instr.displace_eq_ok (h : i.displace n p = .ok i') :
    i.imm? n = none ∧ i' = i ∨ ∃ offset w, i.imm? n = some offset ∧ Word.add? offset p = .ok w ∧
      i' = i.setOperand n (.imm w) := by
  unfold displace at h
  split at h
  · next offset ho =>
    simp only [Outcome.bind_eq_ok, Outcome.pure_eq_ok, Fault.liftM_eq_ok] at h
    obtain ⟨w, hw, rfl⟩ := h
    exact .inr ⟨offset, w, ho, hw, rfl⟩
  · next ho =>
    cases h
    exact .inl ⟨ho, rfl⟩

theorem Opcode.family_of_addressing? {op : Opcode} {base offset : Nat}
    (h : op.addressing? = some (base, offset)) :
    op.family = .load ∧ base = 1 ∧ offset = 2 ∨ op.family = .store ∧ base = 0 ∧ offset = 2 ∨
      op.family = .vectorLoad ∧ base = 0 ∧ offset = 5 ∨
        op.family = .vectorStore ∧ base = 0 ∧ offset = 5 := by
  cases op <;> cases h <;> simp [family]

namespace Instr

variable {env : Environment}

/-- An instruction that moves the stack pointer by a constant, or names it as the base of an access at
most. -/
def StackSafe (i : Instr) : Prop :=
  i.stackAdjustment?.isSome = true ∨ ∀ r ∈ i.otherRegs, r.names .stackPointer = false

theorem run_moveStack_of_apart (hi : ∀ r ∈ i.regs, r.names .stackPointer = false) :
    i.run env (h.moveStack p) = (i.run env h).map fun (h', t) => (h'.moveStack p, t) := by
  unfold run
  cases hd : i.decode? with
  | none => rfl
  | some d =>
    have hreads : d.reads.map (h.moveStack p).get = d.reads.map h.get := by
      refine map_congr_left fun r hr => get_moveStack_of_apart (hi r ?_)
      rw [decode?_reads hd] at hr
      exact uses_subset_regs hr
    have hwrites : ∀ r ∈ d.writes, r.names .stackPointer = false := by
      intro r hr
      rcases mem_defs_of_mem_writes hd hr with rfl | hr
      · rfl
      · exact hi r (defs_subset_regs hr)
    rw [Option.bind_some, Option.bind_some, hreads,
      show (h.moveStack p).context = h.context by simp only [context, memory_moveStack]]
    split
    · cases d.operation.perform env 0 h.context (d.reads.map h.get) with
      | none => rfl
      | some e =>
        simp only [Option.map_some, withMemory_moveStack, setAll_moveStack hwrites]
    · rfl

/-- The operations on an address that is the sum of a base and an offset. -/
inductive Addressed : (Word → Operation) → Prop where
  | load : Addressed .load
  | store : Addressed .store
  | vectorLoad (k : BitVec 8) : Addressed (.vectorLoad · k)
  | vectorStore (k : BitVec 8) : Addressed (.vectorStore · k)

theorem Addressed.perform (hf : Addressed f) (env : Environment) (w : Word) (ctx : Context)
    (a o p : Word) (vs : List Word) :
    (f o).perform env w ctx ((a + p) :: vs) = (f (o + p)).perform env w ctx (a :: vs) := by
  have hsum : ∀ o : Word, a + p + o = a + (o + p) := fun o => by
    rw [BitVec.add_comm o p, BitVec.add_assoc]
  cases hf with
  | load => cases vs <;> simp only [perform, hsum]
  | store =>
    cases vs with
    | nil => rfl
    | cons v vs => cases vs <;> simp only [perform, hsum]
  | vectorLoad k => cases vs <;> simp only [perform, laneAddress, hsum]
  | vectorStore k => simp only [perform, laneAddress, hsum]

structure StackAccess (i : Instr) (n : Nat) (offset : Word) (f : Word → Operation) (base : Reg)
    (reads writes : List Reg) : Prop where
  addressed : Addressed f
  imm : i.imm? n = some offset
  decode : i.decode? = some ⟨f offset, base :: reads, writes⟩
  displaced : ∀ w, (i.setOperand n (.imm w)).decode? = some ⟨f w, base :: reads, writes⟩
  base : base.names .stackPointer = true
  apart : ∀ r, r ∈ reads ∨ r ∈ writes → r.names .stackPointer = false

theorem StackSafe.stackAccess (hi : i.StackSafe) (hd : i.decode?.isSome = true)
    (hn : i.stackOffset? = some n) :
    ∃ offset f base reads writes, StackAccess i n offset f base reads writes := by
  obtain ⟨op, os⟩ := i
  have hfit := fits_of_decodes hd
  have hstack := Or.resolve_left hi fun h => by
    cases op <;> first | cases hn | cases h
  obtain ⟨⟨k, offset⟩, haddr, hn⟩ := Option.bind_eq_some_iff.mp hn
  dsimp only at haddr hn
  split at hn
  case isFalse => cases hn
  next hbase =>
  obtain rfl := Option.some.inj hn
  simp only [otherRegs, haddr] at hstack
  rcases family_of_addressing? haddr with ⟨hf, rfl, rfl⟩ | ⟨hf, rfl, rfl⟩ | ⟨hf, rfl, rfl⟩ |
    ⟨hf, rfl, rfl⟩
  all_goals
    dsimp only at hfit
    rw [hf] at hfit
  · obtain ⟨d, b, o, rfl⟩ := hfit
    have hdec : ∀ w, (⟨op, [.reg d, .reg b, .imm w]⟩ : Instr).decode? = some ⟨.load w, [b], [d]⟩ :=
      fun w => decode?_of_decodes (by dsimp only; rw [hf]; exact .load d b w)
    exact ⟨o, _, b, [], [d], .load, rfl, hdec o, hdec, hbase, by simpa [regs] using hstack⟩
  · obtain ⟨b, s, o, rfl⟩ := hfit
    have hdec : ∀ w, (⟨op, [.reg b, .reg s, .imm w]⟩ : Instr).decode? =
        some ⟨.store w, [b, s], []⟩ :=
      fun w => decode?_of_decodes (by dsimp only; rw [hf]; exact .store b s w)
    exact ⟨o, _, b, [s], [], .store, rfl, hdec o, hdec, hbase, by simpa [regs] using hstack⟩
  · obtain ⟨b, q, r, s, t, o, k, rfl⟩ := hfit
    have hdec : ∀ w, (⟨op, [.reg b, .reg q, .reg r, .reg s, .reg t, .imm w, .mask k]⟩ : Instr).decode? =
        some ⟨.vectorLoad w k, [b], maskedLanes k [q, r, s, t]⟩ :=
      fun w => decode?_of_decodes (by dsimp only; rw [hf]; exact .vectorLoad b q r s t w k)
    refine ⟨o, _, b, [], _, .vectorLoad k, rfl, hdec o, hdec, hbase, ?_⟩
    rintro x (hx | hx)
    · cases hx
    rcases mem_maskedLanes hx with rfl | hx
    · rfl
    · exact hstack x (by simpa [regs] using hx)
  · obtain ⟨b, q, r, s, t, o, k, rfl⟩ := hfit
    have hdec : ∀ w, (⟨op, [.reg b, .reg q, .reg r, .reg s, .reg t, .imm w, .mask k]⟩ : Instr).decode? =
        some ⟨.vectorStore w k, [b, q, r, s, t], []⟩ :=
      fun w => decode?_of_decodes (by dsimp only; rw [hf]; exact .vectorStore b q r s t w k)
    exact ⟨o, _, b, [q, r, s, t], [], .vectorStore k, rfl, hdec o, hdec, hbase, by
      simpa [regs] using hstack⟩

theorem StackAccess.run {offset : Word} {base : Reg} {reads writes : List Reg}
    (ha : StackAccess i n offset f base reads writes) :
    i.run env (h.moveStack p) = ((i.setOperand n (.imm (offset + p))).run env h).map
      fun (h', t) => (h'.moveStack p, t) := by
  have hreads : (base :: reads).map (h.moveStack p).get = (h.get base + p) :: reads.map h.get := by
    rw [map_cons, Hart.get_moveStack_self ha.base]
    congr 1
    exact map_congr_left fun r hr => Hart.get_moveStack_of_apart (ha.apart r (.inl hr))
  have hnative : ∀ w, (f w).isNative = true := by
    intro w
    cases ha.addressed <;> rfl
  have hperform := ha.addressed.perform env 0 h.context (h.get base) offset p
    (reads.map h.get)
  unfold Instr.run
  rw [ha.decode, ha.displaced, Option.bind_some, Option.bind_some]
  dsimp only
  rw [if_pos (hnative _), if_pos (hnative _), hreads,
    show (h.moveStack p).context = h.context by simp only [Hart.context, Hart.memory_moveStack],
    hperform, map_cons]
  cases (f (offset + p)).perform env 0 h.context (h.get base :: reads.map h.get) with
  | none => rfl
  | some e =>
    simp only [Option.map_some, Hart.withMemory_moveStack,
      Hart.setAll_moveStack fun r hr => ha.apart r (.inr hr)]

theorem eq_of_stackAdjustment? {k : Word} (hd : i.decode?.isSome = true)
    (hk : i.stackAdjustment? = some k) :
    ∃ d s : Reg, i = ⟨.addi, [.reg d, .reg s, .imm k]⟩ ∧ d.names .stackPointer = true ∧
      s.names .stackPointer = true := by
  obtain ⟨op, os⟩ := i
  unfold stackAdjustment? at hk
  split at hk
  case isFalse => cases hk
  next h =>
  simp only [Bool.and_eq_true, decide_eq_true_eq] at h
  obtain ⟨⟨rfl, hdst⟩, hsrc⟩ := h
  obtain ⟨d, s, w, rfl⟩ := fits_of_decodes hd
  cases hk
  exact ⟨d, s, rfl, hdst, hsrc⟩

/-- An instruction that neither adjusts the stack pointer nor is based on it does not name it. -/
theorem StackSafe.apart (hi : i.StackSafe) (hd : i.decode?.isSome = true)
    (hk : i.stackAdjustment? = none) (hn : i.stackOffset? = none) :
    ∀ r ∈ i.regs, r.names .stackPointer = false := by
  have hother := Or.resolve_left hi (by rw [hk]; nofun)
  cases haddr : i.op.addressing? with
  | none => simpa only [otherRegs, haddr] using hother
  | some a =>
    obtain ⟨k, offset⟩ := a
    have hbase : i.regNames k .stackPointer = false := by
      simpa [stackOffset?, haddr] using hn
    simp only [otherRegs, haddr] at hother
    -- the base is the one register that was left out
    obtain ⟨op, os⟩ := i
    have hfit := fits_of_decodes hd
    dsimp only at hfit haddr
    rcases family_of_addressing? haddr with ⟨hf, rfl, -⟩ | ⟨hf, rfl, -⟩ | ⟨hf, rfl, -⟩ |
      ⟨hf, rfl, -⟩
    all_goals rw [hf] at hfit
    · obtain ⟨d, b, o, rfl⟩ := hfit
      simp_all [regs, regNames, reg?]
    · obtain ⟨b, t, o, rfl⟩ := hfit
      simp_all [regs, regNames, reg?]
    · obtain ⟨b, q, r, t, u, o, m, -, rfl⟩ := hfit
      simp_all [regs, regNames, reg?]
    · obtain ⟨b, q, r, t, u, o, m, rfl⟩ := hfit
      simp_all [regs, regNames, reg?]

/-! ## Where control goes -/

/-- Control goes on behind an instruction that does not need the stack pointer itself, or takes the
branch that it is. -/
theorem transfer_of_run (hr : i.run env h = some (h', t)) (hs : i.op.seesStack = false) :
    t = .next ∨ ∃ l, i.op.isBranch = true ∧ i.label? = some l ∧ t = .branch l := by
  have ht := canTransfer_run hr
  obtain ⟨d, e, hd, hnative, he, -, rfl⟩ := run_eq_some hr
  have hc := (perform_inv he).2.1
  cases htr : e.transfer with
  | next => exact .inl rfl
  | branch l =>
    rw [htr] at ht
    exact .inr ⟨l, ht.1, ht.2, rfl⟩
  | jump l =>
    rw [htr] at ht
    rw [ht.1] at hs
    cases hs
  | exit x =>
    -- an operation of the machine that leaves is a return or an indirect jump
    rw [htr] at hc
    obtain ⟨op, os⟩ := i
    have hop : op.family ≠ .machineReturn ∧ op.family ≠ .indirect := by
      cases op <;> simp_all [family, seesStack]
    have hdec : Decodes op op.family os d := decodes_of_decode? hd
    generalize op.family = form at hdec hop
    cases hdec with
    | branch => rcases hc with hc | hc <;> cases hc
    | machineReturn => exact absurd rfl hop.1
    | indirect | indirectCall => exact absurd rfl hop.2
    | tailCall | returnValue | returnUnit => cases hnative
    | _ => cases hc

theorem callee?_of_not_seesStack (hs : i.op.seesStack = false) (h : Hart) : i.callee? h = none := by
  refine Option.eq_none_iff_forall_ne_some.mpr fun callee hc => ?_
  rcases op_of_callee? hc with hop | hop <;> rw [hop] at hs <;> cases hs

/-- An instruction behind which control never goes on. -/
def Leaves (i : Instr) : Prop :=
  i.op = .j ∨ i.op = .ret ∨ ∃ (s : Reg) (o : Word), i = ⟨.jalr, [.reg zeroReg, .reg s, .imm o]⟩

theorem Leaves.callee? (hi : i.Leaves) (h : Hart) : i.callee? h = none := by
  refine Option.eq_none_iff_forall_ne_some.mpr fun callee hc => ?_
  rcases hi with hj | hr | ⟨s, o, rfl⟩
  · rcases op_of_callee? hc with hop | hop <;> rw [hj] at hop <;> cases hop
  · rcases op_of_callee? hc with hop | hop <;> rw [hr] at hop <;> cases hop
  · cases hc

theorem Leaves.transfer_ne (hi : i.Leaves) (hr : i.run env h = some (h', t)) : t ≠ .next := by
  rintro rfl
  rcases hi with hj | hret | ⟨s, o, rfl⟩
  · exact canTransfer_run hr hj
  · obtain ⟨d, e, hd, -, he, -, ht⟩ := run_eq_some hr
    have hc := (perform_inv he).2.1
    rw [← ht] at hc
    obtain ⟨op, os⟩ := i
    cases hret
    have hdec : Decodes .ret .machineReturn os d := decodes_of_decode? hd
    cases hdec
    obtain ⟨x, hx⟩ := hc
    cases hx
  · cases hr

end Instr

/-! ## Places of two bodies -/

/-- A place of a body, and the corresponding one of a body that defers adjustments, with what is
pending there. Nothing may be pending where control goes to one of the `settled` labels. Behind an
instruction that leaves nothing is asked, since control does not come there. -/
inductive Defers (code out : Code) (settled : String → Prop) : Word → Code → Code → Prop where
  | done (p : Word) : Defers code out settled p [] (settleStack p)
  | adjust {p k : Word} {i : Instr} {rest rest' : Code} : i.stackAdjustment? = some k →
      Defers code out settled (p + k) rest rest' → Defers code out settled p (i :: rest) rest'
  | access {p : Word} {n : Nat} {i i' : Instr} {rest rest' : Code} : i.stackOffset? = some n →
      i.displace n p = .ok i' → Defers code out settled p rest rest' →
      Defers code out settled p (i :: rest) (i' :: rest')
  | keep {p : Word} {i : Instr} {rest rest' : Code} : i.stackAdjustment? = none →
      i.stackOffset? = none → i.op.isBranch = false → i.op.seesStack = false →
      Defers code out settled p rest rest' → Defers code out settled p (i :: rest) (i :: rest')
  | branch {p : Word} {i : Instr} {l : String} {rest rest' target target' : Code} :
      i.op.isBranch = true → i.label? = some l → codeAfter? l code = some target →
      codeAfter? l out = some target' → Defers code out settled p target target' →
      Defers code out settled p rest rest' → Defers code out settled p (i :: rest) (i :: rest')
  | settle {p : Word} {i : Instr} {rest rest' : Code} :
      (∀ l, i.op = .j ∨ i.op.isBranch = true → i.label? = some l → settled l) →
      (¬ i.Leaves → Defers code out settled 0 rest rest') →
      Defers code out settled p (i :: rest) (settleStack p ++ i :: rest')

/-- A label is at corresponding places of two bodies, with nothing pending behind it. -/
def Lands (code out : Code) (settled : String → Prop) (l : String) : Prop :=
  ∃ target target', codeAfter? l code = some target ∧ codeAfter? l out = some target' ∧
    Defers code out settled 0 target target'

/-- A body, and what it is if adjustments are deferred. -/
structure DefersTo (code out : Code) (settled : String → Prop) : Prop where
  safe : ∀ i ∈ code, i.StackSafe
  labels : ∀ l, settled l →
    codeAfter? l code = none ∧ codeAfter? l out = none ∨ Lands code out settled l
  start : Defers code out settled 0 code out

/-- Two runs at corresponding places: the second one has caught up once what is pending is carried
out. The first one has so many instructions in front of it. -/
structure Lags (code out : Code) (settled : String → Prop) (n : Nat) (c d : HartConfig) : Prop where
  rank : c.rest.length = n
  suffix : c.rest <:+ code
  calls : d.calls = c.calls
  place : ∃ p, Defers code out settled p c.rest d.rest ∧ c.hart = d.hart.moveStack p

namespace DefersTo

variable {code out : Code} {settled : String → Prop} {env : HartEnvironment}

theorem lags (n : Nat) (hs : rest <:+ code) (hd : Defers code out settled p rest rest') :
    Lags code out settled rest.length ⟨rest, h.moveStack p, n⟩ ⟨rest', h, n⟩ :=
  ⟨rfl, hs, rfl, p, hd, rfl⟩

theorem lags_settled (n : Nat) (hs : rest <:+ code) (hd : Defers code out settled 0 rest rest') :
    Lags code out settled rest.length ⟨rest, h, n⟩ ⟨rest', h, n⟩ :=
  ⟨rfl, hs, rfl, 0, hd, (h.moveStack_zero).symm⟩

theorem runFor_settleStack (env : HartEnvironment) (out : Code) (p : Word) (rest : Code) (h : Hart)
    (n : Nat) :
    runFor (hartStep env out) (settleStack p).length ⟨settleStack p ++ rest, h, n⟩ =
      ⟨[], .running ⟨rest, h.moveStack p, n⟩⟩ := by
  unfold settleStack
  split
  · next hp =>
    subst hp
    rw [moveStack_zero]
    rfl
  · rfl

theorem matches_target (hc : DefersTo code out settled) {l : String} (hl : settled l)
    (ht : t = .jump l ∨ t = .branch l) (h : Hart) (n : Nat) :
    (t.continueOn code rest h n).Matches (fun c d => ∃ m, Lags code out settled m c d)
      (t.continueOn out rest' h n) := by
  rcases ht with rfl | rfl
  all_goals
    simp only [Transfer.continueOn]
    rcases hc.labels l hl with ⟨h₁, h₂⟩ | ⟨target, target', h₁, h₂, hd⟩
    · rw [h₁, h₂]
      exact .exit _ _
    · rw [h₁, h₂]
      exact .next _ ⟨_, lags_settled n (codeAfter?_suffix h₁) hd⟩

theorem matches_settled (hc : DefersTo code out settled) (hs : rest <:+ code)
    (hlabels : ∀ l, i.op = .j ∨ i.op.isBranch = true → i.label? = some l → settled l)
    (hrest : ¬ i.Leaves → Defers code out settled 0 rest rest') (h : Hart) (n : Nat) :
    (hartStep env code ⟨i :: rest, h, n⟩).Matches (fun c d => ∃ m, Lags code out settled m c d)
      (hartStep env out ⟨i :: rest', h, n⟩) := by
  simp only [hartStep]
  cases hcallee : i.callee? h with
  | some callee =>
    have hstays : ¬ i.Leaves := fun hi => by cases (hi.callee? h).symm.trans hcallee
    exact .next _ ⟨_, lags_settled (n + 1) hs (hrest hstays)⟩
  | none =>
    cases hr : i.run env.toEnvironment h with
    | none => exact .stuck
    | some r =>
      obtain ⟨h', t⟩ := r
      have ht := canTransfer_run hr
      cases t with
      | next => exact .next _ ⟨_, lags_settled n hs (hrest fun hi => hi.transfer_ne hr rfl)⟩
      | branch l => exact hc.matches_target (hlabels l (.inr ht.1) ht.2) (.inr rfl) h' n
      | jump l => exact hc.matches_target (hlabels l (.inl ht.1) ht.2) (.inl rfl) h' n
      | exit x => exact .exit _ _

/-- Instructions that do the same, up to what is pending, and that do not need the stack pointer
itself. -/
theorem matches_pending (hop : i'.op = i.op) (hs : i.op.seesStack = false) (hsuffix : rest <:+ code)
    (hrun : i.run env.toEnvironment (h.moveStack p) =
      (i'.run env.toEnvironment h).map fun (h', t) => (h'.moveStack p, t))
    (hrest : Defers code out settled p rest rest')
    (hbranch : ∀ l, i'.op.isBranch = true → i'.label? = some l → ∃ target target',
      codeAfter? l code = some target ∧ codeAfter? l out = some target' ∧
        Defers code out settled p target target') (n : Nat) :
    (hartStep env code ⟨i :: rest, h.moveStack p, n⟩).Matches
      (fun c d => ∃ m, Lags code out settled m c d) (hartStep env out ⟨i' :: rest', h, n⟩) := by
  have hs' : i'.op.seesStack = false := by rw [hop, hs]
  simp only [hartStep, callee?_of_not_seesStack hs, callee?_of_not_seesStack hs', hrun]
  cases hr : i'.run env.toEnvironment h with
  | none => exact .stuck
  | some r =>
    obtain ⟨h', t⟩ := r
    rcases transfer_of_run hr hs' with rfl | ⟨l, hb, hl, rfl⟩
    · exact .next _ ⟨_, lags n hsuffix hrest⟩
    · obtain ⟨target, target', ht, ht', hd⟩ := hbranch l hb hl
      simp only [Option.map_some, Transfer.continueOn, ht, ht']
      exact .next _ ⟨_, lags n (codeAfter?_suffix ht) hd⟩

variable (hc : DefersTo code out settled)
include hc

/-- One step of the first run. Either it adjusts the stack pointer, and the second run waits; or the
second run carries out what is pending, if need be, and does the same. -/
theorem lags_step {c d : HartConfig} (hl : Lags code out settled n c d) :
    (∃ c' m, hartStep env code c = .next [] c' ∧ m < n ∧ Lags code out settled m c' d) ∨
    ∃ k d₁, runFor (hartStep env out) k d = ⟨[], .running d₁⟩ ∧
      (hartStep env code c).Matches (fun c d => ∃ m, Lags code out settled m c d)
        (hartStep env out d₁) := by
  obtain ⟨rest, hart, calls⟩ := c
  obtain ⟨rest', h, calls'⟩ := d
  obtain ⟨rfl, hs, rfl, p, hd, rfl⟩ := hl
  dsimp only at hs hd ⊢
  cases rest with
  | nil =>
    cases hd
    have hsettle := runFor_settleStack env out p [] h calls'
    rw [append_nil] at hsettle
    exact .inr ⟨_, _, hsettle, .exit _ _⟩
  | cons i tail =>
  have htail : tail <:+ code := (suffix_cons i tail).trans hs
  have hsafe := hc.safe i (hs.subset mem_cons_self)
  cases hdec : i.decode? with
  | none =>
    simp only [hartStep, callee?, run, hdec, Option.bind_none]
    exact .inr ⟨0, _, rfl, .stuck⟩
  | some dec =>
  have hsome : i.decode?.isSome = true := by rw [hdec]; rfl
  cases hd with
  | @adjust _ k _ _ _ hk hrest =>
    obtain ⟨dst, src, rfl, hdst, hsrc⟩ := eq_of_stackAdjustment? hsome hk
    refine .inl ⟨⟨tail, h.moveStack (p + k), calls'⟩, tail.length, ?_, Nat.lt_succ_self _,
      lags calls' htail hrest⟩
    rw [hartStep_straight ⟨hsome, rfl, rfl⟩, effect_addi, set_add_moveStack hdst hsrc]
  | @access _ n _ i' _ _ hn hi' hrest =>
    obtain ⟨offset, f, base, reads, writes, ha⟩ := hsafe.stackAccess hsome hn
    rcases displace_eq_ok hi' with ⟨ho, -⟩ | ⟨o, w, ho, hw, rfl⟩
    · cases ha.imm.symm.trans ho
    obtain rfl : offset = o := Option.some.inj (ha.imm.symm.trans ho)
    obtain rfl := Word.eq_add_of_add? hw
    obtain ⟨hb, hseen⟩ := not_seesStack_of_addressing? (addressing?_of_stackOffset? hn)
    have hop : (i.setOperand n (.imm (offset + p))).op = i.op := rfl
    refine .inr ⟨0, _, rfl, matches_pending hop hseen htail ha.run hrest ?_ calls'⟩
    intro l hbranch
    cases hb.symm.trans hbranch
  | keep hk hn hb hseen hrest =>
    refine .inr ⟨0, _, rfl, matches_pending rfl hseen htail ?_ hrest ?_ calls'⟩
    · exact run_moveStack_of_apart (hsafe.apart hsome hk hn)
    · intro l hbranch
      cases hb.symm.trans hbranch
  | branch hb hil ht ht' htarget hrest =>
    obtain ⟨hop, haddr⟩ := addressing?_of_isBranch hb
    refine .inr ⟨0, _, rfl, matches_pending rfl (not_seesStack_of_isBranch hb) htail ?_ hrest ?_
      calls'⟩
    · exact run_moveStack_of_apart (hsafe.apart hsome (stackAdjustment?_eq_none hop)
        (stackOffset?_eq_none haddr))
    · intro l _ hl
      cases hil.symm.trans hl
      exact ⟨_, _, ht, ht', htarget⟩
  | settle hlabels hrest =>
    exact .inr ⟨_, _, runFor_settleStack env out p _ h calls',
      hc.matches_settled htail hlabels hrest _ calls'⟩

theorem simulation (env : HartEnvironment) :
    Simulation (hartStep env code) (hartStep env out) (Lags code out settled) :=
  .of_matches hc.lags_step

theorem behavesLike (env : HartEnvironment) (h : Hart) (n : Nat) :
    BehavesLike (hartStep env code) ⟨code, h, n⟩ (hartStep env out) ⟨out, h, n⟩ :=
  (hc.simulation env).behavesLike (lags_settled n suffix_rfl hc.start)

end DefersTo

end ClosureCodegen
