import ClosureCodegen.Calling.Slots
import ClosureCodegen.Proofs.Code.Operands
import ClosureCodegen.Proofs.Execution.Machine

/-!
# Decoding and the table of effects

What an instruction reads and writes when it runs is what the table of effects says: `defs` and
`uses` are sound and complete for the machine, but for the idle lanes of vector loads, which the table
takes for written.  Nothing is lost where these name `x0`.  The passes of the back end rely on the table
alone.
With it they rename registers, all of them or those that are used, and the decoded instruction
changes accordingly and in no other way.

The second part says what operations can do apart from writing registers: how many values they
deliver, when control goes elsewhere, when they leave heap and slots alone.
-/

namespace ClosureCodegen
open List Opcode CallTarget

variable {os : List Operand} {rs : List Reg} {i : Instr} {d : Decoded} {f : Reg → Reg}
  {t : Transfer}

/-! ## Operands -/

namespace Operand

attribute [simp] reg? label? mapReg

theorem reg?_reg (r : Reg) : (reg r).reg? = some r := rfl
end Operand

theorem allRegs?_cons_eq_some {o : Operand} (h : allRegs? (o :: os) = some rs) :
    ∃ r ss, o = .reg r ∧ allRegs? os = some ss ∧ rs = r :: ss := by
  simp only [allRegs?, Option.bind_eq_bind, Option.bind_eq_some_iff, pure, Option.some.injEq] at h
  obtain ⟨r, hr, ss, hs, rfl⟩ := h
  cases o with
  | reg q =>
    cases hr
    exact ⟨r, ss, rfl, hs, rfl⟩
  | imm w => cases hr
  | fimm v => cases hr
  | label l => cases hr
  | mask k => cases hr

theorem eq_map_of_allRegs? (h : allRegs? os = some rs) : os = rs.map .reg := by
  induction os generalizing rs with
  | nil =>
    cases h
    rfl
  | cons o os ih =>
    obtain ⟨r, ss, rfl, hs, rfl⟩ := allRegs?_cons_eq_some h
    rw [ih hs, map_cons]

@[simp] theorem allRegs?_map_reg (rs : List Reg) : allRegs? (rs.map .reg) = some rs := by
  induction rs with
  | nil => rfl
  | cons r rs ih => simp [allRegs?, ih]

@[simp] theorem filterMap_reg?_map_reg (rs : List Reg) :
    (rs.map Operand.reg).filterMap Operand.reg? = rs := by
  induction rs with
  | nil => rfl
  | cons r rs ih => rw [map_cons, filterMap_cons_some (Operand.reg?_reg r), ih]

@[simp] theorem map_mapReg_map_reg (f : Reg → Reg) (rs : List Reg) :
    (rs.map Operand.reg).map (Operand.mapReg f) = (rs.map f).map .reg := by
  simp [Function.comp_def]

namespace CallTarget

def operand : CallTarget → Operand
  | .direct l => .label l
  | .closure r => .reg r

/-- Renames the register of a closure. -/
def rename (f : Reg → Reg) : CallTarget → CallTarget
  | .direct l => .direct l
  | .closure r => .closure (f r)

@[simp] theorem label?_rename (f : Reg → Reg) (t : CallTarget) : (t.rename f).label? = t.label? := by
  cases t <;> rfl

@[simp] theorem mapReg_operand (f : Reg → Reg) (t : CallTarget) :
    t.operand.mapReg f = (t.rename f).operand := by
  cases t <;> rfl

@[simp] theorem reads_rename (f : Reg → Reg) (t : CallTarget) (args : List Reg) :
    (t.rename f).reads (args.map f) = (t.reads args).map f := by
  cases t <;> rfl

theorem map_mapReg_operand (f : Reg → Reg) (t : CallTarget) (args : List Reg) :
    (t.operand :: args.map .reg).map (Operand.mapReg f) =
      (t.rename f).operand :: (args.map f).map .reg := by
  rw [map_cons, mapReg_operand, map_mapReg_map_reg]

theorem filterMap_reg?_operand (t : CallTarget) (args : List Reg) :
    (t.operand :: args.map .reg).filterMap Operand.reg? = t.reads args := by
  cases t with
  | direct l =>
    rw [operand, filterMap_cons_none rfl, filterMap_reg?_map_reg]
    rfl
  | closure r =>
    rw [operand, filterMap_cons_some (Operand.reg?_reg r), filterMap_reg?_map_reg]
    rfl

/-- Arguments are registers, so the label among the operands of a call is that of its target. -/
theorem findSome?_label?_operand (t : CallTarget) (args : List Reg) :
    (t.operand :: args.map .reg).findSome? Operand.label? = t.label? := by
  cases t with
  | direct l => rfl
  | closure r =>
    rw [findSome?_cons]
    exact findSome?_eq_none_iff.mpr (by simp [Operand.label?])

end CallTarget

namespace CallSite

@[simp] theorem targetAndArgs?_operand (t : CallTarget) (args : List Reg) :
    targetAndArgs? (t.operand :: args.map .reg) = some (t, args) := by
  cases t <;> simp [operand, targetAndArgs?]

theorem eq_of_targetAndArgs? {t : CallTarget} {args : List Reg}
    (h : targetAndArgs? os = some (t, args)) : os = t.operand :: args.map .reg := by
  unfold targetAndArgs? at h
  split at h
  · obtain ⟨rs, hs, he⟩ := Option.map_eq_some_iff.mp h
    cases he
    rw [eq_map_of_allRegs? hs]
    rfl
  · obtain ⟨rs, hs, he⟩ := Option.map_eq_some_iff.mp h
    cases he
    rw [eq_map_of_allRegs? hs]
    rfl
  · cases h

end CallSite

/-! ## Decoding by cases -/

inductive Decodes (op : Opcode) : Family → List Operand → Decoded → Prop where
  | constant (d : Reg) (w : Word) :
    Decodes op .constant [.reg d, .imm w] ⟨.constant w, [], [d]⟩
  | literal (d : Reg) (v : Binary64) :
    Decodes op .literal [.reg d, .fimm v] ⟨.literal v, [], [d]⟩
  | address (d : Reg) (l : String) :
    Decodes op .address [.reg d, .label l] ⟨.address l, [], [d]⟩
  | unary (d s : Reg) : Decodes op .unary [.reg d, .reg s] ⟨.unary op, [s], [d]⟩
  | binary (d s t : Reg) :
    Decodes op .binary [.reg d, .reg s, .reg t] ⟨.binary op, [s, t], [d]⟩
  | immediate (d s : Reg) (w : Word) :
    Decodes op .immediate [.reg d, .reg s, .imm w] ⟨.immediate op w, [s], [d]⟩
  | load (d b : Reg) (o : Word) :
    Decodes op .load [.reg d, .reg b, .imm o] ⟨.load o, [b], [d]⟩
  | store (b s : Reg) (o : Word) :
    Decodes op .store [.reg b, .reg s, .imm o] ⟨.store o, [b, s], []⟩
  | loadAt (d : Reg) (a : Word) : Decodes op .loadAt [.reg d, .imm a] ⟨.loadAt a, [], [d]⟩
  | storeAt (s : Reg) (a : Word) : Decodes op .storeAt [.reg s, .imm a] ⟨.storeAt a, [s], []⟩
  | vectorLoad (b p q r s : Reg) (o : Word) (k : BitVec 8) :
    Decodes op .vectorLoad [.reg b, .reg p, .reg q, .reg r, .reg s, .imm o, .mask k]
      ⟨.vectorLoad o k, [b], maskedLanes k [p, q, r, s]⟩
  | vectorStore (b p q r s : Reg) (o : Word) (k : BitVec 8) :
    Decodes op .vectorStore [.reg b, .reg p, .reg q, .reg r, .reg s, .imm o, .mask k]
      ⟨.vectorStore o k, [b, p, q, r, s], []⟩
  | branch (s t : Reg) (l : String) :
    Decodes op .branch [.reg s, .reg t, .label l] ⟨.branch op l, [s, t], []⟩
  | jump (l : String) : Decodes op .jump [.label l] ⟨.jump l, [], []⟩
  | machineCall (l : String) : Decodes op .machineCall [.label l] ⟨.machineCall l, [], []⟩
  | indirectCall (s : Reg) : Decodes op .indirect [.reg s] ⟨.indirectCall 0 false, [s], []⟩
  | indirect (d s : Reg) (o : Word) :
    Decodes op .indirect [.reg d, .reg s, .imm o]
      ⟨if d = zeroReg then .indirectJump o else .indirectCall o true, [s], [d]⟩
  | machineReturn : Decodes op .machineReturn [] ⟨.machineReturn, [], []⟩
  | idle (os : List Operand) : Decodes op .idle os ⟨.idle, [], []⟩
  | slotStore (s : Reg) (l : String) :
    Decodes op .slotStore [.reg s, .label l] ⟨.slotStore l, [s], []⟩
  | slotLoad (d : Reg) (l : String) :
    Decodes op .slotLoad [.reg d, .label l] ⟨.slotLoad l, [], [d]⟩
  | param (d : Reg) : Decodes op .param [.reg d] ⟨.param, [], [d]⟩
  | captured (d : Reg) (o : Word) : Decodes op .captured [.reg d, .imm o] ⟨.captured o, [], [d]⟩
  | unusedParam (s : Reg) : Decodes op .unusedParam [.reg s] ⟨.idle, [s], []⟩
  | call (t : CallTarget) (args : List Reg) :
    Decodes op .call (t.operand :: args.map .reg) ⟨.call t.label? false, t.reads args, []⟩
  | callResult (d : Reg) (t : CallTarget) (args : List Reg) :
    Decodes op .callResult (.reg d :: t.operand :: args.map .reg)
      ⟨.call t.label? true, t.reads args, [d]⟩
  | tailCall (t : CallTarget) (args : List Reg) :
    Decodes op .tailCall (t.operand :: args.map .reg) ⟨.tailCall t.label?, t.reads args, []⟩
  | returnValue (s : Reg) : Decodes op .returnValue [.reg s] ⟨.returnValue, [s], []⟩
  | returnUnit : Decodes op .returnUnit [] ⟨.returnUnit, [], []⟩

theorem Instr.decodes_of_decode? (h : i.decode? = some d) :
    Decodes i.op i.op.family i.operands d := by
  obtain ⟨op, os⟩ := i
  unfold decode? at h
  simp only at h ⊢
  split at h
  case h_25 hf =>
    obtain ⟨⟨t, args⟩, ht, rfl⟩ := Option.map_eq_some_iff.mp h
    rw [CallSite.eq_of_targetAndArgs? ht, hf]
    exact .call t args
  case h_26 hf =>
    obtain ⟨⟨t, args⟩, ht, rfl⟩ := Option.map_eq_some_iff.mp h
    rw [CallSite.eq_of_targetAndArgs? ht, hf]
    exact .callResult _ t args
  case h_27 hf =>
    obtain ⟨⟨t, args⟩, ht, rfl⟩ := Option.map_eq_some_iff.mp h
    rw [CallSite.eq_of_targetAndArgs? ht, hf]
    exact .tailCall t args
  case h_30 => cases h
  all_goals
    rename_i hf
    cases h
    rw [hf]
    constructor

theorem Instr.decode?_of_decodes (h : Decodes i.op i.op.family i.operands d) :
    i.decode? = some d := by
  obtain ⟨op, os⟩ := i
  change Decodes op op.family os d at h
  unfold decode?
  generalize op.family = form at h
  cases h with
  | call t args | callResult _ t args | tailCall t args =>
    exact Option.map_eq_some_iff.mpr ⟨_, CallSite.targetAndArgs?_operand t args, rfl⟩
  | _ => rfl

/-! ## Reads and writes -/

/-- The effect of all opcodes of a form. -/
def Family.effect : Family → Effect
  | .constant | .literal | .address | .loadAt | .slotLoad | .param | .captured => .defineAll
  | .unary | .binary | .immediate | .load | .callResult => .defineFirst
  | .store | .storeAt | .vectorStore | .branch | .slotStore | .unusedParam | .call | .tailCall
  | .returnValue => .useAll
  | .vectorLoad => .vectorLoad
  | .indirect => .indirectJump
  | .jump | .machineCall | .machineReturn | .idle | .returnUnit => .none

theorem Opcode.effect_eq (op : Opcode) : op.effect = op.family.effect := by
  cases op <;> rfl

namespace Instr

/-- Whether the idle lanes of a vector load name the zero register. -/
def idleLanesZero (i : Instr) : Bool :=
  match i.op.family, i.operands with
  | .vectorLoad, [.reg _, .reg p, .reg q, .reg r, .reg s, .imm _, .mask k] =>
    maskedLanes k [p, q, r, s] = [p, q, r, s]
  | _, _ => true

theorem idleLanesZero_of_family (h : i.op.family ≠ .vectorLoad) : i.idleLanesZero = true := by
  unfold idleLanesZero
  split
  · exact absurd ‹_› h
  · rfl

theorem decode?_reads_writes (h : i.decode? = some d) :
    d.reads = i.uses ∧ (i.idleLanesZero = true → d.writes = i.defs) := by
  obtain ⟨op, os⟩ := i
  simp only [uses, defs, idleLanesZero, effect_eq]
  have hd : Decodes op op.family os d := decodes_of_decode? h
  generalize op.family = form at hd
  cases hd with
  | call t args | tailCall t args =>
    simp only [Family.effect, regs, filterMap_reg?_operand, implies_true, and_self]
  | callResult d t args =>
    simp only [Family.effect, regs, filterMap_cons_some (Operand.reg?_reg _),
      filterMap_reg?_operand, drop_one, tail_cons, take_succ_cons,
      take_zero, implies_true, and_self]
  | vectorLoad => exact ⟨rfl, of_decide_eq_true⟩
  | _ => simp [Family.effect, regs]

theorem decode?_callResult (hf : i.op.family = .callResult) (h : i.decode? = some d) :
    ∃ (r : Reg) (t : CallTarget) (args : List Reg),
      i.operands = .reg r :: t.operand :: args.map .reg ∧
      d = ⟨.call t.label? true, t.reads args, [r]⟩ := by
  obtain ⟨op, os⟩ := i
  have hd : Decodes op op.family os d := decodes_of_decode? h
  rw [show op.family = .callResult from hf] at hd
  cases hd with
  | callResult r t args => exact ⟨r, t, args, rfl, rfl⟩

theorem decode?_param (hop : i.op = .param) (h : i.decode? = some d) :
    ∃ r : Reg, i.operands = [.reg r] ∧ d = ⟨.param, [], [r]⟩ := by
  obtain ⟨op, os⟩ := i
  obtain rfl : op = .param := hop
  cases decodes_of_decode? h with
  | param r => exact ⟨r, rfl, rfl⟩

theorem decode?_reads (h : i.decode? = some d) : d.reads = i.uses :=
  (decode?_reads_writes h).1

theorem decode?_writes (hz : i.idleLanesZero = true) (h : i.decode? = some d) : d.writes = i.defs :=
  (decode?_reads_writes h).2 hz

theorem mem_maskedLanes {mask : BitVec 8} {lanes : List Reg} {r : Reg} (hr : r ∈ maskedLanes mask lanes) :
    r = zeroReg ∨ r ∈ lanes := by
  obtain ⟨⟨q, k⟩, hq, rfl⟩ := mem_map.mp hr
  dsimp only
  split
  · exact .inr (fst_mem_of_mem_zipIdx hq)
  · exact .inl rfl

theorem mem_defs_of_mem_writes {r : Reg} (h : i.decode? = some d) (hr : r ∈ d.writes) :
    r = zeroReg ∨ r ∈ i.defs := by
  by_cases hf : i.op.family = .vectorLoad
  · obtain ⟨op, os⟩ := i
    have hd : Decodes op op.family os d := decodes_of_decode? h
    simp only [defs, effect_eq]
    dsimp only at hf
    rw [hf] at hd ⊢
    cases hd with
    | vectorLoad b p q s t o k => simpa [Family.effect, regs] using mem_maskedLanes hr
  · exact .inr (decode?_writes (idleLanesZero_of_family hf) h ▸ hr)

/-! ## Renaming -/

@[simp] theorem op_mapRegs (f : Reg → Reg) (i : Instr) : (i.mapRegs f).op = i.op := rfl

@[simp] theorem label?_mapRegs (f : Reg → Reg) (i : Instr) : (i.mapRegs f).label? = i.label? := by
  have h : Operand.label? ∘ Operand.mapReg f = Operand.label? := by
    funext o
    cases o <;> rfl
  simp only [label?, mapRegs, findSome?_map, h]

theorem map_maskedLanes (hz : f zeroReg = zeroReg) (mask : BitVec 8) (lanes : List Reg) :
    (maskedLanes mask lanes).map f = maskedLanes mask (lanes.map f) := by
  simp only [maskedLanes, zipIdx_map, map_map, Function.comp_def, Prod.map, apply_ite f, hz, id]

/-- Renaming all registers renames what is read and what is written, as long as it neither moves
the zero register nor makes another register the zero register. -/
theorem decode?_mapRegs (hz : ∀ r, f r = zeroReg ↔ r = zeroReg) (h : i.decode? = some d) :
    (i.mapRegs f).decode? = some ⟨d.operation, d.reads.map f, d.writes.map f⟩ := by
  obtain ⟨op, os⟩ := i
  have hd : Decodes op op.family os d := decodes_of_decode? h
  refine decode?_of_decodes ?_
  simp only [mapRegs]
  generalize op.family = form at hd
  cases hd with
  | vectorLoad b p q r s o k =>
    rw [map_maskedLanes ((hz zeroReg).mpr rfl)]
    exact .vectorLoad _ _ _ _ _ _ _
  | indirect d s o =>
    have hd := @Decodes.indirect op (f d) (f s) o
    simp only [hz] at hd
    exact hd
  | call t args =>
    rw [map_mapReg_operand, ← label?_rename f, ← reads_rename]
    exact .call _ _
  | callResult d t args =>
    rw [map_cons, map_mapReg_operand, ← label?_rename f,
      ← reads_rename]
    exact .callResult _ _ _
  | tailCall t args =>
    rw [map_mapReg_operand, ← label?_rename f, ← reads_rename]
    exact .tailCall _ _
  | _ => constructor

theorem slot?_mapUses (f : Reg → Reg) (i : Instr) : (i.mapUses f).slot? = i.slot? := by
  rw [slot?, slot?, op_mapUses]
  split
  case isTrue h =>
    rcases h with h | h
    · rw [mapUses, h]
      simp only [effect, labelAt?, mapRegs, getElem?_map]
      cases i.operands[1]? with
      | none => rfl
      | some o => cases o <;> rfl
    · rw [mapUses, h]
      rfl
  case isFalse => rfl

theorem idleLanesZero_mapUses (f : Reg → Reg) (h : i.idleLanesZero = true) :
    (i.mapUses f).idleLanesZero = true := by
  by_cases hf : i.op.family = .vectorLoad
  · obtain ⟨op, os⟩ := i
    obtain rfl : op = .vlw := by cases op <;> first | rfl | cases hf
    unfold idleLanesZero
    split
    · next hos =>
      -- only the base is used, so the lanes are those of the instruction itself
      rcases os with _ | ⟨_ | _ | _ | _ | _, os⟩ <;> cases hos
      exact h
    · rfl
  · exact idleLanesZero_of_family (by rwa [op_mapUses])

theorem decode?_mapUses (f : Reg → Reg) (h : i.decode? = some d) :
    (i.mapUses f).decode? = some { d with reads := d.reads.map f } := by
  obtain ⟨op, os⟩ := i
  have hd : Decodes op op.family os d := decodes_of_decode? h
  refine decode?_of_decodes ?_
  rw [op_mapUses]
  simp only [mapUses, effect_eq]
  generalize op.family = form at hd
  cases hd with
  | call t args =>
    simp only [Family.effect, mapRegs]
    rw [map_mapReg_operand, ← label?_rename f, ← reads_rename]
    exact .call _ _
  | callResult d t args =>
    simp only [Family.effect, mapLaterRegs]
    rw [map_mapReg_operand, ← label?_rename f, ← reads_rename]
    exact .callResult _ _ _
  | tailCall t args =>
    simp only [Family.effect, mapRegs]
    rw [map_mapReg_operand, ← label?_rename f, ← reads_rename]
    exact .tailCall _ _
  | _ => constructor

end Instr

/-! ## What operations do -/

namespace Operation

/-- The number of values an operation delivers. -/
def results : Operation → Nat
  | .constant _ | .literal _ | .address _ | .unary _ | .binary _ | .immediate .. | .load _
  | .loadAt _ | .indirectJump _ | .slotLoad _ | .param | .captured _ => 1
  | .vectorLoad .. => 4
  | .indirectCall _ result | .call _ result => result.toNat
  | _ => 0

/-- Whether an operation does nothing but deliver one value. -/
def isValue : Operation → Bool
  | .constant _ | .literal _ | .address _ | .unary _ | .binary _ | .immediate .. | .load _
  | .loadAt _ | .slotLoad _ | .captured _ => true
  | _ => false

def slot? : Operation → Option String
  | .slotStore s | .slotLoad s => some s
  | _ => none

/-- How control can go on behind an operation. -/
def Continues : Operation → Transfer → Prop
  | .branch _ l, t => t = .branch l ∨ t = .next
  | .jump l, t => t = .jump l
  | .indirectJump _, t | .machineReturn, t | .tailCall _, t | .returnValue, t | .returnUnit, t =>
    ∃ x, t = .exit x
  | _, t => t = .next

variable {env : Environment} {a : Word} {ctx : Context} {op : Operation} {vs : List Word}
  {fx : Effects}

theorem perform_inv (h : op.perform env a ctx vs = some fx) :
    fx.values.length = op.results ∧ op.Continues fx.transfer ∧
      (op.isValue → fx = ctx.give fx.values) := by
  unfold perform at h
  split at h
  case h_4 | h_5 | h_6 =>
    obtain ⟨f, _, rfl⟩ := Option.map_eq_some_iff.mp h
    exact ⟨rfl, rfl, fun _ => rfl⟩
  case h_13 =>
    obtain ⟨f, _, rfl⟩ := Option.map_eq_some_iff.mp h
    refine ⟨rfl, ?_, nofun⟩
    simp only [Continues]
    split
    · exact .inl rfl
    · exact .inr rfl
  case h_16 result _ =>
    cases h
    cases result <;> exact ⟨rfl, rfl, nofun⟩
  case h_17 | h_18 | h_26 | h_27 =>
    cases h
    exact ⟨rfl, ⟨_, rfl⟩, nofun⟩
  case h_24 result =>
    obtain ⟨⟨callee, args⟩, _, rfl⟩ := Option.map_eq_some_iff.mp h
    cases result <;> exact ⟨rfl, rfl, nofun⟩
  case h_25 =>
    obtain ⟨⟨callee, args⟩, _, rfl⟩ := Option.map_eq_some_iff.mp h
    exact ⟨rfl, ⟨_, rfl⟩, nofun⟩
  case h_8 | h_10 | h_11 | h_12 | h_14 | h_15 | h_19 | h_20 | h_22 =>
    cases h
    exact ⟨rfl, rfl, nofun⟩
  case h_28 => cases h
  all_goals
    cases h
    exact ⟨rfl, rfl, fun _ => rfl⟩

theorem perform_slots (h : op.perform env a ctx vs = some fx) {slots : String → Word}
    (hs : ∀ s, op.slot? = some s → slots s = ctx.slots s) :
    ∃ slots', op.perform env a { ctx with slots } vs = some { fx with slots := slots' } ∧
      (∀ s, op.slot? = some s → slots' s = fx.slots s) ∧
      (∀ s, op.slot? ≠ some s → slots' s = slots s ∧ fx.slots s = ctx.slots s) := by
  unfold perform at h
  split at h
  case h_4 | h_5 | h_6 | h_13 =>
    obtain ⟨f, hf, rfl⟩ := Option.map_eq_some_iff.mp h
    exact ⟨slots, by simp only [perform, hf]; rfl, nofun, fun s _ => ⟨rfl, rfl⟩⟩
  case h_20 =>
    cases h
    exact ⟨_, rfl, fun s _ => by simp_all [slot?], fun s hn => by grind [slot?]⟩
  case h_21 =>
    cases h
    exact ⟨slots, by simp only [perform, hs _ rfl]; rfl, hs, fun s _ => ⟨rfl, rfl⟩⟩
  case h_24 | h_25 =>
    obtain ⟨⟨callee, args⟩, hc, rfl⟩ := Option.map_eq_some_iff.mp h
    exact ⟨slots, by simp only [perform, hc]; rfl, nofun, fun s _ => ⟨rfl, rfl⟩⟩
  case h_28 => cases h
  all_goals
    cases h
    exact ⟨slots, rfl, nofun, fun s _ => ⟨rfl, rfl⟩⟩

theorem perform_arriving (h : op ≠ .param) (a b : Word) :
    op.perform env a ctx vs = op.perform env b ctx vs := by
  unfold perform
  split
  case h_22 => exact absurd rfl h
  all_goals rfl

end Operation

/-! ## What instructions do -/

/-- How control can go on behind an instruction. -/
def Instr.CanTransfer (i : Instr) : Transfer → Prop
  | .next => i.op ≠ .j
  | .branch l => i.op.isBranch ∧ i.label? = some l
  | .jump l => i.op = .j ∧ i.label? = some l
  | .exit _ => True

/-- The opcodes that do nothing but deliver one value. -/
def Family.isValue : Family → Bool
  | .constant | .literal | .address | .unary | .binary | .immediate | .load | .loadAt | .slotLoad
  | .captured => true
  | _ => false

namespace Instr

variable (h : i.decode? = some d)
include h

theorem length_writes_decode? : d.writes.length = d.operation.results := by
  obtain ⟨op, os⟩ := i
  have hd : Decodes op op.family os d := decodes_of_decode? h
  generalize op.family = form at hd
  cases hd with
  | indirect d s o =>
    simp only [length_singleton]
    split <;> rfl
  | _ => rfl

theorem operation_ne_param (hop : i.op ≠ .param) : d.operation ≠ .param := by
  obtain ⟨op, os⟩ := i
  have hp : op = .param ↔ op.family = .param := by cases op <;> simp [family]
  have hd : Decodes op op.family os d := decodes_of_decode? h
  simp only [ne_eq, hp] at hop
  generalize op.family = form at hd hop
  cases hd with
  | indirect d s o =>
    simp only
    split <;> nofun
  | param => exact absurd rfl hop
  | _ => nofun

theorem isValue_decode? (hv : i.op.family.isValue) :
    d.operation.isValue ∧ d.operation.results = 1 := by
  obtain ⟨op, os⟩ := i
  have hd : Decodes op op.family os d := decodes_of_decode? h
  simp only at hv
  generalize op.family = form at hd hv
  cases hd <;> first | exact ⟨rfl, rfl⟩ | cases hv

theorem slot?_decode? : d.operation.slot? = i.slot? := by
  obtain ⟨op, os⟩ := i
  have hop : (op = .spillStore ∨ op = .spillLoad) ↔
      op.family = .slotStore ∨ op.family = .slotLoad := by
    cases op <;> simp [family]
  have hd : Decodes op op.family os d := decodes_of_decode? h
  simp only [slot?, hop]
  generalize op.family = form at hd
  cases hd with
  | indirect d s o =>
    simp only
    split <;> rfl
  | _ => rfl

theorem canTransfer_decode? (ht : d.operation.Continues t) : i.CanTransfer t := by
  obtain ⟨op, os⟩ := i
  have hj : op = .j ↔ op.family = .jump := by cases op <;> simp [family]
  have hb : op.isBranch ↔ op.family = .branch := by
    cases op <;> simp [family, isBranch]
  have hd : Decodes op op.family os d := decodes_of_decode? h
  generalize op.family = form at hd hj hb
  cases hd with
  | branch s t l =>
    rcases ht with rfl | rfl
    · simp [CanTransfer, hb, label?, findSome?_cons]
    · simp [CanTransfer, hj]
  | jump l =>
    cases ht
    simp [CanTransfer, hj, label?, findSome?_cons]
  | indirect d s o =>
    simp only at ht
    split at ht
    · obtain ⟨x, rfl⟩ := ht
      trivial
    · cases ht
      simp [CanTransfer, hj]
  | machineReturn | tailCall | returnValue | returnUnit =>
    obtain ⟨x, rfl⟩ := ht
    trivial
  | _ =>
    cases ht
    simp [CanTransfer, hj]

theorem trackedDefs_eq_nil_of_transfer (ht : d.operation.Continues t) (hne : t ≠ .next) :
    i.trackedDefs = [] := by
  obtain ⟨op, os⟩ := i
  have hz : (⟨op, os⟩ : Instr).idleLanesZero = true := idleLanesZero_of_family fun hf => hne <| by
    have hd : Decodes op op.family os d := decodes_of_decode? h
    rw [show op.family = .vectorLoad from hf] at hd
    cases hd with
    | vectorLoad => exact ht
  rw [trackedDefs, ← decode?_writes hz h]
  have hd : Decodes op op.family os d := decodes_of_decode? h
  generalize op.family = form at hd
  cases hd with
  | indirect d s o =>
    simp only at ht ⊢
    split at ht
    · next hz =>
      subst hz
      rfl
    · exact absurd ht hne
  | branch | jump | machineReturn | tailCall | returnValue | returnUnit => rfl
  | _ => exact absurd ht hne

end Instr
end ClosureCodegen
