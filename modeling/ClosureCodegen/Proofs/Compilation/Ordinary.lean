import ClosureCodegen.Calling.Intrinsic
import ClosureCodegen.Proofs.Calling.TailCalls
import ClosureCodegen.Proofs.Code.Rework
import ClosureCodegen.Lowering.AddressFolding
import ClosureCodegen.Proofs.Optimizer.Peephole

/-!
# Ordinary code

From lowering up to expansion an instruction has the operands of its opcode, writes neither `x0` nor
the stack pointer, and does not read the stack pointer.  Nobody addresses the stack yet, since the
frame comes with the expansion, and `x0` is only read, as the constant that it is.  Nor is there a
call of the label of an arm.  Such instructions are *ordinary*, and a body of them with arranged
conditionals is what all passes between the two hand on.

* `IsOrdinaryBody.allocated`: allocation hands it on.
* `IsOrdinaryBody.assignParams`, `makeTailCalls`, `inlineIntrinsics`: so do the passes behind it.
-/

namespace ClosureCodegen
open List PhysReg Opcode CallTarget

variable {p : PhysReg} {r var : Reg} {form : Family} {n : Nat} {f : Reg → Reg}
  {code block body : Code} {P : Instr → Prop} {i : Instr} {x y : String} {args : List Reg}

/-! ## Registers -/

/-- A register that ordinary code may read. -/
def Reg.IsReadable (r : Reg) : Prop := r.names .stackPointer = false

/-- A register that ordinary code may write. -/
def Reg.IsWritable (r : Reg) : Prop := r.names .zero = false ∧ r.names .stackPointer = false

namespace Reg

theorem IsWritable.isReadable (h : r.IsWritable) : r.IsReadable := h.2

theorem names_eq_false : r.names p = false ↔ r.name ≠ p.name := beq_eq_false_iff_ne

theorem isWritable_iff : r.IsWritable ↔ r.name ≠ zero.name ∧
    r.name ≠ stackPointer.name :=
  and_congr names_eq_false names_eq_false

theorem isReadable_iff : r.IsReadable ↔ r.name ≠ stackPointer.name := names_eq_false

theorem isWritable_of_not_isReserved (h : r.isReserved = false) : r.IsWritable := by
  rw [isReserved] at h
  refine isWritable_iff.mpr ⟨?_, ?_⟩ <;> rintro heq <;> rw [heq] at h <;> revert h <;> decide

theorem isWritable_of_name_eq (hp : p ∉ reserved) (h : r.name = p.name) : r.IsWritable := by
  refine isWritable_of_not_isReserved (Bool.eq_false_iff.mpr fun hr => hp ?_)
  rw [isReserved, h] at hr
  exact isReservedName_name.mp hr

theorem isWritable_ofPhys (hz : p ≠ .zero) (hs : p ≠ .stackPointer) : (ofPhys p).IsWritable :=
  isWritable_iff.mpr ⟨fun h => hz (name_injective h), fun h => hs (name_injective h)⟩

end Reg

/-! ## Instructions -/

/-- The forms of instructions that have neither lanes nor a callee, labels apart. -/
def Family.isSimple : Family → Bool
  | .vectorLoad | .vectorStore | .idle | .call | .callResult | .tailCall => false
  | _ => true

/-- An instruction of the kind that passes up to expansion hand on. -/
structure Instr.IsOrdinary (i : Instr) : Prop where
  decodes : i.decode?.isSome = true
  named : i.isLabel = true → i.label?.isSome = true
  writes : ∀ r ∈ i.defs, r.IsWritable
  reads : ∀ r ∈ i.regs, r.IsReadable
  lanes : ∀ k, .mask k ∉ i.operands
  callee : i.op.isCall = true → ∀ l, i.label? = some l → endifOf? l = none

namespace Decodes

variable {op : Opcode} {os : List Operand} {d : Decoded} (h : Decodes op form os d)
include h

theorem mem_reads_or_writes (hform : form ≠ .idle) (hl : form ≠ .vectorLoad)
    (hr : r ∈ os.filterMap Operand.reg?) : r ∈ d.reads ∨ r ∈ d.writes := by
  cases h with
  | idle => exact absurd rfl hform
  | vectorLoad => exact absurd rfl hl
  | call t args | tailCall t args =>
    rw [filterMap_reg?_operand] at hr
    exact .inl hr
  | callResult q t args =>
    rw [filterMap_cons_some (Operand.reg?_reg q), filterMap_reg?_operand,
      mem_cons] at hr
    exact hr.symm.imp_right mem_singleton.mpr
  | _ => simp at hr ⊢ <;> tauto

theorem mask_not_mem (hform : form ≠ .idle) (hl : form ≠ .vectorLoad) (hs : form ≠ .vectorStore)
    (k : BitVec 8) : .mask k ∉ os := by
  cases h with
  | idle => exact absurd rfl hform
  | vectorLoad => exact absurd rfl hl
  | vectorStore => exact absurd rfl hs
  | call t args | tailCall t args | callResult q t args => cases t <;> simp [operand]
  | _ => simp

theorem exists_mapReg (f : Reg → Reg) : ∃ d', Decodes op form (os.map (Operand.mapReg f)) d' := by
  cases h with
  | call t args =>
    rw [map_mapReg_operand]
    exact ⟨_, .call _ _⟩
  | callResult q t args =>
    rw [map_cons, map_mapReg_operand]
    exact ⟨_, .callResult _ _ _⟩
  | tailCall t args =>
    rw [map_mapReg_operand]
    exact ⟨_, .tailCall _ _⟩
  | indirect q s o => exact ⟨_, .indirect (f q) (f s) o⟩
  | _ => exact ⟨_, by constructor⟩

end Decodes

namespace Instr

variable {op : Opcode} {os : List Operand} {d : Decoded}

theorem isOrdinary_of (hop : op.family = form) (h : Decodes op form os d)
    (hform : form ≠ .idle ∧ form ≠ .vectorLoad ∧ form ≠ .vectorStore)
    (hw : ∀ r ∈ d.writes, r.IsWritable) (hr : ∀ r ∈ d.reads, r.IsReadable)
    (hl : op.isCall = true → ∀ l, os.findSome? Operand.label? = some l → endifOf? l = none) :
    (⟨op, os⟩ : Instr).IsOrdinary := by
  subst hop
  have hdec : (⟨op, os⟩ : Instr).decode? = some d := decode?_of_decodes h
  refine ⟨Option.isSome_iff_exists.mpr ⟨d, hdec⟩, fun hlabel => ?_, fun r hmem => ?_,
    fun r hmem => ?_, h.mask_not_mem hform.1 hform.2.1 hform.2.2, hl⟩
  · obtain rfl : op = .label := of_decide_eq_true hlabel
    exact absurd rfl hform.1
  · rw [← decode?_writes (idleLanesZero_of_family hform.2.1) hdec] at hmem
    exact hw r hmem
  · exact (h.mem_reads_or_writes hform.1 hform.2.1 hmem).elim (hr r) fun hmem => (hw r hmem).isReadable

theorem isOrdinary_of_decodes (hop : op.family = form) (h : Decodes op form os d)
    (hf : form.isSimple = true) (hw : ∀ r ∈ d.writes, r.IsWritable)
    (hr : ∀ r ∈ d.reads, r.IsReadable) : (⟨op, os⟩ : Instr).IsOrdinary := by
  refine isOrdinary_of hop h (by cases form <;> cases hf <;> decide) hw hr fun hc => ?_
  subst hop
  cases op <;> cases hf <;> cases hc

theorem isOrdinary_of_target {t : CallTarget} (hop : op.family = .call ∨ op.family = .tailCall)
    (hr : ∀ q ∈ t.reads args, q.IsReadable)
    (hl : ∀ l, (t.operand :: args.map .reg).findSome? Operand.label? = some l → endifOf? l = none) :
    (⟨op, t.operand :: args.map .reg⟩ : Instr).IsOrdinary := by
  rcases hop with hop | hop
  · exact isOrdinary_of hop (.call t args) (by decide) (forall_mem_nil _) hr fun _ => hl
  · exact isOrdinary_of hop (.tailCall t args) (by decide) (forall_mem_nil _) hr fun _ => hl

/-! ## Common forms -/

section Forms

variable {s t : Reg} {w : Word}

theorem joint?_load : (load r s w).joint? = none := by rcases r with ⟨x, _ | _⟩ <;> rfl

theorem joint?_store : (store s r w).joint? = none := by rcases r with ⟨x, _ | _⟩ <;> rfl

theorem isOrdinary_load (hr : r.IsWritable) (hs : s.IsReadable) : (load r s w).IsOrdinary := by
  rcases r with ⟨x, _ | _⟩
  all_goals
    exact isOrdinary_of_decodes rfl (.load _ s w) rfl (by simpa using hr) (by simpa using hs)

theorem isOrdinary_store (hr : r.IsReadable) (hs : s.IsReadable) : (store s r w).IsOrdinary := by
  rcases r with ⟨x, _ | _⟩
  all_goals
    exact isOrdinary_of_decodes rfl (.store s _ w) rfl nofun (by simpa using ⟨hs, hr⟩)

theorem isOrdinary_unary (hf : op.family = .unary) (hr : r.IsWritable) (hs : s.IsReadable) :
    (unary op r s).IsOrdinary :=
  isOrdinary_of_decodes hf (.unary r s) rfl (by simpa using hr) (by simpa using hs)

theorem isOrdinary_binary (hf : op.family = .binary) (hr : r.IsWritable) (hs : s.IsReadable)
    (ht : t.IsReadable) : (binary op r s t).IsOrdinary :=
  isOrdinary_of_decodes hf (.binary r s t) rfl (by simpa using hr)
    (by simpa using ⟨hs, ht⟩)

theorem isOrdinary_immediate (hf : op.family = .immediate) (hr : r.IsWritable) (hs : s.IsReadable) :
    (immediate op r s w).IsOrdinary :=
  isOrdinary_of_decodes hf (.immediate r s w) rfl (by simpa using hr)
    (by simpa using hs)

theorem isOrdinary_move (hr : r.IsWritable) (hs : s.IsReadable) : (move r s).IsOrdinary := by
  rcases r with ⟨x, _ | _⟩ <;> exact isOrdinary_unary rfl hr hs

theorem isOrdinary_nop : nop.IsOrdinary :=
  ⟨rfl, nofun, nofun, nofun, nofun, nofun⟩

end Forms

namespace IsOrdinary

theorem readable (hi : i.IsOrdinary) (h : i.reg? n = some r) : r.IsReadable :=
  hi.reads r (mem_regs_of_reg? h)

theorem writable (hi : i.IsOrdinary) (heff : i.op.effect = .defineFirst ∨ i.op.effect = .defineAll)
    (h : i.reg? 0 = some r) : r.IsWritable := by
  refine hi.writes r ?_
  obtain ⟨op, os⟩ := i
  cases os with
  | nil => cases h
  | cons o os =>
    obtain ⟨o', ho, hr⟩ := Option.bind_eq_some_iff.mp h
    cases ho
    rcases heff with heff | heff <;> rw [defs, heff, regs, filterMap_cons_some hr] <;>
      exact mem_cons_self

theorem mapRegs (hi : i.IsOrdinary) (hw : ∀ r ∈ i.defs, (f r).IsWritable)
    (hr : ∀ r ∈ i.regs, (f r).IsReadable) : (i.mapRegs f).IsOrdinary := by
  refine ⟨?_, fun hl => ?_, fun r hmem => ?_, fun r hmem => ?_, fun k hmem => ?_, ?_⟩
  · obtain ⟨d, hd⟩ := Option.isSome_iff_exists.mp hi.decodes
    obtain ⟨d', hd'⟩ := (decodes_of_decode? hd).exists_mapReg f
    exact Option.isSome_iff_exists.mpr ⟨d', decode?_of_decodes hd'⟩
  · rw [label?_mapRegs]
    exact hi.named hl
  · rw [defs_mapRegs] at hmem
    obtain ⟨q, hq, rfl⟩ := mem_map.mp hmem
    exact hw q hq
  · rw [regs_mapRegs] at hmem
    obtain ⟨q, hq, rfl⟩ := mem_map.mp hmem
    exact hr q hq
  · obtain ⟨o, ho, hk⟩ := mem_map.mp hmem
    cases o <;> cases hk
    exact hi.lanes k ho
  · rw [label?_mapRegs]
    exact hi.callee

end IsOrdinary

theorem mask_mem_mapUses {k : BitVec 8} (h : .mask k ∈ (i.mapUses f).operands) :
    .mask k ∈ i.operands := by
  have hall : ∀ {os : List Operand}, .mask k ∈ os.map (Operand.mapReg f) → .mask k ∈ os := by
    intro os h
    obtain ⟨o, ho, hk⟩ := mem_map.mp h
    cases o <;> cases hk
    exact ho
  have hlater : ∀ {os : List Operand}, .mask k ∈ mapLaterRegs f os → .mask k ∈ os := by
    intro os h
    induction os with
    | nil => exact h
    | cons o os ih =>
      cases o with
      | reg r => exact mem_cons_of_mem _ (hall ((mem_cons.mp h).resolve_left nofun))
      | imm | fimm | label | mask => exact mem_cons.mpr ((mem_cons.mp h).imp_right ih)
  have hfirst : ∀ {os : List Operand}, .mask k ∈ mapFirstReg f os → .mask k ∈ os := by
    intro os h
    induction os with
    | nil => exact h
    | cons o os ih =>
      cases o with
      | reg r => exact mem_cons_of_mem _ ((mem_cons.mp h).resolve_left nofun)
      | imm | fimm | label | mask => exact mem_cons.mpr ((mem_cons.mp h).imp_right ih)
  unfold mapUses at h
  split at h
  · exact hlater h
  · exact h
  · exact hall h
  · exact hfirst h
  · split at h
    · exact hlater h
    · exact hall h
  · exact h

theorem IsOrdinary.mapUses (hi : i.IsOrdinary) (hr : ∀ r, r.IsReadable → (f r).IsReadable) :
    (i.mapUses f).IsOrdinary := by
  refine ⟨?_, fun hl => ?_, fun r hmem => ?_, fun r hmem => ?_, fun k hmem => ?_, ?_⟩
  · obtain ⟨d, hd⟩ := Option.isSome_iff_exists.mp hi.decodes
    exact Option.isSome_iff_exists.mpr ⟨_, decode?_mapUses f hd⟩
  · rw [label?_mapUses]
    refine hi.named ?_
    rwa [isLabel, op_mapUses] at hl
  · rw [defs_mapUses] at hmem
    exact hi.writes r hmem
  · rcases mem_regs_mapUses hmem with hmem | ⟨q, hq, rfl⟩
    · exact hi.reads r hmem
    · exact hr q (hi.reads q hq)
  · exact hi.lanes k (mask_mem_mapUses hmem)
  · rw [op_mapUses, label?_mapUses]
    exact hi.callee

/-! ## Calls -/

namespace IsOrdinary

theorem withoutResult (hi : i.IsOrdinary) (hf : i.op.family = .callResult)
    (hop : op.family = .call ∨ op.family = .tailCall) :
    (⟨op, i.operands.drop 1⟩ : Instr).IsOrdinary := by
  obtain ⟨d, hd⟩ := Option.isSome_iff_exists.mp hi.decodes
  obtain ⟨r, t, args, hos, -⟩ := decode?_callResult hf hd
  have hcall : i.op.isCall = true := by
    cases hio : i.op <;> rw [hio] at hf <;> first | rfl | cases hf
  have hreads : ∀ q ∈ t.reads args, q.IsReadable := by
    intro q hq
    refine hi.reads q ?_
    rw [regs, hos, filterMap_cons_some (Operand.reg?_reg r), filterMap_reg?_operand]
    exact mem_cons_of_mem r hq
  have hlabel : ∀ l, (t.operand :: args.map .reg).findSome? Operand.label? = some l →
      endifOf? l = none := by
    intro l hl
    refine hi.callee hcall l ?_
    rw [label?, hos, findSome?_cons]
    exact hl
  rw [hos, drop_one, tail_cons]
  exact isOrdinary_of_target hop hreads hlabel

theorem asTailCall? (hi : i.IsOrdinary) {t : Instr} (h : i.asTailCall? = some t) :
    t.IsOrdinary := by
  have hsame : ∀ {op : Opcode}, i.op.family = .call → op.family = .tailCall →
      (⟨op, i.operands⟩ : Instr).IsOrdinary := by
    intro op hf hop
    obtain ⟨d, hd⟩ := Option.isSome_iff_exists.mp hi.decodes
    have hdec := decodes_of_decode? hd
    rw [hf] at hdec
    have hcall : i.op.isCall = true := by
      cases hio : i.op <;> rw [hio] at hf <;> first | rfl | cases hf
    have hlabel := hi.callee hcall
    have hreads := hi.reads
    rw [label?] at hlabel
    rw [regs] at hreads
    generalize i.operands = os at hdec hlabel hreads
    cases hdec with
    | call t args =>
      rw [filterMap_reg?_operand] at hreads
      exact isOrdinary_of_target (.inr hop) hreads hlabel
  unfold Instr.asTailCall? at h
  split at h
  · next hop =>
    cases h
    exact hsame (by rw [hop]; rfl) rfl
  · next hop =>
    cases h
    exact hsame (by rw [hop]; rfl) rfl
  · next hop =>
    cases h
    exact hi.withoutResult (by rw [hop]; rfl) (.inr rfl)
  · next hop =>
    cases h
    exact hi.withoutResult (by rw [hop]; rfl) (.inr rfl)
  · cases h

end IsOrdinary

end Instr

open Instr

/-! ## Bodies -/

/-- A body as passes up to expansion hand it on. -/
structure IsOrdinaryBody (code : Code) : Prop where
  arranged : IsArranged code
  ordinary : ∀ i ∈ code, i.IsOrdinary

theorem Opcode.isInner_of_isPure {op : Opcode} (h : op.isPure = true) : op.isInner = true := by
  cases op <;> first | rfl | cases h

theorem Opcode.isInner_of_isMove {op : Opcode} (h : op.isMove = true) : op.isInner = true := by
  cases op <;> first | rfl | cases h

theorem IsOrdinaryBody.reworked {code' : Code} (hc : IsOrdinaryBody code)
    (h : Expands (Reworks IsOrdinary) code code') : IsOrdinaryBody code' :=
  ⟨hc.arranged.reworked h, h.forall_reworked⟩

/-! ## Folding addresses -/

/-- The instructions that make up an array access. -/
structure ElementAccess.MadeOf (a : ElementAccess) (shift sum access : Instr) : Prop where
  shift_op : shift.op = .slli
  scaled : shift.reg? 0 = some a.scaled
  index : shift.reg? 1 = some a.index
  sum_op : sum.op = .add
  address : sum.reg? 0 = some a.address
  base : sum.reg? 1 = some a.base
  access_op : access.op = a.op
  value : a.op.isScalarLoad = true ∧ access.reg? 0 = some a.value ∨
    (a.op = .sw ∨ a.op = .fsw) ∧ access.reg? 1 = some a.value

namespace ElementAccess

variable {a : ElementAccess} {shift sum access : Instr} {known : KnownValues} {folded : Code}

theorem madeOf_of? (h : of? shift sum access = some a) : a.MadeOf shift sum access := by
  simp only [of?, Option.bind_eq_bind, Option.bind_eq_some_iff] at h
  obtain ⟨_, hops, scaled, hscaled, address, haddress, _, -, ⟨addressAt, valueAt⟩, hat, _, -, index,
    hindex, base, hbase, value, hvalue, ha⟩ := h
  obtain ⟨hshift, -, hsum⟩ : shift.op = .slli ∧ shift.imm? 2 = some 2 ∧ sum.op = .add := by
    refine Decidable.byContradiction fun hn => ?_
    rw [guard, if_neg hn] at hops
    cases hops
  cases ha
  refine ⟨hshift, hscaled, hindex, hsum, haddress, hbase, rfl, ?_⟩
  unfold positions? at hat
  simp only
  cases hop : access.op <;> rw [hop] at hat <;> cases hat
  · exact .inl ⟨rfl, hvalue⟩
  · exact .inl ⟨rfl, hvalue⟩
  · exact .inr ⟨.inl rfl, hvalue⟩
  · exact .inr ⟨.inr rfl, hvalue⟩

theorem MadeOf.fold? (ha : a.MadeOf shift sum access) (hshift : shift.IsOrdinary)
    (hsum : sum.IsOrdinary) (haccess : access.IsOrdinary) (h : a.fold? known = some folded) :
    ∀ k ∈ folded, k.joint? = none ∧ k.IsOrdinary := by
  have hscaled : a.scaled.IsWritable := hshift.writable (.inl (by rw [ha.shift_op]; rfl)) ha.scaled
  have hindex : a.index.IsReadable := hshift.readable ha.index
  have haddress : a.address.IsWritable := hsum.writable (.inl (by rw [ha.sum_op]; rfl)) ha.address
  have hbase : a.base.IsReadable := hsum.readable ha.base
  have hvalue : (a.op.isScalarLoad = true ∧ a.value.IsWritable) ∨
      (a.op = .sw ∨ a.op = .fsw) ∧ a.value.IsReadable := by
    refine ha.value.imp (fun hv => ⟨hv.1, haccess.writable (.inl ?_) hv.2⟩) fun hv =>
      ⟨hv.1, haccess.readable hv.2⟩
    rw [ha.access_op]
    cases hop : a.op <;> rw [hop] at hv <;> first | rfl | cases hv.1
  have hoffset : ∀ {base : Reg} {w : Word}, base.IsReadable →
      (a.atOffset base w).joint? = none ∧ (a.atOffset base w).IsOrdinary := by
    intro base w hb
    unfold atOffset
    rcases hvalue with ⟨hload, hv⟩ | ⟨hstore, hv⟩
    · rw [if_pos hload]
      exact ⟨joint?_load, isOrdinary_load hv hb⟩
    · rw [if_neg (by rcases hstore with h | h <;> rw [h] <;> nofun)]
      exact ⟨joint?_store, isOrdinary_store hv hb⟩
  unfold ElementAccess.fold? at h
  split at h
  · cases h
    simp only [mem_singleton, forall_eq]
    rcases hvalue with ⟨hload, hv⟩ | ⟨hstore, hv⟩
    · cases hop : a.op <;> rw [hop] at hload <;> cases hload <;> simp only [absoluteOp, hop]
      all_goals
        exact ⟨rfl, isOrdinary_of_decodes rfl (.loadAt _ _) rfl (by simpa using hv) nofun⟩
    · rcases hstore with hop | hop <;> simp only [absoluteOp, hop]
      all_goals
        exact ⟨rfl, isOrdinary_of_decodes rfl (.storeAt _ _) rfl nofun (by simpa using hv)⟩
  · cases h
    simp only [mem_cons, not_mem_nil, or_false, forall_eq_or_imp, forall_eq]
    exact ⟨⟨rfl, isOrdinary_immediate rfl hscaled hindex⟩, hoffset hscaled.isReadable⟩
  · cases h
    simp only [mem_cons, not_mem_nil, or_false, forall_eq_or_imp, forall_eq]
    exact ⟨⟨rfl, isOrdinary_immediate rfl haddress hbase⟩, hoffset haddress.isReadable⟩
  · cases h

theorem MadeOf.isInner (ha : a.MadeOf shift sum access) :
    shift.op.isInner = true ∧ sum.op.isInner = true ∧ access.op.isInner = true := by
  refine ⟨by rw [ha.shift_op]; rfl, by rw [ha.sum_op]; rfl, ?_⟩
  rw [ha.access_op]
  rcases ha.value with ⟨h, -⟩ | ⟨h | h, -⟩
  · cases hop : a.op <;> rw [hop] at h <;> first | rfl | cases h
  all_goals rw [h]; rfl

end ElementAccess

theorem expands_foldFrom {rest : Code} {known : KnownValues} (h : ∀ i ∈ rest, i.IsOrdinary) :
    Expands (Reworks IsOrdinary) rest (foldFrom code known rest) := by
  fun_induction foldFrom code known rest with
  | case1 known i j k rest folded hfold ih =>
    simp only [forall_mem_cons] at h
    obtain ⟨hi, hj, hk, hrest⟩ := h
    obtain ⟨a, ha, hfolded⟩ := Option.bind_eq_some_iff.mp hfold
    have hmade := ElementAccess.madeOf_of? ha
    obtain ⟨hii, hij, hik⟩ := hmade.isInner
    -- the first of the three makes way for what is folded, the others for nothing
    have hempty : ∀ {k : Instr}, k.op.isInner = true → Reworks IsOrdinary k [] :=
      fun hk => .between hk nofun
    exact .cons (.between hii (hmade.fold? hi hj hk hfolded))
      (.cons (hempty hij) (.cons (hempty hik) (ih hrest)))
  | case2 known i j k rest hnone ih =>
    rw [forall_mem_cons] at h
    exact .cons (.single rfl h.1) (ih h.2)
  | case3 => exact Reworks.expands_self h

theorem IsOrdinaryBody.fold (hc : IsOrdinaryBody code) : IsOrdinaryBody (foldAddresses code) :=
  hc.reworked (expands_foldFrom hc.ordinary)

/-! ## Cleanup -/

theorem Instr.IsOrdinary.foldOffset {sum access : Instr} (hsum : sum.IsOrdinary)
    (haccess : access.IsOrdinary) : (foldOffset sum access).joint? = access.joint? ∧
      (foldOffset sum access).IsOrdinary := by
  rcases foldOffset_cases sum access with heq | ⟨d, s, k, base, b, offset, -, hs, -, hbase, hb, ho, -,
    -, -, heq⟩
  · rw [heq]
    exact ⟨rfl, haccess⟩
  have hread : s.IsReadable := hsum.readable hs
  have hfit := fits_of_decodes haccess.decodes
  rw [heq]
  obtain ⟨op, os⟩ := access
  rcases family_of_base? hbase with ⟨hf, rfl⟩ | ⟨hf, rfl⟩
  · rw [hf] at hfit
    obtain ⟨r, q, o, hos⟩ := hfit
    simp only at hos hf
    subst hos
    refine ⟨rfl, isOrdinary_of_decodes hf (.load r s _) rfl ?_ (by simpa using hread)⟩
    have hw := haccess.writable (.inl (by rw [effect_eq, hf]; rfl)) (r := r) rfl
    simpa using hw
  · rw [hf] at hfit
    obtain ⟨q, r, o, hos⟩ := hfit
    simp only at hos hf
    subst hos
    have hr : r.IsReadable := haccess.readable (n := 1) rfl
    exact ⟨rfl, isOrdinary_of_decodes hf (.store s r _) rfl nofun (by simpa using ⟨hread, hr⟩)⟩

theorem reworks_peepholePairs (h : ∀ i ∈ code, i.IsOrdinary) :
    Expands (Reworks IsOrdinary) code (peepholePairs code) := by
  have hpairs := expands_peepholePairs (R := fun i k => k.joint? = i.joint? ∧ k.IsOrdinary)
    (fun hi => ⟨rfl, hi⟩) (fun h h' => ⟨h'.1.trans h.1, h'.2⟩) isOrdinary_nop
    (fun _ hm => ⟨(joint?_of_isInner (isInner_of_isMove hm)).symm, isOrdinary_nop⟩)
    (fun hsum haccess => ⟨(hsum.foldOffset haccess).2, hsum.foldOffset haccess⟩) h
  refine hpairs.mono ?_
  rintro i _ ⟨k, rfl, hjoint, hk⟩
  exact .single hjoint hk

theorem Reworks.expands_deleteNops (h : ∀ i ∈ code, P i) :
    Expands (Reworks P) code (deleteNops code) := by
  refine Reworks.expands_filter h fun i hi hk => ?_
  have hop : i.op = .nop := by simpa using hk
  rw [hop]
  rfl

namespace IsOrdinaryBody

theorem peepholed (hc : IsOrdinaryBody code) : IsOrdinaryBody (peephole code) := by
  have hpairs := hc.reworked (reworks_peepholePairs hc.ordinary)
  refine hpairs.reworked (Reworks.expands_filter hpairs.ordinary fun i hi hk => ?_)
  simp only [addsNothing, Bool.not_eq_false', Bool.and_eq_true, decide_eq_true_eq] at hk
  rw [hk.1.1]
  rfl

theorem withoutNops (hc : IsOrdinaryBody code) : IsOrdinaryBody (deleteNops code) :=
  hc.reworked (Reworks.expands_deleteNops hc.ordinary)

end IsOrdinaryBody

/-! ## Allocation -/

theorem SpillBlock.reworks (hvar : var.isReserved = false) (hi : i.IsOrdinary)
    (h : SpillBlock var n i block) : Reworks IsOrdinary i block := by
  have hwritable := Reg.isWritable_of_not_isReserved hvar
  have hstore : ∀ k ∈ (if var ∈ i.trackedDefs then
      [(⟨.spillStore, [.reg var, .label var.name]⟩ : Instr)] else []),
      k.joint? = none ∧ k.IsOrdinary := by
    intro k hk
    split at hk
    · obtain rfl := mem_singleton.mp hk
      refine ⟨rfl, isOrdinary_of_decodes rfl (.slotStore var var.name) rfl nofun ?_⟩
      simpa using hwritable.isReadable
    · cases hk
  cases h with
  | keep _ => exact .behind hi hstore
  | reload k _ huse =>
    have htemp := Reg.isWritable_of_not_isReserved (isReserved_reloadTemp k var.cls)
    have hload : (⟨.spillLoad, [.reg (reloadTemp k var.cls), .label var.name]⟩ : Instr).IsOrdinary :=
      isOrdinary_of_decodes rfl (.slotLoad _ var.name) rfl (by simpa using htemp) nofun
    have hlabel : i.isLabel = false := by
      refine decide_eq_false fun hop => ?_
      rw [Instr.uses, hop] at huse
      cases huse
    have hfront : ∀ j ∈ [(⟨.spillLoad, [.reg (reloadTemp k var.cls), .label var.name]⟩ : Instr)],
        j.joint? = none ∧ j.IsOrdinary := by
      simpa using ⟨rfl, hload⟩
    have huses : (i.mapUses fun r => if r = var then reloadTemp k var.cls else r).IsOrdinary := by
      refine hi.mapUses fun r hr => ?_
      split
      · exact htemp.isReadable
      · exact hr
    have hjoint := joint?_congr (op_mapUses _ i) (label?_mapUses (fun r => if r = var then
      reloadTemp k var.cls else r) i)
    exact .around hlabel (hjoint ▸ .refl _) huses hfront hstore

theorem PruneBlock.reworks {K : Reg → Prop} (hi : i.IsOrdinary) (h : PruneBlock K i block) :
    Reworks IsOrdinary i block := by
  cases h with
  | keep _ => exact .single rfl hi
  | delete hpure _ _ =>
    exact .between (isInner_of_isPure hpure) nofun
  | @drop op hdrop _ _ _ =>
    have hops : i.op.family = .callResult ∧ i.op.isInner = true ∧ op.family = .call ∧
        op.isInner = true := by
      generalize i.op = iop at hdrop
      cases hdrop <;> decide
    obtain ⟨hf, hinner, hf', hinner'⟩ := hops
    refine .single ?_ (hi.withoutResult hf (.inl hf'))
    rw [joint?_of_isInner (i := ⟨op, _⟩) hinner', joint?_of_isInner hinner]

/-- An order that gives out no register with a fixed role. -/
def AllocationOrder.IsFree (order : AllocationOrder) : Prop :=
  ∀ cls, ∀ p ∈ order.ofClass cls, p ∉ PhysReg.reserved

namespace IsOrdinaryBody

variable {code' : Code} (hc : IsOrdinaryBody code)
include hc

theorem expands {B : Instr → Code → Prop} (h : Expands B code code')
    (hB : ∀ {i block}, i ∈ code → i.IsOrdinary → B i block → Reworks IsOrdinary i block) :
    IsOrdinaryBody code' :=
  hc.reworked (h.mono_of_mem fun hi => hB hi (hc.ordinary _ hi))

theorem marked : IsOrdinaryBody (markUnusedParams code) := by
  obtain ⟨front, params, rest, hcode, -, -, hexp⟩ := exists_expands_markers code
  refine hc.expands hexp fun _ hi ⟨behind, hblock, hmarks, _⟩ => ?_
  rw [hblock]
  refine .behind hi fun k hk => ?_
  obtain ⟨p, hp, r, hr, -, rfl⟩ := mem_markers (hmarks hk)
  have hmem : p ∈ code := by
    rw [hcode]
    exact mem_append_left _ (mem_append_right _ hp)
  have hreadable := (hc.ordinary p hmem).readable hr
  exact ⟨rfl, isOrdinary_of_decodes rfl (.unusedParam r) rfl nofun (by simpa using hreadable)⟩

theorem spilled {s : SpillState} (hvar : var.isReserved = false) :
    IsOrdinaryBody (spillCode var s code).1 :=
  hc.expands (expands_spillCode (Nat.le_refl _) code) fun _ hi hb => hb.reworks hvar hi

theorem pruned : IsOrdinaryBody (removeDeadDefinitions code) := by
  obtain ⟨K, hexp, -⟩ := exists_expands_removeDeadDefinitions code
  exact hc.expands hexp fun _ hi hb => hb.reworks hi

theorem renamed (h : ∀ i ∈ code, ∀ r ∈ i.regs, f r = r ∨ (f r).IsWritable) :
    IsOrdinaryBody (code.map (Instr.mapRegs f)) := by
  refine hc.reworked (Reworks.expands_map fun i hi => ?_)
  have hord := hc.ordinary i hi
  refine ⟨joint?_congr rfl (label?_mapRegs f i), hord.mapRegs (fun r hr => ?_) fun r hr => ?_⟩
  · rcases h i hi r (defs_subset_regs hr) with h | h
    · rw [h]
      exact hord.writes r hr
    · exact h
  · rcases h i hi r hr with h | h
    · rw [h]
      exact hord.reads r hr
    · exact h.isReadable

theorem allocated {order : AllocationOrder} {a : Allocation} (horder : order.IsFree)
    (ha : allocate order code = .ok a) : IsOrdinaryBody a.code := by
  obtain ⟨left, registers, hleft, hcode, hregs⟩ := exists_renamed_of_allocateVisiting
    (fun _ => UseVisit.isOrder_byName) ha hc.marked fun hvar h => h.spilled hvar
  rw [hcode]
  refine hleft.pruned.renamed fun i hi r hr => ?_
  cases hres : r.isReserved with
  | true => exact .inl (ProperAssignment.assignedReg_of_isReserved hres)
  | false =>
    obtain ⟨p, hp, hlook⟩ := hregs i hi r hr hres
    rw [ProperAssignment.assignedReg_of_lookup hres hlook]
    exact .inr (Reg.isWritable_of_name_eq (horder _ p hp) rfl)

end IsOrdinaryBody

/-! ## Behind allocation -/

theorem isWritable_of_mem_classRenaming {function : String} {cls : RegClass}
    {table : List (String × String)} (hc : ∀ i ∈ code, i.IsOrdinary)
    (h : classRenaming function code cls = .ok table) (hxy : (x, y) ∈ table) (c : RegClass) :
    (⟨y, c⟩ : Reg).IsWritable := by
  obtain ⟨-, rfl⟩ := classRenaming_eq_ok h
  rcases mem_append.mp hxy with hxy | hxy
  · obtain ⟨p, hp, rfl⟩ := mem_map.mp (of_mem_zip (mem_reverse.mp hxy)).2
    obtain ⟨k, -, hk⟩ := mem_filterMap.mp hp
    exact Reg.isWritable_of_name_eq (argument?_not_mem_reserved hk).2 rfl
  · obtain ⟨r, hr, hry⟩ := mem_filterMap.mp (mem_of_mem_filter (of_mem_zip (mem_reverse.mp hxy)).2)
    obtain ⟨i, hi, hir⟩ := mem_filterMap.mp hr
    obtain ⟨hi, hop⟩ := mem_filter.mp hi
    have hwritable : r.IsWritable :=
      (hc i hi).writable (.inr (by rw [of_decide_eq_true hop]; rfl)) hir
    rw [Option.ite_none_right_eq_some, Option.some.injEq] at hry
    rw [Reg.isWritable_iff] at hwritable ⊢
    rwa [← hry.2]

theorem IsOrdinaryBody.assignParams {function : String} (hc : IsOrdinaryBody code)
    (h : assignParams function code = .ok body) : IsOrdinaryBody body := by
  obtain ⟨-, floats, ints, hfloats, hints, rfl⟩ := assignParams_eq_ok h
  refine hc.renamed fun i _ r _ => ?_
  rw [Reg.renameBy]
  cases hlook : (floats ++ ints).lookup r.name with
  | none => exact .inl rfl
  | some y =>
    refine .inr ?_
    rcases mem_append.mp (mem_of_lookup hlook) with hmem | hmem
    · exact isWritable_of_mem_classRenaming hc.ordinary hfloats hmem r.cls
    · exact isWritable_of_mem_classRenaming hc.ordinary hints hmem r.cls

theorem Instr.IsOrdinary.reworks_asTailCall? {t : Instr} (hi : i.IsOrdinary)
    (h : i.asTailCall? = some t) : Reworks IsOrdinary i [t] := by
  have ht := hi.asTailCall? h
  obtain ⟨hcall, hno, htail⟩ := of_asTailCall? h
  have hinner : i.op.isInner = true := by
    rw [isTail] at hno
    cases hop : i.op <;> rw [hop] at hcall hno
    all_goals first | rfl | exact absurd hcall (by decide) | exact absurd hno (by decide)
  have hop := op_of_isTail htail
  have hwiden : Widened i.joint?.toList t.joint?.toList := by
    rw [joint?_of_isInner hinner]
    cases hj : t.joint? with
    | none => exact .nil
    | some j =>
      cases j with
      | label l =>
        have hlabel : t.op = .label := of_decide_eq_true (joint?_eq_label hj).1
        rcases hop with hop | hop <;> rw [hop] at hlabel <;> cases hlabel
      | branch l =>
        have hbranch := (joint?_eq_branch hj).1
        rcases hop with hop | hop <;> rw [hop] at hbranch <;> cases hbranch
      | jump l =>
        refine .add (ht.callee ?_ l (joint?_eq_jump hj).2) .nil
        rcases hop with hop | hop <;> rw [hop] <;> rfl
  exact Reworks.around (isLabel_of_isInner hinner) hwiden ht (forall_mem_nil _) (forall_mem_nil _)

theorem IsOrdinaryBody.makeTailCalls {count : Nat} (hc : IsOrdinaryBody code)
    (h : makeTailCalls code = .ok (body, count)) : IsOrdinaryBody body := by
  have hexp : ∀ (part : Code) (p : Nat), (∀ i ∈ part, i.IsOrdinary) →
      Expands (Reworks IsOrdinary) part (tailPart code p part) := by
    intro part
    induction part with
    | nil => exact fun _ _ => .nil
    | cons i part ih =>
      intro p hpart
      rw [forall_mem_cons] at hpart
      have hblock : Reworks IsOrdinary i [tailAt code p i] := by
        rcases (tailFor_tailAt code p i).or with heq | ht
        · rw [heq]
          exact .single rfl hpart.1
        · exact hpart.1.reworks_asTailCall? ht
      exact .cons hblock (ih (p + 1) hpart.2)
  rw [makeTailCalls_eq_ok h]
  exact hc.reworked (hexp code 0 hc.ordinary)

theorem single?_eq_some {cls : RegClass} {x : Reg} (h : single? cls args = some x) : x ∈ args := by
  unfold single? at h
  split at h
  · rw [Option.ite_none_right_eq_some, Option.some.injEq] at h
    exact h.2 ▸ mem_singleton_self _
  · cases h

/-- What an intrinsic is replaced by reads the arguments of the call and writes its destination. -/
theorem isOrdinary_of_mem_intrinsic? {callee : String} {dest : Reg} (hdest : dest.IsWritable)
    (hargs : ∀ r ∈ args, r.IsReadable) (h : intrinsic? callee dest args = some block) :
    ∀ k ∈ block, k.joint? = none ∧ k.IsOrdinary := by
  have hscratch : (Reg.ofPhys .floatScratch).IsWritable :=
    Reg.isWritable_ofPhys (by decide) (by decide)
  have hzero : (Reg.ofPhys .zero).IsReadable := by
    rw [Reg.isReadable_iff]
    decide
  have hset : (unary .fmvWX (.ofPhys .floatScratch) (.ofPhys .zero)).joint? = none ∧
      (unary .fmvWX (.ofPhys .floatScratch) (.ofPhys .zero)).IsOrdinary :=
    ⟨rfl, isOrdinary_unary rfl hscratch hzero⟩
  have hone : ∀ {cls : RegClass} {f : Reg → Code}, (single? cls args).map f = some block →
      (∀ x : Reg, x.IsReadable → ∀ k ∈ f x, k.joint? = none ∧ k.IsOrdinary) →
      ∀ k ∈ block, k.joint? = none ∧ k.IsOrdinary := by
    intro cls f hmap hf
    obtain ⟨x, hx, rfl⟩ := Option.map_eq_some_iff.mp hmap
    exact hf x (hargs x (single?_eq_some hx))
  have hbinary : ∀ {op : Opcode} {x y : Reg}, op.family = .binary → op.isInner = true →
      x.IsReadable → y.IsReadable →
      (binary op dest x y).joint? = none ∧ (binary op dest x y).IsOrdinary :=
    fun hf hinner hx hy => ⟨joint?_of_isInner hinner, isOrdinary_binary hf hdest hx hy⟩
  unfold intrinsic? at h
  dsimp only at h
  split at h
  case h_3 =>
    exact hone h fun x hx => by simpa using hbinary rfl rfl hx hx
  case h_7 =>
    split at h
    · next x y =>
      rw [Option.ite_none_right_eq_some, Option.some.injEq] at h
      rw [← h.2]
      simpa using hbinary rfl rfl (hargs y (by simp)) (hargs x (by simp))
    · cases h
  case h_8 =>
    exact hone h fun x hx => by simpa using ⟨hset, hbinary rfl rfl hx hscratch.isReadable⟩
  case h_9 | h_10 =>
    exact hone h fun x hx => by simpa using ⟨hset, hbinary rfl rfl hscratch.isReadable hx⟩
  case h_11 => cases h
  all_goals exact hone h fun x hx => by simpa using ⟨rfl, isOrdinary_unary rfl hdest hx⟩

theorem IsOrdinaryBody.inlineIntrinsics (hc : IsOrdinaryBody code) :
    IsOrdinaryBody (inlineIntrinsics code).1 := by
  rw [ClosureCodegen.inlineIntrinsics, flatMap_map]
  refine hc.reworked (Reworks.expands_flatMap fun i hi => ?_)
  have hord := hc.ordinary i hi
  dsimp only
  cases hin : i.intrinsic? with
  | none => exact .single rfl hord
  | some inlined =>
    unfold Instr.intrinsic? at hin
    split at hin
    · next hop =>
      simp only [Option.bind_eq_bind, Option.bind_eq_some_iff, pure, Option.some.injEq] at hin
      obtain ⟨dest, hdest, callee, -, block, hblock, rfl⟩ := hin
      refine .between (by rw [hop]; rfl) (isOrdinary_of_mem_intrinsic? ?_ ?_ hblock)
      · exact hord.writable (.inl (by rw [hop]; rfl)) hdest
      · exact fun r hr => hord.reads r (mem_of_mem_drop hr)
    · cases hin

end ClosureCodegen
