import ClosureCodegen.Allocation.Basic
import ClosureCodegen.Proofs.Allocation.DeadDefinitions
import ClosureCodegen.Proofs.Liveness.Paths
import ClosureCodegen.Proofs.Names

/-!
# Replacing variables by registers

Once every variable has its register, dead definitions are deleted and the variables are replaced.
Both steps are taken as one, since the registers were found for the body before the deletion.  The
invariant is that each kept variable has its value in its register as long as it is live.  It needs
registers that are *apart*: behind an instruction, what it defines and what is live there have
different registers.
-/

namespace ClosureCodegen
open List Machine Instr

variable {i : Instr} {code code' : Code} {r v : Reg} {p : PhysReg} {e : Execution}

/-- The register that a variable is replaced by. -/
def assignedReg (registers : List (Reg × PhysReg)) (r : Reg) : Reg :=
  if r.isReserved then r
  else
    match registers.lookup r with
    | some p => ⟨p.name, r.cls⟩
    | none => r

theorem cls_assignedReg (registers : List (Reg × PhysReg)) (r : Reg) :
    (assignedReg registers r).cls = r.cls := by
  unfold assignedReg
  split
  · rfl
  · split <;> rfl

/-- Registers without a fixed role that keep apart what an instruction defines and what is live
behind it. -/
structure ProperAssignment (code : Code) (registers : List (Reg × PhysReg)) : Prop where
  unreserved : ∀ {r p}, registers.lookup r = some p → isReservedName p.name = false
  apart : ∀ {i rest d v p q}, i :: rest <:+ code → d ∈ i.trackedDefs → v ≠ d → v.cls = d.cls →
    (v ∈ i.trackedDefs ∨
      ∃ t rest', i.CanTransfer t ∧ Follows code rest t rest' ∧ LiveIn code v rest') →
    registers.lookup d = some p → registers.lookup v = some q → p ≠ q

/-! ## Renamed instructions -/

def Instr.Assigned (registers : List (Reg × PhysReg)) (i : Instr) : Prop :=
  ∀ r ∈ i.regs, r.isReserved = false → ∃ p, registers.lookup r = some p

section

variable {registers : List (Reg × PhysReg)}

theorem renameOperand_eq_ok {o o' : Operand} (h : renameOperand registers o = .ok o') :
    o' = o.mapReg (assignedReg registers) ∧
      ∀ r, o.reg? = some r → r.isReserved = false → ∃ p, registers.lookup r = some p := by
  cases o with
  | reg r =>
    simp only [renameOperand] at h
    rw [Operand.mapReg, assignedReg]
    split at h
    · next hr =>
      cases h
      rw [if_pos hr]
      refine ⟨rfl, fun q hq hn => ?_⟩
      cases hq
      rw [hr] at hn
      cases hn
    · next hr =>
      rw [if_neg hr]
      cases hp : registers.lookup r with
      | none =>
        rw [hp] at h
        cases h
      | some p =>
        rw [hp] at h
        cases h
        refine ⟨rfl, fun q hq _ => ?_⟩
        cases hq
        exact ⟨p, hp⟩
  | imm w | fimm w | label w | mask w =>
    cases h
    refine ⟨rfl, fun r hr => ?_⟩
    cases hr

theorem renameInstr_eq_ok {i' : Instr} (h : renameInstr registers i = .ok i') :
    i' = i.mapRegs (assignedReg registers) ∧ i.Assigned registers := by
  simp only [renameInstr, Outcome.bind_eq_ok, Outcome.pure_eq_ok, Outcome.mapM_eq_ok] at h
  obtain ⟨os, hos, rfl⟩ := h
  obtain ⟨op, operands⟩ := i
  simp only at hos
  simp only [Instr.mapRegs, Instr.mk.injEq, true_and, Instr.Assigned, Instr.regs, mem_filterMap]
  induction hos with
  | nil =>
    refine ⟨rfl, ?_⟩
    rintro r ⟨o, ho, -⟩
    cases ho
  | cons ho _ ih =>
    obtain ⟨rfl, hr⟩ := renameOperand_eq_ok ho
    refine ⟨by rw [map_cons, ih.1], ?_⟩
    rintro r ⟨o, hmem, hor⟩ hn
    rcases mem_cons.mp hmem with rfl | hmem
    · exact hr r hor hn
    · exact ih.2 r ⟨o, hmem, hor⟩ hn

theorem mapM_renameInstr_eq_ok (h : code.mapM (renameInstr registers) = .ok code') :
    code' = code.map (mapRegs (assignedReg registers)) ∧
      ∀ k ∈ code, k.Assigned registers := by
  rw [Outcome.mapM_eq_ok] at h
  induction h with
  | nil => exact ⟨rfl, fun k hk => absurd hk not_mem_nil⟩
  | cons hk _ ih =>
    obtain ⟨rfl, hassigned⟩ := renameInstr_eq_ok hk
    refine ⟨by rw [map_cons, ← ih.1], ?_⟩
    exact forall_mem_cons.mpr ⟨hassigned, ih.2⟩

def RenameBlock (registers : List (Reg × PhysReg)) (K : Reg → Prop) (i : Instr) (block : Code) :
    Prop :=
  ∃ left, PruneBlock K i left ∧ block = left.map (Instr.mapRegs (assignedReg registers)) ∧
    ∀ k ∈ left, k.Assigned registers

theorem expands_rename {K : Reg → Prop} {left : Code} (h : Expands (PruneBlock K) code left)
    (hassigned : ∀ k ∈ left, k.Assigned registers) :
    Expands (RenameBlock registers K) code (left.map (mapRegs (assignedReg registers))) := by
  induction h with
  | nil => exact .nil
  | cons hi _ ih =>
    rw [map_append]
    refine .cons ⟨_, hi, rfl, fun k hk => hassigned k (mem_append_left _ hk)⟩ (ih ?_)
    exact fun k hk => hassigned k (mem_append_right _ hk)

theorem RenameBlock.faithful (K : Reg → Prop) : Faithful (RenameBlock registers K) where
  label := by
    rintro i block ⟨left, hleft, rfl, _⟩ hl
    have hop : i.op = .label := of_decide_eq_true hl
    cases hleft with
    | keep _ => exact ⟨_, rfl, hl, label?_mapRegs _ i⟩
    | delete hp _ _ =>
      rw [hop] at hp
      cases hp
    | drop hd _ _ _ =>
      rw [hop] at hd
      cases hd
  noLabel := by
    rintro i block ⟨left, hleft, rfl, _⟩ hl
    have hop : i.op ≠ .label := of_decide_eq_false hl
    cases hleft with
    | keep _ => simp [isLabel, hop]
    | delete _ _ _ => simp
    | drop hd _ _ _ =>
      generalize i.op = iop at hd
      cases hd <;> simp [isLabel]
  params := by
    rintro i block ⟨left, hleft, rfl, _⟩
    cases hleft with
    | keep _ => rfl
    | delete hp _ _ =>
      have hop : i.op ≠ .param := by
        rintro hop
        rw [hop] at hp
        cases hp
      simp [isParam, hop]
    | drop hd _ _ _ =>
      have hop : i.op ≠ .param := by
        rintro hop
        rw [hop] at hd
        cases hd
      generalize i.op = iop at hd
      cases hd <;> simp [isParam, hop]

end

/-! ## The renaming -/

namespace ProperAssignment

variable {registers : List (Reg × PhysReg)}

theorem assignedReg_of_isReserved (h : r.isReserved = true) : assignedReg registers r = r :=
    if_pos h

theorem assignedReg_of_lookup (h : r.isReserved = false) (hp : registers.lookup r = some p) :
    assignedReg registers r = ⟨p.name, r.cls⟩ := by
  rw [assignedReg, if_neg (Bool.eq_false_iff.mp h), hp]

variable (hA : ProperAssignment code registers)

include hA

theorem isReserved_assignedReg (h : r.isReserved = false) :
    (assignedReg registers r).isReserved = false := by
  rw [assignedReg, if_neg (Bool.eq_false_iff.mp h)]
  split
  · next hp => exact hA.unreserved hp
  · exact h

theorem assignedReg_eq_iff {q : Reg} (hq : q.isReserved = true) :
    assignedReg registers r = q ↔ r = q := by
  cases h : r.isReserved with
  | true => rw [assignedReg_of_isReserved h]
  | false =>
    constructor
    · intro he
      exact absurd he.symm (Reg.ne_of_isReserved hq (hA.isReserved_assignedReg h))
    · intro he
      exact absurd he.symm (Reg.ne_of_isReserved hq h)

end ProperAssignment

/-! ## Behaviour -/

/-- Kept variables that are live have their values in their registers; everything else agrees. -/
structure RenameInvariant (code : Code) (registers : List (Reg × PhysReg)) (K : Reg → Prop)
    (rest : Code) (m m' : Machine) : Prop where
  memory : m'.memory = m.memory
  slots : m'.slots = m.slots
  reserved : ∀ r, r.isReserved = true → m'.regs r = m.regs r
  vars : ∀ v, v.isReserved = false → K v → LiveIn code v rest →
    m'.regs (assignedReg registers v) = m.regs v

namespace RenameInvariant

variable {env : Environment} {rest : Code} {registers : List (Reg × PhysReg)} {K : Reg → Prop}
  {m m' : Machine} {a : Word}

theorem heap (h : RenameInvariant code registers K rest m m') : m'.heap = m.heap :=
  heap_eq h.memory (h.reserved heapReg isReserved_heapReg)

theorem exec {k : Instr} (hA : ProperAssignment code registers) (hz : k.idleLanesZero = true)
    (h : RenameInvariant code registers K rest m m')
    (huses : ∀ r ∈ k.trackedUses, m'.regs (assignedReg registers r) = m.regs r)
    (he : k.exec env a m = some e) :
    ∃ e', (k.mapRegs (assignedReg registers)).exec env a m' = some e' ∧
      Instr.Corresponds k (assignedReg registers) m m' e e' := by
  obtain ⟨d, -, hd, -, -⟩ := exec_eq_some.mp he
  have hd' := decode?_mapRegs (fun r => hA.assignedReg_eq_iff isReserved_zeroReg) hd
  refine exec_correspondence hz hd hd' ?_ h.heap
    (get_congr (h.reserved closureReg isReserved_closureReg))
    (fun s _ => congrFun h.slots s) (fun r _ => hA.assignedReg_eq_iff isReserved_heapReg) he
  rw [map_map]
  refine map_congr_left fun r hr => ?_
  rw [decode?_reads hd] at hr
  rw [Function.comp_apply]
  cases hres : r.isReserved with
  | true =>
    rw [ProperAssignment.assignedReg_of_isReserved hres]
    exact get_congr (h.reserved r hres)
  | false =>
    rw [get_of_ne (Reg.ne_of_isReserved isReserved_zeroReg hres).symm, get_of_ne
      (Reg.ne_of_isReserved isReserved_zeroReg (hA.isReserved_assignedReg hres)).symm]
    exact huses r (mem_trackedUses.mpr ⟨hr, hres⟩)

theorem defs_singleton (hr : i.defs = [r]) (hne : i.trackedDefs ≠ []) :
    i.trackedDefs = [r] ∧ r.isReserved = false := by
  have hmem : ∀ q ∈ i.trackedDefs, q = r := fun q hq =>
    mem_singleton.mp (hr ▸ (mem_trackedDefs.mp hq).1)
  obtain ⟨q, hq⟩ := exists_mem_of_ne_nil _ hne
  have hres : r.isReserved = false := hmem q hq ▸ (mem_trackedDefs.mp hq).2
  exact ⟨by rw [trackedDefs, hr, filter_singleton, hres]; rfl, hres⟩

/-- A variable that is live behind an instruction and is not defined by it was live in front. -/
theorem vars_of_not_mem {rest' : Code} (h : RenameInvariant code registers K (i :: rest) m m')
    (he : i.exec env a m = some e) (hf : Follows code rest e.transfer rest')
    (hv : v.isReserved = false) (hk : K v) (hlive : LiveIn code v rest') (hn : v ∉ i.trackedDefs) :
    m'.regs (assignedReg registers v) = m.regs v :=
  h.vars v hv hk (.flow hn (canTransfer_exec he) hf hlive)

theorem step {i : Instr} {block : Code} {e : Execution} (hA : ProperAssignment code registers)
    (hz : i.idleLanesZero = true) (hK : ∀ v, K v → ∃ p, registers.lookup v = some p)
    (hs : i :: rest <:+ code) (hb : RenameBlock registers K i block) (h : RenameInvariant code registers K (i :: rest) m m')
    (he : i.exec env a m = some e) :
    ∃ e', execBlock env a block m' = some e' ∧ e'.events = e.events ∧ e'.transfer = e.transfer ∧
      e'.machine.heap = e.machine.heap ∧ ∀ rest', Follows code rest e.transfer rest' →
        RenameInvariant code registers K rest' e.machine e'.machine := by
  obtain ⟨left, hleft, rfl, hassigned⟩ := hb
  have huses : (∀ r ∈ i.trackedUses, K r) →
      ∀ r ∈ i.trackedUses, m'.regs (assignedReg registers r) = m.regs r := fun hk r hr =>
    h.vars r (mem_trackedUses.mp hr).2 (hk r hr) (.use hr)
  cases hleft with
  | keep hk =>
    obtain ⟨e', he', hc⟩ := h.exec hA hz (huses hk) he
    have hres : ∀ r, r.isReserved = true → e'.machine.regs r = e.machine.regs r := fun r hr =>
      hc.regs (fun _ _ => hA.assignedReg_eq_iff hr) Iff.rfl fun _ => h.reserved r hr
    refine ⟨e', (execBlock_singleton ..).trans he', hc.events, hc.transfer,
      heap_eq hc.memory (hres heapReg isReserved_heapReg), fun rest' hf => ?_⟩
    refine ⟨hc.memory, ?_, hres, fun v hv hkv hlive => ?_⟩
    · funext s
      by_cases hslot : i.slot? = some s
      · exact hc.slot hslot
      · rw [(hc.slots hslot).1, (hc.slots hslot).2, h.slots]
    · -- no other destination has the register of a variable that is live behind
      have hapart : ∀ r ∈ i.defs, assignedReg registers r = assignedReg registers v ↔ r = v := by
        intro r hr
        refine ⟨fun heq => ?_, fun heq => by rw [heq]⟩
        cases hrr : r.isReserved with
        | true =>
          rw [ProperAssignment.assignedReg_of_isReserved hrr] at heq
          exact absurd heq (Reg.ne_of_isReserved hrr (hA.isReserved_assignedReg hv))
        | false =>
          obtain ⟨p, hp⟩ := hassigned i mem_cons_self r (defs_subset_regs hr) hrr
          obtain ⟨q, hq⟩ := hK v hkv
          by_contra hne
          rw [ProperAssignment.assignedReg_of_lookup hrr hp,
            ProperAssignment.assignedReg_of_lookup hv hq] at heq
          exact hA.apart hs (mem_trackedDefs.mpr ⟨hr, hrr⟩) (Ne.symm hne) (congrArg Reg.cls heq).symm
            (.inr ⟨_, rest', canTransfer_exec he, hf, hlive⟩) hp hq
            (PhysReg.name_injective (congrArg Reg.name heq))
      have hheap : assignedReg registers v = heapReg ↔ v = heapReg :=
        hA.assignedReg_eq_iff isReserved_heapReg
      refine hc.regs hapart hheap fun hn => ?_
      exact h.vars_of_not_mem he hf hv hkv hlive fun hin => hn (mem_trackedDefs.mp hin).1
  | delete hp hne hno =>
    obtain ⟨r, v, hr, hset⟩ := exec_value he (Opcode.isValue_of_isPure hp)
    obtain ⟨htr, hrr⟩ := defs_singleton hr hne
    have hother : ∀ q, q ≠ r → (m.set r v).regs q = m.regs q := fun q hq => if_neg hq
    obtain rfl := hset (Reg.ne_of_isReserved isReserved_heapReg hrr).symm
    have hres : ∀ q, q.isReserved = true → m'.regs q = (m.set r v).regs q := fun q hq =>
      (h.reserved q hq).trans (hother q (Reg.ne_of_isReserved hq hrr)).symm
    refine ⟨⟨m', [], .next⟩, rfl, rfl, rfl,
      heap_eq h.memory (hres heapReg isReserved_heapReg), fun rest' hf => ?_⟩
    refine ⟨h.memory, h.slots, hres, fun w hw hkw hlive => ?_⟩
    have hn : w ∉ i.trackedDefs := fun hin => hno w hin hkw
    have hwr : w ≠ r := fun heq => hn (by rw [htr, heq]; exact mem_cons_self)
    rw [hother w hwr]
    exact h.vars_of_not_mem he hf hw hkw hlive hn
  | @drop op hop hne hno hk =>
    obtain ⟨r, v, e₀, hr, hdefs, huse, he₀, hset⟩ := hop.exec he
    obtain ⟨htr, hrr⟩ := defs_singleton hr hne
    obtain rfl := hset (Reg.ne_of_isReserved isReserved_heapReg hrr).symm
    have hother : ∀ q, q ≠ r → (e₀.machine.set r v).regs q = e₀.machine.regs q :=
      fun q hq => if_neg hq
    have huses₀ : ∀ q ∈ (⟨op, i.operands.drop 1⟩ : Instr).trackedUses,
        m'.regs (assignedReg registers q) = m.regs q := by
      intro q hq
      rw [mem_trackedUses, huse, ← mem_trackedUses] at hq
      exact huses hk q hq
    obtain ⟨e', he', hc⟩ := h.exec hA (idleLanesZero_of_family (by rw [hop.family.2]; nofun)) huses₀ he₀
    have hres : ∀ q, q.isReserved = true →
        e'.machine.regs q = (e₀.machine.set r v).regs q := by
      intro q hq
      rw [hother q (Reg.ne_of_isReserved hq hrr)]
      exact hc.regs (fun _ _ => hA.assignedReg_eq_iff hq) Iff.rfl fun _ => h.reserved q hq
    refine ⟨e', (execBlock_singleton ..).trans he', hc.events, hc.transfer,
      heap_eq hc.memory (hres heapReg isReserved_heapReg), fun rest' hf => ?_⟩
    refine ⟨hc.memory, ?_, hres, fun w hw hkw hlive => ?_⟩
    · funext s
      by_cases hslot : (⟨op, i.operands.drop 1⟩ : Instr).slot? = some s
      · exact hc.slot hslot
      · exact (hc.slots hslot).1.trans ((congrFun h.slots s).trans (hc.slots hslot).2.symm)
    · have hn : w ∉ i.trackedDefs := fun hin => hno w hin hkw
      have hwr : w ≠ r := fun heq => hn (by rw [htr, heq]; exact mem_cons_self)
      rw [hother w hwr]
      refine hc.regs (fun q hq => ?_) (hA.assignedReg_eq_iff isReserved_heapReg)
        fun _ => h.vars_of_not_mem he hf hw hkw hlive hn
      rw [hdefs] at hq
      exact absurd hq not_mem_nil

end RenameInvariant

/-- Deleting dead definitions and replacing variables keeps the behaviour, from states that agree
on the registers of the variables. -/
theorem behavesLike_rename {env : Environment} {registers : List (Reg × PhysReg)}
    (hA : ProperAssignment code registers) (hz : ∀ i ∈ code, i.idleLanesZero = true)
    (h : (removeDeadDefinitions code).mapM (renameInstr registers) = .ok code') {m m' : Machine}
    (hmem : m'.memory = m.memory) (hslots : m'.slots = m.slots)
    (hregs : ∀ r, m'.regs (assignedReg registers r) = m.regs r) :
    BehavesLike (step env code) ⟨code, m⟩ (step env code') ⟨code', m'⟩ := by
  obtain ⟨rfl, hassigned⟩ := mapM_renameInstr_eq_ok h
  obtain ⟨K, hexp, hK⟩ := exists_expands_removeDeadDefinitions code
  have hK' : ∀ v, K v → ∃ p, registers.lookup v = some p := by
    intro v hv
    obtain ⟨k, hk, hu⟩ := mem_usedAnywhere.mp (hK v hv)
    obtain ⟨huse, hres⟩ := mem_trackedUses.mp hu
    exact hassigned k hk v (uses_subset_regs huse) hres
  have hheap : ∀ {rest m m'}, RenameInvariant code registers K rest m m' → m'.heap = m.heap :=
    fun h => h.heap
  refine Expands.behavesLike (RenameBlock.faithful K) (expands_rename hexp hassigned) hheap
    (fun hs hb h he => h.step hA (hz _ (hs.mem mem_cons_self)) hK' hs hb he) ?_
  refine ⟨hmem, hslots, fun r hr => ?_, fun v _ _ _ => hregs v⟩
  have := hregs r
  rwa [ProperAssignment.assignedReg_of_isReserved hr] at this

end ClosureCodegen
