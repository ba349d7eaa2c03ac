import ClosureCodegen.Proofs.Execution.Effects

/-!
# Corresponding instructions

A pass replaces an instruction by one with the same operation and other registers.  If the two
find the same values in the registers they read, and the same heap, closure and slot, then they
show the same events and send control the same way.  What they leave in a register can be told
from a renaming of the registers that are written: `exec_correspondence` is the one place where
executions are compared, and every pass that keeps instructions goes through it.
-/

namespace ClosureCodegen
open List Machine Operation

variable {q r : Reg} {i : Instr} {m m' : Machine} {rs : List Reg} {vs : List Word} {ρ : Reg → Reg}
  {fx : Effects} {e : Execution}

/-! ## Registers with a fixed role -/

theorem Reg.ne_of_isReserved (hq : q.isReserved = true) (hr : r.isReserved = false) : q ≠ r := by
  rintro rfl
  rw [hq] at hr
  cases hr

theorem isReserved_zeroReg : zeroReg.isReserved = true := by decide

theorem isReserved_heapReg : heapReg.isReserved = true := by decide

theorem isReserved_closureReg : closureReg.isReserved = true := by decide

namespace Instr

theorem uses_subset_regs (h : r ∈ i.uses) : r ∈ i.regs := by
  unfold uses at h
  split at h
  · exact mem_of_mem_drop h
  · exact absurd h not_mem_nil
  · exact h
  · exact mem_of_mem_take h
  · split at h
    · exact mem_of_mem_drop h
    · exact h
  · exact absurd h not_mem_nil

theorem defs_subset_regs (h : r ∈ i.defs) : r ∈ i.regs := by
  unfold defs at h
  split at h
  · exact mem_of_mem_take h
  · exact h
  · exact absurd h not_mem_nil
  · exact mem_of_mem_drop h
  · split at h
    · exact mem_of_mem_take h
    · exact absurd h not_mem_nil
  · exact absurd h not_mem_nil

theorem mem_trackedUses : r ∈ i.trackedUses ↔ r ∈ i.uses ∧ r.isReserved = false := by
  rw [trackedUses, mem_filter, Bool.not_eq_true']

theorem mem_trackedDefs : r ∈ i.trackedDefs ↔ r ∈ i.defs ∧ r.isReserved = false := by
  rw [trackedDefs, mem_filter, Bool.not_eq_true']

end Instr

/-! ## Reading and writing registers -/

namespace Machine

theorem get_of_ne (h : r ≠ zeroReg) : m.get r = m.regs r :=
  if_neg h

@[simp] theorem regs_set_self (m : Machine) (r : Reg) (v : Word) : (m.set r v).regs r = v :=
  if_pos rfl

theorem regs_set_of_ne (h : q ≠ r) (v : Word) : (m.set r v).regs q = m.regs q :=
  if_neg h

@[simp] theorem get_zeroReg (m : Machine) : m.get zeroReg = 0 := if_pos rfl

theorem heapReg_ne_zeroReg : heapReg ≠ zeroReg := by decide

theorem get_congr (h : m.regs r = m'.regs r) : m.get r = m'.get r := by
  simp only [get, h]

@[simp] theorem setAll_nil (m : Machine) (vs : List Word) : m.setAll [] vs = m := rfl

@[simp] theorem setAll_cons (m : Machine) (r : Reg) (rs : List Reg) (v : Word) (vs : List Word) :
    m.setAll (r :: rs) (v :: vs) = (m.set r v).setAll rs vs := rfl

@[simp] theorem memory_setAll (m : Machine) (rs : List Reg) (vs : List Word) :
    (m.setAll rs vs).memory = m.memory := by
  induction rs generalizing m vs with
  | nil => rfl
  | cons r rs ih =>
    cases vs with
    | nil => rfl
    | cons v vs => rw [setAll_cons, ih]; rfl

@[simp] theorem slots_setAll (m : Machine) (rs : List Reg) (vs : List Word) :
    (m.setAll rs vs).slots = m.slots := by
  induction rs generalizing m vs with
  | nil => rfl
  | cons r rs ih =>
    cases vs with
    | nil => rfl
    | cons v vs => rw [setAll_cons, ih]; rfl

theorem regs_setAll_of_not_mem (h : q ∉ rs) : (m.setAll rs vs).regs q = m.regs q := by
  induction rs generalizing m vs with
  | nil => rfl
  | cons r rs ih =>
    rw [mem_cons, not_or] at h
    cases vs with
    | nil => rfl
    | cons v vs =>
      rw [setAll_cons, ih h.2]
      exact if_neg h.1

/-- Writing the same values to renamed registers leaves the same value in a register and its
counterpart. -/
theorem regs_setAll_map {q' : Reg} (hlen : vs.length = rs.length) (hρ : ∀ r ∈ rs, ρ r = q' ↔ r = q)
    (hq : q ∉ rs → m'.regs q' = m.regs q) :
    (m'.setAll (rs.map ρ) vs).regs q' = (m.setAll rs vs).regs q := by
  induction rs generalizing m m' vs with
  | nil => exact hq not_mem_nil
  | cons r rs ih =>
    cases vs with
    | nil => cases hlen
    | cons v vs =>
      rw [map_cons, setAll_cons, setAll_cons]
      refine ih (Nat.succ.inj hlen) (fun s hs => hρ s (mem_cons_of_mem r hs)) fun hn => ?_
      have hr := hρ r mem_cons_self
      by_cases h : r = q
      · rw [set, set]
        simp only [(hr.mpr h).symm, h, if_true]
      · have hne : q' ≠ ρ r := fun he => h (hr.mp he.symm)
        have hmem : q ∉ r :: rs := by
          rw [mem_cons, not_or]
          exact ⟨fun he => h he.symm, hn⟩
        rw [set, set]
        simp only [hne, if_neg (fun he : q = r => h he.symm), if_false]
        exact hq hmem

@[simp] theorem memory_adopt (m : Machine) (fx : Effects) : (m.adopt fx).memory = fx.heap.memory :=
  rfl

@[simp] theorem slots_adopt (m : Machine) (fx : Effects) : (m.adopt fx).slots = fx.slots := rfl

theorem regs_adopt (m : Machine) (fx : Effects) (q : Reg) :
    (m.adopt fx).regs q = if q = heapReg then fx.heap.top else m.regs q := rfl

theorem adopt_of_heap_eq (h : fx.heap = m.heap) : m.adopt fx = { m with slots := fx.slots } := by
  have hregs : (m.adopt fx).regs = m.regs := by
    funext q
    rw [regs_adopt, h]
    split
    · next hq => exact hq ▸ get_of_ne heapReg_ne_zeroReg
    · rfl
  have hmem : (m.adopt fx).memory = m.memory := by rw [memory_adopt, h]; rfl
  calc m.adopt fx = ⟨(m.adopt fx).regs, (m.adopt fx).memory, (m.adopt fx).slots⟩ := rfl
    _ = { m with slots := fx.slots } := by rw [hregs, hmem, slots_adopt]

theorem heap_eq (hm : m'.memory = m.memory) (hh : m'.regs heapReg = m.regs heapReg) :
    m'.heap = m.heap := by
  rw [heap, heap, hm, get_congr hh]

end Machine

/-! ## Executions -/

def Decoded.finish (d : Decoded) (m : Machine) (fx : Effects) : Execution :=
  let after := (m.adopt fx).setAll d.writes fx.values
  { machine := after
    events := fx.events ++ if heapReg ∈ d.writes then [.heapTop (after.get heapReg)] else []
    transfer := fx.transfer }

namespace Instr

variable {env : Environment} {a : Word}

theorem exec_eq_some :
    i.exec env a m = some e ↔ ∃ d fx, i.decode? = some d ∧
      d.operation.perform env a m.context (d.reads.map m.get) = some fx ∧ e = d.finish m fx := by
  simp only [exec, Option.bind_eq_some_iff, Decoded.exec, Option.map_eq_some_iff]
  constructor
  · rintro ⟨d, hd, fx, hfx, rfl⟩
    exact ⟨d, fx, hd, hfx, rfl⟩
  · rintro ⟨d, fx, hd, hfx, rfl⟩
    exact ⟨d, hd, fx, hfx, rfl⟩

theorem exec_still {op : Operation} {reads : List Reg} {events : List Event} {t : Transfer}
    (hd : i.decode? = some ⟨op, reads, []⟩)
    (hp : op.perform env a m.context (reads.map m.get) =
      some { m.context.give [] with events := events, transfer := t }) :
    i.exec env a m = some ⟨m, events, t⟩ := by
  refine exec_eq_some.mpr ⟨_, _, hd, hp, ?_⟩
  rw [Decoded.finish, adopt_of_heap_eq rfl, if_neg not_mem_nil, append_nil]
  rfl

theorem canTransfer_exec (h : i.exec env a m = some e) : i.CanTransfer e.transfer := by
  obtain ⟨d, fx, hd, hfx, rfl⟩ := exec_eq_some.mp h
  exact canTransfer_decode? hd (perform_inv hfx).2.1

theorem transfer_eq_next_of_mem_trackedDefs {v : Reg} (h : i.exec env a m = some e)
    (hv : v ∈ i.trackedDefs) : e.transfer = .next := by
  obtain ⟨d, fx, hd, hfx, rfl⟩ := exec_eq_some.mp h
  refine Decidable.byContradiction fun hne => ?_
  rw [trackedDefs_eq_nil_of_transfer hd (perform_inv hfx).2.1 hne] at hv
  exact not_mem_nil hv

theorem regs_exec_of_not_mem (hz : i.idleLanesZero = true) (h : i.exec env a m = some e)
    (hq : q ∉ i.defs) (hh : q ≠ heapReg) : e.machine.regs q = m.regs q := by
  obtain ⟨d, fx, hd, _, rfl⟩ := exec_eq_some.mp h
  rw [← decode?_writes hz hd] at hq
  exact (regs_setAll_of_not_mem hq).trans (if_neg hh)

theorem exec_value (h : i.exec env a m = some e) (hv : i.op.family.isValue) :
    ∃ r v, i.defs = [r] ∧ (r ≠ heapReg → e = ⟨m.set r v, [], .next⟩) := by
  obtain ⟨d, fx, hd, hfx, rfl⟩ := exec_eq_some.mp h
  obtain ⟨hval, hone⟩ := isValue_decode? hd hv
  obtain ⟨hlen, -, hgive⟩ := perform_inv hfx
  rw [← decode?_writes (idleLanesZero_of_family fun hf => by rw [hf] at hv; cases hv) hd]
  obtain ⟨r, hr⟩ := length_eq_one_iff.mp ((length_writes_decode? hd).trans hone)
  obtain ⟨v, hv⟩ := length_eq_one_iff.mp (hlen.trans hone)
  have hfx' : fx = m.context.give [v] := by rw [hgive hval, hv]
  refine ⟨r, v, hr, fun hh => ?_⟩
  subst hfx'
  rw [Decoded.finish, hr, if_neg (fun hmem => hh (mem_singleton.mp hmem).symm),
    adopt_of_heap_eq rfl]
  rfl

/-- What a kept instruction leaves, compared with the instruction it stands for. -/
structure Corresponds (i : Instr) (ρ : Reg → Reg) (m m' : Machine) (e e' : Execution) : Prop where
  events : e'.events = e.events
  transfer : e'.transfer = e.transfer
  memory : e'.machine.memory = e.machine.memory
  /-- A register and a counterpart that the renaming singles out. -/
  regs : ∀ {q q' : Reg}, (∀ r ∈ i.defs, ρ r = q' ↔ r = q) → (q' = heapReg ↔ q = heapReg) →
    (q ∉ i.defs → m'.regs q' = m.regs q) → e'.machine.regs q' = e.machine.regs q
  /-- The slot of the instruction. -/
  slot : ∀ {s}, i.slot? = some s → e'.machine.slots s = e.machine.slots s
  /-- Other slots. -/
  slots : ∀ {s}, i.slot? ≠ some s →
    e'.machine.slots s = m'.slots s ∧ e.machine.slots s = m.slots s

/-- Two instructions with the same operation execute alike if they read the same values. -/
theorem exec_correspondence {i' : Instr} {d : Decoded} {reads : List Reg}
    (hz : i.idleLanesZero = true) (hd : i.decode? = some d)
    (hd' : i'.decode? = some ⟨d.operation, reads, d.writes.map ρ⟩)
    (hreads : reads.map m'.get = d.reads.map m.get) (hheap : m'.heap = m.heap)
    (hclosure : m'.get closureReg = m.get closureReg)
    (hslot : ∀ s, i.slot? = some s → m'.slots s = m.slots s)
    (hρ : ∀ r ∈ i.defs, ρ r = heapReg ↔ r = heapReg) (he : i.exec env a m = some e) :
    ∃ e', i'.exec env a m' = some e' ∧ Corresponds i ρ m m' e e' := by
  obtain ⟨d₀, fx, hd₀, hfx, rfl⟩ := exec_eq_some.mp he
  cases hd.symm.trans hd₀
  have hw : d.writes = i.defs := decode?_writes hz hd
  have hsl : d.operation.slot? = i.slot? := slot?_decode? hd
  obtain ⟨slots', hfx', hsame, hother⟩ := perform_slots hfx
    fun s hs => hslot s (hsl ▸ hs)
  have hctx : m'.context = { m.context with slots := m'.slots } := by
    rw [context, context, hheap, hclosure]
  rw [← hctx, ← hreads] at hfx'
  refine ⟨_, exec_eq_some.mpr ⟨_, _, hd', hfx', rfl⟩, ?_⟩
  have hlen : fx.values.length = d.writes.length :=
    (perform_inv hfx).1.trans (length_writes_decode? hd).symm
  have hregs : ∀ {q q' : Reg}, (∀ r ∈ i.defs, ρ r = q' ↔ r = q) → (q' = heapReg ↔ q = heapReg) →
      (q ∉ i.defs → m'.regs q' = m.regs q) →
      ((m'.adopt { fx with slots := slots' }).setAll (d.writes.map ρ) fx.values).regs q' =
        ((m.adopt fx).setAll d.writes fx.values).regs q := by
    intro q q' hq hqh hout
    refine regs_setAll_map hlen (hw ▸ hq) fun hn => ?_
    rw [regs_adopt, regs_adopt]
    by_cases h : q = heapReg
    · rw [if_pos h, if_pos (hqh.mpr h)]
    · rw [if_neg h, if_neg (fun h' => h (hqh.mp h'))]
      exact hout (hw ▸ hn)
  -- the heap pointer is its own counterpart
  have hhp := @hregs heapReg heapReg hρ Iff.rfl fun _ => by
    have := congrArg Heap.top hheap
    simpa only [heap, get_of_ne heapReg_ne_zeroReg] using this
  have hmem : heapReg ∈ d.writes.map ρ ↔ heapReg ∈ d.writes := by
    rw [mem_map]
    constructor
    · rintro ⟨r, hr, he⟩
      exact (hρ r (hw ▸ hr)).mp he ▸ hr
    · intro hr
      exact ⟨heapReg, hr, (hρ heapReg (hw ▸ hr)).mpr rfl⟩
  refine ⟨?_, rfl, ?_, @hregs, ?_, ?_⟩
  · simp only [Decoded.finish, hmem, get_congr hhp]
  · simp only [Decoded.finish, memory_setAll, memory_adopt]
  · intro s hs
    simp only [Decoded.finish, slots_setAll, slots_adopt]
    exact hsame s (hsl ▸ hs)
  · intro s hs
    simp only [Decoded.finish, slots_setAll, slots_adopt]
    exact hother s (hsl ▸ hs)

end Instr
end ClosureCodegen
