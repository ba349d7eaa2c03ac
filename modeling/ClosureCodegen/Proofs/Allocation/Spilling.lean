import ClosureCodegen.Proofs.Liveness.Paths
import ClosureCodegen.Proofs.Names

/-!
# Spilling keeps the behaviour

A spilled variable lives in its slot: whenever it is live, the slot holds its value.  Every
definition is followed by a store, so this is kept, and every use is preceded by a load, so the
instruction finds the value in its temporary.  All other variables stay where they are.
-/

namespace ClosureCodegen
open List Machine Instr

variable {r : Reg} {n : Nat} {s : SpillState} {rest : Code}

/-! ## The traffic of a slot -/

namespace Machine

def setSlot (m : Machine) (slot : String) (v : Word) : Machine :=
  { m with slots := fun s => if s = slot then v else m.slots s }

end Machine

theorem exec_spillStore (env : Environment) (a : Word) (r : Reg) (slot : String) (m : Machine) :
    (⟨.spillStore, [.reg r, .label slot]⟩ : Instr).exec env a m =
      some ⟨m.setSlot slot (m.get r), [], .next⟩ := by
  refine exec_eq_some.mpr ⟨⟨.slotStore slot, [r], []⟩, _, rfl, rfl, ?_⟩
  simp only [Decoded.finish, setAll_nil, not_mem_nil, if_false]
  rw [adopt_of_heap_eq rfl]
  rfl

theorem exec_spillLoad (env : Environment) (a : Word) (hr : r ≠ heapReg) (slot : String)
    (m : Machine) :
    (⟨.spillLoad, [.reg r, .label slot]⟩ : Instr).exec env a m =
      some ⟨m.set r (m.slots slot), [], .next⟩ := by
  refine exec_eq_some.mpr ⟨⟨.slotLoad slot, [], [r]⟩, _, rfl, rfl, ?_⟩
  simp only [Decoded.finish, mem_singleton, if_neg hr.symm]
  rw [adopt_of_heap_eq rfl]
  rfl

/-! ## The blocks of a spill -/

/-- What becomes of an instruction when a variable is spilled, with temporaries above a number. -/
inductive SpillBlock (var : Reg) (n : Nat) (i : Instr) : Code → Prop where
  | keep : var ∉ i.uses → SpillBlock var n i
      (i :: if var ∈ i.trackedDefs then [⟨.spillStore, [.reg var, .label var.name]⟩] else [])
  | reload (k : Nat) : n < k → var ∈ i.uses → SpillBlock var n i
      (⟨.spillLoad, [.reg (reloadTemp k var.cls), .label var.name]⟩ ::
        (i.mapUses fun r => if r = var then reloadTemp k var.cls else r) ::
          if var ∈ i.trackedDefs then [⟨.spillStore, [.reg var, .label var.name]⟩] else [])

theorem spillBlock_spillInstr (var : Reg) (hn : n ≤ s.reloads) (i : Instr) :
    SpillBlock var n i (spillInstr var s i).1 ∧ s.reloads ≤ (spillInstr var s i).2.reloads := by
  unfold spillInstr
  by_cases h : var ∈ i.uses
  · simp only [h, if_true]
    exact ⟨.reload _ (Nat.lt_succ_of_le hn) h, Nat.le_succ _⟩
  · simp only [h, if_false]
    exact ⟨.keep h, Nat.le_refl _⟩

theorem expands_spillCode {var : Reg} (hn : n ≤ s.reloads) (code : Code) :
    Expands (SpillBlock var n) code (spillCode var s code).1 := by
  induction code generalizing s with
  | nil => exact .nil
  | cons i code ih =>
    obtain ⟨hi, hle⟩ := spillBlock_spillInstr var hn i
    exact .cons hi (ih (Nat.le_trans hn hle))

namespace SpillBlock

variable {var : Reg}

theorem faithful : Faithful (SpillBlock var n) where
  label := by
    intro i block h hl
    have hop : i.op = .label := of_decide_eq_true hl
    have huses : i.uses = [] := by simp [uses, hop, Opcode.effect]
    have hdefs : i.trackedDefs = [] := by simp [trackedDefs, defs, hop, Opcode.effect]
    cases h with
    | keep _ =>
      rw [hdefs, if_neg not_mem_nil]
      exact ⟨i, rfl, hl, rfl⟩
    | reload k _ hu =>
      rw [huses] at hu
      exact absurd hu not_mem_nil
  noLabel := by
    intro i block h hl
    have hop : i.op ≠ .label := of_decide_eq_false hl
    cases h with
    | keep _ => split <;> simp [isLabel, hop]
    | reload k _ _ => split <;> simp [isLabel, op_mapUses, hop]
  params := by
    intro i block h
    cases h with
    | keep _ => split <;> simp [countP_cons, isParam]
    | reload k _ _ => split <;> simp [countP_cons, isParam, op_mapUses]

end SpillBlock

/-! ## Behaviour -/

/-- What spilling a variable asks of a body: the variable has no fixed role, its slot is not in use,
and neither are the temporaries above a number. -/
structure Spillable (code : Code) (n : Nat) (var : Reg) : Prop where
  idle : ∀ i ∈ code, i.idleLanesZero = true
  tracked : var.isReserved = false
  fresh : ∀ i ∈ code, ∀ r ∈ i.regs, ∀ k > n, r ≠ reloadTemp k var.cls
  unused : ∀ i ∈ code, i.slot? ≠ some var.name

/-- The machines in front of an instruction and its block: the slot holds the variable while it is
live, and nothing but the variable and the new temporaries differs. -/
structure SpillInvariant (code : Code) (n : Nat) (var : Reg) (rest : Code) (m m' : Machine) : Prop
    where
  regs : ∀ r, r ≠ var → (∀ k > n, r ≠ reloadTemp k var.cls) → m'.regs r = m.regs r
  memory : m'.memory = m.memory
  slots : ∀ s, s ≠ var.name → m'.slots s = m.slots s
  slot : LiveIn code var rest → m'.slots var.name = m.regs var

section Spill

variable {env : Environment} {code : Code} {var : Reg} {m m' : Machine}

theorem SpillInvariant.regs_reserved (hs : Spillable code n var)
    (h : SpillInvariant code n var rest m m') (hr : r.isReserved = true) : m'.regs r = m.regs r :=
  h.regs r (Reg.ne_of_isReserved hr hs.tracked) fun k _ =>
    Reg.ne_of_isReserved hr (isReserved_reloadTemp k var.cls)

theorem SpillInvariant.heap (hs : Spillable code n var) (h : SpillInvariant code n var rest m m') :
    m'.heap = m.heap :=
  heap_eq h.memory (h.regs_reserved hs isReserved_heapReg)

/-- An instruction with the values of its uses, followed by the store of the variable if it defines
it, keeps the invariant. -/
theorem SpillInvariant.exec {i i' : Instr} {d : Decoded} {reads : List Reg} {a : Word}
    {e : Execution} (hs : Spillable code n var) (hi : i ∈ code)
    (h : SpillInvariant code n var (i :: rest) m m') (hd : i.decode? = some d)
    (hd' : i'.decode? = some { d with reads }) (hreads : reads.map m'.get = d.reads.map m.get)
    (he : i.exec env a m = some e) :
    ∃ e', execBlock env a
        (i' :: if var ∈ i.trackedDefs then [⟨.spillStore, [.reg var, .label var.name]⟩] else [])
        m' = some e' ∧
      e'.events = e.events ∧ e'.transfer = e.transfer ∧
      e'.machine.heap = e.machine.heap ∧
      ∀ rest', Follows code rest e.transfer rest' →
        SpillInvariant code n var rest' e.machine e'.machine := by
  have hvar : ∀ {r : Reg}, r.isReserved = true → r ≠ var := fun hr =>
    Reg.ne_of_isReserved hr hs.tracked
  obtain ⟨e₁, he₁, hc⟩ := exec_correspondence (ρ := id) (hs.idle i hi) hd
    (by rw [map_id]; exact hd') hreads (h.heap hs)
    (get_congr (h.regs_reserved hs isReserved_closureReg))
    (fun s hslot => h.slots s fun hne => hs.unused i hi (hne ▸ hslot)) (fun r _ => Iff.rfl) he
  have hregs : ∀ r, r ≠ var → (∀ k > n, r ≠ reloadTemp k var.cls) →
      e₁.machine.regs r = e.machine.regs r := fun r hr hk =>
    hc.regs (fun _ _ => Iff.rfl) Iff.rfl fun _ => h.regs r hr hk
  have hslots : ∀ s, s ≠ var.name → e₁.machine.slots s = e.machine.slots s := by
    intro s hne
    by_cases hslot : i.slot? = some s
    · exact hc.slot hslot
    · rw [(hc.slots hslot).1, (hc.slots hslot).2]
      exact h.slots s hne
  have hslot : e₁.machine.slots var.name = m'.slots var.name := (hc.slots (hs.unused i hi)).1
  have hheap : e₁.machine.heap = e.machine.heap := by
    refine heap_eq hc.memory (hregs heapReg (hvar isReserved_heapReg) fun k _ => ?_)
    exact Reg.ne_of_isReserved isReserved_heapReg (isReserved_reloadTemp k var.cls)
  by_cases hdef : var ∈ i.trackedDefs
  · -- control goes on, and the slot gets what was written
    have hnext : e₁.transfer = .next :=
      hc.transfer.trans (transfer_eq_next_of_mem_trackedDefs he hdef)
    have hval : e₁.machine.regs var = e.machine.regs var :=
      hc.regs (fun _ _ => Iff.rfl) Iff.rfl fun hn => absurd (mem_trackedDefs.mp hdef).1 hn
    rw [if_pos hdef]
    refine ⟨_, execBlock_cons_next he₁ hnext
      ((execBlock_singleton ..).trans (exec_spillStore env a var var.name e₁.machine)), ?_, ?_, ?_, ?_⟩
    · rw [append_nil]
      exact hc.events
    · exact hnext.symm.trans hc.transfer
    · exact hheap
    · intro rest' _
      refine ⟨hregs, hc.memory, fun s hne => ?_, fun _ => ?_⟩
      · rw [← hslots s hne]
        exact if_neg hne
      · rw [← hval]
        refine (if_pos rfl).trans (get_of_ne ?_)
        exact fun hz => absurd hz.symm (hvar isReserved_zeroReg)
  · rw [if_neg hdef]
    refine ⟨e₁, (execBlock_singleton ..).trans he₁, hc.events, hc.transfer, hheap, ?_⟩
    intro rest' hf
    refine ⟨hregs, hc.memory, hslots, fun hlive => ?_⟩
    have hnot : var ∉ i.defs := fun hin =>
      hdef (mem_trackedDefs.mpr ⟨hin, hs.tracked⟩)
    have hback : LiveIn code var (i :: rest) := .flow hdef (canTransfer_exec he) hf hlive
    rw [hslot, h.slot hback]
    exact (regs_exec_of_not_mem (hs.idle i hi) he hnot (hvar isReserved_heapReg).symm).symm

theorem SpillInvariant.step {i : Instr} {rest block : Code} {a : Word} {e : Execution}
    (hs : Spillable code n var) (hi : i ∈ code) (hb : SpillBlock var n i block)
    (h : SpillInvariant code n var (i :: rest) m m') (he : i.exec env a m = some e) :
    ∃ e', execBlock env a block m' = some e' ∧ e'.events = e.events ∧ e'.transfer = e.transfer ∧
      e'.machine.heap = e.machine.heap ∧ ∀ rest', Follows code rest e.transfer rest' →
        SpillInvariant code n var rest' e.machine e'.machine := by
  obtain ⟨d, -, hd, -, -⟩ := exec_eq_some.mp he
  have huses : ∀ r ∈ d.reads, r ∈ i.uses := fun r hr => decode?_reads hd ▸ hr
  -- a register that is used and is not the variable has its value
  have hsame : ∀ r ∈ d.reads, r ≠ var → m'.get r = m.get r := fun r hr hne =>
    get_congr (h.regs r hne (hs.fresh i hi r (uses_subset_regs (huses r hr))))
  cases hb with
  | keep hu =>
    refine h.exec hs hi hd hd (map_congr_left fun r hr => hsame r hr ?_) he
    rintro rfl
    exact hu (huses r hr)
  | reload k hk hu =>
    have htemp : (reloadTemp k var.cls).isReserved = false := isReserved_reloadTemp k var.cls
    have hload := exec_spillLoad env a (Reg.ne_of_isReserved isReserved_heapReg htemp).symm
      var.name m'
    have hlive : LiveIn code var (i :: rest) :=
      .use (mem_trackedUses.mpr ⟨hu, hs.tracked⟩)
    have h₁ : SpillInvariant code n var (i :: rest) m
        (m'.set (reloadTemp k var.cls) (m'.slots var.name)) := by
      refine ⟨fun r hr hr' => ?_, h.memory, h.slots, h.slot⟩
      exact (if_neg (hr' k hk)).trans (h.regs r hr hr')
    have hreads : (d.reads.map fun r => if r = var then reloadTemp k var.cls else r).map
        (m'.set (reloadTemp k var.cls) (m'.slots var.name)).get = d.reads.map m.get := by
      rw [map_map]
      refine map_congr_left fun r hr => ?_
      by_cases hr' : r = var
      · rw [Function.comp_apply, if_pos hr', hr',
          get_of_ne (Reg.ne_of_isReserved isReserved_zeroReg htemp).symm,
          get_of_ne (Reg.ne_of_isReserved isReserved_zeroReg hs.tracked).symm, ← h.slot hlive]
        exact if_pos rfl
      · rw [Function.comp_apply, if_neg hr', ← hsame r hr hr']
        refine get_congr (if_neg ?_)
        exact hs.fresh i hi r (uses_subset_regs (huses r hr)) k hk
    obtain ⟨e', he', hev, ht, hh, hinv⟩ :=
      h₁.exec hs hi hd (decode?_mapUses _ hd) hreads he
    exact ⟨_, execBlock_cons_next hload rfl he', hev, ht, hh, hinv⟩

/-- Spilling a variable keeps the behaviour of a body, from a state in which the slot holds the
variable. -/
theorem behavesLike_spillCode (hs : Spillable code s.reloads var)
    (h : SpillInvariant code s.reloads var code m m') :
    BehavesLike (step env code) ⟨code, m⟩ (step env (spillCode var s code).1)
      ⟨(spillCode var s code).1, m'⟩ := by
  have hheap : ∀ {rest m m'}, SpillInvariant code s.reloads var rest m m' → m'.heap = m.heap :=
    fun h => h.heap hs
  exact Expands.behavesLike SpillBlock.faithful (expands_spillCode (Nat.le_refl _) code) hheap
    (fun hsuf hb h he => h.step hs (hsuf.mem mem_cons_self) hb he) h

end Spill
end ClosureCodegen
