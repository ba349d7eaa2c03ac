import ClosureCodegen.Proofs.Execution.Stretches
import ClosureCodegen.Proofs.Lowering.Names

/-!
# Records and elements in lowered code

What the pieces of lowered code do when they run: the stores that fill a record, the loads that take
one apart, and the computation of the address of an element.
-/

namespace ClosureCodegen
open List Word Machine Instr

variable {x : String} {c : RegClass} {ρ : Valuation} {base : Word} {k : Nat} {rs : List Reg}

def Holds (m : Machine) (Γ : List Binding) (ρ : Valuation) (xs : List String) : Prop :=
  ∀ x ∈ xs, ∀ c, classIn Γ x = some c → m.regs ⟨x, c⟩ = ρ x

theorem Reg.ne_of_not_isReservedName {r : Reg} (hx : isReservedName x = false)
    (hr : isReservedName r.name = true) : (⟨x, c⟩ : Reg) ≠ r := by
  rintro rfl
  rw [hx] at hr
  cases hr

theorem Machine.get_var (m : Machine) (c : RegClass) (hx : isReservedName x = false) :
    m.get ⟨x, c⟩ = m.regs ⟨x, c⟩ :=
  get_of_ne (Reg.ne_of_not_isReservedName hx isReserved_zeroReg)

theorem Holds.map_get {m : Machine} {Γ : List Binding} {xs : List String} (h : Holds m Γ ρ xs)
    (hx : ∀ x ∈ xs, isReservedName x = false) :
    (fieldRegs Γ xs).map m.get = (fieldOrder Γ xs).map ρ := by
  rw [← map_name_fieldRegs, map_map]
  refine map_congr_left fun r hr => ?_
  obtain ⟨hmem, hc⟩ := mem_fieldRegs.mp hr
  rw [Function.comp_apply, ← h _ hmem _ hc]
  exact m.get_var _ (hx _ hmem)

section Pieces

variable {env : Environment} {full rest : Code} {m : Machine}

theorem storeFields_cons (base : Reg) (start : Nat) (r : Reg) (rs : List Reg) :
    storeFields base start (r :: rs) =
      .store base r (ofCount start) :: storeFields base (start + 1) rs := by
  rw [storeFields, mapIdx_cons, storeFields]
  simp only [Nat.add_zero, Nat.add_assoc, Nat.add_comm 1]

theorem isParam_store (b r : Reg) (w : Word) : (store b r w).isParam = false := by
  rcases r with ⟨x, c⟩
  cases c <;> rfl

theorem isParam_load (d r : Reg) (w : Word) : (load d r w).isParam = false := by
  rcases d with ⟨x, c⟩
  cases c <;> rfl

theorem isParam_move (d r : Reg) : (move d r).isParam = false := by
  rcases d with ⟨x, c⟩
  cases c <;> rfl

/-- Storing registers one behind another fills words of memory and changes nothing else. -/
theorem runs_storeFields (base : Reg) (start : Nat) (rs : List Reg) :
    Runs env full (storeFields base start rs ++ rest) m
      (fieldEvents (m.get base) start (rs.map m.get)) rest
      { m with memory := (m.heap.writeFields (m.get base) start (rs.map m.get)).memory } := by
  induction rs generalizing start m with
  | nil => exact .refl _ _ _ _
  | cons r rs ih =>
    rw [storeFields_cons, cons_append]
    exact (Runs.instr (isParam_store _ _ _) (exec_store base r (ofCount start))).trans
      (ih (start + 1))

theorem runs_claimHeap {this : Reg} (h : this ≠ heapReg) (words : Nat) :
    Runs env full (claimHeap this words ++ rest) m [.heapTop (m.heap.top + ofCount words)] rest
      ((m.set this m.heap.top).set heapReg (m.heap.top + ofCount words)) := by
  have hget : (m.set this (m.get heapReg)).get heapReg = m.heap.top := by
    rw [get_of_ne heapReg_ne_zeroReg]
    exact (if_neg h.symm).trans (get_of_ne heapReg_ne_zeroReg).symm
  have hmove : Runs env full (claimHeap this words ++ rest) m _
      (.immediate .addi heapReg heapReg (ofCount words) :: rest) _ :=
    .instr (isParam_move this heapReg) (exec_move this heapReg)
  have hclaim : Runs env full (.immediate .addi heapReg heapReg (ofCount words) :: rest)
      (m.set this (m.get heapReg)) _ rest _ :=
    .instr rfl (exec_immediate rfl heapReg heapReg (ofCount words))
  have hboth := hmove.trans hclaim
  rw [hget, deliveryEvents, if_neg h, deliveryEvents, if_pos rfl] at hboth
  exact hboth

theorem shiftLeft_two (w : Word) : w.shiftLeft 2 = 4 * w := by
  have h : w.shiftLeft 2 = w <<< 2 := rfl
  rw [h, BitVec.shiftLeft_eq_mul_twoPow, BitVec.mul_comm]
  rfl

theorem runs_elementAddress {scaled address : Reg} {array index : String}
    (ha : isReservedName array = false) (hi : isReservedName index = false)
    (hs : Temporary scaled.name) (hd : Temporary address.name) (hna : ¬Temporary array) :
    Runs env full (elementAddress scaled address array index ++ rest) m [] rest
      ((m.set scaled (4 * m.regs (.int index))).set address
        (elementOf (m.regs (.int array)) (m.regs (.int index)))) := by
  have hne : (.int array : Reg) ≠ scaled := fun he => hna (by rw [← he] at hs; exact hs)
  have hheap : ∀ {r : Reg}, Temporary r.name → r ≠ heapReg := fun hr =>
    Reg.ne_of_not_isReservedName hr.isReservedName isReserved_heapReg
  have hshift : Runs env full (elementAddress scaled address array index ++ rest) m _
      (.binary .add address (.int array) scaled :: rest) _ :=
    .instr rfl (exec_immediate rfl scaled (.int index) 2)
  have hadd : Runs env full (.binary .add address (.int array) scaled :: rest)
      (m.set scaled ((m.get (.int index)).shiftLeft 2)) _ rest _ :=
    .instr rfl (exec_binary rfl address (.int array) scaled)
  have hboth := hshift.trans hadd
  have hscaled : (m.set scaled ((m.get (.int index)).shiftLeft 2)).get scaled =
      4 * m.regs (.int index) := by
    rw [m.get_var _ hi, shiftLeft_two]
    exact (get_var _ _ hs.isReservedName).trans (regs_set_self _ _ _)
  have harray : (m.set scaled ((m.get (.int index)).shiftLeft 2)).get (.int array) =
      m.regs (.int array) :=
    (get_var _ _ ha).trans (regs_set_of_ne hne _)
  rw [hscaled, harray, deliveryEvents, if_neg (hheap hs), deliveryEvents, if_neg (hheap hd),
    shiftLeft_two, m.get_var _ hi] at hboth
  exact hboth

/-! ## Taking records apart -/

/-- Registers filled with words one behind another. -/
def Machine.setFields (base : Word) : Machine → Nat → List Reg → Machine
  | m, _, [] => m
  | m, k, r :: rs => setFields base (m.set r (m.memory (base + Word.ofCount k))) (k + 1) rs

@[simp] theorem memory_setFields (base : Word) (k : Nat) (rs : List Reg) :
    (m.setFields base k rs).memory = m.memory := by
  induction rs generalizing m k with
  | nil => rfl
  | cons r rs ih => rw [setFields, ih]; rfl

theorem regs_setFields_of_not_mem {q : Reg} (h : q ∉ rs) :
    (m.setFields base k rs).regs q = m.regs q := by
  induction rs generalizing m k with
  | nil => rfl
  | cons r rs ih =>
    rw [mem_cons, not_or] at h
    rw [setFields, ih h.2]
    exact if_neg h.1

/-- A variable of which the registers have no other class gets the same word as in the
valuation. -/
theorem regs_setFields (hrs : ∀ r ∈ rs, r.name = x → r.cls = c)
    (hx : x ∉ rs.map Reg.name → m.regs ⟨x, c⟩ = ρ x) :
    (m.setFields base k rs).regs ⟨x, c⟩ = ρ.setFields m.memory base k (rs.map Reg.name) x := by
  induction rs generalizing m k ρ with
  | nil => exact hx not_mem_nil
  | cons r rs ih =>
    rw [setFields, map_cons, Valuation.setFields]
    refine ih (fun q hq => hrs q (mem_cons_of_mem r hq)) fun hnot => ?_
    by_cases hr : r.name = x
    · have hc := hrs r mem_cons_self hr
      have heq : (⟨x, c⟩ : Reg) = r := by rw [← hr, ← hc]
      rw [heq, regs_set_self, Valuation.set, if_pos hr.symm]
    · have hne : (⟨x, c⟩ : Reg) ≠ r := fun he => hr (congrArg Reg.name he).symm
      rw [regs_set_of_ne hne, Valuation.set, if_neg (Ne.symm hr)]
      refine hx fun hmem => ?_
      rcases mem_cons.mp hmem with he | hmem
      · exact hr he.symm
      · exact hnot hmem

theorem runs_loadFields {base : Reg} (hb : base ∉ rs) (hh : heapReg ∉ rs) :
    Runs env full (loadFields base rs ++ rest) m [] rest (m.setFields (m.get base) 0 rs) := by
  rw [show loadFields base rs = rs.mapIdx fun k r => .load r base (ofCount (0 + k)) by
    simp only [loadFields, Nat.zero_add]]
  generalize 0 = k
  induction rs generalizing m k with
  | nil => exact .refl _ _ _ _
  | cons r rs ih =>
    rw [mem_cons, not_or] at hb hh
    have hload : Runs env full (.load r base (ofCount k) :: ((rs.mapIdx fun j r =>
        .load r base (ofCount (k + 1 + j))) ++ rest)) m _ _ _ :=
      .instr (isParam_load r base _) (exec_load r base (ofCount k))
    have hget : (m.set r (m.memory (m.get base + ofCount k))).get base = m.get base :=
      get_congr (if_neg hb.1)
    have hrest := ih hb.2 hh.2 (m := m.set r (m.memory (m.get base + ofCount k))) (k + 1)
    rw [hget] at hrest
    have hboth := hload.trans hrest
    rw [deliveryEvents, if_neg (Ne.symm hh.1), nil_append] at hboth
    simp only [mapIdx_cons, Nat.add_zero, cons_append, setFields]
    simpa only [Nat.add_assoc, Nat.add_comm 1] using hboth

end Pieces

end ClosureCodegen
