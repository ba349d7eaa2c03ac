import ClosureCodegen.Proofs.Allocation.Success
import ClosureCodegen.Proofs.Calling.Parameters

/-!
# Callers and functions

The parameters of a function keep their order and their classes from lowering to the end of
allocation, so callers and the function mean the same registers as soon as allocation has kept the
parameters apart.  It does so by having each parameter live at the next one.  A parameter that is
spilled is not: its store follows at once, and the next parameter may get the same register.  Then
one of the two is moved to where the other arrives.

* `map_cls_paramRegs_allocate`: allocation keeps the classes of parameters.
* `paramRegs_eq_assignArgs_iff`: when callers and the function agree.
* `paramRegs_firstOfTwo`: they need not.
-/

namespace ClosureCodegen
open List

variable {code : Code} {order : AllocationOrder} {a : Allocation}

/-! ## Parameters in allocation -/

theorem paramRegs_append (a b : Code) : paramRegs (a ++ b) = paramRegs a ++ paramRegs b := by
  rw [paramRegs, filter_append, filterMap_append]
  rfl

theorem paramRegs_eq_nil (h : ∀ i ∈ code, i.isParam = false) : paramRegs code = [] := by
  rw [paramRegs, filter_eq_nil_iff.mpr fun i hi => by rw [h i hi]; exact Bool.false_ne_true]
  rfl

theorem paramRegs_markUnusedParams (code : Code) :
    paramRegs (markUnusedParams code) = paramRegs code := by
  obtain ⟨front, params, rest, hcode, _, hmarked⟩ := markUnusedParams_eq code
  have hmarkers : paramRegs (markers code params) = [] := by
    refine paramRegs_eq_nil fun k hk => ?_
    obtain ⟨_, _, r, _, _, rfl⟩ := mem_markers hk
    rfl
  rw [hmarked, paramRegs_append, paramRegs_append, hmarkers, append_nil, ← paramRegs_append,
    ← hcode]

/-- A spill leaves the parameters alone, but for the registers that they read, if they do. -/
theorem paramRegs_spillInstr (var : Reg) (s : SpillState) (i : Instr) :
    paramRegs (spillInstr var s i).1 = paramRegs [i] := by
  have hstore : paramRegs (storeBehind var i) = [] := by
    refine paramRegs_eq_nil fun k hk => ?_
    unfold storeBehind at hk
    split at hk
    · rw [mem_singleton.mp hk]
      rfl
    · cases hk
  by_cases h : var ∈ i.uses
  · have hop : i.isParam = false := by
      refine decide_eq_false fun hp => ?_
      rw [Instr.uses, hp] at h
      exact not_mem_nil h
    rw [spillInstr_of_mem_uses h, paramRegs_eq_nil, paramRegs_eq_nil]
    · exact fun k hk => mem_singleton.mp hk ▸ hop
    · intro k hk
      rcases mem_cons.mp hk with rfl | hk
      · rfl
      rcases mem_cons.mp hk with rfl | hk
      · rw [Instr.isParam, Instr.op_mapUses]
        exact hop
      · unfold storeBehind at hk
        split at hk
        · rw [mem_singleton.mp hk]
          rfl
        · cases hk
  · rw [spillInstr_of_not_mem_uses h, ← singleton_append, paramRegs_append, hstore,
      append_nil]

theorem paramRegs_spillCode (var : Reg) (s : SpillState) (code : Code) :
    paramRegs (spillCode var s code).1 = paramRegs code := by
  induction code generalizing s with
  | nil => rfl
  | cons i code ih =>
    rw [spillCode]
    simp only
    rw [paramRegs_append, paramRegs_spillInstr, ih, ← paramRegs_append]
    rfl

theorem paramRegs_removeDeadDefinitions (code : Code) :
    paramRegs (removeDeadDefinitions code) = paramRegs code := by
  obtain ⟨K, hexp, hused⟩ := exists_expands_removeDeadDefinitions code
  clear hused
  generalize removeDeadDefinitions code = left at hexp
  have hnot : ∀ {i : Instr}, i.op ≠ .param → paramRegs [i] = [] := fun {i} hop =>
    paramRegs_eq_nil fun k hk => by
      rw [mem_singleton.mp hk]
      exact decide_eq_false hop
  induction hexp with
  | nil => rfl
  | @cons i block code left hi _ ih =>
    have hblock : paramRegs block = paramRegs [i] := by
      cases hi with
      | keep _ => rfl
      | delete hpure _ _ =>
        refine (hnot fun hop => ?_).symm
        rw [hop] at hpure
        cases hpure
      | @drop op hdrop _ _ _ =>
        have hop : i.op ≠ .param ∧ op ≠ .param := by
          generalize i.op = iop at hdrop
          cases hdrop <;> exact ⟨nofun, nofun⟩
        rw [hnot hop.1, hnot hop.2]
    rw [paramRegs_append, hblock, ih, ← paramRegs_append]
    rfl

theorem map_cls_paramRegs_allocate (ha : allocate order code = .ok a) :
    (paramRegs a.code).map Reg.cls = (paramRegs code).map Reg.cls := by
  obtain ⟨left, registers, hleft, hcode, _⟩ := exists_renamed_of_allocateVisiting
    (P := fun c => paramRegs c = paramRegs code) (fun _ => UseVisit.isOrder_byName) ha
    (paramRegs_markUnusedParams code) fun {var s c} _ h => (paramRegs_spillCode var s c).trans h
  rw [hcode, paramRegs_map_mapRegs, paramRegs_removeDeadDefinitions, hleft, map_map]
  exact map_congr_left fun r _ => cls_assignedReg registers r

theorem isPlaced_of_mem_paramRegs
    (horder : ∀ cls, ∀ p ∈ order.ofClass cls, p.cls = cls ∧ p ∉ PhysReg.reserved)
    (ha : allocate order code = .ok a) : ∀ r ∈ paramRegs a.code, r.IsPlaced := by
  intro r hr
  obtain ⟨i, hi, hir⟩ := mem_filterMap.mp hr
  obtain ⟨o, ho, hor⟩ := Option.bind_eq_some_iff.mp hir
  have hreg : r ∈ i.regs := mem_filterMap.mpr ⟨o, mem_of_getElem? ho, hor⟩
  have hmem := mem_order_of_allocateVisiting (fun _ => UseVisit.isOrder_byName) ha i
    (mem_of_mem_filter hi) r hreg
  refine hmem.imp id fun ⟨p, hp, hname⟩ => ?_
  obtain ⟨hcls, hres⟩ := horder r.cls p hp
  exact ⟨p, hcls, hres, hname⟩

/-! ## Parameters in lowering -/

theorem paramRegs_map_param (rs : List Reg) :
    paramRegs (rs.map fun r => ⟨.param, [.reg r]⟩) = rs := by
  induction rs with
  | nil => rfl
  | cons r rs ih => exact congrArg (r :: ·) ih

/-- The parameters of a lowered definition are its own, the integers in front of the floats. -/
theorem paramRegs_lower {d : Definition} {s s' : LowerState} (h : d.lower s = .ok code s') :
    paramRegs code = bindingRegs d.params := by
  obtain ⟨_, _, result?, body, hbody, -, -, rfl⟩ := d.exists_lowered h
  have hcaptured : ∀ i ∈ (bindingRegs d.captured).mapIdx fun k r =>
      (⟨.captured, [.reg r, .imm (Word.ofCount (k + 1))]⟩ : Instr), i.isParam = false := by
    intro i hi
    obtain ⟨k, _, rfl⟩ := mem_mapIdx.mp hi
    rfl
  have hfront : paramRegs [.labelled d.name] = [] := rfl
  have hback : paramRegs [.move (.int d.name) (.ofPhys .closure)] = [] := rfl
  rw [← singleton_append, paramRegs_append, paramRegs_append, paramRegs_append, paramRegs_append,
    paramRegs_append, paramRegs_map_param, paramRegs_eq_nil hcaptured, hfront, hback,
    paramRegs_eq_nil fun i hi => (hbody.op_ne i hi).2, paramRegs_eq_nil, append_nil, append_nil,
    append_nil]
  · exact append_nil _
  · cases result? <;> exact forall_mem_singleton.mpr rfl

/-! ## Agreement -/

/-- The parameters of a function arrive where the callers of a function of its classes put them,
exactly if allocation has given them different registers. -/
theorem paramRegs_eq_assignArgs_iff {order : AllocationOrder}
    (horder : ∀ cls, ∀ p ∈ order.ofClass cls, p.cls = cls ∧ p ∉ PhysReg.reserved)
    {d : Definition} {s s' : LowerState} {code body : Code} {a : Allocation}
    (hlower : d.lower s = .ok code s') (ha : allocate order code = .ok a)
    (hassign : assignParams d.name a.code = .ok body) :
    (∀ (callee : String) (args : List Reg),
        args.map Reg.cls = (bindingRegs d.params).map Reg.cls →
          ∃ regs, assignArgs callee args = .ok regs ∧ paramRegs body = regs.map Reg.ofPhys) ↔
      ((paramRegs a.code).map Reg.name).Nodup := by
  obtain ⟨hfits, _⟩ := assignParams_eq_ok hassign
  have hcls : (paramRegs a.code).map Reg.cls = (bindingRegs d.params).map Reg.cls := by
    rw [map_cls_paramRegs_allocate ha, paramRegs_lower hlower]
  rw [← paramRegs_assignParams_iff hassign (isPlaced_of_mem_paramRegs horder ha)]
  constructor
  · intro hall
    obtain ⟨regs, hregs, hbody⟩ := hall d.name (paramRegs a.code) hcls
    rw [assignArgs_eq_ok hfits] at hregs
    cases hregs
    exact hbody
  · intro hbody callee args hargs
    have hsame : args.map Reg.cls = (paramRegs a.code).map Reg.cls := hargs.trans hcls.symm
    have hfits' : FitsRegisters args := by
      intro cls
      have hcount : ∀ rs : List Reg, rs.countP (·.cls = cls) =
          (rs.map Reg.cls).countP (· = cls) := fun rs => by rw [countP_map]; rfl
      rw [hcount, hsame, ← hcount]
      exact hfits cls
    exact ⟨_, assignArgs_eq_ok hfits' callee, by rw [hbody, argumentRegs_congr hsame]⟩

/-- A function that returns the first of its two arguments. -/
def selectFirst : Definition where
  binding := ⟨"f.1", .fn [.int, .int] .int⟩
  params := [⟨"p.1", .int⟩, ⟨"q.2", .int⟩]
  captured := []
  body := .var "p.1"

/-- The state behind the lowering of a function that returns the first of its arguments. -/
def selectFirstState : LowerState where
  counter := 1
  scope := [⟨"q.2", .int⟩, ⟨"p.1", .int⟩, selectFirst.binding]
  body := "f.1"

theorem lower_selectFirst : selectFirst.lower {} = .ok firstOfTwo selectFirstState := by
  rfl

/-- With two registers there is no spill. -/
def firstOfTwoUnspilled : Allocation where
  code :=
    let a1 := Operand.reg ⟨"a1", .int⟩
    let a2 := Operand.reg ⟨"a2", .int⟩
    [⟨.label, [.label "f.1"]⟩, ⟨.param, [a1]⟩, ⟨.param, [a2]⟩, ⟨.unusedParam, [a2]⟩,
      ⟨.mv, [a1, a1]⟩, ⟨.returnValue, [a1]⟩]
  rounds := 1
  spilledInts := 0
  spilledFloats := 0

theorem allocate_twoRegisters : allocate twoRegisters firstOfTwo = .ok firstOfTwoUnspilled := by
  refine Outcome.eq_ok_of_toOption ?_
  simp only [allocate, allocateVisiting, allocateRounds, colorRound, colorClass,
    InterferenceGraph.ofLiveness_eq, InterferenceGraph.color, Simplifier.run_eq_runWithin 50]
  decide +kernel

theorem paramRegs_eq_assignArgs_iff_twoRegisters :
    ∃ body, assignParams "f.1" firstOfTwoUnspilled.code = .ok body ∧
      ∀ (callee : String) (args : List Reg), args.map Reg.cls = [.int, .int] →
        ∃ regs, assignArgs callee args = .ok regs ∧ paramRegs body = regs.map Reg.ofPhys := by
  obtain ⟨body, hbody⟩ : ∃ body, assignParams "f.1" firstOfTwoUnspilled.code = .ok body :=
    ⟨_, rfl⟩
  refine ⟨body, hbody, (paramRegs_eq_assignArgs_iff ?_ lower_selectFirst allocate_twoRegisters
    hbody).mpr ?_⟩
  · intro cls
    cases cls <;> decide
  · decide +kernel

/-- With a single register both parameters are taken from one register, and no caller passes two
arguments in one. -/
theorem paramRegs_firstOfTwo :
    selectFirst.lower {} = .ok firstOfTwo selectFirstState ∧
      allocate singleRegister firstOfTwo = .ok firstOfTwoSpilled ∧
      ∃ body, assignParams selectFirst.name firstOfTwoSpilled.code = .ok body ∧
        ∀ callee args regs, assignArgs callee args = .ok regs →
          paramRegs body ≠ regs.map Reg.ofPhys := by
  refine ⟨lower_selectFirst, allocate_firstOfTwo, _, rfl, fun callee args regs hregs he => ?_⟩
  obtain ⟨hfits, rfl⟩ := eq_of_assignArgs_eq_ok hregs
  have hnodup : (((argumentRegs args).map Reg.ofPhys).map Reg.name).Nodup := by
    rw [map_map]
    exact (nodup_argumentRegs hfits).map fun _ _ => PhysReg.name_injective
  rw [← he] at hnodup
  revert hnodup
  decide +kernel

end ClosureCodegen
