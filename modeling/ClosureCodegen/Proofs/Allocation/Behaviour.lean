import ClosureCodegen.Proofs.Allocation.Marking
import ClosureCodegen.Proofs.Allocation.Rounds

/-!
# Allocation keeps the behaviour

Allocation marks unused parameters, spills in rounds until both classes can be coloured, and then
deletes dead definitions and renames.  Each of these keeps the behaviour, so their composition does.

The machines of the passes in between are chosen from the end.  Whatever the allocated body starts
with, there is a start of the body before renaming that it corresponds to: every variable holds what
its register holds.  There is one of the body before a spill, where the variable holds what its slot
holds.  Only the first pass has to say that the start does not matter, and it does not, because no
variable of the body is live there.

* `exists_behavesLike_allocateRounds`: the rounds, whatever the order in which uses are visited.
* `allocate_behavesLike`: allocation.
-/

namespace ClosureCodegen
open List

variable {visit : Nat → UseVisit} {order : AllocationOrder} {a : Allocation} {code : Code}

/-- Machines that agree on everything but the registers without a fixed role. -/
structure Machine.AgreesOutside (m m' : Machine) : Prop where
  memory : m.memory = m'.memory
  slots : m.slots = m'.slots
  reserved : ∀ r, r.isReserved = true → m.regs r = m'.regs r

theorem Machine.AgreesOutside.trans {m₁ m₂ m₃ : Machine} (h₁ : m₁.AgreesOutside m₂)
    (h₂ : m₂.AgreesOutside m₃) : m₁.AgreesOutside m₃ where
  memory := h₁.memory.trans h₂.memory
  slots := h₁.slots.trans h₂.slots
  reserved r hr := (h₁.reserved r hr).trans (h₂.reserved r hr)

section Rounds

variable {env : Environment} {home : Reg → Prop} {s : SpillState}

theorem exists_behavesLike_spillAll (hhome : Home home) {vars : List Reg}
    (h : ∀ i ∈ code, Accounted home s i) (hnodup : vars.Nodup)
    (hvars : ∀ v ∈ vars, home v ∧ v.isReserved = false ∧ v ∉ s.barred) :
    (∀ i ∈ (spillAll s code vars).1, Accounted home (spillAll s code vars).2 i) ∧
      ∀ m' : Machine, ∃ m : Machine, m.AgreesOutside m' ∧
        BehavesLike (step env code) ⟨code, m⟩ (step env (spillAll s code vars).1)
          ⟨(spillAll s code vars).1, m'⟩ := by
  induction vars generalizing s code with
  | nil => exact ⟨h, fun m' => ⟨m', ⟨rfl, rfl, fun _ _ => rfl⟩, .refl _ _⟩⟩
  | cons v vars ih =>
    obtain ⟨hnew, hnodup⟩ := nodup_cons.mp hnodup
    obtain ⟨hv, htr, hb⟩ := hvars v mem_cons_self
    obtain ⟨hgrow, hcode⟩ := spillCode_accounted hv mem_cons_self fun i hi => (h i hi).bar v
    -- the other variables are still not barred
    have hvars' : ∀ w ∈ vars, home w ∧ w.isReserved = false ∧ w ∉ (spill s code v).2.barred := by
      intro w hw
      obtain ⟨hhw, hwtr, hwb⟩ := hvars w (mem_cons_of_mem _ hw)
      refine ⟨hhw, hwtr, fun hmem => ?_⟩
      rcases hgrow.temps w hmem with hmem | ⟨n, cls, rfl⟩
      · rcases mem_cons.mp hmem with rfl | hmem
        · exact hnew hw
        · exact hwb hmem
      · exact hhome.noReload hhw n cls rfl
    obtain ⟨hend, hrest⟩ := ih (show ∀ i ∈ (spill s code v).1, _ from hcode) hnodup hvars'
    refine ⟨hend, fun m' => ?_⟩
    obtain ⟨m₁, hag₁, hlike₁⟩ := hrest m'
    have hspillable := spillable_of_accounted hhome h hv htr hb
    have hag : (m₁.set v (m₁.slots v.name)).AgreesOutside m₁ :=
      ⟨rfl, rfl, fun r hr => if_neg (Reg.ne_of_isReserved hr hspillable.tracked)⟩
    have hinv : SpillInvariant code s.reloads v code (m₁.set v (m₁.slots v.name)) m₁ :=
      ⟨fun r hr _ => (if_neg hr).symm, rfl, fun _ _ => rfl, fun _ => (if_pos rfl).symm⟩
    refine ⟨_, hag.trans hag₁, .trans ?_ hlike₁⟩
    exact behavesLike_spillCode (s := { s with barred := v :: s.barred }) hspillable hinv

theorem exists_behavesLike_allocateRounds (hhome : Home home) (hvisit : ∀ n, (visit n).IsOrder)
    (horder : ∀ cls, ∀ p ∈ order.ofClass cls, p ∉ PhysReg.reserved) {fuel round : Nat}
    {spilled : List Reg} (h : ∀ i ∈ code, Accounted home s i)
    (ha : allocateRounds visit order fuel round s spilled code = .ok a) (m' : Machine) :
    ∃ m : Machine, m.AgreesOutside m' ∧
      BehavesLike (step env code) ⟨code, m⟩ (step env a.code) ⟨a.code, m'⟩ := by
  induction fuel generalizing round s spilled code with
  | zero => cases ha
  | succ fuel ih =>
    simp only [allocateRounds, Outcome.bind_eq_ok] at ha
    obtain ⟨result, hround, ha⟩ := ha
    split at ha
    · -- the last round
      rename_i hempty
      simp only [Outcome.bind_eq_ok, Outcome.pure_eq_ok] at ha
      obtain ⟨code', hcode', rfl⟩ := ha
      have hA := properAssignment_colorRound horder hround (List.isEmpty_iff.mp hempty)
      refine ⟨{ m' with regs := fun r => m'.regs (assignedReg result.registers r) },
        ⟨rfl, rfl, fun r hr => ?_⟩, behavesLike_rename hA (fun i hi => (h i hi).idle) hcode' rfl rfl fun _ => rfl⟩
      simp only [assignedReg, hr, if_true]
    · split at ha
      · cases ha
      · obtain ⟨hnodup, hspills⟩ := colorRound_spills (hvisit round) hround
        have hvars : ∀ v ∈ result.spills, home v ∧ v.isReserved = false ∧ v ∉ s.barred := by
          intro v hv
          obtain ⟨hmention, hb⟩ := hspills v hv
          obtain ⟨i, hi, hr⟩ := hmention.mem_regs
          refine ⟨((h i hi).regs v hr).resolve_right fun hbarred => hb hbarred.1,
            hmention.isReserved, hb⟩
        obtain ⟨hend, hall⟩ := exists_behavesLike_spillAll hhome h hnodup hvars
        obtain ⟨m₁, hag₁, hlike₁⟩ := ih hend ha
        obtain ⟨m, hag, hlike⟩ := hall m₁
        exact ⟨m, hag.trans hag₁, hlike.trans hlike₁⟩

end Rounds

/-! ## Bodies -/

/-- A body that was not allocated before: no traffic with slots, no temporary, no name in both
classes, and nothing live at its start. -/
structure Unallocated (code : Code) : Prop where
  noSlot : ∀ i ∈ code, i.op ≠ .spillStore ∧ i.op ≠ .spillLoad
  noReload : ∀ i ∈ code, ∀ r ∈ i.regs, ¬"%reload.".toList <+: r.name.toList
  oneClass : ∀ i ∈ code, ∀ q ∈ i.regs, ∀ k ∈ code, ∀ r ∈ k.regs, q.name = r.name → q.cls = r.cls
  entry : ∀ v, ¬LiveIn code v code

namespace Unallocated

variable (h : Unallocated code) (hz : ∀ i ∈ code, i.idleLanesZero = true)
include h

theorem home : Home fun r => ∃ i ∈ code, r ∈ i.regs where
  noReload := by
    rintro r ⟨i, hi, hr⟩ n cls rfl
    refine h.noReload i hi _ hr ?_
    rw [reloadTemp, String.toList_append]
    exact prefix_append _ _
  oneClass := by
    rintro ⟨x, c⟩ ⟨y, d⟩ ⟨i, hi, hq⟩ ⟨k, hk, hr⟩ hn
    obtain rfl : x = y := hn
    obtain rfl : c = d := h.oneClass i hi _ hq k hk _ hr rfl
    rfl

theorem slot?_eq_none : ∀ i ∈ code, i.slot? = none := by
  intro i hi
  obtain ⟨hs, hl⟩ := h.noSlot i hi
  rw [Instr.slot?, if_neg (not_or.mpr ⟨hs, hl⟩)]

include hz in
theorem accounted_markUnusedParams (s : SpillState) :
    ∀ i ∈ markUnusedParams code, Accounted (fun r => ∃ i ∈ code, r ∈ i.regs) s i := by
  intro i hi
  rcases mem_markUnusedParams hi with hi | ⟨k, hk, r, _, hr, rfl⟩
  · refine ⟨hz i hi, fun r hr => .inl ⟨i, hi, hr⟩, fun x hx => ?_⟩
    rw [h.slot?_eq_none i hi] at hx
    cases hx
  · refine ⟨rfl, fun q hq => .inl ⟨k, hk, ?_⟩, fun x hx => nomatch hx⟩
    rwa [show q = r from mem_singleton.mp hq]

end Unallocated

/-- Allocation keeps the behaviour, if the idle lanes of vector loads name `x0`: run from the same
memory and the same registers with a fixed role, the allocated body takes the same branches, writes the
same memory, makes the same calls and leaves in the same way. -/
theorem allocate_behavesLike {env : Environment} {order : AllocationOrder} {code : Code}
    {a : Allocation} (hcode : Unallocated code) (hidle : ∀ i ∈ code, i.idleLanesZero = true)
    (horder : ∀ cls, ∀ p ∈ order.ofClass cls, p ∉ PhysReg.reserved)
    (ha : allocate order code = .ok a) {m m' : Machine} (hmem : m.memory = m'.memory)
    (hres : ∀ r, r.isReserved = true → m.regs r = m'.regs r) :
    BehavesLike (step env code) ⟨code, m⟩ (step env a.code) ⟨a.code, m'⟩ := by
  obtain ⟨m₁, hag, hrounds⟩ := exists_behavesLike_allocateRounds hcode.home
    (fun _ => UseVisit.isOrder_byName) horder (hcode.accounted_markUnusedParams hidle _) ha m'
  have hmark : BehavesLike (step env code) ⟨code, m⟩ (step env (markUnusedParams code))
      ⟨markUnusedParams code, m₁⟩ := by
    refine behavesLike_markUnusedParams hidle hcode.slot?_eq_none hcode.entry ?_ fun r hr => ?_
    · rw [hag.memory, hmem]
    · rw [hag.reserved r hr, hres r hr]
  exact hmark.trans hrounds

/-! ## A body with a spill -/

/-- Whether the solution has nothing in front of the first real instruction. -/
def nothingLiveAtStart (code : Code) : Bool :=
  (Liveness.ofCode code).toOption.any fun l => (nextReal? code 0).all fun q => l.liveIn q = ∅

theorem not_liveIn_of_nothingLiveAtStart (h : nothingLiveAtStart code = true) (v : Reg) :
    ¬LiveIn code v code := by
  intro hv
  obtain ⟨l, hl, hempty⟩ := (Option.any_eq_true ..).mp h
  obtain ⟨q, hq, hmem⟩ := hv.exists_mem_liveIn (Outcome.eq_ok_of_toOption hl) suffix_rfl
  rw [placeOf, Nat.sub_self] at hq
  rw [hq, Option.all_some, decide_eq_true_eq] at hempty
  rw [hempty] at hmem
  exact LiveSet.not_mem_empty v hmem

deriving instance DecidableEq for Allocation

/-- The body of a function that returns the first of its two arguments. -/
def firstOfTwo : Code :=
  let r := fun x => Operand.reg ⟨x, .int⟩
  [⟨.label, [.label "f.1"]⟩, ⟨.param, [r "p.1"]⟩, ⟨.param, [r "q.2"]⟩, ⟨.mv, [r "f.1", r "a0"]⟩,
    ⟨.mv, [r "%ret.1", r "p.1"]⟩, ⟨.returnValue, [r "%ret.1"]⟩]

def singleRegister : AllocationOrder := ⟨PhysReg.ofNames ["a1"], []⟩

def twoRegisters : AllocationOrder := ⟨PhysReg.ofNames ["a1", "a2"], []⟩

/-- With a single register the first argument is spilled. -/
def firstOfTwoSpilled : Allocation where
  code :=
    let a1 := Operand.reg ⟨"a1", .int⟩
    let slot := Operand.label "p.1"
    [⟨.label, [.label "f.1"]⟩, ⟨.param, [a1]⟩, ⟨.spillStore, [a1, slot]⟩, ⟨.param, [a1]⟩,
      ⟨.unusedParam, [a1]⟩, ⟨.spillLoad, [a1, slot]⟩, ⟨.mv, [a1, a1]⟩, ⟨.returnValue, [a1]⟩]
  rounds := 2
  spilledInts := 1
  spilledFloats := 0

theorem allocate_firstOfTwo : allocate singleRegister firstOfTwo = .ok firstOfTwoSpilled := by
  refine Outcome.eq_ok_of_toOption ?_
  simp only [allocate, allocateVisiting, allocateRounds, colorRound, colorClass,
    InterferenceGraph.ofLiveness_eq, InterferenceGraph.color, Simplifier.run_eq_runWithin 50]
  decide +kernel

theorem unallocated_firstOfTwo : Unallocated firstOfTwo where
  noSlot := by decide
  noReload := by decide
  oneClass := by decide
  entry := not_liveIn_of_nothingLiveAtStart (by decide +kernel)

theorem allocate_behavesLike_firstOfTwo :
    allocate singleRegister firstOfTwo = .ok firstOfTwoSpilled ∧
      BehavesLike (step plainEnvironment firstOfTwo) ⟨firstOfTwo, filledMachine 1⟩
        (step plainEnvironment firstOfTwoSpilled.code)
        ⟨firstOfTwoSpilled.code, filledMachine 2⟩ := by
  refine ⟨allocate_firstOfTwo, allocate_behavesLike unallocated_firstOfTwo (by decide) ?_
    allocate_firstOfTwo rfl fun r hr => ?_⟩
  · intro cls
    cases cls <;> decide
  · simp only [filledMachine, hr, if_true]

/-! ## An idle lane -/

/-- A body that keeps a word over a vector load, in the register of an idle lane. -/
def keptInIdleLane : Code :=
  let r := fun x => Operand.reg ⟨x, .int⟩
  [⟨.label, [.label "f"]⟩, ⟨.li, [r "b", .imm 64]⟩, ⟨.li, [r "v", .imm 5]⟩, ⟨.li, [r "u", .imm 7]⟩,
    ⟨.sw, [r "b", r "u", .imm 0]⟩,
    ⟨.vlw, [r "b", r "v", r "w", r "x0", r "x0", .imm 0, .mask 2]⟩,
    ⟨.add, [r "t", r "v", r "w"]⟩, ⟨.returnValue, [r "t"]⟩]

/-- The load is taken for a definition of the word, so another word overwrites it before. -/
def lostInIdleLane : Allocation where
  code :=
    let r := fun x => Operand.reg ⟨x, .int⟩
    [⟨.label, [.label "f"]⟩, ⟨.li, [r "a2", .imm 64]⟩, ⟨.li, [r "a1", .imm 5]⟩,
      ⟨.li, [r "a1", .imm 7]⟩, ⟨.sw, [r "a2", r "a1", .imm 0]⟩,
      ⟨.vlw, [r "a2", r "a1", r "a2", r "x0", r "x0", .imm 0, .mask 2]⟩,
      ⟨.add, [r "a1", r "a1", r "a2"]⟩, ⟨.returnValue, [r "a1"]⟩]
  rounds := 1
  spilledInts := 0
  spilledFloats := 0

def Status.exit? {C X : Type} : Status C X → Option X
  | .exited x => some x
  | _ => none

theorem Status.eq_exited_of_exit? {C X : Type} {s : Status C X} {x : X} (h : s.exit? = some x) :
    s = .exited x := by
  cases s <;> cases h
  rfl

/-- Without the condition on idle lanes, allocation changes what a body returns. -/
theorem not_behavesLike_keptInIdleLane :
    Unallocated keptInIdleLane ∧ (∀ cls, ∀ p ∈ twoRegisters.ofClass cls, p ∉ PhysReg.reserved) ∧
      allocate twoRegisters keptInIdleLane = .ok lostInIdleLane ∧
      ¬BehavesLike (step plainEnvironment keptInIdleLane) ⟨keptInIdleLane, filledMachine 0⟩
        (step plainEnvironment lostInIdleLane.code) ⟨lostInIdleLane.code, filledMachine 0⟩ := by
  refine ⟨⟨by decide, by decide, by decide, not_liveIn_of_nothingLiveAtStart (by decide +kernel)⟩,
    fun cls => by cases cls <;> decide, ?_, fun h => ?_⟩
  · refine Outcome.eq_ok_of_toOption ?_
    simp only [allocate, allocateVisiting, allocateRounds, colorRound, colorClass,
      InterferenceGraph.ofLiveness_eq, InterferenceGraph.color, Simplifier.run_eq_runWithin 50]
    decide +kernel
  · have hkept : (runFor (step plainEnvironment keptInIdleLane) 8
        ⟨keptInIdleLane, filledMachine 0⟩).status.exit?.map Prod.fst = some (.returned (some 5)) := by
      decide +kernel
    have hlost : (runFor (step plainEnvironment lostInIdleLane.code) 8
        ⟨lostInIdleLane.code, filledMachine 0⟩).status.exit?.map Prod.fst =
          some (.returned (some 7)) := by
      decide +kernel
    obtain ⟨x, hx, hx'⟩ := Option.map_eq_some_iff.mp hkept
    obtain ⟨y, hy, hy'⟩ := Option.map_eq_some_iff.mp hlost
    rw [h.exited_eq (Status.eq_exited_of_exit? hx) (Status.eq_exited_of_exit? hy), hy'] at hx'
    cases hx'

end ClosureCodegen
