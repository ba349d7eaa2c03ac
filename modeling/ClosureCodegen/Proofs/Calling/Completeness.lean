import ClosureCodegen.Proofs.Allocation.Success
import ClosureCodegen.Proofs.Calling.Emission

/-!
# Expansion leaves nothing to expand

What expansion puts in the place of a pseudo-operation is *glue*: loads, stores, moves, steps of the
stack pointer and transfers, none of them a pseudo-operation, a label or a branch.  So the expanded
body has the labels and the branches of the body in the same order, and its conditionals are nested
as those of the body are.  Expanding it once more follows the same arms, finds nothing to replace,
and fills no slot.

* `nested_of_expandRange`: a part of a body that can be expanded has nested conditionals.
* `expandRange_of_nested`: a part that has, and no pseudo-operations, is expanded to itself.
* `expand_expanded`: the two together.
-/

namespace ClosureCodegen
open List Outcome Instr

variable {i k : Instr} {ctx : ExpansionContext} {glue out : Code} {B : Instr → Code → Prop}
  {start stop : Nat} {stack stack' : SlotState} {l : Liveness}

/-! ## Blocks -/

structure MachineBlock (i : Instr) (block : Code) : Prop extends KeepsShape i block where
  machine : ∀ k ∈ block, k.op.isPseudo = false
  branch : ∀ k ∈ block, k.op.isBranch = true → k = i

namespace MachineBlock

variable {position : Nat} {s s' : SlotState} {block : Code}

theorem self (hi : i.op.isPseudo = false) : MachineBlock i [i] where
  toKeepsShape := .refl i
  machine _ hk := mem_singleton.mp hk ▸ hi
  branch _ hk _ := mem_singleton.mp hk

theorem of_isGlue (hl : i.isLabel = false) (hb : i.op.isBranch = false) (h : IsGlue block) :
    MachineBlock i block where
  toKeepsShape := .of_plain hl hb fun k hk => (Instr.of_isGlue (h k hk)).2
  machine k hk := (Instr.of_isGlue (h k hk)).1
  branch k hk hkb := absurd hkb (Bool.eq_false_iff.mp (Instr.of_isGlue (h k hk)).2.2)

theorem of_expandInstr (h : expandInstr ctx position i s = .ok (block, s')) :
    MachineBlock i block := by
  cases hp : i.op.isPseudo with
  | false =>
    rw [expandInstr_of_not_isPseudo hp] at h
    cases h
    exact self hp
  | true =>
    have hi : i.isLabel = false ∧ i.op.isBranch = false := by
      rw [isLabel]
      cases hop : i.op <;> rw [hop] at hp <;> first | exact ⟨rfl, rfl⟩ | cases hp
    refine of_isGlue hi.1 hi.2 fun k hk => (isGlue_of_mem h hk).resolve_left fun hself => ?_
    rw [hp] at hself
    cases hself.1

theorem labelled (hi : i.isLabel = true) (h : IsGlue glue) : MachineBlock i (i :: glue) where
  label _ := ⟨i, glue, rfl, hi, rfl, fun k hk => (Instr.of_isGlue (h k hk)).2.1⟩
  noLabel hl := absurd hi (by rw [hl]; nofun)
  arms a ha := by
    rw [Instr.arms?_of_not_isBranch (Instr.isBranch_of_isLabel hi)] at ha
    cases ha
  noArms ha := forall_mem_cons.mpr
    ⟨ha, fun k hk => Instr.arms?_of_not_isBranch (Instr.of_isGlue (h k hk)).2.2⟩
  machine := forall_mem_cons.mpr
    ⟨by rw [show i.op = .label from of_decide_eq_true hi]; rfl,
      fun k hk => (Instr.of_isGlue (h k hk)).1⟩
  branch := forall_mem_cons.mpr ⟨fun _ => rfl, fun k hk hkb =>
    absurd hkb (Bool.eq_false_iff.mp (Instr.of_isGlue (h k hk)).2.2)⟩

theorem prepend (hi : i.isLabel = false) (h : IsGlue glue) (hb : MachineBlock i block) :
    MachineBlock i (glue ++ block) where
  label hl := absurd hl (by rw [hi]; nofun)
  noLabel _ := forall_mem_append.mpr
    ⟨fun k hk => (Instr.of_isGlue (h k hk)).2.1, hb.noLabel hi⟩
  arms a ha := by
    obtain ⟨front, k, rfl, hk, hfront⟩ := hb.arms a ha
    refine ⟨glue ++ front, k, (append_assoc ..).symm, hk, forall_mem_append.mpr ⟨?_, hfront⟩⟩
    exact fun j hj => Instr.arms?_of_not_isBranch (Instr.of_isGlue (h j hj)).2.2
  noArms ha := forall_mem_append.mpr
    ⟨fun k hk => Instr.arms?_of_not_isBranch (Instr.of_isGlue (h k hk)).2.2, hb.noArms ha⟩
  machine := forall_mem_append.mpr ⟨fun k hk => (Instr.of_isGlue (h k hk)).1, hb.machine⟩
  branch := forall_mem_append.mpr ⟨fun k hk hkb =>
    absurd hkb (Bool.eq_false_iff.mp (Instr.of_isGlue (h k hk)).2.2), hb.branch⟩

end MachineBlock

theorem exists_of_mem_flatten {R : Instr → Code → Prop} {code : Code} {blocks : List Code}
    (h : List.Forall₂ R code blocks) (hk : k ∈ blocks.flatten) :
    ∃ i ∈ code, ∃ block, R i block ∧ k ∈ block := by
  induction h with
  | nil => cases hk
  | @cons i block code blocks hi _ ih =>
    rcases mem_append.mp hk with hk | hk
    · exact ⟨i, mem_cons_self, block, hi, hk⟩
    · obtain ⟨j, hj, b, hb⟩ := ih hk
      exact ⟨j, mem_cons_of_mem i hj, b, hb⟩

theorem Expands.exists_blocks {code : Code} (h : Expands B code out) :
    ∃ blocks, List.Forall₂ B code blocks ∧ out = blocks.flatten := by
  induction h with
  | nil => exact ⟨[], .nil, rfl⟩
  | @cons i block code out hi _ ih =>
    obtain ⟨blocks, hblocks, rfl⟩ := ih
    exact ⟨block :: blocks, .cons hi hblocks, rfl⟩

theorem Expands.exists_block_of_mem {code : Code} (h : Expands B code out) (hk : k ∈ out) :
    ∃ i ∈ code, ∃ block, B i block ∧ k ∈ block := by
  obtain ⟨blocks, hblocks, rfl⟩ := h.exists_blocks
  exact exists_of_mem_flatten hblocks hk

/-! ## Ranges -/

section Ranges

variable {code : Code}

theorem ExpansionContext.position_eq_ok (hlabels : ctx.labels = labelTable code) {l : String}
    {p : Nat} : ctx.position l = .ok p ↔ labelIndex? l code = some p := by
  rw [position, hlabels, position?_labelTable]
  cases labelIndex? l code with
  | none => exact ⟨nofun, nofun⟩
  | some q =>
    exact ⟨fun h => congrArg some (Except.ok.inj h), fun h => congrArg Except.ok (Option.some.inj h)⟩

theorem nested_of_expandRange (hcode : ctx.code.toList = code)
    (hlabels : ctx.labels = labelTable code) (hstop : stop ≤ code.length)
    (h : expandRange ctx start stop stack = .ok (out, stack')) : Nested code start stop := by
  have hget : ∀ k, ctx.code[k]? = code[k]? := fun k => by rw [← hcode, Array.getElem?_toList]
  have hrange := expandRange_iff.mp h
  clear h
  induction hrange with
  | done hno =>
    rw [hget, List.getElem?_eq_none_iff] at hno
    exact .done (by omega)
  | cond hi harms htaken hjoin hpos _ _ _ ih₁ ih₂ ih₃ =>
    rw [ExpansionContext.position_eq_ok hlabels] at htaken hjoin
    exact .conditional ((hget _).symm.trans hi) harms htaken hjoin hpos.1 hpos.2.1 hpos.2.2
      (ih₁ (by omega)) (ih₂ (by omega)) (ih₃ hstop)
  | plain hlt hi harms _ _ ih => exact .plain hlt ((hget _).symm.trans hi) harms (ih hstop)

/-- Where conditionals are nested and nothing is a pseudo-operation, expansion changes nothing. -/
theorem expandRange_of_nested (hcode : ctx.code.toList = code)
    (hlabels : ctx.labels = labelTable code) (hmachine : ∀ i ∈ code, i.op.isPseudo = false)
    (hn : Nested code start stop) (stack : SlotState) :
    expandRange ctx start stop stack = .ok (code.extract start stop, stack) := by
  have hget : ∀ {k i}, code[k]? = some i → ctx.code[k]? = some i := fun h => by
    rw [← h, ← hcode, Array.getElem?_toList]
  rw [expandRange_iff]
  induction hn with
  | done hle =>
    rw [extract_eq_nil (.inl hle)]
    exact .done (.inl hle)
  | plain hlt hi harms _ ih =>
    rw [extract_cons hlt hi]
    exact .plain hlt (hget hi) harms (.self (hmachine _ (mem_of_getElem? hi))) ih
  | conditional hi harms ht hj hst htj hjs _ _ _ ih₁ ih₂ ih₃ =>
    rw [extract_cons (by omega) hi, ← extract_append code (by omega) (Nat.le_of_lt hjs),
      ← extract_append code hst (Nat.le_of_lt htj)]
    refine .cond (hget hi) harms ((ExpansionContext.position_eq_ok hlabels).mpr ht)
      ((ExpansionContext.position_eq_ok hlabels).mpr hj) ⟨hst, htj, hjs⟩ ih₁ ih₂ ?_
    have hfilter : stack.filled.filter stack.isFilled = stack.filled :=
      filter_eq_self.mpr fun p hp => contains_iff_mem.mpr hp
    rw [SlotState.meet, hfilter]
    exact ih₃

end Ranges

/-! ## Bodies -/

/-- A body is expanded to blocks of machine code, and its conditionals are nested. The code that sets
a frame up stands behind the entry label, or in front of everything if there is none. -/
theorem exists_machineBlocks {frame? : Option Frame} {clobbers : ClobberTable} {code : Code}
    (h : expand frame? clobbers stack (i :: code) = .ok (out, stack')) :
    Nested (i :: code) 0 (i :: code).length ∧
      ∃ blocks, out = blocks.flatten ∧ List.Forall₂ MachineBlock (i :: code) blocks := by
  obtain ⟨l, part, -, hx, rfl⟩ := expand_iff.mp h
  have hnested : Nested (i :: code) (bodyStart frame? (i :: code)) _ :=
    nested_of_expandRange rfl rfl (Nat.le_refl _) hx
  obtain ⟨blocks, hblocks, rfl⟩ := (expands_body hx).exists_blocks
  replace hblocks : List.Forall₂ MachineBlock ((i :: code).drop (bodyStart frame? (i :: code)))
      blocks := hblocks.imp fun _ _ ⟨_, _, _, hx⟩ => .of_expandInstr (expandInstr_iff.mpr hx)
  cases frame? with
  | none => exact ⟨hnested, blocks, rfl, hblocks⟩
  | some f =>
    cases hl : i.isLabel with
    | true =>
      simp only [bodyStart, hl, if_true] at hnested hblocks
      exact ⟨.plain (Nat.succ_pos _) rfl (arms?_of_not_isBranch (isBranch_of_isLabel hl)) hnested,
        (i :: f.prologue) :: blocks, by simp [bodyFront, bodyStart, hl],
        .cons (.labelled hl (isGlue_prologue f)) hblocks⟩
    | false =>
      simp only [bodyStart, hl, Bool.false_eq_true, if_false] at hnested hblocks
      cases hblocks with
      | @cons _ block _ blocks hblock hblocks =>
        exact ⟨hnested, (f.prologue ++ block) :: blocks, by simp [bodyFront, bodyStart, hl],
          .cons (hblock.prepend hl (isGlue_prologue f)) hblocks⟩

/-- Machine code with nested conditionals, whose branches have their labels, is expanded to itself. -/
theorem expand_of_nested {code : Code} (hl : Liveness.ofCode code = .ok l)
    (hmachine : ∀ i ∈ code, i.op.isPseudo = false) (hn : Nested code 0 code.length)
    (clobbers : ClobberTable) (stack : SlotState) :
    expand none clobbers stack code = .ok (code, stack) := by
  refine bind_eq_ok.mpr ⟨l, hl, ?_⟩
  refine (expandRange_of_nested rfl rfl hmachine hn stack).trans ?_
  rw [extract_eq_take_drop, drop_zero, Nat.sub_zero, take_length]

/-- An expanded body has no pseudo-operations left, and expanding it again changes nothing. -/
theorem expand_expanded {frame? : Option Frame} {clobbers : ClobberTable}
    {stack stack' : SlotState} {code out : Code}
    (h : expand frame? clobbers stack code = .ok (out, stack')) :
    (∀ i ∈ out, i.op.isPseudo = false) ∧
      ∀ clobbers' stack'', expand none clobbers' stack'' out = .ok (out, stack'') := by
  cases code with
  | nil =>
    -- only the frame is left
    have hglue : IsGlue out := by
      obtain ⟨l, -, h⟩ := Outcome.bind_eq_ok.mp h
      cases frame? with
      | none =>
        cases (expandRange_of_le (Nat.le_refl 0) stack).symm.trans h
        exact nofun
      | some f =>
        cases h
        exact isGlue_prologue f
    have hmachine : ∀ i ∈ out, i.op.isPseudo = false := fun i hi => (Instr.of_isGlue (hglue i hi)).1
    obtain ⟨l, hl⟩ := @Liveness.exists_ofCode_eq_ok out fun i hi hb =>
      absurd hb (Bool.eq_false_iff.mp (Instr.of_isGlue (hglue i hi)).2.2)
    refine ⟨hmachine, expand_of_nested hl hmachine ?_⟩
    refine Nested.skip out.length (by omega) (fun k hk => ?_) (.done (by omega))
    refine ⟨out[k], by simp, Instr.arms?_of_not_isBranch ?_⟩
    exact (Instr.of_isGlue (hglue _ (getElem_mem hk))).2.2
  | cons i code =>
    obtain ⟨hnested, blocks, rfl, hblocks⟩ := exists_machineBlocks h
    have hshape : List.Forall₂ KeepsShape (i :: code) blocks :=
      hblocks.imp fun _ _ hb => hb.toKeepsShape
    have hmachine : ∀ k ∈ blocks.flatten, k.op.isPseudo = false := by
      intro k hk
      obtain ⟨_, _, _, hb, hk⟩ := exists_of_mem_flatten hblocks hk
      exact hb.machine k hk
    obtain ⟨l, hl, -⟩ := Outcome.bind_eq_ok.mp h
    obtain ⟨l', hl'⟩ := @Liveness.exists_ofCode_eq_ok blocks.flatten fun k hk hb => by
      obtain ⟨j, hj, _, hblock, hk⟩ := exists_of_mem_flatten hblocks hk
      obtain rfl := hblock.branch k hk hb
      obtain ⟨target, ht, hmem⟩ := Liveness.exists_ofCode_iff.mp ⟨l, hl⟩ k hj hb
      obtain ⟨p, hp⟩ : ∃ p, labelIndex? target (i :: code) = some p :=
        Option.ne_none_iff_exists'.mp fun hn => labelIndex?_eq_none_iff.mp hn hmem
      have hp' : labelIndex? target blocks.flatten = some (startOf blocks p) := by
        rw [labelIndex?_flatten hshape, hp, Option.map_some]
      obtain ⟨n, hn, hnl, hnt⟩ := exists_getElem?_of_labelIndex? hp'
      exact ⟨target, ht, n, mem_of_getElem? hn, hnl, hnt⟩
    refine ⟨hmachine, expand_of_nested hl' hmachine ?_⟩
    have := hnested.flatten hshape (Nat.le_refl _)
    rwa [hshape.length_eq, startOf_length, startOf_zero] at this

/-- A body that calls a function in one arm and returns in both. -/
def callInOneArm : Code :=
  [⟨.beq, [Reg.int "x8", Reg.int "x0", .label "then1"]⟩, .li (.int "x8") 5, .jump "endif1",
    .labelled "then1", ⟨.callDirect, [.label "g"]⟩, .labelled "endif1",
    ⟨.returnValue, [Reg.int "x8"]⟩]

theorem expand_expanded_callInOneArm : ∃ out stack,
    expand (some (Frame.ofTouched (RegSet.ofList (PhysReg.ofNames ["x8"])))) .empty .empty
        callInOneArm = .ok (out, stack) ∧
      (∀ i ∈ out, i.op.isPseudo = false) ∧
      ∀ clobbers stack', expand none clobbers stack' out = .ok (out, stack') := by
  obtain ⟨⟨out, stack⟩, h⟩ : ∃ r, (expand (some (Frame.ofTouched (RegSet.ofList
      (PhysReg.ofNames ["x8"])))) .empty .empty callInOneArm).toOption = some r :=
    Option.isSome_iff_exists.mp (by decide +kernel)
  have hexpand := Outcome.eq_ok_of_toOption h
  exact ⟨out, stack, hexpand, expand_expanded hexpand⟩

end ClosureCodegen
