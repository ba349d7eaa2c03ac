import ClosureCodegen.Proofs.Calling.Expansion
import ClosureCodegen.Proofs.Calling.Parameters

/-!
# What expansion emits

A block is the instruction itself, if it is no pseudo-operation, and otherwise made of a few forms:
loads, stores below the stack pointer, moves, steps of the stack pointer and transfers.  What they
write is a register that the instruction defines or one that the convention has a use for, and what
they read is a register that it uses or one of the convention.  So whatever holds of the registers of a
body still holds of the registers of the expanded body: `emitted_of_mem`.

In particular a block has no labels of its own, and the labels of a body are those of the expanded
body: `keepsLabels_expansionBlock`.
-/

namespace ClosureCodegen
open List Outcome PhysReg RegSet Opcode Instr CallTarget ExpansionContext

variable {os : List Operand} {t : CallTarget} {site : CallSite} {p : PhysReg}
  {targets rs : List PhysReg} {ctx : ExpansionContext} {block : Code}

/-! ## Call sites -/

structure CallSite.PartsOf (site : CallSite) (i : Instr) : Prop where
  uses : i.uses = site.target.reads site.args
  defs : i.defs = site.dest?.toList
  label : ∀ l, site.target = .direct l → i.label? = some l

theorem CallSite.partsOf_result {op : Opcode} {dest : Reg} {args : List Reg}
    (heff : op.effect = .defineFirst) (hdest : (⟨op, os⟩ : Instr).reg? 0 = some dest)
    (ht : targetAndArgs? (os.drop 1) = some (t, args)) :
    (⟨some dest, t, args⟩ : CallSite).PartsOf ⟨op, os⟩ := by
  cases os with
  | nil => cases hdest
  | cons o os =>
    cases o with
    | reg r =>
      cases hdest
      rw [drop_one, tail_cons] at ht
      rw [eq_of_targetAndArgs? ht]
      refine ⟨?_, ?_, fun l hl => ?_⟩
      · simp only [uses, heff, regs, filterMap_cons_some (Operand.reg?_reg _),
          filterMap_reg?_operand, drop_one, tail_cons]
      · simp [defs, heff, regs]
      · obtain rfl : t = .direct l := hl
        rfl
    | imm | fimm | label | mask => cases hdest

theorem CallSite.partsOf_ofInstr {i : Instr} (hop : i.op.isCall = true)
    (h : CallSite.ofInstr i = .ok site) : site.PartsOf i := by
  obtain ⟨op, os⟩ := i
  unfold ofInstr at h
  split at h
  case h_2 => cases h
  next site' hsite =>
  cases h
  cases op
  case callDirectResult | callClosureResult =>
    obtain ⟨dest, hdest, hsite⟩ := Option.bind_eq_some_iff.mp hsite
    obtain ⟨⟨t, args⟩, ht, hsite⟩ := Option.bind_eq_some_iff.mp hsite
    cases hsite
    exact partsOf_result rfl hdest ht
  case callDirect | callClosure | tailDirect | tailClosure =>
    obtain ⟨⟨t, args⟩, ht, hsite⟩ := Option.bind_eq_some_iff.mp hsite
    cases hsite
    obtain rfl : os = _ := eq_of_targetAndArgs? ht
    refine ⟨filterMap_reg?_operand .., rfl, fun l hl => ?_⟩
    obtain rfl : t = .direct l := hl
    rfl
  all_goals cases hop

/-! ## Registers of the convention -/

/-- A register that the convention may read and write: neither zero nor the stack pointer. -/
def Reg.IsWorking (r : Reg) : Prop :=
  ∃ p : PhysReg, r = .ofPhys p ∧ p ≠ .zero ∧ p ≠ .stackPointer

theorem PhysReg.isWorking_of_mem
    (h : RegSet.callerSaved.contains p = true ∨ RegSet.calleeSaved.contains p = true) :
    (Reg.ofPhys p).IsWorking := by
  have hall : ∀ q ∈ PhysReg.all, RegSet.callerSaved.contains q = true ∨
      RegSet.calleeSaved.contains q = true → q ≠ .zero ∧ q ≠ .stackPointer := by decide
  exact ⟨p, rfl, hall p (PhysReg.mem_all p) h⟩

theorem contains_callerSaved_of_argument? {cls : RegClass} {k : Nat}
    (h : argument? cls k = some p) : callerSaved.contains p = true := by
  have hk : k < cls.argumentCount := by
    by_contra hk
    rw [argument?, if_neg hk] at h
    cases h
  have hall : ∀ c : RegClass, ∀ i < c.argumentCount, ∀ q ∈ argument? c i,
      callerSaved.contains q = true := by
    intro c
    cases c <;> decide
  exact hall cls k hk p h

theorem contains_callerSaved_of_assignArgs {callee : String} {args : List Reg}
    (h : assignArgs callee args = .ok targets) :
    ∀ p ∈ targets, callerSaved.contains p = true := by
  intro p hp
  rw [(eq_of_assignArgs_eq_ok h).2] at hp
  obtain ⟨c, k, _, hk⟩ := exists_argument?_of_mem_argumentRegs hp
  exact contains_callerSaved_of_argument? hk

theorem mem_toList {s : RegSet} : p ∈ s.toList ↔ s.contains p = true := by
  rw [toList, mem_filter]
  exact ⟨fun h => h.2, fun h => ⟨mem_all p, h⟩⟩

def CallTarget.overwrites (table : ClobberTable) : CallTarget → RegSet
  | .direct l => table.clobbers l
  | .closure _ => RegSet.callerSaved

theorem mem_savedAcross_iff {table : ClobberTable} {live : LiveSet} :
    p ∈ savedAcross table site targets live ↔
      ((site.target.overwrites table).contains p = true ∨ p ∈ targets) ∧
        live.phys.contains p = true ∧ site.dest?.bind Reg.phys? ≠ some p := by
  cases hd : site.dest?.bind Reg.phys? with
  | none =>
    cases ht : site.target <;>
      simp only [savedAcross, hd, ht, overwrites, mem_toList, contains_inter,
        contains_union, contains_ofList, Bool.and_eq_true, Bool.or_eq_true,
        contains_iff_mem, ne_eq, reduceCtorEq, not_false_eq_true, and_true]
  | some d =>
    cases ht : site.target <;>
      simp only [savedAcross, hd, ht, overwrites, mem_toList, contains_erase,
        contains_inter, contains_union, contains_ofList, Bool.and_eq_true,
        Bool.or_eq_true, Bool.not_eq_true', decide_eq_false_iff_not, contains_iff_mem, ne_eq,
        Option.some.injEq] <;>
      tauto

theorem contains_callerSaved_of_savedAcross {clobbers : ClobberTable} {site : CallSite}
    {targets : List PhysReg} {live : LiveSet}
    (ht : ∀ p ∈ targets, callerSaved.contains p = true) :
    ∀ p ∈ savedAcross clobbers site targets live, callerSaved.contains p = true := by
  intro p hp
  have hover : (site.target.overwrites clobbers).contains p = true →
      callerSaved.contains p = true := by
    intro h
    cases htarget : site.target with
    | direct l =>
      rw [htarget, overwrites, ClobberTable.clobbers] at h
      split at h
      · rw [contains_inter, Bool.and_eq_true] at h
        exact h.1
      · exact h
    | closure c =>
      rw [htarget] at h
      exact h
  exact (mem_savedAcross_iff.mp hp).1.elim hover (ht p)

/-! ## Forms of emitted instructions -/

/-- A working register that stands in the place of an instruction, if need be: it has a fixed role, it
takes the value that is returned, or there is a call. -/
def Reg.Serves (i : Instr) (r : Reg) : Prop :=
  ∃ p : PhysReg, r = .ofPhys p ∧ p ≠ .zero ∧ p ≠ .stackPointer ∧
    (i.op.isCall = true ∨ RegSet.callerSaved.contains p = false ∨
      i.op = .returnValue ∧ ∃ q, i.reg? 0 = some q ∧ p = result q.cls)

theorem Reg.Serves.isWorking {i : Instr} {r : Reg} (h : r.Serves i) : r.IsWorking :=
  h.imp fun _ h => ⟨h.1, h.2.1, h.2.2.1⟩

/-- What an emitted instruction may write in the place of an instruction, where the convention and the
frame have a use for the registers of `W`. -/
def Reg.IsTarget (W : Reg → Prop) (i : Instr) (r : Reg) : Prop := r ∈ i.defs ∨ W r

/-- What an emitted instruction may read in the place of an instruction. -/
def Reg.IsSource (W : Reg → Prop) (i : Instr) (r : Reg) : Prop := r ∈ i.uses ∨ W r

/-- The instructions that the expansion of a pseudo-operation is made of. -/
inductive Emitted (W : Reg → Prop) (i : Instr) : Instr → Prop where
  | load {d b : Reg} {o : Word} : d.IsTarget W i → b = stackReg ∨ b.IsSource W i →
      Emitted W i (.load d b o)
  | store {r : Reg} {o : Word} : r.IsSource W i → Emitted W i (.store stackReg r o)
  | move {d s : Reg} : d.IsTarget W i → s.IsSource W i → Emitted W i (.move d s)
  | moveStack {delta : Word} : Emitted W i (.moveStack delta)
  | transfer {t : CallTarget} : i.op.isCall = true → Emitted W i (transfer t)
  | tailTransfer {t : CallTarget} : i.op = .tailDirect ∨ i.op = .tailClosure →
      (∀ l, t = .direct l → i.label? = some l) → Emitted W i (tailTransfer t)
  | ret : Emitted W i ⟨.ret, []⟩

section Forms

variable {W : Reg → Prop} {i k : Instr}

theorem Reg.isWorking_ofPhys (hz : p ≠ .zero) (hs : p ≠ .stackPointer) : (Reg.ofPhys p).IsWorking :=
    ⟨p, rfl, hz, hs⟩

theorem emitted_of_mem_stepStack {delta : Word} (hk : k ∈ stepStack delta) : Emitted W i k := by
  unfold stepStack at hk
  split at hk
  · cases hk
  · obtain rfl := mem_singleton.mp hk
    exact .moveStack

theorem emitted_of_mem_stores (hr : ∀ r ∈ rs, W (.ofPhys r)) (hk : k ∈ Frame.stores rs) :
    Emitted W i k := by
  obtain ⟨⟨r, n⟩, hm, rfl⟩ := mem_map.mp hk
  exact .store (.inr (hr r (fst_mem_of_mem_zipIdx hm)))

theorem emitted_of_mem_loads (hr : ∀ r ∈ rs, W (.ofPhys r)) (hk : k ∈ Frame.loads rs) :
    Emitted W i k := by
  obtain ⟨⟨r, n⟩, hm, rfl⟩ := mem_map.mp hk
  have hm := fst_mem_of_mem_zipIdx (mem_reverse.mp hm)
  exact .load (.inr (hr r hm)) (.inl rfl)

theorem emitted_of_mem_epilogue {f : Frame} (hf : ∀ r ∈ f.saved, W (.ofPhys r))
    (hk : k ∈ f.epilogue) : Emitted W i k := by
  rcases mem_append.mp hk with hk | hk
  · exact emitted_of_mem_stepStack hk
  · exact emitted_of_mem_loads hf hk

theorem emitted_of_mem_prologue {f : Frame} (hf : ∀ r ∈ f.saved, W (.ofPhys r))
    (hk : k ∈ f.prologue) : Emitted W i k := by
  rcases mem_append.mp hk with hk | hk
  · exact emitted_of_mem_stores hf hk
  · split at hk
    · cases hk
    · exact mem_singleton.mp hk ▸ .moveStack

theorem emitted_of_mem_enterClosure (hW : ∀ r : Reg, r.IsWorking → W r)
    (ht : ∀ c, t = .closure c → c ∈ i.uses) (hk : k ∈ enterClosure t) : Emitted W i k := by
  cases t with
  | direct l => cases hk
  | closure c =>
    simp only [enterClosure, mem_cons, not_mem_nil, or_false] at hk
    rcases hk with rfl | rfl
    · exact .load (.inr (hW _ (Reg.isWorking_ofPhys (by decide) (by decide)))) (.inr (.inl (ht c rfl)))
    · exact .move (.inr (hW _ (Reg.isWorking_ofPhys (by decide) (by decide)))) (.inl (ht c rfl))

theorem emitted_of_mem_passArguments {args : List Reg} (ha : ∀ a ∈ args, a ∈ i.uses)
    (ht : ∀ r ∈ targets, W (.ofPhys r)) (hk : k ∈ passArguments args targets) :
    Emitted W i k := by
  rcases mem_append.mp hk with hk | hk
  all_goals
    obtain ⟨⟨⟨a, t⟩, n⟩, hm, rfl⟩ := mem_map.mp hk
    have hat := of_mem_zip
      (mem_reverse.mp (mem_of_mem_filter (fst_mem_of_mem_zipIdx hm)))
  · exact .store (.inl (ha a hat.1))
  · exact .load (.inr (ht t hat.2)) (.inl rfl)

theorem mem_uses_of_partsOf (h : site.PartsOf i) :
    (∀ c, site.target = .closure c → c ∈ i.uses) ∧ ∀ a ∈ site.args, a ∈ i.uses := by
  rw [h.uses]
  constructor
  · intro c hc
    rw [hc]
    exact mem_cons_self
  · intro a ha
    cases site.target with
    | direct l => exact ha
    | closure c => exact mem_cons_of_mem c ha

theorem emitted_of_mem_callCode {height : Word} {saved : List PhysReg}
    (hW : ∀ r : Reg, r.IsWorking → W r) (hcall : i.op.isCall = true) (hsite : site.PartsOf i)
    (ht : ∀ r ∈ targets, W (.ofPhys r)) (hs : ∀ r ∈ saved, W (.ofPhys r))
    (hk : k ∈ callCode site height targets saved) : Emitted W i k := by
  obtain ⟨hclosure, hargs⟩ := mem_uses_of_partsOf hsite
  have hlink : W (.ofPhys .returnAddress) := hW _ (Reg.isWorking_ofPhys (by decide) (by decide))
  have hrelay : ∀ cls, W (.ofPhys (.relay cls)) := by
    intro cls
    cases cls <;> exact hW _ (Reg.isWorking_ofPhys (by decide) (by decide))
  have hresult : ∀ cls, W (.ofPhys (.result cls)) := by
    intro cls
    cases cls <;> exact hW _ (Reg.isWorking_ofPhys (by decide) (by decide))
  simp only [callCode, mem_append] at hk
  rcases hk with (((((((((hk | hk) | hk) | hk) | hk) | hk) | hk) | hk) | hk) | hk) | hk
  · exact emitted_of_mem_stepStack hk
  · exact emitted_of_mem_stores hs hk
  · exact emitted_of_mem_stepStack hk
  · exact emitted_of_mem_enterClosure hW hclosure hk
  · exact emitted_of_mem_passArguments hargs ht hk
  · simp only [mem_cons, not_mem_nil, or_false] at hk
    rcases hk with rfl | rfl | rfl | rfl | rfl
    · exact .store (.inr hlink)
    · exact .moveStack
    · exact .transfer hcall
    · exact .moveStack
    · exact .load (.inr hlink) (.inl rfl)
  · split at hk
    · obtain rfl := mem_singleton.mp hk
      exact .move (.inr (hrelay _)) (.inr (hresult _))
    · cases hk
  · exact emitted_of_mem_stepStack hk
  · exact emitted_of_mem_loads hs hk
  · exact emitted_of_mem_stepStack hk
  · split at hk
    · next d hd =>
      obtain rfl := mem_singleton.mp hk
      refine .move (.inl ?_) (.inr (hrelay _))
      rw [hsite.defs, hd]
      exact mem_singleton_self d
    · cases hk

theorem Instr.mem_regs_of_reg? {n : Nat} {r : Reg} (h : i.reg? n = some r) : r ∈ i.regs := by
  obtain ⟨o, ho, hr⟩ := Option.bind_eq_some_iff.mp h
  exact mem_filterMap.mpr ⟨o, mem_of_getElem? ho, hr⟩

/-- The frame that a body is expanded with saves registers of `W`. -/
def ExpansionContext.Saves (ctx : ExpansionContext) (W : Reg → Prop) : Prop :=
  ∀ f, ctx.frame? = some f → ∀ r ∈ f.saved, W (.ofPhys r)

theorem emitted_of_mem_leave (hf : ctx.Saves W) (hk : k ∈ ctx.leave) : Emitted W i k := by
  unfold leave at hk
  split at hk
  · next f hframe => exact emitted_of_mem_epilogue (hf f hframe) hk
  · cases hk

/-- A block holds its instruction, if that is no pseudo-operation, and emitted forms otherwise. -/
theorem emitted_of_mem {position : Nat} {stack stack' : SlotState}
    (hW : ∀ r : Reg, r.Serves i → W r) (hf : ctx.Saves W)
    (h : expandInstr ctx position i stack = .ok (block, stack')) (hk : k ∈ block) :
    i.op.isPseudo = false ∧ block = [i] ∧ k = i ∨ Emitted W i k := by
  have hworking : i.op.isCall = true → ∀ r : Reg, r.IsWorking → W r :=
    fun hop r ⟨p, hr, hz, hs⟩ => hW r ⟨p, hr, hz, hs, .inl hop⟩
  cases expandInstr_iff.mp h with
  | self hp => exact .inl ⟨hp, rfl, mem_singleton.mp hk⟩
  | store hop hslot _ =>
    obtain rfl := mem_singleton.mp hk
    refine .inr (.store (.inl ?_))
    simpa only [uses, hop, Opcode.effect] using mem_regs_of_reg? (slot_eq_ok hslot).1
  | load hop hslot _ _ =>
    obtain rfl := mem_singleton.mp hk
    refine .inr (.load (.inl ?_) (.inl rfl))
    simpa only [defs, hop, Opcode.effect] using mem_regs_of_reg? (slot_eq_ok hslot).1
  | param => cases hk
  | captured hop hreg _ =>
    obtain rfl := mem_singleton.mp hk
    refine .inr (.load (.inl ?_) (.inr (.inr (hW _ ?_))))
    · simpa only [defs, hop, Opcode.effect] using mem_regs_of_reg? hreg
    · exact ⟨_, rfl, by decide, by decide, .inr (.inl (by decide))⟩
  | value hop =>
    right
    simp only [mem_append, mem_singleton, mem_map, Option.mem_toList] at hk
    rcases hk with (⟨r, hreg, rfl⟩ | hk) | rfl
    · refine .move (.inr (hW _ ⟨_, rfl, ?_, ?_, .inr (.inr ⟨hop, r, hreg, rfl⟩)⟩)) (.inl ?_)
      · cases r.cls <;> decide
      · cases r.cls <;> decide
      · simpa only [uses, hop, Opcode.effect] using mem_regs_of_reg? hreg
    · exact emitted_of_mem_leave hf hk
    · exact .ret
  | unit hop =>
    rcases mem_append.mp hk with hk | hk
    · exact .inr (emitted_of_mem_leave hf hk)
    · exact .inr (mem_singleton.mp hk ▸ .ret)
  | call hop _ hsite _ htargets =>
    have ht := contains_callerSaved_of_assignArgs htargets
    exact .inr (emitted_of_mem_callCode (hworking hop) hop (CallSite.partsOf_ofInstr hop hsite)
      (fun r hr => hworking hop _ (isWorking_of_mem (.inl (ht r hr))))
      (fun r hr => hworking hop _ (isWorking_of_mem (.inl (contains_callerSaved_of_savedAcross ht r hr)))) hk)
  | tail htail hsite htargets =>
    right
    have hop := op_of_isTail htail
    have hcall : i.op.isCall = true := by rcases hop with hop | hop <;> rw [hop] <;> rfl
    have hparts := CallSite.partsOf_ofInstr hcall hsite
    obtain ⟨hclosure, hargs⟩ := mem_uses_of_partsOf hparts
    have ht := contains_callerSaved_of_assignArgs htargets
    simp only [mem_append, mem_singleton] at hk
    rcases hk with ((hk | hk) | hk) | rfl
    · exact emitted_of_mem_enterClosure (hworking hcall) hclosure hk
    · exact emitted_of_mem_passArguments hargs
        (fun r hr => hworking hcall _ (isWorking_of_mem (.inl (ht r hr)))) hk
    · exact emitted_of_mem_leave hf hk
    · exact .tailTransfer hop hparts.label

/-- The opcodes of the instructions that take the place of pseudo-operations. -/
def Opcode.isGlue : Opcode → Bool
  | .lw | .flw | .sw | .fsw | .mv | .fmv | .addi | .call | .jalr | .j | .ret => true
  | _ => false

theorem Instr.of_isGlue (h : k.op.isGlue = true) :
    k.op.isPseudo = false ∧ k.isLabel = false ∧ k.op.isBranch = false := by
  rw [isLabel]
  cases hop : k.op <;> rw [hop] at h <;> first | exact ⟨rfl, rfl, rfl⟩ | cases h

theorem Emitted.isGlue (h : Emitted W i k) : k.op.isGlue = true := by
  cases h with
  | @load d => rcases d with ⟨x, _ | _⟩ <;> rfl
  | @store r => rcases r with ⟨x, _ | _⟩ <;> rfl
  | @move d => rcases d with ⟨x, _ | _⟩ <;> rfl
  | moveStack => rfl
  | @transfer t => cases t <;> rfl
  | @tailTransfer t => cases t <;> rfl
  | ret => rfl

/-- Instructions of the kind that takes the place of pseudo-operations. -/
def IsGlue (block : Code) : Prop := ∀ k ∈ block, k.op.isGlue = true

theorem isGlue_prologue (f : Frame) : IsGlue f.prologue := fun _ hk =>
  (emitted_of_mem_prologue (W := fun _ => True) (i := .nop) (fun _ _ => trivial) hk).isGlue

theorem isGlue_of_mem {position : Nat} {stack stack' : SlotState}
    (h : expandInstr ctx position i stack = .ok (block, stack')) (hk : k ∈ block) :
    i.op.isPseudo = false ∧ k = i ∨ k.op.isGlue = true :=
  (emitted_of_mem (W := fun _ => True) (fun _ _ => trivial) (fun _ _ _ _ => trivial) h hk).imp
    (fun h => ⟨h.1, h.2.2⟩) Emitted.isGlue

theorem Opcode.isPseudo_of_isLabel (h : i.isLabel = true) : i.op.isPseudo = false := by
  rw [show i.op = .label from of_decide_eq_true h]
  rfl

theorem keepsLabels_expansionBlock (ctx : ExpansionContext) : KeepsLabels (ExpansionBlock ctx) where
  label {i block} hB hl := by
    obtain ⟨position, stack, stack', -, h⟩ := hB
    rw [expandInstr_of_not_isPseudo (isPseudo_of_isLabel hl)] at h
    cases h
    exact ⟨i, rfl, hl, rfl⟩
  noLabel hB hl k hk := by
    obtain ⟨_, _, _, -, h⟩ := hB
    rcases isGlue_of_mem h hk with ⟨-, rfl⟩ | hk
    · exact hl
    · exact (of_isGlue hk).2.1

end Forms

end ClosureCodegen
