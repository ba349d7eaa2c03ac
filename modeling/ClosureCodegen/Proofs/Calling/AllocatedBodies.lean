import ClosureCodegen.Proofs.Calling.Activation
import ClosureCodegen.Proofs.Calling.TailCalls

/-!
# Allocated bodies

The body of a function between allocation and expansion has physical registers only, and leaves to the
expansion those registers that the emitted code needs for itself.  What comes from outside, the
parameters and the closure, is read before the first call.

* `IsAllocatedBody`: such a body, with structured conditionals in which every path returns.
* `LiveIn.tails`: making tail calls takes no register out of the live ones.
* `CallOf` and `ReturnOf`: which call or return of a body an instruction of its expansion belongs to.
-/

namespace ClosureCodegen
open List PhysReg Instr CallSite

variable {i t : Instr} {site : CallSite} {code part rest' block o : Code} {p : Nat}
  {s s' : SlotState}

/-- The body of a function, behind its entry label, as it comes from allocation. -/
structure IsAllocatedBody (f : String) (body : Code) : Prop where
  /-- Conditionals are structured, and every path returns. -/
  shape : Shaped false body
  labels : (f :: labelNames body).Nodup
  operands : ∀ i ∈ body, ∀ r ∈ i.regs, ∃ p, r = Reg.ofPhys p ∧
    p ∉ [PhysReg.stackPointer, .returnAddress, .scratch, .floatScratch]
  /-- Every instruction has the operands of its opcode. -/
  decodes : ∀ i ∈ body, i.decode?.isSome = true
  /-- The idle lanes of a vector load name `x0`. -/
  idle : ∀ i ∈ body, i.idleLanesZero = true
  /-- Calls and returns of the machine are left to the expansion. -/
  opcodes : ∀ i ∈ body, i.op ≠ .call ∧ i.op ≠ .jalr ∧ i.op ≠ .ret
  /-- A call delivers its result in a register that has no fixed role. -/
  results : ∀ i ∈ body, i.op.isCall = true → ∀ d ∈ i.defs, d.isReserved = false
  /-- A call goes to no label of the body. -/
  callees : ∀ i ∈ body, i.op.isCall = true → ∀ l, .label l ∈ i.operands → l ∉ labelNames body
  closure : ∀ i ∈ body, i.op.isCall = true → closureReg ∉ i.regs
  /-- Behind a call neither parameters nor the closure of the function are there any more. -/
  incoming : body.Pairwise fun i j => i.op.isCall = true →
    j.op ≠ .param ∧ j.op ≠ .captured ∧ closureReg ∉ j.uses

theorem CallSite.isPassable_of_names (hcall : i.op.isCall = true)
    (hsite : ofInstr i = .ok site) (hnames : ∀ r ∈ i.regs, r.name ≠ stackReg.name ∧
      r.name ≠ scratch.name ∧ r.name ≠ closure.name) : site.IsPassable := by
  obtain ⟨hclosure, hargs⟩ := mem_uses_of_partsOf (partsOf_ofInstr hcall hsite)
  refine ⟨fun a ha => ?_, fun c hc => ?_⟩
  · obtain ⟨hsp, hspares⟩ := hnames a (uses_subset_regs (hargs a ha))
    exact ⟨hsp, fun _ _ => hspares⟩
  · obtain ⟨hsp, hscratch, -⟩ := hnames c (uses_subset_regs (hclosure c hc))
    exact ⟨hsp, hscratch⟩

/-! ## The two bodies of a function -/

namespace IsAllocatedBody

variable {f : String} {body : Code} (hb : IsAllocatedBody f body)
include hb

theorem partOf (hi : i ∈ body) : i.PartOf (labelNames body) :=
  hb.shape.partOf hi

theorem isTail (hi : i ∈ body) : i.isTail = false := by
  cases hb.partOf hi with
  | plain _ ht => exact ht
  | label | jump => rfl
  | branch ha =>
    obtain ⟨op, os⟩ := i
    have hbranch := (label?_of_arms? ha).1
    cases op <;> first | rfl | cases hbranch

theorem isStraight (hi : i ∈ body) (hplain : i.isPlain = true) (hp : i.op.isPseudo = false) :
    i.IsStraight := by
  obtain ⟨hcall, hjalr, hret⟩ := hb.opcodes i hi
  obtain ⟨hlabel, hbranch, hj⟩ := op_of_isPlain hplain
  refine ⟨hb.decodes i hi, ?_, hlabel⟩
  generalize i.op = op at hp hcall hjalr hret hbranch hj ⊢
  revert hp hcall hjalr hret hbranch hj
  cases op <;> decide

theorem names_of_operand (hi : i ∈ body) {r : Reg} (hr : r ∈ i.regs) :
    r.names .stackPointer = false ∧ r.names .returnAddress = false ∧ r.names .scratch = false := by
  obtain ⟨p, rfl, hp⟩ := hb.operands i hi r hr
  simp only [mem_cons, not_mem_nil, or_false, not_or] at hp
  exact ⟨beq_eq_false_iff_ne.mpr fun h => hp.1 (name_injective h),
    beq_eq_false_iff_ne.mpr fun h => hp.2.1 (name_injective h),
    beq_eq_false_iff_ne.mpr fun h => hp.2.2.1 (name_injective h)⟩

theorem isFunctionBody : IsFunctionBody body where
  operands i hi r hr := ⟨(hb.names_of_operand hi hr).1, (hb.names_of_operand hi hr).2.1⟩
  opcodes := hb.opcodes
  inside i hi l hl hop := by
    cases hb.partOf hi with
    | plain hp =>
      obtain ⟨-, hbranch, hj⟩ := Instr.op_of_isPlain hp
      rcases hop with hop | hop
      · exact absurd hop hj
      · rw [hbranch] at hop
        cases hop
    | label hm => exact (Option.some.inj hl) ▸ hm
    | jump hm => exact (Option.some.inj hl) ▸ hm
    | branch ha hm =>
      rw [(Instr.label?_of_arms? ha).2] at hl
      exact (Option.some.inj hl) ▸ hm
  outside i hi l _ hop := by
    have htail := hb.isTail hi
    rcases hop with hop | hop <;> simp [Instr.isTail, hop] at htail

theorem isPassable (hi : i ∈ body) (hcall : i.op.isCall = true) (hsite : ofInstr i = .ok site) :
    site.IsPassable := by
  refine isPassable_of_names hcall hsite fun r hr => ?_
  obtain ⟨hsp, -, hscratch⟩ := hb.names_of_operand hi hr
  refine ⟨beq_eq_false_iff_ne.mp hsp, beq_eq_false_iff_ne.mp hscratch, fun hn => ?_⟩
  obtain ⟨p, rfl, -⟩ := hb.operands i hi r hr
  rw [name_injective hn] at hr
  exact hb.closure i hi hcall hr

theorem dest (hi : i ∈ body) (hcall : i.op.isCall = true) (hsite : ofInstr i = .ok site) {d : Reg}
    (hd : site.dest? = some d) : d ∈ i.defs ∧ ∀ q ∈ reserved, d.name ≠ q.name := by
  have hdef : d ∈ i.defs := by
    rw [(partsOf_ofInstr hcall hsite).defs, hd]
    exact mem_singleton_self d
  refine ⟨hdef, fun q hq hn => ?_⟩
  have hres := hb.results i hi hcall d hdef
  rw [Reg.isReserved, hn, isReservedName_name.mpr hq] at hres
  cases hres

end IsAllocatedBody

theorem Instr.operands_asTailCall? (h : i.asTailCall? = some t) : t.operands ⊆ i.operands := by
  obtain ⟨op, os⟩ := i
  have hdrop : os.drop 1 ⊆ os := drop_subset 1 os
  cases op <;> cases h <;> first | exact List.Subset.refl _ | exact hdrop

theorem Instr.regs_asTailCall? (h : i.asTailCall? = some t) : t.regs ⊆ i.regs :=
  fun _ hr =>
    have ⟨o, ho, hor⟩ := mem_filterMap.mp hr
    mem_filterMap.mpr ⟨o, operands_asTailCall? h ho, hor⟩

theorem Instr.mem_operands_of_label? {l : String} (h : i.label? = some l) :
    .label l ∈ i.operands := by
  obtain ⟨o, ho, hol⟩ := exists_of_findSome?_eq_some h
  cases o with
  | label m => exact (Option.some.inj hol) ▸ ho
  | reg | imm | fimm | mask => cases hol

/-- An instruction of a part with tail calls is one of the part, or takes the place of a call. -/
theorem exists_of_mem_tailPart (h : t ∈ tailPart code p part) :
    ∃ i ∈ part, t = i ∨ i.asTailCall? = some t := by
  obtain ⟨k, hk⟩ := mem_iff_getElem?.mp h
  rw [getElem?_tailPart] at hk
  obtain ⟨i, hi, rfl⟩ := Option.map_eq_some_iff.mp hk
  exact ⟨i, mem_of_getElem? hi, (tailFor_tailAt code (p + k) i).or⟩

theorem IsAllocatedBody.isFunctionBody_tailPart {f : String} {body : Code}
    (hb : IsAllocatedBody f body) (code : Code) (p : Nat) :
    IsFunctionBody (tailPart code p body) := by
  have hbody := hb.isFunctionBody
  have hnames := (tailsOf_tailPart code p body).labelNames_eq
  have hcall : ∀ {i t : Instr}, i.asTailCall? = some t →
      t.op = .tailDirect ∨ t.op = .tailClosure := fun h =>
    op_of_isTail (of_asTailCall? h).2.2
  refine ⟨fun t ht r hr => ?_, fun t ht => ?_, fun t ht l hl hop => ?_, fun t ht l hl hop => ?_⟩
  all_goals obtain ⟨i, hi, rfl | hit⟩ := exists_of_mem_tailPart ht
  · exact hbody.operands _ hi r hr
  · exact hbody.operands _ hi r (regs_asTailCall? hit hr)
  · exact hbody.opcodes _ hi
  · rcases hcall hit with hop | hop <;> rw [hop] <;> decide
  · rw [hnames]
    exact hbody.inside _ hi l hl hop
  · rcases hcall hit with ht | ht <;> rw [ht] at hop <;> simp [Opcode.isBranch] at hop
  · rw [hnames]
    exact hbody.outside _ hi l hl hop
  · rw [hnames]
    exact hb.callees i hi (of_asTailCall? hit).1 l
      (operands_asTailCall? hit (mem_operands_of_label? hl))

/-! ## Live registers -/

section Liveness

variable {rest : Code} {r : Reg}

theorem Instr.trackedUses_asTailCall? (h : i.asTailCall? = some t) :
    i.trackedUses ⊆ t.trackedUses := by
  have huses : i.uses ⊆ t.uses := by
    obtain ⟨op, os⟩ := i
    have hdrop : (os.filterMap Operand.reg?).drop 1 ⊆ (os.drop 1).filterMap Operand.reg? := by
      cases os with
      | nil => exact List.Subset.refl _
      | cons o os =>
        intro x hx
        rw [drop_one, tail_cons]
        cases hr : o.reg? with
        | none =>
          rw [filterMap_cons_none hr] at hx
          exact mem_of_mem_drop hx
        | some q =>
          rwa [filterMap_cons_some hr, drop_one, tail_cons] at hx
    cases op <;> cases h <;> first | exact List.Subset.refl _ | exact hdrop
  exact fun x hx => mem_filter.mpr
    ⟨huses (mem_of_mem_filter hx), (mem_filter.mp hx).2⟩

theorem drop_of_append {a b : Code} (h : a ++ b = code.drop p) : b = code.drop (p + a.length) := by
  rw [← drop_drop, ← h, drop_left]

theorem drop_of_cons (h : i :: rest = code.drop p) : rest = code.drop (p + 1) :=
  drop_of_append (a := [i]) h

theorem getElem?_tailPart_of_drop (hi : i :: rest = code.drop p) :
    (tailPart code 0 code)[p]? = some (tailAt code p i) := by
  rw [getElem?_tailPart, getElem?_of_drop hi.symm, Nat.zero_add, Option.map_some]

theorem drop_tailPart (hi : i :: rest = code.drop p) :
    (tailPart code 0 code).drop p = tailAt code p i :: (tailPart code 0 code).drop (p + 1) :=
  drop_of_getElem? (getElem?_tailPart_of_drop hi)

theorem exists_follows_tailPart {t : Transfer} (hrest : rest = code.drop (p + 1))
    (ht : i.CanTransfer t) (hf : Follows code rest t rest') :
    ∃ q, rest' = code.drop q ∧ (tailAt code p i).CanTransfer t ∧
      Follows (tailPart code 0 code) ((tailPart code 0 code).drop (p + 1)) t
        ((tailPart code 0 code).drop q) := by
  have htails := tailsOf_tailPart code 0 code
  have hcan : (tailAt code p i).CanTransfer t := by
    rcases (tailFor_tailAt code p i).or with h | h
    · rwa [h]
    · obtain ⟨hcall, -, htail⟩ := of_asTailCall? h
      cases t with
      | next =>
        rcases op_of_isTail htail with hop | hop <;> simp [Instr.CanTransfer, hop]
      | branch l =>
        rw [Opcode.isCall_of_isBranch ht.1] at hcall
        cases hcall
      | jump l =>
        rw [ht.1] at hcall
        cases hcall
      | exit x => trivial
  have hlabel : ∀ l, codeAfter? l code = some rest' → ∃ q, rest' = code.drop q ∧
      codeAfter? l (tailPart code 0 code) = some ((tailPart code 0 code).drop q) := by
    intro l hl
    rw [codeAfter?_eq] at hl
    obtain ⟨q, hq, rfl⟩ := Option.map_eq_some_iff.mp hl
    refine ⟨q + 1, rfl, ?_⟩
    rw [codeAfter?_eq, htails.labelIndex?_eq, hq, Option.map_some]
  cases t with
  | next => exact ⟨p + 1, hf.trans hrest, hcan, rfl⟩
  | branch l | jump l =>
    obtain ⟨q, hq, hafter⟩ := hlabel l hf
    exact ⟨q, hq, hcan, hafter⟩
  | exit x => exact hf.elim

theorem LiveIn.tails (h : LiveIn code r rest) (hp : rest = code.drop p) :
    LiveIn (tailPart code 0 code) r ((tailPart code 0 code).drop p) := by
  induction h generalizing p with
  | @use i rest hu =>
    rw [drop_tailPart hp]
    refine .use ?_
    rcases (tailFor_tailAt code p i).or with h | h
    · rwa [h]
    · exact trackedUses_asTailCall? h hu
  | @flow i rest rest' t hd ht hf _ ih =>
    obtain ⟨q, hq, hcan, hfollows⟩ := exists_follows_tailPart (drop_of_cons hp) ht hf
    rw [drop_tailPart hp]
    refine .flow ?_ hcan hfollows (ih hq)
    rcases (tailFor_tailAt code p i).or with h | h
    · rwa [h]
    · rcases op_of_isTail (of_asTailCall? h).2.2 with hop | hop <;>
        simp [trackedDefs, defs, hop, Opcode.effect]

theorem LiveIn.exists_phys (h : LiveIn code r rest) (hs : rest <:+ code)
    (hregs : ∀ i ∈ code, ∀ r ∈ i.regs, ∃ q, r = Reg.ofPhys q) :
    ∃ q, r = .ofPhys q ∧ q ∉ reserved := by
  obtain ⟨i, hi, hu⟩ := h.exists_use hs
  obtain ⟨huses, htracked⟩ := mem_trackedUses.mp hu
  obtain ⟨q, rfl⟩ := hregs i hi r (uses_subset_regs huses)
  refine ⟨q, rfl, fun hq => ?_⟩
  have hres : (Reg.ofPhys q).isReserved = true := isReservedName_name.mpr hq
  rw [hres] at htracked
  cases htracked

theorem LiveSet.contains_phys {live : LiveSet} {q : PhysReg} (h : Reg.ofPhys q ∈ live) :
    live.phys.contains q = true := by
  rw [LiveSet.phys, RegSet.contains_ofList, contains_iff_mem, mem_filterMap]
  exact ⟨_, h, ofName?_name q⟩

theorem Instr.canTransfer_of_isCall (h : i.op.isCall = true) :
    i.isLabel = false ∧ i.CanTransfer .next := by
  obtain ⟨op, os⟩ := i
  cases op <;> simp_all [Opcode.isCall, isLabel, CanTransfer]

theorem PhysReg.saved_of_not_mem_reserved {q : PhysReg} (hq : q ∉ reserved) :
    RegSet.calleeSaved.contains q = true ∨ RegSet.callerSaved.contains q = true := by
  have hall : ∀ q ∈ all, q ∉ reserved →
      RegSet.calleeSaved.contains q = true ∨ RegSet.callerSaved.contains q = true := by
    decide
  exact hall q (mem_all q) hq

end Liveness

/-! ## Calls and returns in an expansion -/

/-- Whether an instruction of the machine hands control over to a callee. -/
def Instr.isTransfer (i : Instr) : Bool := i.op = .call || i.op = .jalr

/-- Whether an instruction of the machine returns. -/
def Instr.isRet (i : Instr) : Bool := i.op = .ret

def callsIn (code : Code) : Nat := code.countP fun i => i.op.isCall

/-- The call of a body that a transfer of its expansion belongs to, given what is behind the transfer:
as many calls are behind the one as transfers behind the other. -/
def CallOf (body rest : Code) (i : Instr) : Prop :=
  ∃ post, i :: post <:+ body ∧ i.op.isCall = true ∧ callsIn post = rest.countP Instr.isTransfer

/-- The return of a body that a return of its expansion belongs to, given what is behind the latter. -/
def ReturnOf (body rest : Code) (i : Instr) : Prop :=
  ∃ post, i :: post <:+ body ∧ i.isReturn = true ∧
    post.countP Instr.isReturn = rest.countP Instr.isRet

theorem counts_of_isStraightCode (h : IsStraightCode code) :
    code.countP isTransfer = 0 ∧ code.countP isRet = 0 := by
  have hop : ∀ i ∈ code, i.isTransfer = false ∧ i.isRet = false := by
    intro i hi
    have hf := (h i hi).family
    rw [isTransfer, isRet]
    generalize i.op = op at hf ⊢
    revert hf
    cases op <;> decide
  exact ⟨countP_eq_zero.mpr fun i hi => Bool.eq_false_iff.mp (hop i hi).1,
    countP_eq_zero.mpr fun i hi => Bool.eq_false_iff.mp (hop i hi).2⟩

theorem isStraightCode_leave (ctx : ExpansionContext) : IsStraightCode ctx.leave := by
  unfold ExpansionContext.leave
  split
  · exact isStraightCode_epilogue _
  · nofun

theorem isStraightCode_singleton (h : i.IsStraight) : IsStraightCode [i] :=
  forall_mem_singleton.mpr h

section Counts

variable {f : String} {body : Code} {ctx : ExpansionContext}

/-- A call has one transfer in its block, a return has one return, and there are no others. -/
theorem ExpansionOf.counts (hb : IsAllocatedBody f body) (hi : i ∈ body)
    (h : ExpansionOf ctx p i s block s') (hs : s.Within ctx.layout.size) :
    block.countP isTransfer = [i].countP (fun k => k.op.isCall) ∧
      block.countP isRet = [i].countP isReturn := by
  have hnone : i.op.isCall = false → i.isReturn = false → [i].countP (fun k => k.op.isCall) = 0 ∧
      [i].countP isReturn = 0 := by
    intro hc hr
    simp [hc, hr]
  -- the code of a return in front of the return itself is straight
  have hret : ∀ {code : Code}, IsStraightCode code → i.op.isCall = false → i.isReturn = true →
      (code ++ [(⟨.ret, []⟩ : Instr)]).countP isTransfer =
          [i].countP (fun k => k.op.isCall) ∧
        (code ++ [(⟨.ret, []⟩ : Instr)]).countP isRet = [i].countP isReturn := by
    intro code hcode hc hr
    obtain ⟨h₁, h₂⟩ := counts_of_isStraightCode hcode
    rw [countP_append, countP_append, h₁, h₂]
    simp [hc, hr, isTransfer, isRet]
  have hstraight : ∀ {code : Code}, IsStraightCode code → i.op.isCall = false →
      i.isReturn = false → code.countP isTransfer = [i].countP (fun k => k.op.isCall) ∧
        code.countP isRet = [i].countP isReturn := by
    intro code hcode hc hr
    obtain ⟨h₁, h₂⟩ := counts_of_isStraightCode hcode
    obtain ⟨h₃, h₄⟩ := hnone hc hr
    exact ⟨h₁.trans h₃.symm, h₂.trans h₄.symm⟩
  cases h with
  | store hop =>
    exact hstraight (isStraightCode_singleton (isStraight_store _ _ _)) (by rw [hop]; rfl)
      (by simp [isReturn, hop])
  | load hop =>
    exact hstraight (isStraightCode_singleton (isStraight_load _ _ _)) (by rw [hop]; rfl)
      (by simp [isReturn, hop])
  | param hop =>
    rcases hop with hop | hop <;>
      exact hstraight (forall_mem_nil _) (by rw [hop]; rfl) (by simp [isReturn, hop])
  | captured hop =>
    exact hstraight (isStraightCode_singleton (isStraight_load _ _ _)) (by rw [hop]; rfl)
      (by simp [isReturn, hop])
  | value hop =>
    refine hret (isStraightCode_append (fun k hk => ?_) (isStraightCode_leave ctx))
      (by rw [hop]; rfl) (by simp [isReturn, hop])
    obtain ⟨r, -, rfl⟩ := mem_map.mp hk
    exact isStraight_move _ _
  | unit hop => exact hret (isStraightCode_leave ctx) (by rw [hop]; rfl) (by simp [isReturn, hop])
  | @call site height targets hcall htail hsite hheight htargets =>
    obtain ⟨words, -, rfl⟩ := slotBytes_eq_ok hs hheight
    obtain ⟨h₁, h₂⟩ := counts_of_isStraightCode
      (@isStraightCode_callEntry site words targets (savedAcross ctx.clobbers site targets (ctx.liveOut p)))
    obtain ⟨h₃, h₄⟩ := counts_of_isStraightCode
      (@isStraightCode_callReturn site words (savedAcross ctx.clobbers site targets (ctx.liveOut p)))
    have hr : i.isReturn = false := by
      rcases op_of_isCall hcall htail with hop | hop | hop | hop <;>
        simp [isReturn, hop]
    have htransfer : (transfer site.target).isTransfer = true ∧
        (transfer site.target).isRet = false := by
      cases site.target <;> exact ⟨rfl, rfl⟩
    rw [callCode_eq]
    constructor
    · rw [countP_append, countP_cons, h₁, h₃, htransfer.1]
      simp [hcall]
    · rw [countP_append, countP_cons, h₂, h₄, htransfer.2]
      simp [hr]
  | tail htail =>
    rw [hb.isTail hi] at htail
    cases htail
  | self hp =>
    obtain ⟨hcall, hjalr, hret⟩ := hb.opcodes i hi
    have hkind : i.op.isCall = false ∧ i.isReturn = false := by
      rw [isReturn]
      generalize i.op = op at hp ⊢
      revert hp
      cases op <;> decide
    simp [isTransfer, isRet, hcall, hjalr, hret, hkind.1, hkind.2]

/-- As many transfers and returns are behind a place of an expansion as calls and returns are behind
the place of the body. -/
theorem Expands.counts (hb : IsAllocatedBody f body) {rest : Code} (hs : rest <:+ body)
    (h : Expands (ExpansionBlock ctx) rest rest') :
    callsIn rest = rest'.countP isTransfer ∧
      rest.countP isReturn = rest'.countP isRet := by
  have hblock : ∀ i ∈ rest, ∀ block, ExpansionBlock ctx i block →
      block.countP isTransfer = [i].countP (fun k => k.op.isCall) ∧
        block.countP isRet = [i].countP isReturn := by
    rintro i hi block ⟨p, s, s', hs', hx⟩
    exact (expandInstr_iff.mp hx).counts hb (hs.subset hi) hs'
  exact ⟨(h.countP_eq fun i hi block hB => (hblock i hi block hB).1).symm,
    (h.countP_eq fun i hi block hB => (hblock i hi block hB).2).symm⟩

end Counts

/-! ## Filled slots -/

/-- The filled slots are listed in ascending order, and are slots of the body. -/
structure SlotState.Ordered (n : Nat) (s : SlotState) : Prop where
  within : s.Within n
  sorted : s.filled.Pairwise (· < ·)

theorem sorted_insertPosition {q : Nat} {ps : List Nat} (h : ps.Pairwise (· < ·)) :
    (insertPosition q ps).Pairwise (· < ·) := by
  induction ps with
  | nil => exact pairwise_singleton _ _
  | cons r ps ih =>
    obtain ⟨hr, hps⟩ := pairwise_cons.mp h
    rw [insertPosition]
    split
    · exact h
    split
    · next hlt =>
      refine pairwise_cons.mpr ⟨fun x hx => ?_, h⟩
      rcases mem_cons.mp hx with rfl | hx
      · exact hlt
      · exact Nat.lt_trans hlt (hr x hx)
    · refine pairwise_cons.mpr ⟨fun x hx => ?_, ih hps⟩
      rcases SlotState.mem_insertPosition.mp hx with rfl | hx
      · omega
      · exact hr x hx

namespace SlotState

variable {n q : Nat}

theorem ordered_empty (n : Nat) : empty.Ordered n := ⟨within_empty n, List.Pairwise.nil⟩

theorem Ordered.fill (hs : s.Ordered n) (hq : q < n) : (s.fill q).Ordered n :=
  ⟨hs.within.fill hq, sorted_insertPosition hs.sorted⟩

theorem Ordered.meet (hs : s.Ordered n) (t : SlotState) : (s.meet t).Ordered n :=
  ⟨hs.within.meet t, hs.sorted.filter _⟩

end SlotState

section Slots

variable {ctx ctx' : ExpansionContext}

theorem ExpansionOf.ordered (h : ExpansionOf ctx p i s block s') {n : Nat}
    (hn : ctx.layout.size ≤ n) (hs : s.Ordered n) : s'.Ordered n := by
  cases h with
  | store _ hslot =>
    have hlt := SlotLayout.position?_lt (ExpansionContext.slot_eq_ok hslot).2.2
    exact hs.fill (Nat.lt_of_lt_of_le hlt hn)
  | _ => exact hs

theorem ExpansionOf.exists_callCode (h : ExpansionOf ctx p i s block s')
    (hs : s.Ordered ctx.layout.size) (hcall : i.op.isCall = true) (htail : i.isTail = false) :
    ∃ site words targets,
      ofInstr i = .ok site ∧ assignArgs site.target.name site.args = .ok targets ∧
      slotBytes s = .ok (Word.ofCount words) ∧ words ≤ ctx.layout.size ∧
      (∀ q ∈ s.filled, q < words) ∧ s' = s ∧ block = callCode site (Word.ofCount words) targets
        (savedAcross ctx.clobbers site targets (ctx.liveOut p)) := by
  obtain ⟨site, height, targets, hsite, htargets, hheight, hs', hblock⟩ := h.exists_call hcall htail
  obtain rfl := slotBytes_eq_words hheight
  exact ⟨site, s.words, targets, hsite, htargets, hheight, SlotState.words_le hs.within,
    fun _ hq => SlotState.lt_words hs.sorted hq, hs', hblock⟩

theorem expands_self (hp : i.op.isPseudo = false) (h : Expands (ExpansionBlock ctx) part o) :
    Expands (ExpansionBlock ctx) (i :: part) (i :: o) :=
  .cons ⟨0, .empty, .empty, SlotState.within_empty _, expandInstr_of_not_isPseudo hp 0 _⟩ h

theorem Alongside.expands {a : Bool} {o' : Code} {u : SlotState}
    (h : Alongside code ctx ctx' p a part s o o' u) (hs : s.Ordered ctx.layout.size) :
    Expands (ExpansionBlock ctx) part o ∧ u.Ordered ctx.layout.size := by
  induction h with
  | nil => exact ⟨.nil, hs⟩
  | plain _ _ _ hblock _ _ ih =>
    obtain ⟨hexp, hu⟩ := ih (hblock.ordered (Nat.le_refl _) hs)
    exact ⟨.cons ⟨_, _, _, hs.within, expandInstr_iff.mpr hblock⟩ hexp, hu⟩
  | ret _ hblock _ _ ih =>
    obtain ⟨hexp, hu⟩ := ih hs
    exact ⟨.cons ⟨_, _, _, hs.within, expandInstr_iff.mpr hblock⟩ hexp, hu⟩
  | @cond p a b c branch l m first skip second rest s s₁ s₂ u o₁ o₁' o₂ o₂' o₃ o₃' harms hskip _ _ _
      ih₁ ih₂ ih₃ =>
    obtain ⟨h₁, hs₁⟩ := ih₁ hs
    obtain ⟨h₂, -⟩ := ih₂ hs
    obtain ⟨h₃, hu⟩ := ih₃ (hs₁.meet s₂)
    have hbranch := Opcode.isPseudo_of_isBranch (isBranch_of_arms? harms)
    have hjump : Expands (ExpansionBlock ctx) skip skip := by
      rcases hskip with rfl | ⟨rfl, -⟩
      · exact expands_self rfl .nil
      · exact .nil
    exact ⟨expands_self hbranch (h₁.append (hjump.append (expands_self rfl
      (h₂.append (expands_self rfl h₃))))), hu⟩

end Slots

end ClosureCodegen
