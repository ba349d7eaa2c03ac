import ClosureCodegen.Calling.Expansion
import ClosureCodegen.Proofs.Code.Nesting
import ClosureCodegen.Proofs.Coloring.Graph

/-!
# Expansion, one instruction at a time

Expansion follows the arms of conditionals to know which slots are filled, but what it emits is one
block for each instruction of the body, in the order of the body.  `expands_body` says so,
and `ExpansionBlock` says what a block can be.

Slots are numbered as the body mentions them, and the offset of every slot that the body mentions is
computed within the range of a word.  So a body that is expanded has no more slots than offsets
reach: `size_bodyContext_le`.
-/

namespace ClosureCodegen
open List Outcome Word SlotLayout ClosureCodegen.Numbering Instr

variable {stop p q n : Nat} {s s' stack stack' : SlotState} {ctx : ExpansionContext} {i : Instr}
  {block out : Code} {w : Word}

/-! ## Parts of a list -/

theorem extract_cons {α : Type} {l : List α} {start : Nat} {a : α} (h : start < stop)
    (ha : l[start]? = some a) : l.extract start stop = a :: l.extract (start + 1) stop := by
  obtain ⟨hlt, rfl⟩ := List.getElem?_eq_some_iff.mp ha
  have hcount : stop - start = stop - (start + 1) + 1 := by omega
  rw [extract_eq_take_drop, extract_eq_take_drop, drop_eq_getElem_cons hlt, hcount,
    take_succ_cons]

theorem extract_append {α : Type} (l : List α) {start mid : Nat} (h : start ≤ mid) (h' : mid ≤ stop) :
    l.extract start mid ++ l.extract mid stop = l.extract start stop := by
  have hdrop : l.drop mid = (l.drop start).drop (mid - start) := by
    rw [drop_drop, Nat.add_sub_cancel' h]
  have hcount : stop - start = (mid - start) + (stop - mid) := by omega
  simp only [extract_eq_take_drop]
  rw [hdrop, hcount, take_add]

theorem extract_eq_nil {α : Type} {l : List α} {start : Nat} (h : stop ≤ start ∨ l.length ≤ start) :
    l.extract start stop = [] := by
  rw [extract_eq_take_drop]
  rcases h with h | h
  · rw [Nat.sub_eq_zero_of_le h, take_zero]
  · rw [drop_eq_nil_of_le h, take_nil]

/-! ## Filled slots -/

namespace SlotState

/-- Every filled slot is one of the first `n`. -/
def Within (n : Nat) (s : SlotState) : Prop := ∀ p ∈ s.filled, p < n

theorem mem_insertPosition {ps : List Nat} : q ∈ insertPosition p ps ↔ q = p ∨ q ∈ ps := by
  induction ps with
  | nil => simp [insertPosition]
  | cons r ps ih =>
    rw [insertPosition]
    split
    · next hpr =>
      subst hpr
      simp
    split
    · simp
    · rw [mem_cons, ih, mem_cons]
      exact or_left_comm

theorem Within.fill (hs : s.Within n) (hp : p < n) : (s.fill p).Within n := by
  intro q hq
  rcases mem_insertPosition.mp hq with rfl | hq
  · exact hp
  · exact hs q hq

theorem Within.meet (hs : s.Within n) (t : SlotState) : (s.meet t).Within n :=
  fun p hp => hs p (mem_of_mem_filter hp)

theorem within_empty (n : Nat) : SlotState.empty.Within n :=
  fun _ h => absurd h not_mem_nil

end SlotState

/-! ## Blocks -/

def ExpansionBlock (ctx : ExpansionContext) (i : Instr) (block : Code) : Prop :=
  ∃ position stack stack', stack.Within ctx.layout.size ∧
    expandInstr ctx position i stack = .ok (block, stack')

theorem expandInstr_of_not_isPseudo (hi : i.op.isPseudo = false) (position : Nat)
    (stack : SlotState) : expandInstr ctx position i stack = .ok ([i], stack) := by
  obtain ⟨op, operands⟩ := i
  cases op <;> first | rfl | cases hi

theorem Opcode.isPseudo_of_isBranch {op : Opcode} (h : op.isBranch = true) :
    op.isPseudo = false := by
  cases op <;> first | rfl | cases h

theorem ExpansionContext.slot_eq_ok {r : Reg} {slot : String} (h : ctx.slot i = .ok (r, slot, p)) :
    i.reg? 0 = some r ∧ i.labelAt? 1 = some slot ∧ ctx.layout.position? slot = some p := by
  unfold ExpansionContext.slot at h
  split at h
  · next r' slot' hr hslot =>
    split at h
    · next p' hp =>
      cases h
      exact ⟨hr, hslot, hp⟩
    · cases h
  · cases h

theorem SlotLayout.position?_lt {l : SlotLayout} {slot : String} (h : l.position? slot = some p) :
    p < l.size :=
  (idxOf?_eq_some_iff.mp h).1

theorem Instr.op_of_isTail (h : i.isTail = true) : i.op = .tailDirect ∨ i.op = .tailClosure := by
  simpa [isTail] using h

theorem Instr.op_of_isCall (h : i.op.isCall = true) (hno : i.isTail = false) : i.op = .callDirect ∨
    i.op = .callDirectResult ∨ i.op = .callClosure ∨ i.op = .callClosureResult := by
  obtain ⟨op, os⟩ := i
  cases op <;> simp_all [Opcode.isCall, isTail]

/-- What an instruction is expanded to, and which slots are filled behind it. -/
inductive ExpansionOf (ctx : ExpansionContext) (p : Nat) (i : Instr) (s : SlotState) :
    Code → SlotState → Prop where
  | store {r : Reg} {slot : String} {q : Nat} {offset : Word} : i.op = .spillStore →
      ctx.slot i = .ok (r, slot, q) → SlotLayout.checkedOffset q = .ok offset →
      ExpansionOf ctx p i s [.store stackReg r offset] (s.fill q)
  | load {r : Reg} {slot : String} {q : Nat} {offset : Word} : i.op = .spillLoad →
      ctx.slot i = .ok (r, slot, q) → s.isFilled q = true →
      SlotLayout.checkedOffset q = .ok offset →
      ExpansionOf ctx p i s [.load r stackReg offset] s
  | param : i.op = .param ∨ i.op = .unusedParam → ExpansionOf ctx p i s [] s
  | captured {r : Reg} {offset : Word} : i.op = .captured → i.reg? 0 = some r →
      i.imm? 1 = some offset → ExpansionOf ctx p i s [.load r closureReg offset] s
  | value : i.op = .returnValue → ExpansionOf ctx p i s
      ((i.reg? 0).toList.map (fun r => .move (.ofPhys (.result r.cls)) r) ++ ctx.leave ++
        [⟨.ret, []⟩]) s
  | unit : i.op = .returnUnit → ExpansionOf ctx p i s (ctx.leave ++ [⟨.ret, []⟩]) s
  | call {site : CallSite} {height : Word} {targets : List PhysReg} : i.op.isCall = true →
      i.isTail = false → CallSite.ofInstr i = .ok site → slotBytes s = .ok height →
      assignArgs site.target.name site.args = .ok targets → ExpansionOf ctx p i s
        (callCode site height targets (savedAcross ctx.clobbers site targets (ctx.liveOut p))) s
  | tail {site : CallSite} {targets : List PhysReg} : i.isTail = true →
      CallSite.ofInstr i = .ok site → assignArgs site.target.name site.args = .ok targets →
      ExpansionOf ctx p i s (enterClosure site.target ++ passArguments site.args targets ++
        ctx.leave ++ [tailTransfer site.target]) s
  | self : i.op.isPseudo = false → ExpansionOf ctx p i s [i] s

theorem expandInstr_iff :
    expandInstr ctx p i s = .ok (block, s') ↔ ExpansionOf ctx p i s block s' := by
  constructor
  · intro h
    unfold expandInstr at h
    split at h
    case h_1 hop =>
      simp only [bind_eq_ok, pure_eq_ok, Prod.mk.injEq] at h
      obtain ⟨⟨r, slot, q⟩, hq, offset, hoffset, rfl, rfl⟩ := h
      exact .store hop hq hoffset
    case h_2 hop =>
      simp only [bind_eq_ok] at h
      obtain ⟨⟨r, slot, q⟩, hq, h⟩ := h
      split at h
      · next hfilled =>
        simp only [bind_eq_ok, pure_eq_ok, Prod.mk.injEq] at h
        obtain ⟨offset, hoffset, rfl, rfl⟩ := h
        exact .load hop hq hfilled hoffset
      · cases h
    case h_3 hop =>
      cases h
      exact .param (.inl hop)
    case h_4 hop =>
      cases h
      exact .param (.inr hop)
    case h_5 hop =>
      split at h
      · next hr ho =>
        cases h
        exact .captured hop hr ho
      · cases h
    case h_6 hop =>
      have hvalue := @ExpansionOf.value ctx p i s hop
      cases hr : i.reg? 0 with
      | none =>
        rw [hr] at h hvalue
        cases h
        exact hvalue
      | some r =>
        rw [hr] at h hvalue
        cases h
        exact hvalue
    case h_7 hop =>
      cases h
      exact .unit hop
    case h_8 hop | h_9 hop | h_10 hop | h_11 hop =>
      simp only [expandCall, bind_eq_ok, pure_eq_ok, Prod.mk.injEq] at h
      obtain ⟨_, ⟨site, hsite, height, hheight, targets, htargets, rfl⟩, rfl, rfl⟩ := h
      exact .call (by rw [hop]; rfl) (by simp [isTail, hop]) hsite hheight htargets
    case h_12 hop | h_13 hop =>
      simp only [expandTailCall, bind_eq_ok, pure_eq_ok, Prod.mk.injEq] at h
      obtain ⟨_, ⟨site, hsite, targets, htargets, rfl⟩, rfl, rfl⟩ := h
      exact .tail (by simp [isTail, hop]) hsite htargets
    case h_14 =>
      cases h
      refine .self ?_
      obtain ⟨op, os⟩ := i
      cases op <;> first | rfl | simp_all
  · intro h
    cases h with
    | store hop hq hoffset =>
      simp only [expandInstr, hop, bind_eq_ok, pure_eq_ok]
      exact ⟨_, hq, _, hoffset, rfl⟩
    | load hop hq hfilled hoffset =>
      simp only [expandInstr, hop, bind_eq_ok]
      refine ⟨_, hq, ?_⟩
      rw [if_pos hfilled]
      simp only [bind_eq_ok, pure_eq_ok]
      exact ⟨_, hoffset, rfl⟩
    | param hop => rcases hop with hop | hop <;> simp only [expandInstr, hop]
    | captured hop hr ho =>
      simp only [expandInstr, hop, hr, ho]
      rfl
    | value hop => cases hr : i.reg? 0 <;> simp [expandInstr, hop, hr]
    | unit hop => simp only [expandInstr, hop]
    | @call site height targets hop htail hsite hheight htargets =>
      have hcall : expandCall ctx p i s = .ok (callCode site height targets
          (savedAcross ctx.clobbers site targets (ctx.liveOut p))) := by
        simp only [expandCall, bind_eq_ok, pure_eq_ok]
        exact ⟨_, hsite, _, hheight, _, htargets, rfl⟩
      rcases op_of_isCall hop htail with hop | hop | hop | hop <;>
        simp only [expandInstr, hop, hcall] <;> rfl
    | @tail site targets hop hsite htargets =>
      have htail : expandTailCall ctx i = .ok (enterClosure site.target ++
          passArguments site.args targets ++ ctx.leave ++ [tailTransfer site.target]) := by
        simp only [expandTailCall, bind_eq_ok, pure_eq_ok]
        exact ⟨_, hsite, _, htargets, rfl⟩
      rcases op_of_isTail hop with hop | hop <;> simp only [expandInstr, hop, htail] <;> rfl
    | self hp => exact expandInstr_of_not_isPseudo hp p s

/-! ## Ranges -/

/-- What a range of a body is expanded to, and which slots are filled behind it. -/
inductive RangeOf (ctx : ExpansionContext) : Nat → Nat → SlotState → Code → SlotState → Prop where
  | done {start stop : Nat} {s : SlotState} : stop ≤ start ∨ ctx.code[start]? = none →
      RangeOf ctx start stop s [] s
  | cond {start taken join stop : Nat} {i : Instr} {arms : Arms} {s s₁ s₂ u : SlotState}
      {o₁ o₂ o₃ : Code} : ctx.code[start]? = some i → i.arms? = some arms →
      ctx.position arms.takenLabel = .ok taken → ctx.position arms.endLabel = .ok join →
      start < taken ∧ taken < join ∧ join < stop → RangeOf ctx (start + 1) taken s o₁ s₁ →
      RangeOf ctx taken join s o₂ s₂ → RangeOf ctx join stop (s₁.meet s₂) o₃ u →
      RangeOf ctx start stop s (i :: (o₁ ++ o₂ ++ o₃)) u
  | plain {start stop : Nat} {i : Instr} {s s' u : SlotState} {block o : Code} : start < stop →
      ctx.code[start]? = some i → i.arms? = none → ExpansionOf ctx start i s block s' →
      RangeOf ctx (start + 1) stop s' o u → RangeOf ctx start stop s (block ++ o) u

theorem expandRange_iff {start : Nat} :
    expandRange ctx start stop s = .ok (out, s') ↔ RangeOf ctx start stop s out s' := by
  constructor
  · intro h
    fun_induction expandRange ctx start stop s generalizing out s' with
    | case1 start stop s hlt hnone =>
      cases h
      exact .done (.inr hnone)
    | case2 start stop s hlt i hi arms harms ih₁ ih₂ ih₃ =>
      simp only [bind_eq_ok] at h
      obtain ⟨taken, htaken, join, hjoin, h⟩ := h
      split at h
      · next hpos =>
        simp only [bind_eq_ok, pure_eq_ok, Prod.mk.injEq] at h
        obtain ⟨⟨o₁, s₁⟩, h₁, ⟨o₂, s₂⟩, h₂, ⟨o₃, u⟩, h₃, rfl, rfl⟩ := h
        exact .cond hi harms htaken hjoin hpos (ih₁ taken join hpos h₁) (ih₂ taken join hpos h₂)
          (ih₃ taken join hpos s₁ s₂ h₃)
      · cases h
    | case3 start stop s hlt i hi harms ih =>
      simp only [bind_eq_ok, pure_eq_ok, Prod.mk.injEq] at h
      obtain ⟨⟨block, s₁⟩, h₁, ⟨o, u⟩, h₂, rfl, rfl⟩ := h
      exact .plain hlt hi harms (expandInstr_iff.mp h₁) (ih s₁ h₂)
    | case4 start stop s hge =>
      cases h
      exact .done (.inl (Nat.le_of_not_lt hge))
  · intro h
    induction h with
    | done h =>
      rw [expandRange]
      split
      · rw [h.resolve_left (by omega)]
      · rfl
    | cond hi harms htaken hjoin hpos _ _ _ ih₁ ih₂ ih₃ =>
      rw [expandRange, dif_pos (by omega)]
      simp only [hi, harms, htaken, hjoin, ok_bind, dif_pos hpos, ih₁, ih₂, ih₃]
      rfl
    | plain hlt hi harms hblock _ ih =>
      rw [expandRange, dif_pos hlt]
      simp only [hi, harms, expandInstr_iff.mpr hblock, ok_bind, ih]
      rfl

theorem RangeOf.of_plain {start : Nat} (h : RangeOf ctx start stop s out s') (hlt : start < stop)
    (hi : ctx.code[start]? = some i) (ha : i.arms? = none) : ∃ block s₁ o,
      ExpansionOf ctx start i s block s₁ ∧ RangeOf ctx (start + 1) stop s₁ o s' ∧ out = block ++ o := by
  cases h with
  | done hno =>
    have := hno.resolve_left (by omega)
    cases this.symm.trans hi
  | cond hi' ha' =>
    cases hi'.symm.trans hi
    cases ha'.symm.trans ha
  | plain _ hi' _ hblock hrest =>
    cases hi'.symm.trans hi
    exact ⟨_, _, _, hblock, hrest, rfl⟩

theorem RangeOf.of_arms {start taken join : Nat} {arms : Arms} (h : RangeOf ctx start stop s out s')
    (hlt : start < stop) (hi : ctx.code[start]? = some i) (ha : i.arms? = some arms)
    (htaken : ctx.position arms.takenLabel = .ok taken)
    (hjoin : ctx.position arms.endLabel = .ok join) : ∃ o₁ s₁ o₂ s₂ o₃,
      RangeOf ctx (start + 1) taken s o₁ s₁ ∧ RangeOf ctx taken join s o₂ s₂ ∧
      RangeOf ctx join stop (s₁.meet s₂) o₃ s' ∧ out = i :: (o₁ ++ o₂ ++ o₃) := by
  cases h with
  | done hno =>
    have := hno.resolve_left (by omega)
    cases this.symm.trans hi
  | cond hi' ha' htaken' hjoin' _ h₁ h₂ h₃ =>
    cases hi'.symm.trans hi
    cases ha'.symm.trans ha
    cases htaken'.symm.trans htaken
    cases hjoin'.symm.trans hjoin
    exact ⟨_, _, _, _, _, h₁, h₂, h₃, rfl⟩
  | plain _ hi' ha' =>
    cases hi'.symm.trans hi
    cases ha'.symm.trans ha

theorem expandRange_of_le {start : Nat} (h : stop ≤ start) (s : SlotState) :
    expandRange ctx start stop s = .ok ([], s) :=
  expandRange_iff.mpr (.done (.inl h))

theorem RangeOf.of_le {start : Nat} (h : RangeOf ctx start stop s out s') (hle : stop ≤ start) :
    out = [] ∧ s' = s := by
  cases h with
  | done => exact ⟨rfl, rfl⟩
  | cond => omega
  | plain => omega

/-- Expansion emits one block for each instruction, and what each block keeps of the filled slots, the
whole keeps. The two arms of a conditional and the rest stand one behind the other in the body and in
what is emitted. -/
theorem expands_expandRange_of {P : SlotState → Prop} (hmeet : ∀ {s} t, P s → P (s.meet t))
    (hstep : ∀ {position i s block s'}, P s → expandInstr ctx position i s = .ok (block, s') → P s')
    {start : Nat} (hs : P stack) (h : expandRange ctx start stop stack = .ok (out, stack')) :
    Expands (fun i block => ∃ position s s', P s ∧ expandInstr ctx position i s = .ok (block, s'))
      (ctx.code.toList.extract start stop) out ∧ P stack' := by
  have hget : ∀ {k : Nat} {i}, ctx.code[k]? = some i → ctx.code.toList[k]? = some i := by simp
  induction expandRange_iff.mp h with
  | done hno =>
    rw [extract_eq_nil (hno.imp_right fun hnone => by simpa using hnone)]
    exact ⟨.nil, hs⟩
  | @cond start taken join stop i arms stack s₁ s₂ u o₁ o₂ o₃ hi harms _ _ hpos h₁ h₂ h₃ ih₁ ih₂ ih₃ =>
    obtain ⟨hx₁, hs₁⟩ := ih₁ hs (expandRange_iff.mpr h₁)
    obtain ⟨hx₂, -⟩ := ih₂ hs (expandRange_iff.mpr h₂)
    obtain ⟨hx₃, hs₃⟩ := ih₃ (hmeet s₂ hs₁) (expandRange_iff.mpr h₃)
    refine ⟨?_, hs₃⟩
    rw [extract_cons (by omega) (hget hi), ← extract_append _ (by omega) (by omega : join ≤ stop),
      ← extract_append _ (by omega : start + 1 ≤ taken) (by omega : taken ≤ join)]
    have hbranch := Opcode.isPseudo_of_isBranch (Instr.isBranch_of_arms? harms)
    exact .cons ⟨start, stack, stack, hs, expandInstr_of_not_isPseudo hbranch start stack⟩
      ((hx₁.append hx₂).append hx₃)
  | @plain start stop i stack s' u block o hlt hi _ hblock hrest ih =>
    have hx := expandInstr_iff.mpr hblock
    obtain ⟨hxs, hu⟩ := ih (hstep hs hx) (expandRange_iff.mpr hrest)
    rw [extract_cons hlt (hget hi)]
    exact ⟨.cons ⟨start, stack, s', hs, hx⟩ hxs, hu⟩

/-! ## Offsets of slots -/

theorem Word.ofCount_succ (n : Nat) : ofCount (n + 1) = (BitVec.ofNat 32 n + 1) * size := by
  rw [ofCount, BitVec.ofNat_add, BitVec.mul_comm]
  rfl

theorem SlotLayout.eq_of_checkedOffset (h : checkedOffset p = .ok w) :
    w = below p := by
  simp only [checkedOffset, bind_eq_ok] at h
  obtain ⟨count, hcount, negated, hneg, hmul⟩ := h
  rw [eq_mul_of_mul? (Fault.liftM_eq_ok.mp hmul),
    eq_neg_of_neg? (Fault.liftM_eq_ok.mp hneg),
    eq_add_of_add? (Fault.liftM_eq_ok.mp hcount), below, ofCount_succ,
    BitVec.neg_mul]

/-- The number of words that reach past every filled slot. -/
def SlotState.words (s : SlotState) : Nat :=
  match s.filled.getLast? with
  | none => 0
  | some p => p + 1

theorem SlotState.words_le (hs : s.Within n) : s.words ≤ n := by
  unfold words
  split
  · exact Nat.zero_le n
  · next p hp => exact hs p (mem_of_getLast? hp)

theorem SlotState.lt_words (hs : s.filled.Pairwise (· < ·)) (hq : q ∈ s.filled) : q < s.words := by
  unfold words
  split
  · next hlast =>
    rw [getLast?_eq_none_iff.mp hlast] at hq
    cases hq
  · next p hp =>
    obtain ⟨front, hfront⟩ := getLast?_eq_some_iff.mp hp
    rw [hfront] at hq hs
    rcases mem_append.mp hq with hq | hq
    · exact Nat.lt_succ_of_lt ((pairwise_append.mp hs).2.2 q hq p mem_cons_self)
    · rw [mem_singleton.mp hq]
      exact Nat.lt_succ_self p

theorem slotBytes_eq_words (h : slotBytes s = .ok w) : w = Word.ofCount s.words := by
  simp only [slotBytes, Outcome.bind_eq_ok, Outcome.pure_eq_ok] at h
  obtain ⟨height, hheight, bytes, hbytes, -, -, rfl⟩ := h
  rw [Word.eq_mul_of_mul? (Fault.liftM_eq_ok.mp hbytes)]
  cases hlast : s.filled.getLast? with
  | none =>
    simp only [SlotState.height, hlast] at hheight
    cases hheight
    simp only [SlotState.words, hlast]
    rfl
  | some p =>
    simp only [SlotState.height, hlast] at hheight
    simp only [SlotState.words, hlast]
    rw [Word.eq_add_of_add? (Fault.liftM_eq_ok.mp hheight), Word.ofCount_succ]

/-- The filled slots take a number of words that reaches no further than the slots of the body. -/
theorem slotBytes_eq_ok (hs : stack.Within n) (h : slotBytes stack = .ok w) :
    ∃ words ≤ n, w = ofCount words :=
  ⟨stack.words, SlotState.words_le hs, slotBytes_eq_words h⟩

/-! ## The number of slots -/

namespace SlotLayout

theorem slots_ofCode (code : Code) :
    (ofCode code).slots = (empty.insertAll (code.filterMap Instr.slot?)).toList := by
  rw [toList_insertAll]
  rfl

theorem mem_slots_ofCode {code : Code} {slot : String} :
    slot ∈ (ofCode code).slots ↔ ∃ i ∈ code, i.slot? = some slot := by
  rw [slots_ofCode, mem_insertAll, toList_empty, mem_filterMap]
  simp

theorem position?_getElem {code : Code} (hp : p < (ofCode code).slots.length) :
    (ofCode code).position? (ofCode code).slots[p] = some p := by
  have hnodup : (ofCode code).slots.Nodup := by
    rw [slots_ofCode]
    exact nodup_insertAll (by rw [toList_empty]; exact nodup_nil)
  refine idxOf?_eq_some_iff.mpr ⟨hp, rfl, fun j hj heq => ?_⟩
  have := (List.Nodup.getElem_inj_iff hnodup).mp heq
  omega

end SlotLayout

theorem Expands.exists_of_mem {B : Instr → Code → Prop} {code code' : Code}
    (h : Expands B code code') (hi : i ∈ code) : ∃ block, B i block := by
  induction h with
  | nil => exact absurd hi not_mem_nil
  | cons hb _ ih =>
    rcases mem_cons.mp hi with rfl | hi
    · exact ⟨_, hb⟩
    · exact ih hi

theorem exists_checkedOffset {position : Nat} {r : Code × SlotState} {slot : String}
    (h : expandInstr ctx position i s = .ok r) (hslot : i.slot? = some slot)
    (hp : ctx.layout.position? slot = some p) : ∃ w, checkedOffset p = .ok w := by
  obtain ⟨block, s'⟩ := r
  rw [Instr.slot?] at hslot
  split at hslot
  · next hop =>
    have hnumber : ∀ {r slot' p'}, ctx.slot i = .ok (r, slot', p') → p' = p := fun hs => by
      obtain ⟨-, hslot', hp'⟩ := ExpansionContext.slot_eq_ok hs
      obtain rfl := Option.some.inj (hslot.symm.trans hslot')
      exact Option.some.inj (hp'.symm.trans hp)
    cases expandInstr_iff.mp h with
    | store _ hs hw | load _ hs _ hw => exact ⟨_, hnumber hs ▸ hw⟩
    | param h | captured h | value h | unit h | call h | tail h | self h =>
      exfalso
      rcases hop with hop | hop <;> simp_all [isTail, Opcode.isCall, Opcode.isPseudo]
  · cases hslot

/-- The number of slots whose offsets are in range. -/
def SlotLayout.limit : Nat := 536870912

/-- A body whose spill traffic is expanded has no more slots than offsets reach: the first slot beyond
them would have been refused where the body mentions it. -/
theorem size_layout_le_of {ctx : ExpansionContext} {code : Code}
    (hlayout : ctx.layout = ofCode code)
    (h : ∀ i ∈ code, ∀ slot, i.slot? = some slot →
      ∃ position s r, expandInstr ctx position i s = .ok r) : ctx.layout.size ≤ limit := by
  by_contra hlt
  rw [hlayout] at hlt
  have hp : limit < (ofCode code).slots.length := Nat.lt_of_not_le hlt
  obtain ⟨i, hi, hslot⟩ := mem_slots_ofCode.mp (getElem_mem hp)
  obtain ⟨position, s, r, hx⟩ := h i hi _ hslot
  have hposition : ctx.layout.position? (ofCode code).slots[limit] =
      some limit := by
    rw [hlayout]
    exact position?_getElem hp
  obtain ⟨w, hw⟩ := exists_checkedOffset hx hslot hposition
  have hfault : checkedOffset limit = .error (.fault .multiplication) := by
    decide
  rw [hfault] at hw
  cases hw

theorem Word.toInt_ofNat (h : n < 2 ^ 31) : (BitVec.ofNat 32 n).toInt = n := by
  rw [BitVec.toInt_eq_toNat_of_lt (by rw [BitVec.toNat_ofNat]; omega), BitVec.toNat_ofNat]
  omega

theorem Word.succ_le_of_mul? (hn : n < 2 ^ 31) {count bytes : Word}
    (hcount : add? (BitVec.ofNat 32 n) 1 = .ok count)
    (hbytes : mul? count size = .ok bytes) : n + 1 ≤ limit := by
  have hint := toInt_ofNat hn
  unfold add? at hcount
  split at hcount
  · cases hcount
  · next hadd =>
    cases hcount
    unfold mul? at hbytes
    split at hbytes
    · cases hbytes
    · next hmul =>
      have hone : (1 : Word).toInt = 1 := rfl
      have hsize : size.toInt = 4 := rfl
      rw [BitVec.smulOverflow, BitVec.toInt_add_of_not_saddOverflow hadd, hint, hone, hsize] at hmul
      simp only [Bool.or_eq_true, decide_eq_true_eq, not_or] at hmul
      rw [limit]
      omega

theorem SlotState.words_le_limit (hs : s.Within (2 ^ 31)) (h : slotBytes s = .ok w) :
    s.words ≤ SlotLayout.limit := by
  simp only [slotBytes, Outcome.bind_eq_ok] at h
  obtain ⟨height, hheight, bytes, hbytes, -⟩ := h
  cases hlast : s.filled.getLast? with
  | none =>
    simp only [words, hlast]
    exact Nat.zero_le _
  | some p =>
    simp only [SlotState.height, hlast] at hheight
    simp only [words, hlast]
    exact Word.succ_le_of_mul? (hs p (mem_of_getLast? hlast)) (Fault.liftM_eq_ok.mp hheight)
      (Fault.liftM_eq_ok.mp hbytes)

theorem Word.add?_one (h : n + 1 < 2 ^ 31) :
    add? (BitVec.ofNat 32 n) 1 = .ok (BitVec.ofNat 32 (n + 1)) := by
  have hone : (1 : Word).toInt = 1 := rfl
  rw [add?, if_neg]
  · rw [BitVec.ofNat_add]
    rfl
  · rw [BitVec.saddOverflow, toInt_ofNat (by omega), hone]
    simp only [Bool.or_eq_true, decide_eq_true_eq, not_or]
    omega

theorem Word.neg?_ofNat (h : n < 2 ^ 31) :
    neg? (BitVec.ofNat 32 n) = .ok (-BitVec.ofNat 32 n) ∧ (-BitVec.ofNat 32 n).toInt = -n := by
  have hno : (BitVec.ofNat 32 n).negOverflow = false := by
    rw [BitVec.negOverflow, toInt_ofNat h]
    simp only [beq_eq_false_iff_ne]
    omega
  refine ⟨?_, ?_⟩
  · rw [neg?, hno]
    rfl
  · rw [BitVec.toInt_neg_of_not_negOverflow (by rw [hno]; nofun), toInt_ofNat h]

theorem Word.mul?_size (hlow : -(2 ^ 29) ≤ w.toInt) (hhigh : w.toInt < 2 ^ 29) :
    mul? w size = .ok (w * size) := by
  have hsize : size.toInt = 4 := rfl
  rw [mul?, if_neg]
  rw [BitVec.smulOverflow, hsize]
  simp only [Bool.or_eq_true, decide_eq_true_eq, not_or]
  omega

theorem SlotLayout.checkedOffset_eq_ok (h : p < limit) : checkedOffset p = .ok (Word.below p) := by
  rw [limit] at h
  have hadd := Word.add?_one (show p + 1 < 2 ^ 31 by omega)
  obtain ⟨hneg, hint⟩ := Word.neg?_ofNat (show p + 1 < 2 ^ 31 by omega)
  have hmul : Word.mul? (-BitVec.ofNat 32 (p + 1)) Word.size = _ :=
    Word.mul?_size (by omega) (by omega)
  have hok : checkedOffset p = .ok (-BitVec.ofNat 32 (p + 1) * Word.size) :=
    Outcome.bind_eq_ok.mpr ⟨_, Fault.liftM_eq_ok.mpr hadd, Outcome.bind_eq_ok.mpr
      ⟨_, Fault.liftM_eq_ok.mpr hneg, Fault.liftM_eq_ok.mpr hmul⟩⟩
  rw [hok, eq_of_checkedOffset hok]

theorem exists_slotBytes (h : s.words < SlotLayout.limit) : ∃ w, slotBytes s = .ok w := by
  rw [SlotLayout.limit] at h
  have hheight : s.height = .ok (BitVec.ofNat 32 s.words) := by
    cases hlast : s.filled.getLast? with
    | none =>
      simp only [SlotState.height, SlotState.words, hlast]
      rfl
    | some p =>
      simp only [SlotState.height, SlotState.words, hlast] at h ⊢
      exact Fault.liftM_eq_ok.mpr (Word.add?_one (by omega))
  have hint := Word.toInt_ofNat (show s.words < 2 ^ 31 by omega)
  have hmul : Word.mul? (BitVec.ofNat 32 s.words) Word.size = _ := Word.mul?_size (by omega) (by omega)
  have hbytes : BitVec.ofNat 32 s.words * Word.size = BitVec.ofNat 32 (s.words * 4) :=
    (BitVec.ofNat_mul _ _).symm
  rw [hbytes] at hmul
  have hneg := (Word.neg?_ofNat (show s.words * 4 < 2 ^ 31 by omega)).1
  exact ⟨_, Outcome.bind_eq_ok.mpr ⟨_, hheight, Outcome.bind_eq_ok.mpr
    ⟨_, Fault.liftM_eq_ok.mpr hmul, Outcome.bind_eq_ok.mpr ⟨_, Fault.liftM_eq_ok.mpr hneg, rfl⟩⟩⟩⟩

theorem SlotLayout.overflowsOnly_checkedOffset (p : Nat) : (checkedOffset p).OverflowsOnly :=
  .bind (.add? _ _) fun _ _ => .bind (.neg? _) fun _ _ => .mul? _ _

theorem overflowsOnly_slotBytes (s : SlotState) : (slotBytes s).OverflowsOnly := by
  have hheight : s.height.OverflowsOnly := by
    unfold SlotState.height
    split
    · exact .ok 0
    · exact .add? _ _
  exact .bind hheight fun _ _ => .bind (.mul? _ _) fun _ _ => .bind (.neg? _) fun _ _ => .pure _

/-! ## Whole bodies -/

/-- What the expansion of a body depends on. -/
def bodyContext (frame? : Option Frame) (clobbers : ClobberTable) (code : Code) (l : Liveness) :
    ExpansionContext where
  code := code.toArray
  liveOut := l.liveOut
  labels := labelTable code
  layout := SlotLayout.ofCode code
  frame? := frame?
  clobbers := clobbers

/-- Where the expansion of a body starts: a function keeps its entry label in front of its frame. -/
def bodyStart (frame? : Option Frame) (code : Code) : Nat :=
  match frame?, code with
  | some _, i :: _ => if i.isLabel then 1 else 0
  | _, _ => 0

/-- What stands in front of an expanded body: the entry label of a function, and its frame. -/
def bodyFront (frame? : Option Frame) (code : Code) : Code :=
  match frame? with
  | some f => code.take (bodyStart frame? code) ++ f.prologue
  | none => []

theorem bodyStart_le_length (frame? : Option Frame) (code : Code) :
    bodyStart frame? code ≤ code.length := by
  unfold bodyStart
  split
  · rw [length_cons]
    split <;> omega
  · exact Nat.zero_le _

theorem bodyStart_le {frame? : Option Frame} {code : Code} (hi : code[p]? = some i)
    (hl : i.isLabel = false) : bodyStart frame? code ≤ p := by
  unfold bodyStart
  split
  · next j code _ =>
    split
    · next hj =>
      cases p with
      | zero =>
        cases hi
        rw [hj] at hl
        cases hl
      | succ p => exact Nat.succ_le_succ (Nat.zero_le p)
    · exact Nat.zero_le p
  · exact Nat.zero_le p

theorem mem_bodyFront {frame? : Option Frame} {code : Code} {k : Instr} (hk : k ∈ bodyFront frame? code) :
    (∃ f, frame? = some f ∧ k ∈ f.prologue) ∨ k ∈ code ∧ k.isLabel = true := by
  cases frame? with
  | none => cases hk
  | some f =>
    rcases mem_append.mp hk with hk | hk
    · refine .inr ⟨mem_of_mem_take hk, ?_⟩
      cases code with
      | nil => cases hk
      | cons i code =>
        cases hlabel : i.isLabel with
        | true =>
          simp only [bodyStart, hlabel, if_true, take_succ_cons, take_zero] at hk
          rw [mem_singleton.mp hk, hlabel]
        | false =>
          simp only [bodyStart, hlabel, Bool.false_eq_true, if_false, take_zero] at hk
          cases hk
    · exact .inl ⟨f, rfl, hk⟩

theorem expand_eq (frame? : Option Frame) (clobbers : ClobberTable) (stack : SlotState) (code : Code) :
    expand frame? clobbers stack code = Liveness.ofCode code >>= fun l =>
      expandRange (bodyContext frame? clobbers code l) (bodyStart frame? code) code.length stack >>=
        fun r => pure (bodyFront frame? code ++ r.1, r.2) := by
  rw [expand]
  refine congrArg _ (funext fun l => ?_)
  cases frame? with
  | none =>
    change expandRange (bodyContext none clobbers code l) 0 code.length stack = _
    rw [show bodyStart none code = 0 from rfl]
    cases expandRange (bodyContext none clobbers code l) 0 code.length stack <;> rfl
  | some f =>
    cases code with
    | nil =>
      have hempty : expandRange (bodyContext (some f) clobbers [] l) 0 0 stack = .ok ([], stack) :=
        expandRange_of_le (Nat.le_refl 0) stack
      change _ = expandRange (bodyContext (some f) clobbers [] l) 0 0 stack >>= _
      rw [hempty, ok_bind, append_nil]
      rfl
    | cons i code =>
      cases hlabel : i.isLabel with
      | true =>
        simp only [hlabel, if_true, bodyStart, bodyFront, take_succ_cons, take_zero]
        rfl
      | false =>
        simp only [hlabel, Bool.false_eq_true, if_false, bodyStart, bodyFront, take_zero]
        rfl

theorem expand_iff {frame? : Option Frame} {clobbers : ClobberTable} {code : Code} :
    expand frame? clobbers stack code = .ok (out, stack') ↔
      ∃ l part, Liveness.ofCode code = .ok l ∧
        expandRange (bodyContext frame? clobbers code l) (bodyStart frame? code) code.length stack =
          .ok (part, stack') ∧ out = bodyFront frame? code ++ part := by
  simp only [expand_eq, bind_eq_ok, pure_eq_ok, Prod.mk.injEq, Prod.exists]
  constructor
  · rintro ⟨l, hl, part, _, hx, rfl, rfl⟩
    exact ⟨l, part, hl, hx, rfl⟩
  · rintro ⟨l, part, hl, hx, rfl⟩
    exact ⟨l, hl, part, stack', hx, rfl, rfl⟩

section Bodies

variable {frame? : Option Frame} {clobbers : ClobberTable} {code : Code} {l : Liveness}

theorem expands_body_of {P : SlotState → Prop} (hmeet : ∀ {s} t, P s → P (s.meet t))
    (hstep : ∀ {position i s block s'}, P s →
      expandInstr (bodyContext frame? clobbers code l) position i s = .ok (block, s') → P s')
    (hs : P stack) (h : expandRange (bodyContext frame? clobbers code l) (bodyStart frame? code)
      code.length stack = .ok (out, stack')) :
    Expands (fun i block => ∃ position s s', P s ∧
        expandInstr (bodyContext frame? clobbers code l) position i s = .ok (block, s'))
      (code.drop (bodyStart frame? code)) out := by
  have hexp := (expands_expandRange_of hmeet hstep hs h).1
  rwa [show (bodyContext frame? clobbers code l).code.toList = code from rfl, extract_eq_take_drop,
    take_of_length_le (Nat.le_of_eq length_drop)] at hexp

theorem expands_body (h : expandRange (bodyContext frame? clobbers code l) (bodyStart frame? code)
      code.length stack = .ok (out, stack')) :
    Expands (fun i block => ∃ position s s', ExpansionOf (bodyContext frame? clobbers code l)
      position i s block s') (code.drop (bodyStart frame? code)) out :=
  (expands_body_of (P := fun _ => True) (fun _ h => h) (fun h _ => h) trivial h).mono
    fun ⟨position, s, s', _, hx⟩ => ⟨position, s, s', expandInstr_iff.mp hx⟩

theorem expansionBlocks_body (h : expandRange (bodyContext frame? clobbers code l)
      (bodyStart frame? code) code.length .empty = .ok (out, stack')) :
    Expands (ExpansionBlock (bodyContext frame? clobbers code l)) (code.drop (bodyStart frame? code))
      out := by
  refine expands_body_of (fun t hs => hs.meet t) (fun hs hi => ?_) (SlotState.within_empty _) h
  cases expandInstr_iff.mp hi with
  | store _ hslot _ => exact hs.fill (position?_lt (ExpansionContext.slot_eq_ok hslot).2.2)
  | _ => exact hs

theorem mem_drop_bodyStart (hi : i ∈ code) (hl : i.isLabel = false) :
    i ∈ code.drop (bodyStart frame? code) := by
  obtain ⟨p, hp⟩ := mem_iff_getElem?.mp hi
  have hle : bodyStart frame? code ≤ p := bodyStart_le hp hl
  rw [← Nat.add_sub_cancel' hle, ← getElem?_drop] at hp
  exact mem_of_getElem? hp

theorem Instr.isLabel_of_slot? {slot : String} (h : i.slot? = some slot) : i.isLabel = false := by
  rw [slot?, Option.ite_none_right_eq_some] at h
  rw [isLabel]
  rcases h.1 with hop | hop <;> rw [hop] <;> rfl

/-- A body that is expanded has no more slots than offsets reach, whatever slots are filled before. -/
theorem size_bodyContext_le (h : expandRange (bodyContext frame? clobbers code l)
      (bodyStart frame? code) code.length stack = .ok (out, stack')) :
    (bodyContext frame? clobbers code l).layout.size ≤ limit := by
  refine size_layout_le_of rfl fun i hi slot hslot => ?_
  obtain ⟨block, position, s, s', hx⟩ :=
    (expands_body h).exists_of_mem (mem_drop_bodyStart hi (isLabel_of_slot? hslot))
  exact ⟨position, s, _, expandInstr_iff.mpr hx⟩

end Bodies

end ClosureCodegen
