import ClosureCodegen.Optimizer.Shorthand
import ClosureCodegen.Proofs.Optimizer.Tidy

/-!
# Peephole cleanup keeps the effect of code

Each of the peephole rules replaces one or two straight instructions by others of the same effect.
That a move undoes another, or that a sum can be folded into an offset, depends on what the first of
the two has written: both rules would be wrong for a destination that cannot be written, the register
`x0`, which tidy code does not have.
-/

namespace ClosureCodegen
open List

variable {i sum access : Instr}

theorem Opcode.family_of_isMove {op : Opcode} (h : op.isMove = true) : op.family = .unary := by
  cases op <;> first | rfl | cases h

theorem Opcode.family_of_base? {op : Opcode} {base : Nat} (h : op.base? = some base) :
    op.family = .load ∧ base = 1 ∨ op.family = .store ∧ base = 0 := by
  cases op <;> cases h
  · exact .inl ⟨rfl, rfl⟩
  · exact .inl ⟨rfl, rfl⟩
  · exact .inr ⟨rfl, rfl⟩
  · exact .inr ⟨rfl, rfl⟩

theorem sameName_eq_true {a b : Instr} {k m : Nat} (h : sameName a k b m = true) :
    ∃ r s, a.reg? k = some r ∧ b.reg? m = some s ∧ r.name = s.name := by
  unfold sameName at h
  split at h
  · next r s hr hs => exact ⟨r, s, hr, hs, beq_iff_eq.mp h⟩
  · cases h

namespace Instr

/-- An instruction that the rules do not look at, or one that has the operands of its opcode and
does not move anything or add anything up into `x0`. -/
structure IsClean (i : Instr) : Prop where
  fits : i.op.isMove = true ∨ i.op = .addi ∨ i.op.base?.isSome = true → i.op.family.Fits i.operands
  zero : i.op.isMove = true ∨ i.op = .addi → ∀ d ∈ i.reg? 0, d.names .zero = false

theorem IsTidy.isClean (hi : i.IsTidy) : i.IsClean where
  fits _ := fits_of_decodes hi.decodes
  zero hop d hd := Bool.eq_false_iff.mpr fun hz => by
    have hmem : d ∈ i.defs := by
      obtain ⟨op, os⟩ := i
      cases os with
      | nil => cases hd
      | cons o os =>
        cases o <;> cases hd
        cases op <;> simp_all [Opcode.isMove, defs, Opcode.effect, regs]
    rcases hi.zero d hmem hz with h | h <;> rw [h] at hop <;> rcases hop with hop | hop <;> cases hop

namespace IsClean

theorem nop : Instr.nop.IsClean where
  fits h := by rcases h with h | h | h <;> cases h
  zero h := by rcases h with h | h <;> cases h

variable (hi : i.IsClean)
include hi

/-- A clean move has two registers, and the one it writes is not `x0`. -/
theorem move_operands (hm : i.op.isMove = true) :
    ∃ d s : Reg, i = ⟨i.op, [.reg d, .reg s]⟩ ∧ d.names .zero = false := by
  have hfit := hi.fits (.inl hm)
  rw [Opcode.family_of_isMove hm] at hfit
  obtain ⟨d, s, ho⟩ := hfit
  exact ⟨d, s, by rw [← ho], hi.zero (.inl hm) d (by rw [reg?, ho]; rfl)⟩

/-- A clean addition of a constant has two registers, and the one it writes is not `x0`. -/
theorem addi_operands (hop : i.op = .addi) :
    ∃ (d s : Reg) (w : Word), i = ⟨.addi, [.reg d, .reg s, .imm w]⟩ ∧ d.names .zero = false := by
  have hfit := hi.fits (.inr (.inl hop))
  rw [hop] at hfit
  obtain ⟨d, s, w, ho⟩ := hfit
  exact ⟨d, s, w, by rw [← ho, ← hop], hi.zero (.inr hop) d (by rw [reg?, ho]; rfl)⟩

theorem isStraight_of_isMove (hm : i.op.isMove = true) : i.IsStraight := by
  obtain ⟨d, s, hie, -⟩ := hi.move_operands hm
  obtain ⟨op, os⟩ := i
  cases hie
  cases op <;> first | exact ⟨rfl, rfl, rfl⟩ | cases hm

theorem isStraight_of_addi (hop : i.op = .addi) : i.IsStraight := by
  obtain ⟨d, s, w, rfl, -⟩ := hi.addi_operands hop
  exact ⟨rfl, rfl, rfl⟩

end IsClean

theorem isStraight_of_load {op : Opcode} (hf : op.family = .load) (d b : Reg) (o : Word) :
    (⟨op, [.reg d, .reg b, .imm o]⟩ : Instr).IsStraight := by
  cases op <;> first | exact ⟨rfl, rfl, rfl⟩ | cases hf

theorem isStraight_of_store {op : Opcode} (hf : op.family = .store) (b s : Reg) (o : Word) :
    (⟨op, [.reg b, .reg s, .imm o]⟩ : Instr).IsStraight := by
  cases op <;> first | exact ⟨rfl, rfl, rfl⟩ | cases hf

theorem isStraight_nop : nop.IsStraight := IsTidy.nop.isStraight rfl nofun

end Instr

open Instr

/-! ## The rules -/

theorem sameEffect_selfMove (hi : i.IsClean) (hm : i.isSelfMove = true) :
    SameEffect [i] [.nop] := by
  simp only [isSelfMove, Bool.and_eq_true] at hm
  obtain ⟨hmove, hname⟩ := hm
  have hst := hi.isStraight_of_isMove hmove
  refine ⟨nofun, by simpa using hst, by simpa using isStraight_nop, fun env h => ?_⟩
  obtain ⟨d, s, hie, -⟩ := hi.move_operands hmove
  obtain ⟨r, r', hr, hr', hn⟩ := sameName_eq_true hname
  rw [hie] at hr hr'
  cases hr
  cases hr'
  rw [effectOf_cons, effectOf_cons, hie, effect_move hmove, Hart.set_get_self hn]
  rfl

theorem sameEffect_undoes {next : Instr} (hi : i.IsClean) (hnext : next.IsClean)
    (hu : undoes i next = true) : SameEffect [i, next] [i, .nop] := by
  simp only [undoes, Bool.and_eq_true, decide_eq_true_eq] at hu
  obtain ⟨⟨⟨hmove, hop⟩, hname⟩, hname'⟩ := hu
  have hmove' : next.op.isMove = true := by rw [hop, hmove]
  have hst := hi.isStraight_of_isMove hmove
  refine ⟨nofun, by simpa using ⟨hst, hnext.isStraight_of_isMove hmove'⟩,
    by simpa using ⟨hst, isStraight_nop⟩, fun env h => ?_⟩
  obtain ⟨d, s, hie, hd⟩ := hi.move_operands hmove
  obtain ⟨s', d', hne, -⟩ := hnext.move_operands hmove'
  obtain ⟨r, r', hr, hr', hdd⟩ := sameName_eq_true hname
  obtain ⟨q, q', hq, hq', hss⟩ := sameName_eq_true hname'
  rw [hie] at hr hq
  rw [hne] at hr' hq'
  cases hr
  cases hr'
  cases hq
  cases hq'
  simp only [effectOf_cons, effectOf_nil]
  rw [hie, hne, effect_move hmove', effect_move hmove]
  -- behind the first move both registers hold the same
  have hboth : (h.set d (h.get s)).get d' = (h.set d (h.get s)).get s' := by
    rw [← Hart.get_congr hdd, Hart.get_set_self hd, ← Hart.get_congr hss]
    by_cases hn : s.name = d.name
    · rw [Hart.get_congr (q := s) hn, Hart.get_congr (q := s) hn, Hart.get_set_self hd]
    · rw [Hart.get_set_of_ne hn]
  rw [hboth, Hart.set_get_self rfl]
  rfl

theorem sameEffect_addsNothing (hi : i.IsClean) (ha : i.addsNothing = true) :
    SameEffect [i] [] := by
  simp only [addsNothing, Bool.and_eq_true, decide_eq_true_eq] at ha
  obtain ⟨⟨hop, hname⟩, himm⟩ := ha
  have hst := hi.isStraight_of_addi hop
  refine ⟨nofun, by simpa using hst, nofun, fun env h => ?_⟩
  obtain ⟨d, s, w, hie, -⟩ := hi.addi_operands hop
  obtain ⟨r, r', hr, hr', hn⟩ := sameName_eq_true hname
  rw [hie] at hr hr' himm
  cases hr
  cases hr'
  cases himm
  rw [effectOf_cons, hie, effect_addi]
  simp [Hart.set_get_self hn]

theorem sameEffect_nop (hi : i.IsTidy) (hop : i.op = .nop) : SameEffect [i] [] := by
  have hst : i.IsStraight := hi.isStraight (by rw [hop]; rfl) (by rw [hop]; nofun)
  refine ⟨nofun, by simpa using hst, nofun, fun env h => ?_⟩
  rw [effectOf_cons, effect_of_run (run_of_idle (by rw [hop]; rfl) env h).2]

theorem foldOffset_cases (sum access : Instr) : foldOffset sum access = access ∨
    ∃ d s k base b offset, sum.reg? 0 = some d ∧ sum.reg? 1 = some s ∧ sum.imm? 2 = some k ∧
      access.op.base? = some base ∧ access.reg? base = some b ∧ access.imm? 2 = some offset ∧
      s.names .stackPointer = false ∧ d.name ≠ s.name ∧ b.name = d.name ∧
      foldOffset sum access = (access.setOperand base s).setOperand 2 (offset + k) := by
  unfold foldOffset
  split
  · next d s k base hd hs hk hbase =>
    split
    · exact .inl rfl
    · next hn =>
      simp only [Bool.or_eq_true, beq_iff_eq, not_or, Bool.not_eq_true] at hn
      split
      · next b offset hb ho =>
        split
        · next hbd =>
          exact .inr ⟨d, s, k, base, b, offset, hd, hs, hk, hbase, hb, ho, hn.1.2, hn.2,
            beq_iff_eq.mp hbd, rfl⟩
        · exact .inl rfl
      · exact .inl rfl
  · exact .inl rfl

theorem address_foldOffset {h : Hart} {d s b : Reg} {k offset : Word} (hd : d.names .zero = false)
    (hds : d.name ≠ s.name) (hbd : b.name = d.name) :
    (h.set d (h.get s + k)).get s + (offset + k) = (h.set d (h.get s + k)).get b + offset := by
  rw [Hart.get_set_of_ne hds.symm, Hart.get_congr hbd, Hart.get_set_self hd]
  ac_rfl

theorem exists_of_foldOffset_ne (hsum : sum.IsClean) (hop : sum.op = .addi)
    (haccess : access.IsClean) (hne : foldOffset sum access ≠ access) :
    ∃ (d s b r : Reg) (k offset : Word), sum = ⟨.addi, [.reg d, .reg s, .imm k]⟩ ∧
      d.names .zero = false ∧ d.name ≠ s.name ∧ b.name = d.name ∧
      (access.op.family = .load ∧ access = ⟨access.op, [.reg r, .reg b, .imm offset]⟩ ∧
          foldOffset sum access = ⟨access.op, [.reg r, .reg s, .imm (offset + k)]⟩ ∨
        access.op.family = .store ∧ access = ⟨access.op, [.reg b, .reg r, .imm offset]⟩ ∧
          foldOffset sum access = ⟨access.op, [.reg s, .reg r, .imm (offset + k)]⟩) := by
  rcases foldOffset_cases sum access with heq | ⟨d, s, k, base, b, offset, hd, hs, hk, hbase, hb,
    ho, hsp, hds, hbd, heq⟩
  · exact absurd heq hne
  obtain ⟨d', s', k', hse, hz⟩ := hsum.addi_operands hop
  rw [hse] at hd hs hk
  cases hd
  cases hs
  cases hk
  have hfit := haccess.fits (.inr (.inr (by rw [hbase]; rfl)))
  rw [heq]
  clear heq hne haccess
  obtain ⟨op, os⟩ := access
  rcases Opcode.family_of_base? hbase with ⟨hf, rfl⟩ | ⟨hf, rfl⟩
  · rw [hf] at hfit
    obtain ⟨r, q, o, hos⟩ := hfit
    simp only at hos
    subst hos
    cases hb
    cases ho
    exact ⟨d, s, b, r, k, offset, hse, hz, hds, hbd, .inl ⟨hf, rfl, rfl⟩⟩
  · rw [hf] at hfit
    obtain ⟨q, r, o, hos⟩ := hfit
    simp only at hos
    subst hos
    cases hb
    cases ho
    exact ⟨d, s, b, r, k, offset, hse, hz, hds, hbd, .inr ⟨hf, rfl, rfl⟩⟩

/-- An access at the sum of a register and a constant, and the same access with the sum folded. -/
theorem sameEffect_foldOffset (hsum : sum.IsClean) (hop : sum.op = .addi) (haccess : access.IsClean)
    (hne : foldOffset sum access ≠ access) :
    SameEffect [sum, access] [sum, foldOffset sum access] := by
  have hst := hsum.isStraight_of_addi hop
  obtain ⟨d, s, b, r, k, o, hse, hz, hds, hbd, ⟨hf, hac, hfold⟩ | ⟨hf, hac, hfold⟩⟩ :=
    exists_of_foldOffset_ne hsum hop haccess hne
  · rw [hfold, hac]
    refine ⟨nofun, by simpa using ⟨hst, isStraight_of_load hf ..⟩,
      by simpa using ⟨hst, isStraight_of_load hf ..⟩, fun env h => ?_⟩
    simp only [effectOf_cons, effectOf_nil]
    rw [hse, effect_addi, effect_load hf, effect_load hf, address_foldOffset hz hds hbd]
  · rw [hfold, hac]
    refine ⟨nofun, by simpa using ⟨hst, isStraight_of_store hf ..⟩,
      by simpa using ⟨hst, isStraight_of_store hf ..⟩, fun env h => ?_⟩
    simp only [effectOf_cons, effectOf_nil]
    rw [hse, effect_addi, effect_store hf, effect_store hf, address_foldOffset hz hds hbd]

/-! ## The passes -/

/-- A kind of clean instructions that the rules keep. -/
structure IsKept (P : Instr → Prop) : Prop where
  clean : ∀ {i}, P i → i.IsClean
  nop : P .nop
  fold : ∀ {sum access}, P sum → sum.op = .addi → P access → P (foldOffset sum access)

theorem isKept_isTidy : IsKept IsTidy where
  clean := IsTidy.isClean
  nop := .nop
  fold {sum access} hsum hop haccess := by
    by_cases hne : foldOffset sum access = access
    · rwa [hne]
    obtain ⟨d, s, b, r, k, o, hse, hz, hds, hbd, ⟨hf, hac, hfold⟩ | ⟨hf, hac, hfold⟩⟩ :=
      exists_of_foldOffset_ne hsum.isClean hop haccess.isClean hne
    · rw [hac] at haccess
      exact hfold ▸ (isTidy_load hf).mpr ((isTidy_load hf).mp haccess)
    · rw [hac] at haccess
      exact hfold ▸ (isTidy_store hf).mpr ((isTidy_store hf).mp haccess)

theorem isKept_isClean : IsKept IsClean where
  clean := id
  nop := .nop
  fold {sum access} hsum hop haccess := by
    by_cases hne : foldOffset sum access = access
    · rwa [hne]
    obtain ⟨d, s, b, r, k, o, hse, hz, hds, hbd, ⟨hf, hac, hfold⟩ | ⟨hf, hac, hfold⟩⟩ :=
      exists_of_foldOffset_ne hsum hop haccess hne
    all_goals
      rw [hfold]
      refine ⟨fun _ => ?_, ?_⟩
      · rw [hf]
        exact ⟨_, _, _, rfl⟩
      · rintro (hm | hm)
        · cases hf.symm.trans (Opcode.family_of_isMove hm)
        · rw [show access.op = _ from hm] at hf
          cases hf

section Passes

variable {P : Instr → Prop} {code : Code}

/-- One instruction takes the place of another. -/
def Replaces (R : Instr → Instr → Prop) (i : Instr) (block : Code) : Prop :=
  ∃ k, block = [k] ∧ R i k

/-- An instruction stays, unless it is a move that does nothing or an access that a sum is folded
into. -/
theorem expands_peepholePairs {R : Instr → Instr → Prop} (hrefl : ∀ {i}, P i → R i i)
    (htrans : ∀ {i j k}, R i j → R j k → R i k) (hnop : P .nop)
    (hmove : ∀ {i}, P i → i.op.isMove = true → R i .nop)
    (hfold : ∀ {sum access}, P sum → P access →
      P (foldOffset sum access) ∧ R access (foldOffset sum access)) (hcode : ∀ i ∈ code, P i) :
    Expands (Replaces R) code (peepholePairs code) := by
  have hself : ∀ {i}, P i → i.isSelfMove = true → R i .nop := fun hi hm =>
    hmove hi (Bool.and_eq_true_iff.mp hm).1
  have hhead : ∀ {i k code out}, R i k → Expands (Replaces R) (k :: code) out →
      Expands (Replaces R) (i :: code) out := by
    rintro i k code _ hik (_ | ⟨⟨j, hblock, hkj⟩, hrest⟩)
    exact .cons ⟨j, hblock, htrans hik hkj⟩ hrest
  fun_induction peepholePairs code with
  | case1 => exact .nil
  | case2 i =>
    rw [forall_mem_singleton] at hcode
    have hi : R i (if i.isSelfMove then .nop else i) := by
      split
      · next hm => exact hself hcode hm
      · exact hrefl hcode
    exact Expands.cons (B := Replaces R) ⟨_, rfl, hi⟩ .nil
  | case3 i next code hm ih =>
    rw [forall_mem_cons] at hcode
    exact .cons ⟨_, rfl, hself hcode.1 hm⟩ (ih hcode.2)
  | case4 i next code hm hu ih =>
    simp only [forall_mem_cons] at hcode ih
    simp only [undoes, Bool.and_eq_true, decide_eq_true_eq] at hu
    have hnext := hmove hcode.2.1 (hu.1.1.2 ▸ hu.1.1.1)
    exact .cons ⟨i, rfl, hrefl hcode.1⟩ (hhead hnext (ih ⟨hnop, hcode.2.2⟩))
  | case5 i next code hm hu hop ih =>
    simp only [forall_mem_cons] at hcode ih
    have hnext := hfold hcode.1 hcode.2.1
    exact .cons ⟨i, rfl, hrefl hcode.1⟩ (hhead hnext.2 (ih ⟨hnext.1, hcode.2.2⟩))
  | case6 i next code hm hu hop ih =>
    rw [forall_mem_cons] at hcode
    exact .cons ⟨i, rfl, hrefl hcode.1⟩ (ih hcode.2)

theorem simplifies_peepholePairs (hP : IsKept P) (hcode : ∀ i ∈ code, P i) :
    Simplifies P code (peepholePairs code) := by
  fun_induction peepholePairs code with
  | case1 => exact .refl []
  | case2 i =>
    split
    · next hm =>
      exact .front (sameEffect_selfMove (hP.clean (hcode i mem_cons_self)) hm)
        (by simpa using hP.nop) []
    · exact .refl [i]
  | case3 i next code hm ih =>
    rw [forall_mem_cons] at hcode
    exact (Simplifies.front (sameEffect_selfMove (hP.clean hcode.1) hm) (by simpa using hP.nop) _).trans
      (.cons _ (ih hcode.2))
  | case4 i next code hm hu ih =>
    simp only [forall_mem_cons] at hcode ih
    obtain ⟨hi, hnext, hcode⟩ := hcode
    exact (Simplifies.front (sameEffect_undoes (hP.clean hi) (hP.clean hnext) hu)
      (by simpa using ⟨hi, hP.nop⟩) code).trans (.cons i (ih ⟨hP.nop, hcode⟩))
  | case5 i next code hm hu hop ih =>
    simp only [forall_mem_cons] at hcode ih
    obtain ⟨hi, hnext, hcode⟩ := hcode
    have hfold := hP.fold hi hop hnext
    by_cases heq : foldOffset i next = next
    · rw [heq] at ih ⊢
      exact .cons i (ih ⟨hnext, hcode⟩)
    · have hs := sameEffect_foldOffset (hP.clean hi) hop (hP.clean hnext) heq
      exact (Simplifies.front hs (by simpa using ⟨hi, hfold⟩) code).trans
        (.cons i (ih ⟨hfold, hcode⟩))
  | case6 i next code hm hu hop ih =>
    rw [forall_mem_cons] at hcode
    exact .cons i (ih hcode.2)

theorem simplifies_filter {keep : Instr → Bool}
    (hdrop : ∀ i ∈ code, keep i = false → SameEffect [i] []) :
    Simplifies P code (code.filter keep) := by
  induction code with
  | nil => exact .refl []
  | cons i code ih =>
    rw [forall_mem_cons] at hdrop
    cases hk : keep i with
    | true =>
      rw [filter_cons_of_pos hk]
      exact .cons i (ih hdrop.2)
    | false =>
      rw [filter_cons_of_neg (by rw [hk]; nofun)]
      exact (Simplifies.front (hdrop.1 hk) nofun code).trans (ih hdrop.2)

theorem simplifies_deleteNops (hcode : ∀ i ∈ code, i.IsTidy) :
    Simplifies IsTidy code (deleteNops code) := by
  refine simplifies_filter fun i hi hk => sameEffect_nop (hcode i hi) ?_
  simpa using hk

theorem simplifies_peephole (hP : IsKept P) (hcode : ∀ i ∈ code, P i) :
    Simplifies P code (peephole code) := by
  have hpairs := simplifies_peepholePairs hP hcode
  refine hpairs.trans (simplifies_filter fun i hi hk => ?_)
  exact sameEffect_addsNothing (hP.clean (hpairs.forall_mem hcode i hi)) (by simpa using hk)

end Passes

end ClosureCodegen
