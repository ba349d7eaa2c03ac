import ClosureCodegen.Proofs.Execution.Blocks
import ClosureCodegen.Proofs.Liveness.LeastSolution
import ClosureCodegen.Proofs.Outcome

/-!
# Live registers along the ways that control can go

The machine has its control in front of the rest of a body, while the flow equations number the
instructions.  `LiveIn` is liveness as the machine sees it: in front of a rest, a register is live
if control can go from there to a use of it without passing a definition.

`mem_liveOut_of_liveIn` is what the allocator is built on: if a register is live wherever control
may go from an instruction, the solution has it behind that instruction.
-/

namespace ClosureCodegen
open List Outcome Instr FlowEquations

variable {code rest a : Code} {p q : Nat} {i : Instr} {r : Reg}

/-! ## Places -/

/-- The number of instructions in front of a rest. -/
def placeOf (code rest : Code) : Nat := code.length - rest.length

theorem placeOf_drop (h : p ≤ code.length) : placeOf code (code.drop p) = p := by
  rw [placeOf, length_drop]
  omega

theorem drop_placeOf (h : rest <:+ code) : code.drop (placeOf code rest) = rest := by
  obtain ⟨front, rfl⟩ := h
  rw [placeOf, length_append, Nat.add_sub_cancel, drop_left]

theorem getElem?_placeOf (h : i :: rest <:+ code) : code[placeOf code (i :: rest)]? = some i := by
  obtain ⟨front, rfl⟩ := h
  simp [placeOf]

theorem placeOf_tail (h : i :: rest <:+ code) :
    placeOf code rest = placeOf code (i :: rest) + 1 := by
  obtain ⟨front, rfl⟩ := h
  simp only [placeOf, length_append, length_cons]
  omega

theorem drop_of_getElem? (hi : code[p]? = some i) : code.drop p = i :: code.drop (p + 1) := by
  obtain ⟨hp, rfl⟩ := List.getElem?_eq_some_iff.mp hi
  exact drop_eq_getElem_cons hp

theorem suffix_of_getElem? (hi : code[p]? = some i) :
    i :: code.drop (p + 1) <:+ code ∧ placeOf code (i :: code.drop (p + 1)) = p := by
  rw [← drop_of_getElem? hi]
  refine ⟨drop_suffix _ _, placeOf_drop ?_⟩
  exact Nat.le_of_lt (List.getElem?_eq_some_iff.mp hi).1

theorem suffix_of_cons (h : i :: a <:+ code) : a <:+ code :=
  (suffix_cons i a).trans h

theorem suffix_of_append {b : Code} (h : a ++ b <:+ code) : b <:+ code :=
  (suffix_append a b).trans h

/-- The position of the label that counts. -/
def labelIndex? (l : String) : Code → Option Nat
  | [] => none
  | i :: code =>
    ((labelIndex? l code).map (· + 1)).or (if i.isLabel && i.label? = some l then some 0 else none)

theorem codeAfter?_eq (l : String) (code : Code) :
    codeAfter? l code = (labelIndex? l code).map fun p => code.drop (p + 1) := by
  induction code with
  | nil => rfl
  | cons i code ih =>
    rw [codeAfter?_cons, labelIndex?, ih]
    cases labelIndex? l code with
    | none =>
      simp only [Option.map_none, Option.none_or]
      split <;> rfl
    | some p => rfl

theorem lookup_labelsFrom (l : String) (found : LabelTable) (start : Nat) (code : Code) :
    (labelsFrom found start code).lookup l =
      ((labelIndex? l code).map (start + ·)).or (found.lookup l) := by
  induction code generalizing found start with
  | nil => rfl
  | cons i code ih =>
    rw [labelsFrom, labelIndex?]
    split
    · next k hi hk =>
      rw [ih, hi, hk, lookup_cons]
      cases labelIndex? l code with
      | none =>
        by_cases hl : k = l
        · simp [hl]
        · have hl' : (l == k) = false := beq_eq_false_iff_ne.mpr (Ne.symm hl)
          simp [hl, hl']
      | some p => simp [Nat.add_assoc, Nat.add_comm 1]
    · next hno =>
      have hskip : (i.isLabel && decide (i.label? = some l)) = false := by
        by_contra h
        rw [Bool.not_eq_false, Bool.and_eq_true, decide_eq_true_eq] at h
        exact hno l h.1 h.2
      rw [ih, hskip]
      cases labelIndex? l code with
      | none => rfl
      | some p => simp [Nat.add_assoc, Nat.add_comm 1]

theorem position?_labelTable (l : String) (code : Code) :
    (labelTable code).position? l = labelIndex? l code := by
  rw [LabelTable.position?, labelTable, lookup_labelsFrom]
  cases labelIndex? l code <;> simp

theorem lt_of_labelIndex? {l : String} (h : labelIndex? l code = some p) : p < code.length := by
  induction code generalizing p with
  | nil => cases h
  | cons i code ih =>
    rw [labelIndex?, Option.or_eq_some_iff, Option.map_eq_some_iff] at h
    rcases h with ⟨q, hq, rfl⟩ | ⟨_, h⟩
    · exact Nat.succ_lt_succ (ih hq)
    · split at h
      · obtain rfl := Option.some.inj h
        exact Nat.zero_lt_succ _
      · cases h

theorem codeAfter?_eq_some_iff {l : String} :
    codeAfter? l code = some rest ↔
    rest <:+ code ∧ ∃ p, (labelTable code).position? l = some p ∧ placeOf code rest = p + 1 := by
  simp only [position?_labelTable]
  constructor
  · intro h
    refine ⟨codeAfter?_suffix h, ?_⟩
    rw [codeAfter?_eq, Option.map_eq_some_iff] at h
    obtain ⟨p, hp, rfl⟩ := h
    exact ⟨p, hp, placeOf_drop (lt_of_labelIndex? hp)⟩
  · rintro ⟨hs, p, hp, hplace⟩
    rw [codeAfter?_eq, hp, Option.map_some, ← hplace, drop_placeOf hs]

/-! ## Real instructions -/

theorem nextReal?_of_isReal (hi : code[p]? = some i) (hr : i.isReal = true) :
    nextReal? code p = some p := by
  rw [nextReal?, drop_of_getElem? hi, findIdx?_cons, hr]
  rfl

theorem nextReal?_of_not_isReal (hi : code[p]? = some i) (hr : i.isReal = false) :
    nextReal? code p = nextReal? code (p + 1) := by
  rw [nextReal?, nextReal?, drop_of_getElem? hi, findIdx?_cons, hr]
  simp [Option.map_map, Function.comp_def, Nat.add_assoc, Nat.add_comm 1]

theorem nextReal?_eq_none (h : code.length ≤ p) : nextReal? code p = none := by
  rw [nextReal?, drop_eq_nil_of_le h]
  rfl

theorem isReal_of_nextReal? (h : nextReal? code p = some q) :
    ∃ i, code[q]? = some i ∧ i.isReal = true := by
  obtain ⟨k, hk, rfl⟩ := Option.map_eq_some_iff.mp h
  obtain ⟨hlt, hreal, _⟩ := findIdx?_eq_some_iff_getElem.mp hk
  rw [length_drop] at hlt
  refine ⟨_, getElem?_eq_getElem (by omega), ?_⟩
  rwa [getElem_drop] at hreal

theorem Instr.isReal_eq_false : i.isReal = false ↔ i.op = .label ∨ i.op = .comment := by
  simp only [isReal, Bool.not_eq_false', Bool.or_eq_true, decide_eq_true_eq]

theorem Instr.tracked_of_not_isReal (h : i.isReal = false) : i.trackedDefs = [] ∧ i.trackedUses = [] := by
  rcases isReal_eq_false.mp h with hop | hop <;>
    simp [trackedDefs, trackedUses, defs, uses, hop, Opcode.effect]

theorem Instr.op_of_not_isReal (hr : i.isReal = false) : i.op ≠ .j ∧ i.op.isBranch = false := by
  rcases isReal_eq_false.mp hr with hop | hop <;> rw [hop] <;> exact ⟨nofun, rfl⟩

theorem Follows.eq_of_not_isReal {rest' : Code} {t : Transfer} (hf : Follows code rest t rest')
    (hr : i.isReal = false) (ht : i.CanTransfer t) : rest' = rest := by
  obtain ⟨hj, hb⟩ := op_of_not_isReal hr
  cases t with
  | next => exact hf
  | branch l => exact absurd ht.1 (by rw [hb]; nofun)
  | jump l => exact absurd ht.1 hj
  | exit x => exact hf.elim

theorem Instr.isLabel_of_isReal (h : i.isReal = true) : i.isLabel = false := by
  simp only [isReal, Bool.not_eq_true', Bool.or_eq_false_iff] at h
  exact h.1

/-! ## Liveness in front of a rest -/

/-- Control can go from here to a use of the register without passing a definition. -/
inductive LiveIn (code : Code) (v : Reg) : Code → Prop where
  | use {i : Instr} {rest : Code} : v ∈ i.trackedUses → LiveIn code v (i :: rest)
  | flow {i : Instr} {rest rest' : Code} {t : Transfer} : v ∉ i.trackedDefs → i.CanTransfer t →
    Follows code rest t rest' → LiveIn code v rest' → LiveIn code v (i :: rest)

theorem LiveIn.exists_use (h : LiveIn code r rest) (hs : rest <:+ code) :
    ∃ i ∈ code, r ∈ i.trackedUses := by
  induction h with
  | use hu => exact ⟨_, hs.subset mem_cons_self, hu⟩
  | flow _ _ hf _ ih => exact ih (hf.suffix hs)

/-! ## The equations of a body -/

namespace FlowEquations

variable {eqs : FlowEquations} (h : ofCode code = .ok eqs)
include h

theorem ofCode_eq_ok : ∃ succs, successors code = .ok succs ∧
    eqs = ⟨(code.map fun i => LiveSet.ofList i.trackedDefs).toArray,
      (code.map fun i => LiveSet.ofList i.trackedUses).toArray, succs.toArray,
      (code.map isLabel).toArray⟩ := by
  simp only [ofCode, bind_eq_ok, pure_eq_ok] at h
  obtain ⟨succs, hs, rfl⟩ := h
  exact ⟨succs, hs, rfl⟩

theorem size_ofCode : eqs.size = code.length := by
  obtain ⟨succs, _, rfl⟩ := ofCode_eq_ok h
  simp [size]

theorem labels_ofCode (hi : code[p]? = some i) : eqs.labels.getD p true = i.isLabel := by
  obtain ⟨succs, _, rfl⟩ := ofCode_eq_ok h
  simp [Array.getD_eq_getD_getElem?, hi]

theorem mem_defs_ofCode (hi : code[p]? = some i) : r ∈ eqs.defs.getD p ∅ ↔ r ∈ i.trackedDefs := by
  obtain ⟨succs, _, rfl⟩ := ofCode_eq_ok h
  simp [Array.getD_eq_getD_getElem?, hi]

theorem mem_uses_ofCode (hi : code[p]? = some i) : r ∈ eqs.uses.getD p ∅ ↔ r ∈ i.trackedUses := by
  obtain ⟨succs, _, rfl⟩ := ofCode_eq_ok h
  simp [Array.getD_eq_getD_getElem?, hi]

end FlowEquations

/-- The next real instruction that control can go to: behind an instruction, or behind its label. -/
theorem exists_transfer_iff : (∃ t rest', i.CanTransfer t ∧ Follows code rest t rest' ∧
      nextReal? code (placeOf code rest') = some q) ↔
    (i.op ≠ .j ∧ nextReal? code (placeOf code rest) = some q) ∨
      (i.op = .j ∨ i.op.isBranch = true) ∧ ∃ l p, i.label? = some l ∧
        (labelTable code).position? l = some p ∧ nextReal? code (p + 1) = some q := by
  constructor
  · rintro ⟨t, rest', ht, hf, hq⟩
    have htarget : ∀ {l}, codeAfter? l code = some rest' →
        ∃ p, (labelTable code).position? l = some p ∧ nextReal? code (p + 1) = some q := fun hl => by
      obtain ⟨_, p, hp, hplace⟩ := codeAfter?_eq_some_iff.mp hl
      exact ⟨p, hp, hplace ▸ hq⟩
    cases t with
    | next => exact .inl ⟨ht, hf ▸ hq⟩
    | branch l => exact .inr ⟨.inr ht.1, l, (htarget hf).imp fun _ => .intro ht.2⟩
    | jump l => exact .inr ⟨.inl ht.1, l, (htarget hf).imp fun _ => .intro ht.2⟩
    | exit x => exact hf.elim
  · rintro (⟨hj, hq⟩ | ⟨hop, l, p, hl, hp, hq⟩)
    · exact ⟨.next, rest, hj, rfl, hq⟩
    · have hplace : placeOf code (code.drop (p + 1)) = p + 1 :=
        placeOf_drop (lt_of_labelIndex? ((position?_labelTable l code).symm.trans hp))
      have hafter : codeAfter? l code = some (code.drop (p + 1)) :=
        codeAfter?_eq_some_iff.mpr ⟨drop_suffix _ _, p, hp, hplace⟩
      rw [← hplace] at hq
      rcases hop with hop | hop
      · exact ⟨.jump l, _, ⟨hop, hl⟩, hafter, hq⟩
      · exact ⟨.branch l, _, ⟨hop, hl⟩, hafter, hq⟩

theorem mem_successorsOf {ns : List Nat} (hs : i :: rest <:+ code)
    (h : successorsOf code (labelTable code) i (placeOf code (i :: rest)) = .ok ns) :
    q ∈ ns ↔ ∃ t rest', i.CanTransfer t ∧ Follows code rest t rest' ∧
      nextReal? code (placeOf code rest') = some q := by
  rw [exists_transfer_iff]
  rw [successorsOf, ← placeOf_tail hs] at h
  split at h
  · next hj =>
    cases h
    simp only [hj, Option.mem_toList, Option.bind_assoc, Option.bind_eq_some_iff, true_or, true_and,
      ne_eq, not_true_eq_false, false_and, false_or, exists_and_left]
  · next hj =>
    simp only at h
    split at h
    · next hb =>
      simp only [bind_eq_ok] at h
      obtain ⟨target, htgt, h⟩ := h
      unfold branchTarget at htgt
      split at htgt
      · cases htgt
      · next l hl =>
        split at htgt <;> cases htgt
        next p hp =>
        simp only [hj, hb, hl, hp, not_false_eq_true, ne_eq, true_and, or_true, Option.some.injEq,
          ↓existsAndEq]
        split at h <;> cases h
        · next target htgt =>
          rw [htgt, Option.some.injEq]
          split
          · next hin =>
            rw [Option.mem_toList] at hin ⊢
            exact ⟨.inl, fun hq => hq.elim id fun he => he ▸ hin⟩
          · rw [mem_append, Option.mem_toList, mem_singleton, eq_comm (a := q)]
        · next hnone => simp [hnone]
    · next hb =>
      cases h
      simp [hj, hb]

theorem successorsOf_getD {succs : List (List Nat)} (hsucc : successors code = .ok succs)
    (hi : code[p]? = some i) :
    successorsOf code (labelTable code) i p = .ok (succs.getD p []) := by
  have hz : code.zipIdx[p]? = some (i, p) := by simp [hi]
  obtain ⟨ns, hns, hof⟩ := getElem?_of_forall₂ (mapM_eq_ok.mp hsucc) hz
  rw [getD_eq_getElem?_getD, hns, Option.getD_some]
  exact hof

theorem FlowEquations.next_ofCode {eqs : FlowEquations} (h : ofCode code = .ok eqs)
    (hi : code[p]? = some i) :
    successorsOf code (labelTable code) i p = .ok (eqs.next.getD p []) := by
  obtain ⟨succs, hs, rfl⟩ := ofCode_eq_ok h
  simpa [Array.getD_eq_getD_getElem?] using successorsOf_getD hs hi

/-- The edges of the flow graph are the transfers of control to the next real instruction. -/
theorem mem_successors {succs : List (List Nat)} (hsucc : successors code = .ok succs)
    (hs : i :: rest <:+ code) : q ∈ succs.getD (placeOf code (i :: rest)) [] ↔
      ∃ t rest', i.CanTransfer t ∧ Follows code rest t rest' ∧
        nextReal? code (placeOf code rest') = some q :=
  mem_successorsOf hs (successorsOf_getD hsucc (getElem?_placeOf hs))

theorem exists_getElem?_of_mem_successors {succs : List (List Nat)} (hsucc : successors code = .ok succs)
    (hq : q ∈ succs.getD p []) : ∃ i, code[p]? = some i := by
  by_contra hnone
  have hlen : succs.length = code.length := by
    rw [← (mapM_eq_ok.mp hsucc).length_eq, length_zipIdx]
  have hno : succs[p]? = none := by
    rw [List.getElem?_eq_none_iff, hlen, ← List.getElem?_eq_none_iff]
    exact Option.eq_none_iff_forall_ne_some.mpr fun i hi => hnone ⟨i, hi⟩
  rw [getD_eq_getElem?_getD, hno] at hq
  cases hq

/-! ## The solution along ways -/

section Solution

variable {l : Liveness} {v : Reg}

theorem Liveness.ofCode_eq_ok (h : ofCode code = .ok l) :
    ∃ eqs, FlowEquations.ofCode code = .ok eqs ∧ l = ⟨eqs, eqs.solve⟩ := by
  simp only [ofCode, Outcome.bind_eq_ok, Outcome.pure_eq_ok] at h
  obtain ⟨eqs, he, rfl⟩ := h
  exact ⟨eqs, he, rfl⟩

theorem Liveness.mem_liveIn (h : ofCode code = .ok l) (hi : code[p]? = some i) :
    v ∈ l.liveIn p ↔ (v ∈ l.liveOut p ∧ v ∉ i.trackedDefs) ∨ v ∈ i.trackedUses := by
  obtain ⟨eqs, he, rfl⟩ := ofCode_eq_ok h
  rw [liveIn, FlowEquations.mem_liveIn, FlowEquations.mem_defs_ofCode he hi,
    FlowEquations.mem_uses_ofCode he hi]
  rfl

theorem LiveIn.of_nextReal? (hs : rest <:+ code) (hq : nextReal? code (placeOf code rest) = some q)
    (h : LiveIn code v (code.drop q)) : LiveIn code v rest := by
  induction rest with
  | nil =>
    rw [nextReal?_eq_none (by simp [placeOf])] at hq
    cases hq
  | cons i rest ih =>
    have hi := getElem?_placeOf hs
    cases hr : i.isReal with
    | true =>
      rw [nextReal?_of_isReal hi hr] at hq
      cases hq
      rwa [drop_placeOf hs] at h
    | false =>
      rw [nextReal?_of_not_isReal hi hr, ← placeOf_tail hs] at hq
      refine .flow ?_ (t := .next) (op_of_not_isReal hr).1 rfl (ih ((suffix_cons i rest).trans hs) hq)
      rw [(tracked_of_not_isReal hr).1]
      exact not_mem_nil

theorem LiveIn.of_liveBehind {eqs : FlowEquations} (he : ofCode code = .ok eqs)
    (h : eqs.LiveBehind v p) (hi : code[p]? = some i) :
    ∃ t rest', i.CanTransfer t ∧ Follows code (code.drop (p + 1)) t rest' ∧
      LiveIn code v rest' := by
  -- a successor is reached over labels and comments
  have hedge : ∀ {p j i}, code[p]? = some i → j ∈ eqs.next.getD p [] → (∃ k, code[j]? = some k) ∧
      (LiveIn code v (code.drop j) → ∃ t rest', i.CanTransfer t ∧
        Follows code (code.drop (p + 1)) t rest' ∧ LiveIn code v rest') := by
    intro p j i hi hj
    obtain ⟨hs, hplace⟩ := suffix_of_getElem? hi
    have hsucc := next_ofCode he hi
    rw [← hplace] at hsucc hj
    obtain ⟨t, rest', ht, hf, hq⟩ := (mem_successorsOf hs hsucc).mp hj
    exact ⟨(isReal_of_nextReal? hq).imp fun _ h => h.1,
      fun hlive => ⟨t, rest', ht, hf, .of_nextReal? (hf.suffix hs) hq hlive⟩⟩
  induction h generalizing i with
  | @use p j _ hj hu =>
    obtain ⟨⟨k, hk⟩, hway⟩ := hedge hi hj
    refine hway ?_
    rw [drop_of_getElem? hk]
    exact .use ((mem_uses_ofCode he hk).mp hu)
  | @pass p j _ hj hd _ ih =>
    obtain ⟨⟨k, hk⟩, hway⟩ := hedge hi hj
    obtain ⟨t, rest', ht, hf, hlive⟩ := ih hk
    refine hway ?_
    rw [drop_of_getElem? hk]
    exact .flow (fun h => hd ((mem_defs_ofCode he hk).mpr h)) ht hf hlive

theorem Liveness.mem_liveOut_of_successor (h : ofCode code = .ok l) (hs : i :: rest <:+ code)
    (hl : i.isLabel = false) {t : Transfer} {rest' : Code} (ht : i.CanTransfer t)
    (hf : Follows code rest t rest') (hq : nextReal? code (placeOf code rest') = some q)
    (hv : v ∈ l.liveIn q) : v ∈ l.liveOut (placeOf code (i :: rest)) := by
  obtain ⟨eqs, he, rfl⟩ := ofCode_eq_ok h
  have hi := getElem?_placeOf hs
  have hlabel := (FlowEquations.labels_ofCode he hi).trans hl
  have hsucc := (mem_successorsOf hs (FlowEquations.next_ofCode he hi)).mpr ⟨t, rest', ht, hf, hq⟩
  refine FlowEquations.mem_solve_iff.mpr ?_
  rcases FlowEquations.mem_liveIn.mp hv with ⟨hout, hd⟩ | hu
  · exact .pass hlabel hsucc hd (FlowEquations.mem_solve_iff.mp hout)
  · exact .use hlabel hsucc hu

theorem LiveIn.exists_mem_liveIn (h : Liveness.ofCode code = .ok l) (hs : rest <:+ code)
    (hv : LiveIn code v rest) :
    ∃ q, nextReal? code (placeOf code rest) = some q ∧ v ∈ l.liveIn q := by
  induction hv with
  | @use i rest hu =>
    have hi := getElem?_placeOf hs
    cases hr : i.isReal with
    | true => exact ⟨_, nextReal?_of_isReal hi hr, (Liveness.mem_liveIn h hi).mpr (.inr hu)⟩
    | false =>
      rw [(tracked_of_not_isReal hr).2] at hu
      exact absurd hu not_mem_nil
  | @flow i rest rest' t hd ht hf _ ih =>
    have hi := getElem?_placeOf hs
    obtain ⟨q, hq, hlive⟩ := ih (hf.suffix hs)
    cases hr : i.isReal with
    | true =>
      have hout := Liveness.mem_liveOut_of_successor h hs (isLabel_of_isReal hr) ht hf hq hlive
      exact ⟨_, nextReal?_of_isReal hi hr, (Liveness.mem_liveIn h hi).mpr (.inl ⟨hout, hd⟩)⟩
    | false =>
      -- control goes on behind a label or a comment
      obtain rfl := hf.eq_of_not_isReal hr ht
      rw [nextReal?_of_not_isReal hi hr, ← placeOf_tail hs]
      exact ⟨q, hq, hlive⟩

/-- The solution behind an instruction has what is live wherever control can go from it. -/
theorem Liveness.mem_liveOut_iff (h : ofCode code = .ok l) (hs : i :: rest <:+ code)
    (hl : i.isLabel = false) : v ∈ l.liveOut (placeOf code (i :: rest)) ↔
      ∃ t rest', i.CanTransfer t ∧ Follows code rest t rest' ∧ LiveIn code v rest' := by
  constructor
  · intro hv
    obtain ⟨eqs, he, rfl⟩ := ofCode_eq_ok h
    have hway := LiveIn.of_liveBehind he (FlowEquations.mem_solve_iff.mp hv) (getElem?_placeOf hs)
    rwa [← placeOf_tail hs, drop_placeOf ((suffix_cons i rest).trans hs)] at hway
  · rintro ⟨t, rest', ht, hf, hlive⟩
    obtain ⟨q, hq, hv⟩ := hlive.exists_mem_liveIn h (hf.suffix hs)
    exact mem_liveOut_of_successor h hs hl ht hf hq hv

end Solution
end ClosureCodegen
