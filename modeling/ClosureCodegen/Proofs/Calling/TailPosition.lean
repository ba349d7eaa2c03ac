import ClosureCodegen.Proofs.Calling.TailSteps
import ClosureCodegen.Proofs.Code.Walks

/-!
# Which calls are in tail position

Behind a call in tail position the walk over jumps leads to a return of its result, or to a return
without a value.  The search for that return gives up after as many jumps as the body has
instructions, but a walk to an instruction is no longer than that: `reachesReturn_iff`.

Calls in tail position become tail calls, and nothing else changes.  The one thing that can go wrong
is a call with a result that has no operand to give up.
-/

namespace ClosureCodegen
open List

/-- From a position the walk leads to a return of a result, or to a return without a value. -/
def LeadsToReturn (code : Code) (p : Nat) (result : Option Reg) : Prop :=
  ∃ q k, (Move.go p).LeadsTo code (some (.instr q)) ∧ code[q]? = some k ∧
    (k.op = .returnUnit ∨ k.op = .returnValue ∧ result.isSome = true ∧ k.reg? 0 = result)

/-! ## The search -/

section Search

variable {code : Code} {result : Option Reg} {p q : Nat}

theorem LeadsToReturn.of_moveFrom (hm : moveFrom code p = .go q) (h : LeadsToReturn code q result) :
    LeadsToReturn code p result := by
  obtain ⟨r, k, hwalk, hk, hreturn⟩ := h
  have hstep : (Move.go p).follow code 1 = .go q := hm
  exact ⟨r, k, (Move.leadsTo_iff_of_follow hstep _).mp hwalk, hk, hreturn⟩

theorem leadsToReturn_of_reachesReturn {budget : Nat} {rest : Code} (hrest : code.drop p = rest)
    (h : reachesReturn code (labelTable code) result budget rest = true) :
    LeadsToReturn code p result := by
  have hfront : ∀ {p : Nat} {i : Instr} {tail : Code}, code.drop p = i :: tail →
      code[p]? = some i ∧ code.drop (p + 1) = tail := by
    intro p i tail hd
    constructor
    · rw [← head?_drop, hd, head?_cons]
    · rw [← tail_drop, hd, tail_cons]
  fun_induction reachesReturn code (labelTable code) result budget rest generalizing p with
  | case1 | case6 | case9 => cases h
  | case2 budget i rest hop ih | case3 budget i rest hop ih | case4 budget i rest hop ih =>
    obtain ⟨hi, htail⟩ := hfront hrest
    exact .of_moveFrom (moveFrom_of_isIdle hi (by rw [hop]; rfl)) (ih htail h)
  | case5 i rest hop budget t hposition ih =>
    obtain ⟨hi, -⟩ := hfront hrest
    obtain ⟨l, hl, ht⟩ := Option.bind_eq_some_iff.mp hposition
    have hmove : moveFrom code p = .go (t + 1) := by
      rw [moveFrom_of_jump hi hop hl, enter, ht]
    exact .of_moveFrom hmove (ih rfl h)
  | case7 budget i rest hop =>
    obtain ⟨hi, -⟩ := hfront hrest
    have hmove := moveFrom_of_busy hi (by rw [hop]; rfl) (by rw [hop]; rintro ⟨⟩)
    exact ⟨p, i, ⟨1, hmove⟩, hi, .inl hop⟩
  | case8 budget i rest hop =>
    obtain ⟨hi, -⟩ := hfront hrest
    have hmove := moveFrom_of_busy hi (by rw [hop]; rfl) (by rw [hop]; rintro ⟨⟩)
    rw [Bool.and_eq_true, decide_eq_true_eq] at h
    exact ⟨p, i, ⟨1, hmove⟩, hi, .inr ⟨hop, h⟩⟩

theorem reachesReturn_of_follow {k : Instr} (hk : code[q]? = some k)
    (hreturn : k.op = .returnUnit ∨ k.op = .returnValue ∧ result.isSome = true ∧ k.reg? 0 = result)
    {n budget : Nat} (hn : n ≤ budget) (h : (Move.go p).follow code n = .rest (.instr q)) :
    reachesReturn code (labelTable code) result budget (code.drop p) = true := by
  induction n generalizing p budget with
  | zero => cases h
  | succ n ih =>
    rw [Move.follow_go_succ] at h
    cases hi : code[p]? with
    | none => simp [moveFrom, hi] at h
    | some i =>
      rw [drop_of_getElem? hi]
      by_cases hidle : i.op.isIdle = true
      · rw [moveFrom_of_isIdle hi hidle] at h
        have hrest := ih (Nat.le_of_succ_le hn) h
        rw [reachesReturn.eq_def]
        cases hop : i.op <;> simp only [hop, hrest] <;> (rw [hop] at hidle; cases hidle)
      by_cases hjump : i.op = .j ∧ i.label?.isSome = true
      · obtain ⟨hop, l, hl⟩ := hjump.imp_right Option.isSome_iff_exists.mp
        obtain ⟨budget, rfl⟩ : ∃ b, budget = b + 1 := ⟨budget - 1, by omega⟩
        rw [moveFrom_of_jump hi hop hl, enter] at h
        cases ht : (labelTable code).position? l with
        | none => simp [ht] at h
        | some t =>
          rw [ht] at h
          have hrest := ih (Nat.le_of_succ_le_succ hn) h
          rw [reachesReturn.eq_def]
          simp only [hop, hl, Option.bind_some, ht, hrest]
      · have hmove := moveFrom_of_busy hi (Bool.eq_false_iff.mpr hidle) fun hop =>
          Option.not_isSome_iff_eq_none.mp fun hl => hjump ⟨hop, hl⟩
        rw [hmove, Move.follow_rest] at h
        cases h
        cases hi.symm.trans hk
        rw [reachesReturn.eq_def]
        rcases hreturn with hop | ⟨hop, hsome, hreg⟩
        · simp only [hop]
        · simp only [hop, hsome, hreg, decide_true, Bool.and_self]

theorem reachesReturn_iff :
    reachesReturn code (labelTable code) result code.length (code.drop p) = true ↔
      LeadsToReturn code p result := by
  refine ⟨leadsToReturn_of_reachesReturn rfl, ?_⟩
  rintro ⟨q, k, hwalk, hk, hreturn⟩
  obtain ⟨n, hn, hfollow⟩ := Move.exists_follow_le_length hwalk
  exact reachesReturn_of_follow hk hreturn hn hfollow

end Search

/-! ## The rewriting -/

/-- A call at a position of a body is in tail position. -/
def InTailPosition (code : Code) (p : Nat) (i : Instr) : Prop :=
  i.op.isCall = true ∧ i.isTail = false ∧ LeadsToReturn code (p + 1) i.callResult?

theorem tailCallAt?_eq_some_iff {code : Code} {p : Nat} {i t : Instr} :
    tailCallAt? code (labelTable code) i p = some t ↔
      InTailPosition code p i ∧ i.asTailCall? = some t := by
  rw [tailCallAt?, Option.filter_eq_some_iff, reachesReturn_iff]
  constructor
  · rintro ⟨ht, hreturn⟩
    obtain ⟨hcall, hno, -⟩ := Instr.of_asTailCall? ht
    exact ⟨⟨hcall, hno, hreturn⟩, ht⟩
  · rintro ⟨⟨-, -, hreturn⟩, ht⟩
    exact ⟨ht, hreturn⟩

theorem Instr.exists_asTailCall? {i : Instr} (hcall : i.op.isCall = true) (hno : i.isTail = false) :
    ∃ t, i.asTailCall? = some t := by
  rcases op_of_isCall hcall hno with h | h | h | h <;> exact ⟨_, by rw [asTailCall?, h]⟩

/-- Exactly the calls in tail position become tail calls, provided that each of them has the operand
that it gives up, and all else stays. -/
theorem makeTailCalls_exact {code : Code}
    (h : ∀ p i, code[p]? = some i → InTailPosition code p i → i.lacksResult = false) :
    ∃ out count, makeTailCalls code = .ok (out, count) ∧ out.length = code.length ∧
      ∀ p i, code[p]? = some i → ∃ k, out[p]? = some k ∧
        (InTailPosition code p i ∧ k.isTail = true ∧ i.asTailCall? = some k ∨
          ¬InTailPosition code p i ∧ k = i) := by
  have hlacks : ∀ p i, code[p]? = some i →
      (tailCallAt? code (labelTable code) i p).isSome = true → i.lacksResult = false := by
    intro p i hi hsome
    obtain ⟨t, ht⟩ := Option.isSome_iff_exists.mp hsome
    exact h p i hi (tailCallAt?_eq_some_iff.mp ht).1
  obtain ⟨count, hmake⟩ := exists_makeTailCalls hlacks
  refine ⟨_, count, hmake, length_tailPart code 0 code, fun p i hi => ⟨tailAt code p i, ?_, ?_⟩⟩
  · rw [getElem?_tailPart, hi, Option.map_some, Nat.zero_add]
  · rw [tailAt]
    cases ht : tailCallAt? code (labelTable code) i p with
    | some t =>
      obtain ⟨htail, has⟩ := tailCallAt?_eq_some_iff.mp ht
      exact .inl ⟨htail, (Instr.of_asTailCall? has).2.2, has⟩
    | none =>
      refine .inr ⟨fun htail => ?_, rfl⟩
      obtain ⟨t, has⟩ := Instr.exists_asTailCall? htail.1 htail.2.1
      cases ht.symm.trans (tailCallAt?_eq_some_iff.mpr ⟨htail, has⟩)

/-- A call in one arm of a conditional, with its return behind both arms, and a circle of jumps. -/
def callInFirstArm : Code :=
  [.labelled "f", .branch .beq (.int "a1") (.int "x0") "then1",
   ⟨.callDirectResult, [.reg (.int "a2"), .label "g", .reg (.int "a1")]⟩, .jump "endif1",
   .labelled "then1", ⟨.callClosure, [.reg (.int "a3")]⟩, .labelled "loop", .jump "loop",
   .labelled "endif1", ⟨.returnValue, [.reg (.int "a2")]⟩]

theorem makeTailCalls_exact_callInFirstArm :
    (∀ i ∈ callInFirstArm, i.lacksResult = false) ∧
      ∃ out count, makeTailCalls callInFirstArm = .ok (out, count) ∧ out.length = 10 ∧
        ∃ k, out[2]? = some k ∧ k.isTail = true := by
  have hlacks : ∀ i ∈ callInFirstArm, i.lacksResult = false := by decide
  obtain ⟨out, count, hmake, hlength, hcalls⟩ :=
    makeTailCalls_exact fun p i hi _ => hlacks i (mem_of_getElem? hi)
  refine ⟨hlacks, out, count, hmake, hlength, ?_⟩
  obtain ⟨k, hk, ⟨-, htail, -⟩ | ⟨hno, -⟩⟩ := hcalls 2 _ rfl
  · exact ⟨k, hk, htail⟩
  · exact absurd ⟨rfl, rfl, 9, _, ⟨4, rfl⟩, rfl, .inr ⟨rfl, rfl, rfl⟩⟩ hno

/-- A call with a result that is in tail position and has no operands is a fault. -/
theorem makeTailCalls_callWithoutOperands :
    InTailPosition [⟨.callDirectResult, []⟩, ⟨.returnUnit, []⟩] 0 ⟨.callDirectResult, []⟩ ∧
      makeTailCalls [⟨.callDirectResult, []⟩, ⟨.returnUnit, []⟩] =
        .error (.fault .missingOperand) := by
  have htail : InTailPosition [⟨.callDirectResult, []⟩, ⟨.returnUnit, []⟩] 0
      ⟨.callDirectResult, []⟩ := ⟨rfl, rfl, 1, _, ⟨1, rfl⟩, rfl, .inl rfl⟩
  have hcall := tailCallAt?_eq_some_iff.mpr ⟨htail, rfl⟩
  refine ⟨htail, ?_⟩
  simp only [makeTailCalls, markTailCalls, zipIdx_cons, map_cons, hcall]
  rfl

end ClosureCodegen
