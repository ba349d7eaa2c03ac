import Mathlib.Logic.Function.Iterate
import ClosureCodegen.Allocation.DeadDefinition
import ClosureCodegen.Proofs.Execution.Blocks

/-!
# What deleting dead definitions leaves

Deletion goes on in rounds, and each round looks at what is used in the body that is left.  Over
all rounds there is a set of *kept* variables, those that are used in the body of every round.  An
instruction is deleted, or loses its destination, only if it defines no kept variable; and the
instructions that stay use kept variables only.

Deletion comes to rest after at most as many rounds as the code has weight.  What is left has no dead
definition, and the variables it reads are just the kept ones, so that none of them has lost a
definition.  This needs calls to have their destination in front: it is the first operand that a call
loses.
-/

namespace ClosureCodegen
open List

variable {r : Reg} {op : Opcode} {i : Instr}

theorem mem_usedAnywhere {code : Code} : r ∈ usedAnywhere code ↔ ∃ i ∈ code, r ∈ i.trackedUses := by
  rw [usedAnywhere, LiveSet.mem_ofList, mem_flatMap]

theorem Opcode.isValue_of_isPure (h : op.isPure = true) : op.family.isValue = true := by
  cases op <;> first | rfl | cases h

/-- A call with a result, and the call without. -/
inductive DropsResult : Opcode → Opcode → Prop where
  | direct : DropsResult .callDirectResult .callDirect
  | closure : DropsResult .callClosureResult .callClosure

/-- What is left of an instruction, given the kept variables. -/
inductive PruneBlock (K : Reg → Prop) (i : Instr) : Code → Prop where
  | keep : (∀ r ∈ i.trackedUses, K r) → PruneBlock K i [i]
  | delete : i.op.isPure = true → i.trackedDefs ≠ [] → (∀ r ∈ i.trackedDefs, ¬K r) →
    PruneBlock K i []
  | drop {op : Opcode} : DropsResult i.op op → i.trackedDefs ≠ [] →
    (∀ r ∈ i.trackedDefs, ¬K r) → (∀ r ∈ i.trackedUses, K r) →
    PruneBlock K i [⟨op, i.operands.drop 1⟩]

theorem DropsResult.trackedUses_subset (h : DropsResult i.op op) (hr : r ∈ i.trackedUses) :
    r ∈ (⟨op, i.operands.drop 1⟩ : Instr).trackedUses := by
  have hregs : ∀ os : List Operand, (os.filterMap Operand.reg?).drop 1 ⊆
      (os.drop 1).filterMap Operand.reg? := by
    intro os r hr
    cases os with
    | nil => exact absurd hr not_mem_nil
    | cons o os =>
      cases ho : o.reg? with
      | none =>
        rw [filterMap_cons_none ho] at hr
        exact mem_of_mem_drop hr
      | some q =>
        rw [filterMap_cons_some ho] at hr
        exact hr
  rw [Instr.trackedUses, mem_filter] at hr ⊢
  refine ⟨?_, hr.2⟩
  obtain ⟨iop, os⟩ := i
  cases h with
  | direct => exact hregs os hr.1
  | closure => exact hregs os hr.1

theorem pruneBlock_withoutUnread {used : LiveSet} (hu : ∀ r ∈ i.trackedUses, r ∈ used) :
    PruneBlock (· ∈ used) i (i.withoutUnread used).toList := by
  unfold Instr.withoutUnread
  split
  · next h =>
    rw [Instr.isUnread, Bool.and_eq_true, Bool.not_eq_true', all_eq_true] at h
    have hne : i.trackedDefs ≠ [] := fun he => by simp [he] at h
    have hno : ∀ r ∈ i.trackedDefs, ¬ r ∈ used := fun r hr => of_decide_eq_true (h.2 r hr)
    split
    · next hop => exact .drop (hop ▸ .direct) hne hno hu
    · next hop => exact .drop (hop ▸ .closure) hne hno hu
    · split
      · next hp => exact .delete hp hne hno
      · exact .keep hu
  · exact .keep hu

theorem expands_dropUnread (code : Code) :
    Expands (PruneBlock (· ∈ usedAnywhere code)) code (dropUnread code) := by
  have h : ∀ (used : LiveSet) (code : Code), (∀ i ∈ code, ∀ r ∈ i.trackedUses, r ∈ used) →
      Expands (PruneBlock (· ∈ used)) code (code.filterMap (Instr.withoutUnread used)) := by
    intro used code hu
    induction code with
    | nil => exact .nil
    | cons i code ih =>
      have hi := pruneBlock_withoutUnread (hu i mem_cons_self)
      have hrest := ih fun k hk => hu k (mem_cons_of_mem i hk)
      rw [filterMap_cons]
      cases hw : i.withoutUnread used with
      | none =>
        rw [hw] at hi
        exact .cons hi hrest
      | some k =>
        rw [hw] at hi
        exact .cons hi hrest
  exact h _ _ fun i hi r hr => mem_usedAnywhere.mpr ⟨i, hi, hr⟩

theorem PruneBlock.comp {K K' : Reg → Prop} {block block' : Code} (h : PruneBlock K i block)
    (hu : ∀ r ∈ i.trackedUses, K r) (h' : Expands (PruneBlock K') block block') :
    PruneBlock (fun r => K r ∧ K' r) i block' := by
  cases h with
  | keep _ =>
    rcases h' with _ | ⟨hi, _ | _⟩
    rw [append_nil]
    cases hi with
    | keep hk => exact .keep fun r hr => ⟨hu r hr, hk r hr⟩
    | delete hp hne hno => exact .delete hp hne fun r hr hk => hno r hr hk.2
    | drop hop hne hno hk =>
      exact .drop hop hne (fun r hr hk => hno r hr hk.2) fun r hr => ⟨hu r hr, hk r hr⟩
  | delete hp hne hno =>
    rcases h' with _ | _
    exact .delete hp hne fun r hr hk => hno r hr hk.1
  | @drop op hop hne hno _ =>
    rcases h' with _ | ⟨hi, _ | _⟩
    rw [append_nil]
    cases hi with
    | keep hk =>
      exact .drop hop hne (fun r hr hk => hno r hr hk.1)
        fun r hr => ⟨hu r hr, hk r (hop.trackedUses_subset hr)⟩
    | delete hp _ _ =>
      generalize i.op = iop at hop
      cases hop <;> cases hp
    | drop hop' _ _ _ =>
      generalize i.op = iop at hop
      cases hop <;> cases hop'

theorem exists_expands_removeDeadDefinitions (code : Code) :
    ∃ K : Reg → Prop, Expands (PruneBlock K) code (removeDeadDefinitions code) ∧
      ∀ r, K r → r ∈ usedAnywhere (removeDeadDefinitions code) := by
  fun_induction removeDeadDefinitions code with
  | case1 code next h =>
    refine ⟨(· ∈ usedAnywhere code), ?_, fun r hr => hr⟩
    have hexp := expands_dropUnread code
    rwa [show dropUnread code = code from h] at hexp
  | case2 code next h ih =>
    obtain ⟨K, hexp, hK⟩ := ih
    refine ⟨fun r => r ∈ usedAnywhere code ∧ K r, ?_, fun r hr => hK r hr.2⟩
    refine (expands_dropUnread code).comp hexp fun {i block block'} hi hb hb' => ?_
    exact hb.comp (fun r hr => mem_usedAnywhere.mpr ⟨i, hi, hr⟩) hb'

theorem DropsResult.family {op₁ op₂ : Opcode} (h : DropsResult op₁ op₂) :
    op₁.family = .callResult ∧ op₂.family = .call := by
  cases h <;> exact ⟨rfl, rfl⟩

theorem DropsResult.exec {env : Environment} {a : Word} {m : Machine} {e : Execution}
    (hop : DropsResult i.op op) (he : i.exec env a m = some e) :
    ∃ r v e₀, i.defs = [r] ∧ (⟨op, i.operands.drop 1⟩ : Instr).defs = [] ∧
      (⟨op, i.operands.drop 1⟩ : Instr).uses = i.uses ∧
      (⟨op, i.operands.drop 1⟩ : Instr).exec env a m = some e₀ ∧
      (r ≠ heapReg → e = { e₀ with machine := e₀.machine.set r v }) := by
  obtain ⟨d, fx, hd, hfx, rfl⟩ := Instr.exec_eq_some.mp he
  have hfamily := hop.family
  obtain ⟨r, t, args, hos, rfl⟩ := Instr.decode?_callResult hfamily.1 hd
  have hd₀ : (⟨op, i.operands.drop 1⟩ : Instr).decode? =
      some ⟨.call t.label? false, t.reads args, []⟩ := by
    simp only [hos, drop_one, tail_cons, Instr.decode?, hfamily.2,
      CallSite.targetAndArgs?_operand, Option.map_some]
  have hw : [r] = i.defs :=
    Instr.decode?_writes (Instr.idleLanesZero_of_family (by rw [hfamily.1]; nofun)) hd
  have hr : t.reads args = i.uses := Instr.decode?_reads hd
  have hr₀ : t.reads args = (⟨op, i.operands.drop 1⟩ : Instr).uses := Instr.decode?_reads hd₀
  obtain ⟨⟨callee, values⟩, hc, rfl⟩ := Option.map_eq_some_iff.mp hfx
  refine ⟨r, (env.call callee values m.heap).1, _, hw.symm,
    (Instr.decode?_writes (Instr.idleLanesZero_of_family (by rw [hfamily.2]; nofun)) hd₀).symm,
    hr₀.symm.trans hr,
    Instr.exec_eq_some.mpr ⟨_, _, hd₀, Option.map_eq_some_iff.mpr ⟨_, hc, rfl⟩, rfl⟩,
    fun hh => ?_⟩
  rw [Decoded.finish, if_neg (fun hmem => hh (mem_singleton.mp hmem).symm)]
  rfl

variable {code left : Code} {K : Reg → Prop}

/-- A call that returns a value has a register to put it in, in front of all other operands. -/
def Instr.HasDestination (i : Instr) : Prop :=
  ∀ op, DropsResult i.op op → ∃ r os, i.operands = .reg r :: os

/-- Some instruction of a body reads a variable. -/
def IsReadIn (code : Code) (r : Reg) : Prop := ∃ k ∈ code, r ∈ k.trackedUses

/-! ## Rounds -/

theorem exists_rounds (code : Code) :
    ∃ n ≤ codeWeight code, removeDeadDefinitions code = dropUnread^[n] code := by
  fun_induction removeDeadDefinitions code with
  | case1 code next h => exact ⟨0, Nat.zero_le _, rfl⟩
  | case2 code next h ih =>
    obtain ⟨n, hn, heq⟩ := ih
    have hlt := (codeWeight_filterMap (usedAnywhere code) code).resolve_left h
    exact ⟨n + 1, Nat.lt_of_le_of_lt hn hlt, heq⟩

theorem dropUnread_removeDeadDefinitions (code : Code) :
    dropUnread (removeDeadDefinitions code) = removeDeadDefinitions code := by
  fun_induction removeDeadDefinitions code with
  | case1 code next h => exact h
  | case2 code next h ih => exact ih

theorem withoutUnread_eq_some {used : LiveSet} (h : code.filterMap (Instr.withoutUnread used) = code)
    (hi : i ∈ code) : i.withoutUnread used = some i := by
  induction code with
  | nil => cases hi
  | cons k code ih =>
    cases hk : k.withoutUnread used with
    | none =>
      rw [filterMap_cons_none hk] at h
      have hle := length_filterMap_le (Instr.withoutUnread used) code
      rw [h, length_cons] at hle
      omega
    | some j =>
      rw [filterMap_cons_some hk, cons.injEq] at h
      obtain ⟨rfl, h⟩ := h
      rcases mem_cons.mp hi with rfl | hi
      · exact hk
      · exact ih h hi

theorem exists_isReadIn_of_dropUnread_eq (h : dropUnread code = code) (hi : i ∈ code)
    (hop : i.op.isPure = true ∨ ∃ op, DropsResult i.op op) (hdefs : i.trackedDefs ≠ []) :
    ∃ r ∈ i.trackedDefs, IsReadIn code r := by
  have hkeep := withoutUnread_eq_some h hi
  by_contra hno
  have hunread : i.isUnread (usedAnywhere code) = true := by
    rw [Instr.isUnread, Bool.and_eq_true, Bool.not_eq_true', isEmpty_eq_false_iff, all_eq_true]
    exact ⟨hdefs, fun r hr => decide_eq_true fun hu => hno ⟨r, hr, mem_usedAnywhere.mp hu⟩⟩
  rw [Instr.withoutUnread, if_pos hunread] at hkeep
  split at hkeep
  · next h => cases (congrArg Instr.op (Option.some.inj hkeep)).trans h
  · next h => cases (congrArg Instr.op (Option.some.inj hkeep)).trans h
  · next hdirect hclosure =>
    rcases hop with hpure | ⟨op, hop⟩
    · cases (if_pos hpure).symm.trans hkeep
    · generalize i.op = iop at hop hdirect hclosure
      cases hop with
      | direct => exact hdirect rfl
      | closure => exact hclosure rfl

/-! ## Definitions of what is read -/

theorem DropsResult.trackedUses_subset_of_hasDestination (h : DropsResult i.op op)
    (hd : i.HasDestination) (hr : r ∈ (⟨op, i.operands.drop 1⟩ : Instr).trackedUses) :
    r ∈ i.trackedUses := by
  obtain ⟨q, os, hos⟩ := hd op h
  obtain ⟨iop, os'⟩ := i
  cases hos
  cases h with
  | direct => exact hr
  | closure => exact hr

theorem DropsResult.trackedDefs_eq_nil (h : DropsResult i.op op) (os : List Operand) :
    (⟨op, os⟩ : Instr).trackedDefs = [] := by
  generalize i.op = iop at h
  cases h <;> rfl

theorem Expands.kept_of_isReadIn (h : Expands (PruneBlock K) code left)
    (hd : ∀ i ∈ code, i.HasDestination) (hr : IsReadIn left r) : K r := by
  obtain ⟨k, hk, hu⟩ := hr
  induction h with
  | nil => cases hk
  | cons hblock _ ih =>
    obtain ⟨hi, hd⟩ := forall_mem_cons.mp hd
    rcases mem_append.mp hk with hk | hk
    · cases hblock with
      | keep hkept => exact hkept r (mem_singleton.mp hk ▸ hu)
      | delete => cases hk
      | drop hop _ _ hkept =>
        exact hkept r (hop.trackedUses_subset_of_hasDestination hi (mem_singleton.mp hk ▸ hu))
    · exact ih hd hk

theorem Expands.filter_defs_eq (h : Expands (PruneBlock K) code left) (hr : K r) :
    left.filter (r ∈ ·.trackedDefs) = code.filter (r ∈ ·.trackedDefs) := by
  induction h with
  | nil => rfl
  | @cons i block code left hblock _ ih =>
    have hgone (hno : ∀ r ∈ i.trackedDefs, ¬K r) :
        (i :: code).filter (r ∈ ·.trackedDefs) = code.filter (r ∈ ·.trackedDefs) :=
      filter_cons_of_neg fun h => hno r (of_decide_eq_true h) hr
    rw [filter_append, ih]
    cases hblock with
    | keep => rw [filter_cons, filter_cons, filter_nil]; split <;> rfl
    | delete _ _ hno => exact (hgone hno).symm
    | drop hop _ hno _ =>
      rw [hgone hno, filter_cons_of_neg]
      · rfl
      · simp [hop.trackedDefs_eq_nil]

/-- Dead definitions are removed in a bounded number of rounds. Pure instructions go, and calls lose
their destinations, if they define nothing that is read in what is left; everything else stays, and no
dead definition is left. Doing it again changes nothing. What is read in what is left has all the
definitions that it had. -/
theorem removeDeadDefinitions_exact (hd : ∀ i ∈ code, i.HasDestination) :
    (∃ n ≤ codeWeight code, removeDeadDefinitions code = dropUnread^[n] code) ∧
      Expands (PruneBlock (IsReadIn (removeDeadDefinitions code))) code
        (removeDeadDefinitions code) ∧
      (∀ i ∈ removeDeadDefinitions code, i.op.isPure = true ∨ (∃ op, DropsResult i.op op) →
        i.trackedDefs ≠ [] → ∃ r ∈ i.trackedDefs, IsReadIn (removeDeadDefinitions code) r) ∧
      removeDeadDefinitions (removeDeadDefinitions code) = removeDeadDefinitions code ∧
      ∀ r, IsReadIn (removeDeadDefinitions code) r →
        (removeDeadDefinitions code).filter (r ∈ ·.trackedDefs) =
          code.filter (r ∈ ·.trackedDefs) := by
  obtain ⟨K, hexp, hK⟩ := exists_expands_removeDeadDefinitions code
  have hrest := dropUnread_removeDeadDefinitions code
  -- what is kept during the rounds is what is read behind the last of them
  have hread : K = IsReadIn (removeDeadDefinitions code) :=
    funext fun r => propext ⟨fun h => mem_usedAnywhere.mp (hK r h), hexp.kept_of_isReadIn hd⟩
  subst hread
  refine ⟨exists_rounds code, hexp, fun i hi => exists_isReadIn_of_dropUnread_eq hrest hi, ?_,
    fun r hr => hexp.filter_defs_eq hr⟩
  rw [removeDeadDefinitions, if_pos hrest]

/-- A sum whose operands are needed for nothing else, and a call whose result nobody reads. -/
def unreadSum : Code :=
  let r := fun x => Operand.reg ⟨x, .int⟩
  [⟨.li, [r "x", .imm 1]⟩, ⟨.li, [r "y", .imm 2]⟩, ⟨.add, [r "z", r "x", r "y"]⟩,
    ⟨.callDirectResult, [r "w", .label "g", r "y"]⟩, ⟨.returnUnit, []⟩]

theorem removeDeadDefinitions_exact_unreadSum :
    (∀ i ∈ unreadSum, i.HasDestination) ∧
      removeDeadDefinitions unreadSum = [⟨.li, [.reg ⟨"y", .int⟩, .imm 2]⟩,
        ⟨.callDirect, [.label "g", .reg ⟨"y", .int⟩]⟩, ⟨.returnUnit, []⟩] ∧
      removeDeadDefinitions (removeDeadDefinitions unreadSum) = removeDeadDefinitions unreadSum := by
  have hd : ∀ i ∈ unreadSum, i.HasDestination := by
    simp only [unreadSum, forall_mem_cons]
    exact ⟨nofun, nofun, nofun, fun _ _ => ⟨_, _, rfl⟩, nofun, nofun⟩
  refine ⟨hd, ?_, (removeDeadDefinitions_exact hd).2.2.2.1⟩
  rw [removeDeadDefinitions, if_neg (by decide), removeDeadDefinitions, if_neg (by decide),
    removeDeadDefinitions, if_pos (by decide)]
  decide

end ClosureCodegen
