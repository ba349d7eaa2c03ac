import ClosureCodegen.Proofs.Execution.Correspondence

/-!
# Replacing instructions by blocks

A pass that works on one instruction at a time replaces each by a *block*, a short list that may be
empty.  Labels stay what they are and no others appear, so that a jump in the new body arrives at
the block of the instruction at which it arrives in the old one; and a block has a parameter if the
instruction is one, so that parameters keep their numbers.

`Expands.behavesLike` reduces such a pass to what one block does: given an invariant between the
machines in front of corresponding places, it is enough to run the block of one instruction.
-/

namespace ClosureCodegen
open List

variable {l : String} {block code rest rest' a b : Code} {i : Instr} {env : Environment}
  {m : Machine} {e e' : Execution} {B' : Instr → Code → Prop} {es : List Event}

/-! ## Where control goes -/

/-- Where control arrives from in front of the rest of a body. -/
def Follows (code rest : Code) : Transfer → Code → Prop
  | .next, rest' => rest' = rest
  | .branch l, rest' => codeAfter? l code = some rest'
  | .jump l, rest' => codeAfter? l code = some rest'
  | .exit _, _ => False

theorem codeAfter?_cons (l : String) (i : Instr) (code : Code) :
    codeAfter? l (i :: code) =
      (codeAfter? l code).or (if i.isLabel && i.label? = some l then some code else none) := by
  rw [codeAfter?]
  cases codeAfter? l code <;> rfl

theorem codeAfter?_append_of_not_isLabel (h : ∀ k ∈ block, k.isLabel = false) :
    codeAfter? l (block ++ code) = codeAfter? l code := by
  induction block with
  | nil => rfl
  | cons k block ih =>
    rw [cons_append, codeAfter?_cons, ih fun j hj => h j (mem_cons_of_mem k hj),
      h k mem_cons_self]
    cases codeAfter? l code <;> rfl

theorem codeAfter?_suffix (h : codeAfter? l code = some rest) : rest <:+ code := by
  induction code with
  | nil => cases h
  | cons i code ih =>
    rw [codeAfter?_cons, Option.or_eq_some_iff] at h
    rcases h with h | ⟨_, h⟩
    · exact (ih h).trans (suffix_cons i code)
    · split at h
      · obtain rfl := Option.some.inj h
        exact suffix_cons i _
      · cases h

theorem Follows.suffix {t : Transfer} (h : Follows code rest t rest') (hs : i :: rest <:+ code) :
    rest' <:+ code := by
  cases t with
  | next => exact h ▸ (suffix_cons i rest).trans hs
  | branch l => exact codeAfter?_suffix h
  | jump l => exact codeAfter?_suffix h
  | exit x => exact h.elim

/-! ## Running a block -/

/-- Executes instructions one after another, as long as control stays with them. -/
def execBlock (env : Environment) (a : Word) : Code → Machine → Option Execution
  | [], m => some ⟨m, [], .next⟩
  | i :: code, m =>
    (i.exec env a m).bind fun e =>
      if e.transfer = .next then
        (execBlock env a code e.machine).map fun e' => { e' with events := e.events ++ e'.events }
      else some e

@[simp] theorem execBlock_nil (env : Environment) (a : Word) (m : Machine) :
    execBlock env a [] m = some ⟨m, [], .next⟩ := rfl

theorem execBlock_cons_next {a : Word} (h : i.exec env a m = some e) (ht : e.transfer = .next)
    (h' : execBlock env a code e.machine = some e') :
    execBlock env a (i :: code) m = some { e' with events := e.events ++ e'.events } := by
  rw [execBlock, h, Option.bind_some, if_pos ht, h', Option.map_some]

@[simp] theorem execBlock_singleton (env : Environment) (a : Word) (i : Instr) (m : Machine) :
    execBlock env a [i] m = i.exec env a m := by
  rw [execBlock]
  cases h : i.exec env a m with
  | none => rfl
  | some e =>
    rw [Option.bind_some]
    split
    · next ht =>
      rw [execBlock_nil, Option.map_some, append_nil, ← ht]
    · rfl

theorem Instr.exec_arriving (h : i.isParam = false) (a b : Word) (m : Machine) :
    i.exec env a m = i.exec env b m := by
  simp only [Instr.exec]
  cases hd : i.decode? with
  | none => rfl
  | some d =>
    have hp : d.operation ≠ .param := operation_ne_param hd (of_decide_eq_false h)
    simp only [Option.bind_some, Decoded.exec, Operation.perform_arriving hp a b]

theorem execBlock_arriving (h : block.countP Instr.isParam = 0) (a b : Word) (m : Machine) :
    execBlock env a block m = execBlock env b block m := by
  induction block generalizing m with
  | nil => rfl
  | cons i block ih =>
    rw [countP_eq_zero] at h
    have hi : i.isParam = false := Bool.eq_false_iff.mpr (h i mem_cons_self)
    have hb : block.countP Instr.isParam = 0 :=
      countP_eq_zero.mpr fun k hk => h k (mem_cons_of_mem i hk)
    simp only [execBlock, Instr.exec_arriving hi a b, ih hb]

/-- Where a run stands after a step. -/
def Progress.stretch {C X E : Type} : Progress C X E → Stretch C X E
  | .stuck => ⟨[], .stuck⟩
  | .exit events x => ⟨events, .exited x⟩
  | .next events c => ⟨events, .running c⟩

theorem runFor_one {C X E : Type} (step : C → Progress C X E) (c : C) :
    runFor step 1 c = (step c).stretch := by
  cases h : step c with
  | stuck => exact runFor_succ_stuck h 0
  | exit es x => exact runFor_succ_exit h 0
  | next es d =>
    rw [runFor_succ_next h, runFor_zero, append_nil]
    rfl

theorem step_cons (h : i.exec env (env.incoming (paramsBefore code (i :: rest))) m = some e) :
    step env code ⟨i :: rest, m⟩ = e.continueIn code rest := by
  simp only [step, h]

theorem Execution.continueIn_of_ne_next (h : e.transfer ≠ .next) (code rest rest' : Code) :
    e.continueIn code rest = e.continueIn code rest' := by
  unfold continueIn
  split
  · next ht => exact absurd ht h
  · rfl
  · rfl
  · rfl

theorem Execution.stretch_prepend (events : List Event)
    (h : { e with events := events ++ e.events }.continueIn code rest ≠ .stuck) :
    e.continueIn code rest ≠ .stuck ∧
      ({ e with events := events ++ e.events }.continueIn code rest).stretch =
        ⟨events ++ (e.continueIn code rest).stretch.events,
          (e.continueIn code rest).stretch.status⟩ := by
  obtain ⟨m, events', t⟩ := e
  cases t with
  | next => exact ⟨nofun, rfl⟩
  | branch l => cases hl : codeAfter? l code <;> simp_all [continueIn, Progress.stretch]
  | jump l => cases hl : codeAfter? l code <;> simp [continueIn, hl, Progress.stretch]
  | exit x => exact ⟨nofun, rfl⟩

theorem runFor_execBlock (hne : block ≠ []) (hp : block.countP Instr.isParam ≤ 1)
    (he : execBlock env (env.incoming (paramsBefore code (block ++ rest))) block m = some e)
    (hstuck : e.continueIn code rest ≠ .stuck) :
    ∃ k, runFor (step env code) (k + 1) ⟨block ++ rest, m⟩ = (e.continueIn code rest).stretch := by
  induction block generalizing m e with
  | nil => exact absurd rfl hne
  | cons i block ih =>
    rw [execBlock, Option.bind_eq_some_iff] at he
    obtain ⟨e₁, h₁, he⟩ := he
    have hs : step env code ⟨i :: (block ++ rest), m⟩ = e₁.continueIn code (block ++ rest) :=
      step_cons h₁
    rw [cons_append]
    split at he
    · next ht =>
      obtain ⟨e₂, h₂, rfl⟩ := Option.map_eq_some_iff.mp he
      obtain ⟨hstuck₂, hstretch⟩ := Execution.stretch_prepend e₁.events hstuck
      have hnext : step env code ⟨i :: (block ++ rest), m⟩ =
          .next e₁.events ⟨block ++ rest, e₁.machine⟩ := by
        rw [hs, Execution.continueIn, ht]
      rw [hstretch]
      by_cases hb : block = []
      · subst hb
        cases h₂
        refine ⟨0, ?_⟩
        rw [runFor_one, hnext]
        simp [Execution.continueIn, Progress.stretch]
      · -- what arrives in the block is what arrives in front of the rest of it
        have h₂' : execBlock env (env.incoming (paramsBefore code (block ++ rest))) block
            e₁.machine = some e₂ := by
          rw [← h₂]
          cases hi : i.isParam with
          | true =>
            rw [countP_cons_of_pos hi] at hp
            exact execBlock_arriving (Nat.le_zero.mp (Nat.le_of_succ_le_succ hp)) _ _ _
          | false =>
            simp only [cons_append, paramsBefore, countP_cons_of_neg (Bool.eq_false_iff.mp hi)]
        rw [countP_cons] at hp
        obtain ⟨k, hk⟩ := ih hb (by omega) h₂' hstuck₂
        refine ⟨k + 1, ?_⟩
        rw [runFor_succ_next hnext, hk]
    · next ht =>
      cases he
      refine ⟨0, ?_⟩
      rw [runFor_one, hs, Execution.continueIn_of_ne_next ht]

/-! ## Passes that work on one instruction at a time -/

/-- Every instruction of the first body is replaced by a block. -/
inductive Expands (B : Instr → Code → Prop) : Code → Code → Prop where
  | nil : Expands B [] []
  | cons {i : Instr} {block code code' : Code} :
    B i block → Expands B code code' → Expands B (i :: code) (block ++ code')

/-- Labels stay what they are, and no others appear. -/
structure KeepsLabels (B : Instr → Code → Prop) : Prop where
  label : ∀ {i block}, B i block → i.isLabel = true →
    ∃ k, block = [k] ∧ k.isLabel = true ∧ k.label? = i.label?
  noLabel : ∀ {i block}, B i block → i.isLabel = false → ∀ k ∈ block, k.isLabel = false

/-- Labels and parameters stay what they are. -/
structure Faithful (B : Instr → Code → Prop) : Prop extends KeepsLabels B where
  params : ∀ {i block}, B i block → block.countP Instr.isParam = [i].countP Instr.isParam

namespace Expands

variable {B : Instr → Code → Prop} {code' : Code}

theorem mono_of_mem (hB : ∀ {i block}, i ∈ code → B i block → B' i block) (h : Expands B code code') :
    Expands B' code code' := by
  induction h with
  | nil => exact .nil
  | cons hi _ ih =>
    exact .cons (hB mem_cons_self hi) (ih fun hk => hB (mem_cons_of_mem _ hk))

theorem mono (hB : ∀ {i block}, B i block → B' i block) (h : Expands B code code') :
    Expands B' code code' :=
  h.mono_of_mem fun _ => hB

theorem forall_mem {P : Instr → Prop} (hB : ∀ {i block}, B i block → ∀ k ∈ block, P k)
    (h : Expands B code code') : ∀ k ∈ code', P k := by
  induction h with
  | nil => exact nofun
  | cons hi _ ih => exact forall_mem_append.mpr ⟨hB hi, ih⟩

theorem append {a' b' : Code} (ha : Expands B a a') (hb : Expands B b b') :
    Expands B (a ++ b) (a' ++ b') := by
  induction ha with
  | nil => exact hb
  | cons hi _ ih =>
    rw [cons_append, append_assoc]
    exact .cons hi ih

theorem append_inv {c : Code} (h : Expands B (a ++ b) c) :
    ∃ a' b', c = a' ++ b' ∧ Expands B a a' ∧ Expands B b b' := by
  induction a generalizing c with
  | nil => exact ⟨[], c, rfl, .nil, h⟩
  | cons i a ih =>
    rw [cons_append] at h
    cases h with
    | @cons _ block _ rest hi hrest =>
      obtain ⟨a', b', rfl, ha, hb⟩ := ih hrest
      exact ⟨block ++ a', b', (append_assoc ..).symm, .cons hi ha, hb⟩

theorem comp {B'' : Instr → Code → Prop} {code'' : Code} (h : Expands B code code')
    (h' : Expands B' code' code'')
    (hcomp : ∀ {i block block'}, i ∈ code → B i block → Expands B' block block' → B'' i block') :
    Expands B'' code code'' := by
  induction h generalizing code'' with
  | nil =>
    cases h'
    exact .nil
  | cons hi _ ih =>
    obtain ⟨block', rest', rfl, hblock, hrest⟩ := append_inv h'
    refine .cons (hcomp mem_cons_self hi hblock) (ih hrest fun hk => ?_)
    exact hcomp (mem_cons_of_mem _ hk)

theorem countP_eq {q q' : Instr → Bool} (h : Expands B code code')
    (hB : ∀ i ∈ code, ∀ block, B i block → block.countP q' = [i].countP q) :
    code'.countP q' = code.countP q := by
  induction h with
  | nil => rfl
  | @cons i block code code' hi _ ih =>
    rw [forall_mem_cons] at hB
    rw [countP_append, hB.1 block hi, ih hB.2, ← countP_append, singleton_append]

theorem countP_isParam (hB : Faithful B) (h : Expands B code code') :
    code'.countP Instr.isParam = code.countP Instr.isParam :=
  h.countP_eq fun _ _ _ => hB.params

theorem codeAfter? (hB : KeepsLabels B) (h : Expands B code code') (l : String) :
    (ClosureCodegen.codeAfter? l code = none ∧ ClosureCodegen.codeAfter? l code' = none) ∨
      ∃ rest rest', ClosureCodegen.codeAfter? l code = some rest ∧
        ClosureCodegen.codeAfter? l code' = some rest' ∧ Expands B rest rest' := by
  induction h with
  | nil => exact .inl ⟨rfl, rfl⟩
  | @cons i block code code' hi hc ih =>
    rw [codeAfter?_cons]
    cases hl : i.isLabel with
    | true =>
      obtain ⟨k, rfl, hk, hkl⟩ := hB.label hi hl
      rw [singleton_append, codeAfter?_cons, hk, hkl]
      rcases ih with ⟨h₁, h₂⟩ | ⟨rest, rest', h₁, h₂, hr⟩
      · rw [h₁, h₂, Option.none_or, Option.none_or]
        split
        · exact .inr ⟨code, code', rfl, rfl, hc⟩
        · exact .inl ⟨rfl, rfl⟩
      · rw [h₁, h₂]
        exact .inr ⟨rest, rest', rfl, rfl, hr⟩
    | false =>
      rw [codeAfter?_append_of_not_isLabel (hB.noLabel hi hl)]
      rcases ih with ⟨h₁, h₂⟩ | ⟨rest, rest', h₁, h₂, hr⟩
      · rw [h₁]
        exact .inl ⟨rfl, h₂⟩
      · rw [h₁]
        exact .inr ⟨rest, rest', rfl, h₂, hr⟩

/-- Executions of an instruction and its block, with the same transfer, arrive at corresponding
places. -/
theorem continueIn_next (hB : Faithful B) (hexp : Expands B code code')
    (hrest : Expands B rest rest') (ht : e'.transfer = e.transfer) (hev : e'.events = e.events)
    {c : Config} (h : e.continueIn code rest = .next es c) :
    ∃ d, e'.continueIn code' rest' = .next es d ∧ Follows code rest e.transfer c.rest ∧
      Expands B c.rest d.rest ∧ c.machine = e.machine ∧ d.machine = e'.machine := by
  obtain ⟨m, events, t⟩ := e
  obtain ⟨m', events', t'⟩ := e'
  simp only at ht hev
  subst ht hev
  cases t' with
  | next =>
    cases h
    exact ⟨_, rfl, rfl, hrest, rfl, rfl⟩
  | branch l | jump l =>
    simp only [Execution.continueIn] at h ⊢
    rcases codeAfter? hB.toKeepsLabels hexp l with ⟨h₁, h₂⟩ | ⟨target, target', h₁, h₂, htarget⟩
    · rw [h₁] at h
      cases h
    · rw [h₁] at h
      cases h
      rw [h₂]
      exact ⟨_, rfl, h₁, htarget, rfl, rfl⟩
  | exit x => cases h

theorem continueIn_exit (hB : Faithful B) (hexp : Expands B code code')
    (ht : e'.transfer = e.transfer) (hev : e'.events = e.events)
    (hheap : e'.machine.heap = e.machine.heap) {x : Exit × Heap}
    (h : e.continueIn code rest = .exit es x) : e'.continueIn code' rest' = .exit es x := by
  obtain ⟨m, events, t⟩ := e
  obtain ⟨m', events', t'⟩ := e'
  simp only at ht hev hheap
  subst ht hev
  cases t' with
  | next => cases h
  | branch l | jump l =>
    simp only [Execution.continueIn] at h ⊢
    rcases codeAfter? hB.toKeepsLabels hexp l with ⟨h₁, h₂⟩ | ⟨target, target', h₁, h₂, _⟩
    · rw [h₁] at h
      cases h <;> rw [h₂, hheap]
    · rw [h₁] at h
      cases h
  | exit x =>
    cases h
    simp only [Execution.continueIn, hheap]

/-- A pass keeps the behaviour of a body if every block does what its instruction does, given an
invariant between the machines in front of an instruction and its block. -/
theorem behavesLike (hB : Faithful B) (hexp : Expands B code code')
    {Inv : Code → Machine → Machine → Prop}
    (hheap : ∀ {rest m m'}, Inv rest m m' → m'.heap = m.heap)
    (hstep : ∀ {i rest block m m' a e}, i :: rest <:+ code → B i block → Inv (i :: rest) m m' →
      i.exec env a m = some e → ∃ e', execBlock env a block m' = some e' ∧
        e'.events = e.events ∧ e'.transfer = e.transfer ∧ e'.machine.heap = e.machine.heap ∧
        ∀ rest', Follows code rest e.transfer rest' → Inv rest' e.machine e'.machine) {m' : Machine}
    (hInv : Inv code m m') :
    BehavesLike (step env code) ⟨code, m⟩ (step env code') ⟨code', m'⟩ := by
  let R : Nat → Config → Config → Prop := fun n c d =>
    c.rest.length = n ∧ c.rest <:+ code ∧ Expands B c.rest d.rest ∧ Inv c.rest c.machine d.machine
  have hcount : ∀ {rest rest'}, Expands B rest rest' →
      paramsBefore code' rest' = paramsBefore code rest := fun h => by
    rw [paramsBefore, paramsBefore, countP_isParam hB hexp, countP_isParam hB h]
  have hone : ∀ {i block}, B i block → block.countP Instr.isParam ≤ 1 := fun {i block} h => by
    rw [hB.params h]
    exact countP_le_length
  have sim : Simulation (step env code) (step env code') R := by
    constructor
    · rintro n ⟨rest, m⟩ ⟨rest', m'⟩ es c' ⟨rfl, hsuf, hx, hI⟩ hst
      simp only at hsuf hx hI
      cases hx with
      | nil => cases hst
      | @cons i block rest rest' hi hrest =>
        cases he : i.exec env (env.incoming (paramsBefore code (i :: rest))) m with
        | none => simp [step, he] at hst
        | some e =>
          rw [step_cons he] at hst
          obtain ⟨e', he', hev, htr, -, hnext⟩ := hstep hsuf hi hI he
          obtain ⟨d', hd', hfol, hexp', hm, hm'⟩ := continueIn_next hB hexp hrest htr hev hst
          have hR : R c'.rest.length c' d' := by
            refine ⟨rfl, hfol.suffix hsuf, hexp', ?_⟩
            rw [hm, hm']
            exact hnext _ hfol
          rw [← hcount (.cons hi hrest)] at he'
          by_cases hb : block = []
          · -- the instruction is gone, and the new body waits
            subst hb
            cases he'
            cases hd'
            refine .inr ⟨rfl, _, ?_, hR⟩
            rw [← htr] at hfol
            rw [show c'.rest = rest from hfol]
            exact Nat.lt_succ_self _
          · obtain ⟨k, hk⟩ := runFor_execBlock hb (hone hi) he' (by rw [hd']; nofun)
            rw [hd'] at hk
            exact .inl ⟨k, d', _, hk, hR⟩
    · rintro n ⟨rest, m⟩ ⟨rest', m'⟩ es x ⟨rfl, hsuf, hx, hI⟩ hst
      simp only at hsuf hx hI
      cases hx with
      | nil =>
        cases hst
        refine ⟨0, ?_⟩
        rw [runFor_one, step, hheap hI]
        rfl
      | @cons i block rest rest' hi hrest =>
        cases he : i.exec env (env.incoming (paramsBefore code (i :: rest))) m with
        | none => simp [step, he] at hst
        | some e =>
          rw [step_cons he] at hst
          obtain ⟨e', he', hev, htr, hhp, -⟩ := hstep hsuf hi hI he
          have hd' : e'.continueIn code' rest' = .exit es x :=
            continueIn_exit hB hexp htr hev hhp hst
          rw [← hcount (.cons hi hrest)] at he'
          have hb : block ≠ [] := by
            rintro rfl
            cases he'
            cases hd'
          obtain ⟨k, hk⟩ := runFor_execBlock hb (hone hi) he' (by rw [hd']; nofun)
          rw [hd'] at hk
          exact ⟨k, hk⟩
  exact sim.behavesLike ⟨rfl, suffix_rfl, hexp, hInv⟩

end Expands
end ClosureCodegen
