import ClosureCodegen.Proofs.Execution.Blocks
import ClosureCodegen.Proofs.Execution.Hart

/-!
# Straight lines of machine code

A machine instruction that can be decoded is never stuck on a hart: it calls someone, or it runs.
Most instructions are *straight*: they call nobody and control goes on behind them.  A list of
straight instructions is a function on harts, and one list can stand for another if the two
functions are the same: wherever it is replaced in a body, the body behaves as before.

* `not_stuck_of_decodes`: a body of machine instructions that can be decoded is never stuck.
* `Rewrites.runAlike`: straight code may be replaced by code with the same effect, on any machine that
  performs straight instructions.
-/

namespace ClosureCodegen
open List Operation

variable {t : Transfer} {code rest mid out code' rest' a a' post : Code} {c : HartConfig}
  {Q : Code → Code → Prop} {i : Instr}

/-! ## Decoded instructions run -/

namespace Environment

variable (env : Environment)

theorem unary?_isSome {op : Opcode} (h : op.family = .unary) : ∃ f, env.unary? op = some f := by
  cases op <;> first | exact ⟨_, rfl⟩ | cases h

theorem binary?_isSome {op : Opcode} (h : op.family = .binary) : ∃ f, env.binary? op = some f := by
  cases op <;> first | exact ⟨_, rfl⟩ | cases h

theorem test?_isSome {op : Opcode} (h : op.family = .branch) : ∃ f, env.test? op = some f := by
  cases op <;> first | exact ⟨_, rfl⟩ | cases h

end Environment

theorem Opcode.immediate?_isSome {op : Opcode} (h : op.family = .immediate) :
    ∃ f, op.immediate? = some f := by
  cases op <;> first | exact ⟨_, rfl⟩ | cases h

/-- The opcodes that expansion replaces. -/
def Family.isPseudo : Family → Bool
  | .slotStore | .slotLoad | .param | .captured | .unusedParam | .call | .callResult | .tailCall
  | .returnValue | .returnUnit => true
  | _ => false

theorem Opcode.isPseudo_eq (op : Opcode) : op.isPseudo = op.family.isPseudo := by
  cases op <;> rfl

/-- The opcodes behind which control goes on, and that call nobody. -/
def Family.isStraight : Family → Bool
  | .constant | .literal | .address | .unary | .binary | .immediate | .load | .store | .loadAt
  | .storeAt | .vectorLoad | .vectorStore | .idle => true
  | _ => false

namespace Instr

variable {env : Environment} {h : Hart}

theorem callee?_or_run (env : Environment) (h : Hart) (hs : i.decode?.isSome = true)
    (hp : i.op.isPseudo = false) : (i.callee? h).isSome = true ∨ (i.run env h).isSome = true := by
  obtain ⟨d, hd⟩ := Option.isSome_iff_exists.mp hs
  clear hs
  simp only [callee?, run, hd, Option.bind_some]
  obtain ⟨op, os⟩ := i
  have hdec : Decodes op op.family os d := decodes_of_decode? hd
  have hform : op.family.isPseudo = false := by rwa [← Opcode.isPseudo_eq]
  generalize hf : op.family = form at hdec hform
  cases hdec with
  | unary =>
    obtain ⟨f, hf⟩ := env.unary?_isSome hf
    simp [isNative, perform, hf]
  | binary =>
    obtain ⟨f, hf⟩ := env.binary?_isSome hf
    simp [isNative, perform, hf]
  | immediate =>
    obtain ⟨f, hf⟩ := Opcode.immediate?_isSome hf
    simp [isNative, perform, hf]
  | branch =>
    obtain ⟨f, hf⟩ := env.test?_isSome hf
    simp [isNative, perform, hf]
  | indirect r =>
    by_cases hz : r = zeroReg <;> simp [hz, isNative, perform]
  | slotStore | slotLoad | param | captured | unusedParam | call | callResult | tailCall
  | returnValue | returnUnit => cases hform
  | _ => simp [isNative, perform]

/-- An instruction that calls nobody and behind which control goes on. -/
structure IsStraight (i : Instr) : Prop where
  decodes : i.decode?.isSome = true
  family : i.op.family.isStraight = true
  noLabel : i.isLabel = false

def effect (env : Environment) (i : Instr) (h : Hart) : Hart :=
  ((i.run env h).map Prod.fst).getD h

theorem effect_of_run {h' : Hart} (hr : i.run env h = some (h', t)) : i.effect env h = h' := by
  simp only [effect, hr, Option.map_some, Option.getD_some]

theorem run_of_idle (hf : i.op.family = .idle) (env : Environment) (h : Hart) :
    i.callee? h = none ∧ i.run env h = some (h, .next) := by
  obtain ⟨op, os⟩ := i
  cases op <;> first | exact ⟨rfl, rfl⟩ | cases hf

namespace IsStraight

variable (hi : i.IsStraight)
include hi

theorem isPseudo : i.op.isPseudo = false := by
  have hf := hi.family
  rw [Opcode.isPseudo_eq]
  cases hop : i.op.family <;> rw [hop] at hf <;> first | rfl | cases hf

theorem callee? (h : Hart) : i.callee? h = none := by
  rw [Option.eq_none_iff_forall_ne_some]
  intro callee hc
  have hf := hi.family
  rcases op_of_callee? hc with hop | hop
  · rw [hop] at hf
    cases hf
  · rw [hop] at hf
    cases hf

theorem continues {d : Decoded} (hd : i.decode? = some d) (ht : d.operation.Continues t) :
    t = .next := by
  have hf := hi.family
  obtain ⟨op, os⟩ := i
  have hdec : Decodes op op.family os d := decodes_of_decode? hd
  simp only at hf
  generalize op.family = form at hdec hf
  cases hdec <;> first | exact ht | cases hf

theorem run (env : Environment) (h : Hart) : i.run env h = some (i.effect env h, .next) := by
  have hsome : (i.run env h).isSome = true := by
    rcases callee?_or_run env h hi.decodes hi.isPseudo with hc | hr
    · rw [hi.callee? h] at hc
      cases hc
    · exact hr
  obtain ⟨⟨h', t⟩, hr⟩ := Option.isSome_iff_exists.mp hsome
  obtain ⟨d, e, hd, _, he, _, ht⟩ := run_eq_some hr
  have htn : t = .next := by
    rw [ht]
    exact hi.continues hd (perform_inv he).2.1
  rw [hr, effect_of_run hr, htn]

end IsStraight
end Instr

/-! ## Bodies that are never stuck -/

theorem Transfer.suffix_of_continueOn {h : Hart} {n : Nat} {es : List HartEvent}
    (hc : t.continueOn code rest h n = .next es c) (hrest : rest <:+ code) : c.rest <:+ code := by
  cases t with
  | next =>
    cases hc
    exact hrest
  | branch l | jump l =>
    simp only [continueOn] at hc
    split at hc
    · next htarget =>
      cases hc
      exact codeAfter?_suffix htarget
    · cases hc
  | exit x => cases hc

theorem Transfer.continueOn_ne_stuck (code rest : Code) (h : Hart) (n : Nat) (t : Transfer) :
    t.continueOn code rest h n ≠ .stuck := by
  cases t with
  | next | exit x => rintro ⟨⟩
  | branch l | jump l =>
    simp only [continueOn]
    split <;> rintro ⟨⟩

theorem not_stuck_of_decodes {env : HartEnvironment}
    (hcode : ∀ i ∈ code, i.decode?.isSome = true ∧ i.op.isPseudo = false) (n : Nat)
    (hc : c.rest <:+ code) : (runFor (hartStep env code) n c).status ≠ .stuck := by
  induction n generalizing c with
  | zero => nofun
  | succ n ih =>
    obtain ⟨rest, h, calls⟩ := c
    cases rest with
    | nil => nofun
    | cons i rest =>
      have hsuf : rest <:+ code := (suffix_cons i rest).trans hc
      obtain ⟨hdec, hpseudo⟩ := hcode i (hc.subset mem_cons_self)
      cases hcallee : i.callee? h with
      | some callee =>
        have hs : hartStep env code ⟨i :: rest, h, calls⟩ =
            .next [⟨callee, h⟩] ⟨rest, env.reply calls callee h, calls + 1⟩ := by
          simp only [hartStep, hcallee]
        rw [runFor_succ_next hs]
        exact ih hsuf
      | none =>
        rcases Instr.callee?_or_run env.toEnvironment h hdec hpseudo with hr | hr
        · rw [hcallee] at hr
          cases hr
        · obtain ⟨⟨h', t⟩, hr⟩ := Option.isSome_iff_exists.mp hr
          have hs : hartStep env code ⟨i :: rest, h, calls⟩ =
              t.continueOn code rest h' calls := by
            simp only [hartStep, hcallee, hr]
          cases ht : t.continueOn code rest h' calls with
          | stuck => exact absurd ht (Transfer.continueOn_ne_stuck code rest h' calls t)
          | exit es x =>
            rw [runFor_succ_exit (hs.trans ht)]
            nofun
          | next es c =>
            rw [runFor_succ_next (hs.trans ht)]
            exact ih (Transfer.suffix_of_continueOn ht hsuf)

/-! ## Matching steps -/

/-- Two steps do the same, up to a relation between the configurations they reach. Nothing is asked of
the second one if the first one is stuck. -/
inductive Progress.Matches {C D X E : Type} (P : C → D → Prop) :
    Progress C X E → Progress D X E → Prop where
  | stuck {y : Progress D X E} : Matches P .stuck y
  | exit (es : List E) (x : X) : Matches P (.exit es x) (.exit es x)
  | next (es : List E) {c : C} {d : D} : P c d → Matches P (.next es c) (.next es d)

/-- A relation is a simulation if the second machine either waits or, after some silent steps, makes
a matching one. -/
theorem Simulation.of_matches {C D X E : Type} {step : C → Progress C X E} {step' : D → Progress D X E}
    {R : Nat → C → D → Prop}
    (h : ∀ {n c d}, R n c d → (∃ c' m, step c = .next [] c' ∧ m < n ∧ R m c' d) ∨
      ∃ k d', runFor step' k d = ⟨[], .running d'⟩ ∧
        (step c).Matches (fun c d => ∃ m, R m c d) (step' d')) : Simulation step step' R where
  next := by
    intro n c d es c' hR hstep
    rcases h hR with ⟨c₁, m, hs, hm, hR'⟩ | ⟨k, d₁, hk, hmatch⟩
    · cases hstep.symm.trans hs
      exact .inr ⟨rfl, m, hm, hR'⟩
    · rw [hstep] at hmatch
      generalize hd : step' d₁ = y at hmatch
      cases hmatch with
      | @next _ _ d' hR' =>
        obtain ⟨m, hm⟩ := hR'
        refine .inl ⟨k, d', m, ?_, hm⟩
        rw [runFor_add hk, runFor_one, hd]
        rfl
  exit := by
    intro n c d es x hR hstep
    rcases h hR with ⟨c₁, m, hs, hm, hR'⟩ | ⟨k, d₁, hk, hmatch⟩
    · cases hstep.symm.trans hs
    · rw [hstep] at hmatch
      generalize hd : step' d₁ = y at hmatch
      cases hmatch
      refine ⟨k, ?_⟩
      rw [runFor_add hk, runFor_one, hd]
      rfl

/-- Labels lead to related parts of two bodies. -/
def LabelsAgree (Q : Code → Code → Prop) (code code' : Code) : Prop :=
  ∀ l, (codeAfter? l code = none ∧ codeAfter? l code' = none) ∨
    ∃ rest rest', codeAfter? l code = some rest ∧ codeAfter? l code' = some rest' ∧ Q rest rest'

theorem LabelsAgree.trans {Q' R : Code → Code → Prop} (h : LabelsAgree Q code mid)
    (h' : LabelsAgree Q' mid out) (hqr : ∀ {a b c}, Q a b → Q' b c → R a c) :
    LabelsAgree R code out := fun l => by
  rcases h l with ⟨h₁, h₂⟩ | ⟨rest, rest', h₁, h₂, hs⟩ <;>
    rcases h' l with ⟨h₂', h₃⟩ | ⟨rest₂, rest₃, h₂', h₃, hs'⟩ <;>
    cases h₂.symm.trans h₂'
  · exact .inl ⟨h₁, h₃⟩
  · exact .inr ⟨rest, rest₃, h₁, h₃, hqr hs hs'⟩

/-- Two harts in the same state, in front of related parts of two bodies. -/
structure SamePlace (Q : Code → Code → Prop) (c d : HartConfig) : Prop where
  rest : Q c.rest d.rest
  hart : d.hart = c.hart
  calls : d.calls = c.calls

theorem Transfer.matches_continueOn (hlabels : LabelsAgree Q code code') (t : Transfer)
    (hrest : t = .next → Q rest rest') (h : Hart) (n : Nat) :
    (t.continueOn code rest h n).Matches (SamePlace Q) (t.continueOn code' rest' h n) := by
  cases t with
  | next => exact .next [] ⟨hrest rfl, rfl, rfl⟩
  | branch l | jump l =>
    simp only [continueOn]
    rcases hlabels l with ⟨h₁, h₂⟩ | ⟨target, target', h₁, h₂, hq⟩
    · rw [h₁, h₂]
      exact .exit _ _
    · rw [h₁, h₂]
      exact .next [] ⟨hq, rfl, rfl⟩
  | exit x => exact .exit _ _

/-! ## Replacing straight code -/

def effectOf (env : Environment) (code : Code) (h : Hart) : Hart :=
  code.foldl (fun h i => i.effect env h) h

@[simp] theorem effectOf_nil (env : Environment) (h : Hart) : effectOf env [] h = h := rfl

@[simp] theorem effectOf_cons (env : Environment) (i : Instr) (code : Code) (h : Hart) :
    effectOf env (i :: code) h = effectOf env code (i.effect env h) := rfl

@[simp] theorem effectOf_append (env : Environment) (a b : Code) (h : Hart) :
    effectOf env (a ++ b) h = effectOf env b (effectOf env a h) :=
  foldl_append

theorem hartStep_straight {env : HartEnvironment} (hi : i.IsStraight) (h : Hart) (n : Nat) :
    hartStep env code ⟨i :: rest, h, n⟩ = .next [] ⟨rest, i.effect env.toEnvironment h, n⟩ := by
  simp only [hartStep, hi.callee? h, hi.run env.toEnvironment h]
  rfl

/-- A machine that performs straight instructions, and that sees no more of a body than where its
labels lead. -/
structure IsLinear {E : Type} (env : Environment)
    (machine : Code → HartConfig → Progress HartConfig (Exit × Hart) E) : Prop where
  straight : ∀ {code rest : Code} {i : Instr}, i.IsStraight → ∀ (h : Hart) (n : Nat),
    machine code ⟨i :: rest, h, n⟩ = .next [] ⟨rest, i.effect env h, n⟩
  same : ∀ {Q : Code → Code → Prop} {code code' rest rest' : Code}, LabelsAgree Q code code' →
    Q rest rest' → ∀ (i : Instr) (h : Hart) (n : Nat),
      (machine code ⟨i :: rest, h, n⟩).Matches (SamePlace Q) (machine code' ⟨i :: rest', h, n⟩)
  atEnd : ∀ (code : Code) (h : Hart) (n : Nat), machine code ⟨[], h, n⟩ = .exit [] (.atEnd, h)

theorem isLinear_hartStep (env : HartEnvironment) :
    IsLinear env.toEnvironment (hartStep env) where
  straight := hartStep_straight
  same hlabels hrest i h n := by
    simp only [hartStep]
    cases i.callee? h with
    | some callee => exact .next _ ⟨hrest, rfl, rfl⟩
    | none =>
      cases i.run env.toEnvironment h with
      | none => exact .stuck
      | some r => exact Transfer.matches_continueOn hlabels r.2 (fun _ => hrest) r.1 n
  atEnd _ _ _ := rfl

section Linear

variable {E : Type} {env : Environment}
  {machine : Code → HartConfig → Progress HartConfig (Exit × Hart) E}

theorem IsLinear.runFor_straight (hm : IsLinear env machine) {code rest a : Code}
    (ha : ∀ i ∈ a, i.IsStraight) (h : Hart) (n : Nat) :
    runFor (machine code) a.length ⟨a ++ rest, h, n⟩ =
      ⟨[], .running ⟨rest, effectOf env a h, n⟩⟩ := by
  induction a generalizing h with
  | nil => rfl
  | cons i a ih =>
    rw [length_cons, cons_append,
      runFor_succ_next (hm.straight (ha i mem_cons_self) h n),
      ih fun k hk => ha k (mem_cons_of_mem i hk)]
    rfl

theorem runFor_straight {env : HartEnvironment} {code rest a : Code}
    (ha : ∀ i ∈ a, i.IsStraight) (h : Hart) (n : Nat) :
    runFor (hartStep env code) a.length ⟨a ++ rest, h, n⟩ =
      ⟨[], .running ⟨rest, effectOf env.toEnvironment a h, n⟩⟩ :=
  (isLinear_hartStep env).runFor_straight ha h n

structure SameEffect (a a' : Code) : Prop where
  ne_nil : a ≠ []
  straight : ∀ i ∈ a, i.IsStraight
  straight' : ∀ i ∈ a', i.IsStraight
  effect : ∀ env h, effectOf env a' h = effectOf env a h

/-- One stretch of straight code in a body is replaced by another of the same effect. -/
inductive Rewrites : Code → Code → Prop where
  | stretch {a a' : Code} (pre post : Code) :
    SameEffect a a' → Rewrites (pre ++ (a ++ post)) (pre ++ (a' ++ post))

namespace Rewrites

/-- Corresponding parts of the two bodies that do not start within the stretch. -/
inductive Apart (a a' post : Code) : Code → Code → Prop where
  | before (p : Code) : Apart a a' post (p ++ (a ++ post)) (p ++ (a' ++ post))
  | behind (q : Code) : Apart a a' post q q

theorem labelsAgree (hs : SameEffect a a') (pre post : Code) :
    LabelsAgree (Apart a a' post) (pre ++ (a ++ post)) (pre ++ (a' ++ post)) := by
  intro l
  induction pre with
  | nil =>
    rw [nil_append, nil_append,
      codeAfter?_append_of_not_isLabel fun k hk => (hs.straight k hk).noLabel,
      codeAfter?_append_of_not_isLabel fun k hk => (hs.straight' k hk).noLabel]
    cases codeAfter? l post with
    | none => exact .inl ⟨rfl, rfl⟩
    | some q => exact .inr ⟨q, q, rfl, rfl, .behind q⟩
  | cons i pre ih =>
    rw [cons_append, cons_append, codeAfter?_cons, codeAfter?_cons]
    rcases ih with ⟨h₁, h₂⟩ | ⟨rest, rest', h₁, h₂, hq⟩
    · rw [h₁, h₂, Option.none_or, Option.none_or]
      split
      · exact .inr ⟨_, _, rfl, rfl, .before pre⟩
      · exact .inl ⟨rfl, rfl⟩
    · rw [h₁, h₂]
      exact .inr ⟨rest, rest', rfl, rfl, hq⟩

/-- Where two runs stand: apart from the stretch in the same state, or the first one within it, while
the second one waits in front of it. -/
inductive Stands (env : Environment) (a a' post : Code) : HartConfig → HartConfig → Prop where
  | apart {c d : HartConfig} : SamePlace (Apart a a' post) c d → Stands env a a' post c d
  | within {done i rest} (h : Hart) (n : Nat) : a = done ++ i :: rest →
    Stands env a a' post ⟨i :: rest ++ post, effectOf env done h, n⟩ ⟨a' ++ post, h, n⟩

theorem Stands.next_within (hm : IsLinear env machine) (hs : SameEffect a a') {done : Code}
    (ha : a = done ++ i :: rest) (h : Hart) (n : Nat) {es : List E}
    (hc : machine code ⟨i :: rest ++ post, effectOf env done h, n⟩ = .next es c) :
    (∃ k d, runFor (machine code') (k + 1) ⟨a' ++ post, h, n⟩ = ⟨es, .running d⟩ ∧
        Stands env a a' post c d) ∨
      (es = [] ∧ c.rest = rest ++ post ∧ Stands env a a' post c ⟨a' ++ post, h, n⟩) := by
  have hi : i.IsStraight := hs.straight i (by rw [ha]; simp)
  rw [cons_append, hm.straight hi] at hc
  cases hc
  have heff : i.effect env (effectOf env done h) = effectOf env (done ++ [i]) h := by
    rw [effectOf_append]
    rfl
  cases rest with
  | cons k rest =>
    refine .inr ⟨rfl, rfl, ?_⟩
    rw [heff]
    exact .within h n (by rw [ha, append_assoc]; rfl)
  | nil =>
    have hdone : effectOf env (done ++ [i]) h = effectOf env a' h := by rw [hs.effect, ha]
    rw [heff, hdone]
    cases a' with
    | nil => exact .inr ⟨rfl, rfl, .apart ⟨.behind post, rfl, rfl⟩⟩
    | cons k rest' =>
      refine .inl ⟨rest'.length, ⟨post, effectOf env (k :: rest') h, n⟩, ?_,
        .apart ⟨.behind post, rfl, rfl⟩⟩
      exact hm.runFor_straight hs.straight' h n

theorem Stands.cases_front {env : Environment} (hs : SameEffect a a') {d : HartConfig}
    (hst : Stands env a a' post c d) :
    (∃ done i rest h n, a = done ++ i :: rest ∧
        c = ⟨i :: rest ++ post, effectOf env done h, n⟩ ∧ d = ⟨a' ++ post, h, n⟩) ∨
      (∃ i rest rest' h n, Apart a a' post rest rest' ∧ c = ⟨i :: rest, h, n⟩ ∧
        d = ⟨i :: rest', h, n⟩) ∨
      ∃ h n, c = ⟨[], h, n⟩ ∧ d = ⟨[], h, n⟩ := by
  cases hst with
  | within h n ha => exact .inl ⟨_, _, _, h, n, ha, rfl, rfl⟩
  | apart hp =>
    obtain ⟨rest, h, n⟩ := c
    obtain ⟨rest', h', n'⟩ := d
    obtain ⟨hq, hh, hn⟩ := hp
    simp only at hq hh hn
    subst hh hn
    cases hq with
    | before p =>
      cases p with
      | nil =>
        obtain ⟨i, rest, rfl⟩ := exists_cons_of_ne_nil hs.ne_nil
        exact .inl ⟨[], i, rest, h', n', rfl, rfl, rfl⟩
      | cons i p => exact .inr (.inl ⟨i, _, _, h', n', .before p, rfl, rfl⟩)
    | behind =>
      cases rest with
      | nil => exact .inr (.inr ⟨h', n', rfl, rfl⟩)
      | cons i q => exact .inr (.inl ⟨i, q, q, h', n', .behind q, rfl, rfl⟩)

theorem simulation (hm : IsLinear env machine) (hs : SameEffect a a') (pre post : Code) :
    Simulation (machine (pre ++ (a ++ post))) (machine (pre ++ (a' ++ post)))
      fun k c d => c.rest.length = k ∧ Stands env a a' post c d where
  next := by
    rintro k c d es c' ⟨rfl, hst⟩ hc
    rcases hst.cases_front hs with ⟨done, i, rest, h, n, ha, rfl, rfl⟩ |
      ⟨i, rest, rest', h, n, hq, rfl, rfl⟩ | ⟨h, n, rfl, rfl⟩
    · rcases Stands.next_within hm hs ha h n hc with ⟨m, d, hd, hst⟩ | ⟨hes, hrest, hst⟩
      · exact .inl ⟨m, d, _, hd, rfl, hst⟩
      · refine .inr ⟨hes, _, ?_, rfl, hst⟩
        rw [hrest]
        exact Nat.lt_succ_self _
    · have hsame := hm.same (labelsAgree hs pre post) hq i h n
      rw [hc] at hsame
      generalize hd : machine (pre ++ (a' ++ post)) ⟨i :: rest', h, n⟩ = y at hsame
      cases hsame with
      | next _ hp =>
        refine .inl ⟨0, _, _, ?_, rfl, .apart hp⟩
        rw [runFor_one, hd]
        rfl
    · rw [hm.atEnd] at hc
      cases hc
  exit := by
    rintro k c d es x ⟨rfl, hst⟩ hc
    rcases hst.cases_front hs with ⟨done, i, rest, h, n, ha, rfl, rfl⟩ |
      ⟨i, rest, rest', h, n, hq, rfl, rfl⟩ | ⟨h, n, rfl, rfl⟩
    · have hi : i.IsStraight := hs.straight i (by rw [ha]; simp)
      rw [cons_append, hm.straight hi] at hc
      cases hc
    · have hsame := hm.same (labelsAgree hs pre post) hq i h n
      rw [hc] at hsame
      generalize hd : machine (pre ++ (a' ++ post)) ⟨i :: rest', h, n⟩ = y at hsame
      cases hsame
      exact ⟨0, by rw [runFor_one, hd]; rfl⟩
    · rw [hm.atEnd] at hc
      cases hc
      exact ⟨0, by rw [runFor_one, hm.atEnd]; rfl⟩

end Rewrites

/-- Two bodies behave alike on a machine, from their start and from every label. -/
structure RunAlike (machine : Code → HartConfig → Progress HartConfig (Exit × Hart) E)
    (code out : Code) : Prop where
  start : ∀ h n, BehavesLike (machine code) ⟨code, h, n⟩ (machine out) ⟨out, h, n⟩
  labels : LabelsAgree (fun rest rest' => ∀ h n,
    BehavesLike (machine code) ⟨rest, h, n⟩ (machine out) ⟨rest', h, n⟩) code out

theorem RunAlike.refl (code : Code) : RunAlike machine code code where
  start _ _ := .refl _ _
  labels l := by
    cases codeAfter? l code with
    | none => exact .inl ⟨rfl, rfl⟩
    | some rest => exact .inr ⟨rest, rest, rfl, rfl, fun _ _ => .refl _ _⟩

theorem RunAlike.trans (h : RunAlike machine code mid) (h' : RunAlike machine mid out) :
    RunAlike machine code out where
  start g n := (h.start g n).trans (h'.start g n)
  labels := h.labels.trans h'.labels fun hs hs' g n => (hs g n).trans (hs' g n)

theorem Rewrites.runAlike (hm : IsLinear env machine) (hr : Rewrites code out) :
    RunAlike machine code out := by
  obtain ⟨pre, post, hs⟩ := hr
  have hsim := simulation hm hs pre post
  refine ⟨fun h n => hsim.behavesLike ⟨rfl, .apart ⟨.before pre, rfl, rfl⟩⟩, fun l => ?_⟩
  refine (labelsAgree hs pre post l).imp_right ?_
  rintro ⟨rest, rest', h₁, h₂, hq⟩
  exact ⟨rest, rest', h₁, h₂, fun h n => hsim.behavesLike ⟨rfl, .apart ⟨hq, rfl, rfl⟩⟩⟩

end Linear
end ClosureCodegen
