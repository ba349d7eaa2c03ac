import ClosureCodegen.Compilation.Basic
import ClosureCodegen.Proofs.Calling.AllocatedBodies
import ClosureCodegen.Proofs.Compilation.LoweredBodies
import ClosureCodegen.Proofs.Optimizer.Rounds

/-!
# Optimizing the bodies of a program

What expansion makes of an ordinary body is arranged and, with its shorthands written out, tidy: the
code it emits addresses the stack and moves the stack pointer by constants, and does nothing else with
it.  So the optimizer can work on it.  With this the way of a body through a compilation is closed: from
names that no register and no label of a conditional has, through lowering, allocation and expansion,
to optimized code that behaves as the expanded code did.

* `optimizable_expandShorthands`: expanded bodies.
* `optimize_sameBehaviour`: the optimizer, on every body of a program.
-/

namespace ClosureCodegen
open List

variable {o : Word} {r : Reg} {site : CallSite} {ctx : ExpansionContext} {block : Code}
  {b : AllocatedBody} {s : CompileState}

open Instr

/-! ## Shorthands -/

namespace Instr

variable {i k : Instr}

theorem IsOrdinary.isTidy (hi : i.IsOrdinary) (hp : i.op.isPseudo = false) : i.IsTidy where
  decodes := hi.decodes
  named := hi.named
  isMachine := hp
  zero d hd hz := by
    rw [(hi.writes d hd).1] at hz
    cases hz
  stack := by
    refine .inr fun r hr => hi.reads r ?_
    unfold otherRegs at hr
    split at hr
    · exact mem_of_mem_eraseIdx hr
    · exact hr
  lanes k hk := absurd hk (hi.lanes k)

theorem joint?_plain (i : Instr) : i.plain.joint? = i.joint? := by
  have hnone : ∀ {op : Opcode}, i.op = op → op.isInner = true → i.joint? = none := by
    rintro op rfl hop
    exact joint?_of_isInner hop
  unfold plain
  dsimp only
  split
  · next hop _ _ => exact (hnone hop rfl).symm
  · next hop _ _ => exact joint?_load.trans (hnone hop rfl).symm
  · next hop _ _ => exact joint?_load.trans (hnone hop rfl).symm
  · next hop _ _ => exact joint?_store.trans (hnone hop rfl).symm
  · next hop _ _ => exact joint?_store.trans (hnone hop rfl).symm
  · rfl

theorem isTidy_load_of_isWritable {d b : Reg} (hd : d.IsWritable) : (load d b o).IsTidy := by
  rcases d with ⟨x, _ | _⟩ <;> exact (isTidy_load rfl).mpr hd

theorem isTidy_store_of_isReadable {s b : Reg} (hs : s.IsReadable) : (store b s o).IsTidy := by
  rcases s with ⟨x, _ | _⟩ <;> exact (isTidy_store rfl).mpr hs

theorem IsOrdinary.isTidy_plain (hi : i.IsOrdinary) (hp : i.op.isPseudo = false) :
    i.plain.IsTidy := by
  have hzero : (Reg.ofPhys .zero).IsReadable := Reg.isReadable_iff.mpr (by decide)
  unfold plain
  dsimp only
  split
  · next d s _ hop hd hs =>
    have hw := hi.writable (.inl (by rw [hop]; rfl)) hd
    exact (isOrdinary_binary rfl hw hzero (hi.readable hs)).isTidy rfl
  · next d _ _ hop hd _ => exact isTidy_load_of_isWritable (hi.writable (.inr (by rw [hop]; rfl)) hd)
  · next d _ _ hop hd _ => exact isTidy_load_of_isWritable (hi.writable (.inr (by rw [hop]; rfl)) hd)
  · next s _ _ _ hs _ => exact isTidy_store_of_isReadable (hi.readable hs)
  · next s _ _ _ hs _ => exact isTidy_store_of_isReadable (hi.readable hs)
  · exact hi.isTidy hp

end Instr

/-! ## Expanded code -/

section Emitted

variable {i k : Instr}

theorem Reg.IsWorking.isWritable (h : r.IsWorking) : r.IsWritable := by
  obtain ⟨p, rfl, hz, hs⟩ := h
  exact Reg.isWritable_ofPhys hz hs

theorem Reg.IsTarget.isWritable (h : r.IsTarget Reg.IsWorking i) (hi : i.IsOrdinary) : r.IsWritable :=
  h.elim (hi.writes r) Reg.IsWorking.isWritable

theorem Reg.IsSource.isReadable (h : r.IsSource Reg.IsWorking i) (hi : i.IsOrdinary) : r.IsReadable :=
  h.elim (fun hr => hi.reads r (uses_subset_regs hr)) fun hr => hr.isWritable.isReadable

theorem isTidy_transfer (t : CallTarget) : (transfer t).IsTidy := by
  cases t with
  | direct l =>
    exact ⟨rfl, by rintro ⟨⟩, rfl, forall_mem_nil _, .inr (forall_mem_nil _),
      by simp [transfer]⟩
  | closure c =>
    refine ⟨rfl, by rintro ⟨⟩, rfl, forall_mem_nil _, .inr fun r hr => ?_,
      by simp [transfer]⟩
    obtain rfl : r = .ofPhys .scratch := mem_singleton.mp hr
    decide

theorem isTidy_tailTransfer (t : CallTarget) : (tailTransfer t).IsTidy := by
  cases t with
  | direct l => exact (isOrdinary_jump l).isTidy rfl
  | closure c =>
    refine ⟨rfl, nofun, rfl, fun _ _ _ => .inr rfl, .inr ?_, by simp [tailTransfer]⟩
    change ∀ r ∈ [Reg.ofPhys .zero, Reg.ofPhys .scratch], _
    decide

theorem isTidy_plain_of_emitted (h : Emitted Reg.IsWorking i k) (hi : i.IsOrdinary) : k.plain.IsTidy := by
  cases h with
  | @load d b o hd _ =>
    have hplain : (load d b o).plain = load d b o := by rcases d with ⟨x, _ | _⟩ <;> rfl
    rw [hplain]
    exact isTidy_load_of_isWritable (hd.isWritable hi)
  | @store r o hr =>
    have hplain : (store stackReg r o).plain = store stackReg r o := by
      rcases r with ⟨x, _ | _⟩ <;> rfl
    rw [hplain]
    exact isTidy_store_of_isReadable (hr.isReadable hi)
  | @move d s hd hs =>
    have hordinary := isOrdinary_move (hd.isWritable hi) (hs.isReadable hi)
    exact hordinary.isTidy_plain (by rcases d with ⟨x, _ | _⟩ <;> rfl)
  | moveStack => exact .moveStack _
  | @transfer t =>
    have hplain : (transfer t).plain = transfer t := by cases t <;> rfl
    rw [hplain]
    exact isTidy_transfer t
  | @tailTransfer t =>
    have hplain : (tailTransfer t).plain = tailTransfer t := by cases t <;> rfl
    rw [hplain]
    exact isTidy_tailTransfer t
  | ret => exact ⟨rfl, nofun, rfl, nofun, .inr nofun, nofun⟩

theorem joint?_of_emitted (h : Emitted Reg.IsWorking i k) (hi : i.isTail = false) : k.joint? = none := by
  cases h with
  | load => exact joint?_load
  | store => exact joint?_store
  | @move d => rcases d with ⟨x, _ | _⟩ <;> rfl
  | moveStack => rfl
  | @transfer t => cases t <;> rfl
  | tailTransfer hop =>
    rcases hop with hop | hop <;> rw [isTail, hop] at hi <;> cases hi
  | ret => rfl

theorem isInner_of_isPseudo (hp : i.op.isPseudo = true) (hi : i.isTail = false) :
    i.op.isInner = true := by
  rw [isTail] at hi
  cases hop : i.op <;> rw [hop] at hp hi
  all_goals first | rfl | exact absurd hp (by decide) | exact absurd hi (by decide)

theorem label?_of_isTail (hi : i.isTail = true) (h : CallSite.ofInstr i = .ok site) :
    i.label? = site.target.label? := by
  obtain ⟨op, os⟩ := i
  unfold CallSite.ofInstr at h
  split at h
  case h_2 => cases h
  next site' hsite =>
  cases h
  cases op
  case tailDirect | tailClosure =>
    obtain ⟨⟨t, args⟩, ht, hsite⟩ := Option.bind_eq_some_iff.mp hsite
    cases hsite
    rw [label?, CallSite.eq_of_targetAndArgs? ht, CallTarget.findSome?_label?_operand]
  all_goals cases hi

theorem widened_tailTransfer (hi : i.IsOrdinary) (ht : i.isTail = true)
    (h : CallSite.ofInstr i = .ok site) :
    Widened i.joint?.toList (tailTransfer site.target).joint?.toList := by
  have hlabel := label?_of_isTail ht h
  have hcall : i.op.isCall = true := by rcases op_of_isTail ht with hop | hop <;> rw [hop] <;> rfl
  cases htarget : site.target with
  | direct l =>
    rw [htarget] at hlabel
    rcases op_of_isTail ht with hop | hop
    · have hjoint : i.joint? = some (.jump l) := by
        simp [joint?, hlabel, CallTarget.label?, isLabel, hop, Opcode.isBranch]
      rw [hjoint]
      exact .refl _
    · rw [joint?_of_isInner (by rw [hop]; rfl)]
      exact .add (hi.callee hcall l hlabel) .nil
  | closure c =>
    rw [htarget] at hlabel
    have hjoint : i.joint? = none := by rw [joint?, hlabel]; rfl
    rw [hjoint]
    exact .nil

theorem reworks_expandTailCall (hi : i.IsOrdinary) (ht : i.isTail = true)
    (htidy : ∀ k ∈ block, k.plain.IsTidy) (h : expandTailCall ctx i = .ok block) :
    Reworks (fun k => k.plain.IsTidy) i block := by
  simp only [expandTailCall, Outcome.bind_eq_ok, Outcome.pure_eq_ok] at h
  obtain ⟨site, hsite, targets, -, rfl⟩ := h
  rw [forall_mem_append] at htidy
  have hstraight : IsStraightCode (enterClosure site.target ++ passArguments site.args targets ++
      ctx.leave) :=
    isStraightCode_append (isStraightCode_append (isStraightCode_enterClosure _)
      (isStraightCode_passArguments _ _)) (isStraightCode_leave ctx)
  have hlabel : i.isLabel = false := by
    rcases op_of_isTail ht with hop | hop <;> rw [isLabel, hop] <;> rfl
  exact .around hlabel (widened_tailTransfer hi ht hsite) (htidy.2 _ mem_cons_self)
    (fun k hk => ⟨(hstraight k hk).joint?, htidy.1 k hk⟩) (forall_mem_nil _)

theorem reworks_of_expansionBlock (hf : ctx.Saves Reg.IsWorking) (hi : i.IsOrdinary)
    (hB : ExpansionBlock ctx i block) : Reworks (fun k => k.plain.IsTidy) i block := by
  obtain ⟨position, stack, stack', -, h⟩ := hB
  have hemitted : ∀ k ∈ block, i.op.isPseudo = true → Emitted Reg.IsWorking i k := fun k hk hp =>
    (emitted_of_mem (fun _ hr => hr.isWorking) hf h hk).resolve_left fun h => by rw [h.1] at hp; cases hp
  cases hp : i.op.isPseudo with
  | false =>
    rw [expandInstr_of_not_isPseudo hp] at h
    cases h
    exact .single rfl (hi.isTidy_plain hp)
  | true =>
    cases ht : i.isTail with
    | true =>
      have htail : expandTailCall ctx i = .ok block := by
        rcases op_of_isTail ht with hop | hop
        all_goals
          simp only [expandInstr, hop, Outcome.bind_eq_ok, Outcome.pure_eq_ok, Prod.mk.injEq] at h
          obtain ⟨_, hblock, rfl, -⟩ := h
          exact hblock
      exact reworks_expandTailCall hi ht
        (fun k hk => isTidy_plain_of_emitted (hemitted k hk hp) hi) htail
    | false =>
      refine .between (isInner_of_isPseudo hp ht) fun k hk => ?_
      exact ⟨joint?_of_emitted (hemitted k hk hp) ht, isTidy_plain_of_emitted (hemitted k hk hp) hi⟩

end Emitted

/-! ## Expanded bodies -/

section Bodies

variable {code out : Code} {frame? : Option Frame} {clobbers : ClobberTable} {slots : SlotState}

/-- An ordinary body is reworked by its expansion. The frame of a function is set up behind the entry
label, and counts as part of its block. -/
theorem expands_of_expand (hc : IsOrdinaryBody code)
    (hf : ∀ f, frame? = some f → ∀ r ∈ f.saved, (Reg.ofPhys r).IsWorking)
    (h : expand frame? clobbers .empty code = .ok (out, slots)) :
    Expands (Reworks fun k => k.plain.IsTidy) code out := by
  obtain ⟨l, part, -, hx, rfl⟩ := expand_iff.mp h
  have hworking : (bodyContext frame? clobbers code l).Saves Reg.IsWorking := hf
  have hrest : Expands (Reworks fun k => k.plain.IsTidy) (code.drop (bodyStart frame? code)) part :=
    (expansionBlocks_body hx).mono_of_mem fun hi hB =>
      reworks_of_expansionBlock hworking (hc.ordinary _ (mem_of_mem_drop hi)) hB
  cases frame? with
  | none => exact hrest
  | some f =>
    obtain ⟨entry, name, body, rfl, hentry, -⟩ := hc.arranged.body
    have hlabel := (joint?_eq_label hentry).1
    have hstart : bodyStart (some f) (entry :: body) = 1 := if_pos hlabel
    rw [bodyFront, hstart]
    rw [hstart] at hrest
    have hplain : entry.plain.IsTidy :=
      (hc.ordinary entry mem_cons_self).isTidy_plain (Opcode.isPseudo_of_isLabel hlabel)
    refine .cons (.behind hplain fun k hk => ⟨(isStraightCode_prologue f k hk).joint?, ?_⟩) hrest
    exact isTidy_plain_of_emitted (emitted_of_mem_prologue (hf f rfl) hk) isOrdinary_nop

/-- With shorthands written out, the expansion of an ordinary body is code that the optimizer can work
on. -/
theorem optimizable_expandShorthands (hc : IsOrdinaryBody code)
    (hf : ∀ f, frame? = some f → ∀ r ∈ f.saved, (Reg.ofPhys r).IsWorking)
    (h : expand frame? clobbers .empty code = .ok (out, slots)) :
    Optimizable (expandShorthands out) := by
  have hexpanded := expands_of_expand hc hf h
  have hfiltered := Reworks.expands_deleteNops hexpanded.forall_reworked
  have hplain : Expands (Reworks IsTidy) (deleteNops out) (expandShorthands out) :=
    Reworks.expands_map fun i hi => ⟨joint?_plain i, hfiltered.forall_reworked i hi⟩
  exact ⟨((hc.arranged.reworked hexpanded).reworked hfiltered).reworked hplain, hplain.forall_reworked⟩

end Bodies

/-! ## Bodies of a program -/

namespace Compile

variable {α β : Type} {s' : CompileState}

theorem bind_eq_ok {x : Compile α} {f : α → Compile β} {b : β} :
    (x >>= f) s = .ok b s' ↔ ∃ a s₁, x s = .ok a s₁ ∧ f a s₁ = .ok b s' :=
  stateful_bind_eq_ok

theorem pure_eq_ok {a b : α} : (pure a : Compile α) s = .ok b s' ↔ a = b ∧ s = s' := by
  change EStateM.Result.ok a s = .ok b s' ↔ _
  rw [EStateM.Result.ok.injEq]

theorem ofOutcome_eq_ok {x : Outcome α} {a : α} : ofOutcome x s = .ok a s' ↔ x = .ok a ∧ s = s' := by
  cases x with
  | error e => exact ⟨nofun, fun h => nomatch h.1⟩
  | ok b =>
    change EStateM.Result.ok b s = .ok a s' ↔ _
    rw [EStateM.Result.ok.injEq, Except.ok.injEq]

theorem ofLower_eq_ok {x : Lower α} {a : α} : ofLower x s = .ok a s' ↔
    ∃ l, x s.lowering = .ok a l ∧ s' = { s with lowering := l } := by
  unfold ofLower
  cases hx : x s.lowering with
  | error e l => exact ⟨nofun, fun ⟨_, h, _⟩ => nomatch h⟩
  | ok b l =>
    constructor
    · rintro ⟨⟩
      exact ⟨l, rfl, rfl⟩
    · rintro ⟨_, ⟨⟩, rfl⟩
      rfl

theorem exists_forM_note (f : String → Session → Session) (names : List String) (s : CompileState) :
    ∃ s', (names.forM fun x => note (f x)) s = .ok () s' := by
  induction names generalizing s with
  | nil => exact ⟨s, rfl⟩
  | cons x names ih =>
    obtain ⟨s', hs⟩ := ih { s with toSession := f x s.toSession }
    exact ⟨s', bind_eq_ok.mpr ⟨(), _, rfl, hs⟩⟩

end Compile

open Compile

/-- What the stages from address folding to intrinsics do. Notes in the session are never in the way. -/
theorem exists_allocateBody_iff {name : String} {code : Code} {isFunction : Bool} :
    (∃ s', allocateBody name code isFunction s = .ok b s') ↔
      ∃ a params tail count, allocate (if isFunction then .function else .topLevel)
          (deleteNops (peephole (foldAddresses code))) = .ok a ∧
        (if isFunction then assignParams name a.code else .ok a.code) = .ok params ∧
        makeTailCalls params = .ok (tail, count) ∧
        b = ⟨name, (inlineIntrinsics tail).1, isFunction⟩ := by
  constructor
  · rintro ⟨s', h⟩
    simp only [allocateBody, bind_eq_ok, ofOutcome_eq_ok] at h
    obtain ⟨_, _, -, a, _, ⟨ha, rfl⟩, _, _, -, h⟩ := h
    split at h
    all_goals simp only [bind_eq_ok, ofOutcome_eq_ok, pure_eq_ok] at h
    · next hfunction =>
      obtain ⟨params, _, ⟨hparams, rfl⟩, ⟨tail, count⟩, _, ⟨htail, rfl⟩, _, _, -, _, _, -, rfl, rfl⟩ := h
      exact ⟨a, params, tail, count, ha, by rw [if_pos hfunction, hparams], htail, rfl⟩
    · next hfunction =>
      obtain ⟨_, _, ⟨rfl, rfl⟩, ⟨tail, count⟩, _, ⟨htail, rfl⟩, _, _, -, _, _, -, rfl, rfl⟩ := h
      exact ⟨a, a.code, tail, count, ha, if_neg hfunction, htail, rfl⟩
  · rintro ⟨a, params, tail, count, ha, hparams, htail, rfl⟩
    obtain ⟨s', hs⟩ := exists_forM_note .recordInlined (inlineIntrinsics tail).2
      { s with toSession := ((s.toSession.enter name).recordAllocation a.rounds a.spilledInts
          a.spilledFloats).recordTailCalls count }
    refine ⟨s', ?_⟩
    simp only [allocateBody, bind_eq_ok, ofOutcome_eq_ok]
    refine ⟨(), _, rfl, a, _, ⟨ha, rfl⟩, (), _, rfl, ?_⟩
    split at hparams
    · next hfunction =>
      rw [if_pos hfunction]
      simp only [bind_eq_ok, ofOutcome_eq_ok, pure_eq_ok]
      exact ⟨params, _, ⟨hparams, rfl⟩, (tail, count), _, ⟨htail, rfl⟩, (), _, rfl, (), s', hs, rfl, rfl⟩
    · next hfunction =>
      cases hparams
      rw [if_neg hfunction]
      simp only [bind_eq_ok, ofOutcome_eq_ok, pure_eq_ok]
      exact ⟨a.code, _, ⟨rfl, rfl⟩, (tail, count), _, ⟨htail, rfl⟩, (), _, rfl, (), s', hs, rfl, rfl⟩

theorem IsOrdinaryBody.allocateBody {name : String} {code : Code} {isFunction : Bool}
    {s' : CompileState} (hc : IsOrdinaryBody code)
    (h : allocateBody name code isFunction s = .ok b s') : IsOrdinaryBody b.code := by
  obtain ⟨a, params, tail, count, ha, hparams, htail, rfl⟩ := exists_allocateBody_iff.mp ⟨s', h⟩
  have horder : (if isFunction then AllocationOrder.function else AllocationOrder.topLevel).IsFree := by
    intro cls
    cases isFunction <;> cases cls <;> decide
  have hallocated := hc.fold.peepholed.withoutNops.allocated horder ha
  have hassigned : IsOrdinaryBody params := by
    split at hparams
    · exact hallocated.assignParams hparams
    · cases hparams
      exact hallocated
  exact (hassigned.makeTailCalls htail).inlineIntrinsics

structure Program.IsNamed (p : Program) : Prop where
  definitions : ∀ d ∈ p.definitions, d.IsNamed
  body : p.body.IsNamed

/-- The bodies of a program that have come up to expansion. -/
inductive Program.Allocates (options : Options) (p : Program) : AllocatedBody → Prop where
  | definition {d : Definition} {b : AllocatedBody} {s s' : CompileState} : d ∈ p.definitions →
      allocateDefinition options d s = .ok b s' → Allocates options p b
  | topLevel {b : AllocatedBody} {s s' : CompileState} :
      allocateTopLevel options p s = .ok b s' → Allocates options p b

theorem Program.Allocates.isOrdinaryBody {options : Options} {p : Program}
    (h : p.Allocates options b) (hp : p.IsNamed) : IsOrdinaryBody b.code := by
  cases h with
  | @definition d _ _ _ hd h =>
    obtain ⟨code, _, hlower, hbody⟩ := bind_eq_ok.mp h
    obtain ⟨l, hlower, -⟩ := ofLower_eq_ok.mp hlower
    exact (Definition.isOrdinaryBody_of_lower (hp.definitions d hd) _ hlower).allocateBody hbody
  | topLevel h =>
    obtain ⟨code, _, hlower, hbody⟩ := bind_eq_ok.mp h
    obtain ⟨l, hlower, -⟩ := ofLower_eq_ok.mp hlower
    exact (isOrdinaryBody_lowerTopLevel hp.body _ hlower).allocateBody hbody

theorem AllocatedBody.isWorking_of_mem_saved {frame? : Option Frame} (h : b.frame? = .ok frame?) :
    ∀ f, frame? = some f → ∀ r ∈ f.saved, (Reg.ofPhys r).IsWorking := by
  unfold AllocatedBody.frame? at h
  split at h
  · simp only [Outcome.bind_eq_ok, Outcome.pure_eq_ok] at h
    obtain ⟨touched, -, rfl⟩ := h
    rintro _ ⟨⟩ r hr
    exact PhysReg.isWorking_of_mem (.inr (Frame.calleeSaved_of_mem_ofTouched hr))
  · cases h
    nofun

/-- Whatever it is asked to do, the optimizer keeps the behaviour of an expanded body of a program: the
plain code is never stuck, the optimizer fails only for want of range, and what it makes of the body
shows the same calls and exits, each with the same registers and the same memory. -/
theorem optimize_sameBehaviour {options : Options} {p : Program} {b : AllocatedBody}
    {frame? : Option Frame} {clobbers : ClobberTable} {c : Code} {slots : SlotState}
    (hp : p.IsNamed) (hb : p.Allocates options b) (hframe : b.frame? = .ok frame?)
    (hc : expand frame? clobbers .empty b.code = .ok (c, slots)) (settings : OptimizerOptions) :
    (∀ (env : HartEnvironment) (h : Hart) (calls n : Nat),
        (runFor (hartStep env (expandShorthands c)) n
          ⟨expandShorthands c, h, calls⟩).status ≠ .stuck) ∧
      (optimize settings c).OverflowsOnly ∧
      ∀ v, optimize settings c = .ok v → SameBehaviour (expandShorthands c) v.code := by
  have hsaved := AllocatedBody.isWorking_of_mem_saved hframe
  have hopt := optimizable_expandShorthands (hb.isOrdinaryBody hp) hsaved hc
  have hmachine : ∀ i ∈ expandShorthands c, i.decode?.isSome = true ∧ i.op.isPseudo = false :=
    fun i hi => ⟨(hopt.tidy i hi).decodes, (hopt.tidy i hi).isMachine⟩
  exact ⟨fun env h calls n => not_stuck_of_decodes hmachine n suffix_rfl,
    optimize_sound settings hopt⟩

/-- The larger of two numbers, found by trying them the other way round. -/
def larger : Definition where
  binding := ⟨"f", .fn [.int, .int] .int⟩
  params := [⟨"n", .int⟩, ⟨"m", .int⟩]
  captured := []
  body := .cond .le "n" "m" (.var "m") (.callDirect "f" ["m", "n"])

/-- A program with this function alone. -/
def largerProgram : Program := ⟨0, [larger], .unit⟩

theorem isNamed_largerProgram : largerProgram.IsNamed where
  definitions d hd := by
    obtain rfl := mem_singleton.mp hd
    have hname : ∀ x ∈ ["f", "n", "m"], IsProgramName x := by
      have hshort : ∀ x ∈ ["f", "n", "m"], (∀ p ∈ PhysReg.all, x ≠ p.name) ∧ x.length < 5 := by
        decide
      exact fun x hx => .of_length (hshort x hx).1 (hshort x hx).2
    simp only [forall_mem_cons] at hname
    obtain ⟨hf, hn, hm, -⟩ := hname
    refine ⟨hf, ?_, nofun, ?_⟩
    · simp only [larger, forall_mem_cons]
      exact ⟨hn, hm, nofun⟩
    · simp [larger, Expr.IsNamed, Expr.Named, *]
  body := trivial

/-- The function behind lowering. -/
def largerLowered : Code :=
  let r := fun x => Operand.reg ⟨x, .int⟩
  [⟨.label, [.label "f"]⟩, ⟨.param, [r "n"]⟩, ⟨.param, [r "m"]⟩, ⟨.mv, [r "f", r "a0"]⟩,
    ⟨.bge, [r "m", r "n", .label "then2"]⟩, ⟨.callDirectResult, [r "%ret.1", .label "f", r "m", r "n"]⟩,
    ⟨.j, [.label "endif2"]⟩, ⟨.label, [.label "then2"]⟩, ⟨.mv, [r "%ret.1", r "m"]⟩,
    ⟨.label, [.label "endif2"]⟩, ⟨.returnValue, [r "%ret.1"]⟩]

/-- The function with a register for each variable. -/
def largerAllocated : Allocation where
  code :=
    let r := fun x => Operand.reg ⟨x, .int⟩
    [⟨.label, [.label "f"]⟩, ⟨.param, [r "a3"]⟩, ⟨.param, [r "a2"]⟩,
      ⟨.bge, [r "a2", r "a3", .label "then2"]⟩,
      ⟨.callDirectResult, [r "a1", .label "f", r "a2", r "a3"]⟩, ⟨.j, [.label "endif2"]⟩,
      ⟨.label, [.label "then2"]⟩, ⟨.mv, [r "a1", r "a2"]⟩, ⟨.label, [.label "endif2"]⟩,
      ⟨.returnValue, [r "a1"]⟩]
  rounds := 1
  spilledInts := 0
  spilledFloats := 0

/-- The function with its parameters in their registers, and its call as `last`. -/
def largerAssigned (last : Instr) : Code :=
  let r := fun x => Operand.reg ⟨x, .int⟩
  [⟨.label, [.label "f"]⟩, ⟨.param, [r "a2"]⟩, ⟨.param, [r "a1"]⟩,
    ⟨.bge, [r "a1", r "a2", .label "then2"]⟩, last, ⟨.j, [.label "endif2"]⟩,
    ⟨.label, [.label "then2"]⟩, ⟨.mv, [r "a3", r "a1"]⟩, ⟨.label, [.label "endif2"]⟩,
    ⟨.returnValue, [r "a3"]⟩]

/-- The function up to expansion: its call is a tail call. -/
def largerBody : AllocatedBody where
  name := "f"
  code := largerAssigned ⟨.tailDirect, [.label "f", .reg ⟨"a1", .int⟩, .reg ⟨"a2", .int⟩]⟩
  isFunction := true

theorem allocates_larger : largerProgram.Allocates {} largerBody := by
  have hallocate : allocate .function (deleteNops (peephole (foldAddresses largerLowered))) =
      .ok largerAllocated := by
    refine Outcome.eq_ok_of_toOption ?_
    simp only [allocate, allocateVisiting, allocateRounds, colorRound, colorClass,
      InterferenceGraph.ofLiveness_eq, InterferenceGraph.color, Simplifier.run_eq_runWithin 50]
    decide +kernel
  have hassign : assignParams "f" largerAllocated.code = .ok (largerAssigned
      ⟨.callDirectResult, [.reg ⟨"a3", .int⟩, .label "f", .reg ⟨"a1", .int⟩, .reg ⟨"a2", .int⟩]⟩) :=
    Outcome.eq_ok_of_toOption (by decide)
  have hposition : (labelTable (largerAssigned ⟨.callDirectResult,
      [.reg ⟨"a3", .int⟩, .label "f", .reg ⟨"a1", .int⟩, .reg ⟨"a2", .int⟩]⟩)).position? "endif2" =
      some 8 := by decide
  have htail : makeTailCalls (largerAssigned
      ⟨.callDirectResult, [.reg ⟨"a3", .int⟩, .label "f", .reg ⟨"a1", .int⟩, .reg ⟨"a2", .int⟩]⟩) =
      .ok (largerBody.code, 1) := by
    rw [makeTailCalls, markTailCalls]
    generalize labelTable _ = table at hposition
    simp [largerAssigned, largerBody, tailCallAt?, Instr.asTailCall?, Instr.callResult?,
      Instr.lacksResult, reachesReturn, Instr.label?, Instr.reg?, Operand.label?, Operand.reg?,
      hposition, Option.filter]
  have hbody : ∀ s, ∃ s', allocateBody "f" largerLowered true s = .ok largerBody s' := fun s =>
    exists_allocateBody_iff.mpr ⟨largerAllocated, _, _, 1, hallocate, hassign, htail, rfl⟩
  obtain ⟨l, hlower⟩ : ∃ l, (larger.propagateConstants false).lower {} = .ok largerLowered l := ⟨_, rfl⟩
  obtain ⟨s', hs⟩ := hbody { lowering := l }
  have hdefinition : allocateDefinition {} larger {} = .ok largerBody s' :=
    bind_eq_ok.mpr ⟨largerLowered, _, ofLower_eq_ok.mpr ⟨l, hlower, rfl⟩, hs⟩
  exact .definition mem_cons_self hdefinition

/-- The arguments change places by way of the stack. The optimizer makes one store of the two, and one
load. -/
theorem optimize_sameBehaviour_larger : largerProgram.IsNamed ∧ largerProgram.Allocates {} largerBody ∧
    largerBody.frame? = .ok (some ⟨[]⟩) ∧
    ∃ c slots v, expand (some ⟨[]⟩) .empty .empty largerBody.code = .ok (c, slots) ∧
      optimize {} c = .ok v ∧ v.formed = 2 ∧ SameBehaviour (expandShorthands c) v.code := by
  have hframe : largerBody.frame? = .ok (some ⟨[]⟩) := Outcome.eq_ok_of_toOption (by decide +kernel)
  have hstages : (expand (some ⟨[]⟩) .empty .empty largerBody.code >>= fun r =>
      optimize {} r.1).toOption.map Vectorized.formed = some 2 := by decide +kernel
  obtain ⟨v, hv, hformed⟩ := Option.map_eq_some_iff.mp hstages
  obtain ⟨⟨c, slots⟩, hc, hv⟩ := Outcome.bind_eq_ok.mp (Outcome.eq_ok_of_toOption hv)
  refine ⟨isNamed_largerProgram, allocates_larger, hframe, c, slots, v, hc, hv, hformed, ?_⟩
  exact (optimize_sameBehaviour isNamed_largerProgram allocates_larger hframe hc {}).2.2 v hv

end ClosureCodegen
