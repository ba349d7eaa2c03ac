import ClosureCodegen.Proofs.Calling.Completeness
import ClosureCodegen.Proofs.Calling.Restoration
import ClosureCodegen.Proofs.Optimizer.Provenance

/-!
# Published clobber sets

A function that calls nobody is published with the registers it mentions, before it is expanded and
optimized.  What expansion adds are the register of the result, which is published as well, and
registers that callers do not count on: reserved ones, and the callee-saved ones of the frame, which
are saved.  The optimizer brings in no registers at all.  So the caller-saved registers of the code
that finally runs are among the published ones, and in a run the others keep their values.

A call saves the live registers that its callee is published to overwrite.  The others are kept by
the callee, so that none is lost.

* `Confined`: of the caller-saved registers, code mentions only those of a set.
* `get_callCode_of_keeps`: a call loses nothing if the callee keeps what is not saved.
* `defs_subset_clobbers`: the two together, for the code of a published function.
-/

namespace ClosureCodegen
open List Outcome PhysReg RegSet Instr ExpansionContext

variable {fs : List (String × Code)} {p : PhysReg} {i : Instr} {d base q r : Reg} {f : Frame}
  {body out : Code} {stack stack' : SlotState} {h h₁ h₂ : Hart}

/-! ## The table -/

namespace ClobberTable

/-- Records functions one after another. -/
def publishAll (t : ClobberTable) (fs : List (String × Code)) : ClobberTable :=
  fs.foldl (fun t f => t.publish f.1 f.2) t

variable {t : ClobberTable} {name other : String}

@[simp] theorem get?_erase_self : (t.erase name).get? name = none := by
  simp only [get?, erase, lookup_eq_none_iff, mem_filter, bne_iff_ne]
  exact fun e he => he.2.symm

theorem get?_erase_of_ne (h : other ≠ name) : (t.erase other).get? name = t.get? name := by
  obtain ⟨known⟩ := t
  simp only [get?, erase]
  induction known with
  | nil => rfl
  | cons e known ih =>
    obtain ⟨x, s⟩ := e
    rw [filter_cons, lookup_cons]
    split
    · rw [lookup_cons, ih]
    · next hx =>
      have hxo : x = other := by simpa using hx
      rw [ih, hxo, beq_eq_false_iff_ne.mpr h.symm]

@[simp] theorem get?_insert_self (s : RegSet) : (t.insert name s).get? name = some s := by
  simp [get?, insert]

theorem get?_insert_of_ne (h : other ≠ name) (s : RegSet) :
    (t.insert other s).get? name = t.get? name := by
  refine Eq.trans ?_ (get?_erase_of_ne h)
  rw [insert, get?, lookup_cons, beq_eq_false_iff_ne.mpr h.symm]
  rfl

theorem get?_publishAll (h : ∀ f ∈ fs, f.1 ≠ name) : (t.publishAll fs).get? name = t.get? name := by
  induction fs generalizing t with
  | nil => rfl
  | cons f fs ih =>
    rw [forall_mem_cons] at h
    refine (ih h.2).trans ?_
    show (t.publish f.1 f.2).get? name = _
    unfold publish
    split
    · exact get?_insert_of_ne h.1 _
    · exact get?_erase_of_ne h.1

theorem contains_clobbers_publishAll (h : ∀ f ∈ fs, f.1 ≠ name) (body : Code) (p : PhysReg) :
    (((t.publish name body).publishAll fs).clobbers name).contains p =
      (callerSaved.contains p &&
        (!isLeaf body || (ofList (body.flatMap mentioned)).contains p)) := by
  rw [clobbers, get?_publishAll h, publish]
  cases isLeaf body <;> simp

end ClobberTable

/-! ## Caller-saved registers of code -/

/-- The register is none of the caller-saved ones outside a set. -/
def Reg.Within (s : RegSet) (r : Reg) : Prop :=
  ∀ p : PhysReg, r.name = p.name → RegSet.callerSaved.contains p = true → s.contains p = true

/-- Of the caller-saved registers, an instruction mentions only those of a set, and it is no call. -/
structure Instr.IsConfined (s : RegSet) (i : Instr) : Prop where
  regs : ∀ r, .reg r ∈ i.operands → r.Within s
  noCall : i.op ≠ .call ∧ i.op ≠ .jalr

/-- Code that mentions only some of the caller-saved registers, and makes no calls. -/
def Confined (s : RegSet) (code : Code) : Prop := ∀ i ∈ code, i.IsConfined s

section Confined

variable {s : RegSet} {a b code : Code}

theorem Reg.within_ofPhys (hp : callerSaved.contains p = false) :
    (Reg.ofPhys p).Within s := by
  intro q hq hcaller
  obtain rfl : p = q := name_injective hq
  rw [hp] at hcaller
  cases hcaller

theorem Reg.within_stackReg : stackReg.Within s := within_ofPhys (by decide)

theorem Reg.within_calleeSaved (hp : RegSet.calleeSaved.contains p = true) :
    (Reg.ofPhys p).Within s := by
  have hall : ∀ q ∈ PhysReg.all, RegSet.calleeSaved.contains q = true →
      RegSet.callerSaved.contains q = false := by decide
  exact within_ofPhys (hall p (PhysReg.mem_all p) hp)

namespace Confined

theorem madeFrom (h : MadeFrom code out) (hc : Confined s code) : Confined s out := by
  intro k hk
  refine ⟨fun r hr => ?_, ?_⟩
  · rcases (h k hk).regs r hr with rfl | rfl | ⟨i, hi, hri⟩
    · exact Reg.within_ofPhys (by decide)
    · exact Reg.within_stackReg
    · exact (hc i hi).regs r hri
  · rcases (h k hk).op with hw | ⟨i, hi, hop⟩
    · constructor <;> (intro hop; rw [hop] at hw; cases hw)
    · exact hop ▸ (hc i hi).noCall

end Confined

theorem Instr.isConfined_load (hd : d.Within s) (hb : base.Within s) (o : Word) :
    (load d base o).IsConfined s where
  regs r hr := by
    simp only [load, mem_cons, Operand.reg.injEq, reduceCtorEq, not_mem_nil,
      or_false] at hr
    exact hr.elim (fun h => h ▸ hd) fun h => h ▸ hb
  noCall := by rcases d with ⟨x, _ | _⟩ <;> constructor <;> rintro ⟨⟩

theorem Instr.isConfined_store (hb : base.Within s) (hq : q.Within s) (o : Word) :
    (store base q o).IsConfined s where
  regs r hr := by
    simp only [store, mem_cons, Operand.reg.injEq, reduceCtorEq, not_mem_nil,
      or_false] at hr
    exact hr.elim (fun h => h ▸ hb) fun h => h ▸ hq
  noCall := by rcases q with ⟨x, _ | _⟩ <;> constructor <;> rintro ⟨⟩

theorem Instr.isConfined_move (hd : d.Within s) (hq : q.Within s) :
    (move d q).IsConfined s where
  regs r hr := by
    simp only [move, unary, mem_cons, Operand.reg.injEq, not_mem_nil,
      or_false] at hr
    exact hr.elim (fun h => h ▸ hd) fun h => h ▸ hq
  noCall := by rcases d with ⟨x, _ | _⟩ <;> constructor <;> rintro ⟨⟩

theorem Instr.isConfined_moveStack (delta : Word) : (moveStack delta).IsConfined s where
  regs r hr := by
    simp only [moveStack, immediate, mem_cons, Operand.reg.injEq, reduceCtorEq, not_mem_nil, or_false,
      or_self] at hr
    exact hr ▸ Reg.within_stackReg
  noCall := ⟨nofun, nofun⟩

/-- What expansion emits in the place of an instruction that calls nobody is confined as it is. -/
theorem Emitted.isConfined {k : Instr} (h : Emitted (Reg.Within s) i k)
    (hi : ∀ r ∈ i.regs, r.Within s) (hcall : i.op.isCall = false) : k.IsConfined s := by
  have htarget {r : Reg} (hr : r.IsTarget (Reg.Within s) i) : r.Within s :=
    hr.elim (fun hr => hi r (defs_subset_regs hr)) id
  have hsource {r : Reg} (hr : r.IsSource (Reg.Within s) i) : r.Within s :=
    hr.elim (fun hr => hi r (uses_subset_regs hr)) id
  cases h with
  | load hd hb =>
    exact isConfined_load (htarget hd) (hb.elim (fun hb => hb ▸ Reg.within_stackReg) hsource) _
  | store hr => exact isConfined_store Reg.within_stackReg (hsource hr) _
  | move hd hr => exact isConfined_move (htarget hd) (hsource hr)
  | moveStack => exact isConfined_moveStack _
  | transfer h =>
    rw [hcall] at h
    cases h
  | tailTransfer hop => rcases hop with hop | hop <;> rw [hop] at hcall <;> cases hcall
  | ret => exact ⟨nofun, by decide⟩

end Confined

/-! ## Expansion of a function that calls nobody -/

/-- The registers that a function is published with, if it calls nobody. -/
def mentionedSet (body : Code) : RegSet := RegSet.ofList (body.flatMap Instr.mentioned)

theorem contains_mentionedSet (hi : i ∈ body) (hp : p ∈ i.mentioned) :
    (mentionedSet body).contains p = true := by
  rw [mentionedSet, contains_ofList, contains_iff_mem]
  exact mem_flatMap.mpr ⟨i, hi, hp⟩

/-- Caller-saved registers have no fixed role, so that they count as mentioned. -/
theorem within_mentionedSet (hi : i ∈ body) (hr : r ∈ i.regs) :
    r.Within (mentionedSet body) := by
  intro p hname hcaller
  refine contains_mentionedSet hi ?_
  have hmem : p ∈ (i.regs.filter fun r => !r.isReserved).filterMap Reg.phys? := by
    refine mem_filterMap.mpr ⟨r, mem_filter.mpr ⟨hr, ?_⟩, ?_⟩
    · rw [Bool.not_eq_true', Bool.eq_false_iff, Reg.isReserved, hname, ne_eq,
        isReservedName_name]
      exact not_mem_reserved_of_callerSaved hcaller
    · rw [Reg.phys?, hname, ofName?_name]
  unfold mentioned
  dsimp only
  split
  · exact mem_append_left _ hmem
  · exact hmem

theorem within_result (hi : i ∈ body) (hop : i.op = .returnValue) (hr : i.reg? 0 = some r) :
    (Reg.ofPhys (.result r.cls)).Within (mentionedSet body) := by
  intro p hname _
  obtain rfl : result r.cls = p := name_injective hname
  refine contains_mentionedSet hi ?_
  simp only [mentioned, hop, if_true, hr, Option.map_some, Option.toList_some]
  exact mem_append_right _ (mem_singleton_self _)

section Leaf

variable {ctx : ExpansionContext} {block : Code} {position : Nat} {s s' : SlotState}

/-- The block of an instruction that calls nobody mentions what the instruction mentions. -/
theorem confined_expandInstr (hf : ctx.Saves (Reg.Within (mentionedSet body))) (hi : i ∈ body)
    (hcall : i.callsOut = false) (h : expandInstr ctx position i s = .ok (block, s')) :
    Confined (mentionedSet body) block := by
  have hregs : ∀ r ∈ i.regs, r.Within (mentionedSet body) := fun r => within_mentionedSet hi
  simp only [callsOut, Bool.or_eq_false_iff, decide_eq_false_iff_not] at hcall
  have hserves : ∀ r : Reg, r.Serves i → r.Within (mentionedSet body) := by
    rintro _ ⟨p, rfl, -, -, hop | hp | ⟨hop, q, hq, rfl⟩⟩
    · rw [hcall.1.1] at hop
      cases hop
    · exact Reg.within_ofPhys hp
    · exact within_result hi hop hq
  intro k hk
  rcases emitted_of_mem hserves hf h hk with ⟨-, -, rfl⟩ | hk
  · exact ⟨fun r hr => hregs r (mem_filterMap.mpr ⟨_, hr, rfl⟩), hcall.1.2, hcall.2⟩
  · exact hk.isConfined hregs hcall.1.1

end Leaf

theorem exists_of_mem_expand {frame? : Option Frame} {clobbers : ClobberTable} {code : Code}
    (h : expand frame? clobbers stack code = .ok (out, stack')) {k : Instr} (hk : k ∈ out) :
    (∃ f, frame? = some f ∧ k ∈ f.prologue) ∨ ∃ ctx position i s block s', ctx.frame? = frame? ∧
      i ∈ code ∧ expandInstr ctx position i s = .ok (block, s') ∧ k ∈ block := by
  obtain ⟨l, part, -, hx, rfl⟩ := expand_iff.mp h
  rcases mem_append.mp hk with hk | hk
  · rcases mem_bodyFront hk with hk | ⟨hcode, hlabel⟩
    · exact .inl hk
    · -- a label stays as it is, whatever it is expanded with
      refine .inr ⟨bodyContext frame? clobbers code l, 0, k, stack, [k], stack, rfl, hcode, ?_,
        mem_singleton_self k⟩
      exact expandInstr_of_not_isPseudo (Opcode.isPseudo_of_isLabel hlabel) 0 stack
  · obtain ⟨i, hi, block, ⟨position, s, s', hblock⟩, hk⟩ := (expands_body hx).exists_block_of_mem hk
    exact .inr ⟨_, position, i, s, block, s', rfl, mem_of_mem_drop hi, expandInstr_iff.mpr hblock, hk⟩

theorem confined_expand {frame? : Option Frame} {clobbers : ClobberTable}
    (hleaf : isLeaf body = true)
    (hf : ∀ f, frame? = some f → ∀ p ∈ f.saved, (Reg.ofPhys p).Within (mentionedSet body))
    (h : expand frame? clobbers stack body = .ok (out, stack')) :
    Confined (mentionedSet body) out := by
  intro k hk
  rcases exists_of_mem_expand h hk with ⟨f, hframe, hk⟩ |
    ⟨ctx, position, i, s, block, s', hframe, hi, hblock, hk⟩
  · exact (emitted_of_mem_prologue (i := .nop) (hf f hframe) hk).isConfined nofun rfl
  · have hcall : i.callsOut = false := by
      rw [isLeaf, Bool.not_eq_true'] at hleaf
      exact Bool.eq_false_iff.mpr (any_eq_false.mp hleaf i hi)
    have hsaves : ctx.Saves (Reg.Within (mentionedSet body)) := by rwa [Saves, hframe]
    exact confined_expandInstr hsaves hi hcall hblock k hk

/-! ## Runs of confined code -/

/-- Where a run stands, or has left. -/
def Status.hart? : Status HartConfig (Exit × Hart) → Option Hart
  | .running c => some c.hart
  | .exited x => some x.2
  | .stuck => none

theorem Transfer.hart_continueOn (code rest : Code) (h : Hart) (n : Nat) (t : Transfer) :
    (∃ c, t.continueOn code rest h n = .next [] c ∧ c.hart = h) ∨
      ∃ x, t.continueOn code rest h n = .exit [] (x, h) := by
  cases t with
  | next => exact .inl ⟨_, rfl, rfl⟩
  | branch l | jump l =>
    simp only [continueOn]
    split
    · exact .inl ⟨_, rfl, rfl⟩
    · exact .inr ⟨_, rfl⟩
  | exit x => exact .inr ⟨x, rfl⟩

theorem Instr.mem_operands_of_mem_defs (hd : d ∈ i.defs) : .reg d ∈ i.operands := by
  obtain ⟨o, ho, hod⟩ := mem_filterMap.mp (defs_subset_regs hd)
  cases o with
  | reg r =>
    cases hod
    exact ho
  | imm | fimm | label | mask => cases hod

section Runs

variable {env : HartEnvironment} {code : Code} {s : RegSet} {p : PhysReg}

theorem Confined.get_run (hc : Confined s code) (hi : i ∈ code)
    (hp : callerSaved.contains p = true) (hs : s.contains p = false) {h' : Hart}
    {t : Transfer} (hr : i.run env.toEnvironment h = some (h', t)) :
    h'.get (.ofPhys p) = h.get (.ofPhys p) := by
  refine get_run_of_not_mem hr fun d hd heq => ?_
  rw [(hc i hi).regs d (mem_operands_of_mem_defs hd) p heq.symm hp] at hs
  cases hs

/-- In a run of confined code nobody is called, and the caller-saved registers outside the set keep
their values. -/
theorem Confined.get_runFor (hc : Confined s code) (hp : callerSaved.contains p = true)
    (hs : s.contains p = false) (n : Nat) {c : HartConfig} (hrest : c.rest <:+ code) :
    (runFor (hartStep env code) n c).events = [] ∧
      ∀ h', (runFor (hartStep env code) n c).status.hart? = some h' →
        h'.get (.ofPhys p) = c.hart.get (.ofPhys p) := by
  induction n generalizing c with
  | zero =>
    refine ⟨rfl, fun h' hh => ?_⟩
    cases hh
    rfl
  | succ n ih =>
    obtain ⟨rest, h, calls⟩ := c
    cases rest with
    | nil =>
      refine ⟨rfl, fun h' hh => ?_⟩
      cases hh
      rfl
    | cons i rest =>
      have hi : i ∈ code := hrest.subset mem_cons_self
      have hcallee : i.callee? h = none := by
        cases hcallee : i.callee? h with
        | none => rfl
        | some callee => exact ((op_of_callee? hcallee).elim (hc i hi).noCall.1
            (hc i hi).noCall.2).elim
      cases hrun : i.run env.toEnvironment h with
      | none =>
        have hstep : hartStep env code ⟨i :: rest, h, calls⟩ = .stuck := by
          simp only [hartStep, hcallee, hrun]
        rw [runFor_succ_stuck hstep]
        refine ⟨rfl, fun h' hh => ?_⟩
        cases hh
      | some r =>
        obtain ⟨h₁, t⟩ := r
        have hkept : h₁.get (.ofPhys p) = h.get (.ofPhys p) := hc.get_run hi hp hs hrun
        have hstep : hartStep env code ⟨i :: rest, h, calls⟩ = t.continueOn code rest h₁ calls := by
          simp only [hartStep, hcallee, hrun]
        rcases Transfer.hart_continueOn code rest h₁ calls t with ⟨c, hnext, hhart⟩ | ⟨x, hexit⟩
        · have hsuffix := Transfer.suffix_of_continueOn hnext
            ((suffix_cons i rest).trans hrest)
          obtain ⟨hevents, hstatus⟩ := ih hsuffix
          rw [runFor_succ_next (hstep.trans hnext)]
          refine ⟨hevents, fun h' hh => ?_⟩
          rw [hstatus h' hh, hhart, hkept]
        · rw [runFor_succ_exit (hstep.trans hexit)]
          refine ⟨rfl, fun h' hh => ?_⟩
          cases hh
          exact hkept

end Runs

/-! ## Calls -/

section Calls

variable {table : ClobberTable} {site : CallSite} {targets : List PhysReg} {live : LiveSet}
  {name : String} {words : Nat}

/-- A call loses none of the live registers, if the callee returns as it should and keeps the
caller-saved registers that it is not known to overwrite. -/
theorem get_callCode_of_keeps (env : HartEnvironment) (code rest : Code) (n : Nat)
    (htarget : site.target = .direct name) (htargets : assignArgs name site.args = .ok targets)
    (hw : words ≤ SlotLayout.limit) (hentry : h₁ = effectOf env.toEnvironment
      (callEntry site words targets (savedAcross table site targets live)) h)
    (hreply : env.reply n (.function name) h₁ = h₂) (hreturns : h₁.Returns (h.get stackReg) h₂)
    (hkeeps : ∀ p, callerSaved.contains p = true → (table.clobbers name).contains p = false →
      h₂.get (.ofPhys p) = h₁.get (.ofPhys p)) :
    ∃ m h₃, runFor (hartStep env code) m ⟨callCode site (Word.ofCount words) targets
        (savedAcross table site targets live) ++ rest, h, n⟩ =
          ⟨[⟨.function name, h₁⟩], .running ⟨rest, h₃, n + 1⟩⟩ ∧
      ∀ p, live.phys.contains p = true → callerSaved.contains p = true →
        site.dest?.bind Reg.phys? ≠ some p → h₃.get (.ofPhys p) = h.get (.ofPhys p) := by
  have hlimit : SlotLayout.limit = 536870912 := rfl
  have hargs := contains_callerSaved_of_assignArgs htargets
  have hcaller := @contains_callerSaved_of_savedAcross table site targets live hargs
  have hlen := length_savedAcross_le table site targets live
  have hprepared : Prepared site words targets (savedAcross table site targets live) h h₁ :=
    hentry ▸ prepared_callEntry env.toEnvironment h hw htargets
  have hcallee : site.target.calleeAt h₁ = .function name := by
    rw [htarget]
    rfl
  obtain ⟨m, hm⟩ := runFor_callCode env code rest n hentry
  rw [hcallee, hreply] at hm
  have hresumed := @resumed_effectOf_callReturn env.toEnvironment h₂ site words _ (h.get stackReg)
    nodup_savedAcross hcaller (hreturns.stack.trans hprepared.stack)
  refine ⟨m, _, hm, fun p hlive hp hdest => ?_⟩
  refine get_of_resumed hprepared hresumed rfl hargs (fun k hk => ?_) (hreturns.saved p)
    (fun hp hclob => hkeeps p hp ?_) (.inr ⟨hp, hlive⟩) fun d hd hn => hdest ?_
  · exact hreturns.memory _ (Hart.inFrame_cell hprepared.stack (by omega) (by omega))
  · rwa [htarget] at hclob
  · rw [hd, Option.bind_some, Reg.phys?, hn, ofName?_name]

end Calls

/-! ## Published functions -/

/-- The code that runs for a body: expanded with the frame of the registers it touches, and perhaps
optimized. -/
inductive RunsAs (body : Code) : Code → Prop where
  | expanded {touched : RegSet} {clobbers : ClobberTable} {stack stack' : SlotState} {out : Code} :
    touchedRegisters body = .ok touched →
    expand (some (.ofTouched touched)) clobbers stack body = .ok (out, stack') → RunsAs body out
  | optimized {out : Code} {options : OptimizerOptions} {v : Vectorized} : RunsAs body out →
    optimize options out = .ok v → RunsAs body v.code

theorem RunsAs.confined {code : Code} (h : RunsAs body code) (hleaf : isLeaf body = true) :
    Confined (mentionedSet body) code := by
  induction h with
  | expanded _ hexpand =>
    refine confined_expand hleaf (fun f hf p hp => ?_) hexpand
    cases hf
    exact Reg.within_calleeSaved (Frame.calleeSaved_of_mem_ofTouched hp)
  | optimized _ hv ih => exact ih.madeFrom (madeFrom_optimize hv)

/-- A call is answered by a run of some code, which returns as it should. -/
structure HartEnvironment.AnswersBy (env : HartEnvironment) (n : Nat) (callee : Callee) (code : Code)
    (top : Word) (h : Hart) : Prop where
  runs : ∃ calleeEnv m calls events exit, runFor (hartStep calleeEnv code) m ⟨code, h, calls⟩ =
    ⟨events, .exited (exit, env.reply n callee h)⟩
  returns : h.Returns top (env.reply n callee h)

/-- Whatever is published later under other names: the caller-saved registers that the code of a
published function writes are in its clobber set, and if the function calls nobody, a call of it that
saves the live registers of the clobber set loses none of the live registers. -/
theorem defs_subset_clobbers {t : ClobberTable} {name : String} {others : List (String × Code)}
    (hothers : ∀ f ∈ others, f.1 ≠ name) {body code : Code} (hcode : RunsAs body code) :
    (∀ i ∈ code, ∀ d ∈ i.defs, ∀ p, d.phys? = some p → RegSet.callerSaved.contains p = true →
      (((t.publish name body).publishAll others).clobbers name).contains p = true) ∧
    (isLeaf body = true → ∀ (env : HartEnvironment) (caller rest : Code) (site : CallSite)
      (targets : List PhysReg) (live : LiveSet) (words n : Nat) (h h₁ : Hart),
      site.target = .direct name → assignArgs name site.args = .ok targets →
      words ≤ SlotLayout.limit →
      h₁ = effectOf env.toEnvironment (callEntry site words targets
        (savedAcross ((t.publish name body).publishAll others) site targets live)) h →
      env.AnswersBy n (.function name) code (h.get stackReg) h₁ →
      ∃ m h₂, runFor (hartStep env caller) m ⟨callCode site (Word.ofCount words) targets
          (savedAcross ((t.publish name body).publishAll others) site targets live) ++ rest, h, n⟩ =
            ⟨[⟨.function name, h₁⟩], .running ⟨rest, h₂, n + 1⟩⟩ ∧
        ∀ p, live.phys.contains p = true → RegSet.callerSaved.contains p = true →
          site.dest?.bind Reg.phys? ≠ some p → h₂.get (.ofPhys p) = h.get (.ofPhys p)) := by
  constructor
  · intro i hi d hd p hdp hp
    rw [ClobberTable.contains_clobbers_publishAll hothers, hp, Bool.true_and, Bool.or_eq_true]
    cases hleaf : isLeaf body with
    | false => exact .inl rfl
    | true =>
      right
      have hfound : PhysReg.all.find? (fun r => r.name == d.name) = some p := hdp
      have hname := find?_some hfound
      have hname : d.name = p.name := (beq_iff_eq.mp hname).symm
      exact ((hcode.confined hleaf) i hi).regs d (Instr.mem_operands_of_mem_defs hd) p hname hp
  · intro hleaf env caller rest site targets live words n h h₁ htarget htargets hw hentry hanswer
    obtain ⟨calleeEnv, m, calls, events, exit, hrun⟩ := hanswer.runs
    refine get_callCode_of_keeps env caller rest n htarget htargets hw hentry rfl hanswer.returns
      fun p hp hclobbers => ?_
    rw [ClobberTable.contains_clobbers_publishAll hothers, hp, Bool.true_and, hleaf, Bool.not_true,
      Bool.false_or] at hclobbers
    have hkept := (@Confined.get_runFor calleeEnv code _ p (hcode.confined hleaf) hp hclobbers m
      ⟨code, h₁, calls⟩ (suffix_refl code)).2
    rw [hrun] at hkept
    exact hkept _ rfl

/-- A function that calls nobody. -/
def sumLeaf : Code :=
  [.labelled "f", .binary .add (.int "a3") (.int "a1") (.int "a2"), ⟨.returnValue, [Reg.int "a3"]⟩]

/-- Callees that leave what `sumLeaf` leaves. -/
def sumCallees : HartEnvironment :=
  { plainEnvironment with
    reply := fun _ _ h =>
      (h.set (.int "a3") (h.get (.int "a1") + h.get (.int "a2"))).set (.int "a1")
        (h.get (.int "a1") + h.get (.int "a2")) }

/-- Its code, as the callees of a call run it. -/
def sumLeafExpanded : Code :=
  [.labelled "f", .binary .add (.int "a3") (.int "a1") (.int "a2"), .move (.int "a1") (.int "a3"),
    ⟨.ret, []⟩]

theorem runsAs_sumLeaf : RunsAs sumLeaf sumLeafExpanded := by
  have htouched : touchedRegisters sumLeaf =
      .ok (ofList (ofNames ["a1", "a2", "a3"])) := by
    refine eq_ok_of_toOption ?_
    decide +kernel
  have hexpand : expand (some (.ofTouched (ofList (ofNames ["a1", "a2", "a3"]))))
      .empty .empty sumLeaf = .ok (sumLeafExpanded, .empty) := by
    refine eq_ok_of_toOption ?_
    decide +kernel
  exact .expanded htouched hexpand

theorem answersBy_sumLeaf (top : Word) (h : Hart) :
    sumCallees.AnswersBy 0 (.function "f") sumLeafExpanded top h where
  runs := by
    refine ⟨sumCallees, 4, 0, [], .toCaller, ?_⟩
    have hsum : (h.set (.int "a3") (h.get (.int "a1") + h.get (.int "a2"))).get (.int "a3") =
        h.get (.int "a1") + h.get (.int "a2") := Hart.get_set_self (by decide)
    simp only [sumCallees]
    rw [← hsum]
    rfl
  returns := by
    have hkept : ∀ r : Reg, r.name ≠ "a1" → r.name ≠ "a3" →
        (sumCallees.reply 0 (.function "f") h).get r = h.get r := fun r h₁ h₃ => by
      simp only [sumCallees]
      rw [Hart.get_set_of_ne h₁, Hart.get_set_of_ne h₃]
    have hall : ∀ q ∈ PhysReg.all, RegSet.calleeSaved.contains q = true →
        q.name ≠ "a1" ∧ q.name ≠ "a3" := by decide
    refine ⟨hkept _ (by decide) (by decide), fun r hr => ?_, fun a _ => by simp [sumCallees]⟩
    obtain ⟨h₁, h₃⟩ := hall r (PhysReg.mem_all r) hr
    exact hkept (.ofPhys r) h₁ h₃

/-- A register that the function overwrites and one that it leaves alone, live across a call. -/
def liveAcrossSum : LiveSet := .ofList [.int "a3", .int "x5"]

theorem defs_subset_clobbers_sumLeaf : ∃ m h₂ events,
    runFor (hartStep sumCallees []) m ⟨callCode ⟨none, .direct "f", []⟩ (Word.ofCount 0) []
        (savedAcross ((ClobberTable.empty.publish "f" sumLeaf).publishAll [("g", [])])
          ⟨none, .direct "f", []⟩ [] liveAcrossSum) ++ [], filledHart 400, 0⟩ =
      ⟨events, .running ⟨[], h₂, 1⟩⟩ ∧
    h₂.get (.int "a3") = (filledHart 400).get (.int "a3") ∧
    h₂.get (.int "x5") = (filledHart 400).get (.int "x5") := by
  obtain ⟨m, h₂, hrun, hkept⟩ := (@defs_subset_clobbers .empty "f" [("g", [])] (by decide) _ _
    runsAs_sumLeaf).2 (by decide) sumCallees [] [] ⟨none, .direct "f", []⟩ [] liveAcrossSum 0 0
    (filledHart 400) _ rfl rfl (Nat.zero_le _) rfl (answersBy_sumLeaf _ _)
  refine ⟨m, h₂, _, hrun, hkept ⟨.int, 13⟩ ?_ ?_ nofun, hkept ⟨.int, 5⟩ ?_ ?_ nofun⟩ <;>
    decide +kernel

end ClosureCodegen
