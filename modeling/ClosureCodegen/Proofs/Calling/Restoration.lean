import ClosureCodegen.Proofs.Allocation.Rounds
import ClosureCodegen.Proofs.Calling.CallCode

/-!
# A function restores the world of its caller

Wherever control leaves an expanded function, be it by a return, by a tail call of a label or by a
tail call of a closure, the stack pointer, the return address and the callee-saved registers are what
they were at entry.  This holds in every run in which callees and heap accesses keep to the stack
discipline, whatever the function does on the way: calls, spill traffic, nested conditionals, and
tail calls of itself.

The invariant is `Working`, between any two blocks of the body.  A callee-saved register that is not
saved is not written, since the frame saves those that the body touches.

* `leads_block`: the block of one instruction keeps the invariant, or leaves with the world restored.
* `restored_of_visits`: the result for whole runs.
-/

namespace ClosureCodegen
open List Outcome PhysReg SlotLayout ClosureCodegen.Frame Instr

variable {code body : Code} {i : Instr} {stack : SlotState}

/-- A body in the form that expansion expects: it leaves the stack pointer and the return address to
the expansion, as well as calls and returns of the machine; its jumps and branches stay in it, and
its tail calls do not go to its own inner labels. -/
structure IsFunctionBody (body : Code) : Prop where
  operands : ∀ i ∈ body, ∀ r ∈ i.regs,
    r.names .stackPointer = false ∧ r.names .returnAddress = false
  opcodes : ∀ i ∈ body, i.op ≠ .call ∧ i.op ≠ .jalr ∧ i.op ≠ .ret
  inside : ∀ i ∈ body, ∀ l, i.label? = some l → i.op = .j ∨ i.op.isBranch = true →
    l ∈ labelNames body
  outside : ∀ i ∈ body, ∀ l, i.label? = some l → i.op = .tailDirect ∨ i.op = .tailClosure →
    l ∉ labelNames body

/-! ## Free registers -/

/-- What a body defines is free: the frame saves the callee-saved registers that the body touches. -/
theorem isFree_of_mem_defs {touched : RegSet} (hbody : IsFunctionBody body)
    (hcode : ∀ i ∈ body, i ∈ code) (ht : touchedRegisters code = .ok touched) (hi : i ∈ body)
    {d : Reg} (hd : d ∈ i.defs) : d.IsFree (ofTouched touched).saved := by
  obtain ⟨hsp, hra⟩ := hbody.operands i hi d (defs_subset_regs hd)
  refine ⟨beq_eq_false_iff_ne.mp hsp, beq_eq_false_iff_ne.mp hra, fun p hp hps hn => hps ?_⟩
  -- a callee-saved register has no fixed role, so that the liveness of the body knows of it
  have htracked : d ∈ i.trackedDefs := by
    refine mem_filter.mpr ⟨hd, ?_⟩
    rw [Bool.not_eq_true', Reg.isReserved, hn, Bool.eq_false_iff, ne_eq,
      isReservedName_name]
    exact (calleeSaved_ne hp).2.2
  simp only [touchedRegisters, bind_eq_ok, pure_eq_ok] at ht
  obtain ⟨l, hl, rfl⟩ := ht
  obtain ⟨k, hk⟩ := mem_iff_getElem?.mp (hcode i hi)
  have htouched : d ∈ l.touched := by
    refine LiveSet.mem_unions.mpr ⟨l.defs k, ?_, (Liveness.mem_defs hl hk).mpr htracked⟩
    have hlt : k < l.size := by
      rw [Liveness.size_ofCode hl]
      exact (List.getElem?_eq_some_iff.mp hk).1
    exact mem_flatMap.mpr ⟨k, mem_range.mpr hlt, by simp⟩
  rw [ofTouched, mem_toList, RegSet.contains_inter, hp, Bool.true_and, LiveSet.phys,
    RegSet.contains_ofList, contains_iff_mem, mem_filterMap]
  refine ⟨d, htouched, ?_⟩
  rw [Reg.phys?, hn, ofName?_name]

/-! ## Blocks -/

/-- Where control goes from a block: on with the function, or out of it with the world restored. -/
def Arrives (inner : List String) (start : Hart) (saved : List PhysReg) :
    Transfer → Hart → Prop
  | .next, h => Working start saved saved.length h
  | .branch l, h =>
    (l ∈ inner → Working start saved saved.length h) ∧ (l ∉ inner → Restored start h)
  | .jump l, h =>
    (l ∈ inner → Working start saved saved.length h) ∧ (l ∉ inner → Restored start h)
  | .exit _, _ => True

/-- What the blocks of a body depend on. -/
structure Setting (ctx : ExpansionContext) (body : Code) (saved : List PhysReg) : Prop
    extends IsFunctionBody body where
  frame : ctx.frame? = some ⟨saved⟩
  calleeSaved : ∀ r ∈ saved, RegSet.calleeSaved.contains r = true
  length_saved : saved.length ≤ 64
  slots : ctx.layout.size ≤ SlotLayout.limit
  free : ∀ i ∈ body, ∀ d ∈ i.defs, d.IsFree saved

theorem Frame.calleeSaved_of_mem_ofTouched {touched : RegSet} {p : PhysReg}
    (hp : p ∈ (ofTouched touched).saved) : RegSet.calleeSaved.contains p = true := by
  have hmem := mem_toList.mp hp
  rw [RegSet.contains_inter, Bool.and_eq_true] at hmem
  exact hmem.1

theorem IsFunctionBody.setting {ctx : ExpansionContext} {f : String} {touched : RegSet}
    (hbody : IsFunctionBody body) (ht : touchedRegisters (.labelled f :: body) = .ok touched)
    (hframe : ctx.frame? = some (ofTouched touched)) (hsize : ctx.layout.size ≤ limit) :
    Setting ctx body (ofTouched touched).saved where
  toIsFunctionBody := hbody
  frame := hframe
  calleeSaved _ hr := calleeSaved_of_mem_ofTouched hr
  length_saved := length_toList_le _
  slots := hsize
  free _ hi _ hd := isFree_of_mem_defs hbody (fun _ hk => mem_cons_of_mem _ hk) ht hi hd

section Blocks

variable {ctx : ExpansionContext} {saved : List PhysReg} {env : Environment} {start h : Hart}
  {block : Code}

theorem Working.run (hset : Setting ctx body saved) (hi : i ∈ body)
    (hw : Working start saved saved.length h) {h' : Hart} {t : Transfer}
    (hr : i.run env h = some (h', t))
    (hm : ∀ a, h.InFrame (start.get stackReg) a → h'.memory a = h.memory a) :
    Working start saved saved.length h' := by
  have hkept : ∀ r : Reg, (∀ d ∈ i.defs, d.name ≠ r.name) → h'.get r = h.get r := fun r hd =>
    get_run_of_not_mem hr fun d hdef => (hd d hdef).symm
  have := hset.length_saved
  exact hw.congr (hkept _ fun d hd => (hset.free i hi d hd).stack)
    (hkept _ fun d hd => (hset.free i hi d hd).returnAddress)
    (fun p hp hps => hkept _ fun d hd => (hset.free i hi d hd).kept p hp hps)
    fun k hk => hm _ (Hart.inFrame_cell hw.stack hk (by omega))

theorem Instr.namesStack_eq_false (hbody : IsFunctionBody body) (hi : i ∈ body) :
    i.namesStack = false :=
  any_eq_false.mpr fun r hr => Bool.eq_false_iff.mp (hbody.operands i hi r hr).1

/-- Code leads on through the body, and whatever leaves it finds the world restored. -/
abbrev LeadsOn (env : Environment) (body : Code) (start : Hart) (saved : List PhysReg) :
    Code → Hart → Prop :=
  Leads env (start.get stackReg) (LeavesRestored (labelNames body) start)
    (Arrives (labelNames body) start saved)

theorem leads_own (hset : Setting ctx body saved) (hi : i ∈ body)
    (hw : Working start saved saved.length h) :
    LeadsOn env body start saved [i] h := by
  obtain ⟨hcall, hjalr, hret⟩ := hset.opcodes i hi
  refine leads_singleton (fun hd => ?_) fun h' t hm => ?_
  · -- the jumps of the body stay in it
    cases hd with
    | ret => exact absurd rfl hret
    | jump hl => exact absurd (hset.inside _ hi _ rfl (.inl rfl)) hl
    | indirect => exact absurd rfl hjalr
  · rcases hm with ⟨callee, hc, _⟩ | ⟨_, hrun, hmem⟩
    · exact ((op_of_callee? hc).elim hcall hjalr).elim
    · have hw' := hw.run hset hi hrun (hmem (namesStack_eq_false hset.toIsFunctionBody hi))
      have ht := canTransfer_run hrun
      cases t with
      | next => exact hw'
      | branch l =>
        have hl := hset.inside i hi l ht.2 (.inr ht.1)
        exact ⟨fun _ => hw', fun hn => absurd hl hn⟩
      | jump l =>
        have hl := hset.inside i hi l ht.2 (.inl ht.1)
        exact ⟨fun _ => hw', fun hn => absurd hl hn⟩
      | exit x => trivial

theorem leads_ret (hr : Restored start h) : LeadsOn env body start saved [⟨.ret, []⟩] h := by
  refine leads_singleton (fun _ => hr) fun h' t hm => ?_
  obtain ⟨rfl, rfl⟩ := hm.of_run rfl (k := h) (u := .exit .toCaller) rfl
  trivial

theorem leads_tailTransfer {target : CallTarget} (hr : Restored start h)
    (hl : ∀ l, target = .direct l → l ∉ labelNames body) :
    LeadsOn env body start saved [tailTransfer target] h := by
  refine leads_singleton (fun _ => hr) fun h' t hm => ?_
  cases target with
  | direct l =>
    obtain ⟨rfl, rfl⟩ := hm.of_run rfl (k := h) (u := .jump l) rfl
    exact ⟨fun hin => absurd hin (hl l rfl), fun _ => hr⟩
  | closure c =>
    obtain ⟨-, rfl⟩ := hm.of_run rfl (u := .exit (.toAddress (h.get (.ofPhys .scratch) + 0))) rfl
    trivial

theorem leads_load {d b : Reg} {o : Word} (hd : d.IsFree saved)
    (hw : Working start saved saved.length h) : LeadsOn env body start saved [.load d b o] h := by
  refine (passes_instr (isStraight_load d b o) fun k hk => ?_).leads_self (fun _ hw => hw) hw
  rw [effect_loadWord]
  exact hk.set hd _

variable (hset : Setting ctx body saved)
include hset

theorem Setting.leave_eq : ctx.leave = (Frame.mk saved).epilogue := by
  rw [ExpansionContext.leave, hset.frame]

variable (hn : saved.Nodup)
include hn

theorem leads_tailCall {site : CallSite} {targets : List PhysReg} (hi : i ∈ body)
    (htail : i.isTail = true) (hsite : CallSite.ofInstr i = .ok site)
    (htargets : assignArgs site.target.name site.args = .ok targets)
    (hw : Working start saved saved.length h) :
    LeadsOn env body start saved (enterClosure site.target ++
        passArguments site.args targets ++ ctx.leave ++ [tailTransfer site.target]) h := by
  have hop := op_of_isTail htail
  have hcall : i.op.isCall = true := by rcases hop with hop | hop <;> rw [hop] <;> rfl
  have hlen := hset.length_saved
  have hlen' := length_assignArgs_le htargets
  have hpass : Passes env (start.get stackReg) (LeavesRestored (labelNames body) start)
      (Working start saved saved.length) (enterClosure site.target ++ passArguments site.args targets)
      (Working start saved saved.length) := by
    refine passes_of_straight (isStraightCode_append (isStraightCode_enterClosure _)
      (isStraightCode_passArguments _ _)) fun k hk => ?_
    rw [effectOf_append]
    exact hk.passArguments htargets (by omega)
  rw [hset.leave_eq]
  refine (hpass.append (passes_epilogue hset.calleeSaved hn)).leads (fun k hr => ?_) hw
  refine leads_tailTransfer hr fun l hl => ?_
  exact hset.outside i hi l ((CallSite.partsOf_ofInstr hcall hsite).label l hl) hop

/-- The block of an instruction keeps the function at work, or leaves with the world restored. -/
theorem leads_block (hi : i ∈ body) (hB : ExpansionBlock ctx i block)
    (hw : Working start saved saved.length h) : LeadsOn env body start saved block h := by
  obtain ⟨position, stack, stack', hs, hx⟩ := hB
  have hlen := hset.length_saved
  have hslots := hset.slots
  rw [limit] at hslots
  have hfree {r : Reg} (hr : i.reg? 0 = some r) (hdefs : i.defs = i.regs) : r.IsFree saved :=
    hset.free i hi r (hdefs ▸ mem_regs_of_reg? hr)
  cases expandInstr_iff.mp hx with
  | @store r slot p offset hop hslot hoffset =>
    have hp := position?_lt (ExpansionContext.slot_eq_ok hslot).2.2
    obtain rfl : offset = Word.below p := eq_of_checkedOffset hoffset
    refine (passes_instr (isStraight_store _ _ _) fun k hk => ?_).leads_self (fun _ hw => hw) hw
    rw [effect_storeWord]
    exact hk.write (Nat.le_refl _) (by omega) _
  | load hop hslot =>
    exact leads_load (hfree (ExpansionContext.slot_eq_ok hslot).1
      (by simp only [defs, hop, Opcode.effect])) hw
  | captured hop hreg => exact leads_load (hfree hreg (by simp only [defs, hop, Opcode.effect])) hw
  | param => exact .nil hw
  | value hop =>
    rw [hset.leave_eq]
    refine (Passes.append (Q := Working start saved saved.length) ?_
      (passes_epilogue hset.calleeSaved hn)).leads (fun _ hr => leads_ret hr) hw
    cases hr : i.reg? 0 with
    | none => exact Passes.nil fun _ hw => hw
    | some d =>
      refine passes_instr (isStraight_move _ _) fun k hk => ?_
      rw [effect_moveReg]
      exact hk.set (isFree_of_callerSaved (by cases d.cls <;> decide)) _
  | unit =>
    rw [hset.leave_eq]
    exact (passes_epilogue hset.calleeSaved hn).leads (fun _ hr => leads_ret hr) hw
  | @call site height targets hop _ hsite hheight htargets =>
    obtain ⟨words, hwords, rfl⟩ := slotBytes_eq_ok hs hheight
    refine (passes_callCode (Nat.le_trans hwords hset.slots) hset.length_saved htargets rfl
      fun d hd => hset.free i hi d ?_).leads_self (fun _ hw => hw) hw
    rw [(CallSite.partsOf_ofInstr hop hsite).defs, hd]
    exact mem_singleton_self d
  | tail htail hsite htargets => exact leads_tailCall hset hn hi htail hsite htargets hw
  | self => exact leads_own hset hi hw

end Blocks

/-! ## Runs -/

/-- Control stands somewhere in a block of the body, and the rest of the block leads on. -/
def Stands (ctx : ExpansionContext) (body : Code) (saved : List PhysReg) (env : Environment)
    (start : Hart) (c : HartConfig) : Prop :=
  ∃ block rest rest', c.rest = block ++ rest' ∧ rest <:+ body ∧
    Expands (ExpansionBlock ctx) rest rest' ∧
    LeadsOn env body start saved block c.hart

section Runs

variable {ctx : ExpansionContext} {out : Code} {saved : List PhysReg} {env : HartEnvironment}
  {start : Hart} {c c' : HartConfig} {f : String}

theorem Stands.exists_cons (hn : saved.Nodup) (hset : Setting ctx body saved)
    (hc : Stands ctx body saved env.toEnvironment start c) (hi : c.rest = i :: code) :
    ∃ block rest rest', code = block ++ rest' ∧ rest <:+ body ∧
      Expands (ExpansionBlock ctx) rest rest' ∧
      LeadsOn env.toEnvironment body start saved (i :: block) c.hart := by
  obtain ⟨block, rest, rest', heq, hsuf, hexp, hl⟩ := hc
  rw [hi] at heq
  cases block with
  | cons k block =>
    rw [cons_append, List.cons.injEq] at heq
    obtain ⟨rfl, rfl⟩ := heq
    exact ⟨block, rest, rest', rfl, hsuf, hexp, hl⟩
  | nil =>
    -- behind an empty block the next one starts, with the function at work
    have hw : Working start saved saved.length c.hart := by
      cases hl with
      | nil hw => exact hw
    rw [nil_append] at heq
    subst heq
    generalize hcode : i :: code = code' at hexp
    induction hexp with
    | nil => cases hcode
    | @cons k block rest rest' hB hrest ih =>
      have hk : k ∈ body := hsuf.subset mem_cons_self
      have hlead : LeadsOn env.toEnvironment body start saved block
          c.hart := leads_block hset hn hk hB hw
      have hsuf' := (suffix_cons k rest).trans hsuf
      cases block with
      | nil => exact ih hsuf' hcode
      | cons j block =>
        rw [cons_append, List.cons.injEq] at hcode
        obtain ⟨rfl, rfl⟩ := hcode
        exact ⟨block, rest, rest', rfl, hsuf', hrest, hlead⟩

/-- A function as it is expanded: its entry label, the code that sets its frame up, and the blocks
of its body. -/
def functionCode (f : String) (saved : List PhysReg) (out : Code) : Code :=
  .labelled f :: ((Frame.mk saved).prologue ++ out)

theorem codeAfter?_functionCode (l : String) :
    codeAfter? l (functionCode f saved out) =
      (codeAfter? l out).or
        (if f = l then some ((mk saved).prologue ++ out) else none) := by
  have hprologue : ∀ k ∈ (mk saved).prologue, k.isLabel = false := fun k hk =>
    (of_isGlue (isGlue_prologue _ k hk)).2.1
  rw [functionCode, codeAfter?_cons, codeAfter?_append_of_not_isLabel hprologue]
  simp [labelled, isLabel, label?]

theorem Stands.step (hn : saved.Nodup) (hset : Setting ctx body saved)
    (hexp : Expands (ExpansionBlock ctx) body out)
    (hc : Stands ctx body saved env.toEnvironment start c) {events : List HartEvent}
    (hs : hartStep env (functionCode f saved out) c = .next events c')
    (hr : c.Respects (start.get stackReg) events c') :
    Stands ctx body saved env.toEnvironment start c' := by
  obtain ⟨i, code, t, hi, hmoves, hfollows⟩ := exists_moves_of_hartStep hs hr
  obtain ⟨block, rest, rest', rfl, hsuf, hexp', hl⟩ := hc.exists_cons hn hset hi
  -- a label of the body leads to the blocks behind it, and no other but that of the function
  -- itself is in the code
  have hlabel : ∀ l, codeAfter? l (functionCode f saved out) = some c'.rest →
      (l ∈ labelNames body → Working start saved saved.length c'.hart) ∧
        (l ∉ labelNames body → Restored start c'.hart) →
      Stands ctx body saved env.toEnvironment start c' := by
    intro l hl harrives
    rw [codeAfter?_functionCode, Option.or_eq_some_iff] at hl
    rcases hexp.codeAfter? (keepsLabels_expansionBlock ctx) l with
      ⟨h₁, h₂⟩ | ⟨target, target', h₁, h₂, htarget⟩
    · rw [h₂] at hl
      rcases hl with hl | ⟨_, hl⟩
      · cases hl
      · split at hl
        · have hrest := Option.some.inj hl
          refine ⟨(mk saved).prologue, body, out, hrest.symm, suffix_rfl, hexp, ?_⟩
          exact (passes_prologue hset.calleeSaved hset.length_saved).leads_self (fun _ hw => hw)
            (harrives.2 (codeAfter?_eq_none_iff.mp h₁))
        · cases hl
    · rw [h₂] at hl
      have hrest : target' = c'.rest := by
        rcases hl with hl | ⟨hl, _⟩
        · exact Option.some.inj hl
        · cases hl
      have hmem : l ∈ labelNames body := by
        by_contra hn
        rw [codeAfter?_eq_none_iff.mpr hn] at h₁
        cases h₁
      exact ⟨[], target, target', hrest.symm, codeAfter?_suffix h₁, htarget,
        .nil (harrives.1 hmem)⟩
  cases hl with
  | cons _ hnext hout =>
    cases t with
    | next => exact ⟨block, rest, rest', hfollows, hsuf, hexp', hnext _ hmoves⟩
    | branch l => exact hlabel l hfollows (hout c'.hart (.branch l) nofun hmoves)
    | jump l => exact hlabel l hfollows (hout c'.hart (.jump l) nofun hmoves)
    | exit x => exact hfollows.elim

theorem stands_of_visits (hn : saved.Nodup) (hset : Setting ctx body saved)
    (hexp : Expands (ExpansionBlock ctx) body out) {calls : Nat}
    (hv : Visits env (functionCode f saved out) (start.get stackReg)
      ⟨functionCode f saved out, start, calls⟩ c) :
    Stands ctx body saved env.toEnvironment start c := by
  induction hv with
  | start =>
    refine ⟨.labelled f :: (mk saved).prologue, body, out, rfl, suffix_rfl, hexp, ?_⟩
    have hentry : Passes env.toEnvironment (start.get stackReg)
        (LeavesRestored (labelNames body) start) (Restored start) [.labelled f] (Restored start) :=
      Passes.instr (fun _ _ => nofun) fun h _ _ hr hm => by
        obtain ⟨rfl, rfl⟩ := hm.of_run rfl (k := h) (u := .next) rfl
        exact ⟨rfl, hr⟩
    exact (hentry.cons (passes_prologue hset.calleeSaved hset.length_saved)).leads_self
      (fun _ hw => hw) (.refl start)
  | step _ hs hr ih => exact ih.step hn hset hexp hs hr

end Runs

/-- Wherever control leaves a function, the world of the caller is restored. -/
theorem restored_of_visits {f : String} {body out : Code} {touched : RegSet}
    {clobbers : ClobberTable} {stack : SlotState} (hbody : IsFunctionBody body)
    (ht : touchedRegisters (.labelled f :: body) = .ok touched)
    (hx : expand (some (Frame.ofTouched touched)) clobbers .empty (.labelled f :: body) =
      .ok (out, stack))
    {env : HartEnvironment} {start : Hart} {calls : Nat} {c : HartConfig} {i : Instr} {rest : Code}
    (hv : Visits env out (start.get stackReg) ⟨out, start, calls⟩ c) (hc : c.rest = i :: rest)
    (hd : Departs (labelNames body) i) : Restored start c.hart := by
  obtain ⟨l, out', -, hrange, rfl⟩ := expand_iff.mp hx
  have hn : (Frame.ofTouched touched).saved.Nodup := nodup_toList _
  have hset := hbody.setting ht rfl (size_bodyContext_le hrange)
  have hstands := stands_of_visits hn hset (expansionBlocks_body hrange) hv
  obtain ⟨block, _, _, -, -, -, hl⟩ := hstands.exists_cons hn hset hc
  cases hl with
  | cons hcheck _ _ => exact hcheck hd

def keepAcrossCall : Code :=
  [.li (.int "x8") 5, ⟨.spillStore, [Reg.int "x8", .label "v"]⟩, ⟨.callDirect, [.label "g"]⟩,
    ⟨.spillLoad, [Reg.int "x9", .label "v"]⟩, ⟨.returnValue, [Reg.int "x9"]⟩]

/-- Its expansion: both registers are saved, and the call is made below the slot. -/
def keepAcrossCallExpanded : Code :=
  [.labelled "f", .store stackReg (.int "x8") (-4), .store stackReg (.int "x9") (-8),
    .moveStack (-8), .li (.int "x8") 5, .store stackReg (.int "x8") (-4), .moveStack (-4),
    .store stackReg linkReg (-4), .moveStack (-4), ⟨.call, [.label "g"]⟩, .moveStack 4,
    .load linkReg stackReg (-4), .moveStack 4, .load (.int "x9") stackReg (-4),
    .move (.int "a1") (.int "x9"), .moveStack 8, .load (.int "x9") stackReg (-8),
    .load (.int "x8") stackReg (-4), ⟨.ret, []⟩]

/-- Callees that do nothing. -/
def idleCallees : HartEnvironment := { plainEnvironment with reply := fun _ _ h => h }

def filledHart (w : Word) : Hart := ⟨fun _ => w, fun _ => 0⟩

theorem visits_keepAcrossCall :
    ∃ c, Visits idleCallees keepAcrossCallExpanded ((filledHart 400).get stackReg)
      ⟨keepAcrossCallExpanded, filledHart 400, 0⟩ c ∧ c.rest = [⟨.ret, []⟩] := by
  have hstart : Visits idleCallees keepAcrossCallExpanded ((filledHart 400).get stackReg)
      ⟨keepAcrossCallExpanded, filledHart 400, 0⟩ ⟨keepAcrossCallExpanded, filledHart 400, 0⟩ :=
    .start
  have hentry := hstart.onRegs rfl rfl
  have hsaved := ((hentry.onStack rfl rfl rfl).onStack rfl rfl rfl).onStack rfl rfl rfl
  have hspilled := (hsaved.onRegs rfl (Hart.memory_setAll _ _ _)).onStack rfl rfl rfl
  have hcalled := (((hspilled.onStack rfl rfl rfl).onStack rfl rfl rfl).onStack rfl rfl rfl).onCall
    rfl rfl
  have hback := (((hcalled.onStack rfl rfl rfl).onStack rfl rfl rfl).onStack rfl rfl rfl).onStack
    rfl rfl rfl
  have hdelivered := hback.onRegs rfl (Hart.memory_setAll _ _ _)
  exact ⟨_, ((hdelivered.onStack rfl rfl rfl).onStack rfl rfl rfl).onStack rfl rfl rfl, rfl⟩

theorem restored_of_visits_keepAcrossCall :
    ∃ c, Visits idleCallees keepAcrossCallExpanded ((filledHart 400).get stackReg)
      ⟨keepAcrossCallExpanded, filledHart 400, 0⟩ c ∧ c.rest = [⟨.ret, []⟩] ∧
      Restored (filledHart 400) c.hart := by
  obtain ⟨c, hv, hc⟩ := visits_keepAcrossCall
  have hplain : ∀ i ∈ keepAcrossCall, ¬(i.op = .j ∨ i.op.isBranch = true) ∧
      ¬(i.op = .tailDirect ∨ i.op = .tailClosure) := by decide
  have hbody : IsFunctionBody keepAcrossCall :=
    { operands := by decide +kernel
      opcodes := by decide
      inside := fun i hi _ _ hop => absurd hop (hplain i hi).1
      outside := fun i hi _ _ hop => absurd hop (hplain i hi).2 }
  have htouched : touchedRegisters (.labelled "f" :: keepAcrossCall) =
      .ok (RegSet.ofList (PhysReg.ofNames ["x8", "x9"])) := by
    refine Outcome.eq_ok_of_toOption ?_
    decide +kernel
  have hexpand : expand (some (Frame.ofTouched (RegSet.ofList (PhysReg.ofNames ["x8", "x9"]))))
      .empty .empty (.labelled "f" :: keepAcrossCall) = .ok (keepAcrossCallExpanded, ⟨[0]⟩) := by
    refine Outcome.eq_ok_of_toOption ?_
    decide +kernel
  exact ⟨c, hv, hc, restored_of_visits hbody htouched hexpand hv hc .ret⟩

end ClosureCodegen
