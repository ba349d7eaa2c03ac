import ClosureCodegen.Proofs.Calling.Twins

/-!
# Steps side by side

Where a function makes a call and returns, the same function with tail calls makes the tail call, with
its frame undone: the callee gets the same arguments, and returns to the caller.  Everywhere else the
two go on side by side: through calls, behind which they agree on what is live, and along the arms of
conditionals.

* `Twins.concludes_call`: a call that both make.
* `Twins.concludes_tail`: a call that one makes, and the tail call in its place.
* `Alongside.concludes`: along the structure of the body, they come back with the same.
-/

namespace ClosureCodegen
open List Instr CallSite

variable {i : Instr} {ctx : ExpansionContext} {p n : Nat} {s s' : SlotState}
  {block rest code body post code' rest' next' post' : Code} {saved : List PhysReg} {h : Hart}
  {f l : String}

/-- The register whose value a return delivers. -/
def Instr.returned? (i : Instr) : Option Reg := if i.op = .returnValue then i.reg? 0 else none

theorem ExpansionOf.eq_returnEntry (h : ExpansionOf ctx p i s block s')
    (hleave : ctx.leave = (Frame.mk saved).epilogue) (hret : i.isReturn = true) :
    block = returnEntry i.returned? saved ++ [⟨.ret, []⟩] := by
  have hop : i.op = .returnValue ∨ i.op = .returnUnit := by simpa [isReturn] using hret
  cases h with
  | value hop => rw [hleave, returned?, if_pos hop, returnEntry]
  | unit hop =>
    rw [hleave, returned?, hop]
    rfl
  | store h | load h | captured h => rw [h] at hop; simp at hop
  | param h => rcases h with h | h <;> rw [h] at hop <;> simp at hop
  | call h =>
    rw [isCall_of_isReturn hret] at h
    cases h
  | tail h =>
    rw [isTail_of_isReturn hret] at h
    cases h
  | self h =>
    rcases hop with hop | hop <;> rw [hop] at h <;> cases h

theorem Activation.ComesTo.returns {v : Activation} {value? : Option Reg} {start : Hart}
    (hc : v.ComesTo ⟨returnEntry value? saved ++ ⟨.ret, []⟩ :: rest, h, n⟩)
    (hw : Working start saved saved.length h) (hn : saved.Nodup)
    (hsaved : ∀ p ∈ saved, RegSet.calleeSaved.contains p = true) :
    ∃ h₁, v.ComesTo ⟨⟨.ret, []⟩ :: rest, h₁, n⟩ ∧ v.ComesBack (start.get linkReg) h₁ ∧
      Restored start h₁ ∧ h₁.memory = h.memory ∧
      ∀ r, value? = some r → h₁.get (.ofPhys (.result r.cls)) = h.get r := by
  have hreach := hc.straight isStraightCode_returnEntry
  obtain ⟨hrestored, hmemory, hvalue⟩ := @restored_effectOf_returnEntry v.env.toEnvironment start h
    value? saved hw hn hsaved
  exact ⟨_, hreach, ⟨_, _, _, hreach, rfl, hrestored.link.symm, .inl ⟨rfl, rfl⟩⟩,
    hrestored, hmemory, hvalue⟩

theorem Expands.exists_cons_self (h : Expands (ExpansionBlock ctx) (i :: rest) code)
    (hp : i.op.isPseudo = false) :
    ∃ post, code = i :: post ∧ Expands (ExpansionBlock ctx) rest post := by
  cases h with
  | cons hblock hrest =>
    obtain ⟨p, s, s', -, hx⟩ := hblock
    rw [((expandInstr_iff.mp hx).eq_self hp).1]
    exact ⟨_, rfl, hrest⟩

theorem IsAllocatedBody.exists_of_liveIn (hb : IsAllocatedBody f body) {r : Reg}
    (h : LiveIn (.labelled f :: body) r rest) (hs : rest <:+ .labelled f :: body) :
    ∃ q, r = .ofPhys q ∧ q ∉ PhysReg.reserved := by
  refine h.exists_phys hs fun i hi r hr => ?_
  rcases mem_cons.mp hi with rfl | hi
  · cases hr
  · obtain ⟨q, hq, -⟩ := hb.operands i hi r hr
    exact ⟨q, hq⟩

theorem IsAllocatedBody.eq_jump (hb : IsAllocatedBody f body) (hi : i ∈ body) (hop : i.op = .j) :
    ∃ l ∈ labelNames body, i = .jump l := by
  cases hb.partOf hi with
  | plain hp => exact absurd hop (op_of_isPlain hp).2.2
  | label => cases hop
  | jump hl => exact ⟨_, hl, rfl⟩
  | branch ha =>
    have hbranch := (label?_of_arms? ha).1
    rw [hop] at hbranch
    cases hbranch

theorem Activation.exists_exit_tailTransfer (v : Activation) (target : CallTarget)
    (hl : ∀ l, target = .direct l → l ∉ labelNames v.listing.tail) (rest : Code) (h : Hart) (n : Nat) :
    ∃ x, v.step ⟨tailTransfer target :: rest, h, n⟩ = .exit [] (x, h) ∧
      x.callee? = some (target.calleeAt h) := by
  cases target with
  | direct l =>
    refine ⟨.toLabel l, ?_, rfl⟩
    have hnone := codeAfter?_eq_none_iff.mpr (hl l rfl)
    have hrun : (jump l).run v.env.toEnvironment h = some (h, .jump l) := rfl
    have hcallee : (jump l).callee? h = none := rfl
    simp only [step, hartStep, tailTransfer, hcallee, hrun, Transfer.continueOn, hnone]
  | closure c => exact ⟨.toAddress (h.get (.ofPhys .scratch) + 0), rfl, rfl⟩

theorem codeAfter?_of_nodup (hn : (labelNames code).Nodup) (hs : .labelled l :: post <:+ code) :
    codeAfter? l code = some post := by
  refine codeAfter?_of_suffix hs ?_
  obtain ⟨pre, rfl⟩ := hs
  rw [labelNames_append, labelNames_labelled] at hn
  exact (nodup_cons.mp (nodup_append.mp hn).2.1).1

theorem Instr.run_of_isBranch (hdec : i.decode?.isSome = true) (hb : i.op.isBranch = true)
    (env : Environment) (h : Hart) :
    i.callee? h = none ∧ ∃ k t, i.run env h = some (k, t) ∧ (t = .next ∨ ∃ l, t = .branch l) := by
  have hf : i.op.family = .branch := by
    generalize i.op = op at hb ⊢
    cases op <;> first | rfl | cases hb
  obtain ⟨d, hd⟩ := Option.isSome_iff_exists.mp hdec
  obtain ⟨q, r, l, rfl⟩ := (decode?_inv hd).1 hf
  obtain ⟨test, htest⟩ := env.test?_isSome hf
  simp only [callee?, run, hd, Option.bind_some, Operation.isNative, Operation.perform, htest,
    map_cons, map_nil, Option.map_some, if_true]
  refine ⟨trivial, _, _, rfl, ?_⟩
  split
  · exact .inr ⟨_, rfl⟩
  · exact .inl rfl

namespace Twins

variable {ctx' : ExpansionContext} {saved' : List PhysReg} {heap : Word → Prop} {v v' : Activation}
  {block' : Code} (T : Twins f body ctx ctx' saved saved' heap v v')

include T

/-! ## Calls -/

/-- A register that is live behind a call is callee-saved, or both sides know that it is live. -/
theorem exists_of_liveIn
    (hp : i :: rest = (.labelled f :: body : Code).drop p) (hcall : i.op.isCall = true) {r : Reg}
    (hlive : LiveIn (.labelled f :: body) r rest) :
    ∃ q, r = .ofPhys q ∧ (RegSet.calleeSaved.contains q = true ∨
      RegSet.callerSaved.contains q = true ∧ (ctx.liveOut p).phys.contains q = true ∧
        (ctx'.liveOut p).phys.contains q = true) := by
  obtain ⟨code, hcode⟩ : ∃ code : Code, code = .labelled f :: body := ⟨_, rfl⟩
  obtain ⟨l, hl, hctx⟩ := T.live
  obtain ⟨l', hl', hctx'⟩ := T.live'
  rw [← hcode] at hp hlive hl hl'
  have hrest := drop_of_cons hp
  obtain ⟨hs, hplace⟩ := suffix_of_getElem? (getElem?_of_drop hp.symm)
  obtain ⟨hs', hplace'⟩ := suffix_of_getElem? (getElem?_tailPart_of_drop hp)
  have hcall' : (tailAt code p i).op.isCall = true := by
    rcases (tailFor_tailAt code p i).or with h | h
    · rwa [h]
    · rcases op_of_isTail (of_asTailCall? h).2.2 with h | h <;> rw [h] <;> rfl
  have hmem : r ∈ ctx.liveOut p := by
    have := (Liveness.mem_liveOut_iff hl hs (canTransfer_of_isCall hcall).1).mpr
      ⟨.next, _, (canTransfer_of_isCall hcall).2, rfl, hrest ▸ hlive⟩
    rwa [hplace, ← hctx] at this
  have hmem' : r ∈ ctx'.liveOut p := by
    have := (Liveness.mem_liveOut_iff hl' hs' (canTransfer_of_isCall hcall').1).mpr
      ⟨.next, _, (canTransfer_of_isCall hcall').2, rfl, hlive.tails hrest⟩
    rwa [hplace', ← hctx'] at this
  obtain ⟨q, rfl, hreserved⟩ := T.allocated.exists_of_liveIn (hcode ▸ hlive)
    (hcode ▸ hrest ▸ drop_suffix _ _)
  refine ⟨q, rfl, (PhysReg.saved_of_not_mem_reserved hreserved).imp_right fun hq => ?_⟩
  exact ⟨hq, LiveSet.contains_phys hmem, LiveSet.contains_phys hmem'⟩

section Calls

variable {site : CallSite} {words : Nat} {targets : List PhysReg} {h' h₁ h₁' r r' h₂ h₂' : Hart}

theorem roomForCall
    (hwords : words ≤ ctx.layout.size) (hn : n ≤ 64) (table : ClobberTable) (live : LiveSet)
    (htargets : assignArgs site.target.name site.args = .ok targets) :
    v.start.HasRoom heap (n + words + (savedAcross table site targets live).length +
      max targets.length 1) := by
  have hsaved := length_savedAcross_le table site targets live
  have hargs := length_assignArgs_le htargets
  exact T.room.mono (by omega)

theorem exists_handsOver (hi : i ∈ body)
    (hcall : i.op.isCall = true) (hsite : ofInstr i = .ok site)
    (htargets : assignArgs site.target.name site.args = .ok targets)
    (hwords : words ≤ ctx.layout.size) (hw : Working v.start saved saved.length h)
    (hc : v.ComesTo ⟨callCode site (Word.ofCount words) targets
      (savedAcross ctx.clobbers site targets (ctx.liveOut p)) ++ post, h, n⟩) :
    ∃ h₁ r h₂, v.Called heap ctx.clobbers site words targets
        (savedAcross ctx.clobbers site targets (ctx.liveOut p)) post n h h₁ r h₂ ∧
      HandsOver heap v.start site targets h h₁ ∧
      ∀ c, site.target = .closure c → v.start.Shares heap (h.get c) := by
  have hlen := length_savedAcross_le ctx.clobbers site targets (ctx.liveOut p)
  have hpass := T.allocated.isPassable hi hcall hsite
  have hcode : ∀ c, site.target = .closure c → v.start.Shares heap (h.get c) := fun c htarget =>
    T.convention.offStack.shares_closure hlen htarget (hpass.closure c htarget).1 hc
  obtain ⟨h₁, r, h₂, hcalled⟩ := Activation.exists_called T.convention.tidy
    (hwords.trans T.setting.slots) htargets rfl hc
  exact ⟨h₁, r, h₂, hcalled, hcalled.prepared.handsOver hw
    (T.roomForCall hwords T.setting.length_saved _ _ htargets)
    (contains_callerSaved_of_assignArgs htargets) hpass hcode, hcode⟩

theorem sameOutcome (hs : i :: rest <:+ body)
    (hcall : i.op.isCall = true) (hsite : ofInstr i = .ok site)
    (htargets : assignArgs site.target.name site.args = .ok targets)
    (hexp : Expands (ExpansionBlock ctx) rest post) (ht : Twinned heap v.start saved saved' s h h')
    (hr : SameRegisters (.labelled f :: body) (i :: rest) h h') {across : List PhysReg}
    (hcalled : v.Called heap ctx.clobbers site words targets across post n h h₁ r h₂)
    (hover : HandsOver heap v.start site targets h h₁)
    (hcode : ∀ c, site.target = .closure c → v.start.Shares heap (h.get c))
    (hover' : HandsOver heap v.start site targets h' h₁') (hc' : v'.ComesTo ⟨code', h₁', n⟩)
    (hhands : v'.HandsTo ⟨code', h₁', n⟩ (site.target.calleeAt h₁')) :
    SameOutcome heap (site.dest?.map Reg.cls) r
      (v'.env.reply n (site.target.calleeAt h₁') h₁') := by
  have hreads : ∀ r ∈ site.target.reads site.args, h'.get r = h.get r := by
    rw [← (partsOf_ofInstr hcall hsite).uses]
    exact hr.uses T.allocated hs
  obtain ⟨hinput, hcallee⟩ := hover.sameInput hover' htargets hreads hr.global ht.shared hcode
  have hof : CallOf body (callReturn site words across ++ post) i := by
    refine ⟨rest, hs, hcall, ?_⟩
    rw [countP_append, (counts_of_isStraightCode isStraightCode_callReturn).1, Nat.zero_add]
    exact (hexp.counts T.allocated ((suffix_cons i rest).trans hs)).1
  rw [hcallee] at hhands ⊢
  rw [hcalled.reply]
  exact T.convention.replies _ _ _ _ _ i site targets hcalled.entry hc' rfl
    (v.handsTo_transfer _ _ _ _) hhands rfl hof hsite htargets hinput

/-- A call that stays a call defines a register that is free in the frame of the function with tail
calls, too. -/
theorem free_of_tailAt
    (hp : i :: rest = (.labelled f :: body : Code).drop p) (hcall : i.op.isCall = true)
    (hsame : tailAt (.labelled f :: body) p i = i) : ∀ d ∈ i.defs, d.IsFree saved' := by
  have hget := mem_of_getElem? (getElem?_tailPart_of_drop hp)
  rw [hsame, tailPart_cons, mem_cons] at hget
  refine T.setting'.free i (hget.resolve_left fun h => ?_)
  rw [h, tailAt_of_not_isCall rfl] at hcall
  cases hcall

section Both

variable (hs : i :: rest <:+ body)
  (hp : i :: rest = (.labelled f :: body : Code).drop p) (hcall : i.op.isCall = true)
  (hsame : tailAt (.labelled f :: body) p i = i) (hsite : CallSite.ofInstr i = .ok site)
  (htargets : assignArgs site.target.name site.args = .ok targets)
  (hwords : words ≤ ctx.layout.size) (hfilled : ∀ q ∈ s.filled, q < words)
  (ht : Twinned heap v.start saved saved' s h h')
  (hr : SameRegisters (.labelled f :: body) (i :: rest) h h')
  (hcalled : v.Called heap ctx.clobbers site words targets
    (savedAcross ctx.clobbers site targets (ctx.liveOut p)) post n h h₁ r h₂)
  (hcalled' : v'.Called heap ctx'.clobbers site words targets
    (savedAcross ctx'.clobbers site targets (ctx'.liveOut p)) post' n h' h₁' r' h₂')
  (hout : SameOutcome heap (site.dest?.map Reg.cls) r r')

include hs hp hcall hsame hsite htargets hwords hfilled ht hcalled hcalled' hout in
theorem twinned_of_called : Twinned heap v.start saved saved' s h₂ h₂' := by
  have hargs := contains_callerSaved_of_assignArgs htargets
  have hi : i ∈ body := hs.subset mem_cons_self
  have hroom := T.roomForCall hwords T.setting.length_saved ctx.clobbers (ctx.liveOut p) htargets
  have hroom' := T.roomForCall hwords T.setting'.length_saved ctx'.clobbers (ctx'.liveOut p) htargets
  refine ⟨hcalled.working ht.working hroom hargs rfl fun d hd => ?_,
    hcalled'.working ht.working' hroom' hargs rfl fun d hd => ?_, fun a ha => ?_,
    fun q hq => ?_⟩
  · exact T.setting.free i hi d (T.allocated.dest hi hcall hsite hd).1
  · exact T.free_of_tailAt hp hcall hsame d (T.allocated.dest hi hcall hsite hd).1
  · rw [hcalled.resumed.memory, hcalled'.resumed.memory]
    by_cases hheap : heap a
    · exact hout.heap a hheap
    · have htop := ha.resolve_left hheap
      rw [hcalled.memory_stack ht.working hroom htop hheap,
        hcalled'.memory_stack ht.working' hroom' htop hheap, ht.shared a ha]
  · have hq' := hfilled q hq
    rw [hcalled.memory_above ht.working hroom (by omega),
      hcalled'.memory_above ht.working' hroom' (by omega), ht.slots q hq]

include hs hp hcall hsite htargets hwords ht hr hcalled hcalled' hout in
theorem sameRegisters_of_called : SameRegisters (.labelled f :: body) rest h₂ h₂' := by
  have hargs := contains_callerSaved_of_assignArgs htargets
  have hi : i ∈ body := hs.subset mem_cons_self
  have hdest := fun d hd => T.allocated.dest (d := d) hi hcall hsite hd
  have hroom := T.roomForCall hwords T.setting.length_saved ctx.clobbers (ctx.liveOut p) htargets
  have hroom' := T.roomForCall hwords T.setting'.length_saved ctx'.clobbers (ctx'.liveOut p) htargets
  refine ⟨fun x hlive => ?_, fun q hq => ?_, fun hcalls => ?_⟩
  · by_cases hd : ∃ d, site.dest? = some d ∧ d.name = x.name
    · -- the result
      obtain ⟨d, hd, hname⟩ := hd
      have hz : d.names .zero = false :=
        beq_eq_false_iff_ne.mpr ((hdest d hd).2 .zero (by decide))
      have hresult := hout.result d.cls (by rw [hd]; rfl)
      rw [Hart.get_congr hname.symm, Hart.get_congr hname.symm, hcalled.resumed.result d hd hz,
        hcalled'.resumed.result d hd hz, hresult]
    · obtain ⟨q, rfl, hq⟩ := T.exists_of_liveIn hp hcall hlive
      have hne : ∀ d, site.dest? = some d → d.name ≠ q.name := fun d hd' hn => hd ⟨d, hd', hn⟩
      rw [hcalled.get_of_live ht.working hroom hargs rfl (hq.imp_right fun hq => ⟨hq.1, hq.2.1⟩)
          hne, hcalled'.get_of_live ht.working' hroom' hargs rfl
          (hq.imp_right fun hq => ⟨hq.1, hq.2.2⟩) hne]
      refine hr.live _ (.flow (t := .next) (fun hmem => hd ?_) ?_ rfl hlive)
      · have hdef := mem_of_mem_filter hmem
        rw [(partsOf_ofInstr hcall hsite).defs, Option.mem_toList] at hdef
        exact ⟨_, hdef, rfl⟩
      · exact (canTransfer_of_isCall hcall).2
  · have hne := fun d hd => (hdest d hd).2 q (PhysReg.of_mem_global hq).1
    rw [hcalled.get_global (contains_callerSaved_of_savedAcross hargs) hq hne,
      hcalled'.get_global (contains_callerSaved_of_savedAcross hargs) hq hne, hout.global q hq]
  · -- a call has been made
    have hle := callsIn_le_of_suffix (suffix_code (f := f) hs)
    rw [← hcalls, callsIn, countP_cons, if_pos hcall] at hle
    exact absurd hle (Nat.not_succ_le_self _)

end Both

theorem concludes_call (hs : i :: rest <:+ body)
    (hp : i :: rest = (.labelled f :: body : Code).drop p) (hord : s.Ordered ctx.layout.size)
    (hcall : i.op.isCall = true) (hsame : tailAt (.labelled f :: body) p i = i)
    (hblock : ExpansionOf ctx p i s block s') (hblock' : ExpansionOf ctx' p i s block' s')
    (hexp : Expands (ExpansionBlock ctx) rest post)
    (hnext : T.Concluding rest s' post post') :
    T.Concluding (i :: rest) s (block ++ post) (block' ++ post') := by
  have hi : i ∈ body := hs.subset mem_cons_self
  have htail := T.allocated.isTail hi
  obtain ⟨site, words, targets, hsite, htargets, hheight, hwords, hfilled, rfl, rfl⟩ :=
    hblock.exists_callCode hord hcall htail
  obtain ⟨rfl, -⟩ := hblock'.unique (.call hcall htail hsite hheight htargets)
  intro h h' n hc hc' ht hr
  obtain ⟨h₁, r, h₂, hcalled, hover, hcode⟩ :=
    T.exists_handsOver hi hcall hsite htargets hwords ht.working hc
  obtain ⟨h₁', r', h₂', hcalled'⟩ := Activation.exists_called (T.clobbers ▸ T.convention.tidy')
    (hwords.trans T.setting.slots) htargets rfl hc'
  have hcode' : ∀ c, site.target = .closure c → v.start.Shares heap (h'.get c) := by
    intro c htarget
    rw [hr.uses T.allocated hs c
      ((mem_uses_of_partsOf (partsOf_ofInstr hcall hsite)).1 c htarget)]
    exact hcode c htarget
  have hover' := hcalled'.prepared.handsOver ht.working'
    (T.roomForCall hwords T.setting'.length_saved _ _ htargets)
    (contains_callerSaved_of_assignArgs htargets) (T.allocated.isPassable hi hcall hsite) hcode'
  have hout := T.sameOutcome hs hcall hsite htargets hexp ht hr hcalled hover hcode hover'
    hcalled'.entry (v'.handsTo_transfer _ _ _ _)
  rw [← hcalled'.reply] at hout
  exact hnext _ _ _ hcalled.back hcalled'.back
    (T.twinned_of_called hs hp hcall hsame hsite htargets hwords hfilled ht hcalled hcalled' hout)
    (T.sameRegisters_of_called hs hp hcall hsite htargets hwords ht hr hcalled hcalled' hout)

end Calls

/-! ## Returns -/

section Returns

variable {h' : Hart}

theorem exists_return (hs : i :: rest <:+ body)
    (hret : i.isReturn = true) (hblock : ExpansionOf ctx p i s block s')
    (hexp : Expands (ExpansionBlock ctx) rest post) (hw : Working v.start saved saved.length h)
    (hc : v.ComesTo ⟨block ++ post, h, n⟩) : ∃ h₁, v.ReturnsBy body i h₁ ∧
      v.ComesBack (v.start.get linkReg) h₁ ∧ Restored v.start h₁ ∧ h₁.memory = h.memory ∧
      ∀ r, i.returned? = some r → h₁.get (.ofPhys (.result r.cls)) = h.get r := by
  rw [hblock.eq_returnEntry T.setting.leave_eq hret, append_assoc, singleton_append] at hc
  obtain ⟨h₁, hreach, hback, hrestored, hmemory, hvalue⟩ :=
    hc.returns hw T.nodup T.setting.calleeSaved
  refine ⟨h₁, ⟨post, n, hreach, rest, hs, hret, ?_⟩, hback, hrestored, hmemory, hvalue⟩
  exact (hexp.counts T.allocated ((suffix_cons i rest).trans hs)).2

theorem concludes_return (hs : i :: rest <:+ body)
    (hret : i.isReturn = true) (hblock : ExpansionOf ctx p i s block s')
    (hblock' : ExpansionOf ctx' p i s block' s') (hexp : Expands (ExpansionBlock ctx) rest post) :
    T.Concluding (i :: rest) s (block ++ post) (block' ++ post') := by
  intro h h' n hc hc' ht hr
  obtain ⟨h₁, hreturns, hback, hrestored, hmemory, hvalue⟩ :=
    T.exists_return hs hret hblock hexp ht.working hc
  rw [hblock'.eq_returnEntry T.setting'.leave_eq hret, append_assoc, singleton_append]
    at hc'
  obtain ⟨h₁', -, hback', hrestored', hmemory', hvalue'⟩ :=
    hc'.returns ht.working' T.nodup' T.setting'.calleeSaved
  refine ⟨i, h₁, h₁', hreturns, hback, hback', ⟨hrestored.stack, hrestored'.stack⟩,
    fun q hq => ⟨hrestored.callee q hq, hrestored'.callee q hq⟩, fun hop r hreg => ?_, fun a ha => ?_⟩
  · have hreturned : i.returned? = some r := by rw [returned?, if_pos hop, hreg]
    have hu : r ∈ i.uses := by
      simpa only [uses, hop, Opcode.effect] using mem_regs_of_reg? hreg
    rw [hvalue r hreturned, hvalue' r hreturned, hr.uses T.allocated hs r hu]
  · rw [hmemory, hmemory', ht.shared a ha]

end Returns

/-! ## Labels -/

theorem exists_codeAfter (hl : l ∈ labelNames body) :
    ∃ rest post, codeAfter? l (.labelled f :: body) = some rest ∧
      rest <:+ body ∧ codeAfter? l v.listing.tail = some post ∧
      Expands (ExpansionBlock ctx) rest post := by
  obtain ⟨out, hout, hexp⟩ := T.expands
  have hprologue : ∀ k ∈ (Frame.mk saved).prologue, k.isLabel = false := fun k hk =>
    (isStraightCode_prologue _ k hk).noLabel
  rcases hexp.codeAfter? (keepsLabels_expansionBlock _) l with
    ⟨hnone, -⟩ | ⟨rest, post, hrest, hpost, hblocks⟩
  · exact absurd hl (codeAfter?_eq_none_iff.mp hnone)
  · refine ⟨rest, post, ?_, codeAfter?_suffix hrest, ?_, hblocks⟩
    · rw [codeAfter?_cons, hrest, Option.some_or]
    · rw [hout, codeAfter?_append_of_not_isLabel hprologue, hpost]

/-- Where the walk from a call reaches a return, so does the function. -/
theorem exists_of_reachesReturn {result : Option Reg} {budget : Nat} (hs : rest <:+ body)
    (hreach : reachesReturn (.labelled f :: body) (labelTable (.labelled f :: body)) result budget
      rest = true) (hexp : Expands (ExpansionBlock ctx) rest post) (hc : v.ComesTo ⟨post, h, n⟩) :
    ∃ j rest' block post', j :: rest' <:+ body ∧ j.isReturn = true ∧
      (j.op = .returnValue → j.reg? 0 = result) ∧ ExpansionBlock ctx j block ∧
      Expands (ExpansionBlock ctx) rest' post' ∧ v.ComesTo ⟨block ++ post', h, n⟩ := by
  fun_induction reachesReturn (.labelled f :: body) (labelTable (.labelled f :: body)) result budget
    rest generalizing post with
  | case1 => cases hreach
  | case2 budget i rest hop ih | case3 budget i rest hop ih | case4 budget i rest hop ih =>
    obtain ⟨post, rfl, hrest⟩ := hexp.exists_cons_self (by rw [hop]; rfl)
    obtain ⟨hcallee, hrun⟩ := run_of_idle (by rw [hop]; rfl) v.env.toEnvironment h
    exact ih ((suffix_cons i rest).trans hs) hreach hrest (hc.instr hcallee hrun rfl)
  | case5 i rest hop budget p hposition ih =>
    obtain ⟨post, rfl, -⟩ := hexp.exists_cons_self (by rw [hop]; rfl)
    obtain ⟨l, hl, rfl⟩ := T.allocated.eq_jump (hs.subset mem_cons_self) hop
    obtain ⟨after, post', hafter, hsuf, hpost', hblocks⟩ := T.exists_codeAfter hl
    have hdrop : after = (.labelled f :: body : Code).drop (p + 1) := by
      rw [codeAfter?_eq, ← position?_labelTable] at hafter
      obtain ⟨q, hq, rfl⟩ := Option.map_eq_some_iff.mp hafter
      rw [Option.some.inj (hq.symm.trans hposition)]
    rw [← hdrop] at ih hreach
    exact ih hsuf hreach hblocks (hc.instr rfl rfl hpost')
  | case6 => cases hreach
  | case7 budget i rest hop | case8 budget i rest hop =>
    cases hexp with
    | @cons _ block _ post hblock hexp =>
      exact ⟨i, rest, block, post, hs, by simp [isReturn, hop], by simp_all, hblock, hexp, hc⟩
  | case9 => cases hreach

/-! ## Tail calls -/

theorem concludes_tail (hs : i :: rest <:+ body)
    (hord : s.Ordered ctx.layout.size) {t : Instr} (htail : i.asTailCall? = some t)
    (hreach : reachesReturn (.labelled f :: body) (labelTable (.labelled f :: body)) i.callResult?
      (.labelled f :: body : Code).length rest = true)
    (hblock : ExpansionOf ctx p i s block s') (hblock' : ExpansionOf ctx' p t s block' s')
    (hexp : Expands (ExpansionBlock ctx) rest post) :
    T.Concluding (i :: rest) s (block ++ post) (block' ++ post') := by
  have hi : i ∈ body := hs.subset mem_cons_self
  have hrest : rest <:+ body := (suffix_cons i rest).trans hs
  obtain ⟨hcall, hno, ht⟩ := of_asTailCall? htail
  obtain ⟨site, words, targets, hsite, htargets, hheight, hwords, hfilled, rfl, rfl⟩ :=
    hblock.exists_callCode hord hcall hno
  obtain ⟨hsite', hresult⟩ := ofInstr_asTailCall? htail hsite
  obtain ⟨rfl, -⟩ := hblock'.unique (.tail ht hsite' htargets)
  intro h h' n hc hc' htw hr
  have hpass := T.allocated.isPassable hi hcall hsite
  have hdest := fun d hd => T.allocated.dest (d := d) hi hcall hsite hd
  have hroom := T.roomForCall hwords T.setting.length_saved ctx.clobbers (ctx.liveOut p) htargets
  have hsaved' := T.setting'.length_saved
  -- one side makes the call and returns
  obtain ⟨h₁, r, h₂, hcalled, hover, hcode⟩ :=
    T.exists_handsOver hi hcall hsite htargets hwords htw.working hc
  have hw := hcalled.working htw.working hroom (contains_callerSaved_of_assignArgs htargets) rfl
    fun d hd => T.setting.free i hi d (hdest d hd).1
  obtain ⟨j, rest₂, block₂, post₂, hs₂, hret, hvalue, ⟨q, t₂, t₂', -, hx⟩, hexp₂, hc₂⟩ :=
    T.exists_of_reachesReturn hrest hreach hexp hcalled.back
  obtain ⟨h₃, hreturns, hback, hrestored, hmemory, hreturned⟩ :=
    T.exists_return hs₂ hret (expandInstr_iff.mp hx) hexp₂ hw hc₂
  -- the other undoes its frame and leaves the return to the callee
  have hcode' : enterClosure site.target ++ passArguments site.args targets ++ ctx'.leave ++
      [tailTransfer site.target] ++ post' =
      tailEntry site targets saved' ++ tailTransfer site.target :: post' := by
    rw [T.setting'.leave_eq, tailEntry]
    simp only [append_assoc, singleton_append]
  rw [hcode'] at hc'
  have hentry := hc'.straight isStraightCode_tailEntry
  obtain ⟨hover', hrestored'⟩ := @handsOver_tailEntry v'.env.toEnvironment heap v.start h' site targets
    saved' htw.working' T.nodup' T.setting'.calleeSaved htargets hpass
    (T.room.mono (by omega))
  have hlabel : ∀ l, site.target = .direct l → l ∉ labelNames v'.listing.tail := by
    intro l hl
    rw [T.labels']
    exact T.allocated.callees i hi hcall l
      (mem_operands_of_label? ((partsOf_ofInstr hcall hsite).label l hl))
  obtain ⟨x, hstep, hcallee⟩ := v'.exists_exit_tailTransfer site.target hlabel post'
    (effectOf v'.env.toEnvironment (tailEntry site targets saved') h') n
  have hhands : v'.HandsTo ⟨tailTransfer site.target :: post', _, n⟩ _ := .inr ⟨x, hstep, hcallee⟩
  have hout := T.sameOutcome hs hcall hsite htargets hexp htw hr hcalled hover hcode hover' hentry
    hhands
  have hkeeps := T.convention.tidy'.keepsStack _ _ hentry hhands
  refine ⟨j, h₃, _, hreturns, hback, ⟨_, x, _, hentry, hstep, hrestored'.link.symm,
    .inr ⟨_, hcallee, rfl⟩⟩, ⟨hrestored.stack, hkeeps.stack.trans hrestored'.stack⟩,
    fun q hq => ⟨hrestored.callee q hq, (hkeeps.saved q hq).trans (hrestored'.callee q hq)⟩,
    fun hop q hreg => ?_, fun a ha => ?_⟩
  · have hd : site.dest? = some q := by rw [← hresult, ← hvalue hop, hreg]
    have hz : q.names .zero = false := beq_eq_false_iff_ne.mpr ((hdest q hd).2 .zero (by decide))
    rw [hreturned q (by rw [returned?, if_pos hop, hreg]), hcalled.resumed.result q hd hz]
    exact hout.result q.cls (by rw [hd]; rfl)
  · rw [hmemory, hcalled.resumed.memory]
    by_cases hheap : heap a
    · exact hout.heap a hheap
    · have htop := ha.resolve_left hheap
      rw [hcalled.memory_stack htw.working hroom htop hheap, ← htw.shared a ha,
        ← hover'.memory a ha]
      refine hkeeps.memory a hheap ?_
      rw [hrestored'.stack]
      exact htop

/-! ## Structure -/

theorem concludes_label (hs : .labelled l :: rest <:+ body) (hord : s.Ordered ctx.layout.size)
    (hnext : T.Concluding rest s post post') :
    T.Concluding (.labelled l :: rest) s (.labelled l :: post)
      (.labelled l :: post') :=
  T.concludes_follow hs hord rfl rfl rfl rfl (fun _ _ _ _ hu => by cases hu) (fun _ => rfl) fun h =>
    ⟨h, .next, rest, post, post', rfl, by simp [Instr.CanTransfer, labelled], rfl,
      suffix_rfl, rfl, rfl, hnext⟩

/-- The labels of a function stand where jumps expect them, in the body and on both sides. -/
theorem follows_label
    (hs : .labelled l :: rest <:+ body) (hpost : .labelled l :: post <:+ v.listing.tail)
    (hpost' : .labelled l :: post' <:+ v'.listing.tail) :
    codeAfter? l (.labelled f :: body) = some rest ∧ codeAfter? l v.listing.tail = some post ∧
      codeAfter? l v'.listing.tail = some post' := by
  have hnodup := T.allocated.labels
  have hbody := (nodup_cons.mp hnodup).2
  exact ⟨codeAfter?_of_nodup hnodup (suffix_code hs), codeAfter?_of_nodup (T.labels ▸ hbody) hpost,
    codeAfter?_of_nodup (T.labels' ▸ hbody) hpost'⟩

theorem concludes_jump
    (hs : .jump l :: rest <:+ body) (hord : s.Ordered ctx.layout.size) {next : Code}
    (hl : .labelled l :: rest' <:+ rest) (hpost : .labelled l :: next <:+ v.listing.tail)
    (hpost' : .labelled l :: next' <:+ v'.listing.tail)
    (hnext : T.Concluding rest' s next next') :
    T.Concluding (.jump l :: rest) s (.jump l :: post)
      (.jump l :: post') := by
  obtain ⟨hbody, hone, hother⟩ := T.follows_label
    (hl.trans ((suffix_cons _ rest).trans hs)) hpost hpost'
  exact T.concludes_follow hs hord rfl rfl rfl rfl (fun _ _ _ _ hu => by cases hu) (fun _ => rfl) fun h =>
    ⟨h, .jump l, rest', next, next', rfl, ⟨rfl, rfl⟩, hbody, (suffix_cons _ rest').trans hl,
      hone, hother, hnext⟩

theorem concludes_branch {arms : Arms}
    (ha : i.arms? = some arms) (hs : i :: rest <:+ body) (hord : s.Ordered ctx.layout.size)
    {next : Code} (hl : .labelled arms.takenLabel :: rest' <:+ rest)
    (hpost : .labelled arms.takenLabel :: next <:+ v.listing.tail)
    (hpost' : .labelled arms.takenLabel :: next' <:+ v'.listing.tail)
    (hfirst : T.Concluding rest s post post')
    (hsecond : T.Concluding rest' s next next') :
    T.Concluding (i :: rest) s (i :: post) (i :: post') := by
  have hi : i ∈ body := hs.subset mem_cons_self
  obtain ⟨hbranch, hlabel⟩ := label?_of_arms? ha
  obtain ⟨hbody, hone, hother⟩ := T.follows_label
    (hl.trans ((suffix_cons _ rest).trans hs)) hpost hpost'
  have hrun := run_of_isBranch (T.allocated.decodes i hi) hbranch
  refine T.concludes_follow hs hord (Opcode.isCall_of_isBranch hbranch) rfl (T.allocated.idle i hi)
    (namesStack_eq_false T.setting.toIsFunctionBody hi)
    (fun h h' hr => hr.uses T.allocated hs) (fun h => (hrun v.env.toEnvironment h).1) fun h => ?_
  obtain ⟨-, k, t, hrun, ht⟩ := hrun v.env.toEnvironment h
  have hcan := canTransfer_run hrun
  rcases ht with rfl | ⟨l, rfl⟩
  · exact ⟨k, _, rest, post, post', hrun, hcan, rfl, suffix_rfl, rfl, rfl, hfirst⟩
  · obtain rfl : arms.takenLabel = l := Option.some.inj (hlabel.symm.trans hcan.2)
    exact ⟨k, _, rest', next, next', hrun, hcan, hbody, (suffix_cons _ rest').trans hl, hone,
      hother, hsecond⟩

end Twins

section Structure

variable {ctx' : ExpansionContext} {saved' : List PhysReg} {heap : Word → Prop} {v v' : Activation}

theorem Concludes.weaken (h : Concludes f body saved saved' heap v v' rest s' code code')
    (hs : s'.filled ⊆ s.filled) : Concludes f body saved saved' heap v v' rest s code code' :=
  fun _ _ _ hc hc' ht hr => h _ _ _ hc hc' (ht.weaken hs) hr

theorem suffix_of_cond {a k b c : Code} {l m : Instr}
    (h : i :: (a ++ (k ++ l :: (b ++ m :: c))) <:+ code) :
    k ++ l :: (b ++ m :: c) <:+ code ∧ l :: (b ++ m :: c) <:+ code ∧ m :: c <:+ code := by
  have hskip := (suffix_append a _).trans ((suffix_cons i _).trans h)
  have hlabel := (suffix_append k _).trans hskip
  exact ⟨hskip, hlabel, (suffix_append b _).trans ((suffix_cons l _).trans hlabel)⟩

variable (T : Twins f body ctx ctx' saved saved' heap v v')

include T

/-- An instruction that is neither a label nor a jump nor a branch, and what takes its place. -/
theorem Twins.concludes_instr {block' : Code}
    (hs : i :: rest <:+ body) (hp : i :: rest = (.labelled f :: body : Code).drop p)
    (hord : s.Ordered ctx.layout.size) (hplain : i.isPlain = true) (hret : i.isReturn = false)
    (hblock : ExpansionOf ctx p i s block s')
    (hblock' : ExpansionOf ctx' p (tailAt (.labelled f :: body) p i) s block' s')
    (hexp : Expands (ExpansionBlock ctx) rest post)
    (hnext : T.Concluding rest s' post post') :
    T.Concluding (i :: rest) s (block ++ post) (block' ++ post') := by
  cases hcall : i.op.isCall with
  | false =>
    rw [tailAt_of_not_isCall hcall] at hblock'
    exact T.concludes_plain hs hord hplain hret hcall hblock hblock' hnext
  | true =>
    have hfor := tailFor_tailAt (.labelled f :: body) p i
    rw [← drop_of_cons hp] at hfor
    obtain ⟨t, ht⟩ : ∃ t, t = tailAt (.labelled f :: body) p i := ⟨_, rfl⟩
    rw [← ht] at hfor hblock'
    cases hfor with
    | same => exact T.concludes_call hs hp hord hcall ht.symm hblock hblock' hexp hnext
    | tail htail hreach => exact T.concludes_tail hs hord htail hreach hblock hblock' hexp

/-- Along the structure of a part of the body: where a path comes through, the two conclude if they do
behind it. -/
theorem Alongside.concludes {a : Bool}
    {part o o' : Code} {u : SlotState}
    (h : Alongside (.labelled f :: body) ctx ctx' p a part s o o' u)
    (hord : s.Ordered ctx.layout.size) {after : Code}
    (hp : part ++ after = (.labelled f :: body : Code).drop p) (hs : part ++ after <:+ body)
    (hexp : Expands (ExpansionBlock ctx) after post) (hout : o ++ post <:+ v.listing.tail)
    (hout' : o' ++ post' <:+ v'.listing.tail)
    (hafter : a = true → T.Concluding after u post post') :
    T.Concluding (part ++ after) s (o ++ post) (o' ++ post') := by
  induction h generalizing after post post' with
  | nil => exact hafter rfl
  | @plain p a i part s s' u block block' o o' hplain hret _ hblock hblock' halong ih =>
    have hord' := hblock.ordered (Nat.le_refl _) hord
    rw [append_assoc] at hout hout' ⊢
    rw [append_assoc]
    exact T.concludes_instr hs hp hord hplain hret hblock hblock'
      ((halong.expands hord').1.append hexp)
      (ih hord' (drop_of_cons hp) ((suffix_cons i _).trans hs) hexp
        ((suffix_append block _).trans hout) ((suffix_append block' _).trans hout') hafter)
  | @ret p a i part s u block block' o o' hret hblock hblock' halong _ =>
    rw [append_assoc, append_assoc]
    exact T.concludes_return hs hret hblock hblock' ((halong.expands hord).1.append hexp)
  | @cond p a b c branch l m first skip second rest s s₁ s₂ u o₁ o₁' o₂ o₂' o₃ o₃' harms hskip h₁ h₂
      h₃ ih₁ ih₂ ih₃ =>
    simp only [cons_append, append_assoc] at hp hs hout hout' ⊢
    obtain ⟨hsskip, hsl, hsm⟩ := suffix_of_cond hs
    obtain ⟨houtskip, houtl, houtm⟩ := suffix_of_cond hout
    obtain ⟨houtskip', houtl', houtm'⟩ := suffix_of_cond hout'
    have hp₁ := drop_of_cons hp
    have hp₂ := drop_of_cons (drop_of_append (drop_of_append hp₁))
    have hp₃ := drop_of_cons (drop_of_append hp₂)
    have hord₃ := (h₁.expands hord).2.meet s₂
    have hexp₃ := (h₃.expands hord₃).1.append hexp
    have hexp₂ : Expands (ExpansionBlock ctx) (second ++ .labelled m :: (rest ++ after))
        (o₂ ++ .labelled m :: (o₃ ++ post)) := (h₂.expands hord).1.append (expands_self rfl hexp₃)
    -- behind the conditional, if an arm comes through
    have hjoin : (a || b) = true → T.Concluding (rest ++ after)
        (s₁.meet s₂) (o₃ ++ post) (o₃' ++ post') := fun hab =>
      ih₃ hord₃ hp₃ ((suffix_cons _ _).trans hsm) hexp ((suffix_cons _ _).trans houtm)
        ((suffix_cons _ _).trans houtm') fun hc => hafter (by rw [hab, hc]; rfl)
    have hmeet : (s₁.meet s₂).filled ⊆ s₂.filled := fun q hq =>
      contains_iff_mem.mp (mem_filter.mp hq).2
    have hsecond : T.Concluding (second ++ .labelled m :: (rest ++ after)) s
        (o₂ ++ .labelled m :: (o₃ ++ post)) (o₂' ++ .labelled m :: (o₃' ++ post')) := by
      refine ih₂ hord hp₂ ((suffix_cons _ _).trans hsl) (expands_self rfl hexp₃)
        ((suffix_cons _ _).trans houtl) ((suffix_cons _ _).trans houtl') fun hb => ?_
      exact (T.concludes_label hsm hord₃ (hjoin (by rw [hb, Bool.or_true]))).weaken hmeet
    have hskips : Expands (ExpansionBlock ctx) (skip ++ .labelled l :: (second ++ .labelled m ::
        (rest ++ after))) (skip ++ .labelled l :: (o₂ ++ .labelled m :: (o₃ ++ post))) := by
      rcases hskip with rfl | ⟨rfl, -⟩
      · exact expands_self rfl (expands_self rfl hexp₂)
      · exact expands_self rfl hexp₂
    refine T.concludes_branch harms hs hord ?_ houtl houtl' ?_ hsecond
    · exact (suffix_append skip _).trans (suffix_append first _)
    · refine ih₁ hord hp₁ ((suffix_cons _ _).trans hs) hskips ((suffix_cons _ _).trans hout)
        ((suffix_cons _ _).trans hout') fun ha => ?_
      obtain rfl := hskip.resolve_right fun hno => by rw [ha] at hno; cases hno.2
      have hsuf : .labelled m :: (rest ++ after) <:+
          .labelled l :: (second ++ .labelled m :: (rest ++ after)) :=
        (suffix_append second _).trans (suffix_cons _ _)
      exact T.concludes_jump hsskip (h₁.expands hord).2 hsuf houtm houtm'
        ((hjoin (by rw [ha, Bool.true_or])).weaken (filter_subset_self _))

end Structure

end ClosureCodegen
