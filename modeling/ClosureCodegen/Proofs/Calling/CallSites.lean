import ClosureCodegen.Proofs.Calling.AllocatedBodies

/-!
# Calls of an expanded body

A call of a body becomes a block of machine code that works below the filled slots.  There it puts
away the registers that it would lose, brings the arguments to their places and keeps the return
address.  Arguments, argument registers, saved registers, the destination and the result register can
coincide in any way.

* `ExpansionContext.Reaches`: with which slots filled, and behind which code, expansion comes to an
  instruction.
* `CallSite.IsPerformedBy`: what the block of a call is for.
* `expand_performs_calls`: every call of a body that is expanded is performed by its block.
-/

namespace ClosureCodegen
open List

/-! ## Where expansion comes to -/

namespace ExpansionContext

/-- A conditional at the front of a range, with the places of its second arm and of what is behind. -/
structure Splits (ctx : ExpansionContext) (start stop : Nat) (i : Instr) (taken join : Nat) :
    Prop where
  instr : ctx.code[start]? = some i
  arms : ∃ arms, i.arms? = some arms ∧ ctx.position arms.takenLabel = .ok taken ∧
    ctx.position arms.endLabel = .ok join
  order : start < taken ∧ taken < join ∧ join < stop

/-- The expansion of a range comes to a place with some slots filled, behind the code that it has
emitted so far. Both arms of a conditional start from the slots that are filled at the branch. -/
inductive Reaches (ctx : ExpansionContext) (p : Nat) (s : SlotState) :
    Nat → Nat → SlotState → Code → Prop where
  | here {stop : Nat} : p < stop → Reaches ctx p s p stop s []
  | next {start stop : Nat} {i : Instr} {t t' : SlotState} {block before : Code} : start < stop →
      ctx.code[start]? = some i → i.arms? = none → expandInstr ctx start i t = .ok (block, t') →
      Reaches ctx p s (start + 1) stop t' before → Reaches ctx p s start stop t (block ++ before)
  | first {start stop taken join : Nat} {i : Instr} {t : SlotState} {before : Code} :
      ctx.Splits start stop i taken join → Reaches ctx p s (start + 1) taken t before →
      Reaches ctx p s start stop t (i :: before)
  | second {start stop taken join : Nat} {i : Instr} {t s₁ : SlotState} {o₁ before : Code} :
      ctx.Splits start stop i taken join → expandRange ctx (start + 1) taken t = .ok (o₁, s₁) →
      Reaches ctx p s taken join t before → Reaches ctx p s start stop t (i :: (o₁ ++ before))
  | behind {start stop taken join : Nat} {i : Instr} {t s₁ s₂ : SlotState} {o₁ o₂ before : Code} :
      ctx.Splits start stop i taken join → expandRange ctx (start + 1) taken t = .ok (o₁, s₁) →
      expandRange ctx taken join t = .ok (o₂, s₂) →
      Reaches ctx p s join stop (s₁.meet s₂) before →
      Reaches ctx p s start stop t (i :: (o₁ ++ o₂ ++ before))

variable {ctx : ExpansionContext} {p start stop : Nat} {s t u : SlotState} {before o : Code}

theorem Splits.of_rangeOf {i : Instr} {taken join : Nat} (hsplit : ctx.Splits start stop i taken join)
    (h : RangeOf ctx start stop t o u) :
    ∃ o₁ s₁ o₂ s₂ o₃, RangeOf ctx (start + 1) taken t o₁ s₁ ∧ RangeOf ctx taken join t o₂ s₂ ∧
      RangeOf ctx join stop (s₁.meet s₂) o₃ u ∧ o = i :: (o₁ ++ o₂ ++ o₃) := by
  obtain ⟨arms, harms, htaken, hjoin⟩ := hsplit.arms
  have horder := hsplit.order
  exact h.of_arms (by omega) hsplit.instr harms htaken hjoin

theorem exists_reaches (h : RangeOf ctx start stop t o u) (hp : start ≤ p)
    (hstop : p < stop) (hsize : p < ctx.code.size) : ∃ s before, ctx.Reaches p s start stop t before := by
  induction h with
  | done hno =>
    rw [Array.getElem?_eq_none_iff] at hno
    omega
  | @cond start taken join stop i arms t s₁ s₂ u o₁ o₂ o₃ hi harms htaken hjoin horder h₁ h₂ _ ih₁ ih₂
      ih₃ =>
    have hsplit : ctx.Splits start stop i taken join := ⟨hi, ⟨arms, harms, htaken, hjoin⟩, horder⟩
    rw [← expandRange_iff] at h₁ h₂
    rcases Nat.eq_or_lt_of_le hp with rfl | hp
    · exact ⟨t, [], .here hstop⟩
    · rcases Nat.lt_or_ge p taken with htaken | htaken
      · obtain ⟨s, before, hr⟩ := ih₁ hp htaken
        exact ⟨s, _, .first hsplit hr⟩
      rcases Nat.lt_or_ge p join with hjoin | hjoin
      · obtain ⟨s, before, hr⟩ := ih₂ htaken hjoin
        exact ⟨s, _, .second hsplit h₁ hr⟩
      · obtain ⟨s, before, hr⟩ := ih₃ hjoin hstop
        exact ⟨s, _, .behind hsplit h₁ h₂ hr⟩
  | @plain start stop i t t' u block o hlt hi harms hblock _ ih =>
    rcases Nat.eq_or_lt_of_le hp with rfl | hp
    · exact ⟨t, [], .here hlt⟩
    · obtain ⟨s, before, hr⟩ := ih hp hstop
      exact ⟨s, _, .next hlt hi harms (expandInstr_iff.mpr hblock) hr⟩

/-- An instruction is expanded where expansion comes to it, with the slots that are filled there. -/
theorem Reaches.exists_block (hr : ctx.Reaches p s start stop t before) {i : Instr}
    (hi : ctx.code[p]? = some i) (ha : i.arms? = none) (h : RangeOf ctx start stop t o u) :
    ∃ block s' after, ExpansionOf ctx p i s block s' ∧ o = before ++ (block ++ after) := by
  induction hr generalizing o u with
  | here hlt =>
    obtain ⟨block, s', o', hblock, -, rfl⟩ := h.of_plain hlt hi ha
    exact ⟨block, s', o', hblock, rfl⟩
  | next hlt hj hja hx _ ih =>
    obtain ⟨_, _, o', hx', ho, rfl⟩ := h.of_plain hlt hj hja
    cases hx.symm.trans (expandInstr_iff.mpr hx')
    obtain ⟨block, s', after, hblock, rfl⟩ := ih ho
    exact ⟨block, s', after, hblock, (append_assoc _ _ _).symm⟩
  | first hsplit _ ih =>
    obtain ⟨o₁, s₁, o₂, s₂, o₃, h₁, h₂, h₃, rfl⟩ := hsplit.of_rangeOf h
    obtain ⟨block, s', after, hblock, rfl⟩ := ih h₁
    exact ⟨block, s', after ++ (o₂ ++ o₃), hblock, by simp⟩
  | second hsplit h₁ _ ih =>
    obtain ⟨o₁, s₁, o₂, s₂, o₃, h₁', h₂, h₃, rfl⟩ := hsplit.of_rangeOf h
    cases h₁.symm.trans (expandRange_iff.mpr h₁')
    obtain ⟨block, s', after, hblock, rfl⟩ := ih h₂
    exact ⟨block, s', after ++ o₃, hblock, by simp⟩
  | behind hsplit h₁ h₂ _ ih =>
    obtain ⟨o₁, s₁, o₂, s₂, o₃, h₁', h₂', h₃, rfl⟩ := hsplit.of_rangeOf h
    cases h₁.symm.trans (expandRange_iff.mpr h₁')
    cases h₂.symm.trans (expandRange_iff.mpr h₂')
    obtain ⟨block, s', after, hblock, rfl⟩ := ih h₃
    exact ⟨block, s', after, hblock, by simp⟩

/-- What every instruction keeps of the filled slots, and the meeting of two paths too, holds wherever
expansion comes to. -/
theorem Reaches.induction_slots {P : SlotState → Prop} (hmeet : ∀ {s} t, P s → P (s.meet t))
    (hstep : ∀ {position i s block s'}, P s → expandInstr ctx position i s = .ok (block, s') → P s')
    (hr : ctx.Reaches p s start stop t before) (ht : P t) : P s := by
  induction hr with
  | here => exact ht
  | next _ _ _ hx _ ih => exact ih (hstep ht hx)
  | first _ _ ih => exact ih ht
  | second _ _ _ ih => exact ih ht
  | behind _ h₁ _ _ ih => exact ih (hmeet _ (expands_expandRange_of hmeet hstep ht h₁).2)

end ExpansionContext

/-! ## Slots of a body -/

section Bodies

variable {frame? : Option Frame} {clobbers : ClobberTable} {code out : Code} {l : Liveness}
  {stack stack' s : SlotState} {p : Nat} {before : Code}

/-- The expansion of a body comes to a place. -/
def BodyReaches (frame? : Option Frame) (clobbers : ClobberTable) (code : Code) (l : Liveness)
    (stack : SlotState) (p : Nat) (s : SlotState) (before : Code) : Prop :=
  (bodyContext frame? clobbers code l).Reaches p s (bodyStart frame? code) code.length stack before

/-- Filled slots are in order and numbered by words, wherever the expansion of a body comes to. -/
theorem BodyReaches.ordered (hr : BodyReaches frame? clobbers code l stack p s before)
    (h : RangeOf (bodyContext frame? clobbers code l)
      (bodyStart frame? code) code.length stack out stack')
    (hstack : stack.Ordered (2 ^ 31)) : s.Ordered (2 ^ 31) := by
  have hsize := size_bodyContext_le (expandRange_iff.mpr h)
  rw [SlotLayout.limit] at hsize
  refine hr.induction_slots (P := SlotState.Ordered (2 ^ 31)) (fun t hs => hs.meet t) ?_ hstack
  intro position i s block s' hs hx
  exact (expandInstr_iff.mp hx).ordered (by omega) hs

end Bodies

/-! ## Performing a call -/

/-- Whom a call is for, seen from before it: a closure starts with the address of its code. -/
def CallTarget.calleeIn (h : Hart) : CallTarget → Callee
  | .direct l => .function l
  | .closure c => .code (h.memory (h.get c))

/-- What a call from a state `h`, to which the callee replies with `r`, leaves to the code behind it. -/
structure CallSite.Leaves (site : CallSite) (live : LiveSet) (s : SlotState) (h r h₂ : Hart) :
    Prop where
  stack : h₂.get stackReg = h.get stackReg
  link : h₂.get linkReg = h.get linkReg
  live : ∀ v ∈ live, site.dest? ≠ some v → h₂.get v = h.get v
  slots : ∀ q, s.isFilled q = true → h₂.memory (h.get stackReg + SlotLayout.offset q) =
    h.memory (h.get stackReg + SlotLayout.offset q)
  result : ∀ d, site.dest? = some d → d.names .zero = false →
    h₂.get d = r.get (.ofPhys (.result d.cls))
  global : ∀ q ∈ PhysReg.global, site.dest? ≠ some (.ofPhys q) →
    h₂.get (.ofPhys q) = r.get (.ofPhys q)
  memory : h₂.memory = r.memory

/-- A block performs a call, whatever code it stands in. From a state with room for the call below the
stack pointer it comes to the transfer and hands over what is passed. If the callee gives back the
stack and overwrites no caller-saved registers but those that it is known to overwrite, the block ends
with what is live and with the result. -/
def CallSite.IsPerformedBy (site : CallSite) (table : ClobberTable) (targets : List PhysReg)
    (live : LiveSet) (s : SlotState) (block : Code) : Prop :=
  ∀ (env : HartEnvironment) (full rest : Code) (n : Nat) (data : Word → Prop) (h : Hart),
    h.HasRoom data
      (s.words + (savedAcross table site targets live).length + max targets.length 1) →
    (∀ c, site.target = .closure c → h.Shares data (h.get c)) →
    ∃ m h₁ behind, runFor (hartStep env full) m ⟨block ++ rest, h, n⟩ =
        ⟨[], .running ⟨transfer site.target :: behind, h₁, n⟩⟩ ∧
      (transfer site.target).callee? h₁ = some (site.target.calleeIn h) ∧
      HandsOver data h site targets h h₁ ∧
      (h₁.KeepsStack data (env.reply n (site.target.calleeIn h) h₁) →
        (∀ q, RegSet.callerSaved.contains q = true →
          (site.target.overwrites table).contains q = false →
          (env.reply n (site.target.calleeIn h) h₁).get (.ofPhys q) = h₁.get (.ofPhys q)) →
        ∃ m' h₂, runFor (hartStep env full) m' ⟨block ++ rest, h, n⟩ =
            ⟨[⟨site.target.calleeIn h, h₁⟩], .running ⟨rest, h₂, n + 1⟩⟩ ∧
          site.Leaves live s h (env.reply n (site.target.calleeIn h) h₁) h₂)

/-- Neither the operands of a call nor its destination are needed by the code around it. -/
structure CallSite.IsApart (site : CallSite) : Prop extends site.IsPassable where
  dest : ∀ d, site.dest? = some d →
    (∃ q, d = .ofPhys q) ∧ d.name ≠ stackReg.name ∧ d.name ≠ linkReg.name

theorem CallSite.isApart_of_regs {i : Instr} {site : CallSite} (hcall : i.op.isCall = true)
    (hsite : CallSite.ofInstr i = .ok site) (hregs : ∀ r ∈ i.regs, ∃ q, r = Reg.ofPhys q)
    (hfree : ∀ q ∈ [PhysReg.stackPointer, .returnAddress, .scratch, .closure], .ofPhys q ∉ i.regs) :
    site.IsApart := by
  have hname : ∀ r ∈ i.regs, ∀ q ∈ [PhysReg.stackPointer, .returnAddress, .scratch, .closure],
      r.name ≠ q.name := by
    intro r hr q hq hn
    obtain ⟨q', rfl⟩ := hregs r hr
    rw [PhysReg.name_injective hn] at hr
    exact hfree q hq hr
  refine ⟨CallSite.isPassable_of_names hcall hsite fun r hr => ?_, fun d hd => ?_⟩
  · exact ⟨hname r hr .stackPointer (by decide), hname r hr .scratch (by decide),
      hname r hr .closure (by decide)⟩
  · have hdef : d ∈ i.defs := by
      rw [(CallSite.partsOf_ofInstr hcall hsite).defs, hd]
      exact mem_singleton_self d
    have hr := Instr.defs_subset_regs hdef
    exact ⟨hregs d hr, hname d hr .stackPointer (by decide), hname d hr .returnAddress (by decide)⟩

section Calls

variable {table : ClobberTable} {site : CallSite} {targets across : List PhysReg} {live : LiveSet}
  {s : SlotState} {data : Word → Prop} {h h₁ r h₂ : Hart}

theorem working_self (h : Hart) : Working h [] 0 h where
  stack := by
    rw [Word.ofCount]
    simp
  stored k q hq := by cases hq
  kept q _ _ := rfl
  link := rfl

theorem HandsOver.calleeAt_eq (hover : HandsOver data h site targets h h₁) :
    site.target.calleeAt h₁ = site.target.calleeIn h := by
  cases htarget : site.target with
  | direct l => rfl
  | closure c =>
    rw [CallTarget.calleeAt, CallTarget.calleeIn, (hover.closure c htarget).2]
    exact congrArg Callee.code (BitVec.add_zero _)

theorem CallRound.leaves (hcalled : CallRound data table site s.words targets across h h₁ r h₂)
    (hacross : across = savedAcross table site targets live)
    (hroom : h.HasRoom data (s.words + across.length + max targets.length 1))
    (htargets : assignArgs site.target.name site.args = .ok targets)
    (hs : s.filled.Pairwise (· < ·))
    (hlive : ∀ v ∈ live, ∃ q, v = .ofPhys q ∧ q ∉ PhysReg.reserved) (hsite : site.IsApart) :
    site.Leaves live s h r h₂ := by
  have hargs := contains_callerSaved_of_assignArgs htargets
  have hself := working_self h
  have hroom : h.HasRoom data
      (([] : List PhysReg).length + s.words + across.length + max targets.length 1) := by
    simpa using hroom
  have hne : ∀ {q : PhysReg}, site.dest? ≠ some (.ofPhys q) →
      ∀ d, site.dest? = some d → d.name ≠ q.name := by
    intro q hq d hd hname
    obtain ⟨⟨q', rfl⟩, -⟩ := hsite.dest d hd
    rw [PhysReg.name_injective hname] at hd
    exact hq hd
  constructor
  · exact hcalled.resumed.stack fun d hd => (hsite.dest d hd).2.1
  · exact hcalled.link_eq hself hroom fun d hd => (hsite.dest d hd).2.2
  · intro v hv hd
    obtain ⟨q, rfl, hq⟩ := hlive v hv
    refine hcalled.get_of_live hself hroom hargs hacross ?_ (hne hd)
    exact (PhysReg.saved_of_not_mem_reserved hq).imp_right fun hq => ⟨hq, LiveSet.contains_phys hv⟩
  · intro q hq
    refine hcalled.memory_above hself hroom ?_
    rw [length_nil, Nat.zero_add]
    exact SlotState.lt_words hs (contains_iff_mem.mp hq)
  · exact hcalled.resumed.result
  · intro q hq hd
    exact hcalled.get_global (hacross ▸ contains_callerSaved_of_savedAcross hargs) hq (hne hd)
  · exact hcalled.resumed.memory

theorem CallSite.isPerformedBy_callCode
    (htargets : assignArgs site.target.name site.args = .ok targets) (hsite : site.IsApart)
    (hs : s.filled.Pairwise (· < ·)) (hw : s.words ≤ SlotLayout.limit)
    (hlive : ∀ v ∈ live, ∃ q, v = .ofPhys q ∧ q ∉ PhysReg.reserved) :
    site.IsPerformedBy table targets live s (callCode site (Word.ofCount s.words) targets
      (savedAcross table site targets live)) := by
  intro env full rest n data h hroom hcode
  have hargs := contains_callerSaved_of_assignArgs htargets
  obtain ⟨across, hacross⟩ : ∃ across, across = savedAcross table site targets live := ⟨_, rfl⟩
  rw [← hacross] at hroom ⊢
  obtain ⟨h₁, hentry⟩ : ∃ h₁, h₁ = effectOf env.toEnvironment
    (callEntry site s.words targets across) h := ⟨_, rfl⟩
  have hprepared : Prepared site s.words targets across h h₁ :=
    hentry ▸ hacross ▸ prepared_callEntry env.toEnvironment h hw htargets
  have hover : HandsOver data h site targets h h₁ := by
    refine hprepared.handsOver (working_self h) ?_ hargs hsite.toIsPassable hcode
    simpa using hroom
  refine ⟨(callEntry site s.words targets across).length, h₁,
    callReturn site s.words across ++ rest, ?_, ?_, hover, fun hkeeps hregs => ?_⟩
  · rw [callCode_eq, append_assoc, cons_append, hentry]
    exact runFor_straight isStraightCode_callEntry h n
  · rw [callee?_transfer, hover.calleeAt_eq]
  · obtain ⟨m, hm⟩ := runFor_callCode env full rest n hentry
    rw [hover.calleeAt_eq] at hm
    have hresumed := @resumed_effectOf_callReturn env.toEnvironment
      (env.reply n (site.target.calleeIn h) h₁) site s.words across (h.get stackReg)
      (hacross ▸ nodup_savedAcross) (hacross ▸ contains_callerSaved_of_savedAcross hargs)
      (hkeeps.stack.trans hprepared.stack)
    refine ⟨m, _, hm, ?_⟩
    exact CallRound.leaves ⟨hprepared, hkeeps, hregs, hresumed⟩ hacross hroom htargets hs hlive hsite

end Calls

/-! ## Calls of a body -/

/-- Every call of a body that is expanded is performed by the block that stands for it, with the slots
that are filled where the expansion comes to it. The slots that are filled at first are numbered by
words, as those of a body are, and the call itself names none of the registers that the code around it
needs. -/
theorem expand_performs_calls {frame? : Option Frame} {clobbers : ClobberTable}
    {stack stack' : SlotState} {code out : Code} {p : Nat} {i : Instr}
    (hx : expand frame? clobbers stack code = .ok (out, stack')) (hstack : stack.Ordered (2 ^ 31))
    (hregs : ∀ k ∈ code, ∀ r ∈ k.regs, ∃ q, r = Reg.ofPhys q) (hi : code[p]? = some i)
    (hcall : i.op.isCall = true) (htail : i.isTail = false)
    (hfree : ∀ q ∈ [PhysReg.stackPointer, .returnAddress, .scratch, .closure], .ofPhys q ∉ i.regs) :
    ∃ l site targets, Liveness.ofCode code = .ok l ∧ CallSite.ofInstr i = .ok site ∧
      assignArgs site.target.name site.args = .ok targets ∧ targets.length = site.args.length ∧
      (∃ s before, BodyReaches frame? clobbers code l stack p s before) ∧
      ∀ s before, BodyReaches frame? clobbers code l stack p s before →
        ∃ block after, expandInstr (bodyContext frame? clobbers code l) p i s = .ok (block, s) ∧
          out = bodyFront frame? code ++ before ++ block ++ after ∧
          site.IsPerformedBy clobbers targets (l.liveOut p) s block := by
  obtain ⟨l, part, hl, hrange, rfl⟩ := expand_iff.mp hx
  rw [expandRange_iff] at hrange
  have hlabel := (Instr.canTransfer_of_isCall hcall).1
  have harms : i.arms? = none := by
    refine Instr.arms?_of_not_isBranch (Bool.eq_false_iff.mpr fun hb => ?_)
    rw [Opcode.isCall_of_isBranch hb] at hcall
    cases hcall
  have hblock : ∀ {s before}, BodyReaches frame? clobbers code l stack p s before →
      ∃ block s' after, ExpansionOf (bodyContext frame? clobbers code l) p i s block s' ∧
        part = before ++ (block ++ after) := fun hr =>
    hr.exists_block (by simpa [bodyContext] using hi) harms hrange
  -- the call has its parts and its argument registers, wherever expansion comes to it
  have hp := (List.getElem?_eq_some_iff.mp hi).1
  obtain ⟨s₀, before₀, hr₀⟩ := ExpansionContext.exists_reaches hrange (bodyStart_le hi hlabel) hp
    (by simpa [bodyContext] using hp)
  obtain ⟨_, _, _, hx₀, -⟩ := hblock hr₀
  obtain ⟨site, _, targets, hsite, htargets, -⟩ := hx₀.exists_call hcall htail
  have hapart := CallSite.isApart_of_regs hcall hsite (hregs i (mem_of_getElem? hi)) hfree
  have hlength : targets.length = site.args.length := by
    obtain ⟨hfits, rfl⟩ := eq_of_assignArgs_eq_ok htargets
    exact length_argumentRegs hfits
  refine ⟨l, site, targets, hl, hsite, htargets, hlength, ⟨s₀, before₀, hr₀⟩,
    fun s before hr => ?_⟩
  obtain ⟨block, s', after, hexp, rfl⟩ := hblock hr
  obtain ⟨site', height, targets', hsite', htargets', hheight, rfl, hcode⟩ :=
    hexp.exists_call hcall htail
  cases hsite.symm.trans hsite'
  cases htargets.symm.trans htargets'
  have hs := hr.ordered hrange hstack
  refine ⟨block, after, expandInstr_iff.mpr hexp, by simp only [append_assoc], ?_⟩
  rw [hcode, slotBytes_eq_words hheight]
  refine CallSite.isPerformedBy_callCode htargets hapart hs.sorted
    (SlotState.words_le_limit hs.within hheight) fun v hv => ?_
  obtain ⟨hsuffix, hplace⟩ := suffix_of_getElem? hi
  rw [← hplace] at hv
  obtain ⟨t, rest, -, hfollows, hlive⟩ := (Liveness.mem_liveOut_iff hl hsuffix hlabel).mp hv
  exact hlive.exists_phys (hfollows.suffix hsuffix) hregs

/-- A body that calls a closure with two parameters the other way round, while a slot is filled. The
result goes to the register of one of the parameters. -/
def callSwapped : Code :=
  [⟨.spillStore, [Reg.int "x6", .label "v"]⟩,
    ⟨.callClosureResult, [Reg.int "a2", Reg.int "x8", Reg.int "a1", Reg.int "a2"]⟩,
    ⟨.spillLoad, [Reg.int "x7", .label "v"]⟩,
    .binary .add (.int "a1") (.int "a1") (.int "a2"),
    .binary .add (.int "a1") (.int "a1") (.int "x7"), ⟨.returnValue, [Reg.int "a1"]⟩]

/-- A hart with a closure at 5000, whose code is at 96, and with the slot filled. -/
def hartWithClosure : Hart where
  regs x := if x = "sp" then 4000 else if x = "x8" then 5000 else if x = "a1" then 1 else 2
  memory a := if a = 5000 then 96 else if a = 3996 then 7 else 0

theorem expand_performs_calls_callSwapped : ∃ out stack' block after m h₁ h₂,
    expand none .empty .empty callSwapped = .ok (out, stack') ∧
      out = .store stackReg (.int "x6") (-4) :: (block ++ after) ∧
      runFor (hartStep idleCallees out) m ⟨block ++ after, hartWithClosure, 0⟩ =
        ⟨[⟨.code 96, h₁⟩], .running ⟨after, h₂, 1⟩⟩ ∧
      (h₁.get closureReg = 5000 ∧ h₁.get (.int "a1") = 2 ∧ h₁.get (.int "a2") = 1) ∧
      h₂.get stackReg = 4000 ∧ h₂.get (.int "a1") = 1 ∧ h₂.get (.int "a2") = 2 ∧
      h₂.memory 3996 = 7 := by
  have hok : (expand none .empty .empty callSwapped).toOption.isSome = true := by decide +kernel
  obtain ⟨⟨out, stack'⟩, hout⟩ := Option.isSome_iff_exists.mp hok
  have hx := Outcome.eq_ok_of_toOption hout
  have hphys : ∀ k ∈ callSwapped, ∀ r ∈ k.regs, ∃ q ∈ PhysReg.all, r = Reg.ofPhys q := by
    decide +kernel
  obtain ⟨l, site, targets, hl, hsite, htargets, -, -, hall⟩ :=
    expand_performs_calls (p := 1) hx (SlotState.ordered_empty _)
      (fun k hk r hr => (hphys k hk r hr).imp fun _ hq => hq.2) rfl rfl rfl (by decide +kernel)
  cases (show CallSite.ofInstr _ = .ok ⟨some (.int "a2"), .closure (.int "x8"),
    [.int "a1", .int "a2"]⟩ from rfl).symm.trans hsite
  have htargets' : assignArgs "x8" [.int "a1", .int "a2"] = .ok (PhysReg.ofNames ["a2", "a1"]) :=
    Outcome.eq_ok_of_toOption (by decide +kernel)
  cases htargets'.symm.trans htargets
  have hreaches : BodyReaches none .empty callSwapped l .empty 1 ⟨[0]⟩
      [.store stackReg (.int "x6") (-4)] := by
    have hstore : expandInstr (bodyContext none .empty callSwapped l) 0
        ⟨.spillStore, [Reg.int "x6", .label "v"]⟩ .empty =
          .ok ([.store stackReg (.int "x6") (-4)], ⟨[0]⟩) := rfl
    exact .next (by decide) rfl rfl hstore (.here (by decide))
  obtain ⟨block, after, -, hsplit, hperformed⟩ := hall _ _ hreaches
  have hroom : hartWithClosure.HasRoom (fun _ => False) 67 := by
    have hcells : ∀ k < 67, ¬(False ∨ (4000 : Word) ≤ 4000 + Word.below k) := by decide +kernel
    exact hcells
  have hsaved := length_savedAcross_le .empty ⟨some (.int "a2"), .closure (.int "x8"),
    [.int "a1", .int "a2"]⟩ (PhysReg.ofNames ["a2", "a1"]) (l.liveOut 1)
  have hcells : (SlotState.mk [0]).words = 1 ∧ (PhysReg.ofNames ["a2", "a1"]).length = 2 := by
    decide +kernel
  obtain ⟨-, h₁, -, -, -, hover, hback⟩ := hperformed idleCallees out after 0 _ _
    (hroom.mono (by omega)) fun c hc => .inr (by cases hc; decide +kernel)
  obtain ⟨m, h₂, hrun, hleaves⟩ := hback ⟨rfl, fun _ _ => rfl, fun _ _ _ => rfl⟩ fun _ _ _ => rfl
  have hlive : (Liveness.ofCode callSwapped).toOption.any
      (fun l => decide (Reg.int "a1" ∈ l.liveOut 1)) = true := by decide +kernel
  rw [hl] at hlive
  have ha : h₁.get (.int "a1") = 2 := hover.arguments (.int "a2") ⟨.int, 11⟩ (by decide +kernel)
  refine ⟨out, stack', block, after, m, h₁, h₂, hx, hsplit, hrun, ⟨?_, ha, ?_⟩, hleaves.stack, ?_,
    (hleaves.result _ rfl rfl).trans ha, hleaves.slots 0 rfl⟩
  · exact (hover.closure _ rfl).1
  · exact hover.arguments (.int "a1") ⟨.int, 12⟩ (by decide +kernel)
  · exact hleaves.live (.int "a1") (of_decide_eq_true hlive) (by decide)

end ClosureCodegen
