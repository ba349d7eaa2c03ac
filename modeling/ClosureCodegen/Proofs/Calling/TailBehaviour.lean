import ClosureCodegen.Proofs.Calling.TailSteps

/-!
# Tail calls are invisible to the caller

A function is expanded as it is and with tail calls, each time with the frame of the registers that it
touches.  In every activation in which the callees keep to the calling convention, the caller finds the
same.

* `makeTailCalls_invisible`: the result.
* `returnAlike_callWithNumber`: a function that ends with a call, and callees that answer it.
-/

namespace ClosureCodegen
open List ClosureCodegen.Frame

/-! ## Whole functions -/

/-- The calls of an allocated body have their operands, so that tail calls can be made. -/
theorem IsAllocatedBody.exists_makeTailCalls {f : String} {body : Code} (hb : IsAllocatedBody f body) :
    ∃ count, makeTailCalls (.labelled f :: body) =
      .ok (tailPart (.labelled f :: body) 0 (.labelled f :: body), count) := by
  have hlacks : ∀ i ∈ Instr.labelled f :: body, i.lacksResult = false := by
    intro i hi
    rcases mem_cons.mp hi with rfl | hi
    · rfl
    · have hdec := hb.decodes i hi
      obtain ⟨op, os⟩ := i
      cases os with
      | cons o os => simp [Instr.lacksResult]
      | nil => cases op <;> first | rfl | cases hdec
  exact ClosureCodegen.exists_makeTailCalls fun p i hi _ => hlacks i (mem_of_getElem? hi)

theorem Expands.labelNames_eq {B : Instr → Code → Prop} (hB : KeepsLabels B) {code code' : Code}
    (h : Expands B code code') : labelNames code' = labelNames code := by
  induction h with
  | nil => rfl
  | @cons i block code code' hi _ ih =>
    rw [labelNames_append, ih, labelNames_cons i]
    congr 1
    cases hlabel : i.isLabel with
    | true =>
      obtain ⟨k, rfl, hk, hname⟩ := hB.label hi hlabel
      rw [labelNames_cons, hk, hname, labelNames_nil, append_nil]
    | false =>
      rw [labelNames_eq_nil (hB.noLabel hi hlabel)]
      rfl

section Functions

variable {f : String} {body o : Code} {clobbers : ClobberTable} {l : Liveness} {u : SlotState}

theorem setting_bodyContext (hbody : IsFunctionBody body)
    (hl : Liveness.ofCode (.labelled f :: body) = .ok l) {ctx : ExpansionContext}
    (hctx : bodyContext (some (ofTouched l.touched.phys)) clobbers (.labelled f :: body) l = ctx)
    (h : RangeOf ctx 1 (body.length + 1) .empty o u) :
    Setting ctx body (ofTouched l.touched.phys).saved ∧ Expands (ExpansionBlock ctx) body o ∧
      labelNames ((mk (ofTouched l.touched.phys).saved).prologue ++ o) = labelNames body := by
  subst hctx
  have htouched : touchedRegisters (.labelled f :: body) = .ok l.touched.phys := by
    rw [touchedRegisters, hl]
    rfl
  rw [← expandRange_iff] at h
  have hexp := expansionBlocks_body h
  refine ⟨hbody.setting htouched rfl (size_bodyContext_le h), hexp, ?_⟩
  rw [labelNames_append, labelNames_eq_nil fun k hk => (isStraightCode_prologue _ k hk).noLabel,
    nil_append]
  exact hexp.labelNames_eq (keepsLabels_expansionBlock _)

theorem Twins.returnAlike {ctx ctx' : ExpansionContext} {saved saved' : List PhysReg}
    {heap : Word → Prop} {v v' : Activation} {o' : Code}
    (T : Twins f body ctx ctx' saved saved' heap v v')
    (halong : Alongside (.labelled f :: body) ctx ctx' 1 false body .empty o o' u)
    (hlisting : v.listing = functionCode f saved o) (hlisting' : v'.listing = functionCode f saved' o')
    (hcalls : v'.calls = v.calls) : v.ReturnAlike heap body v' := by
  have hentry := v.comesTo_start
  have hentry' := v'.comesTo_start
  rw [hlisting, functionCode] at hentry
  rw [hlisting', functionCode, T.start, hcalls] at hentry'
  have hwork := (@Activation.ComesTo.instr v _ _ _ _ _ _ .next hentry rfl rfl rfl).straight
    (isStraightCode_prologue _)
  have hwork' := (@Activation.ComesTo.instr v' _ _ _ _ _ _ .next hentry' rfl rfl rfl).straight
    (isStraightCode_prologue _)
  have haway := putAway_effectOf_prologue v.env.toEnvironment v.start T.setting.length_saved
  have haway' := putAway_effectOf_prologue v'.env.toEnvironment v.start T.setting'.length_saved
  have hregs : ∀ r : Reg, r.name ≠ stackReg.name →
      (effectOf v'.env.toEnvironment (Frame.mk saved').prologue v.start).get r =
        (effectOf v.env.toEnvironment (Frame.mk saved).prologue v.start).get r := fun r hr => by
    rw [haway.regs r hr, haway'.regs r hr]
  have hmemory : ∀ {env : Environment} {saved : List PhysReg}, saved.length ≤ 64 → ∀ a,
      v.start.Shares heap a →
      (effectOf env (Frame.mk saved).prologue v.start).memory a = v.start.memory a := by
    intro env saved hlen a ha
    refine (putAway_effectOf_prologue env v.start hlen).memory a fun k hk => ?_
    exact T.room.ne_of_shares (by omega) ha
  have htwins : Twinned heap v.start saved saved' .empty
      (effectOf v.env.toEnvironment (Frame.mk saved).prologue v.start)
      (effectOf v'.env.toEnvironment (Frame.mk saved').prologue v.start) :=
    { working := working_effectOf_prologue T.setting.calleeSaved _ T.setting.length_saved (.refl _)
      working' := working_effectOf_prologue T.setting'.calleeSaved _ T.setting'.length_saved (.refl _)
      shared := fun a ha => by
        rw [hmemory T.setting.length_saved a ha, hmemory T.setting'.length_saved a ha]
      slots := forall_mem_nil _ }
  have hsame : SameRegisters (.labelled f :: body) body
      (effectOf v.env.toEnvironment (Frame.mk saved).prologue v.start)
      (effectOf v'.env.toEnvironment (Frame.mk saved').prologue v.start) := by
    refine ⟨fun r hlive => ?_, fun q hq => hregs _ fun hn => ?_, fun _ => hregs⟩
    · obtain ⟨q, rfl, hq⟩ := T.allocated.exists_of_liveIn hlive (suffix_cons _ _)
      refine hregs _ fun hn => hq ?_
      have hsp : q = .stackPointer := PhysReg.name_injective hn
      rw [hsp]
      decide
    · exact (PhysReg.of_mem_global hq).2.1 (PhysReg.name_injective hn)
  have hout : o ++ [] <:+ v.listing.tail := by
    rw [hlisting, append_nil]
    exact suffix_append _ o
  have hout' : o' ++ [] <:+ v'.listing.tail := by
    rw [hlisting', append_nil]
    exact suffix_append _ o'
  have hbody : body ++ [] <:+ body := by rw [append_nil]
  have hconcl := halong.concludes T (SlotState.ordered_empty _) (append_nil body) hbody .nil hout
    hout' (by rintro ⟨⟩)
  rw [append_nil, append_nil, append_nil] at hconcl
  exact hconcl _ _ _ hwork hwork' htwins hsame

theorem tailContexts_bodyContext {l' : Liveness} (frame? frame?' : Option Frame) (code : Code) :
    TailContexts code (bodyContext frame? clobbers code l)
      (bodyContext frame?' clobbers (tailPart code 0 code) l') where
  body := toList_toArray
  tails := toList_toArray
  labels := rfl
  position := by
    funext x
    simp only [ExpansionContext.position, bodyContext, position?_labelTable,
      (tailsOf_tailPart code 0 code).labelIndex?_eq]
  layout := (tailsOf_tailPart code 0 code).slots_eq

/-- Tail calls are invisible to the caller. Where a function is expanded, so is the function with tail
calls, each with the frame of the registers that it touches. In every activation in which the callees
keep to the calling convention, both come back to the return address, with the stack pointer and the
callee-saved registers of the start, the same value if one is returned, and the same words in the heap
and on the stack of the caller. -/
theorem makeTailCalls_invisible {touched : RegSet} {out : Code} (hb : IsAllocatedBody f body)
    (ht : touchedRegisters (.labelled f :: body) = .ok touched)
    (hx : expand (some (Frame.ofTouched touched)) clobbers .empty (.labelled f :: body) =
      .ok (out, u)) :
    ∃ tails count touched' out', makeTailCalls (.labelled f :: body) = .ok (tails, count) ∧
      touchedRegisters tails = .ok touched' ∧
      expand (some (Frame.ofTouched touched')) clobbers .empty tails = .ok (out', u) ∧
      ∀ env heap start calls,
        Activation.KeepConvention heap clobbers body ⟨env, out, start, calls⟩
          ⟨env, out', start, calls⟩ →
        Activation.ReturnAlike heap body ⟨env, out, start, calls⟩ ⟨env, out', start, calls⟩ := by
  obtain ⟨body', hbody'⟩ : ∃ body', body' = tailPart (.labelled f :: body) 1 body := ⟨_, rfl⟩
  have htails : tailPart (.labelled f :: body) 0 (.labelled f :: body) = .labelled f :: body' := by
    rw [tailPart_cons, tailAt_of_not_isCall rfl, hbody']
  have hlen : body'.length = body.length := by rw [hbody', length_tailPart]
  obtain ⟨l, o, hl, ho, rfl⟩ := expand_function_iff.mp hx
  obtain ⟨l', hl'⟩ :=
    (tailsOf_tailPart (.labelled f :: body) 0 (.labelled f :: body)).exists_liveness hl
  obtain rfl : touched = l.touched.phys := by
    rw [touchedRegisters, hl] at ht
    exact (Except.ok.inj ht).symm
  obtain ⟨count, hcount⟩ := hb.exists_makeTailCalls
  have hcontexts := @tailContexts_bodyContext clobbers l l' (some (Frame.ofTouched l.touched.phys))
    (some (Frame.ofTouched l'.touched.phys)) (.labelled f :: body)
  rw [htails] at hl' hcount hcontexts
  obtain ⟨o₁, o', o₂, s₁, halong, h₂, hout, hnext⟩ :=
    hcontexts.exists_alongside hb.labels hb.shape
      (show (.labelled f :: body : Code).drop 1 = body ++ [] from (append_nil body).symm)
      (Nat.le_of_eq (Nat.add_comm 1 _)) ho
  -- nothing is behind the body
  have hend : body.length + 1 ≤ 1 + body.length := Nat.le_of_eq (Nat.add_comm _ 1)
  obtain ⟨rfl, rfl⟩ := h₂.of_le hend
  have ho' := hnext (.done (.inl hend))
  rw [append_nil] at hout ho'
  subst hout
  rw [← hlen] at ho'
  obtain ⟨hset, hexp, hlabels⟩ := setting_bodyContext hb.isFunctionBody hl rfl ho
  obtain ⟨hset', -, hlabels'⟩ := setting_bodyContext
    (hbody' ▸ hb.isFunctionBody_tailPart (.labelled f :: body) 1) hl' rfl ho'
  refine ⟨_, count, l'.touched.phys, _, hcount, ?_, expand_function_iff.mpr ⟨l', o', hl', ho', rfl⟩,
    fun env heap start calls hconv => ?_⟩
  · rw [touchedRegisters, hl']
    rfl
  · have T : Twins f body _ _ (Frame.ofTouched l.touched.phys).saved
        (Frame.ofTouched l'.touched.phys).saved heap ⟨env, functionCode f _ o, start, calls⟩
        ⟨env, functionCode f _ o', start, calls⟩ :=
      { allocated := hb
        contexts := hcontexts
        setting := hset
        setting' := by
          rw [← hbody']
          exact hset'
        nodup := nodup_toList _
        nodup' := nodup_toList _
        live := ⟨l, hl, rfl⟩
        live' := ⟨l', htails.symm ▸ hl', rfl⟩
        clobbers := rfl
        layout := rfl
        env := rfl
        start := rfl
        expands := ⟨o, rfl, hexp⟩
        labels := hlabels
        labels' := hlabels'.trans (by rw [hbody', (tailsOf_tailPart _ 1 body).labelNames_eq])
        convention := hconv }
    exact T.returnAlike halong rfl rfl rfl

end Functions

/-! ## A function that ends with a call -/

/-- A function that passes a number to another one, and returns what comes back. -/
def callWithNumber : Code :=
  [.li (.int "x8") 3, ⟨.callDirectResult, [Reg.int "x9", .label "g", Reg.int "x8"]⟩,
    ⟨.returnValue, [Reg.int "x9"]⟩]

def tailCallWithNumber : Code :=
  [.li (.int "x8") 3, ⟨.tailDirect, [.label "g", Reg.int "x8"]⟩, ⟨.returnValue, [Reg.int "x9"]⟩]

/-- Its expansion: the call is made below the frame, and the result is moved to where it is
returned. -/
def callWithNumberExpanded : Code :=
  [.labelled "f", .store stackReg (.int "x8") (-4), .store stackReg (.int "x9") (-8),
    .moveStack (-8), .li (.int "x8") 3, .store stackReg (.int "x8") (-4),
    .load (.int "a1") stackReg (-4), .store stackReg linkReg (-4), .moveStack (-4),
    ⟨.call, [.label "g"]⟩, .moveStack 4, .load linkReg stackReg (-4), .move (.int "x4") (.int "a1"),
    .move (.int "x9") (.int "x4"), .move (.int "a1") (.int "x9"), .moveStack 8,
    .load (.int "x9") stackReg (-8), .load (.int "x8") stackReg (-4), ⟨.ret, []⟩]

/-- The expansion with a tail call: the frame is undone before the jump. -/
def tailCallWithNumberExpanded : Code :=
  [.labelled "f", .store stackReg (.int "x8") (-4), .store stackReg (.int "x9") (-8),
    .moveStack (-8), .li (.int "x8") 3, .store stackReg (.int "x8") (-4),
    .load (.int "a1") stackReg (-4), .moveStack 8, .load (.int "x9") stackReg (-8),
    .load (.int "x8") stackReg (-4), .jump "g", .move (.int "a1") (.int "x9"), .moveStack 8,
    .load (.int "x9") stackReg (-8), .load (.int "x8") stackReg (-4), ⟨.ret, []⟩]

theorem isAllocatedBody_callWithNumber : IsAllocatedBody "f" callWithNumber where
  shape := .plain rfl rfl rfl (.plain rfl rfl rfl (.ret rfl .nil))
  labels := by decide
  operands := by
    have hall : ∀ i ∈ callWithNumber, ∀ r ∈ i.regs, ∃ p ∈ PhysReg.all, r = Reg.ofPhys p ∧
        p ∉ [PhysReg.stackPointer, .returnAddress, .scratch, .floatScratch] := by decide
    intro i hi r hr
    obtain ⟨p, -, hp⟩ := hall i hi r hr
    exact ⟨p, hp⟩
  decodes := by decide
  idle := by decide
  opcodes := by decide
  results := by decide
  callees _ _ _ _ _ := not_mem_nil
  closure := by decide
  incoming := by decide

/-- Callees that answer with a number and touch no memory. -/
def answeringCallees (w : Word) : HartEnvironment :=
  { plainEnvironment with
    reply := fun _ _ h => (h.set (.ofPhys (.result .int)) w).set (.ofPhys (.result .float)) w }

theorem get_reply_answeringCallees (w : Word) (n : Nat) (callee : Callee) (h : Hart) {p : PhysReg}
    (hp : p ≠ .result .int ∧ p ≠ .result .float) :
    ((answeringCallees w).reply n callee h).get (.ofPhys p) = h.get (.ofPhys p) := by
  rw [answeringCallees, Hart.get_set_of_ne fun hn => hp.2 (PhysReg.name_injective hn),
    Hart.get_set_of_ne fun hn => hp.1 (PhysReg.name_injective hn)]

theorem keepConvention_answeringCallees (w : Word) {heap : Word → Prop} {body out out' : Code}
    {start : Hart} (hroom : start.HasRoom heap ((SlotLayout.ofCode body).size + 193))
    (hout : ∀ i ∈ out, i.namesStack = false → ∀ h, i.touches h = []) :
    Activation.KeepConvention heap .empty body ⟨answeringCallees w, out, start, 0⟩
      ⟨answeringCallees w, out', start, 0⟩ := by
  have hmemory : ∀ n callee h, ((answeringCallees w).reply n callee h).memory = h.memory := by
    intro n callee h
    rw [answeringCallees, Hart.memory_set, Hart.memory_set]
  have hcallee : ∀ p ∈ PhysReg.all, RegSet.calleeSaved.contains p = true →
      p ≠ .result .int ∧ p ≠ .result .float := by decide
  have hglobal : ∀ p ∈ PhysReg.global, p ≠ .result .int ∧ p ≠ .result .float := by decide
  have htidy : ∀ out, Activation.HasTidyCallees ⟨answeringCallees w, out, start, 0⟩ heap .empty := by
    refine fun out => ⟨fun c callee _ _ => ⟨?_, fun p hp => ?_, fun a _ _ => ?_⟩,
      fun c name _ _ p hp hno => ?_⟩
    · exact get_reply_answeringCallees w _ _ _ (p := .stackPointer) (by decide)
    · exact get_reply_answeringCallees w _ _ _ (hcallee p (PhysReg.mem_all p) hp)
    · rw [hmemory]
    · -- nothing is known of the callees
      rw [show ClobberTable.empty.clobbers name = RegSet.callerSaved from rfl, hp] at hno
      cases hno
  refine ⟨hroom, fun i rest h n hc hstack a ha => ?_, htidy out, htidy out', ?_⟩
  · rw [hout i (hc.suffix.subset mem_cons_self) hstack h] at ha
    cases ha
  · intro c c' callee k rest i site targets _ _ _ _ _ _ _ _ _ hinput
    refine ⟨fun cls _ => ?_, fun p hp => ?_, fun a ha => ?_⟩
    · have hresult : ∀ n callee (h : Hart),
          ((answeringCallees w).reply n callee h).get (.ofPhys (.result cls)) = w := by
        intro n callee h
        rw [answeringCallees]
        have hne : (Reg.ofPhys (.result .int)).name ≠ (Reg.ofPhys (.result .float)).name := by decide
        cases cls with
        | int => rw [Hart.get_set_of_ne hne, Hart.get_set_self rfl]
        | float => rw [Hart.get_set_self rfl]
      rw [hresult, hresult]
    · rw [get_reply_answeringCallees w _ _ _ (hglobal p hp),
        get_reply_answeringCallees w _ _ _ (hglobal p hp), hinput.global p hp]
    · rw [hmemory, hmemory, hinput.heap a ha]

theorem returnAlike_callWithNumber :
    makeTailCalls (.labelled "f" :: callWithNumber) = .ok (.labelled "f" :: tailCallWithNumber, 1) ∧
    Activation.KeepConvention (· < 1000) .empty callWithNumber
      ⟨answeringCallees 5, callWithNumberExpanded, filledHart 4000, 0⟩
      ⟨answeringCallees 5, tailCallWithNumberExpanded, filledHart 4000, 0⟩ ∧
    Activation.ReturnAlike (· < 1000) callWithNumber
      ⟨answeringCallees 5, callWithNumberExpanded, filledHart 4000, 0⟩
      ⟨answeringCallees 5, tailCallWithNumberExpanded, filledHart 4000, 0⟩ := by
  have htouched : touchedRegisters (.labelled "f" :: callWithNumber) =
      .ok (RegSet.ofList (PhysReg.ofNames ["x8", "x9"])) := by
    refine Outcome.eq_ok_of_toOption ?_
    decide +kernel
  have hexpand : expand (some (Frame.ofTouched (RegSet.ofList (PhysReg.ofNames ["x8", "x9"]))))
      .empty .empty (.labelled "f" :: callWithNumber) = .ok (callWithNumberExpanded, .empty) := by
    refine Outcome.eq_ok_of_toOption ?_
    decide +kernel
  have hmake : makeTailCalls (.labelled "f" :: callWithNumber) =
      .ok (.labelled "f" :: tailCallWithNumber, 1) := by cbv
  have htouched' : touchedRegisters (.labelled "f" :: tailCallWithNumber) =
      .ok (RegSet.ofList (PhysReg.ofNames ["x8", "x9"])) := by
    refine Outcome.eq_ok_of_toOption ?_
    decide +kernel
  have hexpand' : expand (some (Frame.ofTouched (RegSet.ofList (PhysReg.ofNames ["x8", "x9"]))))
      .empty .empty (.labelled "f" :: tailCallWithNumber) =
        .ok (tailCallWithNumberExpanded, .empty) := by
    refine Outcome.eq_ok_of_toOption ?_
    decide +kernel
  have hroom : Hart.HasRoom (· < 1000) (filledHart 4000)
      ((SlotLayout.ofCode callWithNumber).size + 193) := by
    have hcells : ∀ k < 193, ¬((4000 : Word) + Word.below k < 1000 ∨
        (4000 : Word) ≤ 4000 + Word.below k) := by decide +kernel
    exact hcells
  have hout : ∀ i ∈ callWithNumberExpanded, i.namesStack = false → ∀ h, i.touches h = [] := by
    simp only [callWithNumberExpanded, forall_mem_cons, not_mem_nil, false_imp_iff,
      implies_true, and_true]
    repeat' constructor
    all_goals first | exact fun _ _ => rfl | exact fun hs => absurd hs (by decide)
  obtain ⟨tails, count, touched', out', hmake₁, htouched₁, hexpand₁, hall⟩ :=
    makeTailCalls_invisible isAllocatedBody_callWithNumber htouched hexpand
  cases hmake.symm.trans hmake₁
  cases htouched'.symm.trans htouched₁
  cases hexpand'.symm.trans hexpand₁
  have hconv := @keepConvention_answeringCallees 5 (· < 1000) callWithNumber callWithNumberExpanded
    tailCallWithNumberExpanded (filledHart 4000) hroom hout
  exact ⟨hmake, hconv, hall _ _ _ _ hconv⟩

end ClosureCodegen
