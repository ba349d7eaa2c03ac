import ClosureCodegen.Proofs.Calling.CallEffect
import ClosureCodegen.Proofs.Calling.Emission

/-!
# The code around calls, and the code that sets up and undoes a frame

What expansion emits is straight but for the transfers, so that its effect is known, and a function
that keeps to its stack stays at work.  A call comes back at the depth at which it was made:
`passes_callCode`.  The code at the entry of a function leads from the world of the caller into the
function, and the code in front of a return leads back: `passes_prologue` and `passes_epilogue`.
-/

namespace ClosureCodegen
open List Word PhysReg RegSet ClosureCodegen.Frame Instr

variable {env : Environment} {start h h₁ h₂ r : Hart} {saved targets across : List PhysReg} {k : Nat}
  {p : PhysReg} {code : Code}

/-- The instructions that leave a body, given the labels it jumps to itself: a return, a jump out of
the body and an indirect jump. -/
inductive Departs (inner : List String) : Instr → Prop where
  | ret : Departs inner ⟨.ret, []⟩
  | jump {l : String} : l ∉ inner → Departs inner (.jump l)
  | indirect {s : Reg} {o : Word} : Departs inner ⟨.jalr, [zeroReg, s, o]⟩

/-- What a caller finds as it was when it made the call. -/
structure Restored (start h : Hart) : Prop where
  stack : h.get stackReg = start.get stackReg
  link : h.get linkReg = start.get linkReg
  callee : ∀ r, RegSet.calleeSaved.contains r = true → h.get (.ofPhys r) = start.get (.ofPhys r)

/-- Control leaves a body only in a state in which the world of the caller is restored. -/
def LeavesRestored (inner : List String) (start : Hart) (i : Instr) (h : Hart) : Prop :=
  Departs inner i → Restored start h

theorem Restored.refl (h : Hart) : Restored h h := ⟨rfl, rfl, fun _ _ => rfl⟩

section Straight

variable {inner : List String} {P Q : Hart → Prop} {top : Word}

theorem passes_instr {i : Instr} (hi : i.IsStraight) (hQ : ∀ h, P h → Q (i.effect env h)) :
    Passes env top (LeavesRestored inner start) P [i] Q := by
  have hstays : ¬Departs inner i := by
    have hf := hi.family
    rintro ⟨⟩ <;> cases hf
  refine Passes.instr (fun _ _ hd => absurd hd hstays) fun h h' t hP hm => ?_
  obtain ⟨rfl, rfl⟩ := hm.of_run (hi.callee? h) (hi.run env h)
  exact ⟨rfl, hQ h hP⟩

/-- Straight code leaves nothing but its effect. -/
theorem passes_of_straight (hcode : IsStraightCode code)
    (hQ : ∀ h, P h → Q (effectOf env code h)) :
    Passes env top (LeavesRestored inner start) P code Q := by
  induction code generalizing P with
  | nil => exact Passes.nil hQ
  | cons i code ih =>
    obtain ⟨hi, hcode⟩ := forall_mem_cons.mp hcode
    refine (passes_instr hi fun h hP => ⟨h, hP, rfl⟩).append
      (ih (P := fun h' => ∃ h, P h ∧ h' = i.effect env h) hcode ?_)
    rintro _ ⟨h, hP, rfl⟩
    exact hQ h hP

end Straight

/-! ## Registers of the convention -/

theorem PhysReg.isFree_of_callerSaved {saved : List PhysReg} {p : PhysReg}
    (hp : RegSet.callerSaved.contains p = true) : (Reg.ofPhys p).IsFree saved := by
  have hall : ∀ q ∈ all, RegSet.callerSaved.contains q = true →
      q ≠ .stackPointer ∧ q ≠ .returnAddress ∧ RegSet.calleeSaved.contains q = false := by
    decide
  obtain ⟨hs, hr, hc⟩ := hall p (mem_all p) hp
  refine ⟨fun h => hs (name_injective h), fun h => hr (name_injective h), fun q hq _ h => ?_⟩
  obtain rfl := name_injective h
  cases hc.symm.trans hq

theorem PhysReg.spares_of_ne (hs : p ≠ .scratch) (hc : p ≠ .closure) (target : CallTarget) :
    target.Spares (.ofPhys p) :=
  fun _ _ => ⟨fun h => hs (name_injective h), fun h => hc (name_injective h)⟩

theorem PhysReg.spares_of_not_mem_reserved (hp : p ∉ reserved) (target : CallTarget) :
    target.Spares (.ofPhys p) := by
  refine spares_of_ne (fun hs => hp ?_) (fun hc => hp ?_) target
  · rw [hs]; decide
  · rw [hc]; decide

/-! ## Calls -/

theorem nodup_toList (s : RegSet) : s.toList.Nodup := by
  have hall : all.Nodup := by decide
  exact hall.filter _

theorem length_toList_le (s : RegSet) : s.toList.length ≤ 64 :=
  length_filter_le _ _

theorem length_assignArgs_le {callee : String} {args : List Reg} {targets : List PhysReg}
    (h : assignArgs callee args = .ok targets) : targets.length ≤ 64 := by
  obtain ⟨hfits, rfl⟩ := eq_of_assignArgs_eq_ok h
  have hsub : argumentRegs args ⊆ all := fun p _ => mem_all p
  exact (subperm_of_subset (nodup_argumentRegs hfits) hsub).length_le

theorem length_savedAcross_le (clobbers : ClobberTable) (site : CallSite) (targets : List PhysReg)
    (live : LiveSet) : (savedAcross clobbers site targets live).length ≤ 64 := by
  unfold savedAcross
  simp only
  split <;> exact length_toList_le _

section Calls

variable {table : ClobberTable} {site : CallSite} {live : LiveSet} {name : String} {words : Nat}

theorem nodup_savedAcross : (savedAcross table site targets live).Nodup := by
  unfold savedAcross
  dsimp only
  split <;> exact nodup_toList _

theorem prepared_callEntry (env : Environment) (h : Hart) (hw : words ≤ SlotLayout.limit)
    (htargets : assignArgs name site.args = .ok targets) :
    Prepared site words targets (savedAcross table site targets live) h
      (effectOf env (callEntry site words targets (savedAcross table site targets live)) h) := by
  obtain ⟨hfits, hregs⟩ := eq_of_assignArgs_eq_ok htargets
  exact prepared_effectOf_callEntry hw (length_savedAcross_le table site targets live)
    (length_assignArgs_le htargets) (hregs ▸ nodup_argumentRegs hfits)
    (contains_callerSaved_of_assignArgs htargets)

/-- A register that is kept by the callee, or live and not known to be overwritten, is back behind a
call: it was put away, or nobody has touched it. -/
theorem get_of_resumed {top : Word} {r : Hart} {saved : List PhysReg}
    (hprepared : Prepared site words targets saved h h₁)
    (hresumed : Resumed site words saved top r h₂)
    (hsaved : saved = savedAcross table site targets live)
    (hargs : ∀ t ∈ targets, callerSaved.contains t = true)
    (hcells : ∀ k < saved.length, r.memory (top + Word.below (words + k)) =
      h₁.memory (h.get stackReg + Word.below (words + k)))
    (hcallee : calleeSaved.contains p = true → r.get (.ofPhys p) = h₁.get (.ofPhys p))
    (hkeeps : callerSaved.contains p = true → (site.target.overwrites table).contains p = false →
      r.get (.ofPhys p) = h₁.get (.ofPhys p)) (hp : calleeSaved.contains p = true ∨
      callerSaved.contains p = true ∧ live.phys.contains p = true)
    (hd : ∀ d, site.dest? = some d → d.name ≠ p.name) : h₂.get (.ofPhys p) = h.get (.ofPhys p) := by
  have hreserved : p ∉ reserved := by
    rcases hp with hp | ⟨hp, -⟩
    · exact (calleeSaved_ne hp).2.2
    · exact not_mem_reserved_of_callerSaved hp
  have hne : ∀ q ∈ reserved, p.name ≠ q.name := fun q hq hn =>
    hreserved (name_injective hn ▸ hq)
  by_cases hmem : p ∈ saved
  · -- put away before the call and taken back behind it
    obtain ⟨k, hk⟩ := mem_iff_getElem?.mp hmem
    rw [hresumed.restored k p hk hd, hcells k (List.getElem?_eq_some_iff.mp hk).1,
      hprepared.stored k p hk fun hs => hreserved (hs ▸ by decide)]
  · -- neither an argument register nor overwritten by the callee
    have hkept : p ∉ targets ∧ r.get (.ofPhys p) = h₁.get (.ofPhys p) := by
      rcases hp with hp | ⟨hp, hlive⟩
      · refine ⟨fun ht => ?_, hcallee hp⟩
        exact (@isFree_of_callerSaved [] p (hargs p ht)).kept p hp nofun rfl
      · have hdest : site.dest?.bind Reg.phys? ≠ some p := by
          intro hdest
          obtain ⟨d, hsome, hphys⟩ := Option.bind_eq_some_iff.mp hdest
          have hname := find?_some hphys
          exact hd d hsome (beq_iff_eq.mp hname).symm
        have hneither : ¬((site.target.overwrites table).contains p = true ∨ p ∈ targets) := fun ho =>
          hmem (hsaved ▸ mem_savedAcross_iff.mpr ⟨ho, hlive, hdest⟩)
        rw [not_or, Bool.not_eq_true] at hneither
        exact ⟨hneither.2, hkeeps hp hneither.1⟩
    have hspares : site.target.Spares (.ofPhys p) := fun _ _ =>
      ⟨hne .scratch (by decide), hne .closure (by decide)⟩
    rw [hresumed.regs (.ofPhys p) (hne .stackPointer (by decide)) (hne .returnAddress (by decide))
        (fun q hq hn => hmem (name_injective hn ▸ hq))
        (fun d hsome => ⟨(hd d hsome).symm, hne _ (relay_mem_reserved _)⟩),
      hkept.2, hprepared.regs (.ofPhys p) (hne .stackPointer (by decide))
        (fun t ht hn => hkept.1 (name_injective hn ▸ ht)) hspares]

theorem Prepared.stack_eq (hprepared : Prepared site words targets across h h₁)
    (hw : Working start saved saved.length h) : h₁.get stackReg =
      start.get stackReg - ofCount (saved.length + words + across.length + 1) := by
  have hadd : saved.length + words + across.length + 1 =
      saved.length + (words + across.length + 1) := by omega
  rw [hprepared.stack, hw.stack, hadd, ofCount_add saved.length]
  generalize ofCount saved.length = x
  generalize ofCount (words + across.length + 1) = y
  bv_omega

section Resuming

variable (hprepared : Prepared site words targets across h h₁)
  (hresumed : Resumed site words across (h.get stackReg) r h₂)
  (hw : Working start saved saved.length h)
  (hlt : saved.length + words + across.length + max targets.length 1 < 2 ^ 30)
  (hcells : ∀ k < saved.length + words + across.length + 1,
    r.memory (start.get stackReg + below k) = h₁.memory (start.get stackReg + below k))

include hprepared hresumed hw hlt hcells

theorem memory_of_resumed (hk : k < saved.length + words) :
    h₂.memory (start.get stackReg + below k) = h.memory (start.get stackReg + below k) := by
  rw [hresumed.memory, hcells k (by omega)]
  refine hprepared.memory _ fun j hj hj' => ?_
  rw [hw.cell]
  intro heq
  have := below_injective (by omega) (by omega) heq
  omega

omit hlt in
theorem link_of_resumed (hd : ∀ d, site.dest? = some d → d.name ≠ linkReg.name) :
    h₂.get linkReg = h.get linkReg := by
  rw [hresumed.link hd, hw.cell, hcells _ (by omega), ← hw.cell, hprepared.link]

theorem working_of_resumed (hargs : ∀ p ∈ targets, callerSaved.contains p = true)
    (hacross : across = savedAcross table site targets live)
    (hcallee : ∀ p, calleeSaved.contains p = true → r.get (.ofPhys p) = h₁.get (.ofPhys p))
    (hd : ∀ d, site.dest? = some d → d.IsFree saved) : Working start saved saved.length h₂ := by
  refine hw.congr (hresumed.stack fun d hsome => (hd d hsome).stack)
    (link_of_resumed hprepared hresumed hw hcells fun d hsome => (hd d hsome).returnAddress)
    (fun p hp hps => ?_) fun k hk => memory_of_resumed hprepared hresumed hw hlt hcells (by omega)
  refine get_of_resumed hprepared hresumed hacross hargs (fun k hk => ?_) (hcallee p)
    (fun hp' _ => ?_) (.inl hp) fun d hsome => (hd d hsome).kept p hp hps
  · rw [hw.cell, hcells _ (by omega)]
  · exact absurd rfl ((@isFree_of_callerSaved [] p hp').kept p hp nofun)

end Resuming

theorem passes_callCode {inner : List String} (hwords : words ≤ SlotLayout.limit)
    (hs : saved.length ≤ 64) (htargets : assignArgs name site.args = .ok targets)
    (hacross : across = savedAcross table site targets live)
    (hd : ∀ d, site.dest? = some d → d.IsFree saved) :
    Passes env (start.get stackReg) (LeavesRestored inner start)
      (Working start saved saved.length) (callCode site (ofCount words) targets across)
      (Working start saved saved.length) := by
  have hargs := contains_callerSaved_of_assignArgs htargets
  have hlen := length_assignArgs_le htargets
  have hlen' : across.length ≤ 64 := hacross ▸ length_savedAcross_le _ _ _ _
  have hlimit : SlotLayout.limit = 536870912 := rfl
  intro h hw
  have hprepared : Prepared site words targets across h
      (effectOf env (callEntry site words targets across) h) :=
    hacross ▸ prepared_callEntry env h hwords htargets
  rw [callCode_eq]
  refine (passes_of_straight (P := (· = h))
    (Q := (· = effectOf env (callEntry site words targets across) h)) isStraightCode_callEntry
    fun k hk => hk ▸ rfl).leads ?_ rfl
  rintro _ rfl
  have htransfer := callee?_transfer site.target
    (effectOf env (callEntry site words targets across) h)
  refine .cons (fun hdep => ?_) (fun r hm => ?_) fun r t ht hm => absurd (hm.of_callee htransfer).1 ht
  · generalize transfer site.target = i at htransfer hdep
    cases hdep <;> cases htransfer
  · have hreturns := (hm.of_callee htransfer).2
    refine passes_of_straight isStraightCode_callReturn (P := (· = r)) ?_ r rfl
    rintro _ rfl
    refine working_of_resumed hprepared (resumed_effectOf_callReturn (hacross ▸ nodup_savedAcross)
      (hacross ▸ contains_callerSaved_of_savedAcross hargs)
      (hreturns.stack.trans hprepared.stack)) hw (by omega) (fun k hk => ?_) hargs hacross
      hreturns.saved hd
    exact hreturns.memory _ (Hart.inFrame_cell (hprepared.stack_eq hw) hk (by omega))

theorem Working.passArguments (hw : Working start saved saved.length h)
    (htargets : assignArgs site.target.name site.args = .ok targets)
    (hroom : saved.length + targets.length < 2 ^ 30) :
    Working start saved saved.length (effectOf env
      (passArguments site.args targets) (effectOf env (enterClosure site.target) h)) := by
  have hargs := contains_callerSaved_of_assignArgs htargets
  have hsp : (effectOf env (enterClosure site.target) h).get stackReg = h.get stackReg :=
    get_effectOf_enterClosure_of_spares (CallTarget.spares_stackReg _)
  have hnames := fun p hp => name_ne_of_mem_reserved (p := p) hargs hp
  refine hw.congr ?_ ?_ (fun p hp _ => ?_) fun k hk => ?_
  · exact (get_effectOf_passArguments_of_ne (hnames .stackPointer (by decide))).trans hsp
  · exact (get_effectOf_passArguments_of_ne (hnames .returnAddress (by decide))).trans
      (get_effectOf_enterClosure_of_spares (CallTarget.spares_linkReg _))
  · rw [get_effectOf_passArguments_of_ne, get_effectOf_enterClosure_of_spares]
    · exact spares_of_not_mem_reserved (calleeSaved_ne hp).2.2 _
    · exact fun t ht => ((@isFree_of_callerSaved [] t (hargs t ht)).kept p hp nofun).symm
  · rw [memory_effectOf_passArguments_of_ne, memory_effectOf_enterClosure]
    intro j hj heq
    rw [hsp, hw.cell] at heq
    have := below_injective (by omega) (by omega) heq
    omega

end Calls

/-! ## Frames -/

section Frames

theorem Frame.prologue_eq (f : Frame) : f.prologue = stores f.saved ++ stepStack (-f.size) := by
  simp only [prologue, stepStack, BitVec.ofNat_eq_ofNat, BitVec.neg_eq_zero_iff]

theorem Frame.epilogue_eq (f : Frame) : f.epilogue = stepStack f.size ++ loads f.saved := rfl

theorem isStraightCode_prologue (f : Frame) : IsStraightCode f.prologue := by
  rw [prologue_eq, stores_eq]
  exact isStraightCode_append isStraightCode_storesBelow (isStraightCode_stepStack _)

theorem isStraightCode_epilogue (f : Frame) : IsStraightCode f.epilogue := by
  rw [epilogue_eq, loads_eq]
  exact isStraightCode_append (isStraightCode_stepStack _) isStraightCode_loadsBelow

theorem putAway_effectOf_prologue (env : Environment) (h : Hart) (hs : saved.length ≤ 64) :
    PutAway 0 saved h (effectOf env (mk saved).prologue h) := by
  have haway := putAway_effectOf env h 0 hs
  have hstep : stepStack (-ofCount 0) = [] := by decide
  rw [hstep, nil_append] at haway
  rw [prologue_eq]
  exact haway

variable (hc : ∀ p ∈ saved, calleeSaved.contains p = true)

include hc in
theorem working_effectOf_prologue (env : Environment) (hs : saved.length ≤ 64)
    (hr : Restored start h) :
    Working start saved saved.length (effectOf env (mk saved).prologue h) := by
  have haway := putAway_effectOf_prologue env h hs
  refine ⟨⟨?_, fun k p hp => ?_, fun p hp _ => ?_⟩, (haway.regs _ (by decide)).trans hr.link⟩
  · rw [haway.stack, Nat.zero_add, hr.stack]
  · have hp' := hc p (mem_of_getElem? hp)
    have hstored := haway.stored k p hp (calleeSaved_ne hp').1
    rwa [Nat.zero_add, hr.stack, hr.callee p hp'] at hstored
  · exact (haway.regs _ fun hn => (calleeSaved_ne hp).1 (name_injective hn)).trans (hr.callee p hp)

theorem effectOf_epilogue (env : Environment) (saved : List PhysReg) (h : Hart) :
    effectOf env (mk saved).epilogue h =
      effectOf env (loads saved) (h.set stackReg (h.get stackReg + ofCount saved.length)) := by
  rw [epilogue_eq, effectOf_append, effectOf_stepStack, Frame.size]

theorem memory_effectOf_epilogue : (effectOf env (mk saved).epilogue h).memory = h.memory := by
  rw [effectOf_epilogue, loads_eq, memory_effectOf_loadsBelow, Hart.memory_set]

theorem get_effectOf_epilogue_of_ne {r : Reg} (hr : r.name ≠ stackReg.name)
    (hs : ∀ p ∈ saved, r.name ≠ p.name) :
    (effectOf env (mk saved).epilogue h).get r = h.get r := by
  rw [effectOf_epilogue, get_effectOf_loads_of_ne hs, Hart.get_set_of_ne hr]

include hc

theorem restored_effectOf_epilogue (hn : saved.Nodup) (hw : Working start saved saved.length h) :
    Restored start (effectOf env (mk saved).epilogue h) := by
  have hne : ∀ q ∈ reserved, ∀ p ∈ saved, (Reg.ofPhys q).name ≠ p.name := fun q hq p hp hn =>
    (calleeSaved_ne (hc p hp)).2.2 (name_injective hn ▸ hq)
  have hsp : (h.set stackReg (h.get stackReg + ofCount saved.length)).get stackReg =
      start.get stackReg := by
    rw [Hart.get_set_self rfl, hw.stack]
    exact BitVec.sub_add_cancel _ _
  refine ⟨?_, ?_, fun p hp => ?_⟩
  · rw [effectOf_epilogue]
    exact (get_effectOf_loads_of_ne (hne .stackPointer (by decide))).trans hsp
  · exact (get_effectOf_epilogue_of_ne (by decide) (hne .returnAddress (by decide))).trans hw.link
  · by_cases hps : p ∈ saved
    · obtain ⟨k, hk⟩ := mem_iff_getElem?.mp hps
      have hz : p ≠ .zero := fun hz => (calleeSaved_ne hp).2.2 (hz ▸ by decide)
      rw [effectOf_epilogue, get_effectOf_loads hn (hne .stackPointer (by decide)) hz hk, hsp,
        Hart.memory_set]
      exact hw.stored k p hk
    · rw [get_effectOf_epilogue_of_ne (r := .ofPhys p)]
      · exact hw.kept p hp hps
      · exact fun hn => (calleeSaved_ne hp).1 (name_injective hn)
      · exact fun q hq hn => hps (name_injective hn ▸ hq)

theorem passes_prologue {inner : List String} (hs : saved.length ≤ 64) :
    Passes env (start.get stackReg) (LeavesRestored inner start) (Restored start)
      (mk saved).prologue (Working start saved saved.length) :=
  passes_of_straight (isStraightCode_prologue _) fun _ hr => working_effectOf_prologue hc env hs hr

theorem passes_epilogue {inner : List String} (hn : saved.Nodup) :
    Passes env (start.get stackReg) (LeavesRestored inner start)
      (Working start saved saved.length) (mk saved).epilogue (Restored start) :=
  passes_of_straight (isStraightCode_epilogue _) fun _ hw => restored_effectOf_epilogue hc hn hw

end Frames

end ClosureCodegen
