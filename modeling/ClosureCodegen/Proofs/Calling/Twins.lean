import ClosureCodegen.Proofs.Calling.AllocatedBodies

/-!
# Two activations side by side

A function and the same function with tail calls are run side by side, from one state and with callees
that keep to the calling convention.  Their frames differ, since the one with tail calls touches fewer
registers, and so do the registers they save across a call.  But they take the same way through the
body, and at every place of it they agree on what is live there, on the filled slots, and on what
outlives the activation.

* `SameRegisters` and `Twinned`: what the two agree on.
* `Activation.KeepConvention`: what is asked of the callees.
* `Activation.ReturnAlike`: what the caller finds is the same.
-/

namespace ClosureCodegen
open List Word Hart Instr ExpansionContext

variable {code : Code} {t : Transfer} {i j : Instr} {r : Reg}

/-! ## Registers -/

/-- Two harts agree on the registers that are live at a place of a body, and on those of the whole
program. In front of the first call they agree on all registers but the stack pointer. -/
structure SameRegisters (code rest : Code) (h h' : Hart) : Prop where
  live : ∀ r, LiveIn code r rest → h'.get r = h.get r
  global : ∀ p ∈ PhysReg.global, h'.get (.ofPhys p) = h.get (.ofPhys p)
  early : callsIn rest = callsIn code → ∀ r : Reg, r.name ≠ stackReg.name → h'.get r = h.get r

section Registers

variable {f : String} {body rest : Code} {h h' k k' : Hart}

theorem callsIn_le_of_suffix {rest : Code} (hs : rest <:+ code) : callsIn rest ≤ callsIn code :=
  hs.sublist.countP_le

theorem IsAllocatedBody.callsIn_eq (hb : IsAllocatedBody f body) (hs : i :: rest <:+ body)
    (hi : i.op = .param ∨ i.op = .captured ∨ closureReg ∈ i.uses) :
    callsIn (i :: rest) = callsIn (.labelled f :: body) := by
  obtain ⟨pre, rfl⟩ := hs
  have hincoming := (pairwise_append.mp hb.incoming).2.2
  have hpre : callsIn (.labelled f :: pre) = 0 := by
    refine countP_eq_zero.mpr fun k hk hcall => ?_
    rcases mem_cons.mp hk with rfl | hk
    · cases hcall
    · obtain ⟨hp, hc, hu⟩ := hincoming k hk i mem_cons_self hcall
      rcases hi with hi | hi | hi
      · exact hp hi
      · exact hc hi
      · exact hu hi
  unfold callsIn at hpre ⊢
  rw [← cons_append, countP_append, hpre, Nat.zero_add]

theorem SameRegisters.uses (hb : IsAllocatedBody f body) (hs : i :: rest <:+ body)
    (hr : SameRegisters (.labelled f :: body) (i :: rest) h h') :
    ∀ r ∈ i.uses, h'.get r = h.get r := by
  intro r hu
  have hi : i ∈ body := hs.subset mem_cons_self
  obtain ⟨p, rfl, hp⟩ := hb.operands i hi r (Instr.uses_subset_regs hu)
  by_cases hreserved : p ∈ PhysReg.reserved
  · have hall : ∀ q ∈ PhysReg.reserved,
        q ∉ [PhysReg.stackPointer, .returnAddress, .scratch, .floatScratch] →
        q = .zero ∨ q = .closure ∨ q ∈ PhysReg.global := by decide
    rcases hall p hreserved hp with rfl | rfl | hglobal
    · rw [Hart.get_of_names_zero rfl, Hart.get_of_names_zero rfl]
    · exact hr.early (hb.callsIn_eq hs (.inr (.inr hu))) closureReg (by decide)
    · exact hr.global p hglobal
  · refine hr.live _ (.use (mem_filter.mpr ⟨hu, ?_⟩))
    rw [Bool.not_eq_true', Bool.eq_false_iff]
    exact fun hres => hreserved (PhysReg.isReservedName_name.mp hres)

/-- An instruction that makes the same of registers on both sides keeps them the same, wherever
control goes on. -/
theorem SameRegisters.follow {rest' : Code} (hr : SameRegisters code (i :: rest) h h')
    (hs : i :: rest <:+ code) (ht : i.CanTransfer t) (hf : Follows code rest t rest')
    (hsuf : rest' <:+ rest) (hregs : ∀ r, h'.get r = h.get r → k'.get r = k.get r)
    (hdefs : ∀ r, (∃ d ∈ i.defs, r.name = d.name) → k'.get r = k.get r) :
    SameRegisters code rest' k k' where
  live r hlive := by
    by_cases hd : ∃ d ∈ i.defs, r.name = d.name
    · exact hdefs r hd
    · refine hregs r (hr.live r (.flow (fun hmem => hd ?_) ht hf hlive))
      exact ⟨r, mem_of_mem_filter hmem, rfl⟩
  global p hp := hregs _ (hr.global p hp)
  early hcalls r hn := by
    refine hregs r (hr.early (Nat.le_antisymm (callsIn_le_of_suffix hs) ?_) r hn)
    rw [← hcalls]
    exact callsIn_le_of_suffix (hsuf.trans (suffix_cons i rest))

theorem SameRegisters.next {code : Code} (hr : SameRegisters code (i :: rest) h h')
    (hs : i :: rest <:+ code) (hj : i.op ≠ .j)
    (hregs : ∀ r, h'.get r = h.get r → k'.get r = k.get r)
    (hdefs : ∀ r, (∃ d ∈ i.defs, r.name = d.name) → k'.get r = k.get r) :
    SameRegisters code rest k k' :=
  have hnext : i.CanTransfer .next := hj
  hr.follow hs hnext rfl suffix_rfl hregs hdefs

end Registers

/-! ## Frames -/

/-- Two functions at work in the same activation, each with its own frame: what outlives the
activation is the same, and so are the filled slots. -/
structure Twinned (heap : Word → Prop) (start : Hart) (saved saved' : List PhysReg) (s : SlotState)
    (h h' : Hart) : Prop where
  working : Working start saved saved.length h
  working' : Working start saved' saved'.length h'
  shared : ∀ a, start.Shares heap a → h'.memory a = h.memory a
  slots : ∀ q ∈ s.filled, h'.memory (start.get stackReg + Word.below (saved'.length + q)) =
    h.memory (start.get stackReg + Word.below (saved.length + q))

section Frames

variable {heap : Word → Prop} {start : Hart} {saved saved' : List PhysReg} {s : SlotState}
  {h h' : Hart} {n : Nat} (ht : Twinned heap start saved saved' s h h')
include ht

theorem Twinned.weaken {s' : SlotState} (hs : s'.filled ⊆ s.filled) :
    Twinned heap start saved saved' s' h h' :=
  { ht with slots := fun q hq => ht.slots q (hs hq) }

theorem Twinned.run {env : Environment} {k : Hart} (hs : s.Within n)
    (hroom : start.HasRoom heap (n + 193)) (hlen : saved.length ≤ 64) (hlen' : saved'.length ≤ 64)
    (hfree : ∀ d ∈ i.defs, d.IsFree saved) (hfree' : ∀ d ∈ i.defs, d.IsFree saved')
    (hu : ∀ r ∈ i.uses, h'.get r = h.get r) (htouch : ∀ a ∈ i.touches h, start.Shares heap a)
    (hr : i.run env h = some (k, t)) :
    ∃ k', i.run env h' = some (k', t) ∧ Twinned heap start saved saved' s k k' ∧
      i.RunsAlike (start.Shares heap) h h' k k' := by
  obtain ⟨k', hr', halike⟩ := run_congr hr hu htouch ht.shared
  have hkept : ∀ r : Reg, (∀ d ∈ i.defs, r.name ≠ d.name) →
      k.get r = h.get r ∧ k'.get r = h'.get r := halike.others
  have hcell : ∀ j < n + 193, k.memory (start.get stackReg + below j) =
      h.memory (start.get stackReg + below j) ∧
      k'.memory (start.get stackReg + below j) =
        h'.memory (start.get stackReg + below j) := fun j hj =>
    halike.outside _ (hroom j hj)
  refine ⟨k', hr', ⟨?_, ?_, halike.inside, fun q hq => ?_⟩, halike⟩
  · exact ht.working.congr (hkept _ fun d hd => (hfree d hd).stack.symm).1
      (hkept _ fun d hd => (hfree d hd).returnAddress.symm).1
      (fun p hp hps => (hkept _ fun d hd => ((hfree d hd).kept p hp hps).symm).1)
      fun j hj => (hcell j (by omega)).1
  · exact ht.working'.congr (hkept _ fun d hd => (hfree' d hd).stack.symm).2
      (hkept _ fun d hd => (hfree' d hd).returnAddress.symm).2
      (fun p hp hps => (hkept _ fun d hd => ((hfree' d hd).kept p hp hps).symm).2)
      fun j hj => (hcell j (by omega)).2
  · have := hs q hq
    rw [(hcell _ (by omega)).1, (hcell _ (by omega)).2, ht.slots q hq]

theorem Twinned.store (hs : s.Within n) (hroom : start.HasRoom heap (n + 193))
    (hlen : saved.length ≤ 64) (hlen' : saved'.length ≤ 64) {q : Nat} (hq : q < n) (v : Word) :
    Twinned heap start saved saved' (s.fill q) (h.write (h.get stackReg + below q) v)
      (h'.write (h'.get stackReg + below q) v) := by
  have hlt := hroom.lt
  have hne : ∀ m x, m ≤ 64 → x < n → x ≠ q → start.get stackReg + below (m + x) ≠
      start.get stackReg + below (m + q) := by
    intro m x hm hx hxq heq
    have := below_injective (by omega) (by omega) heq
    omega
  refine ⟨ht.working.write (Nat.le_refl _) (by omega) v,
    ht.working'.write (Nat.le_refl _) (by omega) v, fun a ha => ?_, fun x hx => ?_⟩
  · rw [memory_write_of_ne, memory_write_of_ne, ht.shared a ha]
    · rw [ht.working.cell]
      exact hroom.ne_of_shares (by omega) ha
    · rw [ht.working'.cell]
      exact hroom.ne_of_shares (by omega) ha
  · rw [ht.working.cell, ht.working'.cell]
    by_cases hxq : x = q
    · rw [hxq, memory_write_self, memory_write_self]
    · have hx' := (SlotState.mem_insertPosition.mp hx).resolve_left hxq
      have hxn := hs x hx'
      rw [memory_write_of_ne (hne _ x hlen hxn hxq),
        memory_write_of_ne (hne _ x hlen' hxn hxq), ht.slots x hx']

theorem Twinned.set (hr : r.IsFree saved) (hr' : r.IsFree saved') (v : Word) :
    Twinned heap start saved saved' s (h.set r v) (h'.set r v) where
  working := ht.working.set hr v
  working' := ht.working'.set hr' v
  shared a ha := by
    rw [memory_set, memory_set]
    exact ht.shared a ha
  slots q hq := by
    rw [memory_set, memory_set]
    exact ht.slots q hq

end Frames

/-! ## Two activations -/

/-- The replies of callees depend on what is passed to them and on the heap only: where two
activations make the same call, and what they hand over looks the same to the callee, what comes back
looks the same to them. -/
def Activation.SameReplies (heap : Word → Prop) (body : Code) (v v' : Activation) : Prop :=
  ∀ c c' callee k rest i site targets, v.ComesTo c → v'.ComesTo c' → c'.calls = c.calls →
    v.HandsTo c callee → v'.HandsTo c' callee →
    c.rest = k :: rest → CallOf body rest i → CallSite.ofInstr i = .ok site →
    assignArgs site.target.name site.args = .ok targets →
    SameInput heap (site.passed targets) c.hart c'.hart →
    SameOutcome heap (site.dest?.map Reg.cls) (v.env.reply c.calls callee c.hart)
      (v'.env.reply c'.calls callee c'.hart)

structure Activation.KeepConvention (heap : Word → Prop) (clobbers : ClobberTable) (body : Code)
    (v v' : Activation) : Prop where
  room : v.start.HasRoom heap ((SlotLayout.ofCode body).size + 193)
  offStack : v.KeepsOffStack heap
  tidy : v.HasTidyCallees heap clobbers
  tidy' : v'.HasTidyCallees heap clobbers
  replies : v.SameReplies heap body v'

def Activation.ReturnsBy (v : Activation) (body : Code) (i : Instr) (h : Hart) : Prop :=
  ∃ rest n, v.ComesTo ⟨⟨.ret, []⟩ :: rest, h, n⟩ ∧ ReturnOf body rest i

/-- What a caller finds is the same in both cases: the stack pointer and the callee-saved registers of
the start, the value that is returned, and the words that outlive the activation. -/
structure SameReturn (heap : Word → Prop) (start : Hart) (i : Instr) (h h' : Hart) : Prop where
  stack : h.get stackReg = start.get stackReg ∧ h'.get stackReg = start.get stackReg
  saved : ∀ p, RegSet.calleeSaved.contains p = true →
    h.get (.ofPhys p) = start.get (.ofPhys p) ∧ h'.get (.ofPhys p) = start.get (.ofPhys p)
  value : i.op = .returnValue → ∀ r, i.reg? 0 = some r →
    h'.get (.ofPhys (.result r.cls)) = h.get (.ofPhys (.result r.cls))
  memory : ∀ a, start.Shares heap a → h'.memory a = h.memory a

/-- Two activations come back to the same address with the same for the caller. -/
def Activation.ReturnAlike (heap : Word → Prop) (body : Code) (v v' : Activation) : Prop :=
  ∃ i h h', v.ReturnsBy body i h ∧ v.ComesBack (v.start.get linkReg) h ∧
    v'.ComesBack (v.start.get linkReg) h' ∧ SameReturn heap v.start i h h'

/-- A function without and with tail calls, and an activation of each from the same state. -/
structure Twins (f : String) (body : Code) (ctx ctx' : ExpansionContext)
    (saved saved' : List PhysReg) (heap : Word → Prop) (v v' : Activation) : Prop where
  allocated : IsAllocatedBody f body
  contexts : TailContexts (.labelled f :: body) ctx ctx'
  setting : Setting ctx body saved
  setting' : Setting ctx' (tailPart (.labelled f :: body) 1 body) saved'
  nodup : saved.Nodup
  nodup' : saved'.Nodup
  live : ∃ l, Liveness.ofCode (.labelled f :: body) = .ok l ∧ ctx.liveOut = l.liveOut
  live' : ∃ l, Liveness.ofCode (tailPart (.labelled f :: body) 0 (.labelled f :: body)) = .ok l ∧
    ctx'.liveOut = l.liveOut
  clobbers : ctx'.clobbers = ctx.clobbers
  layout : ctx.layout = SlotLayout.ofCode body
  env : v'.env = v.env
  start : v'.start = v.start
  expands : ∃ out, v.listing.tail = (Frame.mk saved).prologue ++ out ∧
    Expands (ExpansionBlock ctx) body out
  labels : labelNames v.listing.tail = labelNames body
  labels' : labelNames v'.listing.tail = labelNames body
  convention : v.KeepConvention heap ctx.clobbers body v'

/-- From a place of a body on, with some slots filled, the two come back with the same. -/
def Concludes (f : String) (body : Code) (saved saved' : List PhysReg) (heap : Word → Prop)
    (v v' : Activation) (rest : Code) (s : SlotState) (code code' : Code) : Prop :=
  ∀ h h' k, v.ComesTo ⟨code, h, k⟩ → v'.ComesTo ⟨code', h', k⟩ →
    Twinned heap v.start saved saved' s h h' → SameRegisters (.labelled f :: body) rest h h' →
    v.ReturnAlike heap body v'

theorem Instr.decode?_inv {d : Decoded} (hd : i.decode? = some d) :
    (i.op.family = .branch → ∃ s t l, d = ⟨.branch i.op l, [s, t], []⟩) ∧
      (i.op.family = .slotLoad ∨ i.op.family = .captured →
        ∃ r, i.reg? 0 = some r ∧ d.writes = [r]) := by
  obtain ⟨op, os⟩ := i
  have hdec : Decodes op op.family os d := decodes_of_decode? hd
  simp only
  generalize op.family = form at hdec
  cases hdec with
  | branch s t l => exact ⟨fun _ => ⟨s, t, l, rfl⟩, nofun⟩
  | slotLoad r | captured r => exact ⟨nofun, fun _ => ⟨r, rfl, rfl⟩⟩
  | _ => exact ⟨nofun, nofun⟩

theorem Instr.defs_of_reg? (hdec : i.decode?.isSome = true)
    (hop : i.op = .spillLoad ∨ i.op = .captured) (hr : i.reg? 0 = some r) : i.defs = [r] := by
  obtain ⟨d, hd⟩ := Option.isSome_iff_exists.mp hdec
  have hf : i.op.family = .slotLoad ∨ i.op.family = .captured := by
    rcases hop with hop | hop
    · exact .inl (by rw [hop]; rfl)
    · exact .inr (by rw [hop]; rfl)
  obtain ⟨q, hq, hwrites⟩ := (decode?_inv hd).2 hf
  have hz : i.idleLanesZero = true := idleLanesZero_of_family fun h => by
    rcases hf with hf | hf <;> cases hf.symm.trans h
  rw [← decode?_writes hz hd, hwrites, Option.some.inj (hq.symm.trans hr)]

section Steps

variable {f : String} {body : Code} {ctx ctx' : ExpansionContext} {saved saved' : List PhysReg}
  {heap : Word → Prop} {v v' : Activation} {rest post post' : Code} {s s' : SlotState} {p : Nat}
  {block block' : Code}

theorem ExpansionOf.unique {s₁ s₂ : SlotState} (h : ExpansionOf ctx p i s block s₁)
    (h' : ExpansionOf ctx p i s block' s₂) : block = block' ∧ s₁ = s₂ := by
  have heq := (expandInstr_iff.mpr h).symm.trans (expandInstr_iff.mpr h')
  cases heq
  exact ⟨rfl, rfl⟩

namespace Twins

theorem suffix_code (hs : i :: rest <:+ body) : i :: rest <:+ .labelled f :: body :=
  hs.trans (suffix_cons _ _)

variable (T : Twins f body ctx ctx' saved saved' heap v v')

/-- From a place on, twins come back with the same. -/
abbrev Concluding (_ : Twins f body ctx ctx' saved saved' heap v v') (rest : Code) (s : SlotState)
    (code code' : Code) : Prop := Concludes f body saved saved' heap v v' rest s code code'

include T

theorem room :
    v.start.HasRoom heap (ctx.layout.size + 193) := by
  rw [T.layout]
  exact T.convention.room

theorem free' (hi : i ∈ body)
    (hcall : i.op.isCall = false) : ∀ d ∈ i.defs, d.IsFree saved' := by
  obtain ⟨k, hk⟩ := mem_iff_getElem?.mp hi
  have hmem : i ∈ tailPart (.labelled f :: body) 1 body := by
    refine mem_of_getElem? (i := k) ?_
    rw [getElem?_tailPart, hk, Option.map_some, tailAt_of_not_isCall hcall]
  exact T.setting'.free i hmem

/-- An instruction of the machine that stands for one of the body, with the same definitions, goes on
in the same way on both sides. -/
theorem concludes_follow
    (hs : i :: rest <:+ body) (hord : s.Ordered ctx.layout.size) (hcall : i.op.isCall = false)
    (hdefs : j.defs = i.defs) (hidle : j.idleLanesZero = true) (hstack : j.namesStack = false)
    (huses : ∀ h h', SameRegisters (.labelled f :: body) (i :: rest) h h' →
      ∀ r ∈ j.uses, h'.get r = h.get r) (hcallee : ∀ h, j.callee? h = none)
    (hrun : ∀ h, ∃ k t rest' next next', j.run v.env.toEnvironment h = some (k, t) ∧
      i.CanTransfer t ∧ Follows (.labelled f :: body) rest t rest' ∧ rest' <:+ rest ∧
      Follows v.listing.tail post t next ∧ Follows v'.listing.tail post' t next' ∧
      T.Concluding rest' s next next') :
    T.Concluding (i :: rest) s (j :: post) (j :: post') := by
  intro h h' n hc hc' ht hr
  have hi : i ∈ body := hs.subset mem_cons_self
  obtain ⟨k, t, rest', next, next', hrun, hcan, hf, hsuf, hnext, hnext', hconcl⟩ := hrun h
  obtain ⟨k', hrun', ht', halike⟩ := ht.run hord.within T.room T.setting.length_saved
    T.setting'.length_saved (hdefs ▸ T.setting.free i hi) (hdefs ▸ T.free' hi hcall)
    (huses h h' hr) (T.convention.offStack _ _ _ _ hc hstack) hrun
  exact hconcl _ _ _ (hc.instr (hcallee h) hrun hnext)
    (hc'.instr (hcallee h') (T.env ▸ hrun') hnext') ht'
    (hr.follow (suffix_code hs) hcan hf hsuf halike.regs (hdefs ▸ halike.defs hidle))

theorem concludes_run (hs : i :: rest <:+ body)
    (hord : s.Ordered ctx.layout.size) (hcall : i.op.isCall = false) (hplain : i.op ≠ .j)
    (hj : j.IsStraight) (hdefs : j.defs = i.defs) (hidle : j.idleLanesZero = true)
    (hstack : j.namesStack = false)
    (huses : ∀ h h', SameRegisters (.labelled f :: body) (i :: rest) h h' →
      ∀ r ∈ j.uses, h'.get r = h.get r)
    (hnext : T.Concluding rest s post post') :
    T.Concluding (i :: rest) s (j :: post) (j :: post') :=
  T.concludes_follow hs hord hcall hdefs hidle hstack huses hj.callee? fun h =>
    ⟨_, .next, rest, post, post', hj.run _ h, hplain, rfl, suffix_rfl, rfl, rfl, hnext⟩

theorem concludes_plain (hs : i :: rest <:+ body)
    (hord : s.Ordered ctx.layout.size) (hplain : i.isPlain = true) (hret : i.isReturn = false)
    (hcall : i.op.isCall = false) (hblock : ExpansionOf ctx p i s block s')
    (hblock' : ExpansionOf ctx' p i s block' s')
    (hnext : T.Concluding rest s' post post') :
    T.Concluding (i :: rest) s (block ++ post) (block' ++ post') := by
  have hi : i ∈ body := hs.subset mem_cons_self
  have hj := (op_of_isPlain hplain).2.2
  have hdec := T.allocated.decodes i hi
  have hslot : ctx'.slot i = ctx.slot i := by
    simp only [slot, T.contexts.layout]
  cases hblock with
  | @store r slot q offset hop hq hoffset =>
    obtain ⟨rfl, -⟩ := hblock'.unique (.store hop (hslot.trans hq) hoffset)
    obtain rfl := SlotLayout.eq_of_checkedOffset hoffset
    obtain ⟨hreg, -, hposition⟩ := slot_eq_ok hq
    have hu : r ∈ i.uses := by
      simpa only [uses, hop, Opcode.effect] using mem_regs_of_reg? hreg
    intro h h' k hc hc' ht hr
    have hstep := hc.instr (callee?_store _ _ _) (run_store _ _ _) rfl
    have hstep' := hc'.instr (callee?_store _ _ _) (run_store _ _ _) rfl
    rw [hr.uses T.allocated hs r hu] at hstep'
    exact hnext _ _ _ hstep hstep' (ht.store hord.within T.room T.setting.length_saved
      T.setting'.length_saved (SlotLayout.position?_lt hposition) _)
      (hr.next (suffix_code hs) hj (fun _ hr => hr) fun d hd => by
        simp [defs, hop, Opcode.effect] at hd)
  | @load r slot q offset hop hq hfilled hoffset =>
    obtain ⟨rfl, -⟩ := hblock'.unique (.load hop (hslot.trans hq) hfilled hoffset)
    obtain rfl := SlotLayout.eq_of_checkedOffset hoffset
    obtain ⟨hreg, -, -⟩ := slot_eq_ok hq
    have hdefs := defs_of_reg? hdec (.inl hop) hreg
    have hd : r ∈ i.defs := hdefs ▸ mem_singleton_self r
    intro h h' k hc hc' ht hr
    have hstep := hc.instr (callee?_load _ _ _) (run_load _ _ _) rfl
    have hstep' := hc'.instr (callee?_load _ _ _) (run_load _ _ _) rfl
    rw [ht.working'.cell, ht.slots q (contains_iff_mem.mp hfilled), ← ht.working.cell] at hstep'
    refine hnext _ _ _ hstep hstep' (ht.set (T.setting.free i hi r hd) (T.free' hi hcall r hd) _)
      (hr.next (suffix_code hs) hj (fun _ hr => get_set_congr hr) fun q hq => ?_)
    rw [hdefs] at hq
    obtain ⟨d, hd, hn⟩ := hq
    exact get_set_of_name_eq (hn.trans (congrArg Reg.name (mem_singleton.mp hd)))
  | param hop =>
    obtain ⟨rfl, -⟩ := hblock'.unique (.param hop)
    intro h h' k hc hc' ht hr
    refine hnext _ _ _ hc hc' ht (hr.next (suffix_code hs) hj (fun _ hr => hr) fun r hd => ?_)
    -- a parameter arrives in a register that both still have
    obtain ⟨d, hd, hn⟩ := hd
    rcases hop with hop | hop
    · refine hr.early (T.allocated.callsIn_eq hs (.inl hop)) r ?_
      rw [hn]
      exact (T.setting.free i hi d hd).stack
    · simp [defs, hop, Opcode.effect] at hd
  | @captured r offset hop hreg himm =>
    obtain ⟨rfl, -⟩ := hblock'.unique (.captured hop hreg himm)
    have hdefs := defs_of_reg? hdec (.inr hop) hreg
    have hd : r ∈ i.defs := hdefs ▸ mem_singleton_self r
    have hload : (load r closureReg offset).defs = [r] ∧
        (load r closureReg offset).uses = [closureReg] := by
      rcases r with ⟨x, _ | _⟩ <;> exact ⟨rfl, rfl⟩
    refine T.concludes_run hs hord hcall hj (isStraight_load _ _ _) (hload.1.trans hdefs.symm)
      (by rcases r with ⟨x, _ | _⟩ <;> rfl) (namesStack_load ?_ rfl _) (fun h h' hr q hq => ?_) hnext
    · exact beq_eq_false_iff_ne.mpr (T.setting.free i hi r hd).stack
    · rw [hload.2] at hq
      rw [mem_singleton.mp hq]
      exact hr.early (T.allocated.callsIn_eq hs (.inr (.inl hop))) closureReg (by decide)
  | value hop | unit hop => simp [isReturn, hop] at hret
  | call hop =>
    rw [hcall] at hop
    cases hop
  | tail hop =>
    rw [T.allocated.isTail hi] at hop
    cases hop
  | self hp =>
    obtain ⟨rfl, -⟩ := hblock'.unique (.self hp)
    exact T.concludes_run hs hord hcall hj (T.allocated.isStraight hi hplain hp) rfl
      (T.allocated.idle i hi) (namesStack_eq_false T.setting.toIsFunctionBody hi)
      (fun h h' hr => hr.uses T.allocated hs) hnext

end Twins

end Steps

end ClosureCodegen
