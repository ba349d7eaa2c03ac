import ClosureCodegen.Proofs.Calling.Clobbers
import ClosureCodegen.Proofs.Execution.Dependence

/-!
# Activations of a function

An activation runs the listing of a function from a state in which a caller has left the hart, up to
the return to the caller.  The activation may end with a tail call: then it is the callee that
returns, to the address in the return-address register.  A jump to the entry label of the function
itself is such a tail call too, and a new activation.

Callees are held to the calling convention.  The stack pointer, the callee-saved registers and the
stack from the stack pointer upwards are back when they return.  What they return, and what they make
of the heap, depends on the registers that a call passes and on the heap only.

* `Activation.ComesBack`: where an activation comes back to, and with which state.
* `Hart.KeepsStack`, `SameInput` and `SameOutcome`: the calling convention.
* `Activation.Called`: what a call leaves in place, be it of the function or of its callee.
-/

namespace ClosureCodegen
open List Word PhysReg RegSet ClosureCodegen.Frame

variable {v : Activation} {c d : HartConfig} {n depth k : Nat} {events : List HartEvent} {a : Word}
  {h h' : Hart} {p : PhysReg}

/-! ## Activations -/

/-- The listing of a function with its entry label in front, the state in which it is entered, and the
number of calls there have been before. -/
structure Activation where
  env : HartEnvironment
  listing : Code
  start : Hart
  calls : Nat

/-- Whom control is handed over to where a run leaves by a tail call. -/
def Exit.callee? : Exit → Option Callee
  | .toLabel l => some (.function l)
  | .toAddress a => some (.code a)
  | _ => none

namespace Activation

/-- One step. The entry label is not among the labels that the function can jump to. -/
def step (v : Activation) : HartConfig → Progress HartConfig (Exit × Hart) HartEvent :=
  hartStep v.env v.listing.tail

def ComesTo (v : Activation) (c : HartConfig) : Prop :=
  ∃ n events, runFor v.step n ⟨v.listing, v.start, v.calls⟩ = ⟨events, .running c⟩

/-- The next step hands control over to a callee, by a call or by a tail call. -/
def HandsTo (v : Activation) (c : HartConfig) (callee : Callee) : Prop :=
  (∃ i rest, c.rest = i :: rest ∧ i.callee? c.hart = some callee) ∨
    ∃ x, v.step c = .exit [] (x, c.hart) ∧ x.callee? = some callee

/-- The activation comes back to an address, with a hart: it returns, or its tail call does. -/
def ComesBack (v : Activation) (back : Word) (h : Hart) : Prop :=
  ∃ c x k, v.ComesTo c ∧ v.step c = .exit [] (x, k) ∧ back = k.get linkReg ∧
    (x = .toCaller ∧ h = k ∨ ∃ callee, x.callee? = some callee ∧ h = v.env.reply c.calls callee k)

section Runs

theorem comesTo_start (v : Activation) : v.ComesTo ⟨v.listing, v.start, v.calls⟩ := ⟨0, [], rfl⟩

theorem ComesTo.run (hc : v.ComesTo c) (hr : runFor v.step n c = ⟨events, .running d⟩) :
    v.ComesTo d := by
  obtain ⟨m, es, hm⟩ := hc
  refine ⟨m + n, es ++ events, ?_⟩
  rw [runFor_add hm, hr]

theorem ComesTo.next {c d : HartConfig} {events : List HartEvent} (hc : v.ComesTo c)
    (hs : v.step c = .next events d) : v.ComesTo d := by
  have hr : runFor v.step 1 c = ⟨events, .running d⟩ := by
    rw [runFor_succ_next hs, runFor_zero, append_nil]
  exact hc.run hr

theorem ComesTo.straight {code rest : Code} (hc : v.ComesTo ⟨code ++ rest, h, k⟩)
    (hcode : IsStraightCode code) : v.ComesTo ⟨rest, effectOf v.env.toEnvironment code h, k⟩ :=
  hc.run (runFor_straight hcode h k)

theorem ComesTo.instr {i : Instr} {rest rest' : Code} {t : Transfer}
    (hc : v.ComesTo ⟨i :: rest, h, k⟩) (hcallee : i.callee? h = none)
    (hr : i.run v.env.toEnvironment h = some (h', t)) (hf : Follows v.listing.tail rest t rest') :
    v.ComesTo ⟨rest', h', k⟩ := by
  refine @ComesTo.next v _ _ [] hc ?_
  simp only [Activation.step, hartStep, hcallee, hr]
  cases t with
  | next => exact hf ▸ rfl
  | branch l | jump l =>
    simp only [Follows] at hf
    simp only [Transfer.continueOn, hf]
  | exit x => exact hf.elim

end Runs

theorem suffix_of_step (hs : v.step c = .next events d) (hc : c.rest <:+ v.listing) :
    d.rest <:+ v.listing := by
  obtain ⟨code, h, n⟩ := c
  cases code with
  | nil => cases hs
  | cons i rest =>
    have hrest := (suffix_cons i rest).trans hc
    simp only [step, hartStep] at hs
    split at hs
    · cases hs
      exact hrest
    · split at hs
      · next t _ =>
        cases t with
        | next =>
          cases hs
          exact hrest
        | branch l | jump l =>
          simp only [Transfer.continueOn] at hs
          split at hs
          · next htarget =>
            cases hs
            exact (codeAfter?_suffix htarget).trans (tail_suffix _)
          · cases hs
        | exit x => cases hs
      · cases hs

theorem ComesTo.suffix (hc : v.ComesTo c) : c.rest <:+ v.listing := by
  have hgo : ∀ n (d : HartConfig), d.rest <:+ v.listing →
      (runFor v.step n d).status = .running c → c.rest <:+ v.listing := by
    intro n
    induction n with
    | zero =>
      intro d hd hrun
      cases hrun
      exact hd
    | succ n ih =>
      intro d hd hrun
      cases hs : v.step d with
      | next es e =>
        rw [runFor_succ_next hs] at hrun
        exact ih e (suffix_of_step hs hd) hrun
      | exit es x =>
        rw [runFor_succ_exit hs] at hrun
        cases hrun
      | stuck =>
        rw [runFor_succ_stuck hs] at hrun
        cases hrun
  obtain ⟨n, events, hrun⟩ := hc
  exact hgo n ⟨v.listing, v.start, v.calls⟩ suffix_rfl (by rw [hrun])

end Activation

/-! ## The calling convention -/

/-- The registers that belong to the whole program: the heap pointer and the constants. -/
def PhysReg.global : List PhysReg :=
  [heapPointer, one, two, three, floatZero, floatOne, floatTwo]

/-- The words that outlive an activation: the heap, and the stack from the stack pointer upwards. -/
def Hart.Shares (heap : Word → Prop) (h : Hart) (a : Word) : Prop :=
  heap a ∨ h.get stackReg ≤ a

/-- The cells below the stack pointer, as many as are asked for, belong to the function. -/
def Hart.HasRoom (heap : Word → Prop) (h : Hart) (cells : Nat) : Prop :=
  ∀ k < cells, ¬h.Shares heap (h.get stackReg + Word.below k)

/-- A callee gives back the stack pointer, the callee-saved registers, and the stack from the stack
pointer upwards. -/
structure Hart.KeepsStack (heap : Word → Prop) (h h' : Hart) : Prop where
  stack : h'.get stackReg = h.get stackReg
  saved : ∀ p, RegSet.calleeSaved.contains p = true → h'.get (.ofPhys p) = h.get (.ofPhys p)
  memory : ∀ a, ¬heap a → h.get stackReg ≤ a → h'.memory a = h.memory a

/-- Two harts look the same to a callee that takes some registers: these and the registers of the
whole program have the same values, and the heap is the same. -/
structure SameInput (heap : Word → Prop) (passed : List PhysReg) (h h' : Hart) : Prop where
  passed : ∀ p ∈ passed, h'.get (.ofPhys p) = h.get (.ofPhys p)
  global : ∀ p ∈ PhysReg.global, h'.get (.ofPhys p) = h.get (.ofPhys p)
  heap : ∀ a, heap a → h'.memory a = h.memory a

/-- Two harts look the same to the caller of a function that returns a value of a class, or none. -/
structure SameOutcome (heap : Word → Prop) (result? : Option RegClass) (h h' : Hart) : Prop where
  result : ∀ cls, result? = some cls → h'.get (.ofPhys (.result cls)) = h.get (.ofPhys (.result cls))
  global : ∀ p ∈ PhysReg.global, h'.get (.ofPhys p) = h.get (.ofPhys p)
  heap : ∀ a, heap a → h'.memory a = h.memory a

/-- The registers that a call passes: those of its arguments, and the closure if it calls one. A
function that is called by its name has captured nothing. -/
def CallSite.passed (site : CallSite) (targets : List PhysReg) : List PhysReg :=
  match site.target with
  | .direct _ => targets
  | .closure _ => .closure :: targets

/-- The callees of an activation return as they should, and overwrite no caller-saved registers but
those they are known to overwrite. -/
structure Activation.HasTidyCallees (v : Activation) (heap : Word → Prop) (clobbers : ClobberTable) :
    Prop where
  keepsStack : ∀ c callee, v.ComesTo c → v.HandsTo c callee →
    c.hart.KeepsStack heap (v.env.reply c.calls callee c.hart)
  keepsRegs : ∀ c name, v.ComesTo c → v.HandsTo c (.function name) →
    ∀ p, RegSet.callerSaved.contains p = true → (clobbers.clobbers name).contains p = false →
      (v.env.reply c.calls (.function name) c.hart).get (.ofPhys p) = c.hart.get (.ofPhys p)

/-- Where the stack pointer is no operand, an activation keeps away from its own part of the stack. -/
def Activation.KeepsOffStack (v : Activation) (heap : Word → Prop) : Prop :=
  ∀ i rest h n, v.ComesTo ⟨i :: rest, h, n⟩ → i.namesStack = false →
    ∀ a ∈ i.touches h, v.start.Shares heap a

/-! ## Cells -/

namespace Hart

variable {heap : Word → Prop} {start : Hart} {cells : Nat} (hroom : start.HasRoom heap cells)
include hroom

theorem HasRoom.lt : cells < 2 ^ 30 := by
  by_contra hge
  have hall : below (2 ^ 30 - 1) = 0#32 := by decide
  refine hroom (2 ^ 30 - 1) (by omega) (.inr ?_)
  rw [hall, BitVec.add_zero]
  exact BitVec.le_refl _

theorem HasRoom.mono (hn : n ≤ cells) : start.HasRoom heap n :=
  fun k hk => hroom k (Nat.lt_of_lt_of_le hk hn)

theorem HasRoom.le_toNat (hd : depth ≤ cells) : 4 * depth ≤ (start.get stackReg).toNat := by
  cases depth with
  | zero => exact Nat.zero_le _
  | succ k =>
    have hlt := hroom.lt
    have hcell : ¬start.get stackReg ≤ start.get stackReg + below k :=
      fun hle => hroom k hd (.inr hle)
    have hcount := @toNat_ofCount (k + 1) (by omega)
    rw [below] at hcell
    generalize ofCount (k + 1) = x at *
    generalize start.get stackReg = top at *
    bv_omega

theorem HasRoom.le_of_le (hd : depth ≤ cells) (ha : start.get stackReg ≤ a) :
    start.get stackReg - ofCount depth ≤ a := by
  have hlt := hroom.lt
  have hcount := @toNat_ofCount depth (by omega)
  have htop := hroom.le_toNat hd
  generalize ofCount depth = x at *
  generalize start.get stackReg = top at *
  bv_omega

theorem HasRoom.le_cell (hd : depth ≤ cells) (hk : k < depth) :
    start.get stackReg - ofCount depth ≤ start.get stackReg + below k := by
  have hlt := hroom.lt
  have hcount := @toNat_ofCount depth (by omega)
  have hcell := @toNat_ofCount (k + 1) (by omega)
  have htop := hroom.le_toNat hd
  rw [below]
  generalize ofCount depth = x at *
  generalize ofCount (k + 1) = y at *
  generalize start.get stackReg = top at *
  bv_omega

theorem HasRoom.ne_of_shares (hk : k < cells) (ha : start.Shares heap a) :
    a ≠ start.get stackReg + below k :=
  fun h => hroom k hk (h ▸ ha)

end Hart

/-! ## Handing over -/

/-- The registers of a call are none of those that the code around it needs. -/
structure CallSite.IsPassable (site : CallSite) : Prop where
  args : ∀ a ∈ site.args, a.name ≠ stackReg.name ∧ site.target.Spares a
  closure : ∀ c, site.target = .closure c →
    c.name ≠ stackReg.name ∧ c.name ≠ PhysReg.scratch.name

/-- What a call of a function at work hands over: its arguments, the closure with the address of its
code, the registers of the whole program, and the words that outlive the activation. -/
structure HandsOver (heap : Word → Prop) (start : Hart) (site : CallSite) (targets : List PhysReg)
    (h h₁ : Hart) : Prop where
  arguments : ∀ a t, (a, t) ∈ site.args.zip targets → h₁.get (.ofPhys t) = h.get a
  closure : ∀ c, site.target = .closure c → h₁.get (.ofPhys .closure) = h.get c ∧
    h₁.get (.ofPhys .scratch) = h.memory (h.get c)
  global : ∀ p ∈ PhysReg.global, h₁.get (.ofPhys p) = h.get (.ofPhys p)
  memory : ∀ a, start.Shares heap a → h₁.memory a = h.memory a

theorem length_argumentRegs {args : List Reg} (h : FitsRegisters args) :
    (argumentRegs args).length = args.length := by
  induction args with
  | nil => rfl
  | cons a args ih =>
    obtain ⟨p, -, -, hp⟩ := argumentRegs_cons h
    rw [hp, length_cons, ih h.tail, length_cons]

theorem exists_mem_zip_of_assignArgs {callee : String} {args : List Reg} {targets : List PhysReg}
    (h : assignArgs callee args = .ok targets) {t : PhysReg} (ht : t ∈ targets) :
    ∃ a, (a, t) ∈ args.zip targets := by
  obtain ⟨hfits, rfl⟩ := eq_of_assignArgs_eq_ok h
  obtain ⟨k, hk, rfl⟩ := mem_iff_getElem.mp ht
  have hk' : k < args.length := length_argumentRegs hfits ▸ hk
  have hzip : k < (args.zip (argumentRegs args)).length := by
    rw [length_zip]
    omega
  exact ⟨args[k], mem_iff_getElem.mpr ⟨k, hzip, getElem_zip⟩⟩

section HandingOver

variable {heap : Word → Prop} {start : Hart} {site : CallSite} {targets : List PhysReg}

theorem HandsOver.sameInput {h₁ h₁' : Hart} (hover : HandsOver heap start site targets h h₁)
    (hover' : HandsOver heap start site targets h' h₁')
    (htargets : assignArgs site.target.name site.args = .ok targets)
    (hreads : ∀ r ∈ site.target.reads site.args, h'.get r = h.get r)
    (hglobal : ∀ p ∈ PhysReg.global, h'.get (.ofPhys p) = h.get (.ofPhys p))
    (hshared : ∀ a, start.Shares heap a → h'.memory a = h.memory a)
    (hcode : ∀ c, site.target = .closure c → start.Shares heap (h.get c)) :
    SameInput heap (site.passed targets) h₁ h₁' ∧
      site.target.calleeAt h₁' = site.target.calleeAt h₁ := by
  have hargs : ∀ a ∈ site.args, a ∈ site.target.reads site.args := by
    intro a ha
    cases site.target with
    | direct l => exact ha
    | closure c => exact mem_cons_of_mem c ha
  have hpassed : ∀ t ∈ targets, h₁'.get (.ofPhys t) = h₁.get (.ofPhys t) := by
    intro t ht
    obtain ⟨a, hat⟩ := exists_mem_zip_of_assignArgs htargets ht
    rw [hover.arguments a t hat, hover'.arguments a t hat,
      hreads a (hargs a (of_mem_zip hat).1)]
  have hregs : ∀ p ∈ PhysReg.global, h₁'.get (.ofPhys p) = h₁.get (.ofPhys p) := fun p hp => by
    rw [hover.global p hp, hover'.global p hp, hglobal p hp]
  have hheap : ∀ a, heap a → h₁'.memory a = h₁.memory a := fun a ha => by
    rw [hover.memory a (.inl ha), hover'.memory a (.inl ha), hshared a (.inl ha)]
  cases htarget : site.target with
  | direct l =>
    refine ⟨⟨fun p hp => hpassed p ?_, hregs, hheap⟩, rfl⟩
    simpa only [CallSite.passed, htarget] using hp
  | closure c =>
    obtain ⟨hclosure, hscratch⟩ := hover.closure c htarget
    obtain ⟨hclosure', hscratch'⟩ := hover'.closure c htarget
    have hc : h'.get c = h.get c := hreads c (by rw [htarget]; exact mem_cons_self)
    refine ⟨⟨fun p hp => ?_, hregs, hheap⟩, ?_⟩
    · simp only [CallSite.passed, htarget, mem_cons] at hp
      rcases hp with rfl | hp
      · rw [hclosure, hclosure', hc]
      · exact hpassed p hp
    · simp only [CallTarget.calleeAt]
      rw [hscratch, hscratch', hc, hshared _ (hcode c htarget)]

/-- The registers of the whole program are reserved, and no part of the code around a call. -/
theorem PhysReg.of_mem_global (hp : p ∈ global) :
    p ∈ reserved ∧
    p ≠ .stackPointer ∧ p ≠ .returnAddress ∧ p ≠ .scratch ∧ p ≠ .closure ∧ p ≠ .floatScratch := by
  have hall : ∀ q ∈ global, q ∈ reserved ∧ q ≠ .stackPointer ∧ q ≠ .returnAddress ∧
      q ≠ .scratch ∧ q ≠ .closure ∧ q ≠ .floatScratch := by decide
  exact hall p hp

end HandingOver

/-! ## Calls -/

/-- A call from a state `h`: control is handed over in the state `h₁`, the callee replies as it should
with `r`, and the caller goes on in the state `h₂`. -/
structure CallRound (heap : Word → Prop) (table : ClobberTable) (site : CallSite) (words : Nat)
    (targets across : List PhysReg) (h h₁ r h₂ : Hart) : Prop where
  prepared : Prepared site words targets across h h₁
  keepsStack : h₁.KeepsStack heap r
  keepsRegs : ∀ p, RegSet.callerSaved.contains p = true →
    (site.target.overwrites table).contains p = false → r.get (.ofPhys p) = h₁.get (.ofPhys p)
  resumed : Resumed site words across (h.get stackReg) r h₂

structure Activation.Called (v : Activation) (heap : Word → Prop) (table : ClobberTable)
    (site : CallSite) (words : Nat) (targets across : List PhysReg) (rest : Code) (n : Nat)
    (h h₁ r h₂ : Hart) : Prop extends CallRound heap table site words targets across h h₁ r h₂ where
  entry : v.ComesTo ⟨transfer site.target :: (callReturn site words across ++ rest), h₁, n⟩
  reply : r = v.env.reply n (site.target.calleeAt h₁) h₁
  back : v.ComesTo ⟨rest, h₂, n + 1⟩

section Calls

variable {heap : Word → Prop} {table : ClobberTable} {site : CallSite} {words : Nat}
  {targets across : List PhysReg} {live : LiveSet} {rest : Code} {h₁ r h₂ : Hart}

theorem Activation.handsTo_transfer (v : Activation) (target : CallTarget) (rest : Code) (h : Hart)
    (n : Nat) : v.HandsTo ⟨transfer target :: rest, h, n⟩ (target.calleeAt h) :=
  .inl ⟨_, _, rfl, callee?_transfer target h⟩

theorem Activation.ComesTo.transfer {target : CallTarget}
    (hc : v.ComesTo ⟨transfer target :: rest, h, n⟩) :
    v.ComesTo ⟨rest, v.env.reply n (target.calleeAt h) h, n + 1⟩ := by
  refine @ComesTo.next v _ _ [⟨target.calleeAt h, h⟩] hc ?_
  simp only [step, hartStep, callee?_transfer]

theorem Activation.exists_called (htidy : v.HasTidyCallees heap table)
    (hw : words ≤ SlotLayout.limit) (htargets : assignArgs site.target.name site.args = .ok targets)
    (hacross : across = savedAcross table site targets live)
    (hc : v.ComesTo ⟨callCode site (ofCount words) targets across ++ rest, h, n⟩) :
    ∃ h₁ r h₂, v.Called heap table site words targets across rest n h h₁ r h₂ := by
  have hargs := contains_callerSaved_of_assignArgs htargets
  have hcaller : ∀ p ∈ across, callerSaved.contains p = true :=
    hacross ▸ contains_callerSaved_of_savedAcross hargs
  have hprepared : Prepared site words targets across h
      (effectOf v.env.toEnvironment (callEntry site words targets across) h) :=
    hacross ▸ prepared_callEntry v.env.toEnvironment h hw htargets
  rw [callCode_eq, append_assoc, cons_append] at hc
  have hentry := hc.straight isStraightCode_callEntry
  have hhands := v.handsTo_transfer site.target (callReturn site words across ++ rest)
    (effectOf v.env.toEnvironment (callEntry site words targets across) h) n
  have hkeeps := htidy.keepsStack _ _ hentry hhands
  refine ⟨_, _, _, ⟨hprepared, hkeeps, fun p hp hclob => ?_,
    resumed_effectOf_callReturn (hacross ▸ nodup_savedAcross) hcaller
      (hkeeps.stack.trans hprepared.stack)⟩, hentry, rfl,
    hentry.transfer.straight isStraightCode_callReturn⟩
  cases htarget : site.target with
  | direct name =>
    have hcallee : ∀ k, site.target.calleeAt k = .function name := fun k => by rw [htarget]; rfl
    rw [hcallee] at hhands
    rw [htarget] at hclob
    exact htidy.keepsRegs _ name hentry hhands p hp hclob
  | closure c =>
    rw [htarget] at hclob
    exact absurd hp (Bool.eq_false_iff.mp hclob)

section Kept

variable {start : Hart} {saved : List PhysReg}

theorem Prepared.memory_entry (hprepared : Prepared site words targets across h h₁)
    (hw : Working start saved saved.length h)
    (hroom : start.HasRoom heap (saved.length + words + across.length + max targets.length 1))
    (ha : start.Shares heap a) : h₁.memory a = h.memory a := by
  refine hprepared.memory a fun k _ hk => ?_
  rw [hw.cell]
  exact hroom.ne_of_shares (by omega) ha

theorem Prepared.handsOver (hprepared : Prepared site words targets across h h₁)
    (hw : Working start saved saved.length h)
    (hroom : start.HasRoom heap (saved.length + words + across.length + max targets.length 1))
    (hargs : ∀ p ∈ targets, callerSaved.contains p = true) (hpass : site.IsPassable)
    (hcode : ∀ c, site.target = .closure c → start.Shares heap (h.get c)) :
    HandsOver heap start site targets h h₁ where
  arguments a t hat :=
    have ha := hpass.args a (of_mem_zip hat).1
    hprepared.arguments a t hat ha.1 ha.2
  closure c hc := by
    obtain ⟨hsp, hscratch⟩ := hpass.closure c hc
    obtain ⟨hclosure, haddress⟩ := hprepared.closure c hc hsp hscratch
    refine ⟨hclosure, haddress fun k hk => ?_⟩
    rw [hw.cell]
    exact hroom.ne_of_shares (by omega) (hcode c hc)
  global p hp := by
    obtain ⟨hreserved, hsp, -, hscratch, hclosure, -⟩ := of_mem_global hp
    exact hprepared.regs _ (fun hn => hsp (name_injective hn))
      (name_ne_of_mem_reserved hargs hreserved) (spares_of_ne hscratch hclosure _)
  memory a ha := hprepared.memory_entry hw hroom ha

namespace CallRound

variable (hcalled : CallRound heap table site words targets across h h₁ r h₂)
  (hw : Working start saved saved.length h)
  (hroom : start.HasRoom heap (saved.length + words + across.length + max targets.length 1))

include hcalled hw

include hroom

theorem memory_cell (hk : k < saved.length + words + across.length + 1) :
    r.memory (start.get stackReg + below k) = h₁.memory (start.get stackReg + below k) := by
  refine hcalled.keepsStack.memory _ (fun h => hroom _ (by omega) (.inl h)) ?_
  rw [hcalled.prepared.stack_eq hw]
  exact hroom.le_cell (by omega) hk

theorem memory_above (hk : k < saved.length + words) :
    h₂.memory (start.get stackReg + below k) = h.memory (start.get stackReg + below k) :=
  memory_of_resumed hcalled.prepared hcalled.resumed hw hroom.lt
    (fun _ hj => hcalled.memory_cell hw hroom hj) hk

theorem memory_stack (ha : start.get stackReg ≤ a) (hh : ¬heap a) : r.memory a = h.memory a := by
  rw [hcalled.keepsStack.memory a hh, hcalled.prepared.memory_entry hw hroom (.inr ha)]
  rw [hcalled.prepared.stack_eq hw]
  exact hroom.le_of_le (by omega) ha

theorem get_of_live (hargs : ∀ p ∈ targets, callerSaved.contains p = true)
    (hacross : across = savedAcross table site targets live)
    (hp : calleeSaved.contains p = true ∨
      callerSaved.contains p = true ∧ live.phys.contains p = true)
    (hd : ∀ d, site.dest? = some d → d.name ≠ p.name) : h₂.get (.ofPhys p) = h.get (.ofPhys p) := by
  refine get_of_resumed hcalled.prepared hcalled.resumed hacross hargs (fun k hk => ?_)
    (hcalled.keepsStack.saved p) (hcalled.keepsRegs p) hp hd
  rw [hw.cell, hcalled.memory_cell hw hroom (by omega)]

theorem link_eq (hd : ∀ d, site.dest? = some d → d.name ≠ linkReg.name) :
    h₂.get linkReg = h.get linkReg :=
  link_of_resumed hcalled.prepared hcalled.resumed hw (fun _ hj => hcalled.memory_cell hw hroom hj) hd

theorem working (hargs : ∀ p ∈ targets, callerSaved.contains p = true)
    (hacross : across = savedAcross table site targets live)
    (hd : ∀ d, site.dest? = some d → d.IsFree saved) : Working start saved saved.length h₂ :=
  working_of_resumed hcalled.prepared hcalled.resumed hw hroom.lt
    (fun _ hj => hcalled.memory_cell hw hroom hj) hargs hacross hcalled.keepsStack.saved hd

omit hw hroom in
theorem get_global (hcaller : ∀ p ∈ across, callerSaved.contains p = true)
    (hp : p ∈ global) (hd : ∀ d, site.dest? = some d → d.name ≠ p.name) :
    h₂.get (.ofPhys p) = r.get (.ofPhys p) := by
  obtain ⟨hreserved, hsp, hra, hscratch, -, hfloat⟩ := of_mem_global hp
  refine hcalled.resumed.regs _ (fun hn => hsp (name_injective hn))
    (fun hn => hra (name_injective hn)) (name_ne_of_mem_reserved hcaller hreserved)
    fun d hsome => ⟨(hd d hsome).symm, fun hn => ?_⟩
  have hrelay : p = .relay d.cls := name_injective hn
  cases hcls : d.cls with
  | int => exact hscratch (hrelay.trans (by rw [hcls]; rfl))
  | float => exact hfloat (hrelay.trans (by rw [hcls]; rfl))

end CallRound

end Kept

theorem Instr.namesStack_load {d b : Reg} (hd : d.names .stackPointer = false)
    (hb : b.names .stackPointer = false) (o : Word) : (Instr.load d b o).namesStack = false := by
  have hregs : (Instr.load d b o).regs = [d, b] := by rcases d with ⟨x, _ | _⟩ <;> rfl
  rw [namesStack, hregs]
  simp [hd, hb]

theorem Activation.KeepsOffStack.shares_closure (hoff : v.KeepsOffStack heap)
    (hlen : across.length ≤ 64) {c : Reg} (htarget : site.target = .closure c)
    (hsp : c.name ≠ stackReg.name)
    (hc : v.ComesTo ⟨callCode site (Word.ofCount words) targets across ++ rest, h, n⟩) :
    v.start.Shares heap (h.get c) := by
  have haway := putAway_effectOf v.env.toEnvironment h words hlen
  have hstraight : IsStraightCode (stepStack (-Word.ofCount words) ++ (Frame.stores across ++
      stepStack (-Word.ofCount across.length))) := by
    rw [Frame.stores_eq]
    exact isStraightCode_append (isStraightCode_stepStack _)
      (isStraightCode_append isStraightCode_storesBelow (isStraightCode_stepStack _))
  have hassoc : callCode site (Word.ofCount words) targets across ++ rest =
      (stepStack (-Word.ofCount words) ++ (Frame.stores across ++
        stepStack (-Word.ofCount across.length))) ++ (.load (.ofPhys .scratch) c 0 ::
          (.move (.ofPhys .closure) c :: (passArguments site.args targets ++
            [.store stackReg linkReg (Word.below 0), .moveStack (-Word.size)] ++
            transfer site.target :: (callReturn site words across ++ rest)))) := by
    rw [callCode_eq, callEntry, htarget]
    simp only [enterClosure, append_assoc, cons_append, nil_append]
  rw [hassoc] at hc
  have hload := hc.straight hstraight
  have hnames : (Instr.load (.ofPhys .scratch) c 0).namesStack = false :=
    Instr.namesStack_load rfl (beq_eq_false_iff_ne.mpr hsp) 0
  refine hoff _ _ _ _ hload hnames (h.get c) ?_
  rw [Instr.touches_load, haway.regs c hsp]
  simp

end Calls

/-! ## Tail calls -/

def tailEntry (site : CallSite) (targets saved : List PhysReg) : Code :=
  enterClosure site.target ++ (passArguments site.args targets ++ (Frame.mk saved).epilogue)

section TailCalls

variable {env : Environment} {heap : Word → Prop} {start h : Hart} {site : CallSite}
  {targets saved : List PhysReg}

theorem isStraightCode_tailEntry : IsStraightCode (tailEntry site targets saved) :=
  isStraightCode_append (isStraightCode_enterClosure _)
    (isStraightCode_append (isStraightCode_passArguments _ _) (isStraightCode_epilogue _))

theorem handsOver_tailEntry (hw : Working start saved saved.length h) (hn : saved.Nodup)
    (hc : ∀ p ∈ saved, RegSet.calleeSaved.contains p = true)
    (htargets : assignArgs site.target.name site.args = .ok targets) (hpass : site.IsPassable)
    (hroom : start.HasRoom heap (saved.length + 64)) :
    HandsOver heap start site targets h (effectOf env (tailEntry site targets saved) h) ∧
      Restored start (effectOf env (tailEntry site targets saved) h) := by
  have hargs := contains_callerSaved_of_assignArgs htargets
  have hlen := length_assignArgs_le htargets
  have hlt := hroom.lt
  obtain ⟨hfits, hregs⟩ := eq_of_assignArgs_eq_ok htargets
  obtain ⟨h₁, hh₁⟩ : ∃ h₁, h₁ = effectOf env (enterClosure site.target) h := ⟨_, rfl⟩
  obtain ⟨h₂, hh₂⟩ : ∃ h₂, h₂ = effectOf env (passArguments site.args targets) h₁ := ⟨_, rfl⟩
  have hout : effectOf env (tailEntry site targets saved) h =
      effectOf env (Frame.mk saved).epilogue h₂ := by
    rw [tailEntry, effectOf_append, effectOf_append, ← hh₁, ← hh₂]
  have hw₂ : Working start saved saved.length h₂ := by
    rw [hh₂, hh₁]
    exact hw.passArguments htargets (by omega)
  -- the frame has none of the registers that are passed
  have hleave : ∀ p, RegSet.calleeSaved.contains p = false → p ≠ .stackPointer →
      (effectOf env (Frame.mk saved).epilogue h₂).get (.ofPhys p) = h₂.get (.ofPhys p) := by
    intro p hp hps
    refine get_effectOf_epilogue_of_ne (fun hn => hps (PhysReg.name_injective hn)) fun q hq hn => ?_
    have hpq : p = q := PhysReg.name_injective hn
    rw [hpq, hc q hq] at hp
    cases hp
  have hreserved : ∀ p ∈ PhysReg.reserved, RegSet.calleeSaved.contains p = false := by
    decide
  have hcaller : ∀ p, RegSet.callerSaved.contains p = true → RegSet.calleeSaved.contains p = false ∧
      p ≠ .stackPointer ∧ p ≠ .zero := by
    intro p hp
    have hall : ∀ q ∈ PhysReg.all, RegSet.callerSaved.contains q = true →
        RegSet.calleeSaved.contains q = false ∧ q ≠ .stackPointer ∧ q ≠ .zero := by decide
    exact hall p (PhysReg.mem_all p) hp
  have hpassed : ∀ {p}, p ∈ PhysReg.reserved → h₂.get (.ofPhys p) = h₁.get (.ofPhys p) := by
    intro p hp
    rw [hh₂, get_effectOf_passArguments_of_ne (PhysReg.name_ne_of_mem_reserved hargs hp)]
  rw [hout]
  refine ⟨⟨fun a t hat => ?_, fun c htarget => ?_, fun p hp => ?_, fun a ha => ?_⟩,
    restored_effectOf_epilogue hc hn hw₂⟩
  · obtain ⟨ht, hts, -⟩ := hcaller t (hargs t (of_mem_zip hat).2)
    rw [hleave t ht hts, hh₂, get_effectOf_passArguments (hregs ▸ nodup_argumentRegs hfits) hlen
      (fun t ht => ⟨(hcaller t (hargs t ht)).2.2, (hcaller t (hargs t ht)).2.1⟩) hat, hh₁,
      get_effectOf_enterClosure_of_spares (hpass.args a (of_mem_zip hat).1).2]
  · obtain ⟨-, hscratch⟩ := hpass.closure c htarget
    rw [hleave .closure (hreserved _ (by decide)) (by decide),
      hleave .scratch (hreserved _ (by decide)) (by decide), hpassed (by decide), hpassed (by decide),
      hh₁, htarget]
    simp only [enterClosure, effectOf_cons, effectOf_nil, Instr.effect_moveReg,
      Instr.effect_loadWord]
    rw [Hart.get_set_self rfl, Hart.get_set_of_ne hscratch, Hart.get_set_of_ne (by decide),
      Hart.get_set_self rfl, show h.get c + 0 = h.get c from BitVec.add_zero _]
    exact ⟨rfl, rfl⟩
  · obtain ⟨hp, hsp, -, hscratch, hclosure, -⟩ := PhysReg.of_mem_global hp
    rw [hleave p (hreserved p hp) hsp, hpassed hp, hh₁,
      get_effectOf_enterClosure_of_spares (PhysReg.spares_of_ne hscratch hclosure _)]
  · rw [memory_effectOf_epilogue, hh₂, memory_effectOf_passArguments_of_ne, hh₁,
      memory_effectOf_enterClosure]
    intro k hk
    rw [hh₁, get_effectOf_enterClosure_of_spares (CallTarget.spares_stackReg _), hw.cell]
    exact hroom.ne_of_shares (by omega) ha

end TailCalls

/-! ## Returns -/

def returnEntry (value? : Option Reg) (saved : List PhysReg) : Code :=
  value?.toList.map (fun r => .move (.ofPhys (.result r.cls)) r) ++ (Frame.mk saved).epilogue

section Returns

variable {env : Environment} {start h : Hart} {value? : Option Reg} {saved : List PhysReg}

theorem isStraightCode_returnEntry : IsStraightCode (returnEntry value? saved) := by
  refine isStraightCode_append (fun i hi => ?_) (isStraightCode_epilogue _)
  obtain ⟨r, -, rfl⟩ := mem_map.mp hi
  exact Instr.isStraight_move _ _

theorem restored_effectOf_returnEntry (hw : Working start saved saved.length h) (hn : saved.Nodup)
    (hc : ∀ p ∈ saved, calleeSaved.contains p = true) :
    Restored start (effectOf env (returnEntry value? saved) h) ∧
      (effectOf env (returnEntry value? saved) h).memory = h.memory ∧
      ∀ r, value? = some r →
        (effectOf env (returnEntry value? saved) h).get (.ofPhys (.result r.cls)) = h.get r := by
  have hresult : ∀ cls, callerSaved.contains (.result cls) = true := by
    intro cls
    cases cls <;> decide
  rw [returnEntry, effectOf_append]
  cases value? with
  | none => exact ⟨restored_effectOf_epilogue hc hn hw, memory_effectOf_epilogue, nofun⟩
  | some r =>
    simp only [Option.toList_some, map_cons, map_nil, effectOf_cons, effectOf_nil,
      Instr.effect_moveReg]
    refine ⟨restored_effectOf_epilogue hc hn
      (hw.set (isFree_of_callerSaved (hresult r.cls)) _), ?_, fun q hq => ?_⟩
    · rw [memory_effectOf_epilogue, Hart.memory_set]
    · cases hq
      have hz : (Reg.ofPhys (.result r.cls)).names .zero = false := by cases r.cls <;> rfl
      rw [get_effectOf_epilogue_of_ne (result_ne r.cls).1, Hart.get_set_self hz]
      intro p hp
      exact (@isFree_of_callerSaved [] _ (hresult r.cls)).kept p (hc p hp) nofun

end Returns

end ClosureCodegen
