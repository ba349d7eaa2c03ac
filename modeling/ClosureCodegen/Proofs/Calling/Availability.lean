import ClosureCodegen.Proofs.Calling.TailCalls
import ClosureCodegen.Proofs.Code.Composition

/-!
# Slots are available exactly where every path has filled them

Expansion keeps the slots that are filled along the structure of a body: the arms of a conditional start
with the slots of its branch, and behind it those remain that both arms have filled.  In code that is
composed of plain instructions and conditionals this is exact: a slot counts as filled at a place if and
only if every way to the place passes a store to it.  So expansion refuses a body for want of a slot
exactly if some path of the flow graph comes to a load from a slot past no store to it.

What it makes of a body that it does not refuse has each slot in a word of its own below the stack
pointer, which all stores to the slot write and all loads from it read.

* `SlotState.ExactAt`: the slots that are filled at a place.
* `Composed.leavesSlots`: the slots stay exact along a part of a body.
* `expand_available_iff`: whole bodies.
-/

namespace ClosureCodegen
open List Outcome SlotLayout Instr SlotState

variable {i : Instr} {rest a b post part : Code} {P Q : SlotState → Prop} {slot : String}
  {q start stop p : Nat} {s s' : SlotState} {c : Conditional}

/-! ## Slots at places -/

def Instr.StoresTo (i : Instr) (slot : String) : Prop := i.op = .spillStore ∧ i.slot? = some slot

def Instr.LoadsFrom (i : Instr) (slot : String) : Prop := i.op = .spillLoad ∧ i.slot? = some slot

instance (i : Instr) (slot : String) : Decidable (i.StoresTo slot) :=
  inferInstanceAs (Decidable (_ ∧ _))

instance (i : Instr) (slot : String) : Decidable (i.LoadsFrom slot) :=
  inferInstanceAs (Decidable (_ ∧ _))

/-- Control can come from the start of a body to a place past no store to a slot. -/
def Unstored (code : Code) (slot : String) (rest : Code) : Prop :=
  Way code (fun i => ¬i.StoresTo slot) code rest

theorem Instr.not_storesTo (h : i.op ≠ .spillStore) (slot : String) : ¬i.StoresTo slot :=
  fun hs => h hs.1

theorem Instr.not_storesTo_of_joint (h : i.op = .label ∨ i.op = .j ∨ i.op.isBranch = true)
    (slot : String) : ¬i.StoresTo slot := by
  refine not_storesTo (fun hop => ?_) slot
  rw [hop] at h
  rcases h with h | h | h <;> cases h

/-- The slots that are filled at a place: those that every way to it has filled. -/
structure SlotState.ExactAt (s : SlotState) (code rest : Code) : Prop where
  within : s.Within (SlotLayout.ofCode code).size
  exact : ∀ slot p, (SlotLayout.ofCode code).position? slot = some p →
    (p ∈ s.filled ↔ ¬Unstored code slot rest)

/-- No load of a part finds a slot that some way has not filled. -/
def Available (code part post : Code) : Prop :=
  ∀ a i b slot, part = a ++ i :: b → i.LoadsFrom slot → ¬Unstored code slot (i :: (b ++ post))

theorem Available.nil (code post : Code) : Available code [] post := by
  intro a i b slot h
  cases a <;> cases h

theorem Available.cons {code part post : Code} {i : Instr} (h : Available code part post)
    (hi : ∀ slot, i.LoadsFrom slot → ¬Unstored code slot (i :: (part ++ post))) :
    Available code (i :: part) post := by
  intro a k b slot heq hk
  cases a with
  | nil =>
    cases heq
    exact hi slot hk
  | cons j a =>
    cases heq
    exact h a k b slot rfl hk

theorem Available.append {code : Code} (ha : Available code a (b ++ post))
    (hb : Available code b post) : Available code (a ++ b) post := by
  intro u k v slot heq hk
  rcases append_eq_append_cons heq with ⟨c, rfl, rfl⟩ | ⟨c, -, rfl⟩
  · rw [append_assoc]
    exact ha u k c slot rfl hk
  · exact hb c k v slot rfl hk

theorem Instr.not_loadsFrom_of_joint (h : i.op = .label ∨ i.op = .j ∨ i.op.isBranch = true)
    (slot : String) : ¬i.LoadsFrom slot := by
  rintro ⟨hop, -⟩
  rw [hop] at h
  rcases h with h | h | h <;> cases h

theorem Available.cond {code rest post : Code} {c : Conditional}
    (h₁ : Available code c.first (c.fromJump (rest ++ post)))
    (h₂ : Available code c.second (c.fromJoin (rest ++ post))) (h₃ : Available code rest post) :
    Available code (c.code rest) post := by
  have hjoint : ∀ {i : Instr} {r : Code}, i.op = .label ∨ i.op = .j ∨ i.op.isBranch = true →
      ∀ slot, i.LoadsFrom slot → ¬Unstored code slot (i :: r) := fun hi slot h =>
    absurd h (not_loadsFrom_of_joint hi slot)
  have hjoin : Available code (c.fromJoin rest) post :=
    h₃.cons (hjoint (.inl (op_of_label c.join_joint)))
  have htaken : Available code (c.fromTaken rest) post :=
    (Available.append (c.fromJoin_append rest post ▸ h₂) hjoin).cons
      (hjoint (.inl (op_of_label c.taken_joint)))
  have hjump : Available code (c.fromJump rest) post := htaken.cons (hjoint (.inr (.inl c.jump_op)))
  exact (Available.append (c.fromJump_append rest post ▸ h₁) hjump).cons
    (hjoint (.inr (.inr c.isBranch)))

/-! ## One instruction -/

/-- The operands that expansion needs. -/
structure Instr.FitsExpansion (i : Instr) : Prop where
  traffic : i.op = .spillStore ∨ i.op = .spillLoad →
    ∃ r slot, i.reg? 0 = some r ∧ i.labelAt? 1 = some slot
  captured : i.op = .captured → ∃ r offset, i.reg? 0 = some r ∧ i.imm? 1 = some offset
  call : i.op.isCall = true → ∃ site, CallSite.ofInstr i = .ok site ∧ FitsRegisters site.args

/-- Why expansion refuses a body: some way comes to a load from a slot past no store to it, or there are
more slots than offsets reach. -/
inductive Refuses (code : Code) : Failure → Prop where
  | unavailable {i : Instr} {rest : Code} {slot : String} : i.LoadsFrom slot →
      Unstored code slot (i :: rest) → Refuses code (.spillSlotUnavailable (assemblerName slot))
  | overflow {e : Failure} : e.isOverflow = true →
      SlotLayout.limit ≤ (SlotLayout.ofCode code).size → Refuses code e

theorem Outcome.OverflowsOnly.ends {α : Type} {x : Outcome α} {code : Code} (hx : x.OverflowsOnly)
    (hok : (ofCode code).size < limit → ∃ a, x = .ok a) :
    x.Ends (fun a => x = .ok a) (Refuses code) := by
  cases x with
  | ok a => exact rfl
  | error e =>
    refine .overflow (hx e rfl) (Nat.le_of_not_lt fun hlt => ?_)
    obtain ⟨a, ha⟩ := hok hlt
    cases ha

def LeavesSlots (code : Code) (P : SlotState → Prop) (x : Outcome (Code × SlotState)) : Prop :=
  x.Ends (fun r => P r.2) (Refuses code)

theorem LeavesSlots.mono {code : Code} {x : Outcome (Code × SlotState)} (hx : LeavesSlots code P x)
    (h : ∀ s, P s → Q s) : LeavesSlots code Q x :=
  Outcome.Ends.mono hx (fun r => h r.2) fun _ he => he

section Instructions

variable {ctx : ExpansionContext} {code : Code}

theorem exists_position? (hi : i ∈ code) (h : i.slot? = some slot) :
    ∃ p, (ofCode code).position? slot = some p := by
  obtain ⟨p, hp, rfl⟩ := getElem_of_mem (mem_slots_ofCode.mpr ⟨i, hi, h⟩)
  exact ⟨p, position?_getElem hp⟩

theorem SlotLayout.eq_of_position? {l : SlotLayout} {slot' : String} (h : l.position? slot = some p)
    (h' : l.position? slot' = some p) : slot = slot' := by
  obtain ⟨hlt, rfl, -⟩ := idxOf?_eq_some_iff.mp h
  exact (idxOf?_eq_some_iff.mp h').2.1

/-- The slots behind an instruction: a store fills its slot, and a load needs its slot to be filled. -/
structure SlotState.ExactBehind (s : SlotState) (code : Code) (i : Instr) (rest : Code) : Prop where
  within : s.Within (SlotLayout.ofCode code).size
  exact : ∀ slot q, (SlotLayout.ofCode code).position? slot = some q →
    (q ∈ s.filled ↔ ¬(Unstored code slot (i :: rest) ∧ ¬i.StoresTo slot))
  available : ∀ slot, i.LoadsFrom slot → ¬Unstored code slot (i :: rest)

theorem SlotState.ExactAt.behind (hst : s.ExactAt code (i :: rest)) (hop : i.op ≠ .spillStore)
    (hload : ∀ slot, i.LoadsFrom slot → ¬Unstored code slot (i :: rest)) :
    s.ExactBehind code i rest where
  within := hst.within
  exact slot q hq := by rw [hst.exact slot q hq, and_iff_left (not_storesTo hop slot)]
  available := hload

theorem SlotState.ExactAt.plain (hst : s.ExactAt code (i :: rest)) (hstore : i.op ≠ .spillStore)
    (hload : i.op ≠ .spillLoad) : s.ExactBehind code i rest :=
  hst.behind hstore fun _ h => absurd h.1 hload

theorem SlotState.ExactAt.fill (hst : s.ExactAt code (i :: rest)) (hi : i.StoresTo slot)
    (hq : (ofCode code).position? slot = some q) :
    (s.fill q).ExactBehind code i rest where
  within := hst.within.fill (position?_lt hq)
  exact slot' q' hq' := by
    have hfill : q' ∈ (s.fill q).filled ↔ q' = q ∨ q' ∈ s.filled := mem_insertPosition
    have hslot : q' = q ↔ i.StoresTo slot' := by
      constructor
      · rintro rfl
        exact eq_of_position? hq hq' ▸ hi
      · intro hi'
        cases hi.2.symm.trans hi'.2
        exact Option.some.inj (hq'.symm.trans hq)
    rw [hfill, hslot, hst.exact slot' q' hq', not_and_or, not_not, or_comm]
  available _ h := by
    cases hi.1.symm.trans h.1

theorem ends_slot (hlayout : ctx.layout = SlotLayout.ofCode code) (hi : i.FitsExpansion)
    (hmem : i ∈ code) (hop : i.op = .spillStore ∨ i.op = .spillLoad) :
    ∃ r slot q, ctx.slot i = .ok (r, slot, q) ∧ i.slot? = some slot ∧
      (SlotLayout.ofCode code).position? slot = some q := by
  obtain ⟨r, slot, hr, hl⟩ := hi.traffic hop
  have hslot : i.slot? = some slot := by rw [Instr.slot?, if_pos hop, hl]
  obtain ⟨q, hq⟩ := exists_position? hmem hslot
  refine ⟨r, slot, q, ?_, hslot, hq⟩
  simp only [ExpansionContext.slot, hr, hl, hlayout, hq]

/-- The offset of a slot is in range, unless there are too many slots. -/
theorem ends_checkedOffset (hq : (ofCode code).position? slot = some q) :
    (checkedOffset q).Ends (fun _ => True) (Refuses code) := by
  have hlt := position?_lt hq
  refine ((overflowsOnly_checkedOffset q).ends fun hsize => ?_).mono (fun _ _ => trivial)
    fun _ he => he
  exact ⟨_, checkedOffset_eq_ok (by omega)⟩

theorem ends_assignArgs {args : List Reg} (h : FitsRegisters args) (callee : String) :
    (assignArgs callee args).Ends (fun _ => True) (Refuses code) := by
  rw [assignArgs_eq_ok h]
  trivial

theorem SlotState.ExactAt.leavesSlots (hst : s.ExactAt code (i :: rest))
    (hlayout : ctx.layout = ofCode code) (hi : i.FitsExpansion) (hmem : i ∈ code) :
    LeavesSlots code (·.ExactBehind code i rest) (expandInstr ctx p i s) := by
  have hcall : i.op.isCall = true → s.ExactBehind code i rest := fun hop =>
    hst.plain (fun h => by rw [h] at hop; cases hop) fun h => by rw [h] at hop; cases hop
  unfold expandInstr
  split
  case h_1 hop =>
    obtain ⟨r, slot, q, hslot, hname, hq⟩ := ends_slot hlayout hi hmem (.inl hop)
    rw [hslot]
    exact (ends_checkedOffset hq).bind fun _ _ => hst.fill ⟨hop, hname⟩ hq
  case h_2 hop =>
    obtain ⟨r, slot, q, hslot, hname, hq⟩ := ends_slot hlayout hi hmem (.inr hop)
    have hload : i.LoadsFrom slot := ⟨hop, hname⟩
    rw [hslot, ok_bind]
    dsimp only
    split
    · next hfilled =>
      refine (ends_checkedOffset hq).bind fun _ _ => hst.behind (by rw [hop]; nofun) fun slot' h => ?_
      cases hname.symm.trans h.2
      exact (hst.exact slot q hq).mp (contains_iff_mem.mp hfilled)
    · next hempty =>
      have hway : Unstored code slot (i :: rest) := by
        by_contra hno
        exact hempty (contains_iff_mem.mpr ((hst.exact slot q hq).mpr hno))
      exact .unavailable hload hway
  case h_3 hop | h_4 hop | h_6 hop | h_7 hop =>
    exact hst.plain (by rw [hop]; nofun) (by rw [hop]; nofun)
  case h_5 hop =>
    obtain ⟨r, offset, hr, ho⟩ := hi.captured hop
    rw [hr, ho]
    exact hst.plain (by rw [hop]; nofun) (by rw [hop]; nofun)
  case h_8 hop | h_9 hop | h_10 hop | h_11 hop =>
    have hop' : i.op.isCall = true := by rw [hop]; rfl
    obtain ⟨site, hsite, hfits⟩ := hi.call hop'
    have hbytes : (slotBytes s).Ends _ (Refuses code) := (overflowsOnly_slotBytes s).ends fun hsize =>
      exists_slotBytes (Nat.lt_of_le_of_lt (words_le hst.within) hsize)
    have hcode : (expandCall ctx p i s).Ends (fun _ => True) (Refuses code) := by
      rw [expandCall, hsite, ok_bind]
      exact hbytes.bind fun _ _ => (ends_assignArgs hfits _).bind fun _ _ => trivial
    exact hcode.bind fun _ _ => hcall hop'
  case h_12 hop | h_13 hop =>
    have hop' : i.op.isCall = true := by rw [hop]; rfl
    obtain ⟨site, hsite, hfits⟩ := hi.call hop'
    have hcode : (expandTailCall ctx i).Ends (fun _ => True) (Refuses code) := by
      rw [expandTailCall, hsite, ok_bind]
      exact (ends_assignArgs hfits _).bind fun _ _ => trivial
    exact hcode.bind fun _ _ => hcall hop'
  case h_14 =>
    exact hst.plain ‹_› ‹_›

end Instructions

/-! ## Parts of a body -/

theorem SlotState.ExactAt.meet {t : SlotState} {code : Code} (hs : s.ExactAt code a)
    (ht : t.ExactAt code b)
    (hmeet : ∀ slot, Unstored code slot rest ↔ Unstored code slot a ∨ Unstored code slot b) :
    (s.meet t).ExactAt code rest where
  within := hs.within.meet t
  exact slot p hp := by
    have hmem : p ∈ (s.meet t).filled ↔ p ∈ s.filled ∧ p ∈ t.filled := by
      rw [SlotState.meet, mem_filter, SlotState.isFilled, contains_iff_mem]
    rw [hmem, hs.exact slot p hp, ht.exact slot p hp, hmeet slot, not_or]

theorem SlotState.ExactAt.congr {code : Code} (hs : s.ExactAt code a)
    (h : ∀ slot, Unstored code slot rest ↔ Unstored code slot a) : s.ExactAt code rest where
  within := hs.within
  exact slot p hp := by rw [hs.exact slot p hp, h slot]

section Ranges

variable {ctx : ExpansionContext} {code : Code}

theorem leavesSlots_cons (hlt : start < stop) (hi : ctx.code[start]? = some i) (ha : i.arms? = none)
    (hstep : LeavesSlots code P (expandInstr ctx start i s))
    (hnext : ∀ s', P s' → LeavesSlots code Q (expandRange ctx (start + 1) stop s')) :
    LeavesSlots code Q (expandRange ctx start stop s) := by
  rw [expandRange, dif_pos hlt]
  simp only [hi, ha]
  exact hstep.bind fun r hr => (hnext r.2 hr).bind fun _ hq => hq

theorem leavesSlots_machine (hlt : start < stop) (hi : ctx.code[start]? = some i)
    (hp : i.op.isPseudo = false) (hb : i.op.isBranch = false)
    (hnext : LeavesSlots code Q (expandRange ctx (start + 1) stop s)) :
    LeavesSlots code Q (expandRange ctx start stop s) := by
  refine leavesSlots_cons (P := (· = s)) hlt hi (arms?_of_not_isBranch hb) ?_ ?_
  · rw [expandInstr_of_not_isPseudo hp]
    exact rfl
  · rintro _ rfl
    exact hnext

theorem leavesSlots_arms {taken join : Nat} {arms : Arms} {R : SlotState → Prop}
    (hi : ctx.code[start]? = some i) (ha : i.arms? = some arms)
    (ht : ctx.position arms.takenLabel = .ok taken) (hj : ctx.position arms.endLabel = .ok join)
    (hst : start < taken) (htj : taken < join) (hjs : join < stop)
    (h₁ : LeavesSlots code P (expandRange ctx (start + 1) taken s))
    (h₂ : LeavesSlots code R (expandRange ctx taken join s))
    (h₃ : ∀ s₁ s₂, P s₁ → R s₂ → LeavesSlots code Q (expandRange ctx join stop (s₁.meet s₂))) :
    LeavesSlots code Q (expandRange ctx start stop s) := by
  rw [expandRange, dif_pos (by omega)]
  simp only [hi, ha, ht, hj, ok_bind]
  rw [dif_pos ⟨hst, htj, hjs⟩]
  exact h₁.bind fun r₁ hr₁ => h₂.bind fun r₂ hr₂ => (h₃ r₁.2 r₂.2 hr₁ hr₂).bind fun _ hq => hq

theorem leavesSlots_of_le (h : stop ≤ start) (hs : Q s) :
    LeavesSlots code Q (expandRange ctx start stop s) := by
  rw [expandRange_of_le h]
  exact hs

theorem getElem?_code (hcode : ctx.code.toList = code) (h : code.drop p = i :: post) :
    ctx.code[p]? = some i := by
  rw [← Array.getElem?_toList, hcode, getElem?_of_drop h]

theorem nodup_labelNames (h : (labelNames code).Nodup) (hs : part ++ post <:+ code) :
    (labelNames part).Nodup := by
  obtain ⟨pre, rfl⟩ := hs
  rw [labelNames_append, labelNames_append] at h
  exact (nodup_append.mp (nodup_append.mp h).2.1).1

/-- The slots stay exact along a part of a body: if they are exact in front of it, then they are where
the range goes on behind it, and no load of the part finds its slot empty. The proof follows the
conditionals of the part. -/
theorem Composed.leavesSlots (hpart : Composed part) (hcode : ctx.code.toList = code)
    (hlabels : ctx.labels = labelTable code) (hlayout : ctx.layout = SlotLayout.ofCode code)
    (hnodup : (labelNames code).Nodup) (hat : code.drop start = part ++ post)
    (hiso : Isolated code part post) (hfits : ∀ i ∈ part, i.FitsExpansion)
    (hstop : start + part.length ≤ stop) (hs : s.ExactAt code (part ++ post))
    (hnext : ∀ s', s'.ExactAt code post →
      LeavesSlots code Q (expandRange ctx (start + part.length) stop s')) :
    LeavesSlots code (fun u => Q u ∧ Available code part post) (expandRange ctx start stop s) := by
  induction hpart generalizing post start stop s Q with
  | nil => exact (hnext s hs).mono fun _ hq => ⟨hq, .nil code post⟩
  | @plain i part hb hj hpart ih =>
    rw [length_cons, Nat.add_comm part.length, ← Nat.add_assoc] at hstop hnext
    rw [forall_mem_cons] at hfits
    have hsuffix : i :: part ++ post <:+ code := hat ▸ drop_suffix _ _
    have hmem : i ∈ code := hsuffix.subset mem_cons_self
    have hnames : (labelNames (i :: part)).Nodup := nodup_labelNames hnodup hsuffix
    have hbehind (slot : String) : Unstored code slot (part ++ post) ↔
        Unstored code slot (i :: (part ++ post)) ∧ ¬i.StoresTo slot :=
      Way.behind_plain hsuffix hj fun l hl k r hk => hiso.not_source hpart hnames hl hk
    refine leavesSlots_cons (by omega) (getElem?_code hcode hat) (Instr.arms?_of_not_isBranch hb)
      (hs.leavesSlots hlayout hfits.1 hmem) fun s' hs' => ?_
    have hafter : s'.ExactAt code (part ++ post) :=
      ⟨hs'.within, fun slot p hp => (hs'.exact slot p hp).trans (not_congr (hbehind slot)).symm⟩
    refine (ih (drop_of_drop_cons hat) (hiso.tail hb hj) hfits.2 hstop hafter hnext).mono ?_
    exact fun _ hq => ⟨hq.1, hq.2.cons hs'.available⟩
  | @cond c rest h₁ h₂ h₃ ih₁ ih₂ ih₃ =>
    have hsuffix : c.code rest ++ post <:+ code := hat ▸ drop_suffix _ _
    have hiso' := hiso.cond (nodup_labelNames hnodup hsuffix) h₁ h₂ h₃
    rw [c.code_append] at hat hs hsuffix
    have hways := fun slot => hiso'.ways hnodup hsuffix
      fun i hi => Instr.not_storesTo_of_joint hi slot
    -- where the parts of the conditional are
    have hfirst : code.drop (start + 1) = c.first ++ c.fromJump (rest ++ post) := drop_of_drop_cons hat
    have hjump := drop_of_drop_append c.first hfirst
    have htaken : code.drop (start + 1 + c.first.length + 1) = c.fromTaken (rest ++ post) :=
      drop_of_drop_cons hjump
    have hsecond : code.drop (start + 1 + c.first.length + 1 + 1) =
        c.second ++ c.fromJoin (rest ++ post) := drop_of_drop_cons htaken
    have hjoin := drop_of_drop_append c.second hsecond
    have hlen : start + (c.code rest).length =
        start + 1 + c.first.length + 1 + 1 + c.second.length + 1 + rest.length := by
      simp only [Conditional.code, Conditional.fromJump, Conditional.fromTaken, Conditional.fromJoin,
        length_cons, length_append]
      omega
    rw [hlen] at hstop hnext
    simp only [Conditional.code, Conditional.fromJump, Conditional.fromTaken, Conditional.fromJoin,
      forall_mem_cons, forall_mem_append] at hfits
    obtain ⟨-, hfits₁, -, -, hfits₂, -, hfits₃⟩ := hfits
    -- the first arm, up to the jump at its end
    have harm₁ : LeavesSlots code (fun u => u.ExactAt code (c.fromJump (rest ++ post)) ∧
        Available code c.first (c.fromJump (rest ++ post)))
        (expandRange ctx (start + 1) (start + 1 + c.first.length + 1) s) := by
      refine ih₁ hfirst hiso'.first hfits₁ (Nat.le_succ _) (hs.congr fun slot => (hways slot).1)
        fun u hu => ?_
      exact leavesSlots_machine (by omega) (getElem?_code hcode hjump) (by rw [c.jump_op]; rfl)
        (by rw [c.jump_op]; rfl) (leavesSlots_of_le (by omega) hu)
    -- the second arm, from its label on
    have harm₂ : LeavesSlots code (fun u => u.ExactAt code (c.fromJoin (rest ++ post)) ∧
        Available code c.second (c.fromJoin (rest ++ post)))
        (expandRange ctx (start + 1 + c.first.length + 1)
          (start + 1 + c.first.length + 1 + 1 + c.second.length) s) := by
      have hop := Instr.op_of_label c.taken_joint
      refine leavesSlots_machine (by omega) (getElem?_code hcode htaken) (by rw [hop]; rfl)
        (by rw [hop]; rfl) ?_
      exact ih₂ hsecond hiso'.second hfits₂ (Nat.le_refl _) (hs.congr fun slot => (hways slot).2.1)
        fun u hu => leavesSlots_of_le (Nat.le_refl _) hu
    have hposition := fun {l : String} {q : Nat} => @ExpansionContext.position_eq_ok ctx code hlabels l q
    refine leavesSlots_arms (getElem?_code hcode hat) c.branch_arms
      (hposition.mpr (labelIndex?_of_drop hnodup htaken c.taken_joint))
      (hposition.mpr (labelIndex?_of_drop hnodup hjoin c.join_joint)) (by omega) (by omega) (by omega)
      harm₁ harm₂ fun s₁ s₂ hs₁ hs₂ => ?_
    -- what is behind the conditional, with the slots of both arms
    have hop := Instr.op_of_label c.join_joint
    refine leavesSlots_machine (by omega) (getElem?_code hcode hjoin) (by rw [hop]; rfl)
      (by rw [hop]; rfl) ?_
    exact (ih₃ (drop_of_drop_cons hjoin) hiso'.behind hfits₃ hstop
      (hs₁.1.meet hs₂.1 fun slot => (hways slot).2.2) hnext).mono
        fun _ hq => ⟨hq.1, .cond hs₁.2 hs₂.2 hq.2⟩

end Ranges

/-! ## Whole bodies -/

/-- A path of the flow graph from the first instruction of a body to a load from a slot, with no store to
the slot on the way. -/
structure LoadsUnstored (code : Code) (succs : List (List Nat)) (slot : String) (way : List Nat)
    (q : Nat) : Prop extends PathTo code succs (fun i => ¬i.StoresTo slot) way q where
  load : ∃ i, code[q]? = some i ∧ i.LoadsFrom slot

/-- What is emitted for spill traffic: a store to the word of its slot below the stack pointer, or a load
from it. -/
structure SlotBlock (wordOf : String → Word) (i : Instr) (block : Code) : Prop where
  store : ∀ slot, i.StoresTo slot → ∃ r, i.reg? 0 = some r ∧
    block = [.store stackReg r (wordOf slot)]
  load : ∀ slot, i.LoadsFrom slot → ∃ r, i.reg? 0 = some r ∧
    block = [.load r stackReg (wordOf slot)]

section Bodies

variable {frame? : Option Frame} {clobbers : ClobberTable} {code : Code}

theorem Instr.isReal_of_loadsFrom (h : i.LoadsFrom slot) : i.isReal = true := by
  simp [isReal, h.1]

theorem exists_loadsUnstored_iff {succs : List (List Nat)} (hsucc : successors code = .ok succs) :
    (∃ way q, LoadsUnstored code succs slot way q) ↔
      ∃ i rest, i.LoadsFrom slot ∧ Unstored code slot (i :: rest) := by
  have hreal : ∀ i : Instr, i.isReal = false → ¬i.StoresTo slot := by
    rintro i hr ⟨hop, -⟩
    rw [isReal, hop] at hr
    cases hr
  constructor
  · rintro ⟨way, q, hpath, i, hi, hload⟩
    refine ⟨i, code.drop (q + 1), hload, ?_⟩
    rw [← drop_of_getElem? hi]
    exact hpath.toWay hsucc hreal
  · rintro ⟨i, rest, hload, hway⟩
    have hs := hway.suffix suffix_rfl
    have hi := getElem?_placeOf hs
    obtain ⟨way, hpath⟩ := hway.exists_path hsucc hreal
      (nextReal?_of_isReal hi (isReal_of_loadsFrom hload))
    exact ⟨way, _, hpath, i, hi, hload⟩

theorem Composed.drop_bodyStart (h : Composed code) (frame? : Option Frame) :
    Composed (code.drop (bodyStart frame? code)) ∧
      Isolated code (code.drop (bodyStart frame? code)) [] ∧
      ∀ slot, Unstored code slot (code.drop (bodyStart frame? code)) := by
  have hwhole : bodyStart frame? code = 0 → Composed (code.drop (bodyStart frame? code)) ∧
      Isolated code (code.drop (bodyStart frame? code)) [] ∧
      ∀ slot, Unstored code slot (code.drop (bodyStart frame? code)) := by
    intro hzero
    rw [hzero, drop_zero]
    exact ⟨h, .whole code, fun _ => .refl⟩
  cases frame? with
  | none => exact hwhole rfl
  | some f =>
    cases h with
    | nil => exact hwhole rfl
    | @plain i code hb hj h =>
      by_cases hl : i.isLabel = true
      · have hone : bodyStart (some f) (i :: code) = 1 := if_pos hl
        rw [hone, drop_one, tail_cons]
        refine ⟨h, (Isolated.whole _).tail hb hj, fun slot => Way.next .refl ?_ hj⟩
        exact not_storesTo_of_joint (.inl (of_decide_eq_true hl)) slot
      · exact hwhole (if_neg hl)
    | cond c =>
      have hl := isLabel_of_isBranch c.isBranch
      exact hwhole (if_neg (by rw [hl]; nofun))

/-- A body is refused only for want of a slot or of range, and if it is not, no load of it can be reached
past no store. -/
theorem Composed.ends_expand (h : Composed code) (hnodup : (labelNames code).Nodup)
    (hfits : ∀ i ∈ code, i.FitsExpansion) :
    (expand frame? clobbers .empty code).Ends
      (fun _ => ∀ i rest slot, i.LoadsFrom slot → ¬Unstored code slot (i :: rest)) (Refuses code) := by
  obtain ⟨l, -, hl, -⟩ := h.exists_successors
  obtain ⟨hpart, hiso, hstart⟩ := h.drop_bodyStart frame?
  have hctx : (bodyContext frame? clobbers code l).code.toList = code := rfl
  have hend : bodyStart frame? code + (code.drop (bodyStart frame? code)).length = code.length := by
    rw [length_drop, Nat.add_sub_cancel' (bodyStart_le_length frame? code)]
  have hempty : empty.ExactAt code (code.drop (bodyStart frame? code) ++ []) :=
    ⟨within_empty _, fun slot _ _ => iff_of_false not_mem_nil (not_not.mpr (by simpa using hstart slot))⟩
  have hrange := hpart.leavesSlots hctx rfl rfl hnodup (append_nil _).symm hiso
    (fun i hi => hfits i (mem_of_mem_drop hi)) (Nat.le_of_eq hend) hempty (Q := fun _ => True)
    fun u _ => leavesSlots_of_le (Nat.le_of_eq hend.symm) trivial
  rw [expand_eq, hl, ok_bind]
  refine hrange.bind fun r hr i rest slot hload hway => ?_
  -- the load is behind what is kept in front
  have hs := hway.suffix suffix_rfl
  have hstart : bodyStart frame? code ≤ placeOf code (i :: rest) :=
    bodyStart_le (getElem?_placeOf hs) (isLabel_of_isReal (isReal_of_loadsFrom hload))
  have hdrop : i :: rest <:+ code.drop (bodyStart frame? code) := by
    rw [← drop_placeOf hs, ← Nat.add_sub_cancel' hstart, ← drop_drop]
    exact drop_suffix _ _
  obtain ⟨front, hfront⟩ := hdrop
  exact hr.2 front i rest slot hfront.symm hload (by rwa [append_nil])

theorem ExpansionOf.traffic {ctx : ExpansionContext} {block : Code}
    (h : ExpansionOf ctx p i s block s') (hslot : i.slot? = some slot) :
    ∃ r q, i.reg? 0 = some r ∧ ctx.layout.position? slot = some q ∧
      (i.op = .spillStore ∧ block = [.store stackReg r (Word.below q)] ∨
        i.op = .spillLoad ∧ block = [.load r stackReg (Word.below q)]) := by
  rw [slot?, Option.ite_none_right_eq_some] at hslot
  obtain ⟨hop, hname⟩ := hslot
  have hother : ∀ {P : Prop}, i.op ≠ .spillStore → i.op ≠ .spillLoad → P := fun h h' =>
    (hop.elim h h').elim
  cases h with
  | store hst hq hoffset =>
    obtain ⟨hr, hl, hp⟩ := ExpansionContext.slot_eq_ok hq
    cases hname.symm.trans hl
    exact ⟨_, _, hr, hp, .inl ⟨hst, by rw [eq_of_checkedOffset hoffset]⟩⟩
  | load hld hq _ hoffset =>
    obtain ⟨hr, hl, hp⟩ := ExpansionContext.slot_eq_ok hq
    cases hname.symm.trans hl
    exact ⟨_, _, hr, hp, .inr ⟨hld, by rw [eq_of_checkedOffset hoffset]⟩⟩
  | param h => rcases h with h | h <;> exact hother (by rw [h]; decide) (by rw [h]; decide)
  | captured h | value h | unit h => exact hother (by rw [h]; decide) (by rw [h]; decide)
  | call h => exact hother (fun h' => by rw [h'] at h; cases h) fun h' => by rw [h'] at h; cases h
  | tail h =>
    rcases op_of_isTail h with h | h <;> exact hother (by rw [h]; decide) (by rw [h]; decide)
  | self h => exact hother (fun h' => by rw [h'] at h; cases h) fun h' => by rw [h'] at h; cases h

/-- In a body that is expanded each slot has a word of its own below the stack pointer, which all stores
to the slot write and all loads from it read. -/
theorem exists_slotBlocks {out : Code} (h : expand frame? clobbers s code = .ok (out, s')) :
    ∃ wordOf : String → Word,
      (∀ slot ∈ (ofCode code).slots, ∀ slot' ∈ (ofCode code).slots,
        wordOf slot = wordOf slot' → slot = slot') ∧
      ∃ blocks, out = bodyFront frame? code ++ blocks.flatten ∧
        List.Forall₂ (SlotBlock wordOf) (code.drop (bodyStart frame? code)) blocks := by
  obtain ⟨l, part, -, hx, rfl⟩ := expand_iff.mp h
  have hsize : (ofCode code).size ≤ limit := size_bodyContext_le hx
  obtain ⟨blocks, hblocks, rfl⟩ := (expands_body hx).exists_blocks
  refine ⟨fun slot => Word.below (((ofCode code).position? slot).getD 0), ?_, blocks, rfl,
    hblocks.imp fun i block ⟨p, u, u', hblock⟩ => ?_⟩
  · -- the numbers of slots are different, and small enough for their offsets to be
    intro slot hslot slot' hslot' heq
    obtain ⟨p, hp, rfl⟩ := getElem_of_mem hslot
    obtain ⟨q, hq, rfl⟩ := getElem_of_mem hslot'
    simp only [position?_getElem hp, position?_getElem hq, Option.getD_some] at heq
    have hlimit : (ofCode code).slots.length ≤ 536870912 := hsize
    obtain rfl : p = q := Word.below_injective (a := 0) (by omega) (by omega) (by rw [heq])
    rfl
  · constructor
    · intro slot hst
      obtain ⟨r, q, hr, hq, ⟨-, rfl⟩ | ⟨hop, -⟩⟩ := hblock.traffic hst.2
      · exact ⟨r, hr, by rw [show (ofCode code).position? slot = some q from hq]; rfl⟩
      · cases hst.1.symm.trans hop
    · intro slot hld
      obtain ⟨r, q, hr, hq, ⟨hop, -⟩ | ⟨-, rfl⟩⟩ := hblock.traffic hld.2
      · cases hld.1.symm.trans hop
      · exact ⟨r, hr, by rw [show (ofCode code).position? slot = some q from hq]; rfl⟩

/-- Expansion refuses a body for want of a slot exactly if some path of its flow graph comes to a load from
a slot past no store to it, and the failure names such a slot. Nothing else is refused, as long as the
offsets of the slots are in range. In what comes of any other body each slot has a word of its own below
the stack pointer, which all stores to the slot write and all loads from it read. -/
theorem expand_available_iff (frame? : Option Frame) (clobbers : ClobberTable) {code : Code}
    (hcode : Composed code) (hnodup : (labelNames code).Nodup)
    (hfits : ∀ i ∈ code, i.FitsExpansion) :
    ∃ succs, successors code = .ok succs ∧
      ((SlotLayout.ofCode code).size < SlotLayout.limit →
        ((∃ name, expand frame? clobbers .empty code = .error (.spillSlotUnavailable name)) ↔
          ∃ slot way q, LoadsUnstored code succs slot way q)) ∧
      (∀ e, expand frame? clobbers .empty code = .error e →
        (∃ slot way q, LoadsUnstored code succs slot way q ∧
          e = .spillSlotUnavailable (assemblerName slot)) ∨
        (e.isOverflow = true ∧ SlotLayout.limit ≤ (SlotLayout.ofCode code).size)) ∧
      ∀ out s, expand frame? clobbers .empty code = .ok (out, s) →
        (∀ slot way q, ¬LoadsUnstored code succs slot way q) ∧
        ∃ wordOf : String → Word,
          (∀ slot ∈ (SlotLayout.ofCode code).slots, ∀ slot' ∈ (SlotLayout.ofCode code).slots,
            wordOf slot = wordOf slot' → slot = slot') ∧
          ∃ blocks, out = bodyFront frame? code ++ blocks.flatten ∧
            List.Forall₂ (SlotBlock wordOf) (code.drop (bodyStart frame? code)) blocks := by
  obtain ⟨-, succs, -, hsucc⟩ := hcode.exists_successors
  have hends : (expand frame? clobbers .empty code).Ends _ (Refuses code) :=
    hcode.ends_expand hnodup hfits
  have hrefused : ∀ e, expand frame? clobbers .empty code = .error e →
      (∃ slot way q, LoadsUnstored code succs slot way q ∧
        e = .spillSlotUnavailable (assemblerName slot)) ∨
      (e.isOverflow = true ∧ SlotLayout.limit ≤ (SlotLayout.ofCode code).size) := by
    intro e he
    rw [he] at hends
    rcases hends with ⟨hload, hway⟩ | ⟨hover, hsize⟩
    · obtain ⟨way, q, hpath⟩ := (exists_loadsUnstored_iff hsucc).mpr ⟨_, _, hload, hway⟩
      exact .inl ⟨_, way, q, hpath, rfl⟩
    · exact .inr ⟨hover, hsize⟩
  have hexpanded : ∀ out s, expand frame? clobbers .empty code = .ok (out, s) →
      ∀ slot way q, ¬LoadsUnstored code succs slot way q := by
    intro out s hok slot way q hpath
    obtain ⟨i, rest, hload, hway⟩ := (exists_loadsUnstored_iff hsucc).mp ⟨way, q, hpath⟩
    rw [hok] at hends
    exact hends i rest slot hload hway
  refine ⟨succs, hsucc, fun hsize => ⟨?_, ?_⟩, hrefused,
    fun out s hok => ⟨hexpanded out s hok, exists_slotBlocks hok⟩⟩
  · rintro ⟨name, he⟩
    rcases hrefused _ he with ⟨slot, way, q, hpath, -⟩ | ⟨hover, -⟩
    · exact ⟨slot, way, q, hpath⟩
    · cases hover
  · rintro ⟨slot, way, q, hpath⟩
    cases hx : expand frame? clobbers .empty code with
    | ok r => exact absurd hpath (hexpanded r.1 r.2 hx slot way q)
    | error e =>
      rcases hrefused e hx with ⟨slot', -, -, -, rfl⟩ | ⟨-, hlimit⟩
      · exact ⟨_, rfl⟩
      · omega

end Bodies

def fillInOneArm : Conditional where
  branch := .branch .beq (.int "x5") (.int "x6") "then1"
  first := [⟨.spillStore, [Reg.int "x5", .label "v"]⟩]
  jump := .jump "endif1"
  taken := .labelled "then1"
  second := [.li (.int "x7") 1]
  join := .labelled "endif1"
  arms := ⟨"then1", "endif1"⟩
  branch_arms := by decide
  jump_op := rfl
  jump_label := rfl
  taken_joint := rfl
  join_joint := rfl

/-- The slot is read behind the conditional. -/
def readFilledInOneArm : Code :=
  fillInOneArm.code [⟨.spillLoad, [Reg.int "x6", .label "v"]⟩, ⟨.returnValue, [Reg.int "x6"]⟩]

theorem fitsExpansion_readFilledInOneArm : ∀ i ∈ readFilledInOneArm, i.FitsExpansion := by
  intro i hi
  simp only [readFilledInOneArm, fillInOneArm, Conditional.code, Conditional.fromJump,
    Conditional.fromTaken, Conditional.fromJoin, mem_cons, mem_append, not_mem_nil,
    or_false] at hi
  rcases hi with rfl | rfl | rfl | rfl | rfl | rfl | rfl | rfl
  case inr.inl | inr.inr.inr.inr.inr.inr.inl =>
    exact ⟨fun _ => ⟨_, _, rfl, rfl⟩, by rintro ⟨⟩, by rintro ⟨⟩⟩
  all_goals exact ⟨(by rintro (h | h) <;> cases h), by rintro ⟨⟩, by rintro ⟨⟩⟩

theorem expand_available_iff_oneArm :
    ∃ name, expand none .empty .empty readFilledInOneArm = .error (.spillSlotUnavailable name) := by
  have hcomposed : Composed readFilledInOneArm := .cond fillInOneArm (.plain rfl nofun .nil)
    (.plain rfl nofun .nil) (.plain rfl nofun (.plain rfl nofun .nil))
  obtain ⟨succs, hsucc, hiff, -⟩ := expand_available_iff none .empty hcomposed (by decide)
    fitsExpansion_readFilledInOneArm
  have hgraph : successors readFilledInOneArm = .ok [[1, 4], [2], [6], [4], [6], [6], [7], []] :=
    Outcome.eq_ok_of_toOption (by decide)
  cases hsucc.symm.trans hgraph
  exact (hiff (by decide)).mpr ⟨"v", [0, 4], 6, ⟨rfl, by decide, by decide⟩, _, rfl, by decide⟩

end ClosureCodegen
