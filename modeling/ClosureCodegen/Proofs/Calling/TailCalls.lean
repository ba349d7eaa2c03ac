import ClosureCodegen.Calling.TailCall
import ClosureCodegen.Proofs.Calling.Completeness
import ClosureCodegen.Proofs.Calling.Restoration

/-!
# Bodies with tail calls, part by part

Making tail calls replaces calls one by one, and nothing else: labels, slots and the ways that
control can go stay as they are.  So a body with tail calls is expanded whenever the body without
them is, with the same slots filled at every place.

`Alongside` sets the two expansions side by side, part by part along the structure of the body.
-/

namespace ClosureCodegen
open List Outcome SlotLayout Opcode Instr CallSite

variable {code block o o' : Code} {i i' : Instr} {p start stop : Nat} {s u s' : SlotState}

/-! ## Instructions -/

/-- The instruction that takes the place of a call, if anything does. -/
inductive TailFor (code rest : Code) (i : Instr) : Instr → Prop where
  | same : TailFor code rest i i
  | tail {t : Instr} : i.asTailCall? = some t →
      reachesReturn code (labelTable code) i.callResult? code.length rest = true →
      TailFor code rest i t

namespace Instr

variable {t : Instr}

theorem of_asTailCall? (h : i.asTailCall? = some t) :
    i.op.isCall = true ∧ i.isTail = false ∧ t.isTail = true := by
  obtain ⟨op, os⟩ := i
  cases op <;> cases h <;> exact ⟨rfl, rfl, rfl⟩

theorem ofInstr_asTailCall? (h : i.asTailCall? = some t) {site : CallSite}
    (hs : ofInstr i = .ok site) :
    ofInstr t = .ok ⟨none, site.target, site.args⟩ ∧ i.callResult? = site.dest? := by
  obtain ⟨op, os⟩ := i
  unfold ofInstr at hs
  split at hs
  case h_2 => cases hs
  next site' hsite =>
  cases hs
  cases op
  case callDirectResult | callClosureResult =>
    cases h
    obtain ⟨dest, hdest, hsite⟩ := Option.bind_eq_some_iff.mp hsite
    obtain ⟨⟨target, args⟩, ht, hsite⟩ := Option.bind_eq_some_iff.mp hsite
    cases hsite
    refine ⟨?_, hdest⟩
    simp only [ofInstr, ofInstr?] at ht ⊢
    rw [ht]
    rfl
  case callDirect | callClosure =>
    cases h
    obtain ⟨⟨target, args⟩, ht, hsite⟩ := Option.bind_eq_some_iff.mp hsite
    cases hsite
    refine ⟨?_, rfl⟩
    simp only [ofInstr, ofInstr?]
    rw [ht]
    rfl
  all_goals cases h

end Instr

/-- What takes the place of the instruction at a position of a body. -/
def tailAt (code : Code) (p : Nat) (i : Instr) : Instr :=
  (tailCallAt? code (labelTable code) i p).getD i

theorem tailFor_tailAt (code : Code) (p : Nat) (i : Instr) :
    TailFor code (code.drop (p + 1)) i (tailAt code p i) := by
  rw [tailAt]
  cases ht : tailCallAt? code (labelTable code) i p with
  | none => exact .same
  | some t =>
    obtain ⟨hi, hreach⟩ := Option.filter_eq_some_iff.mp ht
    exact .tail hi hreach

theorem TailFor.or {rest : Code} (h : TailFor code rest i i') :
    i' = i ∨ i.asTailCall? = some i' := by
  cases h with
  | same => exact .inl rfl
  | tail hi _ => exact .inr hi

theorem tailAt_of_not_isCall (h : i.op.isCall = false) (code : Code) (p : Nat) :
    tailAt code p i = i := by
  rcases (tailFor_tailAt code p i).or with h' | h'
  · exact h'
  · rw [(of_asTailCall? h').1] at h
    cases h

/-! ## Bodies -/

/-- What takes the place of the part of a body that starts at a position. -/
def tailPart (code : Code) : Nat → Code → Code
  | _, [] => []
  | p, i :: part => tailAt code p i :: tailPart code (p + 1) part

@[simp] theorem tailPart_cons (code : Code) (p : Nat) (i : Instr) (part : Code) :
    tailPart code p (i :: part) = tailAt code p i :: tailPart code (p + 1) part := rfl

@[simp] theorem length_tailPart (code : Code) (p : Nat) (part : Code) :
    (tailPart code p part).length = part.length := by
  induction part generalizing p with
  | nil => rfl
  | cons i part ih => rw [tailPart_cons, length_cons, ih, length_cons]

theorem getElem?_tailPart (code : Code) (p : Nat) (part : Code) (k : Nat) :
    (tailPart code p part)[k]? = part[k]?.map (tailAt code (p + k)) := by
  induction part generalizing p k with
  | nil => rfl
  | cons i part ih =>
    cases k with
    | zero => rfl
    | succ k =>
      rw [tailPart_cons, getElem?_cons_succ, getElem?_cons_succ, ih, Nat.add_assoc,
        Nat.add_comm 1]

theorem makeTailCalls_eq_ok {code' : Code} {count : Nat}
    (h : makeTailCalls code = .ok (code', count)) : code' = tailPart code 0 code := by
  have hmap : ∀ (part : Code) (p : Nat),
      (part.zipIdx p).map (fun x => tailAt code x.2 x.1) = tailPart code p part := by
    intro part
    induction part with
    | nil => exact fun _ => rfl
    | cons i part ih => exact fun p => congrArg (tailAt code p i :: ·) (ih (p + 1))
  simp only [makeTailCalls] at h
  split at h
  · cases h
  · cases h
    rw [← hmap, markTailCalls, map_map]
    rfl

/-- Tail calls can be made if each call in tail position has the operand that it gives up. -/
theorem exists_makeTailCalls (h : ∀ p i, code[p]? = some i →
    (tailCallAt? code (labelTable code) i p).isSome = true → i.lacksResult = false) :
    ∃ count, makeTailCalls code = .ok (tailPart code 0 code, count) := by
  obtain ⟨⟨out, count⟩, hcount⟩ : ∃ result, makeTailCalls code = .ok result := by
    simp only [makeTailCalls]
    split
    · next hany =>
      obtain ⟨⟨i, t?⟩, hmem, hbad⟩ := any_eq_true.mp hany
      obtain ⟨⟨_, p⟩, hi, heq⟩ := mem_map.mp hmem
      cases heq
      rw [Bool.and_eq_true] at hbad
      have hlacks := h p i (mem_zipIdx_iff_getElem?.mp hi) hbad.1
      rw [hlacks] at hbad
      cases hbad.2
    · exact ⟨_, rfl⟩
  exact ⟨count, makeTailCalls_eq_ok hcount ▸ hcount⟩

/-- Calls are replaced by tail calls, here and there. -/
def TailsOf (code code' : Code) : Prop :=
  List.Forall₂ (fun i i' => i' = i ∨ i.asTailCall? = some i') code code'

theorem tailsOf_tailPart (code : Code) (p : Nat) (part : Code) :
    TailsOf part (tailPart code p part) := by
  induction part generalizing p with
  | nil => exact .nil
  | cons i part ih => exact .cons (tailFor_tailAt code p i).or (ih (p + 1))

section Bodies

variable {code' : Code}

theorem TailsOf.map_eq {α : Type} {f : Instr → α} (h : TailsOf code code')
    (hf : ∀ {i t : Instr}, i.asTailCall? = some t → f t = f i) : code'.map f = code.map f := by
  induction h with
  | nil => rfl
  | @cons i i' code code' hi _ ih =>
    rw [map_cons, map_cons, ih]
    rcases hi with rfl | hi
    · rfl
    · rw [hf hi]

def Instr.labelName? (i : Instr) : Option String := if i.isLabel then i.label? else none

theorem Instr.labelName?_asTailCall? {t : Instr} (h : i.asTailCall? = some t) :
    t.labelName? = i.labelName? := by
  obtain ⟨op, os⟩ := i
  cases op <;> cases h <;> rfl

theorem TailsOf.labelNames_eq (h : TailsOf code code') : labelNames code' = labelNames code := by
  have hmap := h.map_eq fun h => labelName?_asTailCall? h
  have hnames : ∀ code : Code, labelNames code = (code.map labelName?).filterMap id := by
    intro code
    rw [filterMap_map]
    rfl
  rw [hnames, hnames, hmap]

theorem labelIndex?_cons_labelName? (l : String) (i : Instr) (code : Code) :
    labelIndex? l (i :: code) = ((labelIndex? l code).map (· + 1)).or
      (if i.labelName? = some l then some 0 else none) := by
  rw [labelIndex?, labelName?]
  cases i.isLabel <;> simp

variable (h : TailsOf code code')
include h

theorem TailsOf.labelIndex?_eq (l : String) : labelIndex? l code' = labelIndex? l code := by
  induction h with
  | nil => rfl
  | @cons i i' code code' hi _ ih =>
    rw [labelIndex?_cons_labelName?, labelIndex?_cons_labelName?, ih]
    rcases hi with rfl | hi
    · rfl
    · rw [labelName?_asTailCall? hi]

theorem TailsOf.slots_eq : ofCode code' = ofCode code := by
  have hslot : ∀ {i t : Instr}, i.asTailCall? = some t → t.slot? = i.slot? := by
    intro i t ht
    obtain ⟨op, os⟩ := i
    cases op <;> cases ht <;> rfl
  have hslots : code'.filterMap slot? = code.filterMap slot? := by
    have hmap := congrArg (List.filterMap id) (h.map_eq hslot)
    rwa [filterMap_map, filterMap_map] at hmap
  rw [ofCode, ofCode, hslots]

/-! ## Flow -/

theorem TailsOf.nextReal?_eq (start : Nat) : nextReal? code' start = nextReal? code start := by
  have hreal : ∀ {i t : Instr}, i.asTailCall? = some t → t.isReal = i.isReal := by
    intro i t ht
    obtain ⟨op, os⟩ := i
    cases op <;> cases ht <;> rfl
  have hfind : ∀ code : Code, (code.drop start).findIdx? isReal =
      ((code.map isReal).drop start).findIdx? id := by
    intro code
    rw [← map_drop, findIdx?_map]
    rfl
  rw [nextReal?, nextReal?, hfind, hfind, h.map_eq hreal]

theorem TailsOf.successorsOf_eq (hi : i' = i ∨ i.asTailCall? = some i') :
    successorsOf code' (labelTable code') i' p = successorsOf code (labelTable code) i p := by
  have hposition : (labelTable code').position? = (labelTable code).position? := by
    funext l
    rw [position?_labelTable, position?_labelTable, h.labelIndex?_eq]
  rcases hi with rfl | hi
  · simp only [successorsOf, branchTarget, hposition, h.nextReal?_eq]
  · -- neither jumps nor branches
    obtain ⟨op, os⟩ := i
    cases op <;> cases hi <;> simp only [successorsOf, h.nextReal?_eq, reduceCtorEq, if_false,
      isBranch, Bool.false_eq_true]

theorem TailsOf.successors_eq : successors code' = successors code := by
  have hlen := List.Forall₂.length_eq h
  have hmap : code'.zipIdx.map (fun x => successorsOf code' (labelTable code') x.1 x.2) =
      code.zipIdx.map fun x => successorsOf code (labelTable code) x.1 x.2 := by
    refine ext_getElem (by simp [hlen]) fun p hp hp' => ?_
    simp only [getElem_map, getElem_zipIdx, Nat.zero_add]
    exact h.successorsOf_eq ((List.forall₂_iff_get.mp h).2 p (by simpa [hlen] using hp') (by simpa using hp))
  have hmapM : ∀ (l : List (Instr × Nat)) (f : Instr × Nat → Outcome (List Nat)),
      l.mapM f = (l.map f).mapM id := by
    intro l f
    rw [mapM_map]
    rfl
  rw [successors, successors]
  exact (hmapM _ _).trans ((congrArg (List.mapM id) hmap).trans (hmapM _ _).symm)

theorem TailsOf.exists_liveness {l : Liveness} (hl : Liveness.ofCode code = .ok l) :
    ∃ l', Liveness.ofCode code' = .ok l' := by
  obtain ⟨eqs, he, -⟩ := Liveness.ofCode_eq_ok hl
  obtain ⟨succs, hs, -⟩ := FlowEquations.ofCode_eq_ok he
  rw [← h.successors_eq] at hs
  refine ⟨_, bind_eq_ok.mpr ⟨_, bind_eq_ok.mpr ⟨succs, hs, rfl⟩, rfl⟩⟩

end Bodies

/-! ## Expansion -/

theorem expand_function_iff {f : String} {body out : Code} {frame : Frame} {clobbers : ClobberTable} :
    expand (some frame) clobbers s (.labelled f :: body) = .ok (out, u) ↔
      ∃ l o, Liveness.ofCode (.labelled f :: body) = .ok l ∧
        RangeOf (bodyContext (some frame) clobbers (.labelled f :: body) l) 1 (body.length + 1) s o u ∧
        out = functionCode f frame.saved o := by
  simp only [← expandRange_iff]
  exact expand_iff

theorem Opcode.isCall_of_isBranch {op : Opcode} (h : op.isBranch = true) : op.isCall = false := by
  cases op <;> first | rfl | cases h

theorem Instr.isCall_of_isReturn (h : i.isReturn = true) : i.op.isCall = false := by
  obtain ⟨op, os⟩ := i
  simp only [isReturn, Bool.or_eq_true, decide_eq_true_eq] at h
  rcases h with rfl | rfl <;> rfl

theorem Opcode.isPseudo_of_isCall {op : Opcode} (h : op.isCall = true) : op.isPseudo = true := by
  cases op <;> first | rfl | cases h

section Ranges

variable {ctx ctx' : ExpansionContext}

theorem ExpansionOf.exists_call (h : ExpansionOf ctx p i s block s') (hcall : i.op.isCall = true)
    (htail : i.isTail = false) :
    ∃ site height targets, ofInstr i = .ok site ∧
      assignArgs site.target.name site.args = .ok targets ∧ slotBytes s = .ok height ∧ s' = s ∧
      block = callCode site height targets
        (savedAcross ctx.clobbers site targets (ctx.liveOut p)) := by
  cases h with
  | call _ _ hsite hheight htargets => exact ⟨_, _, _, hsite, htargets, hheight, rfl, rfl⟩
  | store hop | load hop | captured hop | value hop | unit hop =>
    rw [hop] at hcall
    cases hcall
  | param hop =>
    rcases hop with hop | hop <;> rw [hop] at hcall <;> cases hcall
  | tail hop =>
    rw [htail] at hop
    cases hop
  | self hp =>
    rw [isPseudo_of_isCall hcall] at hp
    cases hp

/-- Whether an instruction is expanded, and with which slots filled behind it, depends on the slots of
the body only. A tail call is expanded if the call is. -/
theorem ExpansionOf.exists_tail (hlayout : ctx'.layout = ctx.layout)
    (hi : i' = i ∨ i.asTailCall? = some i') (h : ExpansionOf ctx p i s block s') :
    ∃ block', ExpansionOf ctx' p i' s block' s' := by
  rcases hi with rfl | hi
  · have hslot : ctx'.slot i' = ctx.slot i' := by
      simp only [ExpansionContext.slot, hlayout]
    cases h with
    | store hop hq hoffset => exact ⟨_, .store hop (hslot.trans hq) hoffset⟩
    | load hop hq hfilled hoffset => exact ⟨_, .load hop (hslot.trans hq) hfilled hoffset⟩
    | param hop => exact ⟨_, .param hop⟩
    | captured hop hr ho => exact ⟨_, .captured hop hr ho⟩
    | value hop => exact ⟨_, .value hop⟩
    | unit hop => exact ⟨_, .unit hop⟩
    | call hop htail hsite hheight htargets => exact ⟨_, .call hop htail hsite hheight htargets⟩
    | tail hop hsite htargets => exact ⟨_, .tail hop hsite htargets⟩
    | self hp => exact ⟨_, .self hp⟩
  · obtain ⟨hcall, hno, htail⟩ := of_asTailCall? hi
    obtain ⟨site, _, targets, hsite, htargets, _, rfl, _⟩ := h.exists_call hcall hno
    exact ⟨_, .tail htail (ofInstr_asTailCall? hi hsite).1 htargets⟩

/-- What the expansions of a body and of the body with tail calls depend on. -/
structure TailContexts (code : Code) (ctx ctx' : ExpansionContext) : Prop where
  body : ctx.code.toList = code
  tails : ctx'.code.toList = tailPart code 0 code
  labels : ctx.labels = labelTable code
  position : ctx'.position = ctx.position
  layout : ctx'.layout = ctx.layout

theorem TailContexts.getElem? (hc : TailContexts code ctx ctx') {k : Nat} (hi : code[k]? = some i) :
    ctx.code[k]? = some i ∧ ctx'.code[k]? = some (tailAt code k i) := by
  constructor
  · rw [← Array.getElem?_toList, hc.body, hi]
  · rw [← Array.getElem?_toList, hc.tails, getElem?_tailPart, hi, Nat.zero_add, Option.map_some]

theorem Instr.arms?_tailAt (h : i.arms? = none) (code : Code) (p : Nat) :
    (tailAt code p i).arms? = none := by
  rcases (tailFor_tailAt code p i).or with h' | h'
  · rw [h', h]
  · refine arms?_of_not_isBranch ?_
    rcases op_of_isTail (of_asTailCall? h').2.2 with hop | hop <;> rw [hop] <;> rfl

end Ranges

/-! ## Two expansions side by side -/

/-- The expansions of a part of a body and of what takes its place, with the slots that are filled in
front of it and behind it. The part starts at a position of the body, and a path may come through
it. -/
inductive Alongside (code : Code) (ctx ctx' : ExpansionContext) :
    Nat → Bool → Code → SlotState → Code → Code → SlotState → Prop where
  | nil {p : Nat} {s : SlotState} : Alongside code ctx ctx' p true [] s [] [] s
  | plain {p : Nat} {a : Bool} {i : Instr} {part : Code} {s s' u : SlotState}
      {block block' o o' : Code} : i.isPlain = true → i.isReturn = false → i.isTail = false →
      ExpansionOf ctx p i s block s' → ExpansionOf ctx' p (tailAt code p i) s block' s' →
      Alongside code ctx ctx' (p + 1) a part s' o o' u →
      Alongside code ctx ctx' p a (i :: part) s (block ++ o) (block' ++ o') u
  | ret {p : Nat} {a : Bool} {i : Instr} {part : Code} {s u : SlotState}
      {block block' o o' : Code} : i.isReturn = true →
      ExpansionOf ctx p i s block s → ExpansionOf ctx' p i s block' s →
      Alongside code ctx ctx' (p + 1) a part s o o' u →
      Alongside code ctx ctx' p false (i :: part) s (block ++ o) (block' ++ o') u
  | cond {p : Nat} {a b c : Bool} {branch : Instr} {l m : String}
      {first skip second rest : Code} {s s₁ s₂ u : SlotState} {o₁ o₁' o₂ o₂' o₃ o₃' : Code} :
      branch.arms? = some ⟨l, m⟩ → (skip = [.jump m] ∨ skip = [] ∧ a = false) →
      Alongside code ctx ctx' (p + 1) a first s o₁ o₁' s₁ →
      Alongside code ctx ctx' (p + 1 + first.length + skip.length + 1) b second s o₂ o₂' s₂ →
      Alongside code ctx ctx' (p + 1 + first.length + skip.length + 1 + second.length + 1) c rest
        (s₁.meet s₂) o₃ o₃' u →
      Alongside code ctx ctx' p ((a || b) && c)
        (branch :: (first ++ (skip ++ .labelled l :: (second ++ .labelled m :: rest)))) s
        (branch :: (o₁ ++ (skip ++ .labelled l :: (o₂ ++ .labelled m :: o₃))))
        (branch :: (o₁' ++ (skip ++ .labelled l :: (o₂' ++ .labelled m :: o₃')))) u

section Parts

variable {ctx ctx' : ExpansionContext}

theorem ExpansionOf.eq_self (hp : i.op.isPseudo = false) (h : ExpansionOf ctx p i s block s') :
    block = [i] ∧ s' = s := by
  have heq := (expandInstr_of_not_isPseudo hp p s).symm.trans (expandInstr_iff.mpr h)
  cases heq
  exact ⟨rfl, rfl⟩

theorem ExpansionOf.eq_of_isReturn (hi : i.isReturn = true) (h : ExpansionOf ctx p i s block s') :
    s' = s := by
  cases h with
  | store hop => simp [isReturn, hop] at hi
  | _ => rfl

variable (hc : TailContexts code ctx ctx')
include hc

theorem TailContexts.rangeOf_cons (hlt : start < stop) (hi : code[start]? = some i)
    (ha : i.arms? = none) (h : RangeOf ctx start stop s o u) :
    ∃ block block' s' q,
      ExpansionOf ctx start i s block s' ∧ ExpansionOf ctx' start (tailAt code start i) s block' s' ∧
      RangeOf ctx (start + 1) stop s' q u ∧ o = block ++ q ∧
      ∀ {q'}, RangeOf ctx' (start + 1) stop s' q' u → RangeOf ctx' start stop s (block' ++ q') u := by
  obtain ⟨hget, hget'⟩ := hc.getElem? hi
  obtain ⟨block, s', q, hblock, hq, rfl⟩ := h.of_plain hlt hget ha
  obtain ⟨block', hblock'⟩ := hblock.exists_tail hc.layout (tailFor_tailAt code start i).or
  exact ⟨block, block', s', q, hblock, hblock', hq, rfl,
    .plain hlt hget' (arms?_tailAt ha code start) hblock'⟩

theorem TailContexts.rangeOf_self (hlt : start < stop) (hi : code[start]? = some i)
    (ha : i.arms? = none) (hp : i.op.isPseudo = false) (h : RangeOf ctx start stop s o u) :
    ∃ q, RangeOf ctx (start + 1) stop s q u ∧ o = i :: q ∧
      ∀ {q'}, RangeOf ctx' (start + 1) stop s q' u → RangeOf ctx' start stop s (i :: q') u := by
  obtain ⟨block, block', s', q, hblock, hblock', hq, rfl, hnext⟩ := hc.rangeOf_cons hlt hi ha h
  have hcall : i.op.isCall = false := by
    cases hcall : i.op.isCall with
    | false => rfl
    | true =>
      rw [isPseudo_of_isCall hcall] at hp
      cases hp
  rw [tailAt_of_not_isCall hcall] at hblock'
  obtain ⟨rfl, rfl⟩ := hblock.eq_self hp
  obtain ⟨rfl, -⟩ := hblock'.eq_self hp
  exact ⟨q, hq, rfl, hnext⟩

/-- Where a part of a body is expanded, so is the part of the body with tail calls. The same slots are
filled behind it, so that what follows is expanded as well. -/
theorem TailContexts.exists_alongside (hnodup : (labelNames code).Nodup) {a : Bool} {part : Code}
    (hshape : Shaped a part) {post : Code} {start stop : Nat}
    (hpart : code.drop start = part ++ post) (hstop : start + part.length ≤ stop) {s u : SlotState}
    {o : Code} (h : RangeOf ctx start stop s o u) :
    ∃ o₁ o₁' o₂ s₁, Alongside code ctx ctx' start a part s o₁ o₁' s₁ ∧
      RangeOf ctx (start + part.length) stop s₁ o₂ u ∧ o = o₁ ++ o₂ ∧
      ∀ {o₂'}, RangeOf ctx' (start + part.length) stop s₁ o₂' u →
        RangeOf ctx' start stop s (o₁' ++ o₂') u := by
  -- a label stands where the table says
  have hlabel : ∀ {p post l}, code.drop p = .labelled l :: post →
      ∀ {q}, ctx.position l = .ok q ↔ q = p := by
    intro p post l hl q
    rw [ExpansionContext.position_eq_ok hc.labels, labelIndex?_of_drop hnodup hl rfl,
      Option.some.injEq, eq_comm]
  have hcons : ∀ (i : Instr) (part : Code) (p : Nat), p + (i :: part).length = p + 1 + part.length := by
    intro i part p
    rw [length_cons]
    omega
  induction hshape generalizing start post stop s u o with
  | nil => exact ⟨[], [], o, s, .nil, h, rfl, id⟩
  | @plain i part a hplain hret htail hshape ih =>
    rw [hcons] at hstop ⊢
    obtain ⟨block, block', s', q, hblock, hblock', hq, rfl, hnext⟩ :=
      hc.rangeOf_cons (by omega) (getElem?_of_drop hpart) (arms?_of_isPlain hplain) h
    obtain ⟨o₁, o₁', o₂, s₁, halong, h₂, rfl, hnext₂⟩ := ih (drop_of_drop_cons hpart) hstop hq
    refine ⟨block ++ o₁, block' ++ o₁', o₂, s₁, .plain hplain hret htail hblock hblock' halong,
      h₂, by simp, fun h' => ?_⟩
    rw [append_assoc]
    exact hnext (hnext₂ h')
  | @ret i part a hret hshape ih =>
    rw [hcons] at hstop ⊢
    have harms := arms?_of_isPlain (isPlain_of_isReturn hret)
    obtain ⟨block, block', s', q, hblock, hblock', hq, rfl, hnext⟩ :=
      hc.rangeOf_cons (by omega) (getElem?_of_drop hpart) harms h
    obtain ⟨o₁, o₁', o₂, s₁, halong, h₂, rfl, hnext₂⟩ := ih (drop_of_drop_cons hpart) hstop hq
    rw [tailAt_of_not_isCall (isCall_of_isReturn hret)] at hblock'
    obtain rfl := hblock.eq_of_isReturn hret
    refine ⟨block ++ o₁, block' ++ o₁', o₂, s₁, .ret hret hblock hblock' halong, h₂, by simp,
      fun h' => ?_⟩
    rw [append_assoc]
    exact hnext (hnext₂ h')
  | @cond branch l m first skip second rest a b c harms hfirst hskip hsecond hrest ih₁ ih₂ ih₃ =>
    simp only [append_assoc, cons_append] at hpart
    have hfirstAt := drop_of_drop_cons hpart
    have hskipAt := drop_of_drop_append first hfirstAt
    have htakenAt := drop_of_drop_append skip hskipAt
    have hsecondAt := drop_of_drop_cons htakenAt
    have hjoinAt := drop_of_drop_append second hsecondAt
    have hlength : start + (branch :: (first ++ (skip ++ .labelled l :: (second ++
        .labelled m :: rest)))).length =
        start + 1 + first.length + skip.length + 1 + second.length + 1 + rest.length := by
      simp only [length_cons, length_append]
      omega
    rw [hlength] at hstop ⊢
    obtain ⟨hget, hget'⟩ := hc.getElem? (getElem?_of_drop hpart)
    have hbranch := (label?_of_arms? harms).1
    rw [tailAt_of_not_isCall (isCall_of_isBranch hbranch)] at hget'
    obtain ⟨o₁, s₁, o₂, s₂, o₃, h₁, h₂, h₃, rfl⟩ := h.of_arms (by omega) hget harms
      ((hlabel htakenAt).mpr rfl) ((hlabel hjoinAt).mpr rfl)
    -- the first arm, and the jump behind it
    obtain ⟨q₁, q₁', t₁, r₁, halong₁, hskip₁, rfl, hnext₁⟩ :=
      ih₁ hfirstAt (Nat.le_add_right _ _) h₁
    have hjump : t₁ = skip ∧ r₁ = s₁ ∧
        RangeOf ctx' (start + 1 + first.length) (start + 1 + first.length + skip.length) r₁ skip s₁ := by
      rcases hskip with rfl | ⟨rfl, -⟩
      · obtain ⟨w, hw, rfl, hnext⟩ := hc.rangeOf_self (Nat.lt_succ_self _)
          (getElem?_of_drop hskipAt) rfl rfl hskip₁
        obtain ⟨rfl, rfl⟩ := hw.of_le (Nat.le_refl _)
        exact ⟨rfl, rfl, hnext (.done (.inl (Nat.le_refl _)))⟩
      · obtain ⟨rfl, rfl⟩ := hskip₁.of_le (Nat.le_refl _)
        exact ⟨rfl, rfl, .done (.inl (Nat.le_refl _))⟩
    obtain ⟨rfl, rfl, hskip₁'⟩ := hjump
    -- the second arm, behind its label
    obtain ⟨w₂, hw₂, rfl, hself₂⟩ :=
      hc.rangeOf_self (by omega) (getElem?_of_drop htakenAt) rfl rfl h₂
    obtain ⟨q₂, q₂', t₂, r₂, halong₂, hend₂, rfl, hnext₂⟩ := ih₂ hsecondAt (Nat.le_refl _) hw₂
    obtain ⟨rfl, rfl⟩ := hend₂.of_le (Nat.le_refl _)
    -- what is behind the conditional
    obtain ⟨w₃, hw₃, rfl, hself₃⟩ :=
      hc.rangeOf_self (by omega) (getElem?_of_drop hjoinAt) rfl rfl h₃
    obtain ⟨q₃, q₃', t₃, r₃, halong₃, h₄, rfl, hnext₃⟩ := ih₃ (drop_of_drop_cons hjoinAt) hstop hw₃
    refine ⟨_, _, t₃, r₃, .cond harms hskip halong₁ halong₂ halong₃, h₄, by simp, fun h' => ?_⟩
    have hwhole := RangeOf.cond hget' harms (hc.position ▸ (hlabel htakenAt).mpr rfl)
      (hc.position ▸ (hlabel hjoinAt).mpr rfl) (by omega) (hnext₁ hskip₁')
      (hself₂ (hnext₂ (.done (.inl (Nat.le_refl _))))) (hself₃ (hnext₃ h'))
    simpa using hwhole

end Parts

end ClosureCodegen
