import ClosureCodegen.Proofs.Execution.Effects
import ClosureCodegen.Proofs.Lowering.Shape

/-!
# The instructions of lowered code

Between its branches, jumps and labels lowered code is made of *basic* instructions: one computes a
value, stores one or makes a call.  Their registers are the variables of the expression, temporaries,
the heap pointer and, to be read, the zero register.

* `Lowered.composed`: lowered code is put together from them and from conditionals.
* `Lowered.forall_mem`: what is true of all such instructions is true of lowered code.
-/

namespace ClosureCodegen
open List

/-! ## Names of expressions -/

/-- The names that an expression reads, those that it binds, and those of the functions that it calls
all have properties. -/
def Expr.Named (use bind call : String → Prop) : Expr → Prop
  | .unit | .int _ | .float _ | .externArray _ => True
  | .unary _ x | .var x => use x
  | .binary _ x y => use x ∧ use y
  | .cond _ x y e₁ e₂ => use x ∧ use y ∧ e₁.Named use bind call ∧ e₂.Named use bind call
  | .letIn b e₁ e₂ => bind b.name ∧ e₁.Named use bind call ∧ e₂.Named use bind call
  | .makeClosure b c e => bind b.name ∧ (∀ x ∈ c.captured, use x) ∧ e.Named use bind call
  | .callClosure f args => use f ∧ ∀ x ∈ args, use x
  | .callDirect f args => call f ∧ ∀ x ∈ args, use x
  | .tuple xs => ∀ x ∈ xs, use x
  | .letTuple bs t e => use t ∧ (∀ b ∈ bs, bind b.name) ∧ e.Named use bind call
  | .get a i => use a ∧ use i
  | .put a i v => use a ∧ use i ∧ use v

variable {s s' : LowerState} {e : Expr} {d? : Option Reg} {code : Code} {r base : Reg}
  {rs : List Reg} {x : String}

theorem Expr.named_true (e : Expr) :
    e.Named (fun _ => True) (fun _ => True) (fun _ => True) := by
  induction e <;> simp_all [Named]

/-! ## Registers of variables -/

theorem name_of_regOf (h : s.regOf x = .ok (some r)) : r.name = x := by
  unfold LowerState.regOf at h
  split at h
  · cases h
    rfl
  · split at h
    · next t _ =>
      rw [Except.ok.injEq] at h
      obtain ⟨c, _, rfl⟩ := Option.map_eq_some_iff.mp h
      rfl
    · cases h

theorem name_of_operandOf (h : s.operandOf x = .ok r) : r.name = x := by
  simp only [LowerState.operandOf, Outcome.bind_eq_ok, Outcome.pure_eq_ok] at h
  obtain ⟨r?, hr, rfl⟩ := h
  cases r? with
  | none => rfl
  | some r => exact name_of_regOf hr

theorem mem_integersFirst : r ∈ integersFirst rs ↔ r ∈ rs := by
  rw [integersFirst, mem_append, mem_filter, mem_filter]
  cases r.cls <;> simp

theorem name_of_mem_regsOf {xs : List String} (h : s.regsOf xs = .ok rs) (hr : r ∈ rs) :
    r.name ∈ xs := by
  simp only [LowerState.regsOf, Outcome.bind_eq_ok, Outcome.pure_eq_ok, Outcome.mapM_eq_ok] at h
  obtain ⟨found, hfound, rfl⟩ := h
  have hmem : some r ∈ found := by
    obtain ⟨r?, hmem, rfl⟩ := mem_filterMap.mp (mem_integersFirst.mp hr)
    exact hmem
  clear hr
  induction hfound with
  | nil => cases hmem
  | cons hy _ ih =>
    rcases mem_cons.mp hmem with rfl | hmem
    · exact name_of_regOf hy ▸ mem_cons_self
    · exact mem_cons_of_mem _ (ih hmem)

theorem name_of_mem_bindingRegs {bs : List Binding} (hr : r ∈ bindingRegs bs) :
    ∃ b ∈ bs, r.name = b.name := by
  obtain ⟨b, hb, hbr⟩ := mem_filterMap.mp (mem_integersFirst.mp hr)
  obtain ⟨c, _, rfl⟩ := Option.map_eq_some_iff.mp hbr
  exact ⟨b, hb, rfl⟩

/-! ## Basic instructions -/

/-- The forms of basic instructions. -/
def Family.isBasic : Family → Bool
  | .store | .call | .callResult => true
  | form => form.isValue

/-- A basic instruction, over registers that may be read, registers that may be written and functions
that may be called. -/
structure Instr.IsBasic (R W : Reg → Prop) (C : String → Prop) (i : Instr) : Prop where
  form : i.op.family.isBasic = true
  decodes : ∃ d, i.decode? = some d ∧ (∀ r ∈ d.reads, R r) ∧ ∀ r ∈ d.writes, W r
  callee : i.op.isCall = true → ∀ l, i.label? = some l → C l

/-- The registers that lowered code has, for names that are used and names that are bound. -/
structure Vocabulary (use bind : String → Prop) (R W : Reg → Prop) : Prop where
  used : ∀ {x}, use x → ∀ c, R ⟨x, c⟩
  bound : ∀ {x}, bind x → ∀ c, W ⟨x, c⟩
  heap : W (.ofPhys .heapPointer)
  zero : R (.ofPhys .zero)
  read : ∀ {r}, W r → R r

theorem vocabulary_true :
    Vocabulary (fun _ => True) (fun _ => True) (fun _ => True) fun _ => True :=
  ⟨fun _ _ => ⟨⟩, fun _ _ => ⟨⟩, ⟨⟩, ⟨⟩, fun _ => ⟨⟩⟩

section Forms

variable {use bind C : String → Prop} {R W : Reg → Prop} {op : Opcode} {d t : Reg} {w : Word}

namespace Instr

theorem isBasic_of_decodes {form : Family} {os : List Operand} {c : Decoded}
    (hop : op.family = form) (h : Decodes op form os c) (hform : form.isBasic = true)
    (hr : ∀ r ∈ c.reads, R r) (hw : ∀ r ∈ c.writes, W r)
    (hl : op.isCall = true → ∀ l, os.findSome? Operand.label? = some l → C l) :
    (⟨op, os⟩ : Instr).IsBasic R W C := by
  subst hop
  exact ⟨hform, ⟨c, decode?_of_decodes h, hr, hw⟩, hl⟩

theorem isBasic_la (hd : W d) : (la d x).IsBasic R W C :=
  isBasic_of_decodes rfl (.address d x) rfl nofun (by simpa using hd) nofun

theorem isBasic_unary (hop : op.family = .unary) (hd : W d) (hr : R r) :
    (unary op d r).IsBasic R W C :=
  isBasic_of_decodes hop (.unary d r) rfl (by simpa using hr) (by simpa using hd)
    (by cases op <;> nofun)

theorem isBasic_move (hd : W d) (hr : R r) : (move d r).IsBasic R W C := by
  rcases d with ⟨y, _ | _⟩ <;> exact isBasic_unary rfl hd hr

theorem isBasic_load (hd : W d) (hr : R r) : (load d r w).IsBasic R W C := by
  rcases d with ⟨y, _ | _⟩ <;>
    exact isBasic_of_decodes rfl (.load _ r w) rfl (by simpa using hr) (by simpa using hd) nofun

theorem isBasic_store (hr : R r) (ht : R t) : (store r t w).IsBasic R W C := by
  rcases t with ⟨y, _ | _⟩ <;>
    exact isBasic_of_decodes rfl (.store r _ w) rfl (by simpa using ⟨hr, ht⟩) nofun nofun

end Instr

open Instr

theorem isBasic_callInstr {plain withResult : Opcode} {t : CallTarget}
    (hp : plain.family = .call) (hw : withResult.family = .callResult) (hd : ∀ d, d? = some d → W d)
    (ht : ∀ r, t = .closure r → R r) (hl : ∀ l, t = .direct l → C l) (ha : ∀ r ∈ rs, R r) :
    (callInstr plain withResult d? t.operand rs).IsBasic R W C := by
  have hreads : ∀ r ∈ t.reads rs, R r := by
    cases t with
    | direct l => exact ha
    | closure c => exact forall_mem_cons.mpr ⟨ht c rfl, ha⟩
  have hlabel : ∀ l, (t.operand :: rs.map .reg).findSome? Operand.label? = some l → C l := by
    intro l hsome
    rw [CallTarget.findSome?_label?_operand] at hsome
    cases t with
    | direct m =>
      cases hsome
      exact hl l rfl
    | closure c => cases hsome
  cases d? with
  | none => exact isBasic_of_decodes hp (.call t rs) rfl hreads nofun fun _ => hlabel
  | some d =>
    exact isBasic_of_decodes hw (.callResult d t rs) rfl hreads (by simpa using hd d rfl)
      fun _ => hlabel

theorem isBasic_simple {f : Reg → Instr} (h : e.simple? = some f) (V : Vocabulary use bind R W)
    (he : e.Named use bind C) (hd : W d) : (f d).IsBasic R W C := by
  cases e with
  | int n => cases h; exact isBasic_of_decodes rfl (.constant d _) rfl nofun (by simpa using hd) nofun
  | float v =>
    cases h
    simp only [loadFloat]
    split
    · exact isBasic_unary rfl hd V.zero
    · exact isBasic_of_decodes rfl (.literal d v) rfl nofun (by simpa using hd) nofun
  | unary op x => cases h; cases op <;> exact isBasic_unary rfl hd (V.used he _)
  | binary op x y =>
    cases h
    cases op <;> exact isBasic_of_decodes rfl (.binary d _ _) rfl
      (by simpa using ⟨V.used he.1 _, V.used he.2 _⟩) (by simpa using hd) nofun
  | var x => cases h; exact isBasic_move hd (V.used he _)
  | externArray name => cases h; exact isBasic_la hd
  | _ => cases h

theorem isBasic_storeFields {start : Nat} (hb : R base) (hr : ∀ r ∈ rs, R r) :
    ∀ i ∈ storeFields base start rs, i.IsBasic R W C := by
  intro i hi
  obtain ⟨k, hk, rfl⟩ := mem_mapIdx.mp hi
  exact isBasic_store hb (hr _ (getElem_mem hk))

theorem isBasic_loadFields (hb : R base) (hr : ∀ r ∈ rs, W r) :
    ∀ i ∈ loadFields base rs, i.IsBasic R W C := by
  intro i hi
  obtain ⟨k, hk, rfl⟩ := mem_mapIdx.mp hi
  exact isBasic_load (hr _ (getElem_mem hk)) hb

theorem isBasic_claimHeap {words : Nat} (V : Vocabulary use bind R W) (hd : W d) :
    ∀ i ∈ claimHeap d words, i.IsBasic R W C := by
  simp only [claimHeap, forall_mem_cons, not_mem_nil, IsEmpty.forall_iff, implies_true, and_true]
  exact ⟨isBasic_move hd (V.read V.heap), isBasic_of_decodes rfl (.immediate _ _ _) rfl
    (by simpa using V.read V.heap) (by simpa using V.heap) nofun⟩

theorem isBasic_elementAddress {scaled address : Reg} {array index : String}
    (V : Vocabulary use bind R W) (hs : W scaled) (ha : W address) (harray : R (.int array))
    (hindex : R (.int index)) : ∀ i ∈ elementAddress scaled address array index, i.IsBasic R W C := by
  simp only [elementAddress, forall_mem_cons, not_mem_nil, IsEmpty.forall_iff, implies_true,
    and_true]
  exact ⟨isBasic_of_decodes rfl (.immediate _ _ _) rfl (by simpa using hindex)
      (by simpa using hs) nofun,
    isBasic_of_decodes rfl (.binary _ _ _) rfl (by simpa using ⟨harray, V.read hs⟩)
      (by simpa using ha) nofun⟩

/-! ## Lowered code -/

/-- Lowered code is put together from basic instructions and conditionals, and its labels are numbered
along the way. -/
theorem Lowered.composed {Q : Nat → Nat → Code → Prop} (h : Lowered s e d? code s')
    (V : Vocabulary use bind R W) (htemp : ∀ role n, W (tempReg role n .int))
    (he : e.Named use bind C) (hd : ∀ d, d? = some d → W d)
    (hbasic : ∀ {lo hi code}, (∀ i ∈ code, i.IsBasic R W C) → lo ≤ hi → Q lo hi code)
    (happend : ∀ {lo mid hi code code'}, Q lo mid code → Q mid hi code' → Q lo hi (code ++ code'))
    (hcond : ∀ {lo mid hi r t fall taken} (cmp : Comparison), R r → R t → Q (lo + 1) mid fall →
      Q mid hi taken → Q lo hi
        (conditional (cmp.branch r t (thenLabel (lo + 1))) (lo + 1) fall taken)) :
    Q s.counter s'.counter code := by
  have hregs : ∀ {s : LowerState} {xs : List String} {rs : List Reg}, s.regsOf xs = .ok rs →
      (∀ x ∈ xs, use x) → ∀ r ∈ rs, R r := fun hrs hxs r hr =>
    V.used (hxs _ (name_of_mem_regsOf hrs hr)) r.cls
  induction h with
  | unit | tupleUnused | getUnused | putUnit => exact hbasic (forall_mem_nil _) (Nat.le_refl _)
  | @simple s e d? f hf =>
    refine hbasic (fun i hi => ?_) (Nat.le_refl _)
    obtain ⟨d, hmem, rfl⟩ := mem_map.mp hi
    exact isBasic_simple hf V he (hd d (Option.mem_toList.mp hmem))
  | @cond s cmp x y holds fails d? r t fall taken s₁ s₂ hr ht _ _ ih₁ ih₂ =>
    obtain ⟨hx, hy, hholds, hfails⟩ := he
    obtain ⟨hfirst, hsecond⟩ := cmp.forall_arms (Expr.Named use bind C) hholds hfails
    rw [← name_of_operandOf hr] at hx
    rw [← name_of_operandOf ht] at hy
    exact hcond cmp (V.used hx r.cls) (V.used hy t.cls) (ih₁ hfirst hd) (ih₂ hsecond hd)
  | @letIn s b e₁ e₂ d? value body s₁ s₂ _ _ ih₁ ih₂ =>
    refine happend (ih₁ he.2.1 fun d hd => ?_) (ih₂ he.2.2 hd)
    obtain ⟨c, -, rfl⟩ := Option.map_eq_some_iff.mp hd
    exact V.bound he.1 c
  | makeClosure hrs _ ih =>
    have hthis := V.bound he.1 .int
    have hread := V.read hthis
    exact happend (hbasic (forall_mem_append.mpr ⟨isBasic_claimHeap V hthis, forall_mem_cons.mpr
      ⟨isBasic_la (htemp _ _), forall_mem_cons.mpr ⟨isBasic_store hread (V.read (htemp _ _)),
        isBasic_storeFields hread (hregs hrs he.2.1)⟩⟩⟩) (Nat.le_succ _)) (ih he.2.2 hd)
  | @callClosure s f args d? regs hrs =>
    refine hbasic (forall_mem_singleton.mpr (isBasic_callInstr (t := .closure (.int f)) rfl rfl hd ?_
      nofun (hregs hrs he.2))) (Nat.le_refl _)
    rintro _ ⟨⟩
    exact V.used he.1 .int
  | @callDirect s f args d? regs hrs =>
    refine hbasic (forall_mem_singleton.mpr (isBasic_callInstr (t := .direct f) rfl rfl hd nofun ?_
      (hregs hrs he.2))) (Nat.le_refl _)
    rintro _ ⟨⟩
    exact he.1
  | tuple hrs =>
    refine hbasic (forall_mem_append.mpr ⟨forall_mem_append.mpr ⟨isBasic_claimHeap V (htemp _ _),
      isBasic_storeFields (V.read (htemp _ _)) (hregs hrs he)⟩, ?_⟩) (Nat.le_succ _)
    exact forall_mem_singleton.mpr (isBasic_move (hd _ rfl) (V.read (htemp _ _)))
  | letTuple _ ih =>
    have hrest := ih he.2.2 hd
    rw [LowerState.counter_bindAll] at hrest
    refine happend (hbasic (isBasic_loadFields (V.used he.1 .int) fun r hr => ?_) (Nat.le_refl _)) hrest
    obtain ⟨b, hb, hname⟩ := name_of_mem_bindingRegs hr
    exact V.bound (hname ▸ he.2.1 b hb) r.cls
  | get =>
    exact hbasic (forall_mem_append.mpr ⟨isBasic_elementAddress V (htemp _ _) (htemp _ _)
      (V.used he.1 _) (V.used he.2 _), forall_mem_singleton.mpr
        (isBasic_load (hd _ rfl) (V.read (htemp _ _)))⟩) (Nat.le_add_right _ 2)
  | @put s a i v d? r hr =>
    rw [← name_of_regOf hr] at he
    exact hbasic (forall_mem_append.mpr ⟨isBasic_elementAddress V (htemp _ _) (htemp _ _)
      (V.used he.1 _) (V.used he.2.1 _), forall_mem_singleton.mpr
        (isBasic_store (V.read (htemp _ _)) (V.used he.2.2 r.cls))⟩) (Nat.le_add_right _ 2)

/-- Lowered code is made of basic instructions, of branches on variables, and of jumps and labels. -/
theorem Lowered.forall_mem {P : Instr → Prop} (h : Lowered s e d? code s')
    (V : Vocabulary use bind R W) (htemp : ∀ role n, W (tempReg role n .int))
    (he : e.Named use bind C) (hd : ∀ d, d? = some d → W d)
    (hbasic : ∀ {i}, i.IsBasic R W C → P i)
    (hbranch : ∀ {r t}, R r → R t → ∀ (cmp : Comparison) l, P (cmp.branch r t l))
    (hjump : ∀ l, P (.jump l)) (hlabel : ∀ l, P (.labelled l)) : ∀ i ∈ code, P i := by
  refine h.composed (Q := fun _ _ code => ∀ i ∈ code, P i) V htemp he hd
    (fun h _ i hi => hbasic (h i hi)) (fun h h' => forall_mem_append.mpr ⟨h, h'⟩)
    fun cmp hr ht hfall htaken => ?_
  simp only [conditional, cons_append, append_assoc, forall_mem_cons, forall_mem_append,
    not_mem_nil, IsEmpty.forall_iff, implies_true, and_true]
  exact ⟨hbranch hr ht cmp _, hfall, hjump _, hlabel _, htaken, hlabel _⟩

end Forms

theorem Lowered.op_ne (h : Lowered s e d? code s') :
    ∀ i ∈ code, i.op ≠ .tailDirect ∧ i.isParam = false := by
  refine h.forall_mem vocabulary_true (fun _ _ => ⟨⟩) e.named_true (fun _ _ => ⟨⟩) (fun {i} hi => ?_)
    (fun {r t} _ _ cmp l => ?_) (fun _ => ⟨nofun, rfl⟩) fun _ => ⟨nofun, rfl⟩
  · obtain ⟨op, os⟩ := i
    have hform := hi.form
    cases op <;> first | (cases hform; done) | exact ⟨nofun, rfl⟩
  · rcases r with ⟨x, _ | _⟩ <;> cases cmp <;> exact ⟨nofun, rfl⟩

end ClosureCodegen
