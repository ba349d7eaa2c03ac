import ClosureCodegen.Lowering.Basic
import ClosureCodegen.Proofs.Outcome

/-!
# The shape of lowered code

Lowering threads a scope and a counter through an expression.  What it returns can be said without
the threading: a relation between the state in front, the expression, its destination, the code and
the state behind.  It has a case for each form of expression, and a proof about lowered code is an
induction over it.

* `Lowered`: the relation.
* `Lowered.of_lower`, `Lowered.lower_eq`: it is what lowering computes.
-/

namespace ClosureCodegen
open List Lower Comparison ClosureCodegen.Expr

/-! ## Steps of lowering -/

namespace LowerState

/-- A number is handed out. -/
def advance (s : LowerState) : LowerState := { s with counter := s.counter + 1 }

def bind (s : LowerState) (b : Binding) : LowerState := { s with scope := b :: s.scope }

/-- Bindings come into scope one after another. -/
def bindAll (s : LowerState) (bs : List Binding) : LowerState := bs.foldl bind s

variable (s : LowerState)
include s

@[simp] theorem scope_advance : s.advance.scope = s.scope := rfl

@[simp] theorem counter_bind (b : Binding) : (s.bind b).counter = s.counter := rfl

@[simp] theorem scope_bind (b : Binding) : (s.bind b).scope = b :: s.scope := rfl

@[simp] theorem counter_bindAll (bs : List Binding) : (s.bindAll bs).counter = s.counter := by
  unfold bindAll
  induction bs generalizing s with
  | nil => rfl
  | cons b bs ih => rw [foldl_cons, ih, counter_bind]

@[simp] theorem scope_bindAll (bs : List Binding) :
    (s.bindAll bs).scope = bs.reverse ++ s.scope := by
  unfold bindAll
  induction bs generalizing s with
  | nil => rfl
  | cons b bs ih =>
    rw [foldl_cons, ih, scope_bind, reverse_cons, append_assoc]
    rfl

end LowerState

def tempReg (role : String) (n : Nat) (cls : RegClass) : Reg :=
  ⟨"%" ++ role ++ "." ++ Decimal.natText n, cls⟩

namespace Lower

variable {α β : Type} {s s' : LowerState}

theorem bind_eq_ok {x : Lower α} {f : α → Lower β} {b : β} :
    (x >>= f) s = .ok b s' ↔ ∃ a s₁, x s = .ok a s₁ ∧ f a s₁ = .ok b s' :=
  stateful_bind_eq_ok

theorem pure_eq_ok {a b : α} : (pure a : Lower α) s = .ok b s' ↔ a = b ∧ s = s' := by
  change EStateM.Result.ok a s = .ok b s' ↔ _
  rw [EStateM.Result.ok.injEq]

theorem look_eq_ok {f : LowerState → Outcome α} {a : α} :
    look f s = .ok a s' ↔ f s = .ok a ∧ s = s' := by
  unfold look
  cases f s with
  | ok b => simp
  | error e => simp

theorem bindVar_eq_ok {b : Binding} {u : Unit} : bindVar b s = .ok u s' ↔ s.bind b = s' := by
  change EStateM.Result.ok () (s.bind b) = .ok u s' ↔ _
  simp

theorem nextNumber_eq_ok {n : Nat} :
    nextNumber s = .ok n s' ↔ s.counter + 1 = n ∧ s.advance = s' := by
  change EStateM.Result.ok (s.counter + 1) s.advance = .ok n s' ↔ _
  simp

theorem temp_eq_ok {role : String} {cls : RegClass} {r : Reg} :
    temp role cls s = .ok r s' ↔ tempReg role (s.counter + 1) cls = r ∧ s.advance = s' := by
  change EStateM.Result.ok (tempReg role (s.counter + 1) cls) s.advance = .ok r s' ↔ _
  simp

theorem forM_bindVar_eq_ok {bs : List Binding} {u : PUnit} :
    bs.forM bindVar s = .ok u s' ↔ s.bindAll bs = s' := by
  unfold LowerState.bindAll
  induction bs generalizing s with
  | nil => exact pure_eq_ok.trans ⟨fun h => h.2, fun h => ⟨rfl, h⟩⟩
  | cons b bs ih =>
    change (bindVar b >>= fun _ => bs.forM bindVar) s = _ ↔ _
    rw [bind_eq_ok, foldl_cons]
    constructor
    · rintro ⟨_, s₁, hb, h⟩
      rw [bindVar_eq_ok] at hb
      rw [hb]
      exact ih.mp h
    · intro h
      exact ⟨(), s.bind b, bindVar_eq_ok.mpr rfl, ih.mpr h⟩

end Lower

/-! ## The relation -/

def Expr.simple? : Expr → Option (Reg → Instr)
  | .int n => some fun d => .li d n
  | .float v => some fun d => loadFloat d v
  | .unary op x => some fun d => .unary op.opcode d ⟨x, op.cls⟩
  | .binary op x y => some fun d => .binary op.opcode d ⟨x, op.cls⟩ ⟨y, op.cls⟩
  | .var x => some fun d => .move d ⟨x, d.cls⟩
  | .externArray name => some fun d => .la d name
  | _ => none

def closureCode (this entry : Reg) (label : String) (captured : List Reg) : Code :=
  claimHeap this (captured.length + 1) ++ .la entry label :: .store this entry 0 ::
    storeFields this 1 captured

def tupleCode (d this : Reg) (fields : List Reg) : Code :=
  claimHeap this fields.length ++ storeFields this 0 fields ++ [.move d this]

/-- The arm of a conditional that its branch falls into. -/
def Comparison.firstArm (cmp : Comparison) (holds fails : Expr) : Expr :=
  if cmp.takesElse then holds else fails

/-- The arm of a conditional that its branch leads to. -/
def Comparison.secondArm (cmp : Comparison) (holds fails : Expr) : Expr :=
  if cmp.takesElse then fails else holds

theorem Comparison.arms (cmp : Comparison) (holds fails : Expr) :
    cmp.firstArm holds fails = holds ∧ cmp.secondArm holds fails = fails ∨
      cmp.firstArm holds fails = fails ∧ cmp.secondArm holds fails = holds := by
  unfold firstArm secondArm
  cases cmp.takesElse
  · exact .inr ⟨rfl, rfl⟩
  · exact .inl ⟨rfl, rfl⟩

theorem Comparison.forall_arms (P : Expr → Prop) {holds fails : Expr} (hholds : P holds)
    (hfails : P fails) (cmp : Comparison) :
    P (cmp.firstArm holds fails) ∧ P (cmp.secondArm holds fails) := by
  rcases cmp.arms holds fails with ⟨hfirst, hsecond⟩ | ⟨hfirst, hsecond⟩ <;> rw [hfirst, hsecond]
  · exact ⟨hholds, hfails⟩
  · exact ⟨hfails, hholds⟩

theorem Expr.lower_cond (cmp : Comparison) (x y : String) (holds fails : Expr) (d? : Option Reg) :
    (Expr.cond cmp x y holds fails).lower d? = (do
      let r ← look (·.operandOf x)
      let t ← look (·.operandOf y)
      let n ← nextNumber
      let fall ← (cmp.firstArm holds fails).lower d?
      let taken ← (cmp.secondArm holds fails).lower d?
      return conditional (cmp.branch r t (thenLabel n)) n fall taken) := by
  rw [lower, firstArm, secondArm]
  cases cmp.takesElse <;> rfl

/-- An expression with its destination, the code it is lowered to, and the states around that. -/
inductive Lowered : LowerState → Expr → Option Reg → Code → LowerState → Prop where
  | unit {s d?} : Lowered s .unit d? [] s
  | simple {s e d? f} : e.simple? = some f → Lowered s e d? (d?.toList.map f) s
  | cond {s cmp x y holds fails d? r t fall taken s₁ s₂} :
      s.operandOf x = .ok r → s.operandOf y = .ok t →
      Lowered s.advance (cmp.firstArm holds fails) d? fall s₁ →
      Lowered s₁ (cmp.secondArm holds fails) d? taken s₂ →
      Lowered s (.cond cmp x y holds fails) d?
        (conditional (cmp.branch r t (thenLabel (s.counter + 1))) (s.counter + 1) fall taken) s₂
  | letIn {s b e₁ e₂ d? value body s₁ s₂} :
      Lowered s e₁ (b.ty.cls?.map (Reg.mk b.name)) value s₁ →
      Lowered (s₁.bind b) e₂ d? body s₂ → Lowered s (.letIn b e₁ e₂) d? (value ++ body) s₂
  | makeClosure {s b c e d? regs code s'} : (s.bind b).regsOf c.captured = .ok regs →
      Lowered (s.bind b).advance e d? code s' →
      Lowered s (.makeClosure b c e) d?
        (closureCode (.int b.name) (tempReg "makecls" (s.counter + 1) .int) c.entry regs ++ code) s'
  | callClosure {s f args d? regs} : s.regsOf args = .ok regs →
      Lowered s (.callClosure f args) d?
        [callInstr .callClosure .callClosureResult d? (.reg (.int f)) regs] s
  | callDirect {s f args d? regs} : s.regsOf args = .ok regs →
      Lowered s (.callDirect f args) d?
        [callInstr .callDirect .callDirectResult d? (.label f) regs] s
  | tupleUnused {s xs} : Lowered s (.tuple xs) none [] s
  | tuple {s xs d regs} : s.regsOf xs = .ok regs →
      Lowered s (.tuple xs) (some d) (tupleCode d (tempReg "tuple" (s.counter + 1) .int) regs)
        s.advance
  | letTuple {s bs t e d? code s'} : Lowered (s.bindAll bs) e d? code s' →
      Lowered s (.letTuple bs t e) d? (loadFields (.int t) (bindingRegs bs) ++ code) s'
  | getUnused {s a i} : Lowered s (.get a i) none [] s
  | get {s a i d} :
      Lowered s (.get a i) (some d)
        (elementAddress (tempReg "get" (s.counter + 1) .int) (tempReg "get" (s.counter + 2) .int) a i
          ++ [.load d (tempReg "get" (s.counter + 2) .int) 0]) s.advance.advance
  | putUnit {s a i v d?} : s.regOf v = .ok none → Lowered s (.put a i v) d? [] s
  | put {s a i v d? r} : s.regOf v = .ok (some r) →
      Lowered s (.put a i v) d?
        (elementAddress (tempReg "put" (s.counter + 1) .int) (tempReg "put" (s.counter + 2) .int) a i
          ++ [.store (tempReg "put" (s.counter + 2) .int) r 0]) s.advance.advance

namespace Lowered

theorem of_lower {e : Expr} {d? : Option Reg} {s s' : LowerState} {code : Code}
    (h : e.lower d? s = .ok code s') : Lowered s e d? code s' := by
  induction e generalizing d? s s' code with
  | unit =>
    obtain ⟨rfl, rfl⟩ := pure_eq_ok.mp h
    exact .unit
  | int | float | unary | binary | var | externArray =>
    obtain ⟨rfl, rfl⟩ := pure_eq_ok.mp h
    exact .simple rfl
  | cond cmp x y holds fails ihh ihf =>
    simp only [lower_cond, bind_eq_ok, look_eq_ok, nextNumber_eq_ok, pure_eq_ok] at h
    obtain ⟨r, _, ⟨hr, rfl⟩, t, _, ⟨ht, rfl⟩, n, _, ⟨rfl, rfl⟩, fall, s₁, hfall, taken, s₂, htaken,
      rfl, rfl⟩ := h
    obtain ⟨ih₁, ih₂⟩ := cmp.forall_arms (fun e => ∀ {d? : Option Reg} {s s' : LowerState}
      {code : Code}, e.lower d? s = .ok code s' → Lowered s e d? code s') ihh ihf
    exact .cond hr ht (ih₁ hfall) (ih₂ htaken)
  | letIn b e₁ e₂ ih₁ ih₂ =>
    simp only [lower, bind_eq_ok, bindVar_eq_ok, pure_eq_ok] at h
    obtain ⟨value, s₁, h₁, _, _, rfl, body, s₂, h₂, rfl, rfl⟩ := h
    exact .letIn (ih₁ h₁) (ih₂ h₂)
  | makeClosure b c e ih =>
    simp only [lower, bind_eq_ok, bindVar_eq_ok, look_eq_ok,
      temp_eq_ok, pure_eq_ok] at h
    obtain ⟨_, _, rfl, regs, _, ⟨hregs, rfl⟩, _, _, ⟨rfl, rfl⟩, code, s₂, hcode, rfl, rfl⟩ := h
    exact .makeClosure hregs (ih hcode)
  | callClosure f args | callDirect f args =>
    simp only [lower, bind_eq_ok, look_eq_ok, pure_eq_ok] at h
    obtain ⟨regs, _, ⟨hregs, rfl⟩, rfl, rfl⟩ := h
    constructor
    exact hregs
  | tuple xs =>
    cases d? with
    | none =>
      obtain ⟨rfl, rfl⟩ := pure_eq_ok.mp h
      exact .tupleUnused
    | some d =>
      simp only [lower, bind_eq_ok, look_eq_ok, temp_eq_ok,
        pure_eq_ok] at h
      obtain ⟨regs, _, ⟨hregs, rfl⟩, _, _, ⟨rfl, rfl⟩, rfl, rfl⟩ := h
      exact .tuple hregs
  | letTuple bs t e ih =>
    simp only [lower, bind_eq_ok, forM_bindVar_eq_ok, pure_eq_ok] at h
    obtain ⟨_, _, rfl, code, s₂, hcode, rfl, rfl⟩ := h
    exact .letTuple (ih hcode)
  | get a i =>
    cases d? with
    | none =>
      obtain ⟨rfl, rfl⟩ := pure_eq_ok.mp h
      exact .getUnused
    | some d =>
      simp only [lower, bind_eq_ok, temp_eq_ok, pure_eq_ok] at h
      obtain ⟨_, _, ⟨rfl, rfl⟩, _, _, ⟨rfl, rfl⟩, rfl, rfl⟩ := h
      exact .get
  | put a i v =>
    simp only [lower, bind_eq_ok, look_eq_ok] at h
    obtain ⟨r?, _, ⟨hr, rfl⟩, h⟩ := h
    cases r? with
    | none =>
      obtain ⟨rfl, rfl⟩ := pure_eq_ok.mp h
      exact .putUnit hr
    | some r =>
      simp only [bind_eq_ok, temp_eq_ok, pure_eq_ok] at h
      obtain ⟨_, _, ⟨rfl, rfl⟩, _, _, ⟨rfl, rfl⟩, rfl, rfl⟩ := h
      exact .put hr

theorem lower_eq {e : Expr} {d? : Option Reg} {s s' : LowerState} {code : Code}
    (h : Lowered s e d? code s') : e.lower d? s = .ok code s' := by
  induction h with
  | unit => rfl
  | @simple s e d? f hf => cases e <;> cases hf <;> rfl
  | cond hr ht _ _ ih₁ ih₂ =>
    simp only [lower_cond, bind_eq_ok, look_eq_ok, nextNumber_eq_ok, pure_eq_ok]
    exact ⟨_, _, ⟨hr, rfl⟩, _, _, ⟨ht, rfl⟩, _, _, ⟨rfl, rfl⟩, _, _, ih₁, _, _, ih₂, rfl, rfl⟩
  | letIn _ _ ih₁ ih₂ =>
    simp only [lower, bind_eq_ok, bindVar_eq_ok, pure_eq_ok]
    exact ⟨_, _, ih₁, (), _, rfl, _, _, ih₂, rfl, rfl⟩
  | makeClosure hregs _ ih =>
    simp only [lower, bind_eq_ok, bindVar_eq_ok, look_eq_ok,
      temp_eq_ok, pure_eq_ok]
    exact ⟨(), _, rfl, _, _, ⟨hregs, rfl⟩, _, _, ⟨rfl, rfl⟩, _, _, ih, rfl, rfl⟩
  | callClosure hregs | callDirect hregs =>
    simp only [lower, bind_eq_ok, look_eq_ok, pure_eq_ok]
    exact ⟨_, _, ⟨hregs, rfl⟩, rfl, rfl⟩
  | tupleUnused => rfl
  | tuple hregs =>
    simp only [lower, bind_eq_ok, look_eq_ok, temp_eq_ok, pure_eq_ok]
    exact ⟨_, _, ⟨hregs, rfl⟩, _, _, ⟨rfl, rfl⟩, rfl, rfl⟩
  | letTuple _ ih =>
    simp only [lower, bind_eq_ok, forM_bindVar_eq_ok, pure_eq_ok]
    exact ⟨⟨⟩, _, rfl, _, _, ih, rfl, rfl⟩
  | getUnused => rfl
  | get => rfl
  | putUnit hr | put hr =>
    simp only [lower, bind_eq_ok, look_eq_ok]
    exact ⟨_, _, ⟨hr, rfl⟩, rfl⟩

end Lowered

/-- The body of a lowered definition is made of its markers, the code of its expression, and a return. -/
theorem Definition.exists_lowered {d : Definition} {s s' : LowerState} {code : Code}
    (h : d.lower s = .ok code s') :
    ∃ s₁ n result? body, Lowered s₁ d.body result? body s' ∧ s.counter ≤ s₁.counter ∧
      result? = d.resultTy.cls?.map (tempReg "ret" n) ∧
      code = .labelled d.name :: (((bindingRegs d.params).map fun r => ⟨.param, [.reg r]⟩) ++
        ((bindingRegs d.captured).mapIdx fun k r =>
          ⟨.captured, [.reg r, .imm (Word.ofCount (k + 1))]⟩) ++
        [.move (.int d.name) (.ofPhys .closure)] ++ (body ++
          [match result? with
            | some r => ⟨.returnValue, [.reg r]⟩
            | none => ⟨.returnUnit, []⟩])) := by
  simp only [Definition.lower, Lower.bind_eq_ok] at h
  obtain ⟨_, s₀, hs₀, h⟩ := h
  cases hs₀
  cases hcls : d.resultTy.cls? with
  | some cls =>
    simp only [hcls, Lower.bind_eq_ok, Lower.pure_eq_ok, Lower.temp_eq_ok] at h
    obtain ⟨_, _, ⟨rfl, rfl⟩, body, _, hbody, rfl, rfl⟩ := h
    exact ⟨_, _, _, body, Lowered.of_lower hbody, Nat.le_succ _, rfl, by simp⟩
  | none =>
    simp only [hcls, Lower.bind_eq_ok, Lower.pure_eq_ok] at h
    obtain ⟨body, _, hbody, rfl, rfl⟩ := h
    exact ⟨_, 0, none, body, Lowered.of_lower hbody, Nat.le_refl _, rfl, by simp⟩

end ClosureCodegen
