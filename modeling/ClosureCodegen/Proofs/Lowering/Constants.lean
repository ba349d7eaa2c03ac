import ClosureCodegen.Program.ConstantRegister
import ClosureCodegen.Proofs.Lowering.Behaviour

/-!
# Constant registers keep the meaning of expressions

Where a variable is bound to a constant that a register holds, its uses may name that register.  The
renaming carries aliases down the expression, and what is true of them at every place is this: an
alias leads to a register that has the value and the class of its variable.  Bindings hide aliases
of their names, so a scope may be shadowed in any way, as long as nothing is named like the
registers themselves.
-/

namespace ClosureCodegen
open List

variable {r : PhysReg} {bs : List Binding} {x : String}

/-- The registers that hold constants, with their words. -/
def constantWords (env : Environment) : List (PhysReg × Word) :=
  [(.zero, 0), (.one, 1), (.two, 2), (.three, 3), (.floatZero, env.literal .zero),
    (.floatOne, env.literal .one), (.floatTwo, env.literal .two)]

def constantNames : List String :=
  [PhysReg.zero, .one, .two, .three, .floatZero, .floatOne, .floatTwo].map PhysReg.name

/-- The registers of constants are in scope with their classes, and hold their words. -/
def HoldsConstants (env : Environment) (Γ : List Binding) (ρ : Valuation) : Prop :=
  ∀ c ∈ constantWords env, classIn Γ c.1.name = some c.1.cls ∧ ρ c.1.name = c.2

namespace Expr

def literalClass? : Expr → Option RegClass
  | .int _ => some .int
  | .float _ => some .float
  | _ => none

/-- Variables that are bound to literals have types of the class of the literal. -/
def FitsLiterals : Expr → Prop
  | .cond _ _ _ e₁ e₂ => e₁.FitsLiterals ∧ e₂.FitsLiterals
  | .letIn b e₁ e₂ =>
    (∀ c ∈ e₁.literalClass?, b.ty.cls? = some c) ∧ e₁.FitsLiterals ∧ e₂.FitsLiterals
  | .makeClosure _ _ e | .letTuple _ _ e => e.FitsLiterals
  | _ => True

end Expr

/-! ## Registers of literals -/

variable {env : Environment} {Γ : List Binding} {ρ ρ' : Valuation} {as : Aliases} {h : Heap}

theorem Word.mem_constantWords (env : Environment) {n : Word}
    (hr : Word.constantRegister? n = some r) : (r, n) ∈ constantWords env ∧ r.cls = .int := by
  unfold Word.constantRegister? at hr
  split_ifs at hr with h0 h1 h2 h3 <;> cases hr <;> subst n <;>
    exact ⟨by simp [constantWords], rfl⟩

theorem Binary64.mem_constantWords (env : Environment) {v : Binary64}
    (hr : v.constantRegister? = some r) (hv : v ≠ .ofMagnitude true 0) :
    (r, env.literal v) ∈ constantWords env ∧ r.cls = .float := by
  unfold Binary64.constantRegister? at hr
  split_ifs at hr with h0 h1 h2
  · cases hr
    rw [(Binary64.eq_of_isZero h0).resolve_right hv]
    exact ⟨by simp [constantWords], rfl⟩
  all_goals cases hr; subst v; exact ⟨by simp [constantWords], rfl⟩

theorem PhysReg.name_mem_constantNames {c : PhysReg × Word} (hc : c ∈ constantWords env) :
    c.1.name ∈ constantNames :=
  mem_map_of_mem (by simp only [constantWords, mem_cons] at hc ⊢; grind)

theorem Expr.mem_constantWords {e : Expr} (hr : e.constantRegister? = some r)
    (hz : ∀ v ∈ e.literals, v ≠ .ofMagnitude true 0) :
    (r, (e.eval env Γ ρ h).value) ∈ constantWords env ∧ e.literalClass? = some r.cls := by
  cases e with
  | int n =>
    have hn := Word.mem_constantWords env hr
    exact ⟨hn.1, congrArg some hn.2.symm⟩
  | float v =>
    have hv := Binary64.mem_constantWords env hr (hz v (mem_singleton.mpr rfl))
    exact ⟨hv.1, congrArg some hv.2.symm⟩
  | _ => cases hr

/-! ## Scopes of a binding -/

theorem classIn_reverse_append (hx : x ∉ bs.map Binding.name) :
    classIn (bs.reverse ++ Γ) x = classIn Γ x :=
  classIn_congr (typeIn_append_of_not_mem (by rwa [map_reverse, mem_reverse]) Γ)

theorem HoldsConstants.extend (hc : HoldsConstants env Γ ρ)
    (hbs : ∀ x ∈ bs.map Binding.name, x ∉ constantNames)
    (hρ : ∀ x ∉ bs.map Binding.name, ρ' x = ρ x) : HoldsConstants env (bs.reverse ++ Γ) ρ' := by
  intro c hmem
  have hname : c.1.name ∉ bs.map Binding.name :=
    fun h => hbs _ h (PhysReg.name_mem_constantNames hmem)
  rw [hρ _ hname, classIn_reverse_append hname]
  exact hc c hmem

theorem HoldsConstants.cons {b : Binding} (hc : HoldsConstants env Γ ρ)
    (hb : b.name ∉ constantNames) (v : Word) :
    HoldsConstants env (b :: Γ) (ρ.set b.name v) :=
  have hname : ∀ x ∈ [b].map Binding.name, x ∉ constantNames := by simpa using hb
  hc.extend hname fun _ hx => if_neg fun he => hx (mem_singleton.mpr he)

theorem Valuation.setFields_of_not_mem {memory : Word → Word} {base : Word} {k : Nat}
    {xs : List String} (hx : x ∉ xs) : ρ.setFields memory base k xs x = ρ x := by
  induction xs generalizing ρ k with
  | nil => rfl
  | cons y ys ih =>
    rw [mem_cons, not_or] at hx
    rw [setFields, ih hx.2, set, if_neg hx.1]

theorem mem_names_of_mem_bindingOrder (hx : x ∈ bindingOrder bs) : x ∈ bs.map Binding.name := by
  simp only [bindingOrder, mem_append, mem_map, mem_filter] at hx ⊢
  rcases hx with ⟨b, hb, rfl⟩ | ⟨b, hb, rfl⟩ <;> exact ⟨b, hb.1, rfl⟩

/-! ## Aliases -/

namespace Aliases

/-- Every alias is the register of the constant that its variable holds. -/
def Holds (env : Environment) (as : Aliases) (Γ : List Binding) (ρ : Valuation) : Prop :=
  ∀ x r, as.lookup x = some (some r) → (r, ρ x) ∈ constantWords env ∧ classIn Γ x = some r.cls

theorem Holds.rename (has : as.Holds env Γ ρ) (hc : HoldsConstants env Γ ρ) (x : String) :
    classIn Γ (as.rename x) = classIn Γ x ∧ ρ (as.rename x) = ρ x := by
  unfold Aliases.rename
  split
  · obtain ⟨hmem, hcls⟩ := has x _ ‹_›
    exact ⟨(hc _ hmem).1.trans hcls.symm, (hc _ hmem).2⟩
  · exact ⟨rfl, rfl⟩

theorem lookup_hide (bs : List Binding) (x : String) :
    (as.hide bs).lookup x = if x ∈ bs.map Binding.name then some none else as.lookup x := by
  induction bs generalizing as with
  | nil => rfl
  | cons b bs ih =>
    rw [hide, foldl_cons, ← hide, ih, lookup_cons]
    by_cases hb : x = b.name
    · simp [hb]
    · simp [hb, beq_false_of_ne hb]

theorem Holds.hide (has : as.Holds env Γ ρ) (hρ : ∀ x ∉ bs.map Binding.name, ρ' x = ρ x) :
    (as.hide bs).Holds env (bs.reverse ++ Γ) ρ' := by
  intro x r hx
  rw [lookup_hide] at hx
  by_cases hmem : x ∈ bs.map Binding.name
  · rw [if_pos hmem] at hx
    cases hx
  · rw [if_neg hmem] at hx
    rw [hρ x hmem, classIn_reverse_append hmem]
    exact has x r hx

theorem Holds.cons {b : Binding} {v : Word} {r? : Option PhysReg} (has : as.Holds env Γ ρ)
    (hr : ∀ r ∈ r?, (r, v) ∈ constantWords env ∧ b.ty.cls? = some r.cls) :
    Aliases.Holds env ((b.name, r?) :: as) (b :: Γ) (ρ.set b.name v) := by
  intro x r hx
  rw [lookup_cons] at hx
  by_cases hxb : x = b.name
  · subst hxb
    rw [beq_self_eq_true] at hx
    rw [Valuation.set, if_pos rfl, classIn, typeIn_cons_self]
    exact hr r (Option.some_inj.mp hx)
  · rw [beq_false_of_ne hxb] at hx
    rw [Valuation.set, if_neg hxb, classIn_congr (typeIn_cons_of_ne hxb Γ)]
    exact has x r hx

end Aliases

/-! ## Evaluation -/

theorem Expr.eval_useConstants (arrays : Bool) (e : Expr)
    (hz : ∀ v ∈ e.literals, v ≠ .ofMagnitude true 0) (hb : ∀ x ∈ e.binders, x ∉ constantNames)
    (hl : e.FitsLiterals) (hc : HoldsConstants env Γ ρ) (has : as.Holds env Γ ρ) :
    (e.useConstants arrays as).eval env Γ ρ h = e.eval env Γ ρ h := by
  induction e generalizing as Γ ρ h with
  | unit | int | float | callClosure | callDirect | externArray => rfl
  | var x => simp only [useConstants, eval, (has.rename hc _).2]
  | unary op x => simp only [useConstants, eval, (has.rename hc _).2]
  | binary op x y => simp only [useConstants, eval, (has.rename hc _).2]
  | tuple xs =>
    have hfields : (fieldOrder Γ (xs.map as.rename)).map ρ = (fieldOrder Γ xs).map ρ := by
      simp only [fieldOrder, filter_map, Function.comp_def, (has.rename hc _).1,
        map_append, map_map, (has.rename hc _).2]
    simp only [useConstants, eval, hfields]
  | get a i => cases arrays <;> simp [useConstants, eval, (has.rename hc _).2]
  | put a i v =>
    cases arrays <;> simp [useConstants, eval, (has.rename hc _).1, (has.rename hc _).2]
  | cond cmp x y e₁ e₂ ih₁ ih₂ =>
    simp only [literals, binders, forall_mem_append] at hz hb
    simp only [useConstants, eval, (has.rename hc _).1, (has.rename hc _).2,
      ih₁ hz.1 hb.1 hl.1 hc has, ih₂ hz.2 hb.2 hl.2 hc has]
  | makeClosure b c e ih =>
    simp only [binders, forall_mem_cons] at hb
    simp only [useConstants, eval, ih hz hb.2 hl (hc.cons hb.1 _)
      (has.cons fun r hr => (Option.not_mem_none r hr).elim)]
  | letTuple bs t e ih =>
    simp only [binders, forall_mem_append] at hb
    have hρ : ∀ x ∉ bs.map Binding.name,
        ρ.setFields h.memory (ρ t) 0 (bindingOrder bs) x = ρ x := fun x hx =>
      Valuation.setFields_of_not_mem fun hmem => hx (mem_names_of_mem_bindingOrder hmem)
    simp only [useConstants, eval, ih hz hb.2 hl (hc.extend hb.1 hρ) (has.hide hρ)]
  | letIn b e₁ e₂ ih₁ ih₂ =>
    simp only [literals, binders, forall_mem_append, forall_mem_cons] at hz hb
    obtain ⟨hfit, hl₁, hl₂⟩ := hl
    have halias : ∀ r ∈ e₁.constantRegister?,
        (r, (e₁.eval env Γ ρ h).value) ∈ constantWords env ∧ b.ty.cls? = some r.cls := fun r hr =>
      have hmem := Expr.mem_constantWords hr hz.1
      ⟨hmem.1, hfit _ hmem.2⟩
    simp only [useConstants, eval, ih₁ hz.1 hb.1 hl₁ hc has,
      ih₂ hz.2 hb.2.2 hl₂ (hc.cons hb.2.1 _) (has.cons halias)]

/-- Naming constants by their registers keeps the meaning: whether or not the operands of array
accesses are renamed too, and however names are shadowed, the expression has the same value and
leaves the same heap by the same writes, claims of heap and calls. -/
theorem Expr.eval_propagateConstants (env : Environment) (arrays : Bool) {e : Expr}
    {Γ : List Binding} {ρ : Valuation} (h : Heap)
    (hzero : ∀ v ∈ e.literals, v ≠ .ofMagnitude true 0)
    (hnames : ∀ x ∈ e.binders, x ∉ constantNames) (hfit : e.FitsLiterals)
    (hconst : HoldsConstants env Γ ρ) :
    (e.propagateConstants arrays).eval env Γ ρ h = e.eval env Γ ρ h :=
  eval_useConstants arrays e hzero hnames hfit hconst fun _ _ hx => nomatch hx

/-! ## Constants under shadowing -/

def upperHalves : Environment :=
  { plainEnvironment with literal := fun v => v.bits.extractLsb' 32 32, literal_zero := rfl }

/-- The registers of constants as variables. -/
def constantScope : List Binding :=
  (constantWords upperHalves).map fun c => ⟨c.1.name, if c.1.cls = .int then .int else .float⟩

/-- Gives the registers of constants their words, and 8 to all else. -/
def constantValuation : Valuation := fun x =>
  ((constantWords upperHalves).find? fun c => c.1.name = x).elim 8 Prod.snd

/-- A constant is shadowed by a float and by a sum, and indexes an array. -/
def shadowedConstant : Expr :=
  .letIn ⟨"n", .int⟩ (.int 1)
    (.letIn ⟨"m", .int⟩ (.letIn ⟨"n", .float⟩ (.float .two) (.callDirect "f" ["n"]))
      (.cond .lt "n" "m"
        (.letIn ⟨"n", .int⟩ (.binary .add "n" "n") (.put "m" "n" "n")) (.put "m" "n" "n")))

theorem eval_propagateConstants_shadowedConstant :
    shadowedConstant.propagateConstants true =
      .letIn ⟨"n", .int⟩ (.int 1)
        (.letIn ⟨"m", .int⟩ (.letIn ⟨"n", .float⟩ (.float .two) (.callDirect "f" ["n"]))
          (.cond .lt "x25" "m"
            (.letIn ⟨"n", .int⟩ (.binary .add "x25" "x25") (.put "m" "n" "n"))
            (.put "m" "x25" "x25"))) ∧
      (shadowedConstant.propagateConstants true).eval upperHalves constantScope constantValuation
          (filledMachine 1).heap =
        shadowedConstant.eval upperHalves constantScope constantValuation (filledMachine 1).heap :=
  ⟨rfl, Expr.eval_propagateConstants upperHalves true _ (by decide) (by decide)
    (by simp [shadowedConstant, Expr.FitsLiterals, Expr.literalClass?, Ty.cls?])
    (by unfold HoldsConstants; decide)⟩

end ClosureCodegen
