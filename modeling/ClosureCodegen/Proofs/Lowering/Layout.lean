import Mathlib.Data.List.Permutation
import Mathlib.Logic.Relation
import ClosureCodegen.Program.ConstantRegister
import ClosureCodegen.Proofs.Calling.Stack
import ClosureCodegen.Proofs.Lowering.Behaviour

/-!
# The layout of records and arguments

Tuples, closures and argument lists are written in one place of a program and read in another.  The
writer finds the class of a variable in the scope of lowering, or by the name of a register with a
fixed role; the reader takes it from the types of its bindings.  Both put integers before floats and
leave out variables of unit type.

* `fieldPlace?` is the place of a variable among the fields, given the classes of all of them, and
  `getElem?_arrange` finds a register at its place in the order that lowering gives.
* `LoweringPoint.Step` goes down from an expression to the lowering of its parts, with the aliases
  that propagation of constants has in force there; along it aliases keep the classes of the
  variables they stand for (`ReplacesAlike`), so replaced items do not change places.
* `fields_agree` puts the writers and the readers of the three kinds side by side.
-/

namespace ClosureCodegen
open List

variable {rs : List (Option Reg)} {i : Nat} {vars formals : List Binding} {v : Binding}
  {s s' : LowerState} {r : PhysReg} {code : Code}

/-! ## Places of fields -/

def fieldsBefore (classes : List (Option RegClass)) : RegClass → Nat
  | .int => 0
  | .float => classes.count (some .int)

/-- The place of the `i`-th variable among the fields; a variable of unit type has none. -/
def fieldPlace? (classes : List (Option RegClass)) (i : Nat) : Option Nat :=
  classes[i]?.join.map fun c => fieldsBefore classes c + (classes.take i).count (some c)

def fieldCount (classes : List (Option RegClass)) : Nat :=
  classes.count (some .int) + classes.count (some .float)

section Places

variable {classes : List (Option RegClass)} {j k : Nat} {c : RegClass}

theorem fieldPlace?_eq (h : classes[i]? = some (some c)) :
    fieldPlace? classes i = some (fieldsBefore classes c + (classes.take i).count (some c)) := by
  rw [fieldPlace?, h]
  rfl

theorem exists_class_of_fieldPlace? (h : fieldPlace? classes i = some k) :
    ∃ c, classes[i]? = some (some c) := by
  obtain ⟨c, hc, _⟩ := Option.map_eq_some_iff.mp h
  exact ⟨c, Option.join_eq_some_iff.mp hc⟩

theorem count_take_lt (h : classes[i]? = some (some c)) (hij : i < j) :
    (classes.take i).count (some c) < (classes.take j).count (some c) := by
  have hstep : (classes.take (i + 1)).count (some c) = (classes.take i).count (some c) + 1 := by
    rw [take_add_one, h, Option.toList_some, count_append, count_singleton_self]
  have hle : (classes.take (i + 1)).count (some c) ≤ (classes.take j).count (some c) :=
    (take_sublist_take_left (l := classes) hij).count_le (some c)
  omega

theorem count_take_lt_count (h : classes[i]? = some (some c)) :
    (classes.take i).count (some c) < classes.count (some c) := by
  have hlt : i < classes.length := (List.getElem?_eq_some_iff.mp h).1
  have := count_take_lt h hlt
  rwa [take_length] at this

theorem fieldPlace?_lt (h : fieldPlace? classes i = some k) : k < fieldCount classes := by
  obtain ⟨c, hc⟩ := exists_class_of_fieldPlace? h
  rw [fieldPlace?_eq hc] at h
  have hlt := count_take_lt_count hc
  cases h
  cases c <;> simp only [fieldsBefore, fieldCount] <;> omega

theorem fieldPlace?_injective (hi : fieldPlace? classes i = some k)
    (hj : fieldPlace? classes j = some k) : i = j := by
  obtain ⟨c, hc⟩ := exists_class_of_fieldPlace? hi
  obtain ⟨d, hd⟩ := exists_class_of_fieldPlace? hj
  rw [fieldPlace?_eq hc, Option.some.injEq] at hi
  rw [fieldPlace?_eq hd, Option.some.injEq] at hj
  have hci := count_take_lt_count hc
  have hdj := count_take_lt_count hd
  have hcd : c = d := by
    cases c <;> cases d <;> first | rfl | (simp only [fieldsBefore] at hi hj; omega)
  subst hcd
  rcases Nat.lt_trichotomy i j with hij | hij | hij
  · have := count_take_lt hc hij
    omega
  · exact hij
  · have := count_take_lt hd hij
    omega

end Places

/-! ## Registers at their places -/

/-- The registers of variables in the order of their fields. -/
def arrange (rs : List (Option Reg)) : List Reg := integersFirst (rs.filterMap id)

theorem length_filter_cls (rs : List (Option Reg)) (c : RegClass) :
    ((rs.filterMap id).filter (·.cls = c)).length = (rs.map (Option.map Reg.cls)).count (some c) := by
  induction rs with
  | nil => rfl
  | cons r? rs ih =>
    cases r? with
    | none => simpa using ih
    | some r =>
      by_cases hr : r.cls = c
      · simpa [hr] using ih
      · simpa [hr] using ih

theorem getElem?_filter_cls {r : Reg} (h : rs[i]? = some (some r)) :
    ((rs.filterMap id).filter (·.cls = r.cls))[((rs.map (Option.map Reg.cls)).take i).count
      (some r.cls)]? = some r := by
  induction rs generalizing i with
  | nil => cases h
  | cons q? rs ih =>
    cases i with
    | zero =>
      cases h
      simp
    | succ i =>
      have ih := ih h
      cases q? with
      | none => simpa using ih
      | some q =>
        by_cases hq : q.cls = r.cls
        · simpa [hq] using ih
        · simpa [hq] using ih

theorem getElem?_arrange {r : Reg} (h : rs[i]? = some (some r)) :
    ∃ k, fieldPlace? (rs.map (Option.map Reg.cls)) i = some k ∧ (arrange rs)[k]? = some r := by
  have hclass : (rs.map (Option.map Reg.cls))[i]? = some (some r.cls) := by
    rw [getElem?_map, h]
    rfl
  refine ⟨_, fieldPlace?_eq hclass, ?_⟩
  have hfield := getElem?_filter_cls h
  rw [arrange, integersFirst]
  rcases r with ⟨x, c⟩
  cases c with
  | int =>
    rw [fieldsBefore, Nat.zero_add]
    rw [getElem?_append_left (List.getElem?_eq_some_iff.mp hfield).1]
    exact hfield
  | float =>
    rw [fieldsBefore, ← length_filter_cls, getElem?_append_right (Nat.le_add_right _ _),
      Nat.add_sub_cancel_left]
    exact hfield

/-- The classes of variables, by their types. -/
def fieldClasses (vars : List Binding) : List (Option RegClass) := vars.map fun v => v.ty.cls?

/-- The registers of variables under the names they are used by. -/
def itemRegs (rename : String → String) (vars : List Binding) : List (Option Reg) :=
  vars.map fun v => v.ty.cls?.map (Reg.mk (rename v.name))

theorem map_cls_itemRegs (rename : String → String) (vars : List Binding) :
    (itemRegs rename vars).map (Option.map Reg.cls) = fieldClasses vars := by
  rw [itemRegs, fieldClasses, map_map]
  refine map_congr_left fun v _ => ?_
  cases h : v.ty.cls? <;> simp [h]

theorem length_arrange_itemRegs (rename : String → String) (vars : List Binding) :
    (arrange (itemRegs rename vars)).length = fieldCount (fieldClasses vars) := by
  rw [arrange, integersFirst, length_append, length_filter_cls, length_filter_cls, map_cls_itemRegs,
    fieldCount]

theorem getElem?_arrange_itemRegs (rename : String → String) {c : RegClass} (hv : vars[i]? = some v)
    (hc : v.ty.cls? = some c) :
    ∃ k, fieldPlace? (fieldClasses vars) i = some k ∧
      (arrange (itemRegs rename vars))[k]? = some ⟨rename v.name, c⟩ := by
  have h : (itemRegs rename vars)[i]? = some (some ⟨rename v.name, c⟩) := by
    rw [itemRegs, getElem?_map, hv, Option.map_some, hc]
    rfl
  obtain ⟨k, hk, hr⟩ := getElem?_arrange h
  exact ⟨k, map_cls_itemRegs rename vars ▸ hk, hr⟩

theorem bindingRegs_eq (bs : List Binding) : bindingRegs bs = arrange (itemRegs id bs) := by
  rw [bindingRegs, arrange, itemRegs, filterMap_map]
  rfl

theorem regsOf_eq_arrange {s : LowerState} {rename : String → String} {vars : List Binding}
    (h : ∀ v ∈ vars, s.regOf (rename v.name) = .ok (v.ty.cls?.map (Reg.mk (rename v.name)))) :
    s.regsOf (vars.map fun v => rename v.name) = .ok (arrange (itemRegs rename vars)) := by
  have hall : (vars.map fun v => rename v.name).mapM s.regOf = .ok (itemRegs rename vars) := by
    rw [Outcome.mapM_eq_ok, itemRegs, List.forall₂_map_left_iff, List.forall₂_map_right_iff,
      List.forall₂_same]
    exact h
  rw [LowerState.regsOf, hall]
  rfl

/-! ## Typed variables -/

/-- Variables that a scope binds at their types. A name of a register with a fixed role stands for
a value of that register's class. -/
structure TypedIn (scope : List Binding) (vars : List Binding) : Prop where
  bound : ∀ v ∈ vars, typeIn scope v.name = some v.ty
  reserved : ∀ v ∈ vars, ∀ c, reservedClass? v.name = some c → v.ty.cls? = some c

theorem TypedIn.regOf_eq (h : TypedIn s.scope vars) (hv : v ∈ vars) :
    s.regOf v.name = .ok (v.ty.cls?.map (Reg.mk v.name)) := by
  rw [LowerState.regOf]
  cases hr : reservedClass? v.name with
  | some c =>
    rw [h.reserved v hv c hr]
    rfl
  | none =>
    have hty : s.tyOf? v.name = some v.ty := h.bound v hv
    rw [hty]

theorem TypedIn.regsOf_eq (h : TypedIn s.scope vars) :
    s.regsOf (vars.map Binding.name) = .ok (arrange (itemRegs id vars)) :=
  @regsOf_eq_arrange s id vars fun _ hv => h.regOf_eq hv

/-! ## Propagated constants -/

theorem reservedClass?_name (h : r ∈ PhysReg.reserved) : reservedClass? r.name = some r.cls := by
  rw [reservedClass?, if_pos (PhysReg.isReservedName_name.mpr h), PhysReg.ofName?_name]
  rfl

theorem constantRegister?_eq_some {Γ : List Binding} {e : Expr} {k : Option RegClass}
    (h : e.constantRegister? = some r) (he : HasClass Γ e k) :
    r ∈ PhysReg.reserved ∧ k = some r.cls := by
  cases e with
  | int n =>
    cases he
    simp only [Expr.constantRegister?, Word.constantRegister?] at h
    split_ifs at h <;> cases h <;> exact ⟨by decide, rfl⟩
  | float v =>
    cases he
    simp only [Expr.constantRegister?, Binary64.constantRegister?] at h
    split_ifs at h <;> cases h <;> exact ⟨by decide, rfl⟩
  | _ => cases h

/-- Aliases stand for variables of their own class, and are registers with a fixed role. -/
def ReplacesAlike (Γ : List Binding) (as : Aliases) : Prop :=
  ∀ x r, as.lookup x = some (some r) → r ∈ PhysReg.reserved ∧ classIn Γ x = some r.cls

namespace ReplacesAlike

variable {Γ : List Binding} {as : Aliases} {b : Binding}

theorem nil (Γ : List Binding) : ReplacesAlike Γ [] := nofun

variable (h : ReplacesAlike Γ as)
include h

theorem cons {r? : Option PhysReg}
    (hr : ∀ r, r? = some r → r ∈ PhysReg.reserved ∧ b.ty.cls? = some r.cls) :
    ReplacesAlike (b :: Γ) ((b.name, r?) :: as) := by
  intro x r hx
  by_cases hxb : x = b.name
  · subst hxb
    rw [lookup_cons_self, Option.some.injEq] at hx
    obtain ⟨hres, hcls⟩ := hr r hx
    refine ⟨hres, ?_⟩
    rw [classIn, typeIn_cons_self]
    exact hcls
  · rw [lookup_cons, beq_false_of_ne hxb] at hx
    obtain ⟨hres, hcls⟩ := h x r hx
    exact ⟨hres, (classIn_congr (typeIn_cons_of_ne hxb Γ)).trans hcls⟩

theorem hide (bs : List Binding) : ReplacesAlike (bs.reverse ++ Γ) (as.hide bs) := by
  induction bs generalizing Γ as with
  | nil => exact h
  | cons b bs ih =>
    have hb : ReplacesAlike (b :: Γ) ((b.name, none) :: as) := h.cons nofun
    rw [reverse_cons, append_assoc]
    exact ih hb

theorem regOf_rename (hΓ : TypedIn Γ vars) (hs : TypedIn s.scope vars) (hv : v ∈ vars) :
    s.regOf (as.rename v.name) = .ok (v.ty.cls?.map (Reg.mk (as.rename v.name))) := by
  rcases hl : as.lookup v.name with _ | _ | r
  · rw [Aliases.rename, hl]
    exact hs.regOf_eq hv
  · rw [Aliases.rename, hl]
    exact hs.regOf_eq hv
  · obtain ⟨hres, hcls⟩ := h v.name r hl
    rw [classIn, hΓ.bound v hv, Option.bind_some] at hcls
    rw [Aliases.rename, hl, LowerState.regOf, reservedClass?_name hres, hcls]
    rfl

end ReplacesAlike

/-- A point in the lowering of an expression that has its constants propagated: the bindings and
the aliases in force, the state of lowering, and the part of the expression with its destination. -/
structure LoweringPoint where
  bindings : List Binding
  aliases : Aliases
  state : LowerState
  expr : Expr
  dest? : Option Reg

namespace LoweringPoint

def Emits (arrays : Bool) (p : LoweringPoint) (code : Code) : Prop :=
  ∃ s, (p.expr.useConstants arrays p.aliases).lower p.dest? p.state = .ok code s

/-- The lowering of an expression comes to lower one of its parts. -/
inductive Step (arrays : Bool) : LoweringPoint → LoweringPoint → Prop where
  | firstArm {Γ as s cmp x y holds fails d?} :
      Step arrays ⟨Γ, as, s, .cond cmp x y holds fails, d?⟩
        ⟨Γ, as, s.advance, cmp.firstArm holds fails, d?⟩
  | secondArm {Γ as s cmp x y holds fails d? fall s₁} :
      ((cmp.firstArm holds fails).useConstants arrays as).lower d? s.advance = .ok fall s₁ →
      Step arrays ⟨Γ, as, s, .cond cmp x y holds fails, d?⟩
        ⟨Γ, as, s₁, cmp.secondArm holds fails, d?⟩
  | letValue {Γ as s b e₁ e₂ d?} :
      Step arrays ⟨Γ, as, s, .letIn b e₁ e₂, d?⟩ ⟨Γ, as, s, e₁, b.ty.cls?.map (Reg.mk b.name)⟩
  | letBody {Γ as s b e₁ e₂ d? value s₁} :
      (e₁.useConstants arrays as).lower (b.ty.cls?.map (Reg.mk b.name)) s = .ok value s₁ →
      Step arrays ⟨Γ, as, s, .letIn b e₁ e₂, d?⟩
        ⟨b :: Γ, (b.name, e₁.constantRegister?) :: as, s₁.bind b, e₂, d?⟩
  | closureBody {Γ as s b c e d?} :
      Step arrays ⟨Γ, as, s, .makeClosure b c e, d?⟩
        ⟨b :: Γ, (b.name, none) :: as, (s.bind b).advance, e, d?⟩
  | tupleBody {Γ as s bs t e d?} :
      Step arrays ⟨Γ, as, s, .letTuple bs t e, d?⟩ ⟨bs.reverse ++ Γ, as.hide bs, s.bindAll bs, e, d?⟩

/-- The lowering of an expression comes to lower what is somewhere inside it. -/
abbrev Reaches (arrays : Bool) : LoweringPoint → LoweringPoint → Prop :=
  Relation.ReflTransGen (Step arrays)

variable {arrays : Bool} {p q : LoweringPoint}

theorem fallthrough_infix_conditional (branch : Instr) (n : Nat) (fall taken : Code) :
    fall <:+: conditional branch n fall taken := by
  refine ⟨[branch], .jump (endifLabel n) :: .labelled (thenLabel n) :: taken ++
    [.labelled (endifLabel n)], ?_⟩
  rw [conditional, singleton_append, append_assoc]

theorem taken_infix_conditional (branch : Instr) (n : Nat) (fall taken : Code) :
    taken <:+: conditional branch n fall taken := by
  refine ⟨branch :: fall ++ [.jump (endifLabel n), .labelled (thenLabel n)],
    [.labelled (endifLabel n)], ?_⟩
  simp [conditional]

theorem useConstants_firstArm (cmp : Comparison) (as : Aliases) (holds fails : Expr) :
    cmp.firstArm (holds.useConstants arrays as) (fails.useConstants arrays as) =
      (cmp.firstArm holds fails).useConstants arrays as := by
  unfold Comparison.firstArm
  split <;> rfl

theorem useConstants_secondArm (cmp : Comparison) (as : Aliases) (holds fails : Expr) :
    cmp.secondArm (holds.useConstants arrays as) (fails.useConstants arrays as) =
      (cmp.secondArm holds fails).useConstants arrays as := by
  unfold Comparison.secondArm
  split <;> rfl

theorem Step.emits (h : Step arrays p q) (hp : p.Emits arrays code) :
    ∃ code', q.Emits arrays code' ∧ code' <:+: code := by
  obtain ⟨s', hp⟩ := hp
  have hl := Lowered.of_lower hp
  cases h with
  | firstArm =>
    cases hl with
    | simple hf => cases hf
    | cond _ _ hfirst _ =>
      rw [useConstants_firstArm] at hfirst
      exact ⟨_, ⟨_, hfirst.lower_eq⟩, fallthrough_infix_conditional _ _ _ _⟩
  | secondArm hfall =>
    cases hl with
    | simple hf => cases hf
    | cond _ _ hfirst hsecond =>
      rw [useConstants_firstArm] at hfirst
      rw [useConstants_secondArm] at hsecond
      cases hfall.symm.trans hfirst.lower_eq
      exact ⟨_, ⟨_, hsecond.lower_eq⟩, taken_infix_conditional _ _ _ _⟩
  | letValue =>
    cases hl with
    | simple hf => cases hf
    | letIn hvalue _ => exact ⟨_, ⟨_, hvalue.lower_eq⟩, [], _, rfl⟩
  | letBody hv =>
    cases hl with
    | simple hf => cases hf
    | letIn hvalue hbody =>
      cases hv.symm.trans hvalue.lower_eq
      exact ⟨_, ⟨_, hbody.lower_eq⟩, (suffix_append _ _).isInfix⟩
  | closureBody =>
    cases hl with
    | simple hf => cases hf
    | makeClosure _ hbody => exact ⟨_, ⟨_, hbody.lower_eq⟩, (suffix_append _ _).isInfix⟩
  | tupleBody =>
    cases hl with
    | simple hf => cases hf
    | letTuple hbody => exact ⟨_, ⟨_, hbody.lower_eq⟩, (suffix_append _ _).isInfix⟩

theorem Reaches.emits (h : Reaches arrays p q) (hp : p.Emits arrays code) :
    ∃ code', q.Emits arrays code' ∧ code' <:+: code := by
  induction h with
  | refl => exact ⟨code, hp, infix_rfl⟩
  | tail _ hstep ih =>
    obtain ⟨code₁, hq, hin⟩ := ih
    obtain ⟨code₂, hr, hin'⟩ := hstep.emits hq
    exact ⟨code₂, hr, hin'.trans hin⟩

/-- The expression of a point is well typed, and its aliases keep classes. -/
structure Typed (p : LoweringPoint) : Prop where
  class? : ∃ k, HasClass p.bindings p.expr k
  alike : ReplacesAlike p.bindings p.aliases

theorem Step.typed (h : Step arrays p q) (hp : p.Typed) : q.Typed := by
  obtain ⟨⟨k, hk⟩, halike⟩ := hp
  cases h with
  | firstArm =>
    cases hk with
    | cond _ _ hholds hfails => exact ⟨⟨k, (Comparison.forall_arms (HasClass _ · k) hholds hfails _).1⟩, halike⟩
  | secondArm =>
    cases hk with
    | cond _ _ hholds hfails => exact ⟨⟨k, (Comparison.forall_arms (HasClass _ · k) hholds hfails _).2⟩, halike⟩
  | letValue =>
    cases hk with
    | letIn h₁ _ => exact ⟨⟨_, h₁⟩, halike⟩
  | letBody =>
    cases hk with
    | letIn h₁ h₂ => exact ⟨⟨k, h₂⟩, halike.cons fun r hr => constantRegister?_eq_some hr h₁⟩
  | closureBody =>
    cases hk with
    | makeClosure _ _ he => exact ⟨⟨k, he⟩, halike.cons nofun⟩
  | tupleBody =>
    cases hk with
    | letTuple _ he => exact ⟨⟨k, he⟩, halike.hide _⟩

theorem Reaches.typed (h : Reaches arrays p q) (hp : p.Typed) : q.Typed := by
  induction h with
  | refl => exact hp
  | tail _ hstep ih => exact hstep.typed ih

end LoweringPoint

/-! ## Writers and readers -/

/-- Two lists have one entry for each field. The entries for variables with the same index are at
the same place, and are made there from the registers of the two variables. -/
structure FieldsMatch {α β : Type} (vars formals : List Binding) (rename : String → String)
    (write : Reg → Nat → α) (read : Reg → Nat → β) (xs : List α) (ys : List β) : Prop where
  length_left : xs.length = fieldCount (fieldClasses vars)
  length_right : ys.length = fieldCount (fieldClasses vars)
  fields : ∀ i v b c, vars[i]? = some v → formals[i]? = some b → v.ty.cls? = some c →
    ∃ k, fieldPlace? (fieldClasses vars) i = some k ∧
      xs[k]? = some (write ⟨rename v.name, c⟩ k) ∧ ys[k]? = some (read ⟨b.name, c⟩ k)

theorem fieldClasses_congr (h : formals.map Binding.ty = vars.map Binding.ty) :
    fieldClasses formals = fieldClasses vars := by
  have := congrArg (List.map Ty.cls?) h
  rwa [map_map, map_map] at this

theorem fieldsMatch_mapIdx {α β : Type} (htypes : formals.map Binding.ty = vars.map Binding.ty)
    (rename : String → String) (write : Reg → Nat → α) (read : Reg → Nat → β) :
    FieldsMatch vars formals rename write read
      ((arrange (itemRegs rename vars)).mapIdx fun k r => write r k)
      ((bindingRegs formals).mapIdx fun k r => read r k) where
  length_left := by rw [length_mapIdx, length_arrange_itemRegs]
  length_right := by
    rw [length_mapIdx, bindingRegs_eq, length_arrange_itemRegs, fieldClasses_congr htypes]
  fields i v b c hv hb hc := by
    have hbc : b.ty.cls? = some c := by
      have hty := congrArg (·[i]?) htypes
      simp only [getElem?_map, hv, hb, Option.map_some, Option.some.injEq] at hty
      rw [hty, hc]
    obtain ⟨k, hk, hr⟩ := getElem?_arrange_itemRegs rename hv hc
    obtain ⟨k', hk', hr'⟩ := getElem?_arrange_itemRegs id hb hbc
    rw [fieldClasses_congr htypes, hk, Option.some.injEq] at hk'
    subst hk'
    rw [bindingRegs_eq]
    exact ⟨k, hk, by rw [getElem?_mapIdx, hr]; rfl, by rw [getElem?_mapIdx, hr']; rfl⟩

theorem mapIdx_const {α β : Type} (f : α → β) (l : List α) :
    l.mapIdx (fun _ a => f a) = l.map f := by
  refine ext_getElem? fun k => ?_
  rw [getElem?_mapIdx, getElem?_map]

theorem Definition.exists_append_of_lower {d : Definition} (h : d.lower s = .ok code s') :
    ∃ rest, code = .labelled d.name :: ((bindingRegs d.params).map fun r => ⟨.param, [.reg r]⟩) ++
      ((bindingRegs d.captured).mapIdx fun k r =>
        ⟨.captured, [.reg r, .imm (Word.ofCount (k + 1))]⟩) ++ rest := by
  obtain ⟨_, _, _, body, -, -, -, rfl⟩ := d.exists_lowered h
  exact ⟨_, congrArg _ (append_assoc _ _ _)⟩

theorem storeFields_eq (base : Reg) (first : Nat) (rs : List Reg) :
    storeFields base first rs = rs.mapIdx fun k r => .store base r (Word.ofCount (k + first)) := by
  simp only [storeFields, Nat.add_comm first]

theorem length_storeFields (base : Reg) (first : Nat) (rs : List Reg) :
    (storeFields base first rs).length = rs.length :=
  length_mapIdx

/-- A tuple is built from the registers of its items, in the order of their fields, also where
constants have taken the place of items. -/
theorem LoweringPoint.emits_tuple (arrays : Bool) {p : LoweringPoint} {d : Reg}
    (hexpr : p.expr = .tuple (vars.map Binding.name)) (hdest : p.dest? = some d)
    (halike : ReplacesAlike p.bindings p.aliases) (hΓ : TypedIn p.bindings vars)
    (hs : TypedIn p.state.scope vars) (code : Code) :
    p.Emits arrays code ↔
      code = tupleCode d (tempReg "tuple" (p.state.counter + 1) .int)
        (arrange (itemRegs p.aliases.rename vars)) := by
  have hregs := regsOf_eq_arrange fun v hv => halike.regOf_rename hΓ hs hv
  have hitems : (vars.map Binding.name).map p.aliases.rename =
      vars.map fun v => p.aliases.rename v.name := map_map
  have hlowered := (Lowered.tuple (d := d) hregs).lower_eq
  rw [Emits, hexpr, hdest, Expr.useConstants, hitems, hlowered]
  constructor
  · rintro ⟨s, h⟩
    cases h
    rfl
  · rintro rfl
    exact ⟨_, rfl⟩

theorem fieldOffsets_apart {classes : List (Option RegClass)} {first j k l : Nat}
    (hsize : fieldCount classes + first < 2 ^ 30) (hi : fieldPlace? classes i = some k)
    (hj : fieldPlace? classes j = some l) :
    (Word.ofCount (k + first) = Word.ofCount (l + first) → i = j) ∧
      (Word.ofCount (k + first)).toNat + 4 ≤ (Word.ofCount (fieldCount classes + first)).toNat ∧
      (0 < first → Word.ofCount (k + first) ≠ 0) := by
  have hk := fieldPlace?_lt hi
  have hl := fieldPlace?_lt hj
  have hk' : (Word.ofCount (k + first)).toNat = 4 * (k + first) := Word.toNat_ofCount (by omega)
  have hl' : (Word.ofCount (l + first)).toNat = 4 * (l + first) := Word.toNat_ofCount (by omega)
  refine ⟨fun h => ?_, ?_, fun hfirst h => ?_⟩
  · have hkl : k = l := by
      rw [h] at hk'
      omega
    exact fieldPlace?_injective hi (hkl ▸ hj)
  · rw [hk', Word.toNat_ofCount hsize]
    omega
  · rw [h] at hk'
    have : (0 : Word).toNat = 0 := rfl
    omega

/-- Writers and readers of tuples, of captured variables and of arguments agree on where each
variable stands. -/
theorem fields_agree {vars formals : List Binding}
    (htypes : formals.map Binding.ty = vars.map Binding.ty) :
    -- A tuple anywhere in a well-typed expression that has its constants propagated, and the
    -- bindings that take a tuple apart.
    (∀ {arrays : Bool} {p q : LoweringPoint} {k : Option RegClass} {d : Reg},
      p.aliases = [] → HasClass p.bindings p.expr k → LoweringPoint.Reaches arrays p q →
      q.expr = .tuple (vars.map Binding.name) → q.dest? = some d →
      TypedIn q.bindings vars → TypedIn q.state.scope vars →
      ∃ this stores, q.Emits arrays (claimHeap this stores.length ++ stores ++ [.move d this]) ∧
        (∀ code, p.Emits arrays code →
          claimHeap this stores.length ++ stores ++ [.move d this] <:+: code) ∧
        ∀ {t : String} {body : Expr} {d? : Option Reg} {s s' : LowerState} {code : Code},
          (Expr.letTuple formals t body).lower d? s = .ok code s' →
          ∃ loads rest, code = loads ++ rest ∧
            FieldsMatch vars formals q.aliases.rename
              (fun r k => Instr.store this r (Word.ofCount k))
              (fun r k => Instr.load r (.int t) (Word.ofCount k)) stores loads) ∧
    -- A closure, and the markers of the captured variables in the definition it enters.
    (∀ {b : Binding} {entry : String} {body : Expr} {d? : Option Reg} {s s' : LowerState}
      {code : Code}, TypedIn (b :: s.scope) vars →
      (Expr.makeClosure b ⟨entry, vars.map Binding.name⟩ body).lower d? s = .ok code s' →
      ∃ address stores rest, code = claimHeap (.int b.name) (stores.length + 1) ++
          .la address entry :: .store (.int b.name) address 0 :: stores ++ rest ∧
        ∀ {f : Definition} {s₁ s₁' : LowerState} {code₁ : Code}, f.captured = formals →
          f.lower s₁ = .ok code₁ s₁' →
          ∃ start markers rest₁, code₁ = start ++ markers ++ rest₁ ∧
            FieldsMatch vars formals id
              (fun r k => Instr.store (.int b.name) r (Word.ofCount (k + 1)))
              (fun r k => ⟨.captured, [.reg r, .imm (Word.ofCount (k + 1))]⟩) stores markers) ∧
    -- Arguments of a call, and the markers of the parameters of a definition.
    (∀ {d? : Option Reg} {s : LowerState}, TypedIn s.scope vars →
      ∃ args : List Reg,
        (∀ f, (Expr.callDirect f (vars.map Binding.name)).lower d? s =
          .ok [callInstr .callDirect .callDirectResult d? (.label f) args] s) ∧
        (∀ f, (Expr.callClosure f (vars.map Binding.name)).lower d? s =
          .ok [callInstr .callClosure .callClosureResult d? (.reg (.int f)) args] s) ∧
        ∀ {f : Definition} {s₁ s₁' : LowerState} {code : Code}, f.params = formals →
          f.lower s₁ = .ok code s₁' →
          ∃ markers rest, code = .labelled f.name :: markers ++ rest ∧
            FieldsMatch vars formals id (fun r _ => r) (fun r _ => (⟨.param, [.reg r]⟩ : Instr))
              args markers) ∧
    -- Offsets, behind none or one word in front of the fields.
    (∀ {first i j k l : Nat}, fieldCount (fieldClasses vars) + first < 2 ^ 30 →
      fieldPlace? (fieldClasses vars) i = some k → fieldPlace? (fieldClasses vars) j = some l →
      (Word.ofCount (k + first) = Word.ofCount (l + first) → i = j) ∧
        (Word.ofCount (k + first)).toNat + 4 ≤
          (Word.ofCount (fieldCount (fieldClasses vars) + first)).toNat ∧
        (0 < first → Word.ofCount (k + first) ≠ 0)) := by
  refine ⟨?_, ?_, ?_, fun hsize hi hj => fieldOffsets_apart hsize hi hj⟩
  · intro arrays p q k d haliases hclass hreach hexpr hdest hΓ hs
    have hp : p.Typed := ⟨⟨k, hclass⟩, haliases ▸ ReplacesAlike.nil _⟩
    have hemits := q.emits_tuple arrays hexpr hdest (hreach.typed hp).alike hΓ hs
    simp only [tupleCode, ← length_storeFields (tempReg "tuple" (q.state.counter + 1) .int) 0] at hemits
    refine ⟨_, _, (hemits _).mpr rfl, fun code hcode => ?_, ?_⟩
    · obtain ⟨code', hq, hinfix⟩ := hreach.emits hcode
      exact (hemits code').mp hq ▸ hinfix
    · intro t body d? s s' code h
      cases Lowered.of_lower h with
      | simple hf => cases hf
      | letTuple _ =>
        refine ⟨_, _, rfl, ?_⟩
        rw [storeFields_eq]
        exact fieldsMatch_mapIdx htypes _ _ _
  · intro b entry body d? s s' code hs h
    cases Lowered.of_lower h with
    | simple hf => cases hf
    | @makeClosure _ _ _ _ _ regs rest _ hregs _ =>
      cases (TypedIn.regsOf_eq (s := s.bind b) hs).symm.trans hregs
      refine ⟨tempReg "makecls" (s.counter + 1) .int,
        storeFields (.int b.name) 1 (arrange (itemRegs id vars)), rest, ?_, ?_⟩
      · rw [closureCode, length_storeFields]
      · intro f s₁ s₁' code₁ hcaptured h₁
        obtain ⟨rest₁, rfl⟩ := f.exists_append_of_lower h₁
        refine ⟨_, _, rest₁, rfl, ?_⟩
        rw [storeFields_eq, hcaptured]
        exact fieldsMatch_mapIdx htypes _ _ _
  · intro d? s hs
    refine ⟨arrange (itemRegs id vars), fun f => (Lowered.callDirect hs.regsOf_eq).lower_eq,
      fun f => (Lowered.callClosure hs.regsOf_eq).lower_eq, ?_⟩
    intro f s₁ s₁' code hparams h
    obtain ⟨rest, rfl⟩ := f.exists_append_of_lower h
    refine ⟨_, _, append_assoc _ _ _, ?_⟩
    have hmatch := fieldsMatch_mapIdx htypes id (fun r _ => r)
      (fun r _ => (⟨.param, [.reg r]⟩ : Instr))
    rw [mapIdx_const, mapIdx_const, map_id'] at hmatch
    rw [hparams]
    exact hmatch

/-- Items of all kinds, one of which is a constant. -/
def mixedItems : List Binding :=
  [⟨"y.1", .float⟩, ⟨"u.2", .unit⟩, ⟨"one.3", .int⟩, ⟨"a.4", .array .int⟩]

/-- Bindings at the types of `mixedItems`. -/
def mixedFields : List Binding :=
  [⟨"p.5", .float⟩, ⟨"q.6", .unit⟩, ⟨"r.7", .int⟩, ⟨"s.8", .array .int⟩]

/-- The scope around the constant of `mixedItems`. -/
def mixedScope : List Binding := [⟨"y.1", .float⟩, ⟨"u.2", .unit⟩, ⟨"a.4", .array .int⟩]

/-- The tuple of `mixedItems`, where lowering comes to it. -/
def mixedTuple : LoweringPoint where
  bindings := ⟨"one.3", .int⟩ :: mixedScope
  aliases := [("one.3", some .one)]
  state := { scope := ⟨"one.3", .int⟩ :: mixedScope }
  expr := .tuple (mixedItems.map Binding.name)
  dest? := some (.int "t.9")

theorem typedIn_mixedItems : TypedIn (⟨"one.3", .int⟩ :: mixedScope) mixedItems where
  bound := by
    intro v hv
    simp only [mixedItems, mem_cons, not_mem_nil, or_false] at hv
    rcases hv with rfl | rfl | rfl | rfl <;> rfl
  reserved := by
    intro v hv c hc
    have hnone : ∀ v ∈ mixedItems, reservedClass? v.name = none := by decide
    rw [hnone v hv] at hc
    cases hc

theorem fields_agree_mixedTuple :
    mixedFields.map Binding.ty = mixedItems.map Binding.ty ∧
      ∃ this stores loads rest,
        mixedTuple.Emits false (claimHeap this stores.length ++ stores ++ [.move (.int "t.9") this]) ∧
        (∃ s, (Expr.letTuple mixedFields "t.9" (.var "r.7")).lower (some (.int "k.10")) {} =
          .ok (loads ++ rest) s) ∧
        FieldsMatch mixedItems mixedFields mixedTuple.aliases.rename
          (fun r k => Instr.store this r (Word.ofCount k))
          (fun r k => Instr.load r (.int "t.9") (Word.ofCount k)) stores loads := by
  have hclass : HasClass mixedScope
      (.letIn ⟨"one.3", .int⟩ (.int 1) (.tuple (mixedItems.map Binding.name))) (some .int) := by
    refine .letIn .int (.tuple ?_)
    simp only [mixedItems, map_cons, map_nil, mem_cons, not_mem_nil, or_false]
    rintro x (rfl | rfl | rfl | rfl) <;> rfl
  have hone : (Expr.int 1).constantRegister? = some .one := by decide
  have hreach : LoweringPoint.Reaches false ⟨mixedScope, [], { scope := mixedScope },
      .letIn ⟨"one.3", .int⟩ (.int 1) (.tuple (mixedItems.map Binding.name)),
      some (.int "t.9")⟩ mixedTuple := by
    unfold mixedTuple
    rw [← hone]
    exact .single (.letBody (Lowered.simple rfl).lower_eq)
  obtain ⟨this, stores, hemits, _, hread⟩ := (@fields_agree mixedItems mixedFields rfl).1 rfl hclass
    hreach rfl rfl typedIn_mixedItems typedIn_mixedItems
  have hlower := (Lowered.letTuple (t := "t.9")
    (@Lowered.simple (LowerState.bindAll {} mixedFields) (.var "r.7") (some (.int "k.10")) _
      rfl)).lower_eq
  obtain ⟨loads, rest, hcode, hmatch⟩ := hread hlower
  exact ⟨rfl, this, stores, loads, rest, hemits, ⟨_, hcode ▸ hlower⟩, hmatch⟩

/-- A float variable that has the name of the stack pointer is taken for an integer by the writer of
a tuple, but not by its reader: it is stored in the first field, and loaded from the second. -/
theorem tuple_fields_differ_of_reserved :
    typeIn [⟨"n.1", .int⟩, ⟨"sp", .float⟩] "sp" = some .float ∧
      typeIn [⟨"n.1", .int⟩, ⟨"sp", .float⟩] "n.1" = some .int ∧
      (∃ s, (Expr.tuple ["sp", "n.1"]).lower (some (.int "t.2"))
          { scope := [⟨"n.1", .int⟩, ⟨"sp", .float⟩] } =
        .ok (claimHeap (tempReg "tuple" 1 .int) 2 ++
          [.store (tempReg "tuple" 1 .int) (.int "sp") 0,
            .store (tempReg "tuple" 1 .int) (.int "n.1") 4] ++
          [.move (.int "t.2") (tempReg "tuple" 1 .int)]) s) ∧
      ∃ s, (Expr.letTuple [⟨"x.3", .float⟩, ⟨"y.4", .int⟩] "t.2" .unit).lower none {} =
        .ok [.load (.int "y.4") (.int "t.2") 0, .load (.float "x.3") (.int "t.2") 4] s := by
  have hregs : ({ scope := [⟨"n.1", .int⟩, ⟨"sp", .float⟩] } : LowerState).regsOf ["sp", "n.1"] =
      .ok [.int "sp", .int "n.1"] := by
    cbv
  exact ⟨rfl, rfl, ⟨_, (Lowered.tuple hregs).lower_eq⟩, ⟨_, (Lowered.letTuple .unit).lower_eq⟩⟩

end ClosureCodegen
