import ClosureCodegen.Proofs.Lowering.Evaluation
import ClosureCodegen.Proofs.Lowering.Shape
import ClosureCodegen.Proofs.Names

/-!
# Names and registers in lowered code

Lowering does not take bindings out of scope again, so the scope it looks names up in has more in it
than the scope of the expression.  If the names an expression binds are all different, and none of
them is free in it, this makes no difference.  The registers that lowering finds for variables are
then the variables themselves with their classes, in the order of `fieldOrder`.
-/

namespace ClosureCodegen
open List Outcome LowerState

variable {x : String} {b : Binding} {bs Γ : List Binding} {s s' : LowerState} {e : Expr}
  {d? : Option Reg} {code : Code} {r : Reg}

/-- A name that the percent sign keeps apart from the variables of a program. -/
def Temporary (x : String) : Prop := x.toList.head? = some '%'

theorem temporary_tempReg (role : String) (n : Nat) (cls : RegClass) :
    Temporary (tempReg role n cls).name := by
  rw [tempReg, Temporary, String.toList_append, String.toList_append, String.toList_append]
  rfl

theorem Temporary.isReservedName (h : Temporary x) : isReservedName x = false :=
  Bool.eq_false_iff.mpr fun hr => head?_of_isReservedName hr h

/-- The names of an expression are all different, and none is reserved or a temporary. -/
structure WellNamed (e : Expr) : Prop where
  nodup : e.binders.Nodup
  apart : ∀ x ∈ e.binders, x ∉ e.free
  plain : ∀ x, x ∈ e.binders ∨ x ∈ e.free → isReservedName x = false ∧ ¬Temporary x

namespace WellNamed

variable {e' e₁ e₂ : Expr} {c : Closure} {cmp : Comparison} {y t : String}

/-- A part of an expression is well named, if what is free in it is free in the whole or bound by
the rest of it. -/
theorem part (h : WellNamed e) (hb : e'.binders.Sublist e.binders)
    (hf : ∀ x ∈ e'.free, x ∈ e.free ∨ (x ∈ e.binders ∧ x ∉ e'.binders)) : WellNamed e' where
  nodup := hb.nodup h.nodup
  apart x hx hfree := (hf x hfree).elim (h.apart x (hb.subset hx)) fun hx' => hx'.2 hx
  plain x hx := h.plain x (hx.elim (fun hx => .inl (hb.subset hx)) fun hx =>
    (hf x hx).elim .inr fun hx' => .inl hx'.1)

theorem holds (h : WellNamed (.cond cmp x y e₁ e₂)) : WellNamed e₁ :=
  h.part (sublist_append_left _ _) fun z hz => .inl (by simp [Expr.free, hz])

theorem fails (h : WellNamed (.cond cmp x y e₁ e₂)) : WellNamed e₂ :=
  h.part (sublist_append_right _ _) fun z hz => .inl (by simp [Expr.free, hz])

theorem letValue (h : WellNamed (.letIn b e₁ e₂)) : WellNamed e₁ :=
  h.part (sublist_append_left _ _) fun z hz => .inl (by simp [Expr.free, hz])

theorem letBody (h : WellNamed (.letIn b e₁ e₂)) : WellNamed e₂ := by
  refine h.part ((sublist_cons_self _ _).trans (sublist_append_right _ _)) fun z hz => ?_
  by_cases hzb : z = b.name
  · have hn := (nodup_cons.mp (nodup_append.mp h.nodup).2.1).1
    exact .inr ⟨by simp [Expr.binders, hzb], hzb ▸ hn⟩
  · exact .inl (by simp [Expr.free, hz, hzb])

theorem closureBody (h : WellNamed (.makeClosure b c e)) : WellNamed e := by
  refine h.part (sublist_cons_self _ _) fun z hz => ?_
  by_cases hzb : z = b.name
  · exact .inr ⟨by simp [Expr.binders, hzb], hzb ▸ (nodup_cons.mp h.nodup).1⟩
  · exact .inl (by simp [Expr.free, hz, hzb])

theorem tupleBody (h : WellNamed (.letTuple bs t e)) : WellNamed e := by
  refine h.part (sublist_append_right _ _) fun z hz => ?_
  by_cases hzb : z ∈ bs.map Binding.name
  · refine .inr ⟨mem_append_left _ hzb, fun hmem => ?_⟩
    exact (nodup_append.mp h.nodup).2.2 z hzb z hmem rfl
  · refine .inl (mem_cons_of_mem _ (mem_filter.mpr ⟨hz, ?_⟩))
    exact decide_eq_true hzb

end WellNamed

/-! ## Scopes -/

theorem typeIn_cons_self (b : Binding) (Γ : List Binding) : typeIn (b :: Γ) b.name = some b.ty := by
  simp [typeIn]

theorem typeIn_cons_of_ne (h : x ≠ b.name) (Γ : List Binding) : typeIn (b :: Γ) x = typeIn Γ x := by
  simp [typeIn, Ne.symm h]

theorem typeIn_append_of_not_mem (h : x ∉ bs.map Binding.name) (Γ : List Binding) :
    typeIn (bs ++ Γ) x = typeIn Γ x := by
  induction bs with
  | nil => rfl
  | cons b bs ih =>
    rw [map_cons, mem_cons, not_or] at h
    rw [cons_append, typeIn_cons_of_ne h.1, ih h.2]

theorem typeIn_append_of_mem (h : (bs.map Binding.name).Nodup) (hb : b ∈ bs) (Γ : List Binding) :
    typeIn (bs ++ Γ) b.name = some b.ty := by
  induction bs with
  | nil => cases hb
  | cons c bs ih =>
    rw [map_cons, nodup_cons] at h
    rcases mem_cons.mp hb with rfl | hb
    · exact typeIn_cons_self _ _
    · have hne : b.name ≠ c.name := fun he => h.1 (he ▸ mem_map_of_mem hb)
      rw [cons_append, typeIn_cons_of_ne hne, ih h.2 hb]

theorem classIn_congr {Δ : List Binding} (h : typeIn Γ x = typeIn Δ x) :
    classIn Γ x = classIn Δ x := by
  rw [classIn, classIn, h]

theorem isSome_typeIn_of_classIn {c : RegClass} (h : classIn Γ x = some c) :
    (typeIn Γ x).isSome := by
  obtain ⟨t, ht, _⟩ := Option.bind_eq_some_iff.mp h
  rw [ht]
  rfl

theorem Lowered.typeIn_scope (h : Lowered s e d? code s') (hx : x ∉ e.binders) :
    typeIn s'.scope x = typeIn s.scope x := by
  induction h with
  | unit | simple | callClosure | callDirect | tupleUnused | tuple | getUnused | get | putUnit
  | put => rfl
  | @cond s cmp y z holds fails d? r t fall taken s₁ s₂ _ _ _ _ ih₁ ih₂ =>
    rw [Expr.binders, mem_append, not_or] at hx
    have harms : x ∉ (cmp.firstArm holds fails).binders ∧
        x ∉ (cmp.secondArm holds fails).binders := by
      unfold Comparison.firstArm Comparison.secondArm
      split
      · exact hx
      · exact hx.symm
    rw [ih₂ harms.2, ih₁ harms.1]
    rfl
  | letIn _ _ ih₁ ih₂ =>
    rw [Expr.binders, mem_append, mem_cons, not_or, not_or] at hx
    rw [ih₂ hx.2.2, scope_bind, typeIn_cons_of_ne hx.2.1, ih₁ hx.1]
  | makeClosure _ _ ih =>
    rw [Expr.binders, mem_cons, not_or] at hx
    rw [ih hx.2, scope_advance, scope_bind, typeIn_cons_of_ne hx.1]
  | letTuple _ ih =>
    rw [Expr.binders, mem_append, not_or] at hx
    rw [ih hx.2, scope_bindAll, typeIn_append_of_not_mem]
    rw [map_reverse, mem_reverse]
    exact hx.1

/-! ## Registers of variables -/

section Registers

variable {xs : List String}

theorem regOf_eq (hx : isReservedName x = false) {t : Ty} (ht : typeIn s.scope x = some t) :
    s.regOf x = .ok (t.cls?.map (Reg.mk x)) := by
  rw [regOf, reservedClass?, hx]
  simp only [Bool.false_eq_true, if_false]
  rw [show s.tyOf? x = some t from ht]

theorem regOf_eq_ok (hx : isReservedName x = false) (hΓ : typeIn s.scope x = typeIn Γ x)
    {r? : Option Reg} (h : s.regOf x = .ok r?) :
    (typeIn Γ x).isSome ∧ r? = (classIn Γ x).map (Reg.mk x) := by
  cases ht : typeIn Γ x with
  | none =>
    rw [regOf, reservedClass?, hx] at h
    simp only [Bool.false_eq_true, if_false] at h
    rw [show s.tyOf? x = none from hΓ.trans ht] at h
    cases h
  | some t =>
    rw [regOf_eq hx (hΓ.trans ht)] at h
    rw [classIn, ht]
    exact ⟨rfl, (Except.ok.inj h).symm⟩

theorem operandOf_eq_ok {c : RegClass} (hx : isReservedName x = false)
    (hΓ : typeIn s.scope x = typeIn Γ x) (hc : classIn Γ x = some c) (h : s.operandOf x = .ok r) :
    r = ⟨x, c⟩ := by
  simp only [operandOf, bind_eq_ok, pure_eq_ok] at h
  obtain ⟨r?, hr, rfl⟩ := h
  rw [(regOf_eq_ok hx hΓ hr).2, hc]
  rfl

/-- The registers of variables in the order of `fieldOrder`. -/
def fieldRegs (Γ : List Binding) (xs : List String) : List Reg :=
  (xs.filter fun x => classIn Γ x = some .int).map (Reg.mk · .int) ++
    (xs.filter fun x => classIn Γ x = some .float).map (Reg.mk · .float)

theorem map_name_fieldRegs : (fieldRegs Γ xs).map Reg.name = fieldOrder Γ xs := by
  simp [fieldRegs, fieldOrder, Function.comp_def]

theorem mem_fieldRegs : r ∈ fieldRegs Γ xs ↔ r.name ∈ xs ∧ classIn Γ r.name = some r.cls := by
  rcases r with ⟨x, c⟩
  cases c <;> simp [fieldRegs]

theorem filter_filterMap_classIn (c : RegClass) :
    (xs.filterMap fun x => (classIn Γ x).map (Reg.mk x)).filter (·.cls = c) =
      (xs.filter fun x => classIn Γ x = some c).map (Reg.mk · c) := by
  induction xs with
  | nil => rfl
  | cons x xs ih =>
    cases hc : classIn Γ x with
    | none => simp [hc, ih]
    | some k =>
      by_cases hk : k = c
      · subst hk
        simp [hc, ih]
      · simp [hc, ih, hk]

theorem regsOf_eq_ok (hx : ∀ x ∈ xs, isReservedName x = false)
    (hΓ : ∀ x ∈ xs, typeIn s.scope x = typeIn Γ x) {regs : List Reg} (h : s.regsOf xs = .ok regs) :
    regs = fieldRegs Γ xs := by
  simp only [regsOf, bind_eq_ok, pure_eq_ok, mapM_eq_ok] at h
  obtain ⟨rs, hrs, rfl⟩ := h
  have hmap : rs.filterMap id = xs.filterMap fun x => (classIn Γ x).map (Reg.mk x) := by
    induction hrs with
    | nil => rfl
    | @cons x r? xs rs hr _ ih =>
      have hr := (regOf_eq_ok (hx x mem_cons_self) (hΓ x mem_cons_self) hr).2
      rw [filterMap_cons, filterMap_cons,
        ih (fun y hy => hx y (mem_cons_of_mem x hy))
          (fun y hy => hΓ y (mem_cons_of_mem x hy)), hr]
      rfl
  rw [hmap, integersFirst, filter_filterMap_classIn, filter_filterMap_classIn]
  rfl

end Registers

end ClosureCodegen
