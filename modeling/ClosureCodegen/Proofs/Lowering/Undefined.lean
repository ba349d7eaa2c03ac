import ClosureCodegen.Proofs.Lowering.Names

/-!
# Undefined variables

Lowering looks a name up where it needs its class: for operands of comparisons, for arguments,
captured variables and stored values, and for the items of a tuple whose value is wanted.  Such a
name is reserved, or it comes from the head of the body, or the body binds it; otherwise lowering
says that it is undefined, and it fails for no other reason.  The operands of other operations have
the class of the operation, and lowering takes them as they are.

* `Lowered.defined`: what is looked up is defined.
* `undefined_of_lower`: the only failure.
-/

namespace ClosureCodegen
open List Lower LowerState

variable {x : String} {s s' : LowerState} {e : Expr} {d? : Option Reg} {code : Code} {f : Failure}
  {xs : List String}

/-- The names that lowering looks up in an expression and that the expression does not bind around
them.  The items of a tuple are looked up only if its value is wanted. -/
def Expr.lookups : Expr → Bool → List String
  | .cond _ x y holds fails, wanted => x :: y :: (holds.lookups wanted ++ fails.lookups wanted)
  | .letIn b e₁ e₂, wanted =>
    e₁.lookups b.ty.cls?.isSome ++ (e₂.lookups wanted).filter (· ≠ b.name)
  | .makeClosure b c e, wanted => (c.captured ++ e.lookups wanted).filter (· ≠ b.name)
  | .callClosure _ args, _ | .callDirect _ args, _ => args
  | .tuple xs, wanted => if wanted then xs else []
  | .letTuple bs _ e, wanted => (e.lookups wanted).filter (· ∉ bs.map Binding.name)
  | .put _ _ v, _ => [v]
  | _, _ => []

/-! ## Success -/

theorem defined_of_regOf {r? : Option Reg} (h : s.regOf x = .ok r?) :
    isReservedName x = true ∨ (typeIn s.scope x).isSome := by
  cases hx : isReservedName x with
  | true => exact .inl rfl
  | false => exact .inr (regOf_eq_ok hx rfl h).1

theorem defined_of_operandOf {r : Reg} (h : s.operandOf x = .ok r) :
    isReservedName x = true ∨ (typeIn s.scope x).isSome := by
  simp only [LowerState.operandOf, Outcome.bind_eq_ok] at h
  obtain ⟨r?, hr, -⟩ := h
  exact defined_of_regOf hr

theorem defined_of_regsOf {regs : List Reg} (h : s.regsOf xs = .ok regs) (hx : x ∈ xs) :
    isReservedName x = true ∨ (typeIn s.scope x).isSome := by
  simp only [LowerState.regsOf, Outcome.bind_eq_ok, Outcome.mapM_eq_ok] at h
  obtain ⟨rs, hrs, -⟩ := h
  induction hrs with
  | nil => cases hx
  | cons hr _ ih =>
    rcases mem_cons.mp hx with rfl | hx
    · exact defined_of_regOf hr
    · exact ih hx

theorem Lowered.defined (h : Lowered s e d? code s') (hx : x ∈ e.lookups d?.isSome) :
    isReservedName x = true ∨ (typeIn s.scope x).isSome ∨ x ∈ e.binders := by
  induction h with
  | unit | tupleUnused | getUnused | get => cases hx
  | @simple s e d? f hf => cases e <;> first | (cases hf; done) | cases hx
  | @cond s cmp y z holds fails d? r t fall taken s₁ s₂ hr ht h₁ _ ih₁ ih₂ =>
    rw [Expr.lookups, mem_cons, mem_cons, mem_append] at hx
    rw [Expr.binders, mem_append]
    -- an arm is lowered behind the bindings of the arm in front of it
    have hscope : x ∉ (cmp.firstArm holds fails).binders →
        typeIn s₁.scope x = typeIn s.scope x := h₁.typeIn_scope
    rcases hx with rfl | rfl | hx
    · exact (defined_of_operandOf hr).imp_right .inl
    · exact (defined_of_operandOf ht).imp_right .inl
    · rcases cmp.arms holds fails with ⟨hfirst, hsecond⟩ | ⟨hfirst, hsecond⟩ <;>
        rw [hfirst] at ih₁ hscope <;> rw [hsecond] at ih₂ <;> grind [scope_advance]
  | @letIn s b e₁ e₂ d? value body s₁ s₂ h₁ _ ih₁ ih₂ =>
    rw [Expr.lookups, mem_append, mem_filter, decide_eq_true_eq] at hx
    rw [Expr.binders, mem_append, mem_cons]
    have hscope : x ∉ e₁.binders → typeIn s₁.scope x = typeIn s.scope x := h₁.typeIn_scope
    rcases hx with hx | ⟨hx, hne⟩
    · refine (ih₁ ?_).imp_right (Or.imp_right .inl)
      rwa [Option.isSome_map]
    · have := ih₂ hx
      rw [scope_bind, typeIn_cons_of_ne hne] at this
      grind
  | @makeClosure s b c e d? regs code s' hregs _ ih =>
    rw [Expr.lookups, mem_filter, decide_eq_true_eq, mem_append] at hx
    rw [Expr.binders, mem_cons]
    obtain ⟨hx | hx, hne⟩ := hx
    · have := defined_of_regsOf hregs hx
      rw [scope_bind, typeIn_cons_of_ne hne] at this
      exact this.imp_right .inl
    · have := ih hx
      rw [scope_advance, scope_bind, typeIn_cons_of_ne hne] at this
      exact this.imp_right (Or.imp_right .inr)
  | callClosure hregs | callDirect hregs | tuple hregs =>
    exact (defined_of_regsOf hregs hx).imp_right .inl
  | @letTuple s bs t e d? code s' _ ih =>
    rw [Expr.lookups, mem_filter, decide_eq_true_eq] at hx
    rw [Expr.binders, mem_append]
    have := ih hx.1
    rw [scope_bindAll, typeIn_append_of_not_mem] at this
    · exact this.imp_right (Or.imp_right .inr)
    · rw [map_reverse, mem_reverse]
      exact hx.2
  | putUnit hr | put hr =>
    rw [mem_singleton.mp hx]
    exact (defined_of_regOf hr).imp_right .inl

/-! ## Failure -/

theorem Lower.bind_eq_error {α β : Type} {x : Lower α} {g : α → Lower β} :
    (x >>= g) s = .error f s' ↔
      x s = .error f s' ∨ ∃ a s₁, x s = .ok a s₁ ∧ g a s₁ = .error f s' := by
  change EStateM.bind x g s = _ ↔ _
  unfold EStateM.bind
  cases x s with
  | ok a s₁ => simp
  | error e s₁ => simp

theorem Lower.look_eq_error {α : Type} {g : LowerState → Outcome α} :
    look g s = .error f s' ↔ g s = .error f ∧ s = s' := by
  unfold look
  cases g s with
  | ok b => simp
  | error e => simp

/-- A failure at one of some names, which is neither reserved nor in scope. -/
def Undefined (s : LowerState) (names : List String) (f : Failure) : Prop :=
  ∃ x ∈ names, isReservedName x = false ∧ typeIn s.scope x = none ∧ f = .undefinedVariable x s.body

theorem Undefined.of_part {s₁ : LowerState} {names names₁ : List String}
    (h : Undefined s₁ names₁ f) (hbody : s₁.body = s.body)
    (hpart : ∀ x ∈ names₁, typeIn s₁.scope x = none → x ∈ names ∧ typeIn s.scope x = none) :
    Undefined s names f := by
  obtain ⟨x, hx, hreserved, hscope, rfl⟩ := h
  obtain ⟨hmem, hnone⟩ := hpart x hx hscope
  exact ⟨x, hmem, hreserved, hnone, by rw [hbody]⟩

theorem undefined_of_regOf (h : s.regOf x = .error f) (hx : x ∈ xs) : Undefined s xs f := by
  refine ⟨x, hx, ?_⟩
  cases hx : isReservedName x with
  | true =>
    have hclass : ∀ y ∈ reservedNames, (reservedClass? y).isSome := by decide
    obtain ⟨c, hc⟩ := Option.isSome_iff_exists.mp (hclass x (contains_iff_mem.mp hx))
    rw [regOf, hc] at h
    cases h
  | false =>
    simp only [regOf, reservedClass?, hx, Bool.false_eq_true, if_false] at h
    cases ht : s.tyOf? x with
    | some t =>
      rw [ht] at h
      cases h
    | none =>
      rw [ht] at h
      exact ⟨rfl, ht, (Except.error.inj h).symm⟩

theorem undefined_of_operandOf (h : s.operandOf x = .error f) (hx : x ∈ xs) :
    Undefined s xs f := by
  simp only [LowerState.operandOf, Outcome.bind_eq_error] at h
  rcases h with h | ⟨_, _, h⟩
  · exact undefined_of_regOf h hx
  · cases h

theorem undefined_of_regsOf (h : s.regsOf xs = .error f) : Undefined s xs f := by
  simp only [LowerState.regsOf, Outcome.bind_eq_error] at h
  rcases h with h | ⟨_, _, h⟩
  · obtain ⟨x, hx, hf⟩ := Outcome.exists_of_mapM_eq_error h
    exact undefined_of_regOf hf hx
  · cases h

theorem LowerState.body_bindAll (s : LowerState) (bs : List Binding) :
    (s.bindAll bs).body = s.body := by
  unfold bindAll
  induction bs generalizing s with
  | nil => rfl
  | cons b bs ih => exact ih _

theorem Lowered.body_eq (h : Lowered s e d? code s') : s'.body = s.body := by
  induction h with
  | cond _ _ _ _ ih₁ ih₂ | letIn _ _ ih₁ ih₂ => exact ih₂.trans ih₁
  | makeClosure _ _ ih => exact ih
  | letTuple _ ih => exact ih.trans (body_bindAll _ _)
  | _ => rfl

theorem typeIn_append_eq_none {bs Γ : List Binding} :
    typeIn (bs ++ Γ) x = none ↔ x ∉ bs.map Binding.name ∧ typeIn Γ x = none := by
  induction bs with
  | nil => simp
  | cons b bs ih =>
    by_cases hx : x = b.name
    · simp [hx, typeIn_cons_self]
    · rw [cons_append, typeIn_cons_of_ne hx, ih]
      simp [hx]

theorem typeIn_cons_eq_none {b : Binding} {Γ : List Binding} :
    typeIn (b :: Γ) x = none ↔ x ≠ b.name ∧ typeIn Γ x = none := by
  rw [← singleton_append, typeIn_append_eq_none, map_singleton, mem_singleton]

/-- Nothing goes out of scope. -/
theorem Lowered.typeIn_eq_none (h : Lowered s e d? code s') (hx : typeIn s'.scope x = none) :
    typeIn s.scope x = none := by
  induction h with
  | unit | simple | callClosure | callDirect | tupleUnused | tuple | getUnused | get | putUnit
  | put => exact hx
  | cond _ _ _ _ ih₁ ih₂ => exact ih₁ (ih₂ hx)
  | letIn _ _ ih₁ ih₂ => exact ih₁ (typeIn_cons_eq_none.mp (ih₂ hx)).2
  | makeClosure _ _ ih => exact (typeIn_cons_eq_none.mp (ih hx)).2
  | letTuple _ ih =>
    have hbound := ih hx
    rw [scope_bindAll] at hbound
    exact (typeIn_append_eq_none.mp hbound).2

theorem undefined_of_lower (h : e.lower d? s = .error f s') :
    Undefined s (e.lookups d?.isSome) f := by
  induction e generalizing d? s s' with
  | unit | int | float | unary | binary | var | externArray => cases h
  | cond cmp y z holds fails ihh ihf =>
    simp only [Expr.lower_cond, Lower.bind_eq_error, look_eq_error, look_eq_ok,
      nextNumber_eq_ok] at h
    obtain ⟨ih₁, ih₂⟩ := cmp.forall_arms (fun e => ∀ {d? : Option Reg} {s s' : LowerState},
      e.lower d? s = .error f s' → Undefined s (e.lookups d?.isSome) f) ihh ihf
    obtain ⟨hmem₁, hmem₂⟩ := cmp.forall_arms (fun e => e.lookups d?.isSome ⊆
        (Expr.cond cmp y z holds fails).lookups d?.isSome)
      (fun x hx => mem_cons_of_mem _ (mem_cons_of_mem _ (mem_append_left _ hx)))
      fun x hx => mem_cons_of_mem _ (mem_cons_of_mem _ (mem_append_right _ hx))
    rcases h with ⟨h, -⟩ | ⟨r, _, ⟨-, rfl⟩, ⟨h, -⟩ | ⟨t, _, ⟨-, rfl⟩, h | ⟨n, _, ⟨rfl, rfl⟩, h |
      ⟨_, s₁, h₁, h | ⟨_, _, _, h⟩⟩⟩⟩⟩
    · exact undefined_of_operandOf h mem_cons_self
    · exact undefined_of_operandOf h (mem_cons_of_mem _ mem_cons_self)
    · cases h
    · exact (ih₁ h).of_part rfl fun x hx hnone => ⟨hmem₁ hx, hnone⟩
    · have h₁ := Lowered.of_lower h₁
      exact (ih₂ h).of_part h₁.body_eq fun x hx hnone => ⟨hmem₂ hx, h₁.typeIn_eq_none hnone⟩
    · cases h
  | letIn b e₁ e₂ ih₁ ih₂ =>
    simp only [Expr.lower, Lower.bind_eq_error, bindVar_eq_ok] at h
    rcases h with h | ⟨value, s₁, h₁, h | ⟨_, _, rfl, h | ⟨_, _, _, h⟩⟩⟩
    · refine (ih₁ h).of_part rfl fun x hx hnone => ⟨mem_append_left _ ?_, hnone⟩
      rwa [Option.isSome_map] at hx
    · cases h
    · have h₁ := Lowered.of_lower h₁
      refine (ih₂ h).of_part h₁.body_eq fun x hx hnone => ?_
      obtain ⟨hne, hnone⟩ := typeIn_cons_eq_none.mp hnone
      exact ⟨mem_append_right _ (mem_filter.mpr ⟨hx, decide_eq_true hne⟩), h₁.typeIn_eq_none hnone⟩
    · cases h
  | makeClosure b c e ih =>
    simp only [Expr.lower, Lower.bind_eq_error, bindVar_eq_ok, look_eq_error, look_eq_ok,
      temp_eq_ok] at h
    -- the closure is in scope where the captured variables are looked up
    have hpart : ∀ {names}, names ⊆ c.captured ++ e.lookups d?.isSome → ∀ x ∈ names,
        typeIn (b :: s.scope) x = none → x ∈ (Expr.makeClosure b c e).lookups d?.isSome ∧
          typeIn s.scope x = none := by
      intro names hnames x hx hnone
      obtain ⟨hne, hnone⟩ := typeIn_cons_eq_none.mp hnone
      exact ⟨mem_filter.mpr ⟨hnames hx, decide_eq_true hne⟩, hnone⟩
    rcases h with h | ⟨_, _, rfl, ⟨h, -⟩ | ⟨_, _, ⟨-, rfl⟩, h | ⟨_, _, ⟨rfl, rfl⟩, h | ⟨_, _, _, h⟩⟩⟩⟩
    · cases h
    · exact (undefined_of_regsOf h).of_part rfl (hpart (subset_append_left _ _))
    · cases h
    · exact (ih h).of_part rfl (hpart (subset_append_right _ _))
    · cases h
  | callClosure g args | callDirect g args =>
    simp only [Expr.lower, Lower.bind_eq_error, look_eq_error] at h
    rcases h with ⟨h, -⟩ | ⟨_, _, _, h⟩
    · exact undefined_of_regsOf h
    · cases h
  | tuple xs =>
    cases d? with
    | none => cases h
    | some d =>
      simp only [Expr.lower, Lower.bind_eq_error, look_eq_error] at h
      rcases h with ⟨h, -⟩ | ⟨_, _, _, h | ⟨_, _, _, h⟩⟩
      · exact undefined_of_regsOf h
      · cases h
      · cases h
  | letTuple bs t e ih =>
    simp only [Expr.lower, Lower.bind_eq_error, forM_bindVar_eq_ok] at h
    rcases h with h | ⟨_, _, rfl, h | ⟨_, _, _, h⟩⟩
    · cases h.symm.trans ((forM_bindVar_eq_ok (u := ⟨⟩)).mpr rfl)
    · refine (ih h).of_part (body_bindAll s bs) fun x hx hnone => ?_
      rw [scope_bindAll, typeIn_append_eq_none, map_reverse, mem_reverse] at hnone
      obtain ⟨hne, hnone⟩ := hnone
      exact ⟨mem_filter.mpr ⟨hx, decide_eq_true hne⟩, hnone⟩
    · cases h
  | get a i => cases d? <;> cases h
  | put a i v =>
    simp only [Expr.lower, Lower.bind_eq_error, look_eq_error] at h
    rcases h with ⟨h, -⟩ | ⟨r?, _, _, h⟩
    · exact undefined_of_regOf h mem_cons_self
    · cases r? <;> cases h

theorem exists_lowered (h : ∀ x ∈ e.lookups d?.isSome, (typeIn s.scope x).isSome) :
    ∃ code s', Lowered s e d? code s' := by
  cases hl : e.lower d? s with
  | ok code s' => exact ⟨code, s', .of_lower hl⟩
  | error f s' =>
    obtain ⟨x, hx, _, hnone, _⟩ := undefined_of_lower hl
    cases hnone ▸ h x hx

/-! ## Bodies -/

/-- What the lowering of a body says about the names that it looks up: if it succeeds, each is
reserved, in the head of the body or bound in it, and otherwise it names one that is neither
reserved nor in the head. -/
def ReportsUndefined (body : String) (head : List Binding) (e : Expr) (wanted : Bool) :
    EStateM.Result Failure LowerState Code → Prop
  | .ok _ _ => ∀ x ∈ e.lookups wanted,
      isReservedName x = true ∨ x ∈ head.map Binding.name ∨ x ∈ e.binders
  | .error f _ => ∃ x ∈ e.lookups wanted,
      isReservedName x = false ∧ x ∉ head.map Binding.name ∧ f = .undefinedVariable x body

theorem isSome_typeIn_iff {Γ : List Binding} : (typeIn Γ x).isSome ↔ x ∈ Γ.map Binding.name := by
  rw [← not_iff_not, Option.not_isSome_iff_eq_none, ← append_nil Γ, typeIn_append_eq_none, append_nil]
  exact and_iff_left rfl

theorem reportsUndefined (head : List Binding) (e : Expr) (d? : Option Reg) (wrap : Code → Code)
    (hs : s.scope = head.reverse) : ReportsUndefined s.body head e d?.isSome
      ((e.lower d? >>= fun code => pure (wrap code) : Lower Code) s) := by
  have hhead : ∀ x, (typeIn s.scope x).isSome ↔ x ∈ head.map Binding.name := fun x => by
    rw [isSome_typeIn_iff, hs, map_reverse, mem_reverse]
  cases h : e.lower d? s with
  | ok code s' =>
    have hok : (e.lower d? >>= fun code => pure (wrap code) : Lower Code) s = .ok (wrap code) s' :=
      Lower.bind_eq_ok.mpr ⟨code, s', h, rfl⟩
    rw [hok]
    intro x hx
    rw [← hhead]
    exact (Lowered.of_lower h).defined hx
  | error f s' =>
    have herror : (e.lower d? >>= fun code => pure (wrap code) : Lower Code) s = .error f s' :=
      Lower.bind_eq_error.mpr (.inl h)
    rw [herror]
    obtain ⟨x, hx, hreserved, hnone, hf⟩ := undefined_of_lower h
    refine ⟨x, hx, hreserved, fun hmem => ?_, hf⟩
    rw [← hhead, hnone] at hmem
    cases hmem

/-- Of the names that lowering looks up, those that are not defined are reported, and this is the
only way in which the lowering of a body fails. -/
theorem lower_reportsUndefined (d : Definition) (e : Expr) (heapOffset : Word) (s : LowerState) :
    ReportsUndefined d.name (d.binding :: d.params ++ d.captured) d.body d.resultTy.cls?.isSome
      (d.lower s) ∧
    ReportsUndefined topLevelName [] e false (lowerTopLevel e heapOffset s) := by
  constructor
  · unfold Definition.lower
    cases d.resultTy.cls? with
    | some c => exact reportsUndefined (s := LowerState.advance _) _ d.body (some _) _ rfl
    | none => exact reportsUndefined (s := LowerState.mk _ _ _) _ d.body none _ rfl
  · exact reportsUndefined (s := LowerState.mk _ _ _) [] e none _ rfl

/-- The second operand of the sum is nowhere bound. -/
def strayOperand : Expr :=
  .letIn ⟨"a", .int⟩ (.int 1) (.letIn ⟨"b", .int⟩ (.binary .add "a" "nowhere")
    (.callDirect "print_int" ["b"]))

/-- A variable that is nowhere bound is lowered without a report as an operand of a sum. -/
theorem lower_strayOperand : "nowhere" ∈ strayOperand.free ∧ isReservedName "nowhere" = false ∧
    ∃ code s', lowerTopLevel strayOperand 0 {} = .ok code s' :=
  ⟨by decide, by decide, _, _, rfl⟩

end ClosureCodegen
