import ClosureCodegen.Proofs.Lowering.Delivery
import ClosureCodegen.Proofs.Lowering.Labels
import ClosureCodegen.Proofs.Lowering.Undefined

/-!
# Lowering keeps the meaning

The code of an expression, run from a machine that holds the values of its free variables, shows
what evaluating the expression shows, and the last thing it does is to deliver the value.

The induction is over the shape of lowered code.  The code stands somewhere in a body, and what is
around it matters only through its labels: no label behind it may have a number that the code uses.

* `Lowered.runs`: the run of lowered code.
* `lower_runs_eval`: the theorem about lowering.
-/

namespace ClosureCodegen
open List

variable {Γ : List Binding} {fails e : Expr} {k : Option RegClass} {cmp : Comparison} {x y : String}
  {c : RegClass} {s : LowerState} {xs : List String} {regs : List Reg} {env : Environment}
  {full rest : Code} {m : Machine} {d? : Option Reg}

theorem Comparison.mem_binders_arms (cmp : Comparison) (x y : String) (holds fails : Expr) :
    ∀ z, z ∈ (cmp.firstArm holds fails).binders ∨ z ∈ (cmp.secondArm holds fails).binders →
      z ∈ (Expr.cond cmp x y holds fails).binders := by
  intro z hz
  rw [Expr.binders, mem_append]
  rcases cmp.arms holds fails with ⟨hfirst, hsecond⟩ | ⟨hfirst, hsecond⟩ <;>
    rw [hfirst, hsecond] at hz
  · exact hz
  · exact hz.symm

/-! ## Where an expression can run -/

/-- The scope of a lowering and a machine fit the scope and the valuation of an evaluation. -/
structure Ready (scope Γ : List Binding) (e : Expr) (ρ : Valuation) (m : Machine) : Prop where
  named : WellNamed e
  scope : ∀ x ∈ e.free, typeIn scope x = typeIn Γ x
  literals : NoNegativeZero e
  holds : Holds m Γ ρ e.free

namespace Ready

variable {scope scope' : List Binding} {e' e₁ e₂ : Expr} {ρ : Valuation} {m' : Machine}
  {b : Binding} {bound : List String} {h : Heap} {shown es : List Event} {v : Word}

theorem part (hr : Ready scope Γ e ρ m) (hnamed : WellNamed e')
    (hfree : ∀ x ∈ e'.free, x ∈ e.free) (hlit : ∀ v ∈ e'.literals, v ∈ e.literals)
    (hscope : ∀ x ∈ e.free, typeIn scope' x = typeIn scope x) : Ready scope' Γ e' ρ m where
  named := hnamed
  scope x hx := (hscope x (hfree x hx)).trans (hr.scope x (hfree x hx))
  literals v hv := hr.literals v (hlit v hv)
  holds x hx := hr.holds x (hfree x hx)

/-- The arms of a conditional. The second is lowered in the scope that the first has left. -/
theorem arms {holds : Expr} (hr : Ready scope Γ (.cond cmp x y holds fails) ρ m)
    (hscope : ∀ z ∉ (cmp.firstArm holds fails).binders, typeIn scope' z = typeIn scope z) :
    Ready scope Γ (cmp.firstArm holds fails) ρ m ∧ Ready scope' Γ (cmp.secondArm holds fails) ρ m := by
  have hholds : ∀ {Δ}, (∀ z ∉ fails.binders, typeIn Δ z = typeIn scope z) → Ready Δ Γ holds ρ m :=
    fun hΔ => hr.part hr.named.holds (fun z hz => by simp [Expr.free, hz])
      (fun _ hv => mem_append_left _ hv) fun z hz => hΔ z fun hb =>
        hr.named.apart z (mem_append_right _ hb) hz
  have hfails : ∀ {Δ}, (∀ z ∉ holds.binders, typeIn Δ z = typeIn scope z) → Ready Δ Γ fails ρ m :=
    fun hΔ => hr.part hr.named.fails (fun z hz => by simp [Expr.free, hz])
      (fun _ hv => mem_append_right _ hv) fun z hz => hΔ z fun hb =>
        hr.named.apart z (mem_append_left _ hb) hz
  rcases cmp.arms holds fails with ⟨hfirst, hsecond⟩ | ⟨hfirst, hsecond⟩
  · rw [hfirst] at hscope
    rw [hfirst, hsecond]
    exact ⟨hholds fun _ _ => rfl, hfails hscope⟩
  · rw [hfirst] at hscope
    rw [hfirst, hsecond]
    exact ⟨hfails fun _ _ => rfl, hholds hscope⟩

theorem letValue (hr : Ready scope Γ (.letIn b e₁ e₂) ρ m) : Ready scope Γ e₁ ρ m :=
  hr.part hr.named.letValue (fun _ hz => mem_append_left _ hz)
    (fun _ hv => mem_append_left _ hv) fun _ _ => rfl

/-- What is free in an expression is kept by code that writes names the expression binds. -/
theorem holds_after (hr : Ready scope Γ e ρ m) (hreach : Reaches bound h shown m es m')
    (hbound : ∀ x ∈ bound, x ∈ e.binders) : Holds m' Γ ρ e.free := by
  refine hreach.holds hr.holds fun x hx => ⟨fun hb => ?_, hr.named.plain x (.inr hx)⟩
  exact hr.named.apart x (hbound x hb) hx

theorem bind (hr : Ready scope Γ e ρ m) (hnamed : WellNamed e')
    (hfree : ∀ x ∈ e'.free, x ≠ b.name → x ∈ e.free) (hlit : ∀ v ∈ e'.literals, v ∈ e.literals)
    (hscope : ∀ x ∈ e.free, typeIn scope' x = typeIn scope x)
    (hreach : Reaches bound h shown m es m') (hbound : ∀ x ∈ bound, x ∈ e.binders)
    (hv : ∀ c, b.ty.cls? = some c → m'.regs ⟨b.name, c⟩ = v) :
    Ready (b :: scope') (b :: Γ) e' (ρ.set b.name v) m' where
  named := hnamed
  scope x hx := by
    by_cases hxb : x = b.name
    · rw [hxb, typeIn_cons_self, typeIn_cons_self]
    · have hxe := hfree x hx hxb
      rw [typeIn_cons_of_ne hxb, typeIn_cons_of_ne hxb, hscope x hxe, hr.scope x hxe]
  literals v hv := hr.literals v (hlit v hv)
  holds x hx c hc := by
    by_cases hxb : x = b.name
    · subst hxb
      rw [classIn, typeIn_cons_self] at hc
      rw [hv c hc, Valuation.set, if_pos rfl]
    · rw [classIn_congr (typeIn_cons_of_ne hxb Γ)] at hc
      rw [Valuation.set, if_neg hxb]
      exact hr.holds_after hreach hbound x (hfree x hx hxb) c hc

end Ready

/-! ## Taking tuples apart -/

section Tuples

variable {bs : List Binding}

theorem map_name_bindingRegs (bs : List Binding) :
    (bindingRegs bs).map Reg.name = bindingOrder bs := by
  have hclass : ∀ c, ((bs.filterMap fun b => b.ty.cls?.map (Reg.mk b.name)).filter (·.cls = c)).map
      Reg.name = (bs.filter fun b => b.ty.cls? = some c).map Binding.name := fun c => by
    induction bs with
    | nil => rfl
    | cons b bs ih =>
      cases hb : b.ty.cls? with
      | none => simpa [hb] using ih
      | some k =>
        by_cases hk : k = c
        · subst hk
          simpa [hb] using ih
        · simpa [hb, hk] using ih
  rw [bindingRegs, integersFirst, map_append, hclass, hclass]
  rfl

theorem mem_bindingRegs {r : Reg} :
    r ∈ bindingRegs bs ↔ ∃ b ∈ bs, b.name = r.name ∧ b.ty.cls? = some r.cls := by
  have hmem : r ∈ bs.filterMap (fun b => b.ty.cls?.map (Reg.mk b.name)) ↔
      ∃ b ∈ bs, b.name = r.name ∧ b.ty.cls? = some r.cls := by
    rw [mem_filterMap]
    refine exists_congr fun b => and_congr_right fun _ => ?_
    rw [Option.map_eq_some_iff]
    constructor
    · rintro ⟨c, hc, rfl⟩
      exact ⟨rfl, hc⟩
    · rintro ⟨hn, hc⟩
      exact ⟨r.cls, hc, by rw [hn]⟩
  rw [bindingRegs, integersFirst, mem_append, mem_filter, mem_filter, ← hmem]
  rcases r with ⟨x, c⟩
  cases c <;> simp

variable {scope : List Binding} {ρ : Valuation} {t : String}

theorem does_loadFields (hr : Ready scope Γ (.letTuple bs t e) ρ m) (ht : classIn Γ t = some .int) :
    Does env full (bs.map Binding.name) (loadFields (.int t) (bindingRegs bs)) rest m m.heap []
      (m.setFields (ρ t) 0 (bindingRegs bs)) := by
  have hname : ∀ r ∈ bindingRegs bs, r.name ∈ (Expr.letTuple bs t e).binders := fun r hmem => by
    obtain ⟨b, hb, hn, _⟩ := mem_bindingRegs.mp hmem
    exact mem_append_left _ (hn ▸ mem_map_of_mem hb)
  have htfree : t ∈ (Expr.letTuple bs t e).free := mem_cons_self
  have hbase : (.int t : Reg) ∉ bindingRegs bs := fun hmem =>
    hr.named.apart t (hname _ hmem) htfree
  have hheap : heapReg ∉ bindingRegs bs := fun hmem => by
    have := (hr.named.plain _ (.inl (hname _ hmem))).1
    rw [show isReservedName heapReg.name = true from isReserved_heapReg] at this
    cases this
  have hget : m.get (.int t) = ρ t :=
    (m.get_var _ (hr.named.plain t (.inr htfree)).1).trans (hr.holds t htfree _ ht)
  have hruns : Runs env full (loadFields (.int t) (bindingRegs bs) ++ rest) m _ rest _ :=
    runs_loadFields hbase hheap
  rw [hget] at hruns
  refine ⟨[], ⟨?_, rfl, fun r _ _ hn => regs_setFields_of_not_mem fun hmem => hn ?_⟩, hruns⟩
  · exact Machine.heap_eq (memory_setFields _ _ _) (regs_setFields_of_not_mem hheap)
  · obtain ⟨b, hb, hname, _⟩ := mem_bindingRegs.mp hmem
    exact hname ▸ mem_map_of_mem hb

theorem Ready.tupleBody (hr : Ready scope Γ (.letTuple bs t e) ρ m) :
    Ready (bs.reverse ++ scope) (bs.reverse ++ Γ) e
      (ρ.setFields m.memory (ρ t) 0 (bindingOrder bs)) (m.setFields (ρ t) 0 (bindingRegs bs)) := by
  have hnodup : (bs.reverse.map Binding.name).Nodup := by
    rw [map_reverse, nodup_reverse]
    exact (nodup_append.mp hr.named.nodup).1
  have hfree : ∀ x ∈ e.free, x ∉ bs.map Binding.name → x ∈ (Expr.letTuple bs t e).free :=
    fun x hx hn => mem_cons_of_mem _ (mem_filter.mpr ⟨hx, decide_eq_true hn⟩)
  have houter : ∀ {x}, x ∉ bs.map Binding.name → ∀ Δ, typeIn (bs.reverse ++ Δ) x = typeIn Δ x :=
    fun hn => typeIn_append_of_not_mem (by rwa [map_reverse, mem_reverse])
  have hinner : ∀ {b}, b ∈ bs → ∀ Δ, typeIn (bs.reverse ++ Δ) b.name = some b.ty := fun hb =>
    typeIn_append_of_mem hnodup (mem_reverse.mpr hb)
  refine ⟨hr.named.tupleBody, fun x hx => ?_, hr.literals, fun x hx c hc => ?_⟩
  · by_cases hxb : x ∈ bs.map Binding.name
    · obtain ⟨b, hb, rfl⟩ := mem_map.mp hxb
      rw [hinner hb, hinner hb]
    · rw [houter hxb, houter hxb, hr.scope x (hfree x hx hxb)]
  · rw [← map_name_bindingRegs]
    refine regs_setFields (fun r hmem hn => ?_) fun hnot => ?_
    · obtain ⟨b, hb, hname, hcls⟩ := mem_bindingRegs.mp hmem
      rw [← hn, ← hname, classIn, hinner hb, Option.bind_some, hcls] at hc
      exact Option.some.inj hc
    · by_cases hxb : x ∈ bs.map Binding.name
      · obtain ⟨b, hb, rfl⟩ := mem_map.mp hxb
        rw [classIn, hinner hb, Option.bind_some] at hc
        have hmem : (⟨b.name, c⟩ : Reg) ∈ bindingRegs bs := mem_bindingRegs.mpr ⟨b, hb, rfl, hc⟩
        exact absurd (mem_map_of_mem hmem) hnot
      · rw [classIn_congr (houter hxb Γ)] at hc
        exact hr.holds x (hfree x hx hxb) c hc

end Tuples

/-! ## The run of lowered code -/

namespace Ready

variable {scope : List Binding} {ρ : Valuation}

theorem unreserved (hr : Ready scope Γ e ρ m) (hx : x ∈ e.free) : isReservedName x = false :=
    (hr.named.plain x (.inr hx)).1

theorem get_eq (hr : Ready scope Γ e ρ m) (hx : x ∈ e.free) (hc : classIn Γ x = some c) :
    m.get ⟨x, c⟩ = ρ x :=
  (m.get_var c (hr.unreserved hx)).trans (hr.holds x hx c hc)

/-- The registers that are found for variables have their values, in the order of a record. -/
theorem map_get (hr : Ready s.scope Γ e ρ m) (hxs : ∀ x ∈ xs, x ∈ e.free)
    (h : s.regsOf xs = .ok regs) : regs.map m.get = (fieldOrder Γ xs).map ρ := by
  have hres : ∀ x ∈ xs, isReservedName x = false := fun x hx => hr.unreserved (hxs x hx)
  rw [regsOf_eq_ok hres (fun x hx => hr.scope x (hxs x hx)) h]
  exact Holds.map_get (fun x hx => hr.holds x (hxs x hx)) hres

theorem plain_regs (hr : Ready s.scope Γ e ρ m) (hxs : ∀ x ∈ xs, x ∈ e.free)
    (h : s.regsOf xs = .ok regs) :
    ∀ r ∈ regs, isReservedName r.name = false ∧ ¬Temporary r.name := by
  have hres : ∀ x ∈ xs, isReservedName x = false := fun x hx => hr.unreserved (hxs x hx)
  rw [regsOf_eq_ok hres (fun x hx => hr.scope x (hxs x hx)) h]
  exact fun r hmem => hr.named.plain _ (.inr (hxs _ (mem_fieldRegs.mp hmem).1))

theorem element (hr : Ready scope Γ e ρ m) {array index : String} (ha : array ∈ e.free)
    (hac : classIn Γ array = some .int) (hi : index ∈ e.free) (hic : classIn Γ index = some .int)
    {scaled address : Reg} (hs : Temporary scaled.name) (hd : Temporary address.name) :
    ∃ m', m'.get address = elementOf (ρ array) (ρ index) ∧
      Does env full [] (elementAddress scaled address array index) rest m m.heap [] m' := by
  rw [← hr.holds array ha _ hac, ← hr.holds index hi _ hic]
  obtain ⟨harray, hplain⟩ := hr.named.plain array (.inr ha)
  have hscaled := Reaches.setTemp hs (4 * m.regs (.int index)) m
  have haddress := Reaches.setTemp hd (elementOf (m.regs (.int array)) (m.regs (.int index)))
    (m.set scaled (4 * m.regs (.int index)))
  rw [hscaled.heap] at haddress
  refine ⟨_, ?_, [], hscaled.trans haddress,
    runs_elementAddress harray (hr.unreserved hi) hs hd hplain⟩
  exact (Machine.get_var _ _ hd.isReservedName).trans (Machine.regs_set_self _ _ _)

/-- What a closure captures is read like the fields of a tuple, once the closure has its place. -/
theorem captured {b : Binding} {c : Closure} (hr : Ready scope Γ (.makeClosure b c e) ρ m)
    (hb : b.ty.cls? = some .int) (v : Word) :
    Ready (b :: scope) (b :: Γ) (.tuple c.captured) (ρ.set b.name v) (m.set (.int b.name) v) := by
  have hname : b.name ∈ (Expr.makeClosure b c e).binders := mem_cons_self
  have hfree : ∀ x ∈ c.captured, x ≠ b.name → x ∈ (Expr.makeClosure b c e).free := fun x hx hne =>
    mem_filter.mpr ⟨mem_append_left _ hx, decide_eq_true hne⟩
  have hnamed : WellNamed (.tuple c.captured) := by
    refine ⟨nodup_nil, fun x hx => absurd hx not_mem_nil, fun x hx => ?_⟩
    have hx : x ∈ c.captured := hx.resolve_left not_mem_nil
    by_cases hxb : x = b.name
    · exact hr.named.plain x (.inl (hxb ▸ hname))
    · exact hr.named.plain x (.inr (hfree x hx hxb))
  refine hr.bind hnamed hfree (fun _ hv => absurd hv not_mem_nil) (fun _ _ => rfl)
    (.setVar (hr.named.plain _ (.inl hname)).1 .int v m)
    (fun x hx => by rw [mem_singleton.mp hx]; exact hname) fun k hk => ?_
  rw [hb] at hk
  cases hk
  exact Machine.regs_set_self _ _ _

end Ready

theorem conditional_append (branch : Instr) (n : Nat) (fall taken rest : Code) :
    conditional branch n fall taken ++ rest = branch :: (fall ++ .jump (endifLabel n) ::
      .labelled (thenLabel n) :: (taken ++ .labelled (endifLabel n) :: rest)) := by
  simp [conditional]

theorem delivers_conditional {fall taken : Code} {lo n mid hi : Nat} {bound : List String}
    {v w : Evaluation}
    (hs : conditional (cmp.branch ⟨x, c⟩ ⟨y, c⟩ (thenLabel n)) n fall taken ++ rest <:+ full)
    (hn : lo < n) (hfall : Structured n mid fall) (htaken : Structured mid hi taken)
    (hrest : LabelsApart lo hi rest)
    (hv : ∀ rest', fall ++ rest' <:+ full → LabelsApart n mid rest' →
      Delivers env full bound fall rest' m d? v)
    (hw : ∀ rest', taken ++ rest' <:+ full → LabelsApart mid hi rest' →
      Delivers env full bound taken rest' m d? w) :
    Delivers env full bound
      (conditional (cmp.branch ⟨x, c⟩ ⟨y, c⟩ (thenLabel n)) n fall taken) rest m d?
      (if cmp.holds env c (m.get ⟨x, c⟩) (m.get ⟨y, c⟩) ^^ cmp.takesElse then w else v) := by
  have hle₁ := hfall.le
  have hle₂ := htaken.le
  obtain ⟨hthen, hend⟩ := codeAfter?_conditional hs hn hfall htaken hrest
  obtain ⟨op, f, r, t, hbranch, hop, htest⟩ := cmp.branch_eq env x y c (thenLabel n)
  rw [← htest m]
  rw [hbranch, conditional_append] at hs
  have hfallen := (suffix_cons _ _).trans hs
  have htaken' : taken ++ .labelled (endifLabel n) :: rest <:+ full :=
    ((suffix_cons _ _).trans ((suffix_cons _ _).trans (suffix_append _ _))).trans
      hfallen
  have hbehind : LabelsApart n hi (.labelled (endifLabel n) :: rest) :=
    .labelled ⟨n, hn, Nat.le_refl n, .inr rfl⟩ (Nat.le_refl n)
      (hrest.mono (Nat.le_of_lt hn) (Nat.le_refl hi))
  cases ht : f (m.get r) (m.get t) with
  | true =>
    have hb : Runs env full (conditional (cmp.branch ⟨x, c⟩ ⟨y, c⟩ (thenLabel n)) n fall taken ++
        rest) m [.branch true] (taken ++ .labelled (endifLabel n) :: rest) m := by
      rw [hbranch, conditional_append, ← ht]
      exact .branch hop (by rw [ht]; exact hthen)
    exact .behindBranch hb (hw _ htaken' (hbehind.mono hle₁ (Nat.le_refl hi)))
      fun m' => .label _
  | false =>
    have hb : Runs env full (conditional (cmp.branch ⟨x, c⟩ ⟨y, c⟩ (thenLabel n)) n fall taken ++
        rest) m [.branch false] (fall ++ .jump (endifLabel n) :: .labelled (thenLabel n) ::
          (taken ++ .labelled (endifLabel n) :: rest)) m := by
      rw [hbranch, conditional_append, ← ht]
      exact .branch hop (by rw [ht]; rfl)
    have hapart : LabelsApart n mid (.jump (endifLabel n) :: .labelled (thenLabel n) ::
        (taken ++ .labelled (endifLabel n) :: rest)) :=
      .labelled ⟨n, hn, Nat.le_refl n, .inl rfl⟩ (Nat.le_refl n)
        (.append htaken (hbehind.mono (Nat.le_refl n) hle₂))
    exact .behindBranch hb (hv _ hfallen hapart) fun m' => .jump hend

/-- The code that an expression is lowered to delivers its value, in any state that is ready for it. -/
def IsDelivered (env : Environment) (full : Code) (s : LowerState) (e : Expr) (d? : Option Reg)
    (code : Code) (s' : LowerState) : Prop :=
  ∀ ⦃Γ k ρ m rest⦄, HasClass Γ e k → d?.map Reg.cls = k → Ready s.scope Γ e ρ m →
    code ++ rest <:+ full → LabelsApart s.counter s'.counter rest →
    Delivers env full e.binders code rest m d? (e.eval env Γ ρ m.heap)

namespace IsDelivered

variable {s₁ s₂ s' : LowerState} {holds e₁ e₂ : Expr} {b : Binding} {c : Closure} {r t : Reg}
  {fall taken value body code : Code} {a i v : String}

theorem cond (hx : s.operandOf x = .ok r) (hy : s.operandOf y = .ok t)
    (h₁ : Lowered s.advance (cmp.firstArm holds fails) d? fall s₁)
    (h₂ : Lowered s₁ (cmp.secondArm holds fails) d? taken s₂)
    (ih₁ : IsDelivered env full s.advance (cmp.firstArm holds fails) d? fall s₁)
    (ih₂ : IsDelivered env full s₁ (cmp.secondArm holds fails) d? taken s₂) :
    IsDelivered env full s (.cond cmp x y holds fails) d?
      (conditional (cmp.branch r t (thenLabel (s.counter + 1))) (s.counter + 1) fall taken) s₂ := by
  intro Γ k ρ m rest hc hk hr hs hrest
  cases hc with
  | @cond _ _ _ _ _ _ c _ hxc hyc hholds hfails =>
  have hxf : x ∈ (Expr.cond cmp x y holds fails).free := mem_cons_self
  have hyf : y ∈ (Expr.cond cmp x y holds fails).free := mem_cons_of_mem x mem_cons_self
  have hrx : r = ⟨x, c⟩ := operandOf_eq_ok (hr.unreserved hxf) (hr.scope x hxf) hxc hx
  have hty : t = ⟨y, c⟩ := operandOf_eq_ok (hr.unreserved hyf) (hr.scope y hyf) hyc hy
  subst hrx hty
  have hscope : ∀ z ∉ (cmp.firstArm holds fails).binders, typeIn s₁.scope z = typeIn s.scope z :=
    fun z hz => h₁.typeIn_scope hz
  rw [Expr.eval_cond cmp x y holds fails env hxc, ← hr.get_eq hxf hxc, ← hr.get_eq hyf hyc]
  obtain ⟨hc₁, hc₂⟩ := cmp.forall_arms (HasClass Γ · k) hholds hfails
  obtain ⟨hr₁, hr₂⟩ := hr.arms hscope
  have hb := cmp.mem_binders_arms x y holds fails
  exact delivers_conditional hs (Nat.lt_succ_self _) h₁.structured h₂.structured hrest
    (fun rest' hsuf hap => (ih₁ hc₁ hk hr₁ hsuf hap).mono fun z hz => hb z (.inl hz))
    (fun rest' hsuf hap => (ih₂ hc₂ hk hr₂ hsuf hap).mono fun z hz => hb z (.inr hz))

theorem letIn (h₁ : Lowered s e₁ (b.ty.cls?.map (Reg.mk b.name)) value s₁)
    (h₂ : Lowered (s₁.bind b) e₂ d? body s₂)
    (ih₁ : IsDelivered env full s e₁ (b.ty.cls?.map (Reg.mk b.name)) value s₁)
    (ih₂ : IsDelivered env full (s₁.bind b) e₂ d? body s₂) :
    IsDelivered env full s (.letIn b e₁ e₂) d? (value ++ body) s₂ := by
  intro Γ k ρ m rest hc hk hr hs hrest
  cases hc with
  | letIn hc₁ hc₂ =>
  rw [append_assoc] at hs
  have hle₁ := h₁.structured.le
  have hle₂ := h₂.structured.le
  have hbinder : b.name ∈ (Expr.letIn b e₁ e₂).binders :=
    mem_append_right _ mem_cons_self
  have hvalue := ih₁ hc₁ (by cases b.ty.cls? <;> rfl) hr.letValue hs
    (.append h₂.structured (hrest.mono (Nat.le_refl _) hle₂))
  obtain ⟨m₁, hreg, hdoes⟩ := hvalue.toVar (hr.named.plain _ (.inl hbinder)).1
  obtain ⟨_, hreach, _⟩ := id hdoes
  have hbound : ∀ x ∈ e₁.binders ++ [b.name], x ∈ (Expr.letIn b e₁ e₂).binders := by
    simp only [Expr.binders, mem_append, mem_cons, not_mem_nil, or_false]
    rintro x (hx | hx)
    · exact .inl hx
    · exact .inr (.inl hx)
  have hready := hr.bind hr.named.letBody (fun x hx hne => mem_append_right _
    (mem_filter.mpr ⟨hx, decide_eq_true hne⟩)) (fun _ hv => mem_append_right _ hv)
    (fun x hx => h₁.typeIn_scope fun hb => hr.named.apart x (mem_append_left _ hb) hx)
    hreach hbound hreg
  have hbody := ih₂ hc₂ hk hready ((suffix_append _ _).trans hs)
    (hrest.mono hle₁ (Nat.le_refl _))
  rw [hreach.heap] at hbody
  refine (hdoes.delivers hbody).mono fun x hx => ?_
  rcases mem_append.mp hx with hx | hx
  · exact hbound x hx
  · exact mem_append_right _ (mem_cons_of_mem _ hx)

theorem makeClosure (hregs : (s.bind b).regsOf c.captured = .ok regs)
    (ih : IsDelivered env full (s.bind b).advance e d? code s') :
    IsDelivered env full s (.makeClosure b c e) d?
      (closureCode (.int b.name) (tempReg "makecls" (s.counter + 1) .int) c.entry regs ++ code)
      s' := by
  intro Γ k ρ m rest hc hk hr hs hrest
  cases hc with
  | makeClosure hb hcaptured hce =>
  rw [append_assoc] at hs
  obtain ⟨hres, htemp⟩ := hr.named.plain b.name (.inl mem_cons_self)
  have hcapt : Ready (s.bind b).scope (b :: Γ) (.tuple c.captured) _ _ :=
    hr.captured hb m.heap.top
  have hclosure : ∃ m₁, m₁.regs (.int b.name) = m.heap.top ∧
      Does env full [b.name] (closureCode (.int b.name) (tempReg "makecls" (s.counter + 1) .int)
        c.entry regs) (code ++ rest) m _ _ m₁ :=
    does_closure hres htemp (temporary_tempReg _ _ _) (hcapt.plain_regs (fun x hx => hx) hregs)
      (hcapt.map_get (fun x hx => hx) hregs)
  obtain ⟨m₁, hreg, hdoes⟩ := hclosure
  obtain ⟨_, hreach, _⟩ := id hdoes
  have hready := hr.bind hr.named.closureBody (fun x hx hne => mem_filter.mpr
    ⟨mem_append_right _ hx, decide_eq_true hne⟩) (fun _ hv => hv) (fun _ _ => rfl)
    hreach (fun x hx => mem_cons.mpr (.inl (mem_singleton.mp hx)))
    (fun k hk => by rw [hb] at hk; cases hk; exact hreg)
  have hbody := ih hce hk hready ((suffix_append _ _).trans hs)
    (hrest.mono (Nat.le_succ _) (Nat.le_refl _))
  rw [hreach.heap] at hbody
  exact hdoes.delivers hbody

theorem put (hv : s.regOf v = .ok (some r)) :
    IsDelivered env full s (.put a i v) d?
      (elementAddress (tempReg "put" (s.counter + 1) .int) (tempReg "put" (s.counter + 2) .int) a i
        ++ [.store (tempReg "put" (s.counter + 2) .int) r 0]) s.advance.advance := by
  intro Γ k ρ m rest hc hk hr hs hrest
  cases hc with
  | put ha hi _ =>
  have hvf : v ∈ (Expr.put a i v).free := by simp [Expr.free]
  have hcls := (regOf_eq_ok (hr.unreserved hvf) (hr.scope v hvf) hv).2
  obtain ⟨c, hvc, rfl⟩ := Option.map_eq_some_iff.mp hcls.symm
  obtain ⟨m₁, hget, hdoes⟩ := hr.element mem_cons_self ha
    (mem_cons_of_mem a mem_cons_self) hi (temporary_tempReg "put" (s.counter + 1) .int)
    (temporary_tempReg "put" (s.counter + 2) .int)
  obtain ⟨_, hreach, _⟩ := id hdoes
  have hval : m₁.get ⟨v, c⟩ = ρ v := (m₁.get_var c (hr.unreserved hvf)).trans
    (hr.holds_after hreach (fun x hx => absurd hx not_mem_nil) v hvf c hvc)
  rw [Option.map_eq_none_iff.mp hk, Expr.eval, hvc]
  exact (hdoes.trans (does_store hget hval hreach.heap)).nothing 0

end IsDelivered

theorem Lowered.runs {s' : LowerState} {code : Code} (h : Lowered s e d? code s') :
    IsDelivered env full s e d? code s' := by
  induction h with
  | @unit s d? =>
    intro _ _ _ m _ hc hk _ _ _
    cases hc
    rw [Option.map_eq_none_iff.mp hk]
    exact delivers_nil m 0
  | @simple s e d? f hf =>
    intro _ _ _ m _ hc hk hr _ _
    rw [Expr.eval_simple hf]
    cases d? with
    | none => exact delivers_nil m _
    | some d =>
      subst hk
      obtain ⟨hp, hexec⟩ := exec_simple hf hc (fun x hx => hr.unreserved hx) hr.literals hr.holds
      exact delivers_instr hp hexec
  | cond hx hy h₁ h₂ ih₁ ih₂ => exact .cond hx hy h₁ h₂ ih₁ ih₂
  | letIn h₁ h₂ ih₁ ih₂ => exact .letIn h₁ h₂ ih₁ ih₂
  | makeClosure hregs _ ih => exact .makeClosure hregs ih
  | @callClosure s f args d? regs hregs =>
    intro _ _ _ _ _ hc _ hr _ _
    cases hc with
    | callClosure hf hargs =>
    have hvs := hr.map_get (fun x hx => mem_cons_of_mem f hx) hregs
    rw [Expr.eval, ← hr.get_eq mem_cons_self hf]
    exact delivers_call (.closure (.int f)) rfl rfl d? hvs
  | @callDirect s f args d? regs hregs =>
    intro _ _ _ _ _ _ _ hr _ _
    exact delivers_call (.direct f) rfl rfl d? (hr.map_get (fun x hx => hx) hregs)
  | @tupleUnused s xs =>
    intro _ _ _ _ _ hc hk _ _ _
    cases hc
    cases hk
  | @tuple s xs d regs hregs =>
    intro _ _ _ m rest _ _ hr _ _
    have hthis := temporary_tempReg "tuple" (s.counter + 1) .int
    obtain ⟨m₁, hget, hdoes⟩ := does_tuple hthis (hr.plain_regs (fun x hx => hx) hregs)
      (hr.map_get (fun x hx => hx) hregs)
    obtain ⟨_, hreach, _⟩ := id hdoes
    have htuple : Delivers env full [] (tupleCode d _ regs) rest m (some d) _ :=
      hdoes.delivers (delivers_move hget hreach.heap)
    rw [Evaluation.after, append_nil] at htuple
    exact htuple
  | @letTuple s bs t e d? code s' h ih =>
    intro _ _ _ m rest hc hk hr hs hrest
    cases hc with
    | letTuple ht hce =>
    rw [append_assoc] at hs
    have hdoes : Does env full _ (loadFields (.int t) (bindingRegs bs)) (code ++ rest) m _ _ _ :=
      does_loadFields hr ht
    obtain ⟨_, hreach, _⟩ := id hdoes
    simp only [IsDelivered, LowerState.scope_bindAll, LowerState.counter_bindAll] at ih
    have hbody := ih hce hk hr.tupleBody ((suffix_append _ _).trans hs) hrest
    rw [hreach.heap] at hbody
    exact hdoes.delivers hbody
  | @getUnused s a i => exact fun _ _ _ m _ _ _ _ _ _ => delivers_nil m _
  | @get s a i d =>
    intro _ _ _ _ _ hc _ hr _ _
    cases hc with
    | get ha hi =>
    obtain ⟨m₁, hget, hdoes⟩ := hr.element mem_cons_self ha
      (mem_cons_of_mem a mem_cons_self) hi (temporary_tempReg "get" (s.counter + 1) .int)
      (temporary_tempReg "get" (s.counter + 2) .int)
    obtain ⟨_, hreach, _⟩ := id hdoes
    exact hdoes.delivers (delivers_load hget hreach.heap)
  | @putUnit s a i v d? hv =>
    intro _ _ _ m _ hc hk hr _ _
    cases hc
    have hvf : v ∈ (Expr.put a i v).free := by simp [Expr.free]
    have hcls := (regOf_eq_ok (hr.unreserved hvf) (hr.scope v hvf) hv).2
    rw [Option.map_eq_none_iff.mp hk, Expr.eval, Option.map_eq_none_iff.mp hcls.symm]
    exact delivers_nil m 0
  | put hv => exact .put hv

/-! ## The theorem about lowering -/

theorem HasClass.isSome_typeIn (h : HasClass Γ e k) {w : Bool} :
    ∀ x ∈ e.lookups w, (typeIn Γ x).isSome := by
  induction h generalizing w with
  | unit | int | float | externArray | unary | binary | var | get => exact forall_mem_nil _
  | cond hx hy _ _ ihh ihf =>
    rintro z hz
    simp only [Expr.lookups, mem_cons, mem_append] at hz
    rcases hz with rfl | rfl | hz | hz
    · exact isSome_typeIn_of_classIn hx
    · exact isSome_typeIn_of_classIn hy
    · exact ihh z hz
    · exact ihf z hz
  | letIn _ _ ih₁ ih₂ =>
    rintro z hz
    simp only [Expr.lookups, mem_append, mem_filter, decide_eq_true_eq] at hz
    rcases hz with hz | ⟨hz, hne⟩
    · exact ih₁ z hz
    · have := ih₂ z hz
      rwa [typeIn_cons_of_ne hne] at this
  | makeClosure _ hcaptured _ ih =>
    rintro z hz
    simp only [Expr.lookups, mem_filter, mem_append, decide_eq_true_eq] at hz
    have := hz.1.elim (hcaptured z) (ih z)
    rwa [typeIn_cons_of_ne hz.2] at this
  | callClosure _ hargs | callDirect hargs => exact hargs
  | tuple hargs =>
    cases w with
    | true => exact hargs
    | false => exact forall_mem_nil _
  | letTuple _ _ ih =>
    rintro z hz
    simp only [Expr.lookups, mem_filter, decide_eq_true_eq] at hz
    have := ih z hz.1
    rwa [typeIn_append_of_not_mem (by rw [map_reverse, mem_reverse]; exact hz.2)] at this
  | put _ _ hv => exact forall_mem_singleton.mpr hv

theorem Binary64.eq_of_isZero {v : Binary64} (h : v.isZero = true) :
    v = .zero ∨ v = .ofMagnitude true 0 := by
  rcases v with ⟨bits⟩
  have hmag : bits.toNat % 2 ^ 63 = 0 := of_decide_eq_true h
  have hlt := bits.isLt
  have hbits : bits.toNat = 0 ∨ bits.toNat = 2 ^ 63 := by omega
  rcases hbits with hb | hb
  · exact .inl (congrArg Binary64.mk (BitVec.eq_of_toNat_eq hb))
  · exact .inr (congrArg Binary64.mk (BitVec.eq_of_toNat_eq hb))

theorem visible_deliveries (d? : Option Reg) (v : Word) :
    visible (deliveries d? v) = deliveries d? v := by
  cases d? with
  | none => rfl
  | some d =>
    simp only [deliveries, deliveryEvents, Option.toList_some, flatMap_cons, flatMap_nil,
      append_nil]
    split <;> rfl

/-- Lowering keeps the meaning.  An expression with fit names and classes is lowered, and the run of
its code, from any machine that holds the values of its free variables, gets to the end.  The
destination then holds the value, the free variables are as before, and the writes, the claims of
heap and the calls on the way are those of the evaluation.  Only if the destination is the heap
pointer itself, its delivery moves the top of the heap once more. -/
theorem lower_runs_eval (env : Environment) {s : LowerState} {e : Expr} {d? : Option Reg}
    {ρ : Valuation} {m : Machine} (hclass : HasClass s.scope e (d?.map Reg.cls))
    (hnamed : WellNamed e) (hzero : ∀ v ∈ e.literals, v ≠ .ofMagnitude true 0)
    (hdest : ∀ d ∈ d?, d.name ∉ e.free) (hm : Holds m s.scope ρ e.free) :
    let v := e.eval env s.scope ρ m.heap
    ∃ code s' events m', e.lower d? s = .ok code s' ∧ Runs env code code m events [] m' ∧
      (∀ d ∈ d?, m'.regs d = v.value) ∧ (∀ r : Reg, r.name ∈ e.free → m'.regs r = m.regs r) ∧
      visible events = v.events ++ deliveries d? v.value ∧ m'.memory = v.heap.memory ∧
      (heapReg ∉ d? → m'.heap = v.heap) := by
  intro v
  obtain ⟨code, s', hlowered⟩ : ∃ code s', Lowered s e d? code s' :=
    exists_lowered hclass.isSome_typeIn
  have hliterals : NoNegativeZero e := fun v hv hz =>
    (Binary64.eq_of_isZero hz).resolve_right (hzero v hv)
  have hready : Ready s.scope s.scope e ρ m := ⟨hnamed, fun _ _ => rfl, hliterals, hm⟩
  have hsuffix : code ++ [] <:+ code := (append_nil code).symm ▸ suffix_rfl
  have hruns : Delivers env code e.binders code [] m d? v :=
    hlowered.runs hclass rfl hready hsuffix fun l hl => absurd hl not_mem_nil
  obtain ⟨es, m₁, hreach, hruns⟩ := hruns
  rw [append_nil] at hruns
  -- what a delivery leaves alone
  have hother : ∀ r v, r ∉ d? → (m₁.deliver d? v).regs r = m₁.regs r := fun r v hr => by
    cases d? with
    | none => rfl
    | some d => exact Machine.regs_set_of_ne (fun he => hr (congrArg some he.symm)) v
  have hmemory : ∀ v, (m₁.deliver d? v).memory = m₁.memory := fun v => by cases d? <;> rfl
  refine ⟨code, s', _, _, hlowered.lower_eq, hruns, ?_, ?_, ?_, ?_, ?_⟩
  · intro d hd
    cases Option.mem_def.mp hd
    exact Machine.regs_set_self _ _ _
  · intro r hr
    obtain ⟨hres, htemp⟩ := hnamed.plain r.name (.inr hr)
    have hne : r ≠ heapReg := Reg.ne_of_not_isReservedName hres isReserved_heapReg
    rw [hother r _ fun hd => hdest r hd hr]
    exact hreach.frame r hne htemp fun hb => hnamed.apart _ hb hr
  · rw [visible_append, hreach.events, visible_deliveries]
  · rw [hmemory, ← hreach.heap]
    rfl
  · intro hh
    rw [← hreach.heap]
    exact Machine.heap_eq (hmemory _) (hother _ _ hh)

/-! ## An expression with a pair and a conditional -/

def pairScope : List Binding := [⟨"a.1", .array .int⟩, ⟨"i.2", .int⟩, ⟨"x.3", .float⟩]

/-- Builds a pair, and either takes it apart to read an element or makes a call. -/
def pairOrCall : Expr :=
  .letIn ⟨"t.4", .tuple [.float, .array .int]⟩ (.tuple ["x.3", "a.1"])
    (.cond .ne "a.1" "i.2"
      (.letTuple [⟨"y.5", .float⟩, ⟨"b.6", .array .int⟩] "t.4" (.get "b.6" "i.2"))
      (.callDirect "g.7" ["x.3", "i.2"]))

theorem hasClass_pairOrCall : HasClass pairScope pairOrCall (some .int) := by
  refine .letIn (.tuple (by decide)) (.cond (c := .int) (by decide) (by decide) ?_ ?_)
  · exact .letTuple (by decide) (.get (by decide) (by decide))
  · exact .callDirect (by decide)

theorem wellNamed_pairOrCall : WellNamed pairOrCall where
  nodup := by decide
  apart := by decide
  plain x hx := by
    have hall : ∀ y ∈ pairOrCall.binders ++ pairOrCall.free,
        isReservedName y = false ∧ y.toList.head? ≠ some '%' := by decide
    exact hall x (mem_append.mpr hx)

theorem lower_runs_eval_pairOrCall :
    let m := filledMachine 1
    let v := pairOrCall.eval plainEnvironment pairScope (fun _ => 1) m.heap
    ∃ code s' events m',
      pairOrCall.lower (some (.int "r.8")) { scope := pairScope } = .ok code s' ∧
      Runs plainEnvironment code code m events [] m' ∧
      (∀ d ∈ some (Reg.int "r.8"), m'.regs d = v.value) ∧
      (∀ r : Reg, r.name ∈ pairOrCall.free → m'.regs r = m.regs r) ∧
      visible events = v.events ++ deliveries (some (.int "r.8")) v.value ∧
      m'.memory = v.heap.memory ∧ (heapReg ∉ some (Reg.int "r.8") → m'.heap = v.heap) := by
  refine lower_runs_eval (s := { scope := pairScope }) plainEnvironment hasClass_pairOrCall
    wellNamed_pairOrCall (by decide) ?_ fun x hx c _ => ?_
  · intro d hd
    cases Option.mem_def.mp hd
    decide
  · have hres := (wellNamed_pairOrCall.plain x (.inr hx)).1
    exact if_neg (by rw [Reg.isReserved, hres]; exact Bool.false_ne_true)

end ClosureCodegen
