import ClosureCodegen.Program.ConstantRegister
import ClosureCodegen.Proofs.Compilation.Ordinary
import ClosureCodegen.Proofs.Lowering.Names

/-!
# Lowered bodies are ordinary

The names of a program become names of registers and of labels.  Nothing keeps a program from calling
a variable `sp` or a function `then1`; as long as it does not, lowered code leaves the stack pointer
alone, writes to no `x0`, and has for labels those of its conditionals only.  Constant registers come
in by propagation, but only where a variable is read.

* `Definition.isOrdinaryBody_of_lower`: the body of a definition.
* `isOrdinaryBody_lowerTopLevel`: the top-level body.
-/

namespace ClosureCodegen
open List PhysReg Instr

variable {e : Expr} {rs : List Reg} {bs : List Binding} {r base : Reg} {d? : Option Reg}
  {s s' : LowerState} {code : Code} {d : Definition}

/-! ## Names of programs -/

/-- A name that is neither that of a register nor that of a label of a conditional. -/
structure IsProgramName (x : String) : Prop where
  register : ∀ p : PhysReg, x ≠ p.name
  label : ∀ digits : List Char, digits ≠ [] → digits.all Char.isDigit = true →
    x ≠ "then" ++ String.ofList digits ∧ x ≠ "endif" ++ String.ofList digits

def Expr.IsNamed (e : Expr) : Prop := e.Named IsProgramName IsProgramName IsProgramName

structure Definition.IsNamed (d : Definition) : Prop where
  name : IsProgramName d.name
  params : ∀ b ∈ d.params, IsProgramName b.name
  captured : ∀ b ∈ d.captured, IsProgramName b.name
  body : d.body.IsNamed

/-! ## Labels of conditionals -/

theorem Decimal.all_isDigit_toDigits (n : Nat) : (Nat.toDigits 10 n).all Char.isDigit = true :=
  all_eq_true.mpr fun _ hc => Nat.isDigit_of_mem_toDigits (by decide) (by decide) hc

theorem endifOf?_thenLabel (n : Nat) : endifOf? (thenLabel n) = some (endifLabel n) := by
  have hdigits : (Nat.toDigits 10 n).isEmpty = false :=
    isEmpty_eq_false_iff.mpr Nat.toDigits_ne_nil
  have hlist : (thenLabel n).toList = 't' :: 'h' :: 'e' :: 'n' :: Nat.toDigits 10 n := by
    simp [thenLabel, Decimal.natText]
  simp only [endifOf?, hlist, hdigits, Decimal.all_isDigit_toDigits]
  rfl

namespace IsProgramName

variable {x : String}

theorem endifOf? (h : IsProgramName x) : endifOf? x = none := by
  unfold ClosureCodegen.endifOf?
  split
  · next digits hx =>
    split
    · next hd =>
      rw [Bool.and_eq_true, Bool.not_eq_true', isEmpty_eq_false_iff] at hd
      refine absurd (String.toList_injective ?_) (h.label digits hd.1 hd.2).1
      simp [hx]
    · rfl
  · rfl

theorem not_numberedLabel (h : IsProgramName x) (lo hi : Nat) : ¬NumberedLabel lo hi x := by
  rintro ⟨n, -, -, hx⟩
  obtain ⟨ht, he⟩ := h.label _ Nat.toDigits_ne_nil (Decimal.all_isDigit_toDigits n)
  exact hx.elim ht he

theorem isWritable (h : IsProgramName x) (cls : RegClass) : (⟨x, cls⟩ : Reg).IsWritable :=
  Reg.isWritable_iff.mpr ⟨h.register _, h.register _⟩

theorem of_length (hr : ∀ p ∈ PhysReg.all, x ≠ p.name) (hx : x.length < 5) : IsProgramName x where
  register p := hr p (PhysReg.mem_all p)
  label digits hd _ := by
    have hpos := length_pos_iff.mpr hd
    have hlong : 5 ≤ ("then" ++ String.ofList digits).length ∧
        5 ≤ ("endif" ++ String.ofList digits).length := by
      have hthen : "then".length = 4 := rfl
      have hendif : "endif".length = 5 := rfl
      simp only [String.length_append, String.length_ofList]
      omega
    constructor <;> rintro rfl <;> omega

end IsProgramName

/-! ## Structured code is arranged -/

namespace Structured

variable {lo hi : Nat}

theorem arranged (h : Structured lo hi code) (ht : ∀ i ∈ code, i.op ≠ .tailDirect) :
    Arranged (skeleton code) := by
  induction h with
  | nil => exact .nil
  | plain hp _ ih =>
    rw [forall_mem_cons] at ht
    rw [skeleton_cons_none (joint?_eq_none hp ht.1)]
    exact ih ht.2
  | @cond lo n mid hi hi' branch fall taken rest _ hb hl _ _ _ ih₁ ih₂ ih₃ =>
    have hskeleton : skeleton (conditional branch n fall taken ++ rest) =
        .branch (thenLabel n) :: (skeleton fall ++ .jump (endifLabel n) :: .label (thenLabel n) ::
          (skeleton taken ++ .label (endifLabel n) :: skeleton rest)) := by
      simp [conditional, skeleton_cons_some (joint?_of_isBranch hb hl),
        skeleton_cons_some (i := .jump _) rfl, skeleton_cons_some (joint?_labelled _)]
    simp only [conditional, cons_append, append_assoc, forall_mem_cons,
      forall_mem_append] at ht
    obtain ⟨-, hfall, -, -, htaken, -, -, hrest⟩ := ht
    rw [hskeleton]
    refine .cond (endifOf?_thenLabel n) ?_ (ih₁ hfall) (ih₂ htaken) (ih₃ hrest)
    rw [endifOf?, endifLabel, String.toList_append]
    rfl

/-- The numbers of labels grow along the body, so none comes twice. -/
theorem nodup_labelNames (h : Structured lo hi code) : (labelNames code).Nodup := by
  induction h with
  | nil => exact nodup_nil
  | plain hp _ ih =>
    rw [labelNames_cons_of_not_isLabel (isLabel_of_isPlain hp)]
    exact ih
  | @cond lo n mid hi hi' branch fall taken rest hn hb _ h₁ h₂ h₃ ih₁ ih₂ ih₃ =>
    have hle₁ := h₁.le
    have hle₂ := h₂.le
    have hthen : NumberedLabel (n - 1) n (thenLabel n) := ⟨n, by omega, Nat.le_refl n, .inl rfl⟩
    have hendif : NumberedLabel (n - 1) n (endifLabel n) := ⟨n, by omega, Nat.le_refl n, .inr rfl⟩
    have hfall := h₁.numbered
    have htaken : ∀ l ∈ labelNames taken, NumberedLabel n hi l := fun l hl =>
      (h₂.numbered l hl).mono hle₁ (Nat.le_refl hi)
    have hrest : ∀ l ∈ labelNames rest, NumberedLabel n hi' l := fun l hl =>
      (h₃.numbered l hl).mono (Nat.le_trans hle₁ hle₂) (Nat.le_refl hi')
    rw [labelNames_append, labelNames_conditional hb]
    simp only [nodup_append, nodup_cons, mem_append, mem_cons, not_mem_nil,
      or_false, not_false_eq_true, nodup_nil, true_and, and_true]
    refine ⟨⟨⟨ih₁, ⟨?_, ih₂⟩, ?_⟩, ?_⟩, ih₃, ?_⟩
    · exact fun hmem => hthen.disjoint (htaken _ hmem) (Nat.le_refl n)
    · rintro l hl m (rfl | hm) rfl
      · exact hthen.disjoint (hfall _ hl) (Nat.le_refl n)
      · exact (hfall _ hl).disjoint (h₂.numbered _ hm) (Nat.le_refl mid)
    · rintro l (hl | rfl | hl) m rfl
      · exact fun heq => hendif.disjoint (heq ▸ hfall _ hl) (Nat.le_refl n)
      · exact thenLabel_ne_endifLabel n n
      · exact fun heq => hendif.disjoint (heq ▸ htaken _ hl) (Nat.le_refl n)
    · rintro l ((hl | rfl | hl) | rfl) m hm rfl
      · exact ((hfall _ hl).mono (Nat.le_refl n) hle₂).disjoint (h₃.numbered _ hm) (Nat.le_refl hi)
      · exact hthen.disjoint (hrest _ hm) (Nat.le_refl n)
      · exact (h₂.numbered _ hl).disjoint (h₃.numbered _ hm) (Nat.le_refl hi)
      · exact hendif.disjoint (hrest _ hm) (Nat.le_refl n)

end Structured

/-! ## Propagated constants -/

/-- The properties of names that lowering relies on. Constant registers may be read. -/
def Expr.IsLowerable (e : Expr) : Prop :=
  e.Named (fun x => x ≠ PhysReg.stackPointer.name)
    (fun x => x ≠ PhysReg.zero.name ∧ x ≠ PhysReg.stackPointer.name) (fun f => endifOf? f = none)

theorem Expr.constantRegister?_ne {r : PhysReg} (h : e.constantRegister? = some r) :
    r ≠ .stackPointer := by
  cases e with
  | int n =>
    simp only [constantRegister?, Word.constantRegister?] at h
    split_ifs at h <;> cases h <;> decide
  | float v =>
    simp only [constantRegister?, Binary64.constantRegister?] at h
    split_ifs at h <;> cases h <;> decide
  | _ => cases h

/-- No variable stands for the stack pointer. -/
def Aliases.AreConstants (as : Aliases) : Prop := ∀ x r, as.lookup x = some (some r) → r ≠ .stackPointer

namespace Aliases

variable {as : Aliases} {x : String}

theorem areConstants_nil : AreConstants [] := nofun

variable (h : as.AreConstants)
include h

theorem AreConstants.cons {y : String} {r? : Option PhysReg}
    (hr : ∀ r, r? = some r → r ≠ .stackPointer) : AreConstants ((y, r?) :: as) := by
  intro x r hx
  rw [lookup_cons] at hx
  split at hx
  · exact hr r (Option.some.inj hx)
  · exact h x r hx

theorem AreConstants.hide (bs : List Binding) : (as.hide bs).AreConstants := by
  unfold Aliases.hide
  induction bs generalizing as with
  | nil => exact h
  | cons b bs ih => exact ih (h.cons nofun)

theorem AreConstants.rename_ne (hx : IsProgramName x) : as.rename x ≠ stackPointer.name := by
  unfold Aliases.rename
  split
  · next r hr => exact fun heq => h x r hr (name_injective heq)
  · exact hx.register _

end Aliases

theorem Expr.IsNamed.useConstants (h : e.IsNamed) (arrays : Bool) {as : Aliases}
    (has : as.AreConstants) : (e.useConstants arrays as).IsLowerable := by
  have hbind : ∀ {x : String}, IsProgramName x →
      x ≠ zero.name ∧ x ≠ stackPointer.name :=
    fun hx => ⟨hx.register _, hx.register _⟩
  unfold IsNamed at h
  unfold IsLowerable
  induction e generalizing as with
  | unit | int | float | externArray => trivial
  | unary op x | var x => exact has.rename_ne h
  | binary op x y => exact ⟨has.rename_ne h.1, has.rename_ne h.2⟩
  | cond cmp x y e₁ e₂ ih₁ ih₂ =>
    exact ⟨has.rename_ne h.1, has.rename_ne h.2.1, ih₁ h.2.2.1 has, ih₂ h.2.2.2 has⟩
  | letIn b e₁ e₂ ih₁ ih₂ =>
    exact ⟨hbind h.1, ih₁ h.2.1 has, ih₂ h.2.2 (has.cons fun _ => constantRegister?_ne)⟩
  | makeClosure b c e ih =>
    exact ⟨hbind h.1, fun x hx => (h.2.1 x hx).register _, ih h.2.2 (has.cons nofun)⟩
  | callClosure f args => exact ⟨h.1.register _, fun x hx => (h.2 x hx).register _⟩
  | callDirect f args => exact ⟨h.1.endifOf?, fun x hx => (h.2 x hx).register _⟩
  | tuple xs =>
    intro x hx
    obtain ⟨y, hy, rfl⟩ := mem_map.mp hx
    exact has.rename_ne (h y hy)
  | letTuple bs t e ih =>
    exact ⟨h.1.register _, fun b hb => hbind (h.2.1 b hb), ih h.2.2 (has.hide bs)⟩
  | get a i =>
    unfold Expr.useConstants
    split
    · exact ⟨has.rename_ne h.1, has.rename_ne h.2⟩
    · exact ⟨h.1.register _, h.2.register _⟩
  | put a i v =>
    unfold Expr.useConstants
    split
    · exact ⟨has.rename_ne h.1, has.rename_ne h.2.1, has.rename_ne h.2.2⟩
    · exact ⟨h.1.register _, h.2.1.register _, h.2.2.register _⟩

theorem isWritable_tempReg (role : String) (n : Nat) (cls : RegClass) :
    (tempReg role n cls).IsWritable :=
  Reg.isWritable_of_not_isReserved (temporary_tempReg role n cls).isReservedName

/-! ## Lowered code -/

theorem Instr.isOrdinary_labelled (l : String) : (labelled l).IsOrdinary :=
  ⟨rfl, fun _ => rfl, nofun, nofun, by simp [labelled], nofun⟩

theorem Instr.isOrdinary_jump (l : String) : (jump l).IsOrdinary :=
  isOrdinary_of_decodes rfl (.jump l) rfl nofun nofun

theorem isOrdinary_branch {t : Reg} (hr : r.IsReadable) (ht : t.IsReadable) (cmp : Comparison)
    (l : String) : (cmp.branch r t l).IsOrdinary := by
  rcases r with ⟨x, _ | _⟩ <;> cases cmp
  all_goals
    exact isOrdinary_of_decodes rfl (.branch _ _ l) rfl nofun
      (by simpa using by first | exact ⟨hr, ht⟩ | exact ⟨ht, hr⟩)

theorem Instr.IsBasic.isOrdinary {i : Instr}
    (h : i.IsBasic Reg.IsReadable Reg.IsWritable fun f => endifOf? f = none) : i.IsOrdinary := by
  obtain ⟨d, hd, hr, hw⟩ := h.decodes
  have hdec := decodes_of_decode? hd
  refine isOrdinary_of rfl hdec ?_ hw hr h.callee
  have hform := h.form
  cases hop : i.op <;> rw [hop] at hform <;> first | decide | cases hform

theorem Lowered.isOrdinary (h : Lowered s e d? code s') (he : e.IsLowerable)
    (hd : ∀ d, d? = some d → d.IsWritable) : ∀ i ∈ code, i.IsOrdinary := by
  refine h.forall_mem ⟨?_, ?_, ?_, ?_, Reg.IsWritable.isReadable⟩
    (fun role n => isWritable_tempReg role n .int) he hd Instr.IsBasic.isOrdinary
    isOrdinary_branch isOrdinary_jump isOrdinary_labelled
  · exact fun hx _ => Reg.isReadable_iff.mpr hx
  · exact fun hx _ => Reg.isWritable_iff.mpr hx
  · exact Reg.isWritable_ofPhys (by decide) (by decide)
  · exact Reg.isReadable_iff.mpr (by decide)

/-! ## Bodies -/

/-- An instruction that lowering puts around the code of an expression. -/
structure Instr.IsFraming (i : Instr) : Prop where
  plain : i.isPlain = true
  noTail : i.op ≠ .tailDirect
  ordinary : i.IsOrdinary

/-- An entry label, and the code of an expression between instructions that are no joints. -/
theorem isOrdinaryBody_of_lowered {f : String} {front body back : Code}
    (hf : ∀ lo hi, ¬NumberedLabel lo hi f) (hbody : Lowered s e d? body s')
    (hcode : ∀ i ∈ body, i.IsOrdinary) (hfront : ∀ i ∈ front, i.IsFraming)
    (hback : ∀ i ∈ back, i.IsFraming) :
    IsOrdinaryBody (.labelled f :: (front ++ (body ++ back))) := by
  have hstructured : Structured s.counter s'.counter (front ++ (body ++ back)) :=
    (Structured.of_plain (fun i hi => (hfront i hi).plain) (Nat.le_refl _)).append
      (hbody.structured.append (.of_plain (fun i hi => (hback i hi).plain) (Nat.le_refl _)))
  have htails : ∀ i ∈ body, i.op ≠ .tailDirect := fun i hi => (hbody.op_ne i hi).1
  have hall : ∀ i ∈ front ++ (body ++ back), i.op ≠ .tailDirect := by
    simp only [forall_mem_append]
    exact ⟨fun i hi => (hfront i hi).noTail, htails, fun i hi => (hback i hi).noTail⟩
  refine ⟨⟨⟨_, f, _, rfl, joint?_labelled f, hstructured.arranged hall⟩, ?_⟩, ?_⟩
  · rw [labelNames_labelled, nodup_cons]
    exact ⟨fun hmem => hf _ _ (hstructured.numbered f hmem), hstructured.nodup_labelNames⟩
  · simp only [forall_mem_cons, forall_mem_append]
    exact ⟨isOrdinary_labelled f, fun i hi => (hfront i hi).ordinary, hcode,
      fun i hi => (hback i hi).ordinary⟩

theorem isWritable_of_mem_bindingRegs (hbs : ∀ b ∈ bs, IsProgramName b.name)
    (hr : r ∈ bindingRegs bs) : r.IsWritable := by
  obtain ⟨b, hb, hname⟩ := name_of_mem_bindingRegs hr
  exact Reg.isWritable_iff.mpr (hname ▸ ⟨(hbs b hb).register _, (hbs b hb).register _⟩)

theorem Definition.isOrdinaryBody_of_lower (hd : d.IsNamed) (arrays : Bool)
    (h : (d.propagateConstants arrays).lower s = .ok code s') : IsOrdinaryBody code := by
  obtain ⟨s₁, n, result?, body, hbody, -, hret, rfl⟩ := exists_lowered h
  have hresult : ∀ r, result? = some r → r.IsWritable := fun r hr => by
    obtain ⟨c, -, rfl⟩ := Option.map_eq_some_iff.mp (hret.symm.trans hr)
    exact isWritable_tempReg _ _ _
  have hcode := hbody.isOrdinary (hd.body.useConstants arrays Aliases.areConstants_nil) hresult
  refine isOrdinaryBody_of_lowered hd.name.not_numberedLabel hbody hcode ?_ ?_
  · simp only [forall_mem_append, forall_mem_singleton]
    refine ⟨⟨fun i hi => ?_, fun i hi => ?_⟩, ?_⟩
    · obtain ⟨r, hr, rfl⟩ := mem_map.mp hi
      have hw := isWritable_of_mem_bindingRegs hd.params hr
      exact ⟨rfl, nofun, isOrdinary_of_decodes rfl (.param r) rfl (by simpa using hw) nofun⟩
    · obtain ⟨k, hk, rfl⟩ := mem_mapIdx.mp hi
      have hw := isWritable_of_mem_bindingRegs hd.captured (getElem_mem hk)
      exact ⟨rfl, nofun,
        isOrdinary_of_decodes rfl (.captured _ _) rfl (by simpa using hw) nofun⟩
    · have hclosure : (Reg.ofPhys .closure).IsWritable :=
        Reg.isWritable_ofPhys (by decide) (by decide)
      exact ⟨rfl, nofun, isOrdinary_move (hd.name.isWritable .int) hclosure.isReadable⟩
  · rw [forall_mem_singleton]
    cases result? with
    | some r =>
      have hr := (hresult r rfl).isReadable
      exact ⟨rfl, nofun,
        isOrdinary_of_decodes rfl (.returnValue r) rfl nofun (by simpa using hr)⟩
    | none => exact ⟨rfl, nofun, isOrdinary_of_decodes rfl .returnUnit rfl nofun nofun⟩

theorem isFraming_of_mem_startUp (heapOffset : Word) : ∀ i ∈ startUp heapOffset, i.IsFraming := by
  have hw : ∀ {p : PhysReg}, p ≠ .zero → p ≠ .stackPointer → (Reg.ofPhys p).IsWritable :=
    Reg.isWritable_ofPhys
  have hzero : (Reg.ofPhys .zero).IsReadable := Reg.isReadable_iff.mpr (by decide)
  have hli : ∀ {p : PhysReg} {w : Word}, p ≠ .zero → p ≠ .stackPointer →
      (li (.ofPhys p) w).IsFraming := fun hz hs =>
    ⟨rfl, nofun, isOrdinary_of_decodes rfl (.constant _ _) rfl (by simpa using hw hz hs) nofun⟩
  have hfmv : ∀ {p : PhysReg} {r : Reg}, p ≠ .zero → p ≠ .stackPointer → r.IsReadable →
      (unary .fmvWX (.ofPhys p) r).IsFraming := fun hz hs hr =>
    ⟨rfl, nofun, isOrdinary_unary rfl (hw hz hs) hr⟩
  have hheap : (Reg.ofPhys .heapPointer).IsWritable := hw (by decide) (by decide)
  have hstaging : (Reg.ofPhys .three).IsReadable := (hw (by decide) (by decide)).isReadable
  simp only [startUp, forall_mem_cons, not_mem_nil, IsEmpty.forall_iff, implies_true,
    and_true]
  exact ⟨⟨rfl, nofun, isOrdinary_immediate rfl hheap hheap.isReadable⟩,
    hfmv (by decide) (by decide) hzero, hli (by decide) (by decide),
    hfmv (by decide) (by decide) hstaging, hli (by decide) (by decide),
    hfmv (by decide) (by decide) hstaging, hli (by decide) (by decide), hli (by decide) (by decide),
    hli (by decide) (by decide)⟩

theorem isOrdinaryBody_lowerTopLevel (he : e.IsNamed) (arrays : Bool) {offset : Word}
    (h : lowerTopLevel (e.propagateConstants arrays) offset s = .ok code s') :
    IsOrdinaryBody code := by
  simp only [lowerTopLevel, Lower.bind_eq_ok, Lower.pure_eq_ok] at h
  obtain ⟨_, s₁, _, body, s₂, hbody, rfl, rfl⟩ := h
  have hlowered := Lowered.of_lower hbody
  have hcode := hlowered.isOrdinary (he.useConstants arrays Aliases.areConstants_nil) nofun
  have hname : ∀ lo hi, ¬NumberedLabel lo hi topLevelName :=
    (IsProgramName.of_length (by decide) (by decide)).not_numberedLabel
  have hbody : IsOrdinaryBody (.labelled topLevelName :: (startUp offset ++ (body ++ []))) :=
    isOrdinaryBody_of_lowered hname hlowered hcode (isFraming_of_mem_startUp offset) nofun
  rwa [append_nil] at hbody

end ClosureCodegen
