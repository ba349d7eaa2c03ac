import ClosureCodegen.Proofs.Execution.Blocks
import ClosureCodegen.Proofs.Lowering.Instructions
import ClosureCodegen.Proofs.Names

/-!
# Labels of lowered code

The labels of lowered code are those of its conditionals, and their numbers are the ones that
lowering hands out.  So in any body in which the rest does not use these numbers, the branch and the
jump of a conditional arrive where its labels stand.
-/

namespace ClosureCodegen
open List

variable {l : String} {post : Code} {m lo' : Nat} {e : Expr} {base this : Reg} {rs : List Reg}

/-! ## Labels of a body -/

def labelNames (code : Code) : List String :=
  code.filterMap fun i => if i.isLabel then i.label? else none

@[simp] theorem labelNames_nil : labelNames [] = [] := rfl

@[simp] theorem labelNames_append (code code' : Code) :
    labelNames (code ++ code') = labelNames code ++ labelNames code' :=
  filterMap_append

theorem labelNames_cons (i : Instr) (code : Code) :
    labelNames (i :: code) = (if i.isLabel then i.label? else none).toList ++ labelNames code := by
  rw [labelNames, filterMap_cons]
  cases (if i.isLabel then i.label? else none) <;> rfl

@[simp] theorem labelNames_labelled (l : String) (code : Code) :
    labelNames (.labelled l :: code) = l :: labelNames code := rfl

theorem labelNames_cons_of_not_isLabel {i : Instr} (h : i.isLabel = false) (code : Code) :
    labelNames (i :: code) = labelNames code := by
  rw [labelNames_cons, h]
  rfl

theorem labelNames_eq_nil {code : Code} (h : ∀ i ∈ code, i.isLabel = false) :
    labelNames code = [] := by
  rw [labelNames, filterMap_eq_nil_iff]
  intro i hi
  rw [h i hi]
  rfl

theorem codeAfter?_eq_none_iff {code : Code} : codeAfter? l code = none ↔ l ∉ labelNames code := by
  induction code with
  | nil => exact ⟨fun _ => not_mem_nil, fun _ => rfl⟩
  | cons i code ih =>
    rw [codeAfter?_cons, Option.or_eq_none_iff, ih, labelNames_cons, mem_append, not_or,
      and_comm]
    cases hi : i.isLabel <;> cases hl : i.label? <;> simp [eq_comm]

theorem codeAfter?_of_isLabel {i : Instr} {code : Code} (h : i :: post <:+ code)
    (hi : i.isLabel = true) (hil : i.label? = some l) (hl : l ∉ labelNames post) :
    codeAfter? l code = some post := by
  obtain ⟨pre, rfl⟩ := h
  induction pre with
  | nil =>
    rw [nil_append, codeAfter?_cons, codeAfter?_eq_none_iff.mpr hl, Option.none_or]
    exact if_pos (by simp [hi, hil])
  | cons k pre ih => rw [cons_append, codeAfter?_cons, ih, Option.some_or]

theorem codeAfter?_of_suffix {code : Code} (h : .labelled l :: post <:+ code)
    (hl : l ∉ labelNames post) : codeAfter? l code = some post :=
  codeAfter?_of_isLabel h rfl rfl hl

/-! ## Numbered labels -/

theorem thenLabel_injective {n : Nat} (h : thenLabel m = thenLabel n) : m = n :=
  Decimal.natText_injective (String.append_right_inj _ |>.mp h)

theorem thenLabel_ne_endifLabel (m n : Nat) : thenLabel m ≠ endifLabel n := by
  intro h
  have := congrArg (fun s => s.toList.head?) h
  rw [thenLabel, endifLabel, String.toList_append, String.toList_append] at this
  cases this

/-- A label of a conditional with a number above one and up to another. -/
def NumberedLabel (lo hi : Nat) (l : String) : Prop :=
  ∃ n, lo < n ∧ n ≤ hi ∧ (l = thenLabel n ∨ l = endifLabel n)

theorem NumberedLabel.mono {lo hi hi' : Nat} (h : NumberedLabel lo hi l) (hlo : lo' ≤ lo)
    (hhi : hi ≤ hi') : NumberedLabel lo' hi' l := by
  obtain ⟨n, h₁, h₂, h₃⟩ := h
  exact ⟨n, by omega, by omega, h₃⟩

theorem NumberedLabel.disjoint {lo hi hi' : Nat} (h : NumberedLabel lo hi l)
    (h' : NumberedLabel lo' hi' l) (hd : hi ≤ lo') : False := by
  obtain ⟨n, h₁, h₂, h₃⟩ := h
  obtain ⟨k, k₁, k₂, k₃⟩ := h'
  have hnk : n = k := by
    rcases h₃ with rfl | rfl <;> rcases k₃ with h | h
    · exact thenLabel_injective h
    · exact absurd h (thenLabel_ne_endifLabel _ _)
    · exact absurd h.symm (thenLabel_ne_endifLabel _ _)
    · exact Decimal.natText_injective (String.append_right_inj _ |>.mp h)
  omega

/-! ## Nested conditionals -/

/-- Whether an instruction is neither a label nor a jump or branch to one. -/
def Instr.isPlain (i : Instr) : Bool :=
  !i.isLabel && !i.op.isBranch && i.op ≠ .j

theorem Instr.isLabel_of_isPlain {i : Instr} (h : i.isPlain = true) : i.isLabel = false := by
  simp only [isPlain, Bool.and_eq_true, Bool.not_eq_true'] at h
  exact h.1.1

/-- A body of plain instructions and nested conditionals, with numbers above one and up to another
that grow along the body. -/
inductive Structured : Nat → Nat → Code → Prop where
  | nil {lo hi} : lo ≤ hi → Structured lo hi []
  | plain {lo hi i code} : i.isPlain = true → Structured lo hi code → Structured lo hi (i :: code)
  | cond {lo n mid hi hi' branch fall taken rest} : lo < n → branch.op.isBranch = true →
      branch.label? = some (thenLabel n) → Structured n mid fall → Structured mid hi taken →
      Structured hi hi' rest → Structured lo hi' (conditional branch n fall taken ++ rest)

theorem isLabel_of_isBranch {i : Instr} (h : i.op.isBranch = true) : i.isLabel = false := by
  rcases i with ⟨op, os⟩
  cases op <;> first | rfl | cases h

theorem labelNames_conditional {branch : Instr} (h : branch.op.isBranch = true) (n : Nat)
    (fall taken : Code) : labelNames (conditional branch n fall taken) =
      labelNames fall ++ thenLabel n :: labelNames taken ++ [endifLabel n] := by
  simp [conditional, labelNames_cons_of_not_isLabel (isLabel_of_isBranch h),
    labelNames_cons_of_not_isLabel (i := .jump (endifLabel n)) rfl]

namespace Structured

variable {lo mid hi : Nat} {code code' : Code}

theorem le (h : Structured lo hi code) : lo ≤ hi := by
  induction h with
  | nil h => exact h
  | plain _ _ ih => exact ih
  | cond hn _ _ _ _ _ ih₁ ih₂ ih₃ => omega

theorem mono_left (h : Structured lo hi code) (hlo : lo' ≤ lo) : Structured lo' hi code := by
  induction h generalizing lo' with
  | nil h => exact .nil (Nat.le_trans hlo h)
  | plain hi _ ih => exact .plain hi (ih hlo)
  | cond hn hb hl h₁ h₂ h₃ _ _ _ => exact .cond (Nat.lt_of_le_of_lt hlo hn) hb hl h₁ h₂ h₃

theorem append (h : Structured lo mid code) (h' : Structured mid hi code') :
    Structured lo hi (code ++ code') := by
  induction h with
  | nil hle => exact h'.mono_left hle
  | plain hi _ ih => exact .plain hi (ih h')
  | cond hn hb hl h₁ h₂ _ _ _ ih =>
    rw [append_assoc]
    exact .cond hn hb hl h₁ h₂ (ih h')

theorem of_plain (h : ∀ i ∈ code, i.isPlain = true) (hle : lo ≤ hi) : Structured lo hi code := by
  induction code with
  | nil => exact .nil hle
  | cons i code ih =>
    exact .plain (h i mem_cons_self) (ih fun k hk => h k (mem_cons_of_mem i hk))

theorem numbered (h : Structured lo hi code) : ∀ l ∈ labelNames code, NumberedLabel lo hi l := by
  induction h with
  | nil => exact fun l hl => absurd hl not_mem_nil
  | plain hp _ ih =>
    rw [labelNames_cons_of_not_isLabel (Instr.isLabel_of_isPlain hp)]
    exact ih
  | @cond lo n mid hi hi' branch fall taken rest hn hb _ h₁ h₂ h₃ ih₁ ih₂ ih₃ =>
    intro l hl
    have := h₁.le
    have := h₂.le
    have := h₃.le
    rw [labelNames_append, labelNames_conditional hb] at hl
    simp only [mem_append, mem_cons, not_mem_nil, or_false] at hl
    rcases hl with ((hl | rfl | hl) | rfl) | hl
    · exact (ih₁ l hl).mono (by omega) (by omega)
    · exact ⟨n, hn, by omega, .inl rfl⟩
    · exact (ih₂ l hl).mono (by omega) (by omega)
    · exact ⟨n, hn, by omega, .inr rfl⟩
    · exact (ih₃ l hl).mono (by omega) (by omega)

end Structured

/-- A body in which no label has a number above one and up to another. -/
def LabelsApart (lo hi : Nat) (code : Code) : Prop := ∀ l ∈ labelNames code, ¬NumberedLabel lo hi l

namespace LabelsApart

variable {lo mid hi : Nat} {code rest : Code}

theorem mono {hi' : Nat} (h : LabelsApart lo hi rest) (hlo : lo ≤ lo') (hhi : hi' ≤ hi) :
    LabelsApart lo' hi' rest :=
  fun l hl hn => h l hl (hn.mono hlo hhi)

theorem append (hs : Structured mid hi code) (h : LabelsApart lo mid rest) :
    LabelsApart lo mid (code ++ rest) := by
  intro l hl hn
  rw [labelNames_append, mem_append] at hl
  rcases hl with hl | hl
  · exact hn.disjoint (hs.numbered l hl) (Nat.le_refl mid)
  · exact h l hl hn

theorem labelled {hi' : Nat} (hl : NumberedLabel lo' hi' l) (hle : hi' ≤ lo)
    (h : LabelsApart lo hi rest) : LabelsApart lo hi (.labelled l :: rest) := by
  intro l' hl' hn
  rw [labelNames_labelled, mem_cons] at hl'
  rcases hl' with rfl | hl'
  · exact hl.disjoint hn hle
  · exact h l' hl' hn

end LabelsApart

/-- Where the labels of a conditional are, in a body whose rest has no labels of its numbers. -/
theorem codeAfter?_conditional {lo n mid hi : Nat} {branch : Instr} {fall taken rest code : Code}
    (hs : conditional branch n fall taken ++ rest <:+ code) (hn : lo < n)
    (hfall : Structured n mid fall) (htaken : Structured mid hi taken)
    (hrest : LabelsApart lo hi rest) :
    codeAfter? (thenLabel n) code = some (taken ++ .labelled (endifLabel n) :: rest) ∧
      codeAfter? (endifLabel n) code = some rest := by
  have hle₁ := hfall.le
  have hle₂ := htaken.le
  have hthen : .labelled (thenLabel n) :: (taken ++ .labelled (endifLabel n) :: rest) <:+ code := by
    refine List.IsSuffix.trans ⟨branch :: fall ++ [.jump (endifLabel n)], ?_⟩ hs
    simp [conditional]
  have hend : .labelled (endifLabel n) :: rest <:+ code :=
    (suffix_append _ _).trans ((suffix_cons _ _).trans hthen)
  have hnot : ∀ l, l = thenLabel n ∨ l = endifLabel n → l ∉ labelNames rest := fun l hl hmem =>
    hrest l hmem ⟨n, by omega, by omega, hl⟩
  refine ⟨codeAfter?_of_suffix hthen ?_, codeAfter?_of_suffix hend (hnot _ (.inr rfl))⟩
  rw [labelNames_append, labelNames_labelled, mem_append, mem_cons]
  rintro (hmem | heq | hmem)
  · obtain ⟨k, hk, _, h⟩ := htaken.numbered _ hmem
    rcases h with h | h
    · have := thenLabel_injective h
      omega
    · exact thenLabel_ne_endifLabel _ _ h
  · exact thenLabel_ne_endifLabel _ _ heq
  · exact hnot _ (.inl rfl) hmem

/-! ## Lowered code -/

theorem Instr.IsBasic.isPlain {R W : Reg → Prop} {C : String → Prop} {i : Instr}
    (h : i.IsBasic R W C) : i.isPlain = true := by
  obtain ⟨op, os⟩ := i
  have hform := h.form
  cases op <;> first | rfl | cases hform

theorem isBranch_branch (cmp : Comparison) (r t : Reg) (l : String) :
    (cmp.branch r t l).op.isBranch = true ∧ (cmp.branch r t l).label? = some l := by
  rcases r with ⟨x, c⟩
  cases c <;> cases cmp <;> exact ⟨rfl, rfl⟩

theorem Lowered.structured {s s' : LowerState} {d? : Option Reg} {code : Code}
    (h : Lowered s e d? code s') : Structured s.counter s'.counter code := by
  refine h.composed vocabulary_true (fun _ _ => ⟨⟩) e.named_true (fun _ _ => ⟨⟩)
    (fun hcode => .of_plain fun i hi => (hcode i hi).isPlain) .append fun cmp _ _ hfall htaken => ?_
  obtain ⟨hb, hl⟩ := isBranch_branch cmp _ _ _
  have hcond := Structured.cond (Nat.lt_succ_self _) hb hl hfall htaken (.nil (Nat.le_refl _))
  rwa [append_nil] at hcond

end ClosureCodegen
