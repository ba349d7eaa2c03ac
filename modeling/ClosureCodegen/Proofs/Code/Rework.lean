import ClosureCodegen.Proofs.Code.Skeleton

/-!
# Reworked bodies

Most passes put a block in the place of each instruction, and the joints of the block are the joint of
the instruction.  Making a tail call adds a joint: where the body went on behind a call, it jumps out.
Such a jump leads to no arm, and a skeleton that is arranged stays so wherever jumps of this kind come
in.  A pass is *reworking* a body if it does no more than that, and leaves instructions that have a
given property.

* `Arranged.widened`: jumps may come in anywhere.
* `IsArranged.reworked`: a reworked body is arranged, if the body was.
-/

namespace ClosureCodegen
open List

variable {a b front : List Joint} {code : Code}

/-! ## Jumps that come in -/

/-- Jumps were put between the joints of a skeleton, none of them to an arm. -/
inductive Widened : List Joint → List Joint → Prop where
  | nil : Widened [] []
  | keep {js ks : List Joint} (j : Joint) : Widened js ks → Widened (j :: js) (j :: ks)
  | add {js ks : List Joint} {l : String} : endifOf? l = none → Widened js ks →
      Widened js (.jump l :: ks)

namespace Widened

variable {js ks : List Joint} {j : Joint}

theorem refl (js : List Joint) : Widened js js := by
  induction js with
  | nil => exact .nil
  | cons j js ih => exact .keep j ih

theorem append {a' b' : List Joint} (ha : Widened a a') (hb : Widened b b') :
    Widened (a ++ b) (a' ++ b') := by
  induction ha with
  | nil => exact hb
  | keep j _ ih => exact .keep j ih
  | add hl _ ih => exact .add hl ih

theorem cons_inv (h : Widened (j :: js) ks) :
    ∃ front rest, ks = front ++ j :: rest ∧ Widened [] front ∧ Widened js rest := by
  generalize hall : j :: js = all at h
  induction h with
  | nil => cases hall
  | @keep _ ks k h _ =>
    cases hall
    exact ⟨[], ks, rfl, .nil, h⟩
  | @add _ _ l hl _ ih =>
    obtain ⟨front, rest, rfl, hfront, hrest⟩ := ih hall
    exact ⟨.jump l :: front, rest, rfl, .add hl hfront, hrest⟩

theorem append_inv (h : Widened (a ++ b) ks) :
    ∃ a' b', ks = a' ++ b' ∧ Widened a a' ∧ Widened b b' := by
  induction a generalizing ks with
  | nil => exact ⟨[], ks, rfl, .nil, h⟩
  | cons j a ih =>
    obtain ⟨front, rest, rfl, hfront, hrest⟩ := h.cons_inv
    obtain ⟨a', b', rfl, ha, hb⟩ := ih hrest
    refine ⟨front ++ j :: a', b', by simp, ?_, hb⟩
    exact hfront.append (.keep j ha)

theorem filterMap_label? (h : Widened js ks) :
    ks.filterMap Joint.label? = js.filterMap Joint.label? := by
  induction h with
  | nil => rfl
  | keep j _ ih => rw [filterMap_cons, filterMap_cons, ih]
  | add _ _ ih => exact ih

theorem exists_last {k : String} (hk : endifOf? k = none) (h : Widened [] front) :
    ∃ first l, .jump k :: front = first ++ [.jump l] ∧ endifOf? l = none ∧ Widened [] first := by
  generalize hnil : ([] : List Joint) = empty at h
  induction h generalizing k with
  | nil => exact ⟨[], k, rfl, hk, .nil⟩
  | keep => cases hnil
  | add hl _ ih =>
    obtain ⟨first, l, heq, hl', hfirst⟩ := ih hl hnil
    exact ⟨.jump k :: first, l, by rw [heq, cons_append], hl', .add hk hfirst⟩

end Widened

theorem Arranged.append (ha : Arranged a) (hb : Arranged b) : Arranged (a ++ b) := by
  induction ha with
  | nil => exact hb
  | jump hl _ ih => exact .jump hl ih
  | cond hm hk h₁ h₂ _ _ _ ih₃ =>
    rw [cons_append, append_assoc, cons_append, cons_append, append_assoc,
      cons_append]
    exact .cond hm hk h₁ h₂ ih₃

theorem Widened.arranged (h : Widened [] front) : Arranged front := by
  generalize hnil : ([] : List Joint) = empty at h
  induction h with
  | nil => exact .nil
  | keep => cases hnil
  | add hl _ ih => exact .jump hl (ih hnil)

theorem Arranged.widened {js ks : List Joint} (ha : Arranged js) (h : Widened js ks) :
    Arranged ks := by
  induction ha generalizing ks with
  | nil => exact h.arranged
  | jump hl _ ih =>
    obtain ⟨front, rest, rfl, hfront, hrest⟩ := h.cons_inv
    exact hfront.arranged.append (.jump hl (ih hrest))
  | cond hm hk _ _ _ ih₁ ih₂ ih₃ =>
    obtain ⟨front, _, rfl, hfront, h⟩ := h.cons_inv
    obtain ⟨first, _, rfl, hfirst, h⟩ := h.append_inv
    obtain ⟨before, _, rfl, hbefore, h⟩ := h.cons_inv
    obtain ⟨behind, _, rfl, hbehind, h⟩ := h.cons_inv
    obtain ⟨second, _, rfl, hsecond, h⟩ := h.append_inv
    obtain ⟨after, rest, rfl, hafter, hrest⟩ := h.cons_inv
    -- the arm that is fallen into ends with the last jump in front of the other arm
    obtain ⟨last, l, heq, hl, hlast⟩ := hbehind.exists_last hk
    have harm : Arranged (first ++ (before ++ last)) :=
      (ih₁ hfirst).append (hbefore.arranged.append hlast.arranged)
    have hcond := Arranged.cond hm hl harm ((ih₂ hsecond).append hafter.arranged) (ih₃ hrest)
    refine hfront.arranged.append ?_
    simp only [← cons_append, heq]
    simpa only [append_assoc, cons_append, nil_append] using hcond

/-! ## Blocks -/

/-- What a pass puts in the place of an instruction: code with a property that has the joint of the
instruction, and in front if that is a label.  Jumps to no arm may come in. -/
structure Reworks (P : Instr → Prop) (i : Instr) (block : Code) : Prop where
  joints : Widened i.joint?.toList (skeleton block)
  entry : i.isLabel = true → ∃ k rest, block = k :: rest ∧ k.joint? = i.joint?
  holds : ∀ k ∈ block, P k

namespace Reworks

variable {P : Instr → Prop} {i k : Instr} {block : Code}

theorem single (hj : k.joint? = i.joint?) (hk : P k) : Reworks P i [k] where
  joints := by
    rw [skeleton_cons, hj, skeleton_nil, append_nil]
    exact .refl _
  entry _ := ⟨k, [], rfl, hj⟩
  holds := by simpa using hk

theorem between (hi : i.op.isInner = true) (hb : ∀ k ∈ block, k.joint? = none ∧ P k) :
    Reworks P i block where
  joints := by
    rw [Instr.joint?_of_isInner hi, skeleton_eq_nil.mpr fun k hk => (hb k hk).1]
    exact .nil
  entry h := by
    rw [Instr.isLabel_of_isInner hi] at h
    cases h
  holds k hk := (hb k hk).2

theorem behind (hi : P i) (hb : ∀ k ∈ block, k.joint? = none ∧ P k) : Reworks P i (i :: block) where
  joints := by
    rw [skeleton_cons, skeleton_eq_nil.mpr fun k hk => (hb k hk).1, append_nil]
    exact .refl _
  entry _ := ⟨i, block, rfl, rfl⟩
  holds := forall_mem_cons.mpr ⟨hi, fun k hk => (hb k hk).2⟩

theorem around {front back : Code} (hl : i.isLabel = false)
    (hj : Widened i.joint?.toList k.joint?.toList) (hk : P k)
    (hf : ∀ k ∈ front, k.joint? = none ∧ P k) (hb : ∀ k ∈ back, k.joint? = none ∧ P k) :
    Reworks P i (front ++ k :: back) where
  joints := by
    rwa [skeleton_append, skeleton_cons, skeleton_eq_nil.mpr fun k hk => (hf k hk).1,
      skeleton_eq_nil.mpr fun k hk => (hb k hk).1, append_nil, nil_append]
  entry h := by
    rw [hl] at h
    cases h
  holds := forall_mem_append.mpr
    ⟨fun k hk => (hf k hk).2, forall_mem_cons.mpr ⟨hk, fun k hk => (hb k hk).2⟩⟩

theorem expands_self (h : ∀ i ∈ code, P i) : Expands (Reworks P) code code := by
  induction code with
  | nil => exact .nil
  | cons i code ih =>
    rw [forall_mem_cons] at h
    exact .cons (.single rfl h.1) (ih h.2)

theorem expands_flatMap {f : Instr → Code} (h : ∀ i ∈ code, Reworks P i (f i)) :
    Expands (Reworks P) code (code.flatMap f) := by
  induction code with
  | nil => exact .nil
  | cons i code ih =>
    rw [forall_mem_cons] at h
    rw [flatMap_cons]
    exact .cons h.1 (ih h.2)

theorem expands_map {f : Instr → Instr} (h : ∀ i ∈ code, (f i).joint? = i.joint? ∧ P (f i)) :
    Expands (Reworks P) code (code.map f) := by
  rw [← flatMap_pure_eq_map]
  exact expands_flatMap fun i hi => .single (h i hi).1 (h i hi).2

theorem expands_filter {keep : Instr → Bool} (h : ∀ i ∈ code, P i)
    (hdrop : ∀ i ∈ code, keep i = false → i.op.isInner = true) :
    Expands (Reworks P) code (code.filter keep) := by
  induction code with
  | nil => exact .nil
  | cons i code ih =>
    rw [forall_mem_cons] at h hdrop
    have hrest := ih h.2 hdrop.2
    cases hk : keep i with
    | true =>
      rw [filter_cons_of_pos hk]
      exact .cons (.single rfl h.1) hrest
    | false =>
      rw [filter_cons_of_neg (by rw [hk]; nofun)]
      have hblock : Reworks P i [] := .between (hdrop.1 hk) nofun
      exact .cons hblock hrest

end Reworks

/-! ## Bodies -/

section Bodies

variable {P : Instr → Prop} {code' : Code}

theorem Expands.widened (h : Expands (Reworks P) code code') :
    Widened (skeleton code) (skeleton code') := by
  induction h with
  | nil => exact .nil
  | cons hi _ ih =>
    rw [skeleton_cons, skeleton_append]
    exact hi.joints.append ih

theorem Expands.forall_reworked (h : Expands (Reworks P) code code') : ∀ k ∈ code', P k :=
  h.forall_mem fun hi => hi.holds

theorem IsArranged.reworked (hc : IsArranged code) (h : Expands (Reworks P) code code') :
    IsArranged code' := by
  have hlabels : labelNames code' = labelNames code := by
    rw [labelNames_eq, labelNames_eq, h.widened.filterMap_label?]
  obtain ⟨⟨entry, f, body, rfl, hentry, hbody⟩, hnodup⟩ := hc
  refine ⟨?_, hlabels ▸ hnodup⟩
  cases h with
  | @cons _ block _ body' hblock hrest =>
    obtain ⟨k, more, rfl, hk⟩ := hblock.entry (Instr.joint?_eq_label hentry).1
    refine ⟨k, f, more ++ body', rfl, hk.trans hentry, ?_⟩
    have hmore : Widened [.label f] (.label f :: skeleton more) := by
      have hjoints := hblock.joints
      rwa [hentry, skeleton_cons_some (hk.trans hentry)] at hjoints
    cases hmore with
    | keep _ hmore =>
      rw [skeleton_append]
      exact hbody.widened (hmore.append hrest.widened)

end Bodies

end ClosureCodegen
