import ClosureCodegen.Proofs.Liveness.Paths
import ClosureCodegen.Proofs.Lowering.Labels

/-!
# The skeleton of a body

Passes that leave control flow alone move, merge and drop the instructions in between.  What they keep
is the *skeleton* of a body: its labels, branches and jumps in order, each with the label it names.  A
direct tail call counts as a jump, since expansion makes one of it.

In a body that was lowered from an expression the skeleton is *arranged*: it consists of jumps and of
conditionals, and the arm of a conditional that is fallen into ends with a jump, so that control comes
to the other arm through its label only.  No jump leads to the label of such an arm.
-/

namespace ClosureCodegen
open List

variable {i : Instr} {j : Joint} {code post : Code} {js ks : List Joint} {l : String}

/-! ## Joints -/

/-- What control flow sees of an instruction. -/
inductive Joint where
  | label (l : String)
  | branch (l : String)
  | jump (l : String)
  deriving DecidableEq

def Joint.label? : Joint → Option String
  | .label l => some l
  | _ => none

def Instr.joint? (i : Instr) : Option Joint :=
  i.label?.bind fun l =>
    if i.isLabel then some (.label l)
    else if i.op.isBranch then some (.branch l)
    else if i.op = .j ∨ i.op = .tailDirect then some (.jump l)
    else none

/-- The joints of a body, in order. -/
def skeleton (code : Code) : List Joint := code.filterMap Instr.joint?

@[simp] theorem skeleton_nil : skeleton [] = [] := rfl

@[simp] theorem skeleton_append (a b : Code) : skeleton (a ++ b) = skeleton a ++ skeleton b :=
  filterMap_append

theorem skeleton_cons (i : Instr) (code : Code) :
    skeleton (i :: code) = i.joint?.toList ++ skeleton code := by
  rw [skeleton, filterMap_cons]
  cases i.joint? <;> rfl

theorem skeleton_cons_none (h : i.joint? = none) (code : Code) :
    skeleton (i :: code) = skeleton code :=
  filterMap_cons_none h

theorem skeleton_cons_some (h : i.joint? = some j) (code : Code) :
    skeleton (i :: code) = j :: skeleton code :=
  filterMap_cons_some h

theorem skeleton_eq_nil : skeleton code = [] ↔ ∀ i ∈ code, i.joint? = none :=
  filterMap_eq_nil_iff

theorem exists_of_filterMap_eq {α β : Type} {f : α → Option β} {xs : List α} {ys zs : List β} {y : β}
    (h : xs.filterMap f = ys ++ y :: zs) : ∃ a x b, xs = a ++ x :: b ∧ a.filterMap f = ys ∧
      f x = some y ∧ b.filterMap f = zs := by
  obtain ⟨a, rest, rfl, ha, hrest⟩ := filterMap_eq_append_iff.mp h
  obtain ⟨gap, x, b, rfl, hgap, hx, hb⟩ := filterMap_eq_cons_iff.mp hrest
  refine ⟨a ++ gap, x, b, (append_assoc _ _ _).symm, ?_, hx, hb⟩
  rw [filterMap_append, filterMap_eq_nil_iff.mpr hgap, append_nil, ha]

theorem skeleton_eq_append_cons (h : skeleton code = js ++ j :: ks) :
    ∃ a i b, code = a ++ i :: b ∧ skeleton a = js ∧ i.joint? = some j ∧ skeleton b = ks :=
  exists_of_filterMap_eq h

theorem skeleton_eq_cons (h : skeleton code = j :: ks) :
    ∃ a i b, code = a ++ i :: b ∧ skeleton a = [] ∧ i.joint? = some j ∧ skeleton b = ks :=
  skeleton_eq_append_cons (show skeleton code = [] ++ j :: ks from h)

/-- Whether instructions with an opcode are no labels, branches, jumps or direct tail calls. -/
def Opcode.isInner (op : Opcode) : Bool :=
  !op.isBranch && op ∉ [.label, .j, .tailDirect]

namespace Instr

variable {k : Instr}

theorem joint?_congr (hop : k.op = i.op) (hl : k.label? = i.label?) : k.joint? = i.joint? := by
  unfold joint? isLabel
  rw [hop, hl]

theorem joint?_eq_none (hp : i.isPlain = true) (ht : i.op ≠ .tailDirect) : i.joint? = none := by
  simp only [isPlain, Bool.and_eq_true, Bool.not_eq_true', decide_eq_true_eq] at hp
  cases hl : i.label? with
  | none => simp [joint?, hl]
  | some l => simp [joint?, hl, hp, ht]

theorem joint?_of_isInner (h : i.op.isInner = true) : i.joint? = none := by
  obtain ⟨op, os⟩ := i
  refine joint?_eq_none ?_ ?_
  · cases op <;> first | rfl | cases h
  · rintro rfl
    cases h

theorem isLabel_of_isInner (h : i.op.isInner = true) : i.isLabel = false := by
  obtain ⟨op, os⟩ := i
  cases op <;> first | rfl | cases h

theorem joint?_labelled (l : String) : (labelled l).joint? = some (.label l) := rfl

theorem joint?_eq_label (h : i.joint? = some (.label l)) : i.isLabel = true ∧ i.label? = some l := by
  obtain ⟨m, hm, h⟩ := Option.bind_eq_some_iff.mp h
  split at h
  · next hi =>
    cases h
    exact ⟨hi, hm⟩
  · split at h
    · cases h
    · split at h <;> cases h

theorem joint?_eq_branch (h : i.joint? = some (.branch l)) :
    i.op.isBranch = true ∧ i.label? = some l := by
  obtain ⟨m, hm, h⟩ := Option.bind_eq_some_iff.mp h
  split at h
  · cases h
  · split at h
    · next hi =>
      cases h
      exact ⟨hi, hm⟩
    · split at h <;> cases h

theorem joint?_eq_jump (h : i.joint? = some (.jump l)) :
    (i.op = .j ∨ i.op = .tailDirect) ∧ i.label? = some l := by
  obtain ⟨m, hm, h⟩ := Option.bind_eq_some_iff.mp h
  split at h
  · cases h
  · split at h
    · cases h
    · split at h
      · next hi =>
        cases h
        exact ⟨hi, hm⟩
      · cases h

theorem joint?_of_isBranch (hb : i.op.isBranch = true) (hl : i.label? = some l) :
    i.joint? = some (.branch l) := by
  simp [joint?, hl, isLabel_of_isBranch hb, hb]

theorem joint?_of_isLabel (hi : i.isLabel = true) (hl : i.label? = some l) :
    i.joint? = some (.label l) := by
  simp [joint?, hl, hi]

theorem joint?_of_jump (hop : i.op = .j) (hl : i.label? = some l) :
    i.joint? = some (.jump l) := by
  simp [joint?, hl, isLabel, hop, Opcode.isBranch]

end Instr

theorem labelNames_eq (code : Code) : labelNames code = (skeleton code).filterMap Joint.label? := by
  rw [labelNames, skeleton, filterMap_filterMap]
  congr 1
  funext i
  cases hl : i.label? with
  | none => simp [Instr.joint?, hl]
  | some l =>
    simp only [Instr.joint?, hl, Option.bind_some]
    split
    · rfl
    · split
      · rfl
      · split <;> rfl

theorem labelNames_cons_label (hi : i.joint? = some (.label l)) (code : Code) :
    labelNames (i :: code) = l :: labelNames code := by
  rw [labelNames_eq, skeleton_cons_some hi, labelNames_eq]
  rfl

theorem not_mem_labelNames (hnodup : (labelNames code).Nodup) (h : i :: post <:+ code)
    (hi : i.joint? = some (.label l)) : l ∉ labelNames post := by
  obtain ⟨pre, rfl⟩ := h
  rw [labelNames_append, labelNames_cons_label hi, nodup_append, nodup_cons] at hnodup
  exact hnodup.2.1.1

theorem codeAfter?_of_label (h : i :: post <:+ code) (hi : i.joint? = some (.label l))
    (hl : l ∉ labelNames post) : codeAfter? l code = some post :=
  codeAfter?_of_isLabel h (Instr.joint?_eq_label hi).1 (Instr.joint?_eq_label hi).2 hl

theorem codeAfter?_of_joint (hnodup : (labelNames code).Nodup) (h : i :: post <:+ code)
    (hi : i.joint? = some (.label l)) : codeAfter? l code = some post :=
  codeAfter?_of_label h hi (not_mem_labelNames hnodup h hi)

theorem labelIndex?_eq_none_iff : labelIndex? l code = none ↔ l ∉ labelNames code := by
  rw [← codeAfter?_eq_none_iff, codeAfter?_eq, Option.map_eq_none_iff]

theorem labelIndex?_eq_some_iff {p : Nat} :
    labelIndex? l code = some p ↔
    ∃ pre i post, code = pre ++ i :: post ∧ pre.length = p ∧ i.joint? = some (.label l) ∧
      l ∉ labelNames post := by
  constructor
  · intro h
    induction code generalizing p with
    | nil => cases h
    | cons i code ih =>
      rw [labelIndex?, Option.or_eq_some_iff, Option.map_eq_some_iff, Option.map_eq_none_iff] at h
      rcases h with ⟨q, hq, rfl⟩ | ⟨hnone, h⟩
      · obtain ⟨pre, k, post, rfl, rfl, hk, hl⟩ := ih hq
        exact ⟨i :: pre, k, post, rfl, rfl, hk, hl⟩
      · split at h
        · next hi =>
          cases h
          simp only [Bool.and_eq_true, decide_eq_true_eq] at hi
          exact ⟨[], i, code, rfl, rfl, Instr.joint?_of_isLabel hi.1 hi.2,
            labelIndex?_eq_none_iff.mp hnone⟩
        · cases h
  · rintro ⟨pre, i, post, rfl, rfl, hi, hl⟩
    have hafter := codeAfter?_of_label (suffix_append pre (i :: post)) hi hl
    obtain ⟨-, q, hq, hplace⟩ := codeAfter?_eq_some_iff.mp hafter
    rw [placeOf, length_append, length_cons] at hplace
    rw [← position?_labelTable, hq]
    congr 1
    omega

/-! ## Arranged skeletons -/

theorem append_eq_append_cons {α : Type} {u v a b : List α} {x : α} (h : u ++ v = a ++ x :: b) :
    (∃ c, u = a ++ x :: c ∧ b = c ++ v) ∨ ∃ c, a = u ++ c ∧ v = c ++ x :: b := by
  rcases append_eq_append_iff.mp h with ⟨c, rfl, hc⟩ | ⟨c, rfl, hc⟩
  · exact .inr ⟨c, rfl, hc⟩
  · cases c with
    | nil => exact .inr ⟨[], by simp, hc.symm⟩
    | cons y c =>
      cases hc
      exact .inl ⟨c, rfl, rfl⟩

/-- A skeleton of jumps and conditionals. -/
inductive Arranged : List Joint → Prop where
  | nil : Arranged []
  | jump {l : String} {js : List Joint} : endifOf? l = none → Arranged js → Arranged (.jump l :: js)
  | cond {l m k : String} {first second rest : List Joint} : endifOf? l = some m →
      endifOf? k = none → Arranged first → Arranged second → Arranged rest →
      Arranged (.branch l :: (first ++ .jump k :: .label l :: (second ++ .label m :: rest)))

/-- A body that starts with its entry label and whose conditionals are arranged, with labels that are
all different. -/
structure IsArranged (code : Code) : Prop where
  body : ∃ (entry : Instr) (f : String) (body : Code), code = entry :: body ∧
    entry.joint? = some (.label f) ∧ Arranged (skeleton body)
  nodup : (labelNames code).Nodup

theorem Arranged.jumps (h : Arranged js) (hl : .jump l ∈ js) : endifOf? l = none := by
  induction h with
  | nil => cases hl
  | jump hk _ ih =>
    rcases mem_cons.mp hl with h | hl
    · cases h
      exact hk
    · exact ih hl
  | cond _ hk _ _ _ ih₁ ih₂ ih₃ =>
    simp only [mem_cons, mem_append, reduceCtorEq, false_or, Joint.jump.injEq] at hl
    rcases hl with hl | rfl | hl | hl
    · exact ih₁ hl
    · exact hk
    · exact ih₂ hl
    · exact ih₃ hl

namespace IsArranged

variable {code' : Code}

theorem jumps (hc : IsArranged code) (hi : i ∈ code) (hj : i.joint? = some (.jump l)) :
    endifOf? l = none := by
  obtain ⟨entry, f, body, rfl, hentry, hbody⟩ := hc.body
  rcases mem_cons.mp hi with rfl | hi
  · cases hentry.symm.trans hj
  · exact hbody.jumps (mem_filterMap.mpr ⟨i, hi, hj⟩)

theorem of_skeleton_eq (hc : IsArranged code) (hhead : code'.head? = code.head?)
    (hs : skeleton code' = skeleton code) : IsArranged code' := by
  obtain ⟨⟨entry, f, body, rfl, hentry, hbody⟩, hnodup⟩ := hc
  obtain ⟨body', rfl⟩ := head?_eq_some_iff.mp hhead
  rw [skeleton_cons_some hentry, skeleton_cons_some hentry, List.cons.injEq] at hs
  refine ⟨⟨entry, f, body', rfl, hentry, hs.2 ▸ hbody⟩, ?_⟩
  rw [labelNames_cons_label hentry, labelNames_eq] at hnodup ⊢
  rwa [hs.2]

end IsArranged

/-! ## Parts of a body by their places -/

theorem drop_of_drop_append {start : Nat} (part : Code) (h : code.drop start = part ++ post) :
    code.drop (start + part.length) = post := by
  rw [← drop_drop, h, drop_left]

theorem drop_of_drop_cons {start : Nat} (h : code.drop start = i :: post) :
    code.drop (start + 1) = post :=
  drop_of_drop_append [i] h

theorem getElem?_of_drop {start : Nat} (h : code.drop start = i :: post) : code[start]? = some i := by
  rw [← head?_drop, h, head?_cons]

theorem labelIndex?_of_drop {p : Nat} (hnodup : (labelNames code).Nodup) (h : code.drop p = i :: post)
    (hi : i.joint? = some (.label l)) : labelIndex? l code = some p := by
  obtain ⟨hlt, -⟩ := List.getElem?_eq_some_iff.mp (getElem?_of_drop h)
  refine labelIndex?_eq_some_iff.mpr ⟨code.take p, i, post, ?_, ?_, hi, ?_⟩
  · rw [← h, take_append_drop]
  · rw [length_take, Nat.min_eq_left hlt.le]
  · exact not_mem_labelNames hnodup (h ▸ drop_suffix p code) hi

end ClosureCodegen
