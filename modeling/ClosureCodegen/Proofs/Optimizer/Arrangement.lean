import ClosureCodegen.Proofs.Optimizer.StackBehaviour

/-!
# Coalescing arranged bodies

A body that was lowered is arranged, and so are those that the passes make of it.  Where a joint of
such a body stands is `Placed`: from this follows that the body is orderly, so that coalescing keeps
its behaviour.  Nor does coalescing ever fail to find the end of a conditional in it: it fails only if
an offset leaves the range of a word.

* `IsArranged.orderly`: arranged code is orderly.
* `overflowsOnly_coalesceStack`: coalescing an arranged body fails for want of range only.
* `coalesceStack_keeps`: coalesced code is arranged and tidy again.
-/

namespace ClosureCodegen
open List

variable {l m : String} {front js : List Joint} {j : Joint} {i : Instr} {rest a code : Code}

/-! ## Where the joints of an arranged body stand -/

theorem endifOf?_of_endifOf? (h : endifOf? l = some m) : endifOf? m = none := by
  unfold endifOf? at h
  split at h
  · rw [Option.ite_none_right_eq_some, Option.some.injEq] at h
    rw [← h.2, endifOf?, String.toList_append]
    rfl
  · cases h

/-- A joint of an arranged skeleton, with what stands in front of it and behind it. -/
inductive Placed : List Joint → Joint → List Joint → Prop where
  | jump {front rest : List Joint} {l : String} : endifOf? l = none → Placed front (.jump l) rest
  | branch {front rest : List Joint} {l m : String} : endifOf? l = some m →
      (∃ first second behind, rest.filterMap Joint.label? = first ++ l :: (second ++ m :: behind)) →
      Placed front (.branch l) rest
  | taken {front rest : List Joint} {l m : String} : endifOf? l = some m →
      (∃ arm k, front = arm ++ [.jump k]) → Placed front (.label l) rest
  | join {front rest : List Joint} {l m : String} : endifOf? l = some m → .branch l ∈ front →
      .label l ∈ front → Placed front (.label m) rest

theorem Placed.mono {rest : List Joint} (h : Placed front j rest) (a b : List Joint) :
    Placed (a ++ front) j (rest ++ b) := by
  cases h with
  | jump hl => exact .jump hl
  | branch hm hlabels =>
    obtain ⟨first, second, behind, hlabels⟩ := hlabels
    refine .branch hm ⟨first, second, behind ++ b.filterMap Joint.label?, ?_⟩
    rw [filterMap_append, hlabels, append_assoc, cons_append, append_assoc,
      cons_append]
  | taken hm hfront =>
    obtain ⟨arm, k, rfl⟩ := hfront
    exact .taken hm ⟨a ++ arm, k, (append_assoc _ _ _).symm⟩
  | join hm hb hl => exact .join hm (mem_append_right a hb) (mem_append_right a hl)

theorem Arranged.placed (h : Arranged js) {rest : List Joint} (hjs : js = front ++ j :: rest) :
    Placed front j rest := by
  induction h generalizing front rest with
  | nil => cases front <;> cases hjs
  | @jump l _ hl _ ih =>
    cases front with
    | nil =>
      cases hjs
      exact .jump hl
    | cons x front =>
      rw [cons_append, List.cons.injEq] at hjs
      obtain ⟨rfl, hjs⟩ := hjs
      simpa using (ih hjs).mono [.jump l] []
  | @cond l m k first second tail hm hk _ _ _ ih₁ ih₂ ih₃ =>
    cases front with
    | nil =>
      cases hjs
      refine .branch hm ⟨first.filterMap Joint.label?, second.filterMap Joint.label?,
        tail.filterMap Joint.label?, ?_⟩
      simp [filterMap_cons, Joint.label?]
    | cons x front =>
    rw [cons_append, List.cons.injEq] at hjs
    obtain ⟨rfl, hjs⟩ := hjs
    rcases append_eq_append_cons hjs with ⟨c, hfirst, rfl⟩ | ⟨c, rfl, hjump⟩
    · exact (ih₁ hfirst).mono [.branch l] _
    rcases cons_eq_append_iff.mp hjump with ⟨rfl, heq⟩ | ⟨c, rfl, htaken⟩
    · cases heq
      exact .jump hk
    rcases cons_eq_append_iff.mp htaken with ⟨rfl, heq⟩ | ⟨c, rfl, harm⟩
    · cases heq
      exact .taken hm ⟨.branch l :: first, k, rfl⟩
    rcases append_eq_append_cons harm with ⟨d, hsecond, rfl⟩ | ⟨d, rfl, hjoin⟩
    · have hplaced := (ih₂ hsecond).mono (.branch l :: (first ++ [.jump k, .label l])) (.label m :: tail)
      rw [cons_append, append_assoc] at hplaced
      exact hplaced
    rcases cons_eq_append_iff.mp hjoin with ⟨rfl, heq⟩ | ⟨d, rfl, htail⟩
    · cases heq
      exact .join hm mem_cons_self (by simp)
    · have hplaced := (ih₃ htail).mono
        (.branch l :: (first ++ .jump k :: .label l :: (second ++ [.label m]))) []
      rw [cons_append, append_assoc, cons_append, cons_append, append_assoc,
        append_nil] at hplaced
      exact hplaced

theorem Instr.HeadsConditional.mem {labels : List String} (h : i.HeadsConditional labels)
    (ha : i.arms? = some ⟨l, m⟩) : l ∈ labels := by
  obtain ⟨l', m', first, second, behind, harms, rfl, -⟩ := h
  cases ha.symm.trans harms
  exact mem_append_right first mem_cons_self

theorem Instr.IsTidy.not_joint (hi : i.IsTidy) (hj : i.joint? = none) :
    i.isLabel = false ∧ i.op.isBranch = false := by
  refine ⟨Bool.eq_false_iff.mpr fun hl => ?_, Bool.eq_false_iff.mpr fun hb => ?_⟩
  · obtain ⟨l, hlabel⟩ := Option.isSome_iff_exists.mp (hi.named hl)
    cases (joint?_of_isLabel hl hlabel).symm.trans hj
  · obtain ⟨l, hlabel⟩ := hi.label?_of_isBranch hb
    cases (joint?_of_isBranch hb hlabel).symm.trans hj

theorem Instr.IsTidy.op_of_jump (hi : i.IsTidy) (hj : i.joint? = some (.jump l)) : i.op = .j := by
  refine (joint?_eq_jump hj).1.resolve_right fun hop => ?_
  have hm := hi.isMachine
  rw [hop] at hm
  cases hm

namespace IsArranged

variable (hc : IsArranged code)
include hc

theorem placed {front : Code} (hcode : code = front ++ i :: rest) (hi : i.joint? = some j) :
    (front = [] ∧ code.head? = some i) ∨
      ∃ entry body, front = entry :: body ∧ Placed (skeleton body) j (skeleton rest) := by
  obtain ⟨entry, f, body, hbody, -, harranged⟩ := hc.body
  cases front with
  | nil => exact .inl ⟨rfl, by rw [hcode]; rfl⟩
  | cons e front =>
    rw [hbody, cons_append, List.cons.injEq] at hcode
    refine .inr ⟨e, front, rfl, harranged.placed ?_⟩
    rw [hcode.2, skeleton_append, skeleton_cons_some hi]

theorem headsConditional (hs : i :: rest <:+ code) (hi : i.joint? = some (.branch l)) :
    ∃ m, i.arms? = some ⟨l, m⟩ ∧ i.HeadsConditional (labelNames rest) := by
  obtain ⟨front, hcode⟩ := hs
  obtain ⟨hb, hl⟩ := Instr.joint?_eq_branch hi
  rcases hc.placed hcode.symm hi with ⟨rfl, hhead⟩ | ⟨entry, body, -, hplaced⟩
  · obtain ⟨entry, f, body, rfl, hentry, -⟩ := hc.body
    cases hhead
    cases hentry.symm.trans hi
  · cases hplaced with
    | @branch _ _ m hm hlabels =>
    obtain ⟨first, second, behind, hlabels⟩ := hlabels
    rw [← labelNames_eq] at hlabels
    have harms := Instr.arms?_eq_some_iff.mpr ⟨hb, hl, hm⟩
    have hnodup := hc.nodup
    rw [← hcode, labelNames_append, labelNames_cons_of_not_isLabel (isLabel_of_isBranch hb), hlabels,
      nodup_append, nodup_append] at hnodup
    obtain ⟨hlast, hbehind⟩ := nodup_cons.mp hnodup.2.1.2.1
    rw [nodup_append] at hbehind
    exact ⟨m, harms, l, m, first, second, behind, harms, hlabels, hlast,
      (nodup_cons.mp hbehind.2.1).1⟩

theorem arms?_ne_entry {entry : Instr} {body : Code} (hcode : code = entry :: body)
    (hentry : entry.joint? = some (.label l)) (hi : i ∈ code) (m : String) :
    i.arms? ≠ some ⟨l, m⟩ := by
  intro harms
  obtain ⟨hb, hl, -⟩ := Instr.arms?_eq_some_iff.mp harms
  obtain ⟨front, rest, hsplit⟩ := append_of_mem hi
  obtain ⟨m', harms', hheads⟩ := hc.headsConditional ⟨front, hsplit.symm⟩
    (Instr.joint?_of_isBranch hb hl)
  have hsuffix : entry :: body <:+ code := by rw [hcode]
  refine not_mem_labelNames hc.nodup hsuffix hentry ?_
  cases front with
  | nil =>
    cases hcode.symm.trans hsplit
    cases hentry.symm.trans (Instr.joint?_of_isBranch hb hl)
  | cons x front =>
    rw [cons_append] at hsplit
    obtain ⟨rfl, rfl⟩ := List.cons.inj (hcode.symm.trans hsplit)
    rw [labelNames_append, labelNames_cons]
    exact mem_append_right _ (mem_append_right _ (hheads.mem harms'))

/-- A label that is not the start of an arm is the entry of the body or the end of a conditional. -/
theorem settled_of_label (hmem : l ∈ labelNames code) (hl : endifOf? l = none) :
    (∃ entry, code.head? = some entry ∧ entry.joint? = some (.label l)) ∨
      ∃ k ∈ code, ∃ t, k.arms? = some ⟨t, l⟩ ∧ t ∈ labelNames code := by
  obtain ⟨xs, ys, hnames⟩ := append_of_mem hmem
  obtain ⟨front, i, rest, hcode, -, hi, -⟩ := labelNames_eq_append_cons hnames
  rcases hc.placed hcode hi with ⟨-, hhead⟩ | ⟨entry, body, rfl, hplaced⟩
  · exact .inl ⟨i, hhead, hi⟩
  · have hbody : body ⊆ code := fun x hx => by
      rw [hcode]
      simp [hx]
    cases hplaced with
    | taken hm => cases hl.symm.trans hm
    | join hm hbranch hlabel =>
      obtain ⟨k, hk, hjoint⟩ := mem_filterMap.mp hbranch
      obtain ⟨x, hx, hxjoint⟩ := mem_filterMap.mp hlabel
      obtain ⟨hb, hkl⟩ := Instr.joint?_eq_branch hjoint
      refine .inr ⟨k, hbody hk, _, Instr.arms?_eq_some_iff.mpr ⟨hb, hkl, hm⟩, ?_⟩
      rw [labelNames_eq, mem_filterMap]
      exact ⟨_, mem_filterMap.mpr ⟨x, hbody hx, hxjoint⟩, rfl⟩

theorem orderly (htidy : ∀ i ∈ code, i.IsTidy) : Orderly code where
  safe i hi := (htidy i hi).stack
  nodup := hc.nodup
  arms := by
    intro i rest l m hs harms _
    obtain ⟨hb, hl, -⟩ := Instr.arms?_eq_some_iff.mp harms
    exact (hc.headsConditional hs (Instr.joint?_of_isBranch hb hl)).choose_spec.2
  guarded := by
    rintro front rest taken l hcode htaken ⟨i, hi, m, harms⟩
    obtain ⟨hb, hl, hm⟩ := Instr.arms?_eq_some_iff.mp harms
    rcases hc.placed hcode htaken with ⟨rfl, -⟩ | ⟨entry, body, rfl, hplaced⟩
    · -- the entry label is not among those behind a branch
      exact absurd harms (hc.arms?_ne_entry hcode htaken hi m)
    · cases hplaced with
      | taken _ hfront =>
        obtain ⟨arm, k, hfront⟩ := hfront
        obtain ⟨first, jump, dead, rfl, -, hjump, hdead⟩ := skeleton_eq_append_cons hfront
        have hmem : ∀ {x : Instr}, x ∈ jump :: dead → x.IsTidy := fun hx => htidy _ (by
          rw [hcode]
          simp only [mem_append, mem_cons] at hx ⊢
          exact .inl (.inr (.inr hx)))
        refine ⟨entry :: first, jump, dead, rfl, .inl ?_, fun x hx => ?_⟩
        · exact (hmem mem_cons_self).op_of_jump hjump
        · exact (hmem (mem_cons_of_mem jump hx)).not_joint (skeleton_eq_nil.mp hdead x hx)
      | join hm' => cases (endifOf?_of_endifOf? hm').symm.trans hm
  targets := by
    intro i l hi hop hl
    rcases hop with hj | hb
    · have hnone := hc.jumps hi (Instr.joint?_of_jump hj hl)
      refine .inr ?_
      by_cases hmem : l ∈ labelNames code
      · exact .inr (hc.settled_of_label hmem hnone)
      · exact .inl hmem
    · obtain ⟨front, rest, hcode⟩ := append_of_mem hi
      obtain ⟨m, harms, hheads⟩ := hc.headsConditional ⟨front, hcode.symm⟩
        (Instr.joint?_of_isBranch hb hl)
      refine .inl ⟨m, harms, ?_⟩
      rw [hcode, labelNames_append, labelNames_cons]
      exact mem_append_right _ (mem_append_right _ (hheads.mem harms))

end IsArranged

/-! ## Coalescing arranged bodies -/

section Overflow

variable {pre post : Code}

theorem overflowsOnly_displace (i : Instr) (n : Nat) (p : Word) : (i.displace n p).OverflowsOnly := by
  unfold Instr.displace
  split
  · exact .bind (.add? _ _) fun _ _ => .pure _
  · exact .pure _

theorem overflowsOnly_cons (hi : i.arms? = none)
    (hrest : ∀ q, (coalescePart (pre ++ [i]) rest post q).OverflowsOnly) (p : Word) :
    (coalescePart pre (i :: rest) post p).OverflowsOnly := by
  cases hk : i.stackAdjustment? with
  | some k =>
    rw [coalescePart_adjust hk]
    exact .bind (.add? _ _) fun q _ => .bind (hrest q) fun _ _ => .pure _
  | none =>
  cases hn : i.stackOffset? with
  | some n =>
    rw [coalescePart_access hk hn]
    exact .bind (overflowsOnly_displace i n p) fun _ _ => .bind (hrest p) fun _ _ => .pure _
  | none =>
  by_cases hs : i.op.isBranch = true ∨ i.op.seesStack = true
  · have hnone : ¬ i.HeadsConditional (labelNames rest ++ labelNames post) := by
      rintro ⟨l, m, _, _, _, harms, -⟩
      cases hi.symm.trans harms
    rw [coalescePart_settle hs hnone]
    exact .bind (hrest 0) fun _ _ => .pure _
  · rw [not_or, Bool.not_eq_true, Bool.not_eq_true] at hs
    rw [coalescePart_keep hk hn hs.1 hs.2]
    exact .bind (hrest p) fun _ _ => .pure _

theorem Instr.arms?_of_joint (h : ∀ l, i.joint? ≠ some (.branch l)) : i.arms? = none := by
  refine Option.eq_none_iff_forall_ne_some.mpr fun ⟨l, m⟩ harms => ?_
  obtain ⟨hb, hl, -⟩ := arms?_eq_some_iff.mp harms
  exact h l (joint?_of_isBranch hb hl)

theorem overflowsOnly_append (ha : skeleton a = [])
    (hrest : ∀ q, (coalescePart (pre ++ a) rest post q).OverflowsOnly) (p : Word) :
    (coalescePart pre (a ++ rest) post p).OverflowsOnly := by
  induction a generalizing pre p with
  | nil => simpa using hrest p
  | cons i a ih =>
    rw [skeleton_eq_nil, forall_mem_cons, ← skeleton_eq_nil] at ha
    refine overflowsOnly_cons (Instr.arms?_of_joint fun l h => ?_) (fun q => ih ha.2 ?_ q) p
    · cases ha.1.symm.trans h
    · simpa using hrest

theorem overflowsOnly_whole {p : Word}
    (h : (∀ q, (coalescePart (pre ++ a) [] post q).OverflowsOnly) →
      (coalescePart pre (a ++ []) post p).OverflowsOnly) :
    (coalescePart pre a post p).OverflowsOnly := by
  rw [append_nil] at h
  refine h fun q => ?_
  rw [coalescePart_nil]
  exact .ok _

theorem overflowsOnly_of_arranged (hjs : Arranged js) {part : Code} (hpart : skeleton part = js)
    (hnodup : (labelNames part ++ (labelNames rest ++ labelNames post)).Nodup)
    (hrest : ∀ q, (coalescePart (pre ++ part) rest post q).OverflowsOnly) (p : Word) :
    (coalescePart pre (part ++ rest) post p).OverflowsOnly := by
  induction hjs generalizing pre part rest post p with
  | nil => exact overflowsOnly_append hpart hrest p
  | jump _ _ ih =>
    obtain ⟨a, i, b, rfl, ha, hi, hb⟩ := skeleton_eq_cons hpart
    rw [append_assoc, cons_append]
    refine overflowsOnly_append ha (fun q => ?_) p
    refine overflowsOnly_cons (Instr.arms?_of_joint fun l h => by cases hi.symm.trans h) (fun q => ?_) q
    refine ih hb ?_ (fun q => ?_) q
    · rw [labelNames_append, labelNames_cons, append_assoc, append_assoc] at hnodup
      exact (nodup_append.mp (nodup_append.mp hnodup).2.1).2.1
    · simpa using hrest q
  | @cond l m _ _ _ _ hm _ _ _ _ ih₁ ih₂ ih₃ =>
    obtain ⟨a, branch, c, rfl, ha, hbranch, hc⟩ := skeleton_eq_cons hpart
    obtain ⟨first, jump, c, rfl, hfirst, hj, hc⟩ := skeleton_eq_append_cons hc
    obtain ⟨dead, taken, c, rfl, hdead, ht, hc⟩ := skeleton_eq_cons hc
    obtain ⟨second, join, tail, rfl, hsecond, hjoin, htail⟩ := skeleton_eq_append_cons hc
    have hplain : ∀ {b : Code}, skeleton b = [] → labelNames b = [] := fun hb => by
      rw [labelNames_eq, hb]
      rfl
    have hjumpNames : ∀ b : Code, labelNames (jump :: b) = labelNames b := fun b => by
      rw [labelNames_eq, skeleton_cons_some hj, labelNames_eq]
      rfl
    rw [labelNames_append, hplain ha, nil_append,
      labelNames_cons_of_not_isLabel (isLabel_of_isBranch (Instr.joint?_eq_branch hbranch).1),
      labelNames_append, hjumpNames, labelNames_append, hplain hdead, nil_append,
      labelNames_cons_label ht, labelNames_append, labelNames_cons_label hjoin] at hnodup
    simp only [append_assoc, cons_append] at hnodup hrest ⊢
    have htaken := (nodup_append.mp hnodup).2.1
    have harm := (nodup_cons.mp htaken).2
    have hend := (nodup_append.mp harm).2.1
    obtain ⟨hb, hl⟩ := Instr.joint?_eq_branch hbranch
    have hnames : labelNames (tail ++ rest ++ post) =
        labelNames tail ++ (labelNames rest ++ labelNames post) := by
      rw [labelNames_append, labelNames_append, append_assoc]
    have harms : ArmsAhead branch l m taken (labelNames second) join
        (labelNames (tail ++ rest) ++ labelNames post) := by
      rw [← labelNames_append, hnames]
      exact ⟨Instr.arms?_eq_some_iff.mpr ⟨hb, hl, hm⟩, ht, hjoin, (nodup_cons.mp htaken).1,
        (nodup_cons.mp hend).1⟩
    have hsplit : branch :: (first ++ jump :: (dead ++ taken :: (second ++ join :: (tail ++ rest)))) =
        branch :: ((first ++ jump :: dead) ++ taken :: (second ++ join :: (tail ++ rest))) := by
      simp only [append_assoc, cons_append]
    refine overflowsOnly_append ha (fun q => ?_) p
    rw [hsplit, coalescePart_cond harms]
    refine .bind ?_ fun _ _ => .bind ?_ fun _ _ => .bind ?_ fun _ _ => .pure _
    · refine ih₁ hfirst ?_ (fun q => ?_) q
      · rwa [hjumpNames, hplain hdead, nil_append, labelNames_cons_label ht, labelNames_append,
          labelNames_cons_label hjoin, hnames]
      · refine overflowsOnly_cons (Instr.arms?_of_joint fun l h => by cases hj.symm.trans h)
          (fun q => ?_) q
        exact overflowsOnly_whole fun h => overflowsOnly_append hdead h q
    · refine overflowsOnly_whole fun h => ih₂ hsecond ?_ h q
      rwa [labelNames_nil, nil_append, labelNames_cons_label hjoin, hnames]
    · refine ih₃ htail (nodup_cons.mp hend).2 (fun q => ?_) 0
      simpa using hrest q

end Overflow

theorem overflowsOnly_coalesceStack (hc : IsArranged code) :
    (coalesceStack code).OverflowsOnly := by
  obtain ⟨⟨entry, f, body, rfl, hentry, hbody⟩, hnodup⟩ := hc
  rw [coalesceStack_eq]
  refine overflowsOnly_cons (Instr.arms?_of_joint fun l h => by cases hentry.symm.trans h) (fun q => ?_) 0
  refine overflowsOnly_whole fun h => overflowsOnly_of_arranged hbody rfl ?_ h q
  rw [labelNames_cons_label hentry] at hnodup
  simpa using (nodup_cons.mp hnodup).2

/-- Coalescing keeps the shape of a body, and tidy code stays so. -/
theorem coalesceStack_keeps {c : Coalesced} (hc : IsArranged code) (htidy : ∀ i ∈ code, i.IsTidy)
    (h : coalesceStack code = .ok c) : IsArranged c.code ∧ ∀ i ∈ c.code, i.IsTidy := by
  have hcoalesces : Coalesces [] 0 code c.code := coalesceStack_eq_ok_iff.mp ⟨c.absorbed, h⟩
  refine ⟨hc.of_skeleton_eq ?_ hcoalesces.skeleton_eq, hcoalesces.isTidy htidy⟩
  obtain ⟨entry, f, body, rfl, hentry, -⟩ := hc.body
  obtain ⟨body', hout, -⟩ := hcoalesces.of_label hentry
  rw [hout]
  rfl

end ClosureCodegen
