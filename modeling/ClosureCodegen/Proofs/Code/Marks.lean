import ClosureCodegen.Proofs.Compilation.LoweredBodies

/-!
# The order of branches and labels

Where the conditionals of a body are is decided by its labels and branches alone, its marks.  If they
are `LaidOut`, one conditional behind another and each with further ones in its two arms, and if no
label comes twice, then the body is `ProperlyNested`: each branch stands in front of the two labels of
its arms, and of two conditionals one is over before the other starts, or lies in one of its arms.

Hence a pass that keeps the marks of bodies keeps their conditionals nested.

* `Nested.apart_or_inside`: two conditionals of a nested part.
* `IsLaidOut.properlyNested`: what the order of the marks says about places.
-/

namespace ClosureCodegen
open List

variable {code part post : Code} {i k : Instr} {ms : List Mark} {l : String}
  {a b n p q stop start : Nat}

/-! ## Conditionals by their places -/

/-- A branch to the arm with a number, and the places of the labels of that arm and of its end. -/
structure Spans (code : Code) (a n p q : Nat) : Prop where
  branch : ∃ i, code[a]? = some i ∧ i.op.isBranch = true ∧ i.label? = some (thenLabel n)
  taken : labelIndex? (thenLabel n) code = some p
  join : labelIndex? (endifLabel n) code = some q

/-- No label comes twice. Every branch stands in front of the arm it leads to, and a conditional that
starts behind another one starts behind its end, or lies in its first or in its second arm. -/
structure ProperlyNested (code : Code) : Prop where
  nodup : (labelNames code).Nodup
  spans : ∀ a i, code[a]? = some i → i.op.isBranch = true →
    ∃ n p q, Spans code a n p q ∧ a < p ∧ p < q
  nested : ∀ {a n p q b m r s}, Spans code a n p q → Spans code b m r s → a < b →
    q < b ∨ s < p ∨ p < b ∧ s < q

theorem Spans.arms? (h : Spans code a n p q) :
    ∃ i, code[a]? = some i ∧ i.arms? = some ⟨thenLabel n, endifLabel n⟩ := by
  obtain ⟨i, hi, hb, hl⟩ := h.branch
  exact ⟨i, hi, Instr.arms?_eq_some_iff.mpr ⟨hb, hl, endifOf?_thenLabel n⟩⟩

theorem Spans.ne_of_labelIndex? (h : Spans code a n p q) (hl : labelIndex? l code = some b) : a ≠ b := by
  rintro rfl
  obtain ⟨i, hi, hb, -⟩ := h.branch
  obtain ⟨pre, k, post, rfl, rfl, hk, -⟩ := labelIndex?_eq_some_iff.mp hl
  rw [getElem?_append_right (Nat.le_refl _), Nat.sub_self, getElem?_cons_zero] at hi
  cases hi
  rw [Instr.isBranch_of_isLabel (Instr.joint?_eq_label hk).1] at hb
  cases hb

namespace Nested

variable (h : Nested code start stop)
include h

theorem bounds {arms : Arms} (hi : code[a]? = some i) (harms : i.arms? = some arms)
    (hstart : start ≤ a) (hstop : a < stop) :
    ∃ p q, labelIndex? arms.takenLabel code = some p ∧ labelIndex? arms.endLabel code = some q ∧
      a < p ∧ p < q ∧ q < stop := by
  induction h with
  | done => omega
  | @plain start stop k _ hk hnone _ ih =>
    rcases Nat.eq_or_lt_of_le hstart with rfl | hlt
    · cases hk.symm.trans hi
      cases hnone.symm.trans harms
    · exact ih hlt hstop
  | @conditional start stop taken join k arms' hk harms' htaken hjoin h₁ h₂ h₃ _ _ _ ih₁ ih₂ ih₃ =>
    rcases Nat.eq_or_lt_of_le hstart with rfl | hlt
    · cases hk.symm.trans hi
      cases harms'.symm.trans harms
      exact ⟨taken, join, htaken, hjoin, h₁, h₂, h₃⟩
    · by_cases hfirst : a < taken
      · obtain ⟨p, q, hp, hq, hap, hpq, hlast⟩ := ih₁ hlt hfirst
        exact ⟨p, q, hp, hq, hap, hpq, by omega⟩
      · by_cases hsecond : a < join
        · obtain ⟨p, q, hp, hq, hap, hpq, hlast⟩ := ih₂ (Nat.le_of_not_lt hfirst) hsecond
          exact ⟨p, q, hp, hq, hap, hpq, by omega⟩
        · exact ih₃ (Nat.le_of_not_lt hsecond) hstop

theorem bounds_of_spans (hs : Spans code a n p q) (hstart : start ≤ a) (hstop : a < stop) :
    a < p ∧ p < q ∧ q < stop := by
  obtain ⟨i, hi, harms⟩ := hs.arms?
  obtain ⟨p', q', hp, hq, hlt⟩ := h.bounds hi harms hstart hstop
  cases hs.taken.symm.trans hp
  cases hs.join.symm.trans hq
  exact hlt

/-- Of two conditionals of a nested part the later one is apart from the first or in one of its
arms. -/
theorem apart_or_inside {m r s : Nat} (hs : Spans code a n p q) (hs' : Spans code b m r s)
    (hstart : start ≤ a) (hab : a < b) (hstop : b < stop) : q < b ∨ s < p ∨ p < b ∧ s < q := by
  induction h with
  | done => omega
  | @plain start stop k _ hk hnone _ ih =>
    rcases Nat.eq_or_lt_of_le hstart with rfl | hlt
    · obtain ⟨i, hi, harms⟩ := hs.arms?
      cases hk.symm.trans hi
      cases hnone.symm.trans harms
    · exact ih hlt hstop
  | @conditional start stop taken join k arms hk harms htaken hjoin h₁ h₂ h₃ n₁ n₂ n₃ ih₁ ih₂ ih₃ =>
    have htb := hs'.ne_of_labelIndex? htaken
    have hjb := hs'.ne_of_labelIndex? hjoin
    rcases Nat.eq_or_lt_of_le hstart with rfl | hlt
    · obtain ⟨i, hi, harms'⟩ := hs.arms?
      cases hk.symm.trans hi
      cases harms.symm.trans harms'
      cases htaken.symm.trans hs.taken
      cases hjoin.symm.trans hs.join
      by_cases hfirst : b < p
      · exact .inr (.inl (n₁.bounds_of_spans hs' hab hfirst).2.2)
      · by_cases hsecond : b < q
        · have hlast := (n₂.bounds_of_spans hs' (Nat.le_of_not_lt hfirst) hsecond).2.2
          exact .inr (.inr ⟨by omega, hlast⟩)
        · exact .inl (by omega)
    -- The first of the two lies in one of the three parts; if the other lies in a later one, the
    -- first is over by then.
    · by_cases hfirst : a < taken
      · by_cases hb : b < taken
        · exact ih₁ hlt hb
        · have := n₁.bounds_of_spans hs hlt hfirst
          exact .inl (by omega)
      · by_cases hsecond : a < join
        · by_cases hb : b < join
          · exact ih₂ (Nat.le_of_not_lt hfirst) hb
          · have := n₂.bounds_of_spans hs (Nat.le_of_not_lt hfirst) hsecond
            exact .inl (by omega)
        · exact ih₃ (Nat.le_of_not_lt hsecond) hstop

end Nested

/-! ## Marks -/

/-- What an instruction is to the conditionals of a body. -/
inductive Mark where
  | label (l? : Option String)
  | branch (l? : Option String)
  deriving DecidableEq

def Instr.mark? (i : Instr) : Option Mark :=
  if i.isLabel then some (.label i.label?)
  else if i.op.isBranch then some (.branch i.label?)
  else none

/-- The labels and branches of a body, in order. -/
def marksOf (code : Code) : List Mark := code.filterMap Instr.mark?

@[simp] theorem marksOf_nil : marksOf [] = [] := rfl

@[simp] theorem marksOf_append (code code' : Code) :
    marksOf (code ++ code') = marksOf code ++ marksOf code' :=
  filterMap_append

theorem marksOf_cons (i : Instr) (code : Code) : marksOf (i :: code) = i.mark?.toList ++ marksOf code := by
  rw [marksOf, filterMap_cons]
  cases i.mark? <;> rfl

theorem marksOf_cons_of_none (h : i.mark? = none) (code : Code) : marksOf (i :: code) = marksOf code := by
  rw [marksOf_cons, h]
  rfl

theorem marksOf_eq_cons {m : Mark} (h : marksOf code = m :: ms) : ∃ a i b, code = a ++ i :: b ∧
    marksOf a = [] ∧ i.mark? = some m ∧ marksOf b = ms :=
  exists_of_filterMap_eq (show marksOf code = [] ++ m :: ms from h)

theorem marksOf_eq_nil : marksOf code = [] ↔ ∀ i ∈ code, i.mark? = none := filterMap_eq_nil_iff

namespace Instr

theorem mark?_congr (hop : k.op = i.op) (hl : k.label? = i.label?) : k.mark? = i.mark? := by
  unfold mark? isLabel
  rw [hop, hl]

theorem mark?_eq_none (hl : i.op ≠ .label) (hb : i.op.isBranch = false) : i.mark? = none := by
  simp [mark?, isLabel, hl, hb]

theorem mark?_of_op (h : i.op.isInner = true ∨ i.op.isCall = true) : i.mark? = none := by
  obtain ⟨op, os⟩ := i
  refine mark?_eq_none ?_ ?_
  · rintro rfl
    rcases h with h | h <;> cases h
  · cases op <;> first | rfl | (rcases h with h | h <;> cases h)

theorem mark?_of_isBranch (h : i.op.isBranch = true) : i.mark? = some (.branch i.label?) := by
  simp [mark?, isLabel_of_isBranch h, h]

theorem joint?_of_mark? (h : i.mark? = some (.label (some l))) : i.joint? = some (.label l) := by
  unfold mark? at h
  split at h
  · next hi => exact joint?_of_isLabel hi (by simpa using h)
  · split at h <;> cases h

theorem isBranch_of_mark? {l? : Option String} (h : i.mark? = some (.branch l?)) :
    i.op.isBranch = true ∧ i.label? = l? := by
  unfold mark? at h
  split at h
  · cases h
  · split at h
    · next hb => exact ⟨hb, by simpa using h⟩
    · cases h

theorem arms?_of_mark? (h : i.mark? = none) : i.arms? = none := by
  unfold mark? at h
  split at h
  · cases h
  · split at h
    · cases h
    · next hb => exact arms?_of_not_isBranch (Bool.eq_false_iff.mpr hb)

end Instr

def Mark.label? : Mark → Option String
  | .label l? => l?
  | .branch _ => none

theorem labelNames_eq_marks (code : Code) : labelNames code = (marksOf code).filterMap Mark.label? := by
  rw [labelNames, marksOf, filterMap_filterMap]
  refine filterMap_congr fun i _ => ?_
  unfold Instr.mark?
  split
  · rfl
  · split <;> rfl

/-- Conditionals one behind another, with further ones in their arms. -/
inductive LaidOut : List Mark → Prop where
  | nil : LaidOut []
  | cond (n : Nat) {first second rest : List Mark} : LaidOut first → LaidOut second → LaidOut rest →
      LaidOut (.branch (some (thenLabel n)) :: (first ++ .label (some (thenLabel n)) ::
        (second ++ .label (some (endifLabel n)) :: rest)))

theorem LaidOut.branch {l? : Option String} (h : LaidOut ms) (hm : .branch l? ∈ ms) :
    ∃ n, l? = some (thenLabel n) := by
  induction h with
  | nil => cases hm
  | cond n _ _ _ ih₁ ih₂ ih₃ =>
    simp only [mem_cons, mem_append, Mark.branch.injEq, reduceCtorEq, false_or] at hm
    rcases hm with rfl | hm | hm | hm
    · exact ⟨n, rfl⟩
    · exact ih₁ hm
    · exact ih₂ hm
    · exact ih₃ hm

namespace Nested

theorem skip_unmarked (hcode : code.drop start = part ++ post) (hm : marksOf part = [])
    (hle : start + part.length ≤ stop) (h : Nested code (start + part.length) stop) :
    Nested code start stop := by
  refine .skip part.length hle (fun k hk => ⟨part[k], ?_, ?_⟩) h
  · rw [← getElem?_drop, hcode, getElem?_append_left hk, getElem?_eq_getElem hk]
  · exact Instr.arms?_of_mark? (marksOf_eq_nil.mp hm _ (getElem_mem hk))

theorem cons_label (hcode : code.drop start = i :: post) (hi : i.mark? = some (.label (some l)))
    (hlt : start < stop) (h : Nested code (start + 1) stop) : Nested code start stop := by
  have hlabel := (Instr.joint?_eq_label (Instr.joint?_of_mark? hi)).1
  exact .plain hlt (getElem?_of_drop hcode)
    (Instr.arms?_of_not_isBranch (Instr.isBranch_of_isLabel hlabel)) h

end Nested

theorem LaidOut.nested (h : LaidOut ms) (hnodup : (labelNames code).Nodup)
    (hcode : code.drop start = part ++ post) (hm : marksOf part = ms) (hle : start + part.length ≤ stop)
    (hbehind : Nested code (start + part.length) stop) : Nested code start stop := by
  induction h generalizing start part post stop with
  | nil => exact .skip_unmarked hcode hm hle hbehind
  | @cond n first second rest _ _ _ ih₁ ih₂ ih₃ =>
    obtain ⟨gap, b, _, rfl, hgap, hb, hm⟩ := marksOf_eq_cons hm
    obtain ⟨fall, t, _, rfl, hfall, ht, hm⟩ := exists_of_filterMap_eq hm
    obtain ⟨taken, e, behind, rfl, htaken, he, hm⟩ := exists_of_filterMap_eq hm
    simp only [append_assoc, cons_append] at hcode
    have hcb := drop_of_drop_append _ hcode
    have hcfall := drop_of_drop_append [b] hcb
    have hct := drop_of_drop_append _ hcfall
    have hctaken := drop_of_drop_append [t] hct
    have hce := drop_of_drop_append _ hctaken
    have hcbehind := drop_of_drop_append [e] hce
    obtain ⟨hbranch, hlabel⟩ := Instr.isBranch_of_mark? hb
    simp only [length_append, length_cons, length_nil] at *
    refine .skip_unmarked hcode hgap (by omega) (.conditional (getElem?_of_drop hcb)
      (Instr.arms?_eq_some_iff.mpr ⟨hbranch, hlabel, endifOf?_thenLabel n⟩)
      (labelIndex?_of_drop hnodup hct (Instr.joint?_of_mark? ht))
      (labelIndex?_of_drop hnodup hce (Instr.joint?_of_mark? he)) (by omega) (by omega) (by omega)
      ?_ ?_ ?_)
    · exact ih₁ hcfall hfall (Nat.le_refl _) (.done (Nat.le_refl _))
    · exact .cons_label hct ht (by omega)
        (ih₂ hctaken htaken (Nat.le_refl _) (.done (Nat.le_refl _)))
    · refine .cons_label hce he (by omega) (ih₃ hcbehind hm (by omega) ?_)
      convert hbehind using 1
      omega

/-- A body with an entry label, in which no label comes twice and conditionals are laid out. -/
structure IsLaidOut (code : Code) : Prop where
  nodup : (labelNames code).Nodup
  laidOut : ∃ f ms, marksOf code = .label (some f) :: ms ∧ LaidOut ms

theorem IsLaidOut.congr {code' : Code} (h : IsLaidOut code) (hm : marksOf code' = marksOf code) :
    IsLaidOut code' :=
  ⟨by rw [labelNames_eq_marks, hm, ← labelNames_eq_marks]; exact h.nodup, hm ▸ h.laidOut⟩

theorem IsLaidOut.exists_thenLabel (h : IsLaidOut code) (hi : i ∈ code) (hb : i.op.isBranch = true) :
    ∃ n, i.label? = some (thenLabel n) := by
  obtain ⟨f, ms, hm, hlaid⟩ := h.laidOut
  have hmem : Mark.branch i.label? ∈ marksOf code :=
    mem_filterMap.mpr ⟨i, hi, Instr.mark?_of_isBranch hb⟩
  rw [hm] at hmem
  exact hlaid.branch ((mem_cons.mp hmem).resolve_left nofun)

theorem IsLaidOut.properlyNested (h : IsLaidOut code) : ProperlyNested code := by
  obtain ⟨f, ms, hm, hlaid⟩ := h.laidOut
  obtain ⟨gap, i, rest, hcode, hgap, hi, hrest⟩ := marksOf_eq_cons hm
  have hnested : Nested code 0 code.length := by
    have hstart : code.drop 0 = gap ++ i :: rest := hcode
    have hentry := drop_of_drop_append gap hstart
    have hbehind : code.drop (0 + gap.length + 1) = rest ++ [] :=
      (drop_of_drop_append [i] hentry).trans (append_nil rest).symm
    have hlength : code.length = 0 + gap.length + 1 + rest.length := by
      rw [hcode, length_append, length_cons]
      omega
    refine .skip_unmarked hstart hgap (by omega) (.cons_label hentry hi (by omega) ?_)
    exact hlaid.nested h.nodup hbehind hrest hlength.ge (.done hlength.le)
  refine ⟨h.nodup, fun a i hi hb => ?_, fun {a n p q b m r s} hs hs' hab => ?_⟩
  · obtain ⟨n, hn⟩ := h.exists_thenLabel (mem_of_getElem? hi) hb
    have harms := Instr.arms?_eq_some_iff.mpr ⟨hb, hn, endifOf?_thenLabel n⟩
    obtain ⟨p, q, hp, hq, hap, hpq, -⟩ :=
      hnested.bounds hi harms (Nat.zero_le a) (List.getElem?_eq_some_iff.mp hi).1
    exact ⟨n, p, q, ⟨⟨i, hi, hb, hn⟩, hp, hq⟩, hap, hpq⟩
  · obtain ⟨k, hk, -⟩ := hs'.branch
    exact hnested.apart_or_inside hs hs' (Nat.zero_le a) hab (List.getElem?_eq_some_iff.mp hk).1

end ClosureCodegen
