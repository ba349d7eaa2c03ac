import ClosureCodegen.Proofs.Code.Nesting
import ClosureCodegen.Proofs.Optimizer.Deferral

/-!
# What stack-pointer coalescing makes of a body

Coalescing numbers the instructions and follows the arms of a conditional from label to label.
`Coalesces` says what comes of it, part by part and without numbers.  Of what stands behind a part
only the labels matter: they decide whether a branch is that of a conditional.

* `coalesceStack_eq_ok_iff`: the relation is what the pass computes.
* `Coalesces.skeleton_eq`: labels, branches and jumps stay as they are.
-/

namespace ClosureCodegen
open List Outcome Opcode Instr

variable {i : Instr} {l m : String} {second behind : List String} {rest pre post part out : Code}
  {k p : Word} {n : Nat} {c : Coalesced}

theorem exists_of_append_cons_eq {α : Type} {a b c d : List α} {x : α}
    (h : a ++ x :: b = c ++ d) (hlt : a.length < c.length) :
    ∃ e, c = a ++ x :: e ∧ b = e ++ d := by
  refine (append_eq_append_cons h.symm).resolve_right ?_
  rintro ⟨e, rfl, -⟩
  rw [length_append] at hlt
  omega

/-! ## Conditionals ahead of a branch -/

/-- The labels of a conditional whose arms follow a branch, with the code of the arms in between. Of
two labels with one name the later one counts. -/
structure ArmsAhead (i : Instr) (l m : String) (taken : Instr) (second : List String) (join : Instr)
    (behind : List String) : Prop where
  arms : i.arms? = some ⟨l, m⟩
  taken : taken.joint? = some (.label l)
  join : join.joint? = some (.label m)
  last : l ∉ second ++ m :: behind
  joinLast : m ∉ behind

theorem ArmsAhead.labelNames_join {taken join : Instr}
    (ha : ArmsAhead i l m taken second join behind) (hrest : labelNames rest = behind) :
    labelNames (join :: rest) = m :: behind := by
  rw [labelNames_cons_label ha.join, hrest]

theorem ArmsAhead.labelNames_taken {taken join : Instr}
    (ha : ArmsAhead i l m taken second join behind) {arm : Code} (harm : labelNames arm = second)
    (hrest : labelNames rest = behind) :
    labelNames (taken :: (arm ++ join :: rest)) = l :: (second ++ m :: behind) := by
  rw [labelNames_cons_label ha.taken, labelNames_append, harm, ha.labelNames_join hrest]

/-- Whether a branch is that of a conditional, given the labels that stand behind it. -/
def Instr.HeadsConditional (i : Instr) (labels : List String) : Prop :=
  ∃ l m first second behind, i.arms? = some ⟨l, m⟩ ∧ labels = first ++ l :: (second ++ m :: behind) ∧
    l ∉ second ++ m :: behind ∧ m ∉ behind

theorem armPositions?_eq_some_iff {code : Code} {t j : Nat} (hcode : code = pre ++ i :: post) :
    armPositions? (labelTable code) i pre.length = some (t, j) ↔
      ∃ l m first taken second join rest, post = first ++ taken :: (second ++ join :: rest) ∧
        ArmsAhead i l m taken (labelNames second) join (labelNames rest) ∧
        t = pre.length + 1 + first.length ∧ j = t + 1 + second.length := by
  constructor
  · intro h
    have hlt := armPositions?_lt h
    simp only [armPositions?, Option.bind_eq_bind, Option.bind_eq_some_iff, position?_labelTable] at h
    obtain ⟨⟨l, m⟩, harms, t', ht, j', hj, h⟩ := h
    rw [Option.ite_none_right_eq_some] at h
    cases h.2
    obtain ⟨a, taken, b, ha, rfl, htaken, hl⟩ := labelIndex?_eq_some_iff.mp ht
    obtain ⟨c, join, d, hc, rfl, hjoin, hm⟩ := labelIndex?_eq_some_iff.mp hj
    obtain ⟨first, rfl, rfl⟩ := exists_of_append_cons_eq (hcode.symm.trans ha) hlt.1
    obtain ⟨second, rfl, rfl⟩ := exists_of_append_cons_eq (ha.symm.trans hc) hlt.2
    rw [labelNames_append, labelNames_cons_label hjoin] at hl
    refine ⟨l, m, first, taken, second, join, d, rfl, ⟨harms, htaken, hjoin, hl, hm⟩, ?_, ?_⟩
    all_goals
      simp only [length_append, length_cons]
      omega
  · rintro ⟨l, m, first, taken, second, join, rest, rfl, ha, rfl, rfl⟩
    have ht : labelIndex? l code = some (pre.length + 1 + first.length) := by
      refine labelIndex?_eq_some_iff.mpr ⟨pre ++ i :: first, taken, second ++ join :: rest,
        by simp [hcode], ?_, ha.taken, ?_⟩
      · simp only [length_append, length_cons]
        omega
      · rw [labelNames_append, labelNames_cons_label ha.join]
        exact ha.last
    have hj : labelIndex? m code = some (pre.length + 1 + first.length + 1 + second.length) := by
      refine labelIndex?_eq_some_iff.mpr
        ⟨pre ++ i :: (first ++ taken :: second), join, rest, by simp [hcode], ?_, ha.join, ha.joinLast⟩
      simp only [length_append, length_cons]
      omega
    simp only [armPositions?, ha.arms, position?_labelTable, ht, hj, Option.bind_eq_bind,
      Option.bind_some]
    rw [if_pos (by omega)]
    rfl

theorem labelNames_eq_append_cons {code : Code} {xs ys : List String}
    (h : labelNames code = xs ++ l :: ys) :
    ∃ a i b, code = a ++ i :: b ∧ labelNames a = xs ∧
      i.joint? = some (.label l) ∧ labelNames b = ys := by
  obtain ⟨a, i, b, hcode, ha, hi, hb⟩ := exists_of_filterMap_eq h
  refine ⟨a, i, b, hcode, ha, ?_, hb⟩
  split at hi
  · next hlabel => exact joint?_of_isLabel hlabel hi
  · cases hi

/-- Whether a branch is taken for that of a conditional depends on the labels behind it only. -/
theorem armPositions?_eq_none_iff {code : Code} (hcode : code = pre ++ i :: post) :
    armPositions? (labelTable code) i pre.length = none ↔ ¬ i.HeadsConditional (labelNames post) := by
  rw [Option.eq_none_iff_forall_ne_some, Prod.forall]
  simp only [ne_eq, armPositions?_eq_some_iff hcode]
  constructor
  · rintro h ⟨l, m, xs, ys, zs, harms, hlabels, hl, hm⟩
    obtain ⟨first, taken, b, rfl, -, htaken, hb⟩ := labelNames_eq_append_cons hlabels
    obtain ⟨second, join, rest, rfl, rfl, hjoin, rfl⟩ := labelNames_eq_append_cons hb
    exact h _ _ ⟨l, m, first, taken, second, join, rest, rfl, ⟨harms, htaken, hjoin, hl, hm⟩, rfl, rfl⟩
  · rintro h - - ⟨l, m, first, taken, second, join, rest, rfl, ha, -, -⟩
    refine h ⟨l, m, labelNames first, labelNames second, labelNames rest, ha.arms, ?_, ha.last,
      ha.joinLast⟩
    rw [labelNames_append, labelNames_cons_label ha.taken, labelNames_append,
      labelNames_cons_label ha.join]

theorem Opcode.addressing?_of_seesStack {op : Opcode} (h : op.seesStack = true) :
    op ≠ .addi ∧ op.addressing? = none ∧ op.isBranch = false := by
  cases op <;> first | exact absurd h (by decide) | exact ⟨by decide, rfl, rfl⟩

/-! ## What coalescing makes of a part of a body -/

/-- A part of a body with a displacement pending in front of it and with some labels behind it, and
what coalescing makes of it. Both arms of a conditional start with what is pending at the branch, and
behind it nothing is. -/
inductive Coalesces : List String → Word → Code → Code → Prop where
  | done {behind : List String} (p : Word) : Coalesces behind p [] (settleStack p)
  | adjust {behind : List String} {p k q : Word} {i : Instr} {rest out : Code} :
      i.stackAdjustment? = some k → Word.add? p k = .ok q → Coalesces behind q rest out →
      Coalesces behind p (i :: rest) out
  | access {behind : List String} {p : Word} {n : Nat} {i i' : Instr} {rest out : Code} :
      i.stackOffset? = some n → i.displace n p = .ok i' → Coalesces behind p rest out →
      Coalesces behind p (i :: rest) (i' :: out)
  | keep {behind : List String} {p : Word} {i : Instr} {rest out : Code} :
      i.stackAdjustment? = none → i.stackOffset? = none → i.op.isBranch = false →
      i.op.seesStack = false → Coalesces behind p rest out → Coalesces behind p (i :: rest) (i :: out)
  | settle {behind : List String} {p : Word} {i : Instr} {rest out : Code} :
      i.op.isBranch = true ∨ i.op.seesStack = true → ¬ i.HeadsConditional (labelNames rest ++ behind) →
      Coalesces behind 0 rest out → Coalesces behind p (i :: rest) (settleStack p ++ i :: out)
  | cond {behind : List String} {p : Word} {i taken join : Instr} {l m : String}
      {first first' second second' rest rest' : Code} :
      ArmsAhead i l m taken (labelNames second) join (labelNames rest ++ behind) →
      Coalesces (l :: (labelNames second ++ m :: (labelNames rest ++ behind))) p first first' →
      Coalesces (m :: (labelNames rest ++ behind)) p second second' → Coalesces behind 0 rest rest' →
      Coalesces behind p (i :: (first ++ taken :: (second ++ join :: rest)))
        (i :: (first' ++ taken :: (second' ++ join :: rest')))

/-- Coalescing a part of a body, with what is in front of it and what is behind it. -/
def coalescePart (pre part post : Code) (p : Word) : Outcome Coalesced :=
  coalesceRange (pre ++ (part ++ post)).toArray (labelTable (pre ++ (part ++ post))) pre.length
    (pre.length + part.length) p

theorem coalesceRange_eq {code : Code} {start stop : Nat} (pre part post : Code)
    (hcode : code = pre ++ (part ++ post)) (hstart : start = pre.length)
    (hstop : stop = start + part.length) (p : Word) :
    coalesceRange code.toArray (labelTable code) start stop p = coalescePart pre part post p := by
  rw [hstop, hstart, hcode, coalescePart]

theorem coalesceStack_eq (code : Code) : coalesceStack code = coalescePart [] code [] 0 :=
  coalesceRange_eq [] code [] (by rw [nil_append, append_nil]) rfl (Nat.zero_add _).symm 0

/-! ## The steps of coalescing -/

theorem coalescePart_nil (pre post : Code) (p : Word) :
    coalescePart pre [] post p = .ok ⟨settleStack p, 0⟩ := by
  rw [coalescePart, length_nil, Nat.add_zero, coalesceRange, dif_neg (Nat.lt_irrefl _)]

theorem coalesceRange_tail (q : Word) :
    coalesceRange (pre ++ (i :: rest ++ post)).toArray (labelTable (pre ++ (i :: rest ++ post)))
      (pre.length + 1) (pre.length + (i :: rest).length) q = coalescePart (pre ++ [i]) rest post q :=
  coalesceRange_eq _ _ _ (by simp) (by simp) (by rw [length_cons]; omega) q

theorem getElem?_first : (pre ++ (i :: rest ++ post)).toArray[pre.length]? = some i := by
  rw [getElem?_toArray, getElem?_append_right (Nat.le_refl _), Nat.sub_self]
  rfl

theorem lt_stop : pre.length < pre.length + (i :: rest).length := by
  rw [length_cons]
  omega

theorem coalescePart_adjust (hk : i.stackAdjustment? = some k) :
    coalescePart pre (i :: rest) post p = do
      let sum ← (Word.add? p k : Except Fault Word)
      let c ← coalescePart (pre ++ [i]) rest post sum
      return ⟨c.code, c.absorbed + 1⟩ := by
  rw [coalescePart, coalesceRange, dif_pos lt_stop]
  simp only [getElem?_first, hk, coalesceRange_tail]

theorem coalescePart_access (hk : i.stackAdjustment? = none) (hn : i.stackOffset? = some n) :
    coalescePart pre (i :: rest) post p = do
      let access ← i.displace n p
      let c ← coalescePart (pre ++ [i]) rest post p
      return c.prepend [access] := by
  rw [coalescePart, coalesceRange, dif_pos lt_stop]
  simp only [getElem?_first, hk, hn, coalesceRange_tail]

theorem coalescePart_keep (hk : i.stackAdjustment? = none) (hn : i.stackOffset? = none)
    (hb : i.op.isBranch = false) (hs : i.op.seesStack = false) :
    coalescePart pre (i :: rest) post p = do
      let c ← coalescePart (pre ++ [i]) rest post p
      return c.prepend [i] := by
  rw [coalescePart, coalesceRange, dif_pos lt_stop]
  simp only [getElem?_first, hk, hn, coalesceRange_tail]
  split
  · next h =>
    rw [armPositions?, arms?_of_not_isBranch hb] at h
    cases h
  · rw [if_neg (by simp [hb, hs])]

theorem coalescePart_settle (hs : i.op.isBranch = true ∨ i.op.seesStack = true)
    (ha : ¬ i.HeadsConditional (labelNames rest ++ labelNames post)) :
    coalescePart pre (i :: rest) post p = do
      let c ← coalescePart (pre ++ [i]) rest post 0
      return c.prepend (settleStack p ++ [i]) := by
  rw [← labelNames_append] at ha
  have hop : i.op ≠ .addi ∧ i.op.addressing? = none :=
    hs.elim addressing?_of_isBranch fun hs => (addressing?_of_seesStack hs).imp_right And.left
  rw [coalescePart, coalesceRange, dif_pos lt_stop]
  simp only [getElem?_first, stackAdjustment?_eq_none hop.1, stackOffset?_eq_none hop.2,
    coalesceRange_tail]
  split
  · next h => cases ((armPositions?_eq_none_iff rfl).mpr ha).symm.trans h
  · rw [if_pos (by simpa using hs)]

/-- A label is passed with whatever is pending. -/
theorem coalescePart_label (hi : i.joint? = some (.label l)) :
    coalescePart pre (i :: rest) post p = do
      let c ← coalescePart (pre ++ [i]) rest post p
      return c.prepend [i] := by
  have hop : i.op = .label := of_decide_eq_true (joint?_eq_label hi).1
  refine coalescePart_keep (stackAdjustment?_eq_none ?_) (stackOffset?_eq_none ?_) ?_ ?_
  all_goals rw [hop]
  · nofun
  all_goals rfl

theorem coalescePart_branch {t j : Nat} (hi : i.op.isBranch = true)
    (ha : armPositions? (labelTable (pre ++ (i :: rest ++ post))) i pre.length = some (t, j)) :
    let code := pre ++ (i :: rest ++ post)
    let range := coalesceRange code.toArray (labelTable code)
    coalescePart pre (i :: rest) post p = if j < pre.length + (i :: rest).length then do
        let first ← range (pre.length + 1) t p
        let second ← range t j p
        let rest ← range j (pre.length + (i :: rest).length) 0
        return ((first.append second).append rest).prepend [i]
      else throw (.missingLabel i.text .stackCoalescing) := by
  obtain ⟨hop, haddr⟩ := addressing?_of_isBranch hi
  dsimp only
  rw [coalescePart, coalesceRange, dif_pos lt_stop]
  simp only [getElem?_first, stackAdjustment?_eq_none hop, stackOffset?_eq_none haddr]
  split
  · next h =>
    cases ha.symm.trans h
    split <;> rfl
  · next h => cases ha.symm.trans h

theorem coalescePart_cond {first second : Code} {taken join : Instr}
    (ha : ArmsAhead i l m taken (labelNames second) join (labelNames rest ++ labelNames post)) :
    coalescePart pre (i :: (first ++ taken :: (second ++ join :: rest))) post p = do
      let c₁ ← coalescePart (pre ++ [i]) first (taken :: (second ++ join :: (rest ++ post))) p
      let c₂ ← coalescePart (pre ++ i :: (first ++ [taken])) second (join :: (rest ++ post)) p
      let c₃ ← coalescePart (pre ++ i :: (first ++ taken :: (second ++ [join]))) rest post 0
      return ⟨i :: (c₁.code ++ taken :: (c₂.code ++ join :: c₃.code)),
        c₁.absorbed + c₂.absorbed + c₃.absorbed⟩ := by
  have hcode : pre ++ (i :: (first ++ taken :: (second ++ join :: rest)) ++ post) =
      pre ++ i :: (first ++ taken :: (second ++ join :: (rest ++ post))) := by
    simp only [cons_append, append_assoc]
  rw [← labelNames_append] at ha
  have hpos := (armPositions?_eq_some_iff hcode).mpr
    ⟨l, m, first, taken, second, join, rest ++ post, rfl, ha, rfl, rfl⟩
  rw [coalescePart_branch (isBranch_of_arms? ha.arms) hpos, if_pos ?_,
    coalesceRange_eq (pre ++ [i]) first (taken :: (second ++ join :: (rest ++ post))),
    coalesceRange_eq (pre ++ i :: first) (taken :: second) (join :: (rest ++ post)),
    coalesceRange_eq (pre ++ i :: (first ++ taken :: second)) (join :: rest) post,
    coalescePart_label ha.taken, coalescePart_label ha.join]
  · simp only [append_assoc, cons_append, nil_append, bind_assoc, pure_bind,
      Coalesced.append, Coalesced.prepend]
  all_goals
    simp only [append_assoc, cons_append, nil_append, length_append,
      length_cons, length_nil]
  all_goals omega

theorem exists_cond_of_coalescePart {a : Nat × Nat}
    (ha : armPositions? (labelTable (pre ++ (i :: rest ++ post))) i pre.length = some a)
    (hc : coalescePart pre (i :: rest) post p = .ok c) :
    ∃ l m first taken second join tail, rest = first ++ taken :: (second ++ join :: tail) ∧
      ArmsAhead i l m taken (labelNames second) join (labelNames tail ++ labelNames post) := by
  obtain ⟨t, j⟩ := a
  obtain ⟨l, m, first, taken, second, join, tail, hsplit, harms, ht, hj⟩ :=
    (armPositions?_eq_some_iff (show _ = pre ++ i :: (rest ++ post) from rfl)).mp ha
  rw [coalescePart_branch (isBranch_of_arms? harms.arms) ha] at hc
  split at hc
  case isFalse => cases hc
  next hlt =>
  have hsplit' : (first ++ taken :: second) ++ join :: tail = rest ++ post := by
    rw [hsplit, append_assoc, cons_append]
  obtain ⟨tail', hrest, rfl⟩ := exists_of_append_cons_eq hsplit' (by
    simp only [length_append, length_cons] at hlt ⊢
    omega)
  rw [labelNames_append] at harms
  rw [append_assoc, cons_append] at hrest
  exact ⟨l, m, first, taken, second, join, tail', hrest, harms⟩

theorem Coalesces.of_coalescePart (h : coalescePart pre part post p = .ok c) :
    Coalesces (labelNames post) p part c.code := by
  -- on the length of the part, since the arms and the rest of a conditional are parts in turn
  induction hlen : part.length using Nat.strongRecOn generalizing pre part post p c with
  | _ n ih =>
  subst hlen
  cases part with
  | nil =>
    rw [coalescePart_nil] at h
    cases h
    exact .done p
  | cons i rest =>
  have ih' : ∀ {p : Word} {c : Coalesced}, coalescePart (pre ++ [i]) rest post p = .ok c →
      Coalesces (labelNames post) p rest c.code := fun h => ih _ (Nat.lt_succ_self _) h rfl
  cases hk : i.stackAdjustment? with
  | some k =>
    simp only [coalescePart_adjust hk, bind_eq_ok, pure_eq_ok, Fault.liftM_eq_ok] at h
    obtain ⟨q, hq, d, hd, rfl⟩ := h
    have hrest := ih' hd
    exact .adjust hk hq hrest
  | none =>
  cases hn : i.stackOffset? with
  | some n =>
    simp only [coalescePart_access hk hn, bind_eq_ok, pure_eq_ok] at h
    obtain ⟨i', hi', c, hc, rfl⟩ := h
    exact .access hn hi' (ih' hc)
  | none =>
  cases ha : armPositions? (labelTable (pre ++ (i :: rest ++ post))) i pre.length with
  | some a =>
    obtain ⟨l, m, first, taken, second, join, tail, rfl, harms⟩ := exists_cond_of_coalescePart ha h
    simp only [coalescePart_cond harms, bind_eq_ok, pure_eq_ok] at h
    obtain ⟨c₁, h₁, c₂, h₂, c₃, h₃, rfl⟩ := h
    simp only [length_cons, length_append] at ih
    have hfirst := ih _ (by omega) h₁ rfl
    have hsecond := ih _ (by omega) h₂ rfl
    have hrest := ih _ (by omega) h₃ rfl
    simp only [labelNames_cons_label harms.taken, labelNames_cons_label harms.join,
      labelNames_append] at hfirst hsecond
    exact .cond harms hfirst hsecond hrest
  | none =>
  have hnone : ¬ i.HeadsConditional (labelNames rest ++ labelNames post) := by
    rw [← labelNames_append]
    exact (armPositions?_eq_none_iff rfl).mp ha
  by_cases hs : i.op.isBranch = true ∨ i.op.seesStack = true
  · simp only [coalescePart_settle hs hnone, bind_eq_ok, pure_eq_ok] at h
    obtain ⟨c, hc, rfl⟩ := h
    rw [Coalesced.prepend, append_assoc]
    exact .settle hs hnone (ih' hc)
  · rw [not_or, Bool.not_eq_true, Bool.not_eq_true] at hs
    simp only [coalescePart_keep hk hn hs.1 hs.2, bind_eq_ok, pure_eq_ok] at h
    obtain ⟨c, hc, rfl⟩ := h
    exact .keep hk hn hs.1 hs.2 (ih' hc)

theorem Coalesces.exists_coalescePart (h : Coalesces behind p part out) (pre post : Code)
    (hpost : labelNames post = behind) : ∃ n, coalescePart pre part post p = .ok ⟨out, n⟩ := by
  induction h generalizing pre post with
  | done p => exact ⟨0, coalescePart_nil pre post p⟩
  | @adjust _ _ _ _ i _ _ hk hq _ ih =>
    obtain ⟨n, hn⟩ := ih (pre ++ [i]) post hpost
    refine ⟨n + 1, ?_⟩
    rw [coalescePart_adjust hk, Fault.liftM_eq_ok.mpr hq, ok_bind, hn]
    rfl
  | @access _ _ _ i i' _ _ hn hi' _ ih =>
    have hk : i.stackAdjustment? = none := stackAdjustment?_eq_none fun hop => by
      simp [stackOffset?, hop, addressing?] at hn
    obtain ⟨n, hrest⟩ := ih (pre ++ [i]) post hpost
    refine ⟨n, ?_⟩
    rw [coalescePart_access hk hn, hi', ok_bind, hrest]
    rfl
  | @keep _ _ i _ _ hk hn hb hs _ ih =>
    obtain ⟨n, hrest⟩ := ih (pre ++ [i]) post hpost
    refine ⟨n, ?_⟩
    rw [coalescePart_keep hk hn hb hs, hrest]
    rfl
  | @settle _ p i _ _ hs hnone _ ih =>
    subst hpost
    obtain ⟨n, hrest⟩ := ih (pre ++ [i]) post rfl
    refine ⟨n, ?_⟩
    rw [coalescePart_settle hs hnone, hrest, ok_bind, Coalesced.prepend, append_assoc]
    rfl
  | @cond _ p i taken join l m first first' second second' rest rest' ha _ _ _ ih₁ ih₂ ih₃ =>
    subst hpost
    have hjoin := ha.labelNames_join (labelNames_append rest post)
    have htaken := ha.labelNames_taken rfl (labelNames_append rest post)
    obtain ⟨n₁, h₁⟩ := ih₁ (pre ++ [i]) _ htaken
    obtain ⟨n₂, h₂⟩ := ih₂ (pre ++ i :: (first ++ [taken])) _ hjoin
    obtain ⟨n₃, h₃⟩ := ih₃ (pre ++ i :: (first ++ taken :: (second ++ [join]))) post rfl
    refine ⟨n₁ + n₂ + n₃, ?_⟩
    rw [coalescePart_cond ha, h₁, h₂, h₃]
    rfl

theorem coalesceStack_eq_ok_iff {code : Code} :
    (∃ n, coalesceStack code = .ok ⟨out, n⟩) ↔ Coalesces [] 0 code out := by
  rw [coalesceStack_eq]
  constructor
  · rintro ⟨n, h⟩
    exact .of_coalescePart h
  · intro h
    exact h.exists_coalescePart [] [] rfl

/-- A loop with two words on the stack, which are freed at once in one arm and in two steps behind the
other. -/
def loopWithFrame : Code :=
  [.labelled "f", .moveStack (-8), .branch .beq ⟨"a0", .int⟩ ⟨"a1", .int⟩ "then1",
    .load ⟨"a0", .int⟩ stackReg 4, .moveStack 8, .jump "f", .labelled "then1", .moveStack 4,
    .labelled "endif1", .moveStack 4, .branch .bge ⟨"a0", .int⟩ ⟨"a1", .int⟩ "g", ⟨.ret, []⟩]

/-- The same loop coalesced: the words are freed where the conditional ends and where the loop is left. -/
def loopWithFrameCoalesced : Code :=
  [.labelled "f", .branch .beq ⟨"a0", .int⟩ ⟨"a1", .int⟩ "then1", .load ⟨"a0", .int⟩ stackReg (-4),
    .jump "f", .labelled "then1", .moveStack (-4), .labelled "endif1", .moveStack 4,
    .branch .bge ⟨"a0", .int⟩ ⟨"a1", .int⟩ "g", ⟨.ret, []⟩]

theorem coalesceStack_loopWithFrame :
    coalesceStack loopWithFrame = .ok ⟨loopWithFrameCoalesced, 4⟩ := by
  with_unfolding_all rfl

/-! ## What stays -/

theorem filterMap_set_of_eq {α β : Type} {f : α → Option β} {as : List α} {a b : α}
    (ha : as[n]? = some a) (h : f b = f a) : (as.set n b).filterMap f = as.filterMap f := by
  induction as generalizing n with
  | nil => rfl
  | cons x as ih =>
    cases n with
    | zero =>
      obtain rfl : x = a := Option.some.inj ha
      rw [set_cons_zero, filterMap_cons, filterMap_cons, h]
    | succ n => rw [set_cons_succ, filterMap_cons, filterMap_cons, ih ha]

namespace Instr

variable {offset w : Word}

theorem regs_setOperand_imm (h : i.imm? n = some offset) :
    (i.setOperand n (.imm w)).regs = i.regs := by
  obtain ⟨o, ho, himm⟩ := Option.bind_eq_some_iff.mp h
  refine filterMap_set_of_eq ho ?_
  cases o <;> first | rfl | cases himm

theorem joint?_eq_none_of_addressing? (h : i.op.addressing?.isSome = true) : i.joint? = none := by
  obtain ⟨op, os⟩ := i
  exact joint?_of_isInner (by cases op <;> first | rfl | cases h)

theorem op_of_stackAdjustment? (h : i.stackAdjustment? = some w) : i.op = .addi := by
  by_contra hop
  rw [stackAdjustment?_eq_none hop] at h
  cases h

theorem IsTidy.displaced (hi : i.IsTidy) (hn : i.stackOffset? = some n)
    (ho : i.imm? n = some offset) (w : Word) : (i.setOperand n (.imm w)).IsTidy := by
  obtain ⟨o, f, base, reads, writes, ha⟩ := StackSafe.stackAccess hi.stack hi.decodes hn
  have haddr := addressing?_of_stackOffset? hn
  have hregs := regs_setOperand_imm (w := w) ho
  have hadd : i.stackAdjustment? = none := stackAdjustment?_eq_none fun hop => by
    rw [hop] at haddr
    cases haddr
  have hlabel : i.isLabel = false := (isStraight_of_addressing? hi.decodes haddr).noLabel
  refine ⟨by rw [ha.displaced]; rfl, fun hl => ?_, hi.isMachine, ?_, .inr ?_, ?_⟩
  · cases hlabel.symm.trans hl
  · have hdefs : (i.setOperand n (.imm w)).defs = i.defs := by
      unfold defs
      rw [hregs]
      simp only [setOperand, length_set]
    rw [hdefs]
    exact hi.zero
  · have hother : (i.setOperand n (.imm w)).otherRegs = i.otherRegs := by
      unfold otherRegs
      rw [hregs]
      rfl
    rw [hother]
    exact hi.stack.resolve_left (by rw [hadd]; nofun)
  · intro k hk
    rcases mem_or_eq_of_mem_set hk with hk | hk
    · exact hi.lanes k hk
    · cases hk

theorem IsTidy.moveStack (p : Word) : (Instr.moveStack p).IsTidy where
  decodes := rfl
  named := nofun
  isMachine := rfl
  zero d hd hz := by
    obtain rfl : d = stackReg := mem_singleton.mp hd
    cases hz
  stack := .inl rfl
  lanes k hk := by simp [Instr.moveStack, immediate] at hk

end Instr

@[simp] theorem skeleton_settleStack (p : Word) : skeleton (settleStack p) = [] := by
  unfold settleStack
  split <;> rfl

theorem Instr.op_displace {i' : Instr} (h : i.displace n p = .ok i') : i'.op = i.op := by
  rcases displace_eq_ok h with ⟨-, rfl⟩ | ⟨_, _, -, -, rfl⟩ <;> rfl

namespace Coalesces

variable (h : Coalesces behind p part out)
include h

theorem skeleton_eq : skeleton out = skeleton part := by
  induction h with
  | done p => exact skeleton_settleStack p
  | adjust hk _ _ ih =>
    rw [ih, skeleton_cons_none (joint?_of_isInner (by rw [op_of_stackAdjustment? hk]; rfl))]
  | access hn hi' _ ih =>
    have haddr := addressing?_of_stackOffset? hn
    rw [skeleton_cons_none (joint?_eq_none_of_addressing? haddr),
      skeleton_cons_none (joint?_eq_none_of_addressing? (by rwa [op_displace hi'])), ih]
  | keep _ _ _ _ _ ih => rw [skeleton_cons, skeleton_cons, ih]
  | settle _ _ _ ih => rw [skeleton_append, skeleton_settleStack, nil_append, skeleton_cons,
      skeleton_cons, ih]
  | cond _ _ _ _ ih₁ ih₂ ih₃ => simp only [skeleton_append, skeleton_cons, ih₁, ih₂, ih₃]

theorem labelNames_eq : labelNames out = labelNames part := by
  rw [ClosureCodegen.labelNames_eq, ClosureCodegen.labelNames_eq, h.skeleton_eq]

/-- What holds of adjustments, and of an access whatever its offset is, holds of coalesced code. -/
theorem forall_mem {P : Instr → Prop} (hmove : ∀ p, P (.moveStack p))
    (hdisplaced : ∀ {i n offset}, P i → i.stackOffset? = some n → i.imm? n = some offset →
      ∀ w, P (i.setOperand n (.imm w))) (ht : ∀ i ∈ part, P i) : ∀ i ∈ out, P i := by
  have hsettle : ∀ p, ∀ i ∈ settleStack p, P i := by
    intro p
    unfold settleStack
    split
    · nofun
    · exact forall_mem_singleton.mpr (hmove p)
  induction h with
  | done p => exact hsettle p
  | adjust _ _ _ ih => exact ih (forall_mem_cons.mp ht).2
  | access hn hi' _ ih =>
    rw [forall_mem_cons] at ht ⊢
    refine ⟨?_, ih ht.2⟩
    rcases displace_eq_ok hi' with ⟨-, rfl⟩ | ⟨_, _, ho, -, rfl⟩
    · exact ht.1
    · exact hdisplaced ht.1 hn ho _
  | keep _ _ _ _ _ ih =>
    rw [forall_mem_cons] at ht ⊢
    exact ⟨ht.1, ih ht.2⟩
  | settle _ _ _ ih =>
    rw [forall_mem_append, forall_mem_cons]
    rw [forall_mem_cons] at ht
    exact ⟨hsettle _, ht.1, ih ht.2⟩
  | cond _ _ _ _ ih₁ ih₂ ih₃ =>
    simp only [forall_mem_append, forall_mem_cons] at ht ⊢
    obtain ⟨hi, hfirst, htaken, hsecond, hjoin, hrest⟩ := ht
    exact ⟨hi, ih₁ hfirst, htaken, ih₂ hsecond, hjoin, ih₃ hrest⟩

theorem isTidy : (∀ i ∈ part, i.IsTidy) → ∀ i ∈ out, i.IsTidy :=
  h.forall_mem .moveStack fun hi hn ho => hi.displaced hn ho

end Coalesces

end ClosureCodegen
