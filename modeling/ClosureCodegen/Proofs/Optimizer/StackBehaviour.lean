import ClosureCodegen.Proofs.Optimizer.Coalescing

/-!
# Stack-pointer coalescing keeps the behaviour of code

Coalescing takes the arms of a conditional to be entered from its branch only, and nothing to be
pending where anything else leads.  Code that keeps to this is `Orderly`: control comes to the arm that
is branched to only through its label, and the other labels that are led to are the entry of the body
and the ends of conditionals.  In such code what coalescing does is to defer adjustments.

* `coalesceStack_sameBehaviour`: a coalesced body behaves as before.
-/

namespace ClosureCodegen
open List

variable {i : Instr} {rest part : Code} {l : String} {behind : List String} {p : Word}

/-! ## Orderly code -/

/-- Control does not come to the end of a part: the last instruction that is not straight leaves. -/
def Closed (part : Code) : Prop :=
  ∃ front jump dead, part = front ++ jump :: dead ∧ jump.Leaves ∧
    ∀ k ∈ dead, k.isLabel = false ∧ k.op.isBranch = false

/-- Where control comes with nothing pending: out of the body, to its entry, and to the end of a
conditional. -/
def Settled (code : Code) (l : String) : Prop :=
  l ∉ labelNames code ∨ (∃ entry, code.head? = some entry ∧ entry.joint? = some (.label l)) ∨
    ∃ k ∈ code, ∃ t, k.arms? = some ⟨t, l⟩ ∧ t ∈ labelNames code

/-- Code in which the stack pointer only addresses memory, and in which control goes where coalescing
expects it to. -/
structure Orderly (code : Code) : Prop where
  safe : ∀ i ∈ code, i.StackSafe
  nodup : (labelNames code).Nodup
  /-- The arms of a conditional follow its branch, one after the other. -/
  arms : ∀ {i : Instr} {rest : Code} {l m : String}, i :: rest <:+ code → i.arms? = some ⟨l, m⟩ →
    l ∈ labelNames code → i.HeadsConditional (labelNames rest)
  /-- Control does not fall into the arm that is branched to. -/
  guarded : ∀ {front rest : Code} {taken : Instr} {l : String}, code = front ++ taken :: rest →
    taken.joint? = some (.label l) → (∃ i ∈ code, ∃ m, i.arms? = some ⟨l, m⟩) → Closed front
  /-- A jump leads to where nothing is pending, and so does a branch that is not that of a
  conditional. -/
  targets : ∀ {i : Instr} {l : String}, i ∈ code → i.op = .j ∨ i.op.isBranch = true →
    i.label? = some l → (∃ m, i.arms? = some ⟨l, m⟩ ∧ l ∈ labelNames code) ∨ Settled code l

theorem Instr.Leaves.not_joint (hi : i.Leaves) : i.isLabel = false ∧ i.op.isBranch = false := by
  rcases hi with h | h | ⟨s, o, rfl⟩
  · rw [isLabel, h]
    exact ⟨rfl, rfl⟩
  · rw [isLabel, h]
    exact ⟨rfl, rfl⟩
  · exact ⟨rfl, rfl⟩

theorem Instr.Leaves.seesStack (hi : i.Leaves) : i.op.seesStack = true := by
  rcases hi with h | h | ⟨s, o, rfl⟩
  · rw [h]
    rfl
  · rw [h]
    rfl
  · rfl

namespace Closed

variable {a b : Code}

theorem cons_iff : Closed (i :: b) ↔
    i.Leaves ∧ (∀ k ∈ b, k.isLabel = false ∧ k.op.isBranch = false) ∨ Closed b := by
  constructor
  · rintro ⟨front, jump, dead, heq, hjump, hdead⟩
    cases front with
    | nil =>
      cases heq
      exact .inl ⟨hjump, hdead⟩
    | cons k front =>
      cases heq
      exact .inr ⟨front, jump, dead, rfl, hjump, hdead⟩
  · rintro (⟨hi, hb⟩ | ⟨front, jump, dead, rfl, hjump, hdead⟩)
    · exact ⟨[], i, b, rfl, hi, hb⟩
    · exact ⟨i :: front, jump, dead, rfl, hjump, hdead⟩

theorem tail (h : Closed (i :: b)) (hi : i.op.seesStack = false) : Closed b := by
  rcases cons_iff.mp h with ⟨hleaves, -⟩ | h
  · have := hleaves.seesStack
    cases hi.symm.trans this
  · exact h

theorem of_append_cons (h : Closed (a ++ i :: b)) (hi : i.isLabel = true ∨ i.op.isBranch = true) :
    Closed b := by
  have hdead : ∀ {c : Code}, (∀ k ∈ c ++ i :: b, k.isLabel = false ∧ k.op.isBranch = false) → False := by
    intro c hc
    obtain ⟨hl, hb⟩ := hc i (by simp)
    rcases hi with hi | hi
    · cases hl.symm.trans hi
    · cases hb.symm.trans hi
  induction a with
  | nil =>
    rcases cons_iff.mp h with ⟨hleaves, -⟩ | h
    · obtain ⟨hl, hb⟩ := hleaves.not_joint
      rcases hi with hi | hi
      · cases hl.symm.trans hi
      · cases hb.symm.trans hi
    · exact h
  | cons k a ih =>
    rcases cons_iff.mp h with ⟨-, hk⟩ | h
    · exact (hdead hk).elim
    · exact ih h

end Closed

/-! ## Coalescing defers adjustments -/

namespace Orderly

variable {code out : Code}

theorem settled (hc : Orderly code) (hs : i :: rest <:+ code)
    (hnone : ¬ i.HeadsConditional (labelNames rest)) (hi : i.op = .j ∨ i.op.isBranch = true)
    (hl : i.label? = some l) : Settled code l := by
  rcases hc.targets (hs.subset mem_cons_self) hi hl with ⟨m, harms, hmem⟩ | h
  · exact absurd (hc.arms hs harms hmem) hnone
  · exact h

/-- The conditionals of a part end at corresponding places. -/
def ArmsLand (code out part : Code) : Prop :=
  ∀ k ∈ part, ∀ t m, k.arms? = some ⟨t, m⟩ → t ∈ labelNames code → Lands code out (Settled code) m

theorem armsLand_cons (hi : i.op.isBranch = false) (h : ArmsLand code out part) :
    ArmsLand code out (i :: part) := by
  refine forall_mem_cons.mpr ⟨fun t m ha => ?_, h⟩
  rw [Instr.arms?_of_not_isBranch hi] at ha
  cases ha

/-- A part of a body in front of corresponding places is in front of the corresponding part. -/
theorem defers (hc : Orderly code) {part' : Code} (h : Coalesces behind p part part')
    {tail tail' : Code} (hs : part ++ tail <:+ code) (hs' : part' ++ tail' <:+ out)
    (hb : labelNames tail = behind) (hb' : labelNames tail' = behind)
    (hend : (∀ q, Defers code out (Settled code) q tail (settleStack q ++ tail')) ∨ Closed part) :
    Defers code out (Settled code) p (part ++ tail) (part' ++ tail') ∧ ArmsLand code out part := by
  induction h generalizing tail tail' with
  | done p =>
    rcases hend with hend | ⟨front, jump, dead, heq, -⟩
    · exact ⟨hend p, nofun⟩
    · cases front <;> cases heq
  | adjust hk hq _ ih =>
    obtain rfl := Word.eq_add_of_add? hq
    have hop := Instr.op_of_stackAdjustment? hk
    obtain ⟨hd, hl⟩ := ih (suffix_of_cons hs) hs' hb hb' (hend.imp_right (·.tail (by rw [hop]; rfl)))
    exact ⟨.adjust hk hd, armsLand_cons (by rw [hop]; rfl) hl⟩
  | access hn hi' _ ih =>
    obtain ⟨hbr, hseen⟩ := Opcode.not_seesStack_of_addressing? (Instr.addressing?_of_stackOffset? hn)
    obtain ⟨hd, hl⟩ := ih (suffix_of_cons hs) (suffix_of_cons hs') hb hb' (hend.imp_right (·.tail hseen))
    exact ⟨.access hn hi' hd, armsLand_cons hbr hl⟩
  | keep hk hn hbr hseen _ ih =>
    obtain ⟨hd, hl⟩ := ih (suffix_of_cons hs) (suffix_of_cons hs') hb hb' (hend.imp_right (·.tail hseen))
    exact ⟨.keep hk hn hbr hseen hd, armsLand_cons hbr hl⟩
  | @settle _ _ i rest _ hi hnone _ ih =>
    subst hb
    rw [append_assoc, cons_append] at hs' ⊢
    rw [← labelNames_append] at hnone
    have hself : ∀ t m, i.arms? = some ⟨t, m⟩ → t ∈ labelNames code →
        Lands code out (Settled code) m := fun t m ha hmem => absurd (hc.arms hs ha hmem) hnone
    have hlabels := fun l => hc.settled hs hnone (l := l)
    have hcases : i.Leaves ∧ (∀ k ∈ rest, k.isLabel = false ∧ k.op.isBranch = false) ∨
        ((∀ q, Defers code out (Settled code) q tail (settleStack q ++ tail')) ∨ Closed rest) := by
      rcases hend with hend | hclosed
      · exact .inr (.inl hend)
      · exact (Closed.cons_iff.mp hclosed).imp_right .inr
    rcases hcases with ⟨hleaves, hdead⟩ | hend
    · refine ⟨.settle hlabels fun h => absurd hleaves h, forall_mem_cons.mpr ⟨hself, ?_⟩⟩
      intro k hk t m ha
      rw [Instr.arms?_of_not_isBranch (hdead k hk).2] at ha
      cases ha
    · obtain ⟨hd, hl⟩ := ih (suffix_of_cons hs) (suffix_of_cons (suffix_of_append hs')) rfl hb' hend
      exact ⟨.settle hlabels fun _ => hd, forall_mem_cons.mpr ⟨hself, hl⟩⟩
  | @cond _ p i taken join l m first first' second second' rest rest' ha _ h₂ h₃ ih₁ ih₂ ih₃ =>
    subst hb
    simp only [cons_append, append_assoc] at hs hs' ⊢
    obtain ⟨hbranch, hlabel, -⟩ := Instr.arms?_eq_some_iff.mp ha.arms
    have htaken := suffix_of_append (suffix_of_cons hs)
    have htaken' := suffix_of_append (suffix_of_cons hs')
    have hjoin := suffix_of_append (suffix_of_cons htaken)
    have hjoin' := suffix_of_append (suffix_of_cons htaken')
    have hnames : labelNames (rest ++ tail) = labelNames rest ++ labelNames tail := labelNames_append _ _
    have hnames' : labelNames (rest' ++ tail') = labelNames rest ++ labelNames tail := by
      rw [labelNames_append, h₃.labelNames_eq, hb']
    have hclosed : Closed first := by
      obtain ⟨front, hcode⟩ := hs
      have hsplit : code = (front ++ i :: first) ++ taken :: (second ++ join :: (rest ++ tail)) := by
        rw [← hcode, append_assoc, cons_append]
      refine (hc.guarded hsplit ha.taken ⟨i, ?_, m, ha.arms⟩).of_append_cons (.inr hbranch)
      rw [← hcode]
      exact mem_append_right front mem_cons_self
    have hclosedRest : Closed (i :: (first ++ taken :: (second ++ join :: rest))) → Closed rest := by
      intro h
      have hsplit : i :: (first ++ taken :: (second ++ join :: rest)) =
          (i :: (first ++ taken :: second)) ++ join :: rest := by
        simp only [cons_append, append_assoc]
      rw [hsplit] at h
      exact h.of_append_cons (.inl (Instr.joint?_eq_label ha.join).1)
    obtain ⟨hrest, hlrest⟩ := ih₃ (suffix_of_cons hjoin) (suffix_of_cons hjoin') rfl hb'
      (hend.imp_right hclosedRest)
    have hsettle : ∀ q, Defers code out (Settled code) q (join :: (rest ++ tail))
        (settleStack q ++ join :: (rest' ++ tail')) := by
      have hop : join.op = .label := of_decide_eq_true (Instr.joint?_eq_label ha.join).1
      refine fun q => .settle (fun l hl => ?_) fun _ => hrest
      rw [hop] at hl
      rcases hl with hl | hl <;> cases hl
    obtain ⟨hsecond, hlsecond⟩ := ih₂ (suffix_of_cons htaken) (suffix_of_cons htaken')
      (ha.labelNames_join hnames) (ha.labelNames_join hnames') (.inl hsettle)
    obtain ⟨hfirst, hlfirst⟩ := ih₁ (suffix_of_cons hs) (suffix_of_cons hs')
      (ha.labelNames_taken rfl hnames) (ha.labelNames_taken h₂.labelNames_eq hnames') (.inr hclosed)
    have hlast : l ∉ labelNames (second ++ join :: (rest ++ tail)) := by
      rw [labelNames_append, ha.labelNames_join hnames]
      exact ha.last
    have hlast' : l ∉ labelNames (second' ++ join :: (rest' ++ tail')) := by
      rw [labelNames_append, h₂.labelNames_eq, ha.labelNames_join hnames']
      exact ha.last
    refine ⟨.branch hbranch hlabel (codeAfter?_of_label htaken ha.taken hlast)
      (codeAfter?_of_label htaken' ha.taken hlast') hsecond hfirst, ?_⟩
    have hland : Lands code out (Settled code) m :=
      ⟨_, _, codeAfter?_of_label hjoin ha.join (by rw [hnames]; exact ha.joinLast),
        codeAfter?_of_label hjoin' ha.join (by rw [hnames']; exact ha.joinLast), hrest⟩
    have hplain : ∀ {k : Instr} {x : String}, k.joint? = some (.label x) → k.op.isBranch = false :=
      fun hk => Instr.isBranch_of_isLabel (Instr.joint?_eq_label hk).1
    refine forall_mem_cons.mpr ⟨fun t m' ht _ => ?_, forall_mem_append.mpr ⟨hlfirst, ?_⟩⟩
    · cases ha.arms.symm.trans ht
      exact hland
    · exact armsLand_cons (hplain ha.taken)
        (forall_mem_append.mpr ⟨hlsecond, armsLand_cons (hplain ha.join) hlrest⟩)

end Orderly

/-- A label in front is passed with whatever is pending. -/
theorem Coalesces.of_label {out : Code} (hi : i.joint? = some (.label l))
    (h : Coalesces behind p (i :: rest) out) :
    ∃ out', out = i :: out' ∧ Coalesces behind p rest out' := by
  have hop : i.op = .label := of_decide_eq_true (Instr.joint?_eq_label hi).1
  cases h with
  | adjust hk =>
    cases hop.symm.trans (Instr.op_of_stackAdjustment? hk)
  | access hn =>
    have haddr := Instr.addressing?_of_stackOffset? hn
    rw [hop] at haddr
    cases haddr
  | keep _ _ _ _ h => exact ⟨_, rfl, h⟩
  | settle hs =>
    rw [hop] at hs
    rcases hs with hs | hs <;> cases hs
  | cond ha =>
    have hb := Instr.isBranch_of_arms? ha.arms
    rw [hop] at hb
    cases hb

theorem Orderly.defersTo {code : Code} {c : Coalesced} (hc : Orderly code)
    (h : coalesceStack code = .ok c) : DefersTo code c.code (Settled code) := by
  have hcoalesces : Coalesces [] 0 code c.code := coalesceStack_eq_ok_iff.mp ⟨c.absorbed, h⟩
  have hnil : ∀ {a b : Code}, a <:+ b → a ++ [] <:+ b := fun h => by rwa [append_nil]
  have hdone : ∀ q, Defers code c.code (Settled code) q [] (settleStack q ++ []) := fun q => by
    rw [append_nil]
    exact .done q
  obtain ⟨hstart, hlands⟩ := hc.defers hcoalesces (hnil suffix_rfl) (hnil suffix_rfl) rfl rfl
    (.inl hdone)
  rw [append_nil, append_nil] at hstart
  refine ⟨hc.safe, fun l hl => ?_, hstart⟩
  by_cases hmem : l ∈ labelNames code
  · refine .inr ?_
    rcases hl with hl | ⟨entry, hhead, hentry⟩ | ⟨k, hk, t, harms, ht⟩
    · exact absurd hmem hl
    · obtain ⟨body, rfl⟩ := head?_eq_some_iff.mp hhead
      obtain ⟨body', hout, hbody⟩ := hcoalesces.of_label hentry
      have hsuffix' : body' <:+ c.code := hout ▸ suffix_cons entry body'
      obtain ⟨hdefers, -⟩ := hc.defers hbody (hnil (suffix_cons entry body)) (hnil hsuffix') rfl rfl
        (.inl hdone)
      rw [append_nil, append_nil] at hdefers
      have hnodup : (labelNames c.code).Nodup := hcoalesces.labelNames_eq ▸ hc.nodup
      refine ⟨body, body', codeAfter?_of_joint hc.nodup suffix_rfl hentry, ?_, hdefers⟩
      exact codeAfter?_of_joint hnodup (hout ▸ suffix_rfl) hentry
    · exact hlands k hk t l harms ht
  · refine .inl ⟨codeAfter?_eq_none_iff.mpr hmem, codeAfter?_eq_none_iff.mpr ?_⟩
    rwa [hcoalesces.labelNames_eq]

/-- A coalesced body behaves as before: it makes the same calls and leaves in the same way, each time
with the same registers, the stack pointer among them, and the same memory. -/
theorem coalesceStack_sameBehaviour {code : Code} {c : Coalesced} (hc : Orderly code)
    (h : coalesceStack code = .ok c) (env : HartEnvironment) (hart : Hart) (n : Nat) :
    BehavesLike (hartStep env code) ⟨code, hart, n⟩ (hartStep env c.code) ⟨c.code, hart, n⟩ :=
  (hc.defersTo h).behavesLike env hart n

theorem arms?_loopWithFrame {m : String} (hi : i ∈ loopWithFrame) (ha : i.arms? = some ⟨l, m⟩) :
    i = .branch .beq ⟨"a0", .int⟩ ⟨"a1", .int⟩ "then1" ∧ l = "then1" ∧ m = "endif1" := by
  have hall : ∀ i ∈ loopWithFrame, i.arms? = none ∨
      i = .branch .beq ⟨"a0", .int⟩ ⟨"a1", .int⟩ "then1" := by decide
  rcases hall i hi with hnone | rfl
  · cases hnone.symm.trans ha
  · cases ha
    exact ⟨rfl, rfl, rfl⟩

theorem orderly_loopWithFrame : Orderly loopWithFrame where
  safe := by
    unfold Instr.StackSafe
    decide
  nodup := by decide
  arms := by
    intro i rest l m hs harms _
    obtain ⟨rfl, rfl, rfl⟩ := arms?_loopWithFrame (hs.subset mem_cons_self) harms
    have hlabels : labelNames rest = ["then1", "endif1"] := by
      simp [loopWithFrame, suffix_cons_iff, Instr.labelled, Instr.moveStack, Instr.immediate,
        Instr.branch, Instr.load, Instr.jump] at hs
      subst hs
      rfl
    exact ⟨"then1", "endif1", [], [], [], harms, hlabels, by decide, by decide⟩
  guarded := by
    rintro front rest taken l hcode htaken ⟨i, hi, m, harms⟩
    obtain ⟨-, rfl, -⟩ := arms?_loopWithFrame hi harms
    have hlast := not_mem_labelNames (by decide) ⟨front, hcode.symm⟩ htaken
    have hindex := labelIndex?_eq_some_iff.mpr ⟨front, taken, rest, hcode, rfl, htaken, hlast⟩
    have hlength : 6 = front.length :=
      Option.some.inj ((show labelIndex? "then1" loopWithFrame = some 6 by decide).symm.trans hindex)
    have hfront : front = loopWithFrame.take 6 := by rw [hcode, hlength, take_left]
    exact ⟨loopWithFrame.take 5, .jump "f", [], hfront, .inl rfl, forall_mem_nil _⟩
  targets := by
    intro i l hi hop hl
    have hall : ∀ i ∈ loopWithFrame, i.op = .j ∨ i.op.isBranch = true → i = .jump "f" ∨
        i = .branch .beq ⟨"a0", .int⟩ ⟨"a1", .int⟩ "then1" ∨
        i = .branch .bge ⟨"a0", .int⟩ ⟨"a1", .int⟩ "g" := by decide
    rcases hall i hi hop with rfl | rfl | rfl
    · cases hl
      exact .inr (.inr (.inl ⟨.labelled "f", rfl, rfl⟩))
    · cases hl
      exact .inl ⟨"endif1", rfl, by decide⟩
    · cases hl
      exact .inr (.inl (by decide))

theorem coalesceStack_sameBehaviour_loopWithFrame :
    Orderly loopWithFrame ∧ coalesceStack loopWithFrame = .ok ⟨loopWithFrameCoalesced, 4⟩ ∧
      ∀ (env : HartEnvironment) (hart : Hart) (n : Nat),
        BehavesLike (hartStep env loopWithFrame) ⟨loopWithFrame, hart, n⟩
          (hartStep env loopWithFrameCoalesced) ⟨loopWithFrameCoalesced, hart, n⟩ :=
  ⟨orderly_loopWithFrame, coalesceStack_loopWithFrame,
    coalesceStack_sameBehaviour orderly_loopWithFrame coalesceStack_loopWithFrame⟩

end ClosureCodegen
