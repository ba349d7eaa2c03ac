import ClosureCodegen.Proofs.Liveness.Ways

/-!
# Code composed of conditionals

`Composed` code is made of plain instructions and of conditionals, one inside another and one behind
another.  If its labels are all different, then control enters a conditional at its branch and leaves it
at its end: the part of a body that it is stands `Isolated`.  So the ways to the places of a conditional
are known from those to its branch and to the ends of its arms.

* `Isolated.cond`: the arms of an isolated conditional, and what is behind it, are isolated.
* `Conditional.ways`: the ways into a conditional, between its arms and out of it.
-/

namespace ClosureCodegen
open List

variable {k i : Instr} {part : Code} {l : String}

/-! ## Conditionals -/

/-- A conditional: a branch, the arm that is fallen into, a jump over the other arm, the label of that
arm, the arm, and the label where both end. -/
structure Conditional where
  branch : Instr
  first : Code
  jump : Instr
  taken : Instr
  second : Code
  join : Instr
  arms : Arms
  branch_arms : branch.arms? = some arms
  jump_op : jump.op = .j
  jump_label : jump.label? = some arms.endLabel
  taken_joint : taken.joint? = some (.label arms.takenLabel)
  join_joint : join.joint? = some (.label arms.endLabel)

namespace Conditional

variable (c : Conditional) (rest post : Code)

/-- A conditional from the end of both arms on. -/
def fromJoin : Code := c.join :: rest

/-- A conditional from the label of the second arm on. -/
def fromTaken : Code := c.taken :: (c.second ++ c.fromJoin rest)

/-- A conditional from the end of the first arm on. -/
def fromJump : Code := c.jump :: c.fromTaken rest

/-- A conditional, with what is behind it. -/
def code : Code := c.branch :: (c.first ++ c.fromJump rest)

theorem fromJoin_append : c.fromJoin rest ++ post = c.fromJoin (rest ++ post) := rfl

theorem fromTaken_append : c.fromTaken rest ++ post = c.fromTaken (rest ++ post) := by
  simp [fromTaken, fromJoin]

theorem fromJump_append : c.fromJump rest ++ post = c.fromJump (rest ++ post) := by
  rw [fromJump, cons_append, fromTaken_append, fromJump]

theorem code_append : c.code rest ++ post = c.code (rest ++ post) := by
  rw [code, cons_append, append_assoc, fromJump_append, code]

theorem isBranch : c.branch.op.isBranch = true := Instr.isBranch_of_arms? c.branch_arms

theorem label?_branch : c.branch.label? = some c.arms.takenLabel :=
  (Instr.arms?_eq_some_iff.mp c.branch_arms).2.1

theorem mem_code :
    k ∈ c.code rest ↔ k = c.branch ∨ k ∈ c.first ∨ k = c.jump ∨
    k = c.taken ∨ k ∈ c.second ∨ k = c.join ∨ k ∈ rest := by
  simp only [code, fromJump, fromTaken, fromJoin, mem_cons, mem_append]

theorem labelNames_code : labelNames (c.code rest) = labelNames c.first ++
    c.arms.takenLabel :: (labelNames c.second ++ c.arms.endLabel :: labelNames rest) := by
  have hjump : c.jump.isLabel = false := by
    rw [Instr.isLabel, c.jump_op]
    rfl
  rw [code, labelNames_cons_of_not_isLabel (isLabel_of_isBranch c.isBranch), labelNames_append, fromJump,
    labelNames_cons_of_not_isLabel hjump, fromTaken, labelNames_cons_label c.taken_joint,
    labelNames_append, fromJoin, labelNames_cons_label c.join_joint]

end Conditional

/-- Code made of plain instructions and conditionals. -/
inductive Composed : Code → Prop where
  | nil : Composed []
  | plain {i : Instr} {code : Code} : i.op.isBranch = false → i.op ≠ .j → Composed code →
      Composed (i :: code)
  | cond (c : Conditional) {rest : Code} : Composed c.first → Composed c.second → Composed rest →
      Composed (c.code rest)

/-! ## Where instructions lead -/

namespace Instr

theorem not_leadsTo (hb : i.op.isBranch = false) (hj : i.op ≠ .j) (l : String) : ¬i.LeadsTo l := by
  rintro ⟨hop | hop, -⟩
  · exact hj hop
  · rw [hb] at hop
    cases hop

theorem op_of_label (h : i.joint? = some (.label l)) : i.op = .label :=
  of_decide_eq_true (joint?_eq_label h).1

theorem not_leadsTo_of_label (h : i.joint? = some (.label l)) (k : String) : ¬i.LeadsTo k :=
  not_leadsTo (by rw [op_of_label h]; rfl) (by rw [op_of_label h]; nofun) k

end Instr

namespace Conditional

variable (c : Conditional)

variable {c}

theorem leadsTo_cases {rest : Code} (hk : k ∈ c.code rest) (hl : k.LeadsTo l) :
    (k = c.branch ∧ l = c.arms.takenLabel) ∨ (k = c.jump ∧ l = c.arms.endLabel) ∨ k ∈ c.first ∨
      k ∈ c.second ∨ k ∈ rest := by
  rcases (c.mem_code rest).mp hk with rfl | hk | rfl | rfl | hk | rfl | hk
  · exact .inl ⟨rfl, Option.some.inj (hl.2.symm.trans c.label?_branch)⟩
  · exact .inr (.inr (.inl hk))
  · exact .inr (.inl ⟨rfl, Option.some.inj (hl.2.symm.trans c.jump_label)⟩)
  · exact absurd hl (Instr.not_leadsTo_of_label c.taken_joint l)
  · exact .inr (.inr (.inr (.inl hk)))
  · exact absurd hl (Instr.not_leadsTo_of_label c.join_joint l)
  · exact .inr (.inr (.inr (.inr hk)))

end Conditional

theorem Composed.exists_label? (h : Composed part) (hk : k ∈ part) (hb : k.op.isBranch = true) :
    ∃ l, k.label? = some l := by
  induction h with
  | nil => cases hk
  | plain hp _ _ ih =>
    rcases mem_cons.mp hk with rfl | hk
    · rw [hp] at hb
      cases hb
    · exact ih hk
  | @cond c rest _ _ _ ih₁ ih₂ ih₃ =>
    rcases (c.mem_code rest).mp hk with rfl | hk | rfl | rfl | hk | rfl | hk
    · exact ⟨_, c.label?_branch⟩
    · exact ih₁ hk
    · exact ⟨_, c.jump_label⟩
    · exact ⟨_, (Instr.joint?_eq_label c.taken_joint).2⟩
    · exact ih₂ hk
    · exact ⟨_, (Instr.joint?_eq_label c.join_joint).2⟩
    · exact ih₃ hk

theorem Composed.mem_labelNames (h : Composed part) (hk : k ∈ part) (hl : k.LeadsTo l) :
    l ∈ labelNames part := by
  induction h with
  | nil => cases hk
  | @plain i code hb hj _ ih =>
    rcases mem_cons.mp hk with rfl | hk
    · exact absurd hl (Instr.not_leadsTo hb hj l)
    · rw [labelNames_cons]
      exact mem_append_right _ (ih hk)
  | cond c _ _ _ ih₁ ih₂ ih₃ =>
    rw [c.labelNames_code]
    simp only [mem_cons, mem_append]
    rcases Conditional.leadsTo_cases hk hl with ⟨-, rfl⟩ | ⟨-, rfl⟩ | hk | hk | hk
    · exact .inr (.inl rfl)
    · exact .inr (.inr (.inr (.inl rfl)))
    · exact .inl (ih₁ hk)
    · exact .inr (.inr (.inl (ih₂ hk)))
    · exact .inr (.inr (.inr (.inr (ih₃ hk))))

theorem Composed.exists_successors {code : Code} (h : Composed code) :
    ∃ l succs, Liveness.ofCode code = .ok l ∧ successors code = .ok succs := by
  obtain ⟨l, hl⟩ := Liveness.exists_ofCode_iff.mpr fun i hi hb => by
    obtain ⟨l, hname⟩ := h.exists_label? hi hb
    exact ⟨l, hname, h.mem_labelNames hi ⟨.inr hb, hname⟩⟩
  obtain ⟨eqs, heqs, -⟩ := Liveness.ofCode_eq_ok hl
  obtain ⟨succs, hsucc, -⟩ := FlowEquations.exists_successors heqs
  exact ⟨l, succs, hl, hsucc⟩

/-! ## Parts that are entered at their start -/

/-- Control comes to a label of a part from the part only. -/
def Isolated (code part post : Code) : Prop :=
  ∀ l ∈ labelNames part, ∀ k rest, k :: rest <:+ code → k.LeadsTo l →
    ∃ a b, part = a ++ k :: b ∧ rest = b ++ post

theorem Isolated.whole (code : Code) : Isolated code code [] := by
  rintro l - k rest ⟨a, ha⟩ -
  exact ⟨a, rest, ha.symm, (append_nil rest).symm⟩

namespace Isolated

variable {code post : Code}

theorem of_append (h : Isolated code part post) (u mid v : Code) (hpart : part = u ++ (mid ++ v))
    (hapart : ∀ k ∈ u ++ v, ∀ l ∈ labelNames mid, ¬k.LeadsTo l) : Isolated code mid (v ++ post) := by
  intro l hl k rest hs hk
  obtain ⟨a, b, hsplit, rfl⟩ := h l (by simp [hpart, hl]) k rest hs hk
  rcases append_eq_append_cons (hpart.symm.trans hsplit) with ⟨c, rfl, -⟩ | ⟨c, -, hsplit'⟩
  · exact absurd hk (hapart k (by simp) l hl)
  rcases append_eq_append_cons hsplit' with ⟨d, rfl, rfl⟩ | ⟨d, -, rfl⟩
  · exact ⟨c, d, rfl, append_assoc _ _ _⟩
  · exact absurd hk (hapart k (by simp) l hl)

theorem source (h : Isolated code part post) (u v : Code) (hpart : part = u ++ i :: v)
    (hl : l ∈ labelNames part) (hothers : ∀ k ∈ u ++ v, ¬k.LeadsTo l) {rest : Code}
    (hs : k :: rest <:+ code) (hk : k.LeadsTo l) : k :: rest = i :: (v ++ post) := by
  obtain ⟨a, b, hsplit, rfl⟩ := h l hl k rest hs hk
  rcases append_eq_append_cons (hpart.symm.trans hsplit) with ⟨c, rfl, -⟩ | ⟨c, -, hsplit'⟩
  · exact absurd hk (hothers k (by simp))
  · cases c with
    | nil =>
      cases hsplit'
      rfl
    | cons j c =>
      cases hsplit'
      exact absurd hk (hothers k (by simp))

theorem tail {i : Instr} (h : Isolated code (i :: part) post) (hb : i.op.isBranch = false)
    (hj : i.op ≠ .j) : Isolated code part post :=
  h.of_append [i] part [] (by simp) fun k hk l _ => by
    rw [mem_singleton.mp hk]
    exact Instr.not_leadsTo hb hj l

theorem not_source (h : Isolated code (i :: part) post) (hpart : Composed part)
    (hnodup : (labelNames (i :: part)).Nodup) (hi : i.joint? = some (.label l)) {rest : Code}
    (hs : k :: rest <:+ code) : ¬k.LeadsTo l := by
  intro hk
  have hnames := labelNames_cons_label hi part
  obtain ⟨a, b, hsplit, -⟩ := h l (by rw [hnames]; exact mem_cons_self) k rest hs hk
  rw [hnames, nodup_cons] at hnodup
  cases a with
  | nil =>
    cases hsplit
    exact Instr.not_leadsTo_of_label hi l hk
  | cons j a =>
    cases hsplit
    exact hnodup.1 (hpart.mem_labelNames (by simp) hk)

end Isolated

/-- What is known of an isolated conditional: its arms and what is behind it are isolated, control comes
to the second arm from the branch only, and from the jump to the end. -/
structure Conditional.IsolatedIn (c : Conditional) (code rest post : Code) : Prop where
  first : Isolated code c.first (c.fromJump (rest ++ post))
  second : Isolated code c.second (c.fromJoin (rest ++ post))
  behind : Isolated code rest post
  taken : ∀ k r, k :: r <:+ code → k.LeadsTo c.arms.takenLabel → k :: r = c.code (rest ++ post)
  join : ∀ k r, k :: r <:+ code → k.LeadsTo c.arms.endLabel → k :: r = c.fromJump (rest ++ post)

theorem Isolated.cond {code rest post : Code} {c : Conditional} (h : Isolated code (c.code rest) post)
    (hnodup : (labelNames (c.code rest)).Nodup) (h₁ : Composed c.first) (h₂ : Composed c.second)
    (h₃ : Composed rest) : c.IsolatedIn code rest post := by
  have hnames := c.labelNames_code rest
  rw [hnames] at hnodup
  have hbranch : ∀ x, c.branch.LeadsTo x → x = c.arms.takenLabel := fun x hx =>
    Option.some.inj (hx.2.symm.trans c.label?_branch)
  have hjump : ∀ x, c.jump.LeadsTo x → x = c.arms.endLabel := fun x hx =>
    Option.some.inj (hx.2.symm.trans c.jump_label)
  have htaken := Instr.not_leadsTo_of_label c.taken_joint
  have hjoin := Instr.not_leadsTo_of_label c.join_joint
  have hfirst := fun k hk x => h₁.mem_labelNames (k := k) (l := x) hk
  have hsecond := fun k hk x => h₂.mem_labelNames (k := k) (l := x) hk
  have hrest := fun k hk x => h₃.mem_labelNames (k := k) (l := x) hk
  constructor
  · rw [← c.fromJump_append]
    exact h.of_append [c.branch] c.first (c.fromJump rest) rfl (by
      simp only [Conditional.fromJump, Conditional.fromTaken, Conditional.fromJoin]
      grind)
  · rw [← c.fromJoin_append]
    exact h.of_append (c.branch :: (c.first ++ [c.jump, c.taken])) c.second (c.fromJoin rest)
      (by simp [Conditional.code, Conditional.fromJump, Conditional.fromTaken]) (by
      simp only [Conditional.fromJoin]
      grind)
  · exact h.of_append (c.branch :: (c.first ++ c.jump :: c.taken :: (c.second ++ [c.join]))) rest []
      (by simp [Conditional.code, Conditional.fromJump, Conditional.fromTaken, Conditional.fromJoin])
      (by grind)
  · intro k r hs hk
    rw [← c.code_append]
    exact h.source [] (c.first ++ c.fromJump rest) rfl (by rw [hnames]; simp) (by
      simp only [Conditional.fromJump, Conditional.fromTaken, Conditional.fromJoin]
      grind) hs hk
  · intro k r hs hk
    rw [← c.fromJump_append]
    exact h.source (c.branch :: c.first) (c.fromTaken rest) rfl (by rw [hnames]; simp) (by
      simp only [Conditional.fromTaken, Conditional.fromJoin]
      grind) hs hk

/-! ## Ways through conditionals -/

namespace Way

variable {code rest : Code} {passes : Instr → Prop}

theorem behind_plain (hs : i :: rest <:+ code) (hj : i.op ≠ .j)
    (hno : ∀ l, i.joint? = some (.label l) → ∀ k r, k :: r <:+ code → ¬k.LeadsTo l) :
    Way code passes code rest ↔ Way code passes code (i :: rest) ∧ passes i := by
  constructor
  · intro h
    rcases h.behind hs with ⟨hway, hi, -⟩ | ⟨l, k, r, hl, hks, hk, -⟩
    · exact ⟨hway, hi⟩
    · exact absurd hk (hno l hl k r hks)
  · rintro ⟨hway, hi⟩
    exact hway.next hi hj

theorem behind_label {r : Code} (hnodup : (labelNames code).Nodup) (hs : i :: rest <:+ code)
    (hl : i.joint? = some (.label l)) (hk : k.LeadsTo l)
    (honly : ∀ k' r', k' :: r' <:+ code → k'.LeadsTo l → k' :: r' = k :: r) (hi : passes i)
    (hpass : passes k) :
    Way code passes code rest ↔ Way code passes code (i :: rest) ∨ Way code passes code (k :: r) := by
  constructor
  · intro h
    rcases h.behind hs with ⟨hway, -⟩ | ⟨l', k', r', hl', hks, hk', -, hway⟩
    · exact .inl hway
    · cases hl.symm.trans hl'
      rw [honly k' r' hks hk'] at hway
      exact .inr hway
  · rintro (hway | hway)
    · exact hway.next hi (by rw [Instr.op_of_label hl]; nofun)
    · exact hway.label hpass hk (codeAfter?_of_joint hnodup hs hl)

theorem not_behind_jump (hs : i :: rest <:+ code) (hj : i.op = .j) : ¬Way code passes code rest := by
  intro h
  rcases h.behind hs with ⟨-, -, hop⟩ | ⟨l, k, r, hl, -⟩
  · exact hop hj
  · rw [Instr.op_of_label hl] at hj
    cases hj

end Way

/-- The ways into a conditional, between its arms and out of it: both arms are entered from the branch,
and what is behind the conditional from the ends of both arms. -/
theorem Conditional.IsolatedIn.ways {c : Conditional} {code rest post : Code} {passes : Instr → Prop}
    (h : c.IsolatedIn code rest post) (hnodup : (labelNames code).Nodup)
    (hs : c.code (rest ++ post) <:+ code)
    (hpass : ∀ i, i.op = .label ∨ i.op = .j ∨ i.op.isBranch = true → passes i) :
    (Way code passes code (c.first ++ c.fromJump (rest ++ post)) ↔
      Way code passes code (c.code (rest ++ post))) ∧
    (Way code passes code (c.second ++ c.fromJoin (rest ++ post)) ↔
      Way code passes code (c.code (rest ++ post))) ∧
    (Way code passes code (rest ++ post) ↔ Way code passes code (c.fromJump (rest ++ post)) ∨
      Way code passes code (c.fromJoin (rest ++ post))) := by
  have hjump : c.fromJump (rest ++ post) <:+ code := suffix_of_append (suffix_of_cons hs)
  have htaken : c.fromTaken (rest ++ post) <:+ code := suffix_of_cons hjump
  have hjoin : c.fromJoin (rest ++ post) <:+ code := suffix_of_append (suffix_of_cons htaken)
  have hbranch := hpass c.branch (.inr (.inr c.isBranch))
  have hop : c.branch.op ≠ .j ∧ c.branch.op ≠ .label := by
    constructor <;> intro hop <;> have := c.isBranch <;> rw [hop] at this <;> cases this
  refine ⟨?_, ?_, ?_⟩
  · refine (Way.behind_plain hs hop.1 fun l hl => absurd (Instr.op_of_label hl) hop.2).trans ?_
    exact and_iff_left hbranch
  · refine (Way.behind_label hnodup htaken c.taken_joint ⟨.inr c.isBranch, c.label?_branch⟩ h.taken
      (hpass _ (.inl (Instr.op_of_label c.taken_joint))) hbranch).trans ?_
    exact or_iff_right (Way.not_behind_jump hjump c.jump_op)
  · refine (Way.behind_label hnodup hjoin c.join_joint ⟨.inl c.jump_op, c.jump_label⟩ h.join
      (hpass _ (.inl (Instr.op_of_label c.join_joint))) (hpass _ (.inr (.inl c.jump_op)))).trans ?_
    exact or_comm

end ClosureCodegen
