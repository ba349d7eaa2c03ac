import ClosureCodegen.Proofs.Code.Skeleton

/-!
# Nested conditionals

Passes that follow the arms of a conditional rely on the order in which its parts stand: the branch,
the arm that is fallen into, the label of the arm that is branched to, that arm, and the label where
both end.  A part of a body in which this is so, for every conditional that starts in it, is `Nested`.

A pass that replaces each instruction by a block moves labels and branches, but keeps their order.  If
each block has the label or the branch of its instruction and no other, the conditionals stay nested:
`Nested.flatten`.  Where an instruction has gone is `startOf`.

`Shaped` says that code is made of plain instructions, returns and conditionals, and whether some path
comes through to its end.  In front of the label of the arm that is branched to stands a jump over that
arm; it may be missing where no path comes to it.  In a body without a path to its end every path ends
in a return.
-/

namespace ClosureCodegen
open List

variable {code block : Code} {start stop k j : Nat} {blocks : List Code} {i : Instr} {l : String}

/-- The conditionals that start in a part of a body end in it, with their arms one after the other
and nested in turn. -/
inductive Nested (code : Code) : Nat → Nat → Prop where
  | done {start stop : Nat} : stop ≤ start → Nested code start stop
  | plain {start stop : Nat} {i : Instr} : start < stop → code[start]? = some i → i.arms? = none →
      Nested code (start + 1) stop → Nested code start stop
  | conditional {start stop taken join : Nat} {i : Instr} {arms : Arms} :
      code[start]? = some i → i.arms? = some arms →
      labelIndex? arms.takenLabel code = some taken → labelIndex? arms.endLabel code = some join →
      start < taken → taken < join → join < stop →
      Nested code (start + 1) taken → Nested code taken join → Nested code join stop →
      Nested code start stop

theorem Nested.skip (count : Nat) (hle : start + count ≤ stop)
    (hskip : ∀ k < count, ∃ i, code[start + k]? = some i ∧ i.arms? = none)
    (h : Nested code (start + count) stop) : Nested code start stop := by
  induction count generalizing start with
  | zero => exact h
  | succ count ih =>
    obtain ⟨i, hi, harms⟩ := hskip 0 (Nat.succ_pos count)
    refine .plain (by omega) hi harms (ih (by omega) (fun k hk => ?_) ?_)
    · rw [Nat.add_assoc, Nat.add_comm 1]
      exact hskip (k + 1) (by omega)
    · rwa [Nat.add_assoc, Nat.add_comm 1]

/-! ## Blocks one behind another -/

/-- The number of instructions in front of a block. -/
def startOf (blocks : List Code) (k : Nat) : Nat := (blocks.take k).flatten.length

@[simp] theorem startOf_zero (blocks : List Code) : startOf blocks 0 = 0 := rfl

theorem startOf_cons_succ (block : Code) (blocks : List Code) (k : Nat) :
    startOf (block :: blocks) (k + 1) = block.length + startOf blocks k := by
  simp [startOf]

theorem startOf_succ (h : blocks[k]? = some block) :
    startOf blocks (k + 1) = startOf blocks k + block.length := by
  rw [startOf, startOf, take_add_one, h, Option.toList_some, flatten_append,
    length_append, flatten_singleton]

theorem startOf_mono (blocks : List Code) (h : j ≤ k) : startOf blocks j ≤ startOf blocks k := by
  obtain ⟨n, rfl⟩ := Nat.exists_eq_add_of_le h
  rw [startOf, startOf, take_add, flatten_append, length_append]
  exact Nat.le_add_right _ _

theorem startOf_length (blocks : List Code) : startOf blocks blocks.length = blocks.flatten.length := by
  rw [startOf, take_length]

theorem getElem?_flatten (h : blocks[k]? = some block) (hj : block[j]? = some i) :
    blocks.flatten[startOf blocks k + j]? = some i := by
  obtain ⟨hlt, rfl⟩ := List.getElem?_eq_some_iff.mp hj
  induction blocks generalizing k with
  | nil => cases h
  | cons b blocks ih =>
    cases k with
    | zero =>
      cases h
      rw [startOf_zero, Nat.zero_add, flatten_cons, getElem?_append_left hlt]
      exact getElem?_eq_getElem hlt
    | succ k =>
      rw [startOf_cons_succ, flatten_cons, getElem?_append_right (by omega)]
      rw [show b.length + startOf blocks k + j - b.length = startOf blocks k + j by omega]
      exact ih h

/-! ## Passes that keep the order of labels and branches -/

/-- A block has the label or the branch of its instruction, and no other. -/
structure KeepsShape (i : Instr) (block : Code) : Prop where
  label : i.isLabel = true → ∃ k tail, block = k :: tail ∧ k.isLabel = true ∧
    k.label? = i.label? ∧ ∀ j ∈ tail, j.isLabel = false
  noLabel : i.isLabel = false → ∀ k ∈ block, k.isLabel = false
  arms : ∀ a, i.arms? = some a → ∃ front k, block = front ++ [k] ∧ k.arms? = some a ∧
    ∀ j ∈ front, j.arms? = none
  noArms : i.arms? = none → ∀ k ∈ block, k.arms? = none

theorem Instr.arms?_of_not_isBranch (h : i.op.isBranch = false) : i.arms? = none := by
  rw [arms?, h]
  rfl

theorem Instr.arms?_eq_some_iff {m : String} :
    i.arms? = some ⟨l, m⟩ ↔ i.op.isBranch = true ∧ i.label? = some l ∧ endifOf? l = some m := by
  rw [arms?, Option.ite_none_right_eq_some]
  refine and_congr_right fun _ => ?_
  simp only [Option.bind_eq_bind, Option.bind_eq_some_iff, Option.pure_def, Option.some.injEq,
    Arms.mk.injEq]
  constructor
  · rintro ⟨_, hl, _, hm, rfl, rfl⟩
    exact ⟨hl, hm⟩
  · rintro ⟨hl, hm⟩
    exact ⟨l, hl, m, hm, rfl, rfl⟩

theorem Instr.isBranch_of_arms? {arms : Arms} (h : i.arms? = some arms) : i.op.isBranch = true :=
  (arms?_eq_some_iff.mp h).1

theorem Instr.isBranch_of_isLabel (h : i.isLabel = true) : i.op.isBranch = false := by
  rw [show i.op = .label from of_decide_eq_true h]
  rfl

theorem KeepsShape.refl (i : Instr) : KeepsShape i [i] where
  label hl := ⟨i, [], rfl, hl, rfl, nofun⟩
  noLabel hl _ hk := mem_singleton.mp hk ▸ hl
  arms _ ha := ⟨[], i, rfl, ha, nofun⟩
  noArms ha _ hk := mem_singleton.mp hk ▸ ha

theorem KeepsShape.of_plain (hl : i.isLabel = false) (hb : i.op.isBranch = false)
    (hblock : ∀ k ∈ block, k.isLabel = false ∧ k.op.isBranch = false) : KeepsShape i block where
  label h := absurd h (by rw [hl]; nofun)
  noLabel _ k hk := (hblock k hk).1
  arms a ha := absurd ha (by rw [Instr.arms?_of_not_isBranch hb]; nofun)
  noArms _ k hk := Instr.arms?_of_not_isBranch (hblock k hk).2

theorem exists_getElem?_of_labelIndex? {p : Nat} (h : labelIndex? l code = some p) :
    ∃ i, code[p]? = some i ∧ i.isLabel = true ∧ i.label? = some l := by
  obtain ⟨pre, i, post, rfl, rfl, hi, -⟩ := labelIndex?_eq_some_iff.mp h
  exact ⟨i, by simp, Instr.joint?_eq_label hi⟩

theorem labelIndex?_append (h : ∀ k ∈ block, k.isLabel = false) :
    labelIndex? l (block ++ code) = (labelIndex? l code).map (block.length + ·) := by
  induction block with
  | nil => simp
  | cons k block ih =>
    rw [cons_append, labelIndex?, ih fun j hj => h j (mem_cons_of_mem k hj),
      h k mem_cons_self, Option.map_map]
    cases labelIndex? l code with
    | none => rfl
    | some p => simp; omega

section Flatten

theorem labelIndex?_flatten (h : List.Forall₂ KeepsShape code blocks) (l : String) :
    labelIndex? l blocks.flatten = (labelIndex? l code).map (startOf blocks) := by
  induction h with
  | nil => rfl
  | @cons i block code blocks hi _ ih =>
    have hmap : ∀ o : Option Nat, (o.map (startOf blocks)).map (block.length + ·) =
        (o.map (· + 1)).map (startOf (block :: blocks)) := by
      intro o
      cases o with
      | none => rfl
      | some p => simp [startOf_cons_succ]
    rw [flatten_cons, labelIndex?]
    cases hl : i.isLabel with
    | false =>
      rw [labelIndex?_append (hi.noLabel hl), ih, hmap]
      simp
    | true =>
      obtain ⟨k, tail, rfl, hk, hkl, htail⟩ := hi.label hl
      rw [cons_append, labelIndex?, labelIndex?_append htail, ih, hk, hkl, Option.map_or,
        ← hmap]
      congr 1
      · cases labelIndex? l code with
        | none => rfl
        | some p => simp; omega
      · split <;> rfl

/-- Where conditionals are nested, they are nested in the blocks. The arms and the rest of a
conditional start where their blocks start. -/
theorem Nested.flatten (h : List.Forall₂ KeepsShape code blocks) (hstop : stop ≤ code.length)
    (hn : Nested code start stop) :
    Nested blocks.flatten (startOf blocks start) (startOf blocks stop) := by
  induction hn with
  | done hle => exact .done (startOf_mono blocks hle)
  | @plain start stop i hlt hi harms _ ih =>
    obtain ⟨block, hblock, hshape⟩ := getElem?_of_forall₂ h hi
    have hsucc := startOf_succ hblock
    refine Nested.skip block.length ?_ (fun k hk => ?_) (hsucc ▸ ih hstop)
    · exact hsucc ▸ startOf_mono blocks hlt
    · exact ⟨block[k], getElem?_flatten hblock (getElem?_eq_getElem hk),
        hshape.noArms harms _ (getElem_mem hk)⟩
  | @conditional start stop taken join i arms hi harms ht hj hst htj hjs _ _ _ ih₁ ih₂ ih₃ =>
    obtain ⟨block, hblock, hshape⟩ := getElem?_of_forall₂ h hi
    obtain ⟨front, k, rfl, hk, hfront⟩ := hshape.arms arms harms
    have hsucc := startOf_succ hblock
    rw [length_append, length_singleton, ← Nat.add_assoc] at hsucc
    have hmono : ∀ {m n}, m < n → startOf blocks (m + 1) ≤ startOf blocks n :=
      fun hmn => startOf_mono blocks hmn
    -- labels are never left without an instruction, so the arms are not empty
    have hlabel : ∀ {l p}, labelIndex? l code = some p →
        startOf blocks p < startOf blocks (p + 1) := by
      intro l p hp
      obtain ⟨j, hj, hjl, -⟩ := exists_getElem?_of_labelIndex? hp
      obtain ⟨b, hb, hbs⟩ := getElem?_of_forall₂ h hj
      obtain ⟨q, tail, rfl, -⟩ := hbs.label hjl
      rw [startOf_succ hb, length_cons]
      omega
    have hbranch : blocks.flatten[startOf blocks start + front.length]? = some k :=
      getElem?_flatten hblock (by simp)
    have hcond : Nested blocks.flatten (startOf blocks start + front.length)
        (startOf blocks stop) := by
      refine .conditional hbranch hk ?_ ?_ ?_ ?_ ?_ ?_ (ih₂ (by omega)) (ih₃ hstop)
      · rw [labelIndex?_flatten h, ht, Option.map_some]
      · rw [labelIndex?_flatten h, hj, Option.map_some]
      · have := hmono hst
        omega
      · exact Nat.lt_of_lt_of_le (hlabel ht) (hmono htj)
      · exact Nat.lt_of_lt_of_le (hlabel hj) (hmono hjs)
      · rw [← hsucc]
        exact ih₁ (by omega)
    refine Nested.skip front.length ?_ (fun m hm => ?_) hcond
    · have := hmono (Nat.lt_trans hst (Nat.lt_trans htj hjs))
      omega
    · refine ⟨front[m], getElem?_flatten hblock ?_, hfront _ (getElem_mem hm)⟩
      rw [getElem?_append_left hm]
      exact getElem?_eq_getElem hm

end Flatten

/-! ## Paths through structured code -/

def Instr.isReturn (i : Instr) : Bool := i.op = .returnValue || i.op = .returnUnit

/-- Whether an instruction leaves the rest of the work to a callee. -/
def Instr.isTail (i : Instr) : Bool := i.op = .tailDirect || i.op = .tailClosure

/-- Structured code, and whether a path can come to its end. -/
inductive Shaped : Bool → Code → Prop where
  | nil : Shaped true []
  | plain {i : Instr} {code : Code} {a : Bool} : i.isPlain = true → i.isReturn = false →
      i.isTail = false → Shaped a code → Shaped a (i :: code)
  | ret {i : Instr} {code : Code} {a : Bool} : i.isReturn = true → Shaped a code →
      Shaped false (i :: code)
  | cond {branch : Instr} {l m : String} {first skip second rest : Code} {a b c : Bool} :
      branch.arms? = some ⟨l, m⟩ → Shaped a first →
      (skip = [.jump m] ∨ skip = [] ∧ a = false) → Shaped b second → Shaped c rest →
      Shaped ((a || b) && c)
        (branch :: (first ++ (skip ++ .labelled l :: (second ++ .labelled m :: rest))))

/-! ## Instructions of structured code -/

theorem Instr.isPlain_of_isReturn (h : i.isReturn = true) : i.isPlain = true := by
  obtain ⟨op, os⟩ := i
  simp only [isReturn, Bool.or_eq_true, decide_eq_true_eq] at h
  rcases h with rfl | rfl <;> rfl

theorem Instr.op_of_isPlain (h : i.isPlain = true) :
    i.isLabel = false ∧ i.op.isBranch = false ∧ i.op ≠ .j := by
  simpa [isPlain, and_assoc] using h

theorem Instr.arms?_of_isPlain (h : i.isPlain = true) : i.arms? = none :=
  arms?_of_not_isBranch (op_of_isPlain h).2.1

theorem Instr.label?_of_arms? {arms : Arms} (h : i.arms? = some arms) :
    i.op.isBranch = true ∧ i.label? = some arms.takenLabel := by
  obtain ⟨hb, hl, -⟩ := arms?_eq_some_iff.mp h
  exact ⟨hb, hl⟩

/-- What an instruction of structured code can be, given the labels of the code. -/
inductive Instr.PartOf (names : List String) : Instr → Prop where
  | plain {i : Instr} : i.isPlain = true → i.isTail = false → PartOf names i
  | label {l : String} : l ∈ names → PartOf names (.labelled l)
  | jump {l : String} : l ∈ names → PartOf names (.jump l)
  | branch {i : Instr} {arms : Arms} : i.arms? = some arms → arms.takenLabel ∈ names →
      PartOf names i

theorem Instr.PartOf.mono {names names' : List String} (hn : names ⊆ names') (h : i.PartOf names) :
    i.PartOf names' := by
  cases h with
  | plain hp ht => exact .plain hp ht
  | label hl => exact .label (hn hl)
  | jump hl => exact .jump (hn hl)
  | branch ha hl => exact .branch ha (hn hl)

theorem Instr.isTail_of_isReturn (h : i.isReturn = true) : i.isTail = false := by
  obtain ⟨op, os⟩ := i
  simp only [isReturn, Bool.or_eq_true, decide_eq_true_eq] at h
  rcases h with rfl | rfl <;> rfl

theorem Shaped.partOf {a : Bool} {code : Code} (h : Shaped a code) (hi : i ∈ code) :
    i.PartOf (labelNames code) := by
  induction h with
  | nil => cases hi
  | @plain k code _ hk _ ht _ ih =>
    rw [labelNames_cons_of_not_isLabel (Instr.op_of_isPlain hk).1]
    rcases mem_cons.mp hi with rfl | hi
    · exact .plain hk ht
    · exact ih hi
  | @ret k code _ hk _ ih =>
    have hplain := Instr.isPlain_of_isReturn hk
    rw [labelNames_cons_of_not_isLabel (Instr.op_of_isPlain hplain).1]
    rcases mem_cons.mp hi with rfl | hi
    · exact .plain hplain (Instr.isTail_of_isReturn hk)
    · exact ih hi
  | @cond branch l m first skip second rest _ _ _ harms _ hskip _ _ ih₁ ih₂ ih₃ =>
    have hbranch := isLabel_of_isBranch (Instr.label?_of_arms? harms).1
    have hskip' : labelNames skip = [] := by
      rcases hskip with rfl | ⟨rfl, -⟩ <;> rfl
    simp only [labelNames_cons_of_not_isLabel hbranch, labelNames_append, hskip', nil_append,
      labelNames_labelled]
    simp only [mem_cons, mem_append] at hi
    rcases hi with rfl | hi | hi | rfl | hi | rfl | hi
    · exact .branch harms (by simp)
    · exact (ih₁ hi).mono (by simp)
    · rcases hskip with rfl | ⟨rfl, -⟩
      · rw [mem_singleton.mp hi]
        exact .jump (by simp)
      · cases hi
    · exact .label (by simp)
    · exact (ih₂ hi).mono fun x hx => by simp [hx]
    · exact .label (by simp)
    · exact (ih₃ hi).mono fun x hx => by simp [hx]

end ClosureCodegen
