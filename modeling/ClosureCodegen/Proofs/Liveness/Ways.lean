import ClosureCodegen.Proofs.Code.Nesting
import ClosureCodegen.Proofs.Liveness.Exactness

/-!
# Ways through a body

A way leads from one place of a body to another along the transfers of control that instructions can
make.  Analyses that hold on every way, or on some way, speak of ways that pass only instructions of one
kind: those that do not define a register, those that do not fill a slot.

Places are rests of the body, as the machine has them.  From the start of the body the same ways are
paths of its flow graph, which passes over labels and comments: `Way.exists_path`, `PathTo.toWay`.

How control came to a place is `Way.behind`: from the instruction in front of it, or through the label
in front of it.
-/

namespace ClosureCodegen
open List

variable {code rest rest' place : Code} {i k : Instr} {l : String}

/-! ## Places -/

theorem eq_of_cons_suffix (hi : i :: rest <:+ code) (hk : k :: rest <:+ code) : k = i := by
  have hplace : placeOf code (k :: rest) = placeOf code (i :: rest) := rfl
  have := getElem?_placeOf hk
  rw [hplace, getElem?_placeOf hi] at this
  exact (Option.some.inj this).symm

theorem cons_suffix_of_codeAfter? (h : codeAfter? l code = some rest) :
    ∃ i, i :: rest <:+ code ∧ i.joint? = some (.label l) := by
  rw [codeAfter?_eq, Option.map_eq_some_iff] at h
  obtain ⟨p, hp, rfl⟩ := h
  obtain ⟨i, hi, hl, hname⟩ := exists_getElem?_of_labelIndex? hp
  exact ⟨i, (suffix_of_getElem? hi).1, Instr.joint?_of_isLabel hl hname⟩

/-! ## Ways -/

/-- Control can go from one place of a body to another, and each instruction that it passes has a
property. -/
inductive Way (code : Code) (passes : Instr → Prop) (start : Code) : Code → Prop where
  | refl : Way code passes start start
  | step {i : Instr} {rest rest' : Code} {t : Transfer} : Way code passes start (i :: rest) →
      passes i → i.CanTransfer t → Follows code rest t rest' → Way code passes start rest'

/-- Control can go on at a label from an instruction. -/
def Instr.LeadsTo (i : Instr) (l : String) : Prop :=
  (i.op = .j ∨ i.op.isBranch = true) ∧ i.label? = some l

namespace Way

variable {start : Code} {passes : Instr → Prop}

theorem suffix (h : Way code passes start rest) (hs : start <:+ code) : rest <:+ code := by
  induction h with
  | refl => exact hs
  | step _ _ _ hf ih => exact hf.suffix ih

theorem next (h : Way code passes start (i :: rest)) (hi : passes i) (hj : i.op ≠ .j) :
    Way code passes start rest :=
  .step h hi (t := .next) hj rfl

theorem label (h : Way code passes start (i :: rest)) (hi : passes i) (hl : i.LeadsTo l)
    (hf : codeAfter? l code = some rest') : Way code passes start rest' := by
  obtain ⟨hop | hb, hname⟩ := hl
  · exact .step h hi (t := .jump l) ⟨hop, hname⟩ hf
  · exact .step h hi (t := .branch l) ⟨hb, hname⟩ hf

/-- How control comes to a place behind an instruction: from the instruction, or through it if it is a
label. -/
theorem behind (h : Way code passes code rest) (hs : i :: rest <:+ code) :
    (Way code passes code (i :: rest) ∧ passes i ∧ i.op ≠ .j) ∨
      ∃ l k rest', i.joint? = some (.label l) ∧ k :: rest' <:+ code ∧ k.LeadsTo l ∧ passes k ∧
        Way code passes code (k :: rest') := by
  cases h with
  | refl =>
    have := hs.length_le
    rw [length_cons] at this
    omega
  | @step k rest' _ t hk hpass ht hf =>
    have hks := hk.suffix suffix_rfl
    -- both a branch and a jump arrive behind their label
    have hjump : ∀ l, k.LeadsTo l → codeAfter? l code = some rest →
        ∃ l k rest', i.joint? = some (.label l) ∧ k :: rest' <:+ code ∧ k.LeadsTo l ∧ passes k ∧
          Way code passes code (k :: rest') := by
      intro l hl hafter
      obtain ⟨j, hj, hjoint⟩ := cons_suffix_of_codeAfter? hafter
      obtain rfl := eq_of_cons_suffix hs hj
      exact ⟨l, k, rest', hjoint, hks, hl, hpass, hk⟩
    cases t with
    | next =>
      obtain rfl : rest = rest' := hf
      obtain rfl := eq_of_cons_suffix hs hks
      exact .inl ⟨hk, hpass, ht⟩
    | branch l => exact .inr (hjump l ⟨.inr ht.1, ht.2⟩ hf)
    | jump l => exact .inr (hjump l ⟨.inl ht.1, ht.2⟩ hf)
    | exit x => exact hf.elim

theorem of_nextReal? {q : Nat} (hreal : ∀ i, i.isReal = false → passes i)
    (h : Way code passes start rest) (hs : rest <:+ code)
    (hq : nextReal? code (placeOf code rest) = some q) : Way code passes start (code.drop q) := by
  induction rest with
  | nil =>
    rw [nextReal?_eq_none (by simp [placeOf])] at hq
    cases hq
  | cons i rest ih =>
    have hi := getElem?_placeOf hs
    cases hr : i.isReal with
    | true =>
      rw [nextReal?_of_isReal hi hr] at hq
      cases hq
      rwa [drop_placeOf hs]
    | false =>
      rw [nextReal?_of_not_isReal hi hr, ← placeOf_tail hs] at hq
      exact ih (h.next (hreal i hr) (Instr.op_of_not_isReal hr).1) (suffix_of_cons hs) hq

end Way

/-! ## Paths of the flow graph -/

/-- A path of a flow graph from the first instruction of a body, by way of instructions of a kind. -/
structure PathTo (code : Code) (succs : List (List Nat)) (passes : Instr → Prop) (way : List Nat)
    (q : Nat) : Prop where
  start : (way ++ [q]).head? = some 0
  chain : (way ++ [q]).IsChain fun a b => b ∈ succs.getD a []
  passes : ∀ j ∈ way, ∀ i, code[j]? = some i → passes i

section Paths

variable {succs : List (List Nat)} {passes : Instr → Prop} {way : List Nat} {p q : Nat}

theorem PathTo.snoc (h : PathTo code succs passes way p)
    (hp : ∀ i, code[p]? = some i → passes i) (hq : q ∈ succs.getD p []) :
    PathTo code succs passes (way ++ [p]) q where
  start := by
    have := h.start
    cases way <;> simpa using this
  chain := by
    refine isChain_append.mpr ⟨h.chain, isChain_singleton q, ?_⟩
    intro a ha b hb
    rw [getLast?_concat, Option.mem_some_iff] at ha
    rw [head?_cons, Option.mem_some_iff] at hb
    exact ha ▸ hb ▸ hq
  passes j hj := by
    rcases mem_append.mp hj with hj | hj
    · exact h.passes j hj
    · rw [mem_singleton.mp hj]
      exact hp

theorem PathTo.init (h : PathTo code succs passes (way ++ [p]) q) :
    PathTo code succs passes way p ∧ (∀ i, code[p]? = some i → passes i) ∧ q ∈ succs.getD p [] := by
  obtain ⟨hstart, hchain, hpass⟩ := h
  obtain ⟨hfront, -, hlast⟩ := isChain_append.mp hchain
  refine ⟨⟨?_, hfront, fun j hj => hpass j (mem_append_left _ hj)⟩,
    hpass p (by simp), hlast p (by simp) q (by simp)⟩
  cases way <;> simpa using hstart

theorem Way.exists_path (hsucc : successors code = .ok succs)
    (hreal : ∀ i, i.isReal = false → passes i) (h : Way code passes code rest)
    (hq : nextReal? code (placeOf code rest) = some q) : ∃ way, PathTo code succs passes way q := by
  induction h generalizing q with
  | refl =>
    have hzero : placeOf code code = 0 := Nat.sub_self _
    obtain ⟨i, rest, rfl⟩ : ∃ i rest, code = i :: rest := by
      cases code with
      | nil => cases hq
      | cons i rest => exact ⟨i, rest, rfl⟩
    have hfirst : PathTo (i :: rest) succs passes [] 0 := ⟨rfl, isChain_singleton 0, nofun⟩
    cases hr : i.isReal with
    | true =>
      rw [hzero, nextReal?_of_isReal rfl hr] at hq
      cases hq
      exact ⟨[], hfirst⟩
    | false =>
      rw [nextReal?_of_not_isReal (getElem?_placeOf suffix_rfl) hr,
        ← placeOf_tail suffix_rfl] at hq
      have hop := (Instr.op_of_not_isReal hr).1
      refine ⟨[] ++ [0], hfirst.snoc (fun k hk => ?_) ?_⟩
      · cases hk
        exact hreal i hr
      · rw [← hzero]
        exact (mem_successors hsucc suffix_rfl).mpr ⟨.next, rest, hop, rfl, hq⟩
  | @step i rest rest' t h hi ht hf ih =>
    have hs := h.suffix suffix_rfl
    have hget := getElem?_placeOf hs
    cases hr : i.isReal with
    | true =>
      obtain ⟨way, hway⟩ := ih (nextReal?_of_isReal hget hr)
      refine ⟨_, hway.snoc (fun k hk => ?_) ((mem_successors hsucc hs).mpr ⟨t, rest', ht, hf, hq⟩)⟩
      cases hget.symm.trans hk
      exact hi
    | false =>
      obtain rfl := hf.eq_of_not_isReal hr ht
      exact ih (by rw [nextReal?_of_not_isReal hget hr, ← placeOf_tail hs, hq])

theorem PathTo.toWay (hsucc : successors code = .ok succs)
    (hreal : ∀ i, i.isReal = false → passes i) (h : PathTo code succs passes way q) :
    Way code passes code (code.drop q) := by
  induction way using List.reverseRecOn generalizing q with
  | nil =>
    obtain rfl : q = 0 := Option.some.inj h.start
    exact .refl
  | append_singleton way p ih =>
    obtain ⟨hp, hpass, hq⟩ := h.init
    have hway := ih hp
    obtain ⟨i, hi⟩ := exists_getElem?_of_mem_successors hsucc hq
    obtain ⟨hs, hplace⟩ := suffix_of_getElem? hi
    rw [← hplace] at hq
    obtain ⟨t, rest', ht, hf, hnext⟩ := (mem_successors hsucc hs).mp hq
    rw [drop_of_getElem? hi] at hway
    exact (hway.step (hpass i hi) ht hf).of_nextReal? hreal (hf.suffix hs) hnext

end Paths

end ClosureCodegen
