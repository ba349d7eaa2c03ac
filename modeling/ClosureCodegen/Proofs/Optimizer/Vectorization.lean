import Mathlib.Algebra.Group.Int.Defs
import ClosureCodegen.Proofs.Optimizer.Vectors

/-!
# Vector accesses against scalar execution

Forming and aligning vector accesses is compared with the body as it was, without asking anything of
the instructions that are no accesses.  A run makes the accesses in front of it and then *stops*, at
another instruction or at the end of the body.  What an instruction does at which a run stops is left
open: it may change the state in any way, depend on how many stops there have been, and send control
anywhere.  The memory is a map of words, and addresses are taken modulo `2 ^ 32`.

* `Merges.sameStops`: bodies that differ in blocks of accesses only stop at the same instructions in
  the same states.
* `quiet_vectorize`: no run of accesses is left behind.
* `exists_vectorize`, `exists_alignVectors`: no offset leaves its range if three more words have room
  on either side of it.
-/

namespace ClosureCodegen

variable {code out rest : Code} {room : Nat} {first : ScalarAccess} {grown : List ScalarAccess}
  {i k : Instr} {v : Vectorized}

open Instr

/-! ## Stops -/

/-- Makes the accesses at the front of a body. -/
def passAccesses : Code → Hart → Code × Hart
  | [], h => ([], h)
  | i :: rest, h =>
    match i.access? h with
    | some h' => passAccesses rest h'
    | none => (i :: rest, h)

/-- An instruction that is no access, or the end of the body, and the state in front of it. -/
structure Stop where
  instr : Option Instr
  hart : Hart

/-- What instructions do that are no accesses, given how many there have been before. -/
abbrev Meaning : Type := ℕ → Instr → Hart → Hart × Transfer

/-- The first stops of a run. -/
def stops (meaning : Meaning) (code : Code) : ℕ → HartConfig → List Stop
  | 0, _ => []
  | n + 1, c =>
    match passAccesses c.rest c.hart with
    | ([], h) => [⟨none, h⟩]
    | (i :: rest, h) =>
      ⟨some i, h⟩ ::
        match (meaning c.calls i h).2.continueOn code rest (meaning c.calls i h).1 (c.calls + 1) with
        | .next _ c' => stops meaning code n c'
        | _ => []

/-- Runs from parts of two bodies have the same stops, whatever the other instructions do. -/
def StopAlike (code out rest rest' : Code) : Prop :=
  ∀ meaning h n, stops meaning out n ⟨rest', h, 0⟩ = stops meaning code n ⟨rest, h, 0⟩

/-- Two bodies have the same stops, from their start and from every label. -/
structure SameStops (code out : Code) : Prop where
  start : StopAlike code out code out
  labels : LabelsAgree (StopAlike code out) code out

theorem SameStops.trans {mid : Code} (h : SameStops code mid) (h' : SameStops mid out) :
    SameStops code out where
  start m g n := (h'.start m g n).trans (h.start m g n)
  labels := h.labels.trans h'.labels fun hs hs' m g n => (hs' m g n).trans (hs m g n)

/-! ## Merged accesses -/

theorem passAccesses_append {a : Code} {h h' : Hart} (ha : accessAll a h = some h') :
    passAccesses (a ++ rest) h = passAccesses rest h' := by
  induction a generalizing h with
  | nil =>
    cases ha
    rfl
  | cons i a ih =>
    rw [accessAll_cons, Option.bind_eq_some_iff] at ha
    obtain ⟨g, hg, ha⟩ := ha
    rw [List.cons_append, passAccesses, hg]
    exact ih ha

namespace Merges

/-- The accesses at the front have the same effect, and the same instruction is behind them. -/
theorem passAccesses (h : Merges code out) (g : Hart) :
    (∃ g', ClosureCodegen.passAccesses code g = ([], g') ∧
        ClosureCodegen.passAccesses out g = ([], g')) ∨
      ∃ i rest rest' g', ClosureCodegen.passAccesses code g = (i :: rest, g') ∧
        ClosureCodegen.passAccesses out g = (i :: rest', g') ∧ Merges rest rest' := by
  induction h generalizing g with
  | nil => exact .inl ⟨g, rfl, rfl⟩
  | @keep i code out hrest ih =>
    rw [ClosureCodegen.passAccesses, ClosureCodegen.passAccesses]
    cases i.access? g with
    | some g' => exact ih g'
    | none => exact .inr ⟨i, code, out, g, rfl, rfl, hrest⟩
  | block hab _ ih =>
    obtain ⟨g', ha, hb⟩ := hab.same g
    rw [passAccesses_append ha, passAccesses_append hb]
    exact ih g'

theorem labelsAgree (h : Merges code out) : LabelsAgree Merges code out := by
  intro l
  induction h with
  | nil => exact .inl ⟨rfl, rfl⟩
  | @keep i code out hrest ih =>
    rw [codeAfter?_cons, codeAfter?_cons]
    rcases ih with ⟨h₁, h₂⟩ | ⟨rest, rest', h₁, h₂, hm⟩
    · rw [h₁, h₂, Option.none_or, Option.none_or]
      split
      · exact .inr ⟨code, out, rfl, rfl, hrest⟩
      · exact .inl ⟨rfl, rfl⟩
    · rw [h₁, h₂]
      exact .inr ⟨rest, rest', rfl, rfl, hm⟩
  | block hab _ ih =>
    rw [codeAfter?_append_of_not_isLabel fun k hk => (hab.isStraight k (.inl hk)).noLabel,
      codeAfter?_append_of_not_isLabel fun k hk => (hab.isStraight k (.inr hk)).noLabel]
    exact ih

/-- One stop after another, both runs pass the same accesses and go on at the same place. -/
theorem stops_eq (meaning : Meaning) (hlabels : LabelsAgree Merges code out) (n : ℕ)
    {c d : HartConfig} (hp : SamePlace Merges c d) : stops meaning out n d = stops meaning code n c := by
  induction n generalizing c d with
  | zero => rfl
  | succ n ih =>
    obtain ⟨rest, g, k⟩ := c
    obtain ⟨rest', g', k'⟩ := d
    obtain ⟨hrest, hhart, hcalls⟩ := hp
    dsimp only at hrest hhart hcalls
    subst hhart hcalls
    rcases hrest.passAccesses g' with ⟨m, h₁, h₂⟩ | ⟨i, back, back', m, h₁, h₂, hback⟩
    · simp only [stops, h₁, h₂]
    · simp only [stops, h₁, h₂]
      have hm := Transfer.matches_continueOn hlabels (meaning k' i m).2 (fun _ => hback)
        (meaning k' i m).1 (k' + 1)
      have hne := Transfer.continueOn_ne_stuck code back (meaning k' i m).1 (k' + 1)
        (meaning k' i m).2
      generalize (meaning k' i m).2.continueOn code back (meaning k' i m).1 (k' + 1) = x,
        (meaning k' i m).2.continueOn out back' (meaning k' i m).1 (k' + 1) = y at hm hne ⊢
      cases hm with
      | stuck => exact absurd rfl hne
      | exit es x => rfl
      | next es hp => exact congrArg _ (ih hp)

theorem sameStops (h : Merges code out) : SameStops code out where
  start m g n := stops_eq m h.labelsAgree n ⟨h, rfl, rfl⟩
  labels l := by
    rcases h.labelsAgree l with hnone | ⟨rest, rest', h₁, h₂, hm⟩
    · exact .inl hnone
    · exact .inr ⟨rest, rest', h₁, h₂, fun m g n => stops_eq m h.labelsAgree n ⟨hm, rfl, rfl⟩⟩

end Merges

/-! ## No run is left -/

/-- The access that the first instruction of a body makes. -/
def frontAccess? (code : Code) : Option ScalarAccess := code.head?.bind Instr.scalarAccess?

/-- An access is followed by none that extends a run in either direction. -/
def StandsAlone (first : ScalarAccess) (next? : Option ScalarAccess) : Prop :=
  first.value.name = first.base.name ∨ ∀ next, next? = some next →
    extendsRun [first] first next Word.size = .ok false ∧
      extendsRun [first] first next (-Word.size) = .ok false

theorem growRun_of_alone {step : Word}
    (h : ∀ next, frontAccess? rest = some next → extendsRun [first] first next step = .ok false) :
    growRun step room [first] first rest = .ok [first] := by
  match room, rest with
  | 0, _ | _ + 1, [] => rfl
  | room + 1, i :: rest =>
    cases hi : i.scalarAccess? with
    | none => simp only [growRun, hi]
    | some next =>
      simp only [growRun, hi, h next hi]
      rfl

theorem length_le_growRun {step : Word} {run : List ScalarAccess} {last : ScalarAccess}
    (h : growRun step room run last rest = .ok grown) : run.length ≤ grown.length := by
  fun_induction growRun step room run last rest with
  | case1 | case2 | case3 =>
    cases h
    exact Nat.le_refl _
  | case4 room run last i rest next hnext ih =>
    obtain ⟨extended, -, h⟩ := Outcome.bind_eq_ok.mp h
    split at h
    · have := ih h
      rw [List.length_append] at this
      omega
    · cases h
      exact Nat.le_refl _

theorem alone_of_growRun {step : Word} {next : ScalarAccess}
    (h : growRun step (room + 1) [first] first rest = .ok grown) (hlength : ¬2 ≤ grown.length)
    (hnext : frontAccess? rest = some next) : extendsRun [first] first next step = .ok false := by
  cases rest with
  | nil => cases hnext
  | cons i rest =>
    have hnext' : i.scalarAccess? = some next := hnext
    simp only [growRun, hnext'] at h
    obtain ⟨extended, hextended, h⟩ := Outcome.bind_eq_ok.mp h
    cases extended with
    | false => exact hextended
    | true => exact absurd (length_le_growRun h) hlength

theorem findRun?_eq_none_iff :
    findRun? (i :: rest) = .ok none ↔
    ∀ first, i.scalarAccess? = some first → StandsAlone first (frontAccess? rest) := by
  constructor
  · intro h first hfirst
    simp only [findRun?, hfirst] at h
    split at h
    · next hbase => exact .inl hbase
    obtain ⟨up, hup, h⟩ := Outcome.bind_eq_ok.mp h
    split at h
    · cases h
    next hshort =>
    obtain ⟨down, hdown, h⟩ := Outcome.bind_eq_ok.mp h
    split at h
    · cases h
    next hshort' =>
    exact .inr fun next hnext => ⟨alone_of_growRun hup hshort hnext,
      alone_of_growRun hdown hshort' hnext⟩
  · intro h
    unfold findRun?
    dsimp only
    split
    · rfl
    next first hfirst =>
    split
    · rfl
    next hbase =>
    have halone := (h first hfirst).resolve_left hbase
    rw [growRun_of_alone fun next hnext => (halone next hnext).1,
      growRun_of_alone fun next hnext => (halone next hnext).2]
    rfl

/-- No run starts at any instruction of a body. -/
def Quiet : Code → Prop
  | [] => True
  | i :: rest => findRun? (i :: rest) = .ok none ∧ Quiet rest

theorem vectorize_of_quiet (h : Quiet code) : vectorize code = .ok ⟨code, 0⟩ := by
  induction code with
  | nil => rw [vectorize]
  | cons i rest ih =>
    rw [vectorize, h.1, ih h.2]
    rfl

theorem StandsAlone.mono {next? next?' : Option ScalarAccess} (h : StandsAlone first next?)
    (hn : ∀ next, next?' = some next → next? = some next) : StandsAlone first next?' :=
  h.imp_right fun hall next hnext => hall next (hn next hnext)

theorem scalarAccess?_vector {run : Run} (h : run.vector first = .ok k) :
    k.scalarAccess? = none := by
  obtain ⟨offset, -, rfl⟩ := Run.vector_eq_ok h
  cases first.op.isScalarLoad <;> rfl

theorem frontAccess?_vectorize (h : vectorize code = .ok v) {a : ScalarAccess}
    (ha : frontAccess? v.code = some a) : frontAccess? code = some a := by
  cases code with
  | nil =>
    rw [vectorize] at h
    cases h
    cases ha
  | cons i rest =>
    rcases vectorize_cons_eq_ok h with ⟨run, first, later, access, tail, -, -, haccess, -, rfl⟩ |
      ⟨tail, -, -, rfl⟩
    · cases (scalarAccess?_vector haccess).symm.trans ha
    · exact ha

theorem quiet_vectorize (h : vectorize code = .ok v) : Quiet v.code := by
  fun_induction vectorize code generalizing v with
  | case1 =>
    cases h
    trivial
  | case2 i rest ihrun ih =>
    rw [← vectorize] at h
    rcases vectorize_cons_eq_ok h with ⟨run, first, later, access, tail, -, -, haccess, htail, rfl⟩ |
      ⟨tail, hnone, htail, rfl⟩
    · refine ⟨findRun?_eq_none_iff.mpr fun first hfirst => ?_, ihrun later htail⟩
      cases (scalarAccess?_vector haccess).symm.trans hfirst
    · refine ⟨findRun?_eq_none_iff.mpr fun first hfirst => ?_, ih htail⟩
      exact (findRun?_eq_none_iff.mp hnone first hfirst).mono fun _ => frontAccess?_vectorize htail

theorem scalarAccess?_alignLanes (h : i.alignLanes = .ok k) :
    k.scalarAccess? = i.scalarAccess? := by
  rcases alignLanes_eq_ok h with rfl | ⟨_, _, _, _, _, _, _, hop | hop, -, -, -, rfl⟩
  · rfl
  · simp only [Instr.scalarAccess?, hop]
  · simp only [Instr.scalarAccess?, hop]

theorem quiet_alignVectors (h : alignVectors code = .ok out) (hcode : Quiet code) : Quiet out := by
  have hall := Outcome.mapM_eq_ok.mp h
  clear h
  induction hall with
  | nil => trivial
  | @cons i k code out hik hrest ih =>
    refine ⟨findRun?_eq_none_iff.mpr fun first hfirst => ?_, ih hcode.2⟩
    rw [scalarAccess?_alignLanes hik] at hfirst
    have hfront : frontAccess? out = frontAccess? code := by
      cases hrest with
      | nil => rfl
      | cons hjl _ => exact scalarAccess?_alignLanes hjl
    rw [hfront]
    exact findRun?_eq_none_iff.mp hcode.1 first hfirst

/-! ## Room around offsets -/

namespace Word

variable {a b o : Word}

theorem add?_eq_ok (hlow : -2 ^ 31 ≤ a.toInt + b.toInt) (hhigh : a.toInt + b.toInt < 2 ^ 31) :
    Word.add? a b = .ok (a + b) := by
  refine if_neg ?_
  simp only [BitVec.saddOverflow, Bool.or_eq_true, decide_eq_true_eq]
  omega

theorem sub?_eq_ok (hlow : -2 ^ 31 ≤ a.toInt - b.toInt) (hhigh : a.toInt - b.toInt < 2 ^ 31) :
    Word.sub? a b = .ok (a - b) ∧ (a - b).toInt = a.toInt - b.toInt := by
  have hno : ¬a.ssubOverflow b = true := by
    simp only [BitVec.ssubOverflow, Bool.or_eq_true, decide_eq_true_eq]
    omega
  exact ⟨if_neg hno, BitVec.toInt_sub_of_not_ssubOverflow hno⟩

/-- Three more words have room below an offset and above it. -/
def HasRoom (o : Word) : Prop := -2 ^ 31 + 12 ≤ o.toInt ∧ o.toInt ≤ 2 ^ 31 - 13

end Word

/-- An access has the operands that its opcode needs, with room around its offset and a mask of four
lanes. -/
def Instr.IsRoomy (i : Instr) : Prop :=
  match i.op.family with
  | .load | .store => ∃ (r s : Reg) (o : Word), i.operands = [.reg r, .reg s, .imm o] ∧ o.HasRoom
  | .vectorLoad | .vectorStore =>
    ∃ b p q r s o k, i = vector i.op b p q r s o k ∧ k.toNat < 16 ∧ o.HasRoom
  | _ => True

theorem Instr.IsRoomy.isPlain (hi : i.IsRoomy) : i.IsPlain := by
  obtain ⟨op, os⟩ := i
  cases op with
  | lw | flw | sw | fsw =>
    obtain ⟨r, s, o, ho, -⟩ := hi
    exact ⟨r, s, o, ho⟩
  | vlw | vsw =>
    obtain ⟨b, p, q, r, s, o, k, he, hk, -⟩ := hi
    exact ⟨b, p, q, r, s, o, k, he, hk⟩
  | _ => trivial

section Room

theorem hasRoom_of_isOf (hcode : ∀ i ∈ code, i.IsRoomy) {a : ScalarAccess} (ha : a.IsOf code) :
    a.offset.HasRoom := by
  obtain ⟨⟨op, os⟩, hi, ha⟩ := ha
  have hroom := hcode _ hi
  cases op with
  | lw | flw | sw | fsw =>
    obtain ⟨r, s, o, ho, hroom⟩ := hroom
    dsimp only at ho
    subst ho
    obtain rfl := Option.some.inj ha
    exact hroom
  | _ => cases ha

theorem exists_vectorize (hcode : ∀ i ∈ code, i.IsRoomy) : ∃ v, vectorize code = .ok v := by
  refine (ends_vectorize (E := fun _ => False) fun a ha => ?_).exists_ok
  obtain ⟨hlow, hhigh⟩ := hasRoom_of_isOf hcode ha
  have hsize : Word.size.toInt = 4 := by decide
  have hsize' : (-Word.size).toInt = -4 := by decide
  have hcount : (Word.ofCount (laneCount - 1)).toInt = 12 := by decide
  refine ⟨?_, ?_, ?_⟩
  · rw [Word.add?_eq_ok (by omega) (by omega)]
    trivial
  · rw [Word.add?_eq_ok (by omega) (by omega)]
    trivial
  · rw [(Word.sub?_eq_ok (by omega) (by omega)).1]
    trivial

theorem offset_of_vector {run : Run} {o : Word} (hfirst : first.offset.HasRoom)
    (h : run.vector first = .ok k) (ho : .imm o ∈ k.operands) : o.toInt ≤ 2 ^ 31 - 13 := by
  obtain ⟨hlow, hhigh⟩ := hfirst
  obtain ⟨offset, hoffset, rfl⟩ := Run.vector_eq_ok h
  obtain rfl : o = offset := by simpa using ho
  have hcount : (Word.ofCount (laneCount - 1)).toInt = 12 := by decide
  split at hoffset
  · rw [hoffset, (Word.sub?_eq_ok (by omega) (by omega)).2]
    omega
  · rw [hoffset]
    exact hhigh

theorem exists_alignVectors (hcode : ∀ i ∈ code, i.IsRoomy) (h : vectorize code = .ok v) :
    ∃ out, alignVectors v.code = .ok out := by
  have hplain := (merges_vectorize (fun i hi => (hcode i hi).isPlain) h).isPlain
    fun i hi => (hcode i hi).isPlain
  refine (ends_alignVectors (E := fun _ => False) hplain fun k hk hop o ho n hn => ?_).exists_ok
  have hhigh : o.toInt ≤ 2 ^ 31 - 13 := by
    rcases mem_vectorize h hk with hk | ⟨run, first, hall, hfirst, hvector⟩
    · have hroom := hcode k hk
      obtain ⟨op, os⟩ := k
      rcases hop with rfl | rfl <;>
      · obtain ⟨b, p, q, r, s, o', m, he, -, hroom⟩ := hroom
        rw [he] at ho
        obtain rfl : o = o' := by simpa [vector] using ho
        exact hroom.2
    · exact offset_of_vector (hasRoom_of_isOf hcode (hall first hfirst)) hvector ho
  have hcount : ∀ n < 4, 0 ≤ (Word.ofCount n).toInt ∧ (Word.ofCount n).toInt ≤ 12 := by decide
  have hlow := BitVec.le_toInt o
  have := hcount n hn
  rw [Word.add?_eq_ok (by omega) (by omega)]
  trivial

/-- Forming and aligning vector accesses fails for no offset that has room. The body has the same stops
as before, from its start and from every label. No further vector access can be formed, neither
before alignment nor behind it. -/
theorem vectorize_alignVectors_sameStops (hcode : ∀ i ∈ code, i.IsRoomy) :
    ∃ v out, vectorize code = .ok v ∧ alignVectors v.code = .ok out ∧ SameStops code out ∧
      vectorize v.code = .ok ⟨v.code, 0⟩ ∧ vectorize out = .ok ⟨out, 0⟩ := by
  obtain ⟨v, hv⟩ := exists_vectorize hcode
  obtain ⟨out, hout⟩ := exists_alignVectors hcode hv
  have hplain : ∀ i ∈ code, i.IsPlain := fun i hi => (hcode i hi).isPlain
  have hformed := merges_vectorize hplain hv
  have haligned := merges_alignVectors (hformed.isPlain hplain) hout
  exact ⟨v, out, hv, hout, hformed.sameStops.trans haligned.sameStops,
    vectorize_of_quiet (quiet_vectorize hv),
    vectorize_of_quiet (quiet_alignVectors hout (quiet_vectorize hv))⟩

end Room

/-- Loads that go down, one of them of `x0`, two stores of one register, and a vector access with a
hole between its lanes. -/
def mixedAccesses : Code :=
  [.labelled "l", .load (.int "a1") (.int "sp") 8, .load (.int "a2") (.int "sp") 4,
   .load (.int "x0") (.int "sp") 0, .store (.int "a3") (.int "a1") 0, .store (.int "a3") (.int "a1") 4,
   vector .vlw (.int "a3") (.int "a4") (.int "a5") (.int "a4") (.int "a6") 16 10, .jump "l"]

/-- What becomes of `mixedAccesses`. -/
def mergedAccesses : Code :=
  [.labelled "l", vector .vlw (.int "sp") (.int "x0") (.int "a2") (.int "a1") (.int "x0") 0 7,
   vector .vsw (.int "a3") (.int "a1") (.int "a1") (.int "x0") (.int "x0") 0 3,
   vector .vlw (.int "a3") (.int "a5") (.int "a4") (.int "a6") (.int "x0") 20 5, .jump "l"]

theorem sameStops_mixedAccesses :
    (∀ i ∈ mixedAccesses, i.IsRoomy) ∧ SameStops mixedAccesses mergedAccesses := by
  have hroom : ∀ i ∈ mixedAccesses, i.IsRoomy := by
    simp only [mixedAccesses, List.forall_mem_cons]
    exact ⟨trivial, ⟨_, _, _, rfl, by decide, by decide⟩, ⟨_, _, _, rfl, by decide, by decide⟩,
      ⟨_, _, _, rfl, by decide, by decide⟩, ⟨_, _, _, rfl, by decide, by decide⟩,
      ⟨_, _, _, rfl, by decide, by decide⟩,
      ⟨_, _, _, _, _, _, _, rfl, by decide, by decide, by decide⟩, trivial, nofun⟩
  obtain ⟨v, out, hv, hout, hstops, -⟩ := vectorize_alignVectors_sameStops hroom
  have hmerged : (do alignVectors (← vectorize mixedAccesses).code) = .ok mergedAccesses := by
    with_unfolding_all rfl
  rw [hv] at hmerged
  cases hout.symm.trans hmerged
  exact ⟨hroom, hstops⟩

end ClosureCodegen
