import Mathlib.Data.List.Dedup
import ClosureCodegen.Proofs.Allocation.Behaviour
import ClosureCodegen.Proofs.Liveness.Exactness

/-!
# Allocation comes to an end

A round that asks for spills is followed by another one on a longer body with more variables in it.
Nothing in the bodies themselves gets smaller.  What runs out is the supply of variables: a round
only spills what the body mentioned before the first round, and nothing twice, since spilled
variables and temporaries are barred from then on.

The limit on the number of rounds is another matter, because it looks at the graph of the current
round.  A spilled variable that the body defines stays in the graph for good, and one that the body
only reads leaves a temporary behind.  So the graph and the temporaries together are always as many
as the variables spilled so far, and the limit is never reached.

* `SpillRounds`: the states that rounds lead through.
* `SpillRounds.sound`: what holds in all of them.
* `allocateVisiting_progress`: the number of rounds and of spills.
-/

namespace ClosureCodegen
open List Outcome Instr Liveness

variable {v : Reg} {i : Instr} {vars : List Reg} {e : Failure} {registers : List (Reg × PhysReg)}
  {result : RoundResult} {a : Allocation} {x : Outcome Allocation}

/-! ## The states of the rounds -/

/-- The variables that a body defines or uses, each once. -/
def mentionedRegs (code : Code) : List Reg :=
  (code.flatMap fun i => i.trackedDefs ++ i.trackedUses).dedup

/-- The variables that a body defines. -/
def definedRegs (code : Code) : List Reg := code.flatMap Instr.trackedDefs

/-- The temporaries that spilling a variable makes, with a number of them made before. -/
def reloadsOf (var : Reg) : Nat → Code → List Reg
  | _, [] => []
  | n, i :: code =>
    if var ∈ i.uses then reloadTemp (n + 1) var.cls :: reloadsOf var (n + 1) code
    else reloadsOf var n code

/-- Where the rounds of allocation have come to. -/
structure SpillProgress where
  code : Code
  state : SpillState
  /-- The variables spilled so far, in order. -/
  spilled : List Reg
  /-- The temporaries made so far, in order. -/
  temps : List Reg

namespace SpillProgress

/-- The state in front of the first round. -/
def start (code : Code) : SpillProgress := ⟨markUnusedParams code, {}, [], []⟩

/-- Spills one more variable. -/
def spillOne (st : SpillProgress) (var : Reg) : SpillProgress where
  code := (spill st.state st.code var).1
  state := (spill st.state st.code var).2
  spilled := st.spilled ++ [var]
  temps := st.temps ++ reloadsOf var st.state.reloads st.code

/-- Spills variables one after another. -/
def spillMany (st : SpillProgress) (vars : List Reg) : SpillProgress := vars.foldl spillOne st

def finish (st : SpillProgress) (round : Nat) (registers : List (Reg × PhysReg)) :
    Outcome Allocation := do
  let code ← (removeDeadDefinitions st.code).mapM (renameInstr registers)
  return {
    code
    rounds := round
    spilledInts := st.spilled.countP fun r => r.cls = .int
    spilledFloats := st.spilled.countP fun r => r.cls = .float }

theorem spillMany_cons (st : SpillProgress) (v : Reg) (vars : List Reg) :
    st.spillMany (v :: vars) = (st.spillOne v).spillMany vars := rfl

theorem spilled_spillMany (st : SpillProgress) (vars : List Reg) :
    (st.spillMany vars).spilled = st.spilled ++ vars := by
  induction vars generalizing st with
  | nil => exact (append_nil _).symm
  | cons v vars ih => rw [spillMany_cons, ih, spillOne, append_assoc, singleton_append]

theorem spillMany_eq_spillAll (st : SpillProgress) (vars : List Reg) :
    ((st.spillMany vars).code, (st.spillMany vars).state) = spillAll st.state st.code vars := by
  induction vars generalizing st with
  | nil => rfl
  | cons v vars ih => rw [spillMany_cons, ih]; rfl

end SpillProgress

/-- The states that lie in front of the rounds of an allocation, with their numbers. -/
inductive SpillRounds (visit : Nat → UseVisit) (order : AllocationOrder) (code : Code) :
    Nat → SpillProgress → Prop where
  | start : SpillRounds visit order code 1 (.start code)
  | next {n : Nat} {st : SpillProgress} {result : RoundResult} : SpillRounds visit order code n st →
      colorRound (visit n) order st.state st.code = .ok result → result.spills ≠ [] →
      SpillRounds visit order code (n + 1) (st.spillMany result.spills)

/-- How allocation ends with a round: colouring fails, or it asks for no spill. -/
inductive LastRound (visit : Nat → UseVisit) (order : AllocationOrder) (n : Nat)
    (st : SpillProgress) : Outcome Allocation → Prop where
  | failed {e : Failure} : colorRound (visit n) order st.state st.code = .error e →
      LastRound visit order n st (.error e)
  | colored {result : RoundResult} : colorRound (visit n) order st.state st.code = .ok result →
      result.spills = [] → LastRound visit order n st (st.finish n result.registers)

/-! ## One spill -/

theorem mentions_iff_mem {code : Code} : Mentions code v ↔ v ∈ mentionedRegs code := by
  simp only [mentionedRegs, mem_dedup, mem_flatMap, mem_append, Mentions]

def storeBehind (var : Reg) (i : Instr) : Code :=
  if var ∈ i.trackedDefs then [⟨.spillStore, [.reg var, .label var.name]⟩] else []

section Spill

variable {var : Reg} {s : SpillState} {code : Code}

theorem spillInstr_of_mem_uses (h : var ∈ i.uses) : spillInstr var s i =
    (⟨.spillLoad, [.reg (reloadTemp (s.reloads + 1) var.cls), .label var.name]⟩ ::
      i.mapUses (fun r => if r = var then reloadTemp (s.reloads + 1) var.cls else r) ::
        storeBehind var i,
      ⟨s.reloads + 1, reloadTemp (s.reloads + 1) var.cls :: s.barred⟩) := if_pos h

theorem spillInstr_of_not_mem_uses (h : var ∉ i.uses) :
    spillInstr var s i = (i :: storeBehind var i, s) := if_neg h

theorem mem_barred_spillCode :
    v ∈ (spillCode var s code).2.barred ↔ v ∈ s.barred ∨ v ∈ reloadsOf var s.reloads code := by
  induction code generalizing s with
  | nil => simp [spillCode, reloadsOf]
  | cons i code ih =>
    simp only [spillCode, ih, spillInstr, reloadsOf]
    split
    · rw [mem_cons, mem_cons]
      tauto
    · rfl

theorem exists_of_mem_reloadsOf {n : Nat} (h : v ∈ reloadsOf var n code) :
    ∃ k, v = reloadTemp k var.cls := by
  induction code generalizing n with
  | nil => cases h
  | cons i code ih =>
    rw [reloadsOf] at h
    split at h
    · rcases mem_cons.mp h with rfl | h
      · exact ⟨_, rfl⟩
      · exact ih h
    · exact ih h

theorem reloads_spillCode : (spillCode var s code).2.reloads =
    s.reloads + (reloadsOf var s.reloads code).length := by
  induction code generalizing s with
  | nil => rfl
  | cons i code ih =>
    simp only [spillCode, ih, spillInstr, reloadsOf]
    split
    · rw [length_cons, Nat.add_assoc, Nat.add_comm 1]
    · rfl

theorem mem_trackedDefs_spillInstr (h : v ∈ i.trackedDefs) :
    ∃ k ∈ (spillInstr var s i).1, v ∈ k.trackedDefs := by
  by_cases hu : var ∈ i.uses
  · rw [spillInstr_of_mem_uses hu]
    refine ⟨_, mem_cons_of_mem _ mem_cons_self, ?_⟩
    rw [trackedDefs, defs_mapUses]
    exact h
  · rw [spillInstr_of_not_mem_uses hu]
    exact ⟨i, mem_cons_self, h⟩

theorem mem_trackedUses_spillInstr (h : v ∈ i.trackedUses) (hv : v ≠ var) :
    ∃ k ∈ (spillInstr var s i).1, v ∈ k.trackedUses := by
  by_cases hu : var ∈ i.uses
  · rw [spillInstr_of_mem_uses hu]
    refine ⟨_, mem_cons_of_mem _ mem_cons_self, ?_⟩
    rw [mem_trackedUses, uses_mapUses] at *
    exact ⟨mem_map.mpr ⟨v, h.1, if_neg hv⟩, h.2⟩
  · rw [spillInstr_of_not_mem_uses hu]
    exact ⟨i, mem_cons_self, h⟩

theorem mentions_spillInstr {k : Instr} (hk : k ∈ (spillInstr var s i).1)
    (hv : v ∈ k.trackedDefs ∨ v ∈ k.trackedUses) :
    (v ∈ i.trackedDefs ∨ v ∈ i.trackedUses) ∨
      (var ∈ i.uses ∧ v = reloadTemp (s.reloads + 1) var.cls) := by
  have hstore : k ∈ storeBehind var i → v ∈ i.trackedDefs := by
    intro hk
    rw [storeBehind] at hk
    split at hk
    · next hd =>
      rw [mem_singleton] at hk
      subst hk
      rcases hv with hv | hv
      · cases hv
      · rw [show v = var from mem_singleton.mp (mem_of_mem_filter hv)]
        exact hd
    · cases hk
  by_cases hu : var ∈ i.uses
  · rw [spillInstr_of_mem_uses hu] at hk
    rcases mem_cons.mp hk with rfl | hk
    · rcases hv with hv | hv
      · exact .inr ⟨hu, mem_singleton.mp (mem_of_mem_filter hv)⟩
      · cases hv
    rcases mem_cons.mp hk with rfl | hk
    · rw [trackedDefs, defs_mapUses] at hv
      rcases hv with hv | hv
      · exact .inl (.inl hv)
      rw [mem_trackedUses, uses_mapUses, mem_map] at hv
      obtain ⟨⟨q, hq, rfl⟩, hr⟩ := hv
      split at hr
      · next he => exact .inr ⟨hu, if_pos he⟩
      · next he =>
        rw [if_neg he]
        exact .inl (.inr (mem_trackedUses.mpr ⟨hq, hr⟩))
    · exact .inl (.inl (hstore hk))
  · rw [spillInstr_of_not_mem_uses hu] at hk
    rcases mem_cons.mp hk with rfl | hk
    · exact .inl hv
    · exact .inl (.inl (hstore hk))

theorem mentions_of_spillCode (h : Mentions (spillCode var s code).1 v) :
    Mentions code v ∨ v ∈ reloadsOf var s.reloads code := by
  obtain ⟨k, hk, hv⟩ := h
  induction code generalizing s with
  | nil => cases hk
  | cons i code ih =>
    rcases mem_append.mp hk with hk | hk
    · rcases mentions_spillInstr hk hv with hv | ⟨hu, rfl⟩
      · exact .inl ⟨i, mem_cons_self, hv⟩
      · rw [reloadsOf, if_pos hu]
        exact .inr mem_cons_self
    · have htail : v ∈ reloadsOf var (spillInstr var s i).2.reloads code →
          v ∈ reloadsOf var s.reloads (i :: code) := by
        intro hmem
        rw [reloadsOf]
        split
        · next hu =>
          rw [spillInstr_of_mem_uses hu] at hmem
          exact mem_cons_of_mem _ hmem
        · next hu =>
          rw [spillInstr_of_not_mem_uses hu] at hmem
          exact hmem
      rcases ih hk with ⟨j, hj, hv⟩ | hmem
      · exact .inl ⟨j, mem_cons_of_mem i hj, hv⟩
      · exact .inr (htail hmem)

theorem exists_mem_spillCode {P : Instr → Prop} (hi : i ∈ code)
    (h : ∀ s', ∃ k ∈ (spillInstr var s' i).1, P k) : ∃ k ∈ (spillCode var s code).1, P k := by
  induction code generalizing s with
  | nil => cases hi
  | cons j code ih =>
    rcases mem_cons.mp hi with rfl | hi
    · obtain ⟨k, hk, hp⟩ := h s
      exact ⟨k, mem_append_left _ hk, hp⟩
    · obtain ⟨k, hk, hp⟩ := ih (s := (spillInstr var s j).2) hi
      exact ⟨k, mem_append_right _ hk, hp⟩

theorem mem_definedRegs_spillCode (h : v ∈ definedRegs code) :
    v ∈ definedRegs (spillCode var s code).1 := by
  obtain ⟨i, hi, hv⟩ := mem_flatMap.mp h
  exact mem_flatMap.mpr (exists_mem_spillCode hi fun _ => mem_trackedDefs_spillInstr hv)

theorem Mentions.spillCode_of_ne (h : Mentions code v) (hv : v ≠ var) :
    Mentions (spillCode var s code).1 v := by
  obtain ⟨i, hi, hd | hu⟩ := h
  · obtain ⟨k, hk, hd⟩ := exists_mem_spillCode hi fun _ => mem_trackedDefs_spillInstr hd
    exact ⟨k, hk, .inl hd⟩
  · obtain ⟨k, hk, hu⟩ := exists_mem_spillCode hi fun _ => mem_trackedUses_spillInstr hu hv
    exact ⟨k, hk, .inr hu⟩

theorem Mentions.definedRegs_or_reloads (h : Mentions code var) :
    var ∈ definedRegs (spillCode var s code).1 ∨ 0 < (reloadsOf var s.reloads code).length := by
  obtain ⟨i, hi, hd | hu⟩ := h
  · exact .inl (mem_definedRegs_spillCode (mem_flatMap.mpr ⟨i, hi, hd⟩))
  · right
    rw [mem_trackedUses] at hu
    generalize s.reloads = n
    induction code generalizing n with
    | nil => cases hi
    | cons j code ih =>
      rw [reloadsOf]
      split
      · exact Nat.succ_pos _
      · next hj =>
        rcases mem_cons.mp hi with rfl | hi
        · exact absurd hu.1 hj
        · exact ih hi n

end Spill

/-! ## What holds in front of every round -/

/-- What a spill asks of a variable: the body mentions it, and it is neither spilled already nor a
temporary. -/
structure SpillProgress.CanSpill (st : SpillProgress) (v : Reg) : Prop where
  mentioned : Mentions st.code v
  notSpilled : v ∉ st.spilled
  notTemp : v ∉ st.temps

/-- What the rounds keep, for a body with its unused parameters marked. -/
structure SpillProgress.Sound (marked : Code) (st : SpillProgress) : Prop where
  nodup : st.spilled.Nodup
  /-- Only variables that were there in the beginning are spilled. -/
  old : ∀ v ∈ st.spilled, Mentions marked v
  mentions : ∀ v, Mentions st.code v → Mentions marked v ∨ v ∈ st.temps
  barred : ∀ v, v ∈ st.state.barred ↔ v ∈ st.spilled ∨ v ∈ st.temps
  /-- A spilled variable without a definition has left a temporary. -/
  reloads : (st.spilled.countP fun v => v ∉ definedRegs st.code) ≤ st.state.reloads

namespace SpillProgress

variable {marked : Code} {st : SpillProgress}

theorem canSpill_iff (h : st.Sound marked) :
    st.CanSpill v ↔ Mentions st.code v ∧ v ∉ st.state.barred := by
  rw [h.barred, not_or]
  exact ⟨fun ⟨hm, hs, ht⟩ => ⟨hm, hs, ht⟩, fun ⟨hm, hs, ht⟩ => ⟨hm, hs, ht⟩⟩

theorem Sound.spillOne (h : st.Sound marked) (hv : st.CanSpill v) :
    (st.spillOne v).Sound marked where
  nodup := by
    refine nodup_append.mpr ⟨h.nodup, nodup_singleton v, ?_⟩
    rintro a ha b hb rfl
    exact hv.notSpilled (mem_singleton.mp hb ▸ ha)
  old := by
    intro w hw
    rcases mem_append.mp hw with hw | hw
    · exact h.old w hw
    · rw [mem_singleton.mp hw]
      exact (h.mentions v hv.mentioned).resolve_right hv.notTemp
  mentions := by
    intro w hw
    rw [SpillProgress.spillOne, mem_append]
    rcases mentions_of_spillCode hw with hw | hw
    · exact (h.mentions w hw).imp_right .inl
    · exact .inr (.inr hw)
  barred := by
    intro w
    simp only [SpillProgress.spillOne, spill, mem_barred_spillCode, mem_cons, h.barred,
      mem_append, not_mem_nil, or_false]
    tauto
  reloads := by
    have hkeep : (st.spilled.countP fun w => w ∉ definedRegs (st.spillOne v).code) ≤
        st.spilled.countP fun w => w ∉ definedRegs st.code := by
      refine countP_mono_left fun w _ hw => ?_
      rw [decide_eq_true_eq] at hw ⊢
      exact fun hd => hw (mem_definedRegs_spillCode hd)
    have hreloads : (st.spillOne v).state.reloads =
        st.state.reloads + (reloadsOf v st.state.reloads st.code).length := reloads_spillCode
    have hle := h.reloads
    rw [SpillProgress.spillOne, countP_append, countP_singleton, ← SpillProgress.spillOne,
      hreloads]
    rcases hv.mentioned.definedRegs_or_reloads (s := ⟨st.state.reloads, v :: st.state.barred⟩) with
      hd | hpos
    · have : v ∈ definedRegs (st.spillOne v).code := hd
      simp only [this, not_true_eq_false, decide_false, Bool.false_eq_true, if_false]
      omega
    · have hlen : 0 < (reloadsOf v st.state.reloads st.code).length := hpos
      split <;> omega

theorem CanSpill.spillOne {w : Reg} (hw : st.CanSpill w) (hcls : w.cls ≠ v.cls) :
    (st.spillOne v).CanSpill w where
  mentioned := hw.mentioned.spillCode_of_ne fun he => hcls (congrArg Reg.cls he)
  notSpilled := by
    intro hmem
    rcases mem_append.mp hmem with hmem | hmem
    · exact hw.notSpilled hmem
    · exact hcls (congrArg Reg.cls (mem_singleton.mp hmem))
  notTemp := by
    intro hmem
    rcases mem_append.mp hmem with hmem | hmem
    · exact hw.notTemp hmem
    · obtain ⟨k, rfl⟩ := exists_of_mem_reloadsOf hmem
      exact hcls rfl

/-- What spills of variables of different classes keep one by one, they keep together. -/
theorem spillMany_induction {P : SpillProgress → Prop}
    (hspill : ∀ {st v}, v ∈ vars → st.CanSpill v → P st → P (st.spillOne v))
    (hvars : ∀ v ∈ vars, st.CanSpill v) (hcls : (vars.map Reg.cls).Nodup) (h : P st) :
    P (st.spillMany vars) := by
  induction vars generalizing st with
  | nil => exact h
  | cons v vars ih =>
    rw [map_cons, nodup_cons] at hcls
    refine ih (fun hu => hspill (mem_cons_of_mem v hu)) (fun w hw => ?_) hcls.2
      (hspill mem_cons_self (hvars v mem_cons_self) h)
    refine (hvars w (mem_cons_of_mem v hw)).spillOne fun he => hcls.1 ?_
    exact he ▸ mem_map_of_mem hw

theorem CanSpill.spillMany {front rest : List Reg} (h : ∀ w ∈ front ++ v :: rest, st.CanSpill w)
    (hcls : ((front ++ v :: rest).map Reg.cls).Nodup) : (st.spillMany front).CanSpill v := by
  rw [map_append, nodup_append] at hcls
  refine spillMany_induction (P := (CanSpill · v)) (fun hu _ hv => hv.spillOne fun he => ?_)
    (fun w hw => h w (mem_append_left _ hw)) hcls.1 (h v (mem_append_right _ mem_cons_self))
  exact hcls.2.2 _ (mem_map_of_mem hu) _ mem_cons_self he.symm

end SpillProgress

section Round

variable {visit : UseVisit} {order : AllocationOrder} {s : SpillState} {code : Code}

theorem colorRound_spills_sublist (h : colorRound visit order s code = .ok result) :
    (result.spills.map Reg.cls).Sublist [.int, .float] := by
  obtain ⟨l, ints, floats, _, hi, hf, rfl⟩ := colorRound_eq_ok h
  have hclass : ∀ {cls : RegClass} {r : RoundResult}, colorClass visit order s l cls = .ok r →
      (r.spills.map Reg.cls).Sublist [cls] := by
    intro cls r hr
    rcases colorClass_eq_ok hr with ⟨he, _⟩ | ⟨_, x, _, he⟩
    · rw [he]
      exact nil_sublist _
    · rw [he]
      exact .refl _
  rw [map_append]
  exact (hclass hi).append (hclass hf)

theorem length_le_nodes (h : colorRound visit order s code = .ok result) (hnodup : vars.Nodup)
    (hvars : ∀ v ∈ vars, v ∈ definedRegs code) : vars.length ≤ result.nodes := by
  obtain ⟨l, ints, floats, hl, hi, hf, rfl⟩ := colorRound_eq_ok h
  have hclass : ∀ {cls : RegClass} {r : RoundResult}, colorClass visit order s l cls = .ok r →
      vars.countP (·.cls = cls) ≤ r.nodes := by
    intro cls r hr
    have hsize : r.nodes = (l.mentions visit cls).toList.length := by
      simp only [colorClass, bind_eq_ok] at hr
      obtain ⟨c, _, hr⟩ := hr
      cases c <;> cases hr <;> rfl
    have hnames : ((vars.filter (·.cls = cls)).map Reg.name).Nodup := by
      refine (hnodup.filter _).map_on ?_
      rintro ⟨x, c⟩ hx ⟨y, d⟩ hy hxy
      simp only [mem_filter, decide_eq_true_eq] at hx hy hxy
      rw [hx.2, hy.2, hxy]
    have hsub : (vars.filter (·.cls = cls)).map Reg.name ⊆ (l.mentions visit cls).toList := by
      intro x hx
      obtain ⟨v, hv, rfl⟩ := mem_map.mp hx
      simp only [mem_filter, decide_eq_true_eq] at hv
      obtain ⟨hv, rfl⟩ := hv
      obtain ⟨i, hi, hd⟩ := mem_flatMap.mp (hvars v hv)
      obtain ⟨p, hp⟩ := mem_iff_getElem?.mp hi
      have hlt : p < l.size := size_ofCode hl ▸ (List.getElem?_eq_some_iff.mp hp).1
      refine mem_mentions.mpr ⟨p, hlt, .inr (mem_clique.mpr (.inr ?_))⟩
      exact (mem_defs hl hp).mpr hd
    rw [hsize, countP_eq_length_filter, ← length_map (f := Reg.name)]
    exact (subperm_of_subset hnames hsub).length_le
  have hsplit : vars.length = vars.countP (·.cls = .int) + vars.countP (·.cls = .float) := by
    rw [length_eq_countP_add_countP fun v : Reg => decide (v.cls = .int)]
    congr 1
    refine countP_congr fun v _ => ?_
    cases v.cls <;> simp
  have := hclass hi
  have := hclass hf
  simp only
  omega

theorem Liveness.ofCode_ne_roundLimit (n : Nat) : ofCode code ≠ .error (.roundLimit n) := by
  intro h
  obtain ⟨_, i, _, _, hfail, -⟩ := successors_eq_error_iff.mp (ofCode_eq_error_iff.mp h)
  cases hfail

theorem InterferenceGraph.select_error {g : InterferenceGraph} {regs : List PhysReg}
    {stack : List SetAside} {colors : Array (Option PhysReg)}
    (h : g.select regs stack colors = .error e) : ∃ x, e = .uncolorableNode x := by
  induction stack generalizing colors with
  | nil => cases h
  | cons a stack ih =>
    simp only [select] at h
    split at h
    · exact ih h
    · split at h
      · cases h
      · cases h
        exact ⟨_, rfl⟩

theorem colorRound_ne_roundLimit (n : Nat) :
    colorRound visit order s code ≠ .error (.roundLimit n) := by
  intro h
  have hclass : ∀ l cls, colorClass visit order s l cls ≠ .error (.roundLimit n) := by
    intro l cls hc
    rcases bind_eq_error.mp hc with hc | ⟨c, _, hc⟩
    · obtain ⟨x, hx⟩ := InterferenceGraph.select_error hc
      cases hx
    · cases c <;> cases hc
  rcases bind_eq_error.mp h with h | ⟨l, _, h⟩
  · exact ofCode_ne_roundLimit n h
  rcases bind_eq_error.mp h with h | ⟨ints, _, h⟩
  · exact hclass l .int h
  rcases bind_eq_error.mp h with h | ⟨floats, _, h⟩
  · exact hclass l .float h
  · cases h

theorem renameInstr_error (h : renameInstr registers i = .error e) :
    ∃ r ∈ i.regs, r.isReserved = false ∧
      registers.lookup r = none ∧ e = .unassignedRegister r.name := by
  rcases bind_eq_error.mp h with h | ⟨_, _, h⟩
  · obtain ⟨o, ho, hr⟩ := exists_of_mapM_eq_error h
    cases o with
    | reg r =>
      simp only [renameOperand] at hr
      split at hr
      · cases hr
      · next hres =>
        split at hr
        · cases hr
        · next hnone =>
          cases hr
          exact ⟨r, mem_filterMap.mpr ⟨_, ho, rfl⟩, Bool.eq_false_iff.mpr hres, hnone, rfl⟩
    | imm w | fimm w | label w | mask w => cases hr
  · cases h

end Round

namespace SpillRounds

variable {visit : Nat → UseVisit} {order : AllocationOrder} {code : Code} {n : Nat}
  {st : SpillProgress}

theorem canSpill (hvisit : ∀ n, (visit n).IsOrder) (h : st.Sound (markUnusedParams code))
    (hr : colorRound (visit n) order st.state st.code = .ok result) :
    ∀ v ∈ result.spills, st.CanSpill v := fun v hv =>
  (SpillProgress.canSpill_iff h).mpr ((colorRound_spills (hvisit n) hr).2 v hv)

variable (h : SpillRounds visit order code n st)
include h

theorem sound (hvisit : ∀ n, (visit n).IsOrder) : st.Sound (markUnusedParams code) := by
  induction h with
  | start => exact ⟨nodup_nil, nofun, fun _ => .inl, fun _ => by simp [SpillProgress.start], Nat.zero_le _⟩
  | next _ hr _ ih =>
    exact SpillProgress.spillMany_induction (fun _ hv h => h.spillOne hv) (canSpill hvisit ih hr)
      ((colorRound_spills_sublist hr).nodup (by decide)) ih

/-- What holds in front of the first round and is kept by a spill holds in front of every round. -/
theorem invariant {P : SpillProgress → Prop} (hvisit : ∀ n, (visit n).IsOrder)
    (hstart : P (.start code))
    (hspill : ∀ {st v}, st.Sound (markUnusedParams code) → st.CanSpill v → P st → P (st.spillOne v)) :
    P st := by
  induction h with
  | start => exact hstart
  | next h hr _ ih =>
    have hs := h.sound hvisit
    exact (SpillProgress.spillMany_induction (P := fun st => st.Sound (markUnusedParams code) ∧ P st)
      (fun _ hv h => ⟨h.1.spillOne hv, hspill h.1 hv h.2⟩) (canSpill hvisit hs hr)
      ((colorRound_spills_sublist hr).nodup (by decide)) ⟨hs, ih⟩).2

theorem length_spilled : n ≤ st.spilled.length + 1 ∧ st.spilled.length + 2 ≤ 2 * n := by
  induction h with
  | start => exact ⟨Nat.le_refl _, Nat.le_refl _⟩
  | @next n st result _ hr hne ih =>
    have hpos : 0 < result.spills.length := length_pos_iff.mpr hne
    have htwo : result.spills.length ≤ 2 := by
      have := (colorRound_spills_sublist hr).length_le
      rwa [length_map] at this
    rw [SpillProgress.spilled_spillMany, length_append]
    omega

variable (hvisit : ∀ n, (visit n).IsOrder)
include hvisit

theorem le_mentioned : n ≤ 1 + (mentionedRegs (markUnusedParams code)).length := by
  have hs := h.sound hvisit
  have hsub : st.spilled ⊆ mentionedRegs (markUnusedParams code) := fun v hv =>
    mentions_iff_mem.mp (hs.old v hv)
  have := (subperm_of_subset hs.nodup hsub).length_le
  have := h.length_spilled.1
  omega

theorem not_limit (hr : colorRound (visit n) order st.state st.code = .ok result) :
    ¬result.nodes + st.state.reloads + 1 < n := by
  have hs := h.sound hvisit
  have hsplit := length_eq_countP_add_countP (l := st.spilled)
    fun v => decide (v ∈ definedRegs st.code)
  have hdefined : st.spilled.countP (fun v => decide (v ∈ definedRegs st.code)) ≤ result.nodes := by
    rw [countP_eq_length_filter]
    refine length_le_nodes hr (hs.nodup.filter _) fun v hv => ?_
    exact of_decide_eq_true (mem_filter.mp hv).2
  have hother := hs.reloads
  have := h.length_spilled.1
  simp only [decide_eq_true_eq] at hsplit
  omega

theorem exists_lastRound {fuel : Nat}
    (hfuel : 1 + (mentionedRegs (markUnusedParams code)).length < fuel + n) :
    ∃ n' st', SpillRounds visit order code n' st' ∧
      LastRound visit order n' st' (allocateRounds visit order fuel n st.state st.spilled st.code) := by
  induction fuel generalizing n st with
  | zero =>
    have := h.le_mentioned hvisit
    omega
  | succ fuel ih =>
    cases hr : colorRound (visit n) order st.state st.code with
    | error e =>
      refine ⟨n, st, h, ?_⟩
      rw [allocateRounds, hr]
      exact .failed hr
    | ok result =>
      by_cases hempty : result.spills = []
      · refine ⟨n, st, h, ?_⟩
        have heq : allocateRounds visit order (fuel + 1) n st.state st.spilled st.code =
            st.finish n result.registers := by
          rw [allocateRounds, hr]
          exact if_pos (List.isEmpty_iff.mpr hempty)
        rw [heq]
        exact .colored hr hempty
      · obtain ⟨n', st', h', hlast⟩ := ih (h.next hr hempty) (by omega)
        refine ⟨n', st', h', ?_⟩
        have hall := st.spillMany_eq_spillAll result.spills
        have heq : allocateRounds visit order (fuel + 1) n st.state st.spilled st.code =
            allocateRounds visit order fuel (n + 1) (st.spillMany result.spills).state
              (st.spillMany result.spills).spilled (st.spillMany result.spills).code := by
          rw [allocateRounds, hr, SpillProgress.spilled_spillMany]
          refine (if_neg (List.isEmpty_iff.not.mpr hempty)).trans ?_
          refine (if_neg (h.not_limit hvisit hr)).trans ?_
          rw [← hall]
        rw [heq]
        exact hlast

end SpillRounds

/-! ## Allocation as a whole -/

section Allocation

variable {visit : Nat → UseVisit} {order : AllocationOrder} {n : Nat} {st : SpillProgress}

theorem SpillProgress.finish_eq_ok (h : st.finish n registers = .ok a) :
    (removeDeadDefinitions st.code).mapM (renameInstr registers) = .ok a.code ∧ a.rounds = n ∧
      a.spilledInts + a.spilledFloats = st.spilled.length := by
  simp only [finish, bind_eq_ok, pure_eq_ok] at h
  obtain ⟨code, hcode, rfl⟩ := h
  refine ⟨hcode, rfl, ?_⟩
  rw [length_eq_countP_add_countP fun v : Reg => decide (v.cls = .int)]
  congr 1
  refine countP_congr fun v _ => ?_
  cases v.cls <;> simp

theorem LastRound.ne_roundLimit (h : LastRound visit order n st x) (k : Nat) :
    x ≠ .error (.roundLimit k) := by
  cases h with
  | failed hr =>
    intro he
    cases he
    exact colorRound_ne_roundLimit k hr
  | colored _ _ =>
    intro he
    rcases bind_eq_error.mp he with he | ⟨_, _, he⟩
    · obtain ⟨i, _, hi⟩ := exists_of_mapM_eq_error he
      obtain ⟨_, _, _, _, hr⟩ := renameInstr_error hi
      cases hr
    · cases he

theorem LastRound.eq_finish (h : LastRound visit order n st x) (hx : x = .ok a) :
    ∃ registers, st.finish n registers = .ok a := by
  cases h with
  | failed _ => cases hx
  | colored _ _ => exact ⟨_, hx⟩

theorem length_mentionedRegs_le (code : Code) :
    (mentionedRegs code).length ≤ (code.flatMap regs).length := by
  refine (subperm_of_subset (nodup_dedup _) fun v hv => ?_).length_le
  obtain ⟨i, hi, hr⟩ := (mentions_iff_mem.mpr hv).mem_regs
  exact mem_flatMap.mpr ⟨i, hi, hr⟩

theorem exists_lastRound_allocateVisiting (hvisit : ∀ n, (visit n).IsOrder)
    (order : AllocationOrder) (code : Code) : ∃ n st, SpillRounds visit order code n st ∧
      LastRound visit order n st (allocateVisiting visit order code) := by
  refine SpillRounds.start.exists_lastRound hvisit ?_
  have := length_mentionedRegs_le (markUnusedParams code)
  omega

/-- Whatever the body and the registers at hand, and in whatever order uses are visited: the rounds
come to an end, at the latest when every variable of the body has been spilled; no variable is
spilled twice, and no temporary once it was made; the limit on the number of rounds is not reached;
and each round but the last spills one variable or two. -/
theorem allocateVisiting_progress (hvisit : ∀ n, (visit n).IsOrder) (order : AllocationOrder)
    (code : Code) :
    (∀ n st, SpillRounds visit order code n st →
      n ≤ 1 + (mentionedRegs (markUnusedParams code)).length ∧ st.spilled.Nodup ∧
      ∀ result, colorRound (visit n) order st.state st.code = .ok result →
        ∀ front v rest, result.spills = front ++ v :: rest →
          v ∉ (st.spillMany front).spilled ∧ v ∉ (st.spillMany front).temps) ∧
    (∃ n st, SpillRounds visit order code n st ∧
      LastRound visit order n st (allocateVisiting visit order code)) ∧
    (∀ n, allocateVisiting visit order code ≠ .error (.roundLimit n)) ∧
    ∀ a, allocateVisiting visit order code = .ok a →
      a.rounds ≤ 1 + (mentionedRegs (markUnusedParams code)).length ∧
      a.rounds - 1 ≤ a.spilledInts + a.spilledFloats ∧
      a.spilledInts + a.spilledFloats ≤ 2 * (a.rounds - 1) := by
  obtain ⟨n, st, h, hlast⟩ := exists_lastRound_allocateVisiting hvisit order code
  refine ⟨fun n st h => ⟨h.le_mentioned hvisit, (h.sound hvisit).nodup, ?_⟩, ⟨n, st, h, hlast⟩,
    hlast.ne_roundLimit, fun a ha => ?_⟩
  · intro result hr front v rest hspills
    have hcan := SpillRounds.canSpill hvisit (h.sound hvisit) hr
    have hcls := (colorRound_spills_sublist hr).nodup (by decide)
    rw [hspills] at hcan hcls
    have hv := SpillProgress.CanSpill.spillMany hcan hcls
    exact ⟨hv.notSpilled, hv.notTemp⟩
  · obtain ⟨registers, hfinish⟩ := hlast.eq_finish ha
    obtain ⟨_, hrounds, hspilled⟩ := SpillProgress.finish_eq_ok hfinish
    have := h.le_mentioned hvisit
    have := h.length_spilled
    omega

end Allocation

/-- The first argument of two is spilled if there is a single register. -/
theorem allocateVisiting_progress_firstOfTwo :
    allocate singleRegister firstOfTwo = .ok firstOfTwoSpilled ∧
      firstOfTwoSpilled.rounds ≤ 1 + (mentionedRegs (markUnusedParams firstOfTwo)).length ∧
      firstOfTwoSpilled.rounds - 1 ≤
        firstOfTwoSpilled.spilledInts + firstOfTwoSpilled.spilledFloats ∧
      firstOfTwoSpilled.spilledInts + firstOfTwoSpilled.spilledFloats ≤
        2 * (firstOfTwoSpilled.rounds - 1) := by
  have h := allocateVisiting_progress (fun _ => UseVisit.isOrder_byName) singleRegister firstOfTwo
  exact ⟨allocate_firstOfTwo, h.2.2.2 firstOfTwoSpilled allocate_firstOfTwo⟩

end ClosureCodegen
