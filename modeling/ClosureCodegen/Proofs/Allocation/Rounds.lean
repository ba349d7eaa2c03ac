import ClosureCodegen.Proofs.Allocation.Renaming
import ClosureCodegen.Proofs.Allocation.Spilling
import ClosureCodegen.Proofs.Coloring.Proper

/-!
# What a round of allocation finds

A round either finds registers for all variables, which keep apart whatever an instruction defines
and what is live behind it, or it asks for spills, at most one of each class.  What it asks for is a
variable of the body that was not barred.

Over the rounds a body consists of registers it had in the beginning and of temporaries, all of
which are barred, and the slots in use belong to barred variables.
-/

namespace ClosureCodegen
open List Instr InterferenceGraph FlowEquations

variable {code : Code} {v : Reg} {i : Instr} {visit : UseVisit} {result : RoundResult}

/-! ## Mentioned variables -/

/-- Visits of uses that leave none out and add none. -/
def UseVisit.IsOrder (visit : UseVisit) : Prop := ∀ cls i xs, (visit cls i xs).Perm xs

theorem UseVisit.isOrder_byName : UseVisit.byName.IsOrder := fun _ _ _ => .refl _

/-- A variable that some instruction defines or uses. -/
def Mentions (code : Code) (v : Reg) : Prop :=
  ∃ i ∈ code, v ∈ i.trackedDefs ∨ v ∈ i.trackedUses

theorem Mentions.isReserved (h : Mentions code v) : v.isReserved = false := by
  obtain ⟨i, _, hd | hu⟩ := h
  · exact (mem_trackedDefs.mp hd).2
  · exact (mem_trackedUses.mp hu).2

theorem Mentions.mem_regs (h : Mentions code v) : ∃ i ∈ code, v ∈ i.regs := by
  obtain ⟨i, hi, hd | hu⟩ := h
  · exact ⟨i, hi, defs_subset_regs (mem_trackedDefs.mp hd).1⟩
  · exact ⟨i, hi, uses_subset_regs (mem_trackedUses.mp hu).1⟩

namespace Liveness

variable {l : Liveness} {p : Nat} (h : ofCode code = .ok l)
include h

theorem size_ofCode : l.size = code.length := by
  obtain ⟨eqs, he, rfl⟩ := ofCode_eq_ok h
  exact size_ofCode he

theorem mem_defs (hi : code[p]? = some i) : v ∈ l.defs p ↔ v ∈ i.trackedDefs := by
  obtain ⟨eqs, he, rfl⟩ := ofCode_eq_ok h
  exact mem_defs_ofCode he hi

theorem mem_uses (hi : code[p]? = some i) : v ∈ l.uses p ↔ v ∈ i.trackedUses := by
  obtain ⟨eqs, he, rfl⟩ := ofCode_eq_ok h
  exact mem_uses_ofCode he hi

theorem mentions_of_mem_liveOut (hv : v ∈ l.liveOut p) : Mentions code v := by
  obtain ⟨eqs, he, rfl⟩ := ofCode_eq_ok h
  have hb := FlowEquations.mem_solve_iff.mp hv
  have hp : p < code.length := FlowEquations.size_ofCode he ▸ hb.lt_size
  have hi := getElem?_eq_getElem hp
  obtain ⟨t, rest', _, hf, hlive⟩ := LiveIn.of_liveBehind he hb hi
  obtain ⟨k, hk, hu⟩ := hlive.exists_use (hf.suffix (suffix_of_getElem? hi).1)
  exact ⟨k, hk, .inr hu⟩

theorem mentions_of_mem_mentions (hvisit : visit.IsOrder) {cls : RegClass} {x : String}
    (hx : x ∈ (l.mentions visit cls).toList) : Mentions code ⟨x, cls⟩ := by
  obtain ⟨p, hp, hx⟩ := mem_mentions.mp hx
  rw [size_ofCode h] at hp
  have hi := getElem?_eq_getElem hp
  rcases hx with hx | hx
  · rw [(hvisit _ _ _).mem_iff, LiveSet.mem_namesOf, mem_uses h hi] at hx
    exact ⟨_, getElem_mem hp, .inr hx⟩
  · rcases mem_clique.mp hx with hx | hx
    · exact mentions_of_mem_liveOut h hx
    · exact ⟨_, getElem_mem hp, .inl ((mem_defs h hi).mp hx)⟩

theorem mem_mentions_of_mentions (hvisit : visit.IsOrder) (hv : Mentions code v) :
    v.name ∈ (l.mentions visit v.cls).toList := by
  obtain ⟨i, hi, hv⟩ := hv
  obtain ⟨p, hp⟩ := mem_iff_getElem?.mp hi
  have hlt : p < l.size := size_ofCode h ▸ (List.getElem?_eq_some_iff.mp hp).1
  refine mem_mentions.mpr ⟨p, hlt, ?_⟩
  rcases hv with hd | hu
  · exact .inr (mem_clique.mpr (.inr ((mem_defs h hp).mpr hd)))
  · left
    rw [(hvisit _ _ _).mem_iff, LiveSet.mem_namesOf]
    exact (mem_uses h hp).mpr hu

end Liveness

/-! ## The result of a round -/

section Round

variable {order : AllocationOrder} {s : SpillState} {l : Liveness} {cls : RegClass}

theorem colorClass_eq_ok (h : colorClass visit order s l cls = .ok result) :
    (result.spills = [] ∧ ∃ registers, (ofLiveness visit l cls).color
        (order.ofClass cls) (s.barredNames cls) = .ok (.assigned registers) ∧
        result.registers = registers.map fun (x, p) => (⟨x, cls⟩, p)) ∨
    (result.registers = [] ∧ ∃ x, (ofLiveness visit l cls).color
        (order.ofClass cls) (s.barredNames cls) = .ok (.spill x) ∧ result.spills = [⟨x, cls⟩]) := by
  simp only [colorClass, Outcome.bind_eq_ok] at h
  obtain ⟨c, hc, h⟩ := h
  cases c with
  | assigned registers =>
    cases h
    exact .inl ⟨rfl, registers, hc, rfl⟩
  | spill x =>
    cases h
    exact .inr ⟨rfl, x, hc, rfl⟩

theorem colorRound_eq_ok (h : colorRound visit order s code = .ok result) :
    ∃ l ints floats, Liveness.ofCode code = .ok l ∧ colorClass visit order s l .int = .ok ints ∧
      colorClass visit order s l .float = .ok floats ∧
      result = ⟨ints.nodes + floats.nodes, ints.registers ++ floats.registers,
        ints.spills ++ floats.spills⟩ := by
  simp only [colorRound, Outcome.bind_eq_ok, Outcome.pure_eq_ok] at h
  obtain ⟨l, hl, ints, hi, floats, hf, rfl⟩ := h
  exact ⟨l, ints, floats, hl, hi, hf, rfl⟩

theorem mem_barredNames : v.name ∈ s.barredNames v.cls ↔ v ∈ s.barred := by
  rw [SpillState.barredNames, mem_map]
  constructor
  · rintro ⟨r, hr, hn⟩
    rw [mem_filter, decide_eq_true_eq] at hr
    obtain ⟨hr, hc⟩ := hr
    cases r
    cases v
    simp only at hn hc
    subst hn hc
    exact hr
  · intro hv
    exact ⟨v, mem_filter.mpr ⟨hv, decide_eq_true rfl⟩, rfl⟩

theorem colorRound_spills (hvisit : visit.IsOrder) (h : colorRound visit order s code = .ok result) :
    result.spills.Nodup ∧ ∀ v ∈ result.spills, Mentions code v ∧ v ∉ s.barred := by
  obtain ⟨l, ints, floats, hl, hi, hf, rfl⟩ := colorRound_eq_ok h
  have hclass : ∀ {cls : RegClass} {r : RoundResult}, colorClass visit order s l cls = .ok r →
      r.spills = [] ∨ ∃ v : Reg, r.spills = [v] ∧ v.cls = cls ∧ Mentions code v ∧ v ∉ s.barred := by
    intro cls r hr
    rcases colorClass_eq_ok hr with ⟨he, _⟩ | ⟨_, x, hx, he⟩
    · exact .inl he
    · obtain ⟨hmem, hnot⟩ := color_spill hx
      refine .inr ⟨⟨x, cls⟩, he, rfl, Liveness.mentions_of_mem_mentions hl hvisit hmem, ?_⟩
      exact fun hv => hnot (mem_barredNames.mpr hv)
  simp only
  rcases hclass hi with hi | ⟨v, hi, hv, hmv⟩ <;> rcases hclass hf with hf | ⟨w, hf, hw, hmw⟩
  · simp [hi, hf]
  · simp [hi, hf, hmw]
  · simp [hi, hf, hmv]
  · have hne : v ≠ w := by
      rintro rfl
      rw [hv] at hw
      cases hw
    simp [hi, hf, hne, hmv, hmw]

theorem exists_color_of_spills_eq_nil (h : colorRound visit order s code = .ok result)
    (hspills : result.spills = []) :
    ∃ l, Liveness.ofCode code = .ok l ∧ ∀ cls, ∃ registers,
      (InterferenceGraph.ofLiveness visit l cls).color (order.ofClass cls) (s.barredNames cls) =
        .ok (.assigned registers) ∧
      ∀ q p, q.cls = cls → ((q, p) ∈ result.registers ↔ (q.name, p) ∈ registers) := by
  obtain ⟨l, ints, floats, hl, hi, hf, rfl⟩ := colorRound_eq_ok h
  obtain ⟨hsi, hsf⟩ := append_eq_nil_iff.mp hspills
  have hclass : ∀ {cls : RegClass} {r : RoundResult}, colorClass visit order s l cls = .ok r →
      r.spills = [] → ∃ registers, (InterferenceGraph.ofLiveness visit l cls).color
        (order.ofClass cls) (s.barredNames cls) = .ok (.assigned registers) ∧
        ∀ q p, (q, p) ∈ r.registers ↔ q.cls = cls ∧ (q.name, p) ∈ registers := by
    intro cls r hr he
    rcases colorClass_eq_ok hr with ⟨_, registers, hc, hregs⟩ | ⟨_, x, _, hx⟩
    · refine ⟨registers, hc, fun q p => ?_⟩
      rw [hregs, mem_map]
      constructor
      · rintro ⟨⟨x, p'⟩, hmem, heq⟩
        cases heq
        exact ⟨rfl, hmem⟩
      · rintro ⟨hcls, hmem⟩
        refine ⟨(q.name, p), hmem, ?_⟩
        cases q
        simp only at hcls
        rw [hcls]
    · rw [he] at hx
      cases hx
  obtain ⟨iregs, hci, hmi⟩ := hclass hi hsi
  obtain ⟨fregs, hcf, hmf⟩ := hclass hf hsf
  refine ⟨l, hl, fun cls => ?_⟩
  cases cls with
  | int =>
    refine ⟨iregs, hci, fun q p hq => ?_⟩
    rw [mem_append, hmi, hmf, hq]
    simp
  | float =>
    refine ⟨fregs, hcf, fun q p hq => ?_⟩
    rw [mem_append, hmi, hmf, hq]
    simp

theorem mem_of_lookup {α β : Type} [BEq α] [LawfulBEq α] {table : List (α × β)} {q : α} {p : β}
    (h : table.lookup q = some p) : (q, p) ∈ table := by
  obtain ⟨before, after, heq, _⟩ := lookup_eq_some_iff.mp h
  rw [heq]
  exact mem_append_right _ mem_cons_self

theorem properAssignment_colorRound (horder : ∀ cls, ∀ p ∈ order.ofClass cls, p ∉ PhysReg.reserved)
    (h : colorRound visit order s code = .ok result) (hspills : result.spills = []) :
    ProperAssignment code result.registers := by
  obtain ⟨l, hl, hcolor⟩ := exists_color_of_spills_eq_nil h hspills
  have hlookup : ∀ {q : Reg} {p : PhysReg}, result.registers.lookup q = some p →
      ∃ registers, (InterferenceGraph.ofLiveness visit l q.cls).color (order.ofClass q.cls)
        (s.barredNames q.cls) = .ok (.assigned registers) ∧ (q.name, p) ∈ registers := by
    intro q p hq
    obtain ⟨registers, hc, hmem⟩ := hcolor q.cls
    exact ⟨registers, hc, (hmem q p rfl).mp (mem_of_lookup hq)⟩
  constructor
  · intro r p hr
    obtain ⟨registers, hc, hmem⟩ := hlookup hr
    have hp := horder _ p (InterferenceGraph.mem_order_of_color hc hmem)
    exact Bool.eq_false_iff.mpr fun hres => hp (PhysReg.isReservedName_name.mp hres)
  · intro i rest d v p q hs hd hne hcls hlive hp hq
    have hplace := getElem?_placeOf hs
    have hlabel : i.isLabel = false := by
      refine Bool.eq_false_iff.mpr fun hl => ?_
      have hop : i.op = .label := of_decide_eq_true hl
      rw [Instr.trackedDefs, Instr.defs, hop] at hd
      exact absurd hd not_mem_nil
    obtain ⟨registers, hc, hpd⟩ := hlookup hp
    obtain ⟨registers', hc', hqv⟩ := hlookup hq
    rw [hcls] at hc'
    cases hc.symm.trans hc'
    have hdef : d.name ∈ l.clique d.cls (placeOf code (i :: rest)) :=
      Liveness.mem_clique.mpr (.inr ((Liveness.mem_defs hl hplace).mpr hd))
    have hv : v.name ∈ l.clique d.cls (placeOf code (i :: rest)) := by
      rw [Liveness.mem_clique, ← hcls]
      rcases hlive with hdv | hway
      · exact .inr ((Liveness.mem_defs hl hplace).mpr hdv)
      · exact .inl ((Liveness.mem_liveOut_iff hl hs hlabel).mpr hway)
    have hlt : placeOf code (i :: rest) < l.size :=
      Liveness.size_ofCode hl ▸ (List.getElem?_eq_some_iff.mp hplace).1
    refine InterferenceGraph.color_proper hc hlt hdef hv (fun hn => hne ?_) hpd hqv
    cases v
    cases d
    simp only at hn hcls
    rw [hn, hcls]

end Round

/-! ## Registers and slots over the rounds -/

/-- The registers of a body that is to be allocated: none is named like a temporary, and none has
the name of another. -/
structure Home (home : Reg → Prop) : Prop where
  noReload : ∀ {r}, home r → ∀ n cls, r ≠ reloadTemp n cls
  oneClass : ∀ {q r}, home q → home r → q.name = r.name → q = r

/-- An instruction after some spills: its registers are old ones or barred temporaries, and its slot
belongs to a barred variable. -/
structure Accounted (home : Reg → Prop) (s : SpillState) (i : Instr) : Prop where
  idle : i.idleLanesZero = true
  regs : ∀ r ∈ i.regs, home r ∨ (r ∈ s.barred ∧ ∃ n ≤ s.reloads, ∃ cls, r = reloadTemp n cls)
  slot : ∀ x, i.slot? = some x → ∃ r ∈ s.barred, home r ∧ r.name = x

/-- More temporaries, all of them barred, and nothing else. -/
structure SpillState.Grows (s s' : SpillState) : Prop where
  reloads : s.reloads ≤ s'.reloads
  barred : ∀ r ∈ s.barred, r ∈ s'.barred
  temps : ∀ r ∈ s'.barred, r ∈ s.barred ∨ ∃ n cls, r = reloadTemp n cls

namespace SpillState.Grows

theorem refl (s : SpillState) : s.Grows s := ⟨Nat.le_refl _, fun _ h => h, fun _ h => .inl h⟩

theorem trans {s₁ s₂ s₃ : SpillState} (h₁ : s₁.Grows s₂) (h₂ : s₂.Grows s₃) : s₁.Grows s₃ where
  reloads := Nat.le_trans h₁.reloads h₂.reloads
  barred r hr := h₂.barred r (h₁.barred r hr)
  temps r hr := (h₂.temps r hr).elim (h₁.temps r) .inr

end SpillState.Grows

section Accounting

variable {home : Reg → Prop} {s s' : SpillState} {var : Reg}

theorem Accounted.mono (h : s.Grows s') (hi : Accounted home s i) : Accounted home s' i where
  idle := hi.idle
  regs r hr := (hi.regs r hr).imp_right fun ⟨hb, n, hn, hc⟩ =>
    ⟨h.barred r hb, n, Nat.le_trans hn h.reloads, hc⟩
  slot x hx :=
    let ⟨r, hb, hr⟩ := hi.slot x hx
    ⟨r, h.barred r hb, hr⟩

theorem Accounted.bar (h : Accounted home s i) (v : Reg) :
    Accounted home { s with barred := v :: s.barred } i where
  idle := h.idle
  regs r hr := (h.regs r hr).imp_right fun ⟨hb, hn⟩ => ⟨mem_cons_of_mem _ hb, hn⟩
  slot x hx :=
    let ⟨r, hb, hr⟩ := h.slot x hx
    ⟨r, mem_cons_of_mem _ hb, hr⟩

theorem grows_spillInstr (var : Reg) (s : SpillState) (i : Instr) :
    s.Grows (spillInstr var s i).2 := by
  unfold spillInstr
  by_cases h : var ∈ i.uses
  · simp only [h, if_true]
    refine ⟨Nat.le_succ _, fun r hr => mem_cons_of_mem _ hr, fun r hr => ?_⟩
    exact (mem_cons.mp hr).elim (fun he => .inr ⟨_, _, he⟩) .inl
  · simp only [h, if_false]
    exact .refl s

theorem accounted_spillInstr (hv : home var) (hb : var ∈ s.barred) (hi : Accounted home s i) :
    ∀ k ∈ (spillInstr var s i).1, Accounted home (spillInstr var s i).2 k := by
  have hgrow := grows_spillInstr var s i
  have hi' := hi.mono hgrow
  -- the store behind a definition
  have hstore : ∀ k ∈ if var ∈ i.trackedDefs then
      [(⟨.spillStore, [.reg var, .label var.name]⟩ : Instr)] else [],
      Accounted home (spillInstr var s i).2 k := by
    intro k hk
    split at hk
    · rw [mem_singleton] at hk
      subst hk
      refine ⟨rfl, fun r hr => ?_, fun x hx => ?_⟩
      · rw [show r = var from mem_singleton.mp hr]
        exact .inl hv
      · cases hx
        exact ⟨var, hgrow.barred var hb, hv, rfl⟩
    · exact absurd hk not_mem_nil
  by_cases h : var ∈ i.uses
  · have heq : spillInstr var s i = (_, _) := if_pos h
    rw [heq] at hi' hstore ⊢
    intro k hk
    rcases mem_cons.mp hk with rfl | hk
    · refine ⟨rfl, fun r hr => ?_, fun x hx => ?_⟩
      · rw [show r = _ from mem_singleton.mp hr]
        exact .inr ⟨mem_cons_self, _, Nat.le_refl _, _, rfl⟩
      · cases hx
        exact ⟨var, mem_cons_of_mem _ hb, hv, rfl⟩
    · rcases mem_cons.mp hk with rfl | hk
      · refine ⟨idleLanesZero_mapUses _ hi.idle, fun r hr => ?_, fun x hx => hi'.slot x ?_⟩
        · rcases mem_regs_mapUses hr with hr | ⟨q, hq, rfl⟩
          · exact hi'.regs r hr
          · split
            · exact .inr ⟨mem_cons_self, _, Nat.le_refl _, _, rfl⟩
            · exact hi'.regs q hq
        · rw [← hx, slot?_mapUses]
      · exact hstore k hk
  · have heq : spillInstr var s i = (_, _) := if_neg h
    rw [heq] at hi' hstore ⊢
    intro k hk
    rcases mem_cons.mp hk with rfl | hk
    · exact hi'
    · exact hstore k hk

theorem spillCode_accounted (hv : home var) (hb : var ∈ s.barred)
    (h : ∀ i ∈ code, Accounted home s i) :
    s.Grows (spillCode var s code).2 ∧
      ∀ i ∈ (spillCode var s code).1, Accounted home (spillCode var s code).2 i := by
  induction code generalizing s with
  | nil => exact ⟨.refl s, h⟩
  | cons i code ih =>
    have hgrow := grows_spillInstr var s i
    have hhead := accounted_spillInstr hv hb (h i mem_cons_self)
    obtain ⟨hgrow', htail⟩ := ih (hgrow.barred var hb) fun k hk =>
      (h k (mem_cons_of_mem _ hk)).mono hgrow
    refine ⟨hgrow.trans hgrow', fun k hk => ?_⟩
    rcases mem_append.mp hk with hk | hk
    · exact (hhead k hk).mono hgrow'
    · exact htail k hk

theorem spillable_of_accounted (hhome : Home home) (h : ∀ i ∈ code, Accounted home s i)
    (hv : home var) (htr : var.isReserved = false) (hb : var ∉ s.barred) :
    Spillable code s.reloads var where
  idle i hi := (h i hi).idle
  tracked := htr
  fresh := by
    rintro i hi r hr k hk rfl
    rcases (h i hi).regs _ hr with hr | ⟨_, n, hn, cls, he⟩
    · exact hhome.noReload hr k var.cls rfl
    · have := reloadTemp_injective he
      omega
  unused := by
    intro i hi hx
    obtain ⟨r, hr, hhr, hn⟩ := (h i hi).slot _ hx
    exact hb (hhome.oneClass hhr hv hn ▸ hr)

end Accounting

end ClosureCodegen
