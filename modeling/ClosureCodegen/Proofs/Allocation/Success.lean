import ClosureCodegen.Proofs.Allocation.SpillShape
import ClosureCodegen.Proofs.Coloring.Simplification

/-!
# When allocation succeeds

An allocated body is the marked one after some spills, without its dead definitions, and with each
variable replaced by a register of the order of its class.  So whatever holds of the marked body and
is kept by a spill holds of the body that is renamed in the end.

Allocation succeeds as soon as every instruction on its own can be given registers for what it
reads, and for one definition.  In the worst case all variables are spilled, and then the blocks of
`SpillShape` bound what is needed at once: the temporaries of one block are no more than the
variables that its instruction reads, and a spilled variable meets no other of its class.  So barred
variables always have few enough barred neighbours, and colouring never fails.

* `exists_rounds_of_allocateVisiting`: the result in terms of these steps.
* `Allocatable`: what is asked of a body.
* `exists_colorRound_eq_ok`: no round fails.
* `exists_allocateVisiting_eq_ok`: allocation succeeds, with registers of the order.
-/

namespace ClosureCodegen
open List

/-! ## What allocation returns -/

section Result

variable {visit : Nat → UseVisit} {order : AllocationOrder} {code : Code} {a : Allocation}
  (hvisit : ∀ n, (visit n).IsOrder)
include hvisit

variable (ha : allocateVisiting visit order code = .ok a)
include ha

/-- An allocated body is what the last round finds, with its dead definitions deleted and its variables
replaced by registers of the orders. -/
theorem exists_rounds_of_allocateVisiting :
    ∃ n st registers,
      SpillRounds visit order code n st ∧
      a.code = (removeDeadDefinitions st.code).map (Instr.mapRegs (assignedReg registers)) ∧
      ∀ i ∈ removeDeadDefinitions st.code, ∀ r ∈ i.regs, r.isReserved = false →
        ∃ p ∈ order.ofClass r.cls, registers.lookup r = some p := by
  obtain ⟨n, st, hrounds, hlast⟩ := exists_lastRound_allocateVisiting hvisit order code
  generalize allocateVisiting visit order code = x at hlast ha
  cases hlast with
  | failed _ => cases ha
  | @colored result hround hspills =>
    obtain ⟨hcode, hassigned⟩ := mapM_renameInstr_eq_ok (SpillProgress.finish_eq_ok ha).1
    refine ⟨n, st, result.registers, hrounds, hcode, ?_⟩
    intro i hi r hr hres
    obtain ⟨p, hp⟩ := hassigned i hi r hr hres
    obtain ⟨l, _, hregs⟩ := exists_color_of_spills_eq_nil hround hspills
    obtain ⟨registers, hcolor, hmem⟩ := hregs r.cls
    exact ⟨p, InterferenceGraph.mem_order_of_color hcolor ((hmem r p rfl).mp (mem_of_lookup hp)), hp⟩

/-- Whatever holds of the marked body and is kept by a spill holds of the body that is renamed. -/
theorem exists_renamed_of_allocateVisiting {P : Code → Prop} (hstart : P (markUnusedParams code))
    (hspill : ∀ {var s c}, var.isReserved = false → P c → P (spillCode var s c).1) :
    ∃ left registers, P left ∧
      a.code = (removeDeadDefinitions left).map (Instr.mapRegs (assignedReg registers)) ∧
      ∀ i ∈ removeDeadDefinitions left, ∀ r ∈ i.regs, r.isReserved = false →
        ∃ p ∈ order.ofClass r.cls, registers.lookup r = some p := by
  obtain ⟨n, st, registers, hrounds, hcode, hregs⟩ := exists_rounds_of_allocateVisiting hvisit ha
  have hleft : P st.code := hrounds.invariant (P := fun st => P st.code) hvisit hstart
    fun _ hv h => hspill hv.mentioned.isReserved h
  exact ⟨st.code, registers, hleft, hcode, hregs⟩

/-- A register of an allocated body has a fixed role or belongs to the order of its class. -/
theorem mem_order_of_allocateVisiting :
    ∀ i ∈ a.code, ∀ r ∈ i.regs,
      r.isReserved = true ∨ ∃ p ∈ order.ofClass r.cls, r.name = p.name := by
  obtain ⟨left, registers, _, hcode, hregs⟩ :=
    exists_renamed_of_allocateVisiting (P := fun _ => True) hvisit ha trivial fun _ h => h
  intro i hi r hr
  rw [hcode] at hi
  obtain ⟨k, hk, rfl⟩ := mem_map.mp hi
  rw [Instr.regs_mapRegs, mem_map] at hr
  obtain ⟨q, hq, rfl⟩ := hr
  cases hres : q.isReserved with
  | true =>
    rw [ProperAssignment.assignedReg_of_isReserved hres]
    exact .inl hres
  | false =>
    obtain ⟨p, hp, hlook⟩ := hregs k hk q hq hres
    rw [ProperAssignment.assignedReg_of_lookup hres hlook]
    exact .inr ⟨p, hp, rfl⟩

end Result

/-! ## Bodies with registers enough -/

variable {r v : Reg} {k i : Instr}

/-- A body for which there are registers enough, one instruction at a time. -/
structure Allocatable (order : AllocationOrder) (code : Code) : Prop where
  /-- Every branch has a label of the body. -/
  resolves : ∀ i ∈ code, i.op.isBranch = true →
    ∃ l, i.label? = some l ∧ ∃ k ∈ code, k.isLabel = true ∧ k.label? = some l
  /-- No register is named like a temporary. -/
  noReload : ∀ i ∈ code, ∀ r ∈ i.regs, ¬"%reload.".toList <+: r.name.toList
  /-- An instruction without effect has no registers. -/
  quiet : ∀ i ∈ code, i.op.effect = .none → i.regs = []
  /-- An instruction defines at most one variable of each class. -/
  oneDef : ∀ i ∈ code, ∀ q ∈ i.trackedDefs, ∀ r ∈ i.trackedDefs, q.cls = r.cls → q = r
  nodup : ∀ cls, (order.ofClass cls).Nodup
  nonempty : ∀ v, Mentions code v → order.ofClass v.cls ≠ []
  /-- There are registers for all variables of a class that one instruction reads. -/
  fits : ∀ i ∈ code, ∀ cls,
    (i.trackedUses.filter (·.cls = cls)).dedup.length ≤ (order.ofClass cls).length

theorem Reg.IsReload.name_prefix (h : r.IsReload) : "%reload.".toList <+: r.name.toList := by
  obtain ⟨n, cls, rfl⟩ := h
  rw [reloadTemp, String.toList_append]
  exact prefix_append _ _

namespace Allocatable

variable {order : AllocationOrder} {code : Code}

theorem mark (h : Allocatable order code) : Allocatable order (markUnusedParams code) := by
  -- a marker reads what a parameter defines
  have hmarker : ∀ {k : Instr} {r : Reg}, k ∈ code → k.isParam = true → r ∈ k.regs →
      ∀ v ∈ (⟨.unusedParam, [.reg r]⟩ : Instr).trackedUses, v = r ∧ Mentions code v := by
    intro k r hk hp hr v hv
    obtain ⟨hv, hres⟩ := Instr.mem_trackedUses.mp hv
    obtain rfl : v = r := mem_singleton.mp hv
    refine ⟨rfl, k, hk, .inl (Instr.mem_trackedDefs.mpr ⟨?_, hres⟩)⟩
    have hop : k.op = .param := of_decide_eq_true hp
    rw [Instr.defs, hop]
    exact hr
  have hmentions : ∀ v, Mentions (markUnusedParams code) v → Mentions code v := by
    rintro v ⟨i, hi, hv⟩
    rcases mem_markUnusedParams hi with hi | ⟨k, hk, r, hp, hr, rfl⟩
    · exact ⟨i, hi, hv⟩
    · rcases hv with hv | hv
      · cases hv
      · exact (hmarker hk hp hr v hv).2
  refine ⟨fun i hi hb => ?_, fun i hi r hr => ?_, fun i hi he => ?_, fun i hi q hq r hr hc => ?_,
    h.nodup, fun v hv => h.nonempty v (hmentions v hv), fun i hi cls => ?_⟩ <;>
    rcases mem_markUnusedParams hi with hi | ⟨k, hk, x, hp, hx, rfl⟩
  · obtain ⟨l, hl, k, hk, hkl⟩ := h.resolves i hi hb
    exact ⟨l, hl, k, mem_markUnusedParams_of_mem hk, hkl⟩
  · cases hb
  · exact h.noReload i hi r hr
  · rw [show r = x from mem_singleton.mp hr]
    exact h.noReload k hk x hx
  · exact h.quiet i hi he
  · cases he
  · exact h.oneDef i hi q hq r hr hc
  · cases hq
  · exact h.fits i hi cls
  · by_cases hne : ∃ v ∈ (⟨.unusedParam, [.reg x]⟩ : Instr).trackedUses, v.cls = cls
    · obtain ⟨v, hv, rfl⟩ := hne
      have hone : ((⟨.unusedParam, [.reg x]⟩ : Instr).trackedUses.filter
          (·.cls = v.cls)).dedup ⊆ [x] := by
        intro q hq
        rw [mem_dedup] at hq
        exact mem_singleton.mpr (hmarker hk hp hx q (mem_of_mem_filter hq)).1
      have hpos := length_pos_iff.mpr (h.nonempty v (hmarker hk hp hx v hv).2)
      exact Nat.le_trans (subperm_of_subset (nodup_dedup _) hone).length_le hpos
    · have hnil : (⟨.unusedParam, [.reg x]⟩ : Instr).trackedUses.filter (·.cls = cls) = [] :=
        filter_eq_nil_iff.mpr fun v hv hc => hne ⟨v, hv, of_decide_eq_true hc⟩
      rw [hnil]
      exact Nat.zero_le _

theorem not_isReload (h : Allocatable order code) (hv : Mentions code v) : ¬v.IsReload := by
  obtain ⟨i, hi, hr⟩ := hv.mem_regs
  exact fun ht => h.noReload i hi v hr ht.name_prefix

end Allocatable

/-! ## Liveness -/

theorem Liveness.exists_ofCode_eq_ok {code : Code}
    (h : ∀ i ∈ code, i.op.isBranch = true →
      ∃ l, i.label? = some l ∧ ∃ k ∈ code, k.isLabel = true ∧ k.label? = some l) :
    ∃ l, ofCode code = .ok l := by
  refine exists_ofCode_iff.mpr fun i hi hb => ?_
  obtain ⟨l, hl, k, hk, hkl, hkn⟩ := h i hi hb
  exact ⟨l, hl, mem_filterMap.mpr ⟨k, hk, by rw [if_pos hkl, hkn]⟩⟩

/-! ## Rounds -/

section Rounds

variable {visit : Nat → UseVisit} {order : AllocationOrder} {code marked : Code} {n : Nat}
  {st : SpillProgress} {blocks : List SpilledInstr}

theorem SpillRounds.exists_blocks (hvisit : ∀ n, (visit n).IsOrder)
    (hcode : Allocatable order (markUnusedParams code)) (h : SpillRounds visit order code n st) :
    ∃ blocks, st.Blocks (markUnusedParams code) blocks := by
  refine h.invariant (P := fun st => ∃ blocks, st.Blocks (markUnusedParams code) blocks) hvisit ?_ ?_
  · exact ⟨_, .start (fun i hi r hr ht => hcode.noReload i hi r hr ht.name_prefix) hcode.quiet⟩
  · rintro st v hs hv ⟨blocks, hb⟩
    have hold : Mentions (markUnusedParams code) v :=
      (hs.mentions v hv.mentioned).resolve_right hv.notTemp
    exact ⟨_, hb.spillOne hv.notSpilled (hcode.not_isReload hold) hold.isReserved⟩

theorem SpillProgress.Blocks.resolves (hmarked : Allocatable order marked)
    (h : st.Blocks marked blocks) : ∀ i ∈ st.code, i.op.isBranch = true →
      ∃ l, i.label? = some l ∧ ∃ k ∈ st.code, k.isLabel = true ∧ k.label? = some l := by
  intro i hi hb
  rw [h.code, mem_flatMap] at hi
  obtain ⟨b, hmem, hi⟩ := hi
  have hinstr : i = b.instr := by
    rw [SpilledInstr.code, mem_append, mem_cons] at hi
    rcases hi with hi | hi | hi
    · obtain ⟨p, _, rfl⟩ := mem_map.mp hi
      cases hb
    · exact hi
    · obtain ⟨u, _, rfl⟩ := mem_map.mp hi
      cases hb
  have horigin : ∀ c ∈ blocks, c.origin ∈ marked := fun c hc =>
    h.origins ▸ mem_map_of_mem hc
  rw [hinstr, (h.sound b hmem).op] at hb
  obtain ⟨l, hl, k, hk, hkl, hkn⟩ := hmarked.resolves b.origin (horigin b hmem) hb
  rw [← h.origins, mem_map] at hk
  obtain ⟨c, hc, rfl⟩ := hk
  refine ⟨l, by rw [hinstr, (h.sound b hmem).label, hl], c.instr, ?_, ?_, ?_⟩
  · rw [h.code]
    refine mem_flatMap.mpr ⟨c, hc, ?_⟩
    exact mem_append_right _ mem_cons_self
  · rw [Instr.isLabel, (h.sound c hc).op]
    exact hkl
  · rw [(h.sound c hc).label, hkn]

/-- The temporaries of a class in one block are no more than the variables of the class that the
instruction reads. -/
theorem SpilledInstr.Sound.length_temps_le {spilled : List Reg} {b : SpilledInstr}
    (h : b.Sound spilled) (cls : RegClass) : (b.temps.filter (·.cls = cls)).length ≤
      (b.origin.trackedUses.filter (·.cls = cls)).dedup.length := by
  have hcount : (b.temps.filter (·.cls = cls)).length =
      ((b.reloads.map Prod.snd).filter (·.cls = cls)).length := by
    rw [temps, filter_map, filter_map, length_map, length_map]
    congr 1
    refine filter_congr fun p hp => ?_
    simp only [Function.comp_apply, (h.reloads p hp).2.1]
  rw [hcount]
  refine (subperm_of_subset (h.nodup.filter _) fun v hv => ?_).length_le
  obtain ⟨hv, hc⟩ := mem_filter.mp hv
  obtain ⟨p, hp, rfl⟩ := mem_map.mp hv
  exact mem_dedup.mpr (mem_filter.mpr ⟨(h.reloads p hp).2.2.1, hc⟩)

/-- A barred variable meets fewer barred variables of its class than there are registers. -/
theorem exists_few_barred (hmarked : Allocatable order marked) (hs : st.Sound marked)
    (h : st.Blocks marked blocks) {l : Liveness} (hl : Liveness.ofCode st.code = .ok l)
    (hv : v ∈ st.state.barred) :
    ∃ ys : List String, ys.length < (order.ofClass v.cls).length ∧
      ∀ w ∈ st.state.barred, w.cls = v.cls → w ≠ v → ∀ p < l.size, v.name ∈ l.clique v.cls p →
        w.name ∈ l.clique w.cls p → w.name ∈ ys := by
  have hpinned : ∀ w ∈ st.state.barred, Pinned st.spilled w := fun w hw =>
    ((hs.barred w).mp hw).imp_right fun ht => (h.known w ht).1
  have hpos : ∀ w ∈ st.spilled, 0 < (order.ofClass w.cls).length := fun w hw =>
    length_pos_iff.mpr (hmarked.nonempty w (hs.old w hw))
  have horigin : ∀ b ∈ blocks, b.origin ∈ marked := fun b hb => h.origins ▸ mem_map_of_mem hb
  rw [h.code] at hl
  -- who meets whom at one place
  have hmeet := fun {p : Nat} (hp : p < l.size) => exists_block_of_clique h.sound hl hp
  by_cases hreload : v.IsReload
  · have hhome : ∀ b ∈ blocks, v ∉ b.origin.trackedDefs := fun b hb hd =>
      (h.sound b hb).home v (Instr.defs_subset_regs (Instr.mem_trackedDefs.mp hd).1) hreload
    have hcls : 0 < (order.ofClass v.cls).length := by
      rcases (hs.barred v).mp hv with hsp | ht
      · exact hpos v hsp
      · obtain ⟨_, w, hw, hc⟩ := h.known v ht
        exact hc ▸ hpos w hw
    by_cases hblock : ∃ b ∈ blocks, v ∈ b.temps
    · -- a temporary meets the other temporaries of its block
      obtain ⟨b, hb, hvb⟩ := hblock
      have hmem : v.name ∈ (b.temps.filter (·.cls = v.cls)).map Reg.name :=
        mem_map_of_mem (mem_filter.mpr ⟨hvb, decide_eq_true rfl⟩)
      refine ⟨((b.temps.filter (·.cls = v.cls)).map Reg.name).erase v.name, ?_, ?_⟩
      · have hle := Nat.le_trans ((h.sound b hb).length_temps_le v.cls)
          (hmarked.fits b.origin (horigin b hb) v.cls)
        have hlt := length_pos_of_mem hmem
        rw [length_erase_of_mem hmem]
        rw [length_map] at hlt ⊢
        omega
      · intro w hw hwc hne p hp hvp hwp
        obtain ⟨c, hc, hall | hall⟩ := hmeet hp
        · have hvc := hall v (hpinned v hv) hvp
          obtain rfl : c = b := by
            by_contra hcb
            have : Std.Symm fun a b : SpilledInstr => ∀ t ∈ a.temps, t ∉ b.temps :=
              ⟨fun a b hab t htb hta => hab t hta htb⟩
            exact h.disjoint.forall hc hb hcb v hvc hvb
          have hwb := hall w (hpinned w hw) hwp
          have hname : w.name ≠ v.name := fun he => hne (by
            cases w
            cases v
            simp only at he hwc
            rw [he, hwc])
          rw [mem_erase_of_ne hname]
          exact mem_map_of_mem (mem_filter.mpr ⟨hwb, decide_eq_true hwc⟩)
        · exact absurd (hall v (hpinned v hv) hvp) (hhome c hc)
    · refine ⟨[], hcls, fun w hw hwc hne p hp hvp hwp => ?_⟩
      obtain ⟨c, hc, hall | hall⟩ := hmeet hp
      · exact absurd ⟨c, hc, hall v (hpinned v hv) hvp⟩ hblock
      · exact absurd (hall v (hpinned v hv) hvp) (hhome c hc)
  · -- a spilled variable meets only what its instruction defines
    have hsp : v ∈ st.spilled := (hpinned v hv).resolve_right hreload
    refine ⟨[], hpos v hsp, fun w hw hwc hne p hp hvp hwp => ?_⟩
    obtain ⟨c, hc, hall | hall⟩ := hmeet hp
    · exact absurd (hall v (hpinned v hv) hvp) ((h.sound c hc).not_mem_temps hreload)
    · exact absurd (hmarked.oneDef c.origin (horigin c hc) w (hall w (hpinned w hw) hwp) v
        (hall v (hpinned v hv) hvp) hwc) hne

theorem exists_colorRound_eq_ok (hvisit : ∀ n, (visit n).IsOrder)
    (hmarked : Allocatable order marked) (hs : st.Sound marked) (h : st.Blocks marked blocks)
    (n : Nat) : ∃ result, colorRound (visit n) order st.state st.code = .ok result ∧
      (result.spills = [] → ∀ v, Mentions st.code v →
        ∃ p, result.registers.lookup v = some p) := by
  obtain ⟨l, hl⟩ := Liveness.exists_ofCode_eq_ok (h.resolves hmarked)
  have hcolor : ∀ cls, ∃ c, (InterferenceGraph.ofLiveness (visit n) l cls).color
      (order.ofClass cls) (st.state.barredNames cls) = .ok c ∧ ∀ registers,
        c = .assigned registers → ∀ x ∈ (l.mentions (visit n) cls).toList,
          ∃ p, (x, p) ∈ registers := by
    refine fun cls => InterferenceGraph.exists_color_eq_ok (hmarked.nodup cls) fun x hx _ => ?_
    obtain ⟨ys, hlen, hys⟩ := exists_few_barred hmarked hs h hl (v := ⟨x, cls⟩)
      (mem_barredNames.mp hx)
    refine ⟨ys, hlen, fun y hy hne p hp hxp hyp => ?_⟩
    exact hys ⟨y, cls⟩ (mem_barredNames.mp hy) rfl (fun he => hne (congrArg Reg.name he)) p hp hxp
      hyp
  have hclass : ∀ cls, ∃ r, colorClass (visit n) order st.state l cls = .ok r := by
    intro cls
    obtain ⟨c, hc, _⟩ := hcolor cls
    cases c with
    | assigned registers => exact ⟨_, by rw [colorClass, hc]; rfl⟩
    | spill x => exact ⟨_, by rw [colorClass, hc]; rfl⟩
  obtain ⟨ints, hi⟩ := hclass .int
  obtain ⟨floats, hf⟩ := hclass .float
  have hround : colorRound (visit n) order st.state st.code =
      .ok ⟨ints.nodes + floats.nodes, ints.registers ++ floats.registers,
        ints.spills ++ floats.spills⟩ := by
    rw [colorRound, hl]
    simp only [Outcome.bind_eq_ok]
    exact ⟨l, rfl, ints, hi, floats, hf, rfl⟩
  refine ⟨_, hround, fun hspills v hv => ?_⟩
  obtain ⟨l', hl', hregs⟩ := exists_color_of_spills_eq_nil hround hspills
  cases hl.symm.trans hl'
  obtain ⟨registers, hc, hmem⟩ := hregs v.cls
  obtain ⟨c, hc', htotal⟩ := hcolor v.cls
  cases hc.symm.trans hc'
  obtain ⟨p, hp⟩ := htotal registers rfl v.name (Liveness.mem_mentions_of_mentions hl (hvisit n) hv)
  cases hlook : (ints.registers ++ floats.registers).lookup v with
  | none =>
    have := lookup_eq_none_iff.mp hlook (v, p) ((hmem v p rfl).mpr hp)
    simp at this
  | some q => exact ⟨q, rfl⟩

end Rounds

/-! ## The result -/

theorem exists_regs_subset_of_mem_removeDeadDefinitions {code : Code}
    (h : k ∈ removeDeadDefinitions code) : ∃ i ∈ code, k.regs ⊆ i.regs := by
  obtain ⟨K, hexp, hused⟩ := exists_expands_removeDeadDefinitions code
  clear hused
  generalize removeDeadDefinitions code = left at h hexp
  induction hexp with
  | nil => cases h
  | @cons i block code code' hi _ ih =>
    rcases mem_append.mp h with h | h
    · refine ⟨i, mem_cons_self, ?_⟩
      cases hi with
      | keep _ => rw [mem_singleton.mp h]; exact List.Subset.refl _
      | delete _ _ _ => cases h
      | drop _ _ _ _ =>
        rw [mem_singleton.mp h]
        exact ((drop_sublist 1 i.operands).filterMap _).subset
    · obtain ⟨j, hj, hsub⟩ := ih h
      exact ⟨j, mem_cons_of_mem i hj, hsub⟩

theorem Instr.mem_defs_or_uses (he : i.op.effect ≠ .none) (hr : r ∈ i.regs) :
    r ∈ i.defs ∨ r ∈ i.uses := by
  have hsplit : r ∈ i.regs.take 1 ∨ r ∈ i.regs.drop 1 := by
    rw [← mem_append, take_append_drop]
    exact hr
  rw [defs, uses]
  cases heff : i.op.effect with
  | defineFirst => exact hsplit
  | defineAll => exact .inl hr
  | useAll => exact .inr hr
  | vectorLoad => exact hsplit.symm
  | indirectJump =>
    simp only
    split
    · exact hsplit
    · exact .inr hr
  | none => exact absurd heff he

theorem SpillProgress.Blocks.mentions {marked : Code} {st : SpillProgress}
    {blocks : List SpilledInstr} (h : st.Blocks marked blocks) (hi : i ∈ st.code) (hr : r ∈ i.regs)
    (hres : r.isReserved = false) : Mentions st.code r := by
  have heffect : i.op.effect ≠ .none := by
    intro he
    rw [h.code, mem_flatMap] at hi
    obtain ⟨b, hb, hi⟩ := hi
    rw [SpilledInstr.code, mem_append, mem_cons] at hi
    rcases hi with hi | rfl | hi
    · obtain ⟨p, _, rfl⟩ := mem_map.mp hi
      cases he
    · rw [(h.sound b hb).quiet he] at hr
      cases hr
    · obtain ⟨u, _, rfl⟩ := mem_map.mp hi
      cases he
  refine ⟨i, hi, (Instr.mem_defs_or_uses heffect hr).imp (fun hd => ?_) fun hu => ?_⟩
  · exact Instr.mem_trackedDefs.mpr ⟨hd, hres⟩
  · exact Instr.mem_trackedUses.mpr ⟨hu, hres⟩

theorem exists_eq_ok_of_allocatable {visit : Nat → UseVisit} {order : AllocationOrder}
    {code : Code} (hvisit : ∀ n, (visit n).IsOrder) (hcode : Allocatable order code) :
    ∃ a, allocateVisiting visit order code = .ok a := by
  obtain ⟨n, st, hrounds, hlast⟩ := exists_lastRound_allocateVisiting hvisit order code
  have hs := hrounds.sound hvisit
  obtain ⟨blocks, hblocks⟩ := hrounds.exists_blocks hvisit hcode.mark
  obtain ⟨result, hround, htotal⟩ := exists_colorRound_eq_ok hvisit hcode.mark hs hblocks n
  generalize allocateVisiting visit order code = x at hlast
  cases hlast with
  | failed he =>
    rw [hround] at he
    cases he
  | @colored result' hround' hspills =>
    cases hround.symm.trans hround'
    cases hmap : (removeDeadDefinitions st.code).mapM (renameInstr result.registers) with
    | ok code' => exact ⟨_, by rw [SpillProgress.finish, hmap]; rfl⟩
    | error e =>
      -- every register that is left has been assigned one
      obtain ⟨k, hk, he⟩ := Outcome.exists_of_mapM_eq_error hmap
      obtain ⟨r, hr, hres, hnone, _⟩ := renameInstr_error he
      obtain ⟨i, hi, hsub⟩ := exists_regs_subset_of_mem_removeDeadDefinitions hk
      obtain ⟨p, hp⟩ := htotal hspills r (hblocks.mentions hi (hsub hr) hres)
      rw [hnone] at hp
      cases hp

/-- Allocation succeeds if the operands of every single instruction fit, in whatever order uses are
visited, and the registers of the result have fixed roles or belong to the order of their class. -/
theorem exists_allocateVisiting_eq_ok {visit : Nat → UseVisit} {order : AllocationOrder}
    {code : Code} (hvisit : ∀ n, (visit n).IsOrder) (hcode : Allocatable order code) :
    ∃ a, allocateVisiting visit order code = .ok a ∧ ∀ i ∈ a.code, ∀ r ∈ i.regs,
      r.isReserved = true ∨ ∃ p ∈ order.ofClass r.cls, r.name = p.name := by
  obtain ⟨a, ha⟩ := exists_eq_ok_of_allocatable hvisit hcode
  exact ⟨a, ha, mem_order_of_allocateVisiting hvisit ha⟩

theorem allocatable_firstOfTwo : Allocatable singleRegister firstOfTwo where
  resolves := by decide
  noReload := unallocated_firstOfTwo.noReload
  quiet := by decide
  oneDef := by decide
  nodup cls := by cases cls <;> decide
  nonempty v hv := by
    have hall : ∀ i ∈ firstOfTwo, ∀ r ∈ i.regs, r.cls = .int := by decide
    obtain ⟨i, hi, hr⟩ := hv.mem_regs
    rw [hall i hi v hr]
    decide
  fits i hi cls := by
    revert i
    cases cls <;> decide

theorem exists_allocateVisiting_eq_ok_firstOfTwo :
    Allocatable singleRegister firstOfTwo ∧
      ∃ a, allocate singleRegister firstOfTwo = .ok a ∧ ∀ i ∈ a.code, ∀ r ∈ i.regs,
        r.isReserved = true ∨ ∃ p ∈ singleRegister.ofClass r.cls, r.name = p.name :=
  ⟨allocatable_firstOfTwo,
    exists_allocateVisiting_eq_ok (fun _ => UseVisit.isOrder_byName) allocatable_firstOfTwo⟩

end ClosureCodegen
