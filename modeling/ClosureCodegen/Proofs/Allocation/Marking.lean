import ClosureCodegen.Allocation.Basic
import ClosureCodegen.Proofs.Liveness.Paths

/-!
# Marking unused parameters

The markers do nothing when they run.  What matters at this place is another thing: the body that is
allocated starts in a state of its own.  If no variable is live at the entry, the variables may have
any values there, and so may the slots as long as the body has no spill traffic.
-/

namespace ClosureCodegen
open List

variable {code : Code} {i : Instr} {env : Environment} {m m' : Machine}

/-- A parameter, followed by markers, or any other instruction. -/
def MarkBlock (i : Instr) (block : Code) : Prop :=
  ∃ marks : Code, block = i :: marks ∧
    (∀ k ∈ marks, ∃ r, k = (⟨.unusedParam, [.reg r]⟩ : Instr)) ∧ (marks ≠ [] → i.isParam = true)

namespace MarkBlock

theorem faithful : Faithful MarkBlock where
  label := by
    rintro i block ⟨marks, rfl, hmarks, hparam⟩ hl
    have hop : i.op = .label := of_decide_eq_true hl
    cases marks with
    | nil => exact ⟨i, rfl, hl, rfl⟩
    | cons k marks =>
      have hp : i.op = .param := of_decide_eq_true (hparam nofun)
      rw [hop] at hp
      cases hp
  noLabel := by
    rintro i block ⟨marks, rfl, hmarks, _⟩ hl k hk
    rcases mem_cons.mp hk with rfl | hk
    · exact hl
    · obtain ⟨r, rfl⟩ := hmarks k hk
      rfl
  params := by
    rintro i block ⟨marks, rfl, hmarks, _⟩
    have hzero : marks.countP Instr.isParam = 0 := by
      refine countP_eq_zero.mpr fun k hk => ?_
      obtain ⟨r, rfl⟩ := hmarks k hk
      nofun
    rw [countP_cons, hzero, countP_cons, countP_nil]

end MarkBlock

/-- The marker of a parameter that the body never reads. -/
def markers (code params : Code) : Code :=
  (params.filterMap fun i => i.reg? 0).filterMap fun r =>
    if r ∈ usedAnywhere code then none else some (⟨.unusedParam, [r]⟩ : Instr)

theorem markUnusedParams_eq (code : Code) : ∃ front params rest,
    code = front ++ params ++ rest ∧ (∀ i ∈ params, i.isParam = true) ∧
      markUnusedParams code = front ++ params ++ markers code params ++ rest := by
  have hsplit : ∀ (p : Instr → Bool) (c : Code),
      c = c.takeWhile p ++ c.drop (c.takeWhile p).length := fun p c =>
    (prefix_iff_eq_append.mp ( takeWhile_prefix p)).symm
  let isParam := fun i : Instr => decide (i.op = .param)
  let front := code.takeWhile fun i => !isParam i
  let params := (code.drop front.length).takeWhile isParam
  refine ⟨front, params, code.drop (front.length + params.length), ?_, ?_, rfl⟩
  · have h₁ := hsplit (fun i => !isParam i) code
    have h₂ := hsplit isParam (code.drop front.length)
    rw [drop_drop] at h₂
    rw [append_assoc, ← h₂]
    exact h₁
  · intro i hi
    exact all_eq_true.mp all_takeWhile i hi

theorem mem_markers {params : Code} {k : Instr} (h : k ∈ markers code params) :
    ∃ i ∈ params, ∃ r, i.reg? 0 = some r ∧ r ∉ usedAnywhere code ∧
      k = ⟨.unusedParam, [.reg r]⟩ := by
  obtain ⟨r, hr, hk⟩ := mem_filterMap.mp h
  obtain ⟨i, hi, hir⟩ := mem_filterMap.mp hr
  split at hk
  · cases hk
  · next hn => exact ⟨i, hi, r, hir, hn, (Option.some.inj hk).symm⟩

theorem mem_markUnusedParams (h : i ∈ markUnusedParams code) :
    i ∈ code ∨ ∃ k ∈ code, ∃ r, k.isParam = true ∧ r ∈ k.regs ∧ i = ⟨.unusedParam, [.reg r]⟩ := by
  obtain ⟨front, params, rest, hcode, hparams, hmarked⟩ := markUnusedParams_eq code
  rw [hmarked, mem_append, mem_append] at h
  rcases h with (h | h) | h
  · exact .inl (hcode ▸ mem_append_left _ h)
  · obtain ⟨k, hk, r, hr, _, rfl⟩ := mem_markers h
    obtain ⟨o, ho, hor⟩ := Option.bind_eq_some_iff.mp hr
    refine .inr ⟨k, ?_, r, hparams k hk, ?_, rfl⟩
    · rw [hcode]
      exact mem_append_left _ (mem_append_right _ hk)
    · exact mem_filterMap.mpr ⟨o, mem_of_getElem? ho, hor⟩
  · exact .inl (hcode ▸ mem_append_right _ h)

theorem mem_markUnusedParams_of_mem (h : i ∈ code) : i ∈ markUnusedParams code := by
  obtain ⟨front, params, rest, hcode, _, hmarked⟩ := markUnusedParams_eq code
  rw [hcode, mem_append] at h
  rw [hmarked, mem_append, mem_append]
  exact h.imp_left .inl

/-- A parameter, followed by some of given markers, or any other instruction. -/
def MarkedWith (marks : Code) (i : Instr) (block : Code) : Prop :=
  ∃ behind : Code, block = i :: behind ∧ behind ⊆ marks ∧ (behind ≠ [] → i.isParam = true)

theorem MarkedWith.expands_self (marks code : Code) : Expands (MarkedWith marks) code code := by
  induction code with
  | nil => exact .nil
  | cons i code ih => exact .cons ⟨[], rfl, nil_subset _, fun h => absurd rfl h⟩ ih

theorem exists_expands_markers (code : Code) : ∃ front params rest,
    code = front ++ params ++ rest ∧ (∀ i ∈ params, i.isParam = true) ∧
      markUnusedParams code = front ++ params ++ markers code params ++ rest ∧
      Expands (MarkedWith (markers code params)) code (markUnusedParams code) := by
  obtain ⟨front, params, rest, hcode, hparams, hmarked⟩ := markUnusedParams_eq code
  refine ⟨front, params, rest, hcode, hparams, hmarked, ?_⟩
  rw [hmarked]
  conv => arg 2; rw [hcode]
  refine Expands.append ?_ (MarkedWith.expands_self _ rest)
  rw [append_assoc]
  refine Expands.append (MarkedWith.expands_self _ front) ?_
  rcases eq_nil_or_concat' params with rfl | ⟨init, last, rfl⟩
  · exact .nil
  · generalize markers code (init ++ [last]) = marks
    rw [append_assoc]
    refine Expands.append (MarkedWith.expands_self _ init) ?_
    have hblock : MarkedWith marks last ([last] ++ marks) :=
      ⟨marks, rfl, List.Subset.refl _, fun _ => hparams last (by simp)⟩
    have := Expands.cons hblock (Expands.nil (B := MarkedWith marks))
    rwa [append_nil] at this

theorem expands_markUnusedParams (code : Code) :
    Expands MarkBlock code (markUnusedParams code) := by
  obtain ⟨front, params, rest, -, -, -, hexp⟩ := exists_expands_markers code
  refine hexp.mono fun ⟨behind, hblock, hmarks, hparam⟩ => ⟨behind, hblock, fun k hk => ?_, hparam⟩
  obtain ⟨_, _, r, _, _, rfl⟩ := mem_markers (hmarks hk)
  exact ⟨r, rfl⟩

/-! ## Behaviour -/

theorem execBlock_markers {a : Word} {marks : Code}
    (h : ∀ k ∈ marks, ∃ r, k = (⟨.unusedParam, [.reg r]⟩ : Instr)) (m : Machine) :
    execBlock env a marks m = some ⟨m, [], .next⟩ := by
  induction marks with
  | nil => rfl
  | cons k marks ih =>
    obtain ⟨r, rfl⟩ := h k mem_cons_self
    exact execBlock_cons_next (Instr.exec_still (i := ⟨.unusedParam, [.reg r]⟩) rfl rfl) rfl
      (ih fun k hk => h k (mem_cons_of_mem _ hk))

/-- Memory and the registers with a fixed role agree, and so do the variables that are live. -/
structure LiveAgreement (code rest : Code) (m m' : Machine) : Prop where
  memory : m'.memory = m.memory
  reserved : ∀ r, r.isReserved = true → m'.regs r = m.regs r
  vars : ∀ v, v.isReserved = false → LiveIn code v rest → m'.regs v = m.regs v

theorem LiveAgreement.heap {rest : Code} (h : LiveAgreement code rest m m') : m'.heap = m.heap :=
  Machine.heap_eq h.memory (h.reserved heapReg isReserved_heapReg)

theorem LiveAgreement.step {env : Environment} {code rest block : Code} {i : Instr}
    {m m' : Machine} {a : Word} {e : Execution} (hz : i.idleLanesZero = true)
    (hslot : i.slot? = none) (hb : MarkBlock i block)
    (h : LiveAgreement code (i :: rest) m m') (he : i.exec env a m = some e) :
    ∃ e', execBlock env a block m' = some e' ∧ e'.events = e.events ∧ e'.transfer = e.transfer ∧
      e'.machine.heap = e.machine.heap ∧ ∀ rest', Follows code rest e.transfer rest' →
        LiveAgreement code rest' e.machine e'.machine := by
  obtain ⟨marks, rfl, hmarks, hparam⟩ := hb
  obtain ⟨d, -, hd, -, -⟩ := Instr.exec_eq_some.mp he
  have hreads : d.reads.map m'.get = d.reads.map m.get := by
    refine map_congr_left fun r hr => Machine.get_congr ?_
    rw [Instr.decode?_reads hd] at hr
    cases hres : r.isReserved with
    | true => exact h.reserved r hres
    | false => exact h.vars r hres (.use (Instr.mem_trackedUses.mpr ⟨hr, hres⟩))
  obtain ⟨e', he', hc⟩ := Instr.exec_correspondence (ρ := id) hz hd (by rw [map_id]; exact hd)
    hreads h.heap (Machine.get_congr (h.reserved closureReg isReserved_closureReg))
    (fun s hs => by rw [hslot] at hs; cases hs) (fun r _ => Iff.rfl) he
  have hregs : ∀ q, (q ∉ i.defs → m'.regs q = m.regs q) → e'.machine.regs q = e.machine.regs q :=
    fun q hq => hc.regs (fun _ _ => Iff.rfl) Iff.rfl hq
  have hblock : execBlock env a (i :: marks) m' = some e' := by
    cases marks with
    | nil => exact (execBlock_singleton ..).trans he'
    | cons k marks =>
      -- a parameter sends control on to its markers
      have hp : i.op = .param := of_decide_eq_true (hparam nofun)
      have hnext : e'.transfer = .next := by
        obtain ⟨d, fx, hd, hfx, rfl⟩ := Instr.exec_eq_some.mp he
        obtain ⟨r, -, rfl⟩ := Instr.decode?_param hp hd
        exact hc.transfer.trans (Operation.perform_inv hfx).2.1
      rw [execBlock_cons_next he' hnext (execBlock_markers hmarks e'.machine)]
      simp [← hnext]
  refine ⟨e', hblock, hc.events, hc.transfer, Machine.heap_eq hc.memory ?_, fun rest' hf => ?_⟩
  · exact hregs heapReg fun _ => h.reserved heapReg isReserved_heapReg
  · refine ⟨hc.memory, fun r hr => hregs r fun _ => h.reserved r hr, fun v hv hlive => ?_⟩
    refine hregs v fun hn => h.vars v hv (.flow ?_ (Instr.canTransfer_exec he) hf hlive)
    exact fun hin => hn (Instr.mem_trackedDefs.mp hin).1

/-- A marked body behaves like the body, whatever the variables and slots hold at the entry. -/
theorem behavesLike_markUnusedParams (hz : ∀ i ∈ code, i.idleLanesZero = true)
    (hslot : ∀ i ∈ code, i.slot? = none)
    (hentry : ∀ v, ¬LiveIn code v code) (hmem : m'.memory = m.memory)
    (hres : ∀ r, r.isReserved = true → m'.regs r = m.regs r) :
    BehavesLike (step env code) ⟨code, m⟩ (step env (markUnusedParams code))
      ⟨markUnusedParams code, m'⟩ := by
  have hheap : ∀ {rest m m'}, LiveAgreement code rest m m' → m'.heap = m.heap := fun h => h.heap
  refine Expands.behavesLike MarkBlock.faithful (expands_markUnusedParams code) hheap
    (fun hs hb h he =>
      h.step (hz _ (hs.mem mem_cons_self)) (hslot _ (hs.mem mem_cons_self)) hb he) ?_
  exact ⟨hmem, hres, fun v _ hlive => absurd hlive (hentry v)⟩

end ClosureCodegen
