import ClosureCodegen.Proofs.Execution.StraightLine

/-!
# What an instruction depends on

An instruction that makes no call looks at the registers it uses and at the words of memory it
touches, and changes nothing but the registers it defines and words it touches.  So two harts that
agree on what it looks at go the same way and agree afterwards, up to what it has not touched.

* `Instr.run_congr`: one instruction on two harts.
-/

namespace ClosureCodegen
open List

/-! ## The words an instruction touches -/

/-- The addresses that an operation reads or writes, given the values it reads from registers. -/
def Operation.touches : Operation → List Word → List Word
  | .load o, [a] => [a + o]
  | .store o, a :: _ => [a + o]
  | .loadAt a, _ | .storeAt a, _ => [a]
  | .vectorLoad o k, [a] => ((List.range 4).filter k.getLsbD).map (laneAddress a o)
  | .vectorStore o k, a :: vs => ((List.range vs.length).filter k.getLsbD).map (laneAddress a o)
  | _, _ => []

/-- The addresses that an instruction reads or writes. -/
def Instr.touches (i : Instr) (h : Hart) : List Word :=
  match i.decode? with
  | some d => d.operation.touches (d.reads.map h.get)
  | none => []

theorem Instr.touches_load (d b : Reg) (o : Word) (h : Hart) :
    (Instr.load d b o).touches h = [h.get b + o] := by
  rcases d with ⟨x, _ | _⟩ <;> rfl

/-! ## Writes -/

/-- Memory after some writes. -/
def writeAll (writes : List (Word × Word)) (m : Word → Word) : Word → Word :=
  writes.foldl (fun m (a, v) => fun b => if b = a then v else m b) m

theorem writeAll_congr {m m' : Word → Word} {b : Word} (hb : m' b = m b)
    (writes : List (Word × Word)) : writeAll writes m' b = writeAll writes m b := by
  induction writes generalizing m m' with
  | nil => exact hb
  | cons w writes ih =>
    refine ih ?_
    dsimp only
    split
    · rfl
    · exact hb

theorem writeAll_of_not_mem {m : Word → Word} {b : Word} {writes : List (Word × Word)}
    (hb : b ∉ writes.map Prod.fst) : writeAll writes m b = m b := by
  induction writes generalizing m with
  | nil => rfl
  | cons w writes ih =>
    rw [map_cons, mem_cons, not_or] at hb
    exact (ih hb.2).trans (if_neg hb.1)

/-! ## Operations -/

/-- Two executions of one operation, seen from a set of addresses: they deliver the same, and the
words outside of the set stay. -/
structure Effects.Matches (S : Word → Prop) (m m' : Word → Word) (e e' : Effects) : Prop where
  values : e'.values = e.values
  transfer : e'.transfer = e.transfer
  inside : ∀ a, S a → e'.heap.memory a = e.heap.memory a
  outside : ∀ a, ¬S a → e.heap.memory a = m a ∧ e'.heap.memory a = m' a

section Operations

variable {env : Environment} {w : Word} {ctx ctx' : Context} {S : Word → Prop}

theorem Effects.Matches.give (hm : ∀ a, S a → ctx'.heap.memory a = ctx.heap.memory a)
    (values : List Word) :
    Matches S ctx.heap.memory ctx'.heap.memory (ctx.give values) (ctx'.give values) :=
  ⟨rfl, rfl, hm, fun _ _ => ⟨rfl, rfl⟩⟩

theorem Effects.Matches.write (hm : ∀ a, S a → ctx'.heap.memory a = ctx.heap.memory a)
    {writes : List (Word × Word)} (hw : ∀ x ∈ writes, S x.1) :
    Matches S ctx.heap.memory ctx'.heap.memory (ctx.write writes) (ctx'.write writes) := by
  have hout : ∀ a, ¬S a → a ∉ writes.map Prod.fst := by
    intro a ha hmem
    obtain ⟨x, hx, rfl⟩ := mem_map.mp hmem
    exact ha (hw x hx)
  exact ⟨rfl, rfl, fun a ha => writeAll_congr (hm a ha) writes, fun a ha =>
    ⟨writeAll_of_not_mem (hout a ha), writeAll_of_not_mem (hout a ha)⟩⟩

theorem Operation.perform_congr {op : Operation} {vs : List Word} {e : Effects}
    (hn : op.isNative = true) (he : op.perform env w ctx vs = some e)
    (ht : ∀ a ∈ op.touches vs, S a)
    (hm : ∀ a, S a → ctx'.heap.memory a = ctx.heap.memory a) :
    ∃ e', op.perform env w ctx' vs = some e' ∧
      e.Matches S ctx.heap.memory ctx'.heap.memory e' := by
  unfold perform at he
  split at he
  case h_4 | h_5 | h_6 | h_13 =>
    obtain ⟨f, hf, rfl⟩ := Option.map_eq_some_iff.mp he
    exact ⟨_, congrArg (Option.map _) hf, rfl, rfl, hm, fun _ _ => ⟨rfl, rfl⟩⟩
  case h_7 o a =>
    cases he
    have hread : ctx'.heap.memory (a + o) = ctx.heap.memory (a + o) := hm _ (ht _ (by simp [touches]))
    exact ⟨_, by simp only [perform, hread], .give hm _⟩
  case h_8 o a v =>
    cases he
    exact ⟨_, rfl, .write hm fun x hx => ht _ (by simp_all [touches])⟩
  case h_9 a =>
    cases he
    have hread : ctx'.heap.memory a = ctx.heap.memory a := hm _ (ht _ (by simp [touches]))
    exact ⟨_, by simp only [perform, hread], .give hm _⟩
  case h_10 a v =>
    cases he
    exact ⟨_, rfl, .write hm fun x hx => ht _ (by simp_all [touches])⟩
  case h_11 o k a =>
    cases he
    have hlanes : ∀ lane < 4, k.getLsbD lane = true →
        ctx'.heap.memory (laneAddress a o lane) = ctx.heap.memory (laneAddress a o lane) := by
      intro lane hlane hk
      refine hm _ (ht _ (mem_map_of_mem (mem_filter.mpr ⟨mem_range.mpr hlane, hk⟩)))
    have hvalues : ((List.range 4).map fun lane =>
          if k.getLsbD lane then ctx'.heap.memory (laneAddress a o lane) else 0) =
        (List.range 4).map fun lane =>
          if k.getLsbD lane then ctx.heap.memory (laneAddress a o lane) else 0 := by
      refine map_congr_left fun lane hlane => ?_
      split
      · next hk => exact hlanes lane (mem_range.mp hlane) hk
      · rfl
    exact ⟨_, by simp only [perform, hvalues], .give hm _⟩
  case h_12 o k a vs =>
    cases he
    refine ⟨_, rfl, .write hm fun x hx => ?_⟩
    obtain ⟨⟨v, lane⟩, hlane, rfl⟩ := mem_map.mp hx
    obtain ⟨hmem, hk⟩ := mem_filter.mp hlane
    have hlt : lane < vs.length := by simpa using snd_lt_of_mem_zipIdx hmem
    exact ht _ (mem_map_of_mem (mem_filter.mpr ⟨mem_range.mpr hlt, hk⟩))
  case h_15 | h_16 | h_20 | h_21 | h_22 | h_23 | h_24 | h_25 | h_26 | h_27 => cases hn
  case h_28 => cases he
  all_goals
    cases he
    exact ⟨_, rfl, rfl, rfl, hm, fun _ _ => ⟨rfl, rfl⟩⟩

end Operations

/-! ## Registers -/

namespace Hart

variable {h h' : Hart} {q r : Reg} {v : Word}

theorem get_set_congr (hr : h'.get r = h.get r) : (h'.set q v).get r = (h.set q v).get r := by
  by_cases hn : r.name = q.name
  · cases hz : q.names .zero with
    | true => rw [set_of_names_zero hz, set_of_names_zero hz, hr]
    | false => rw [get_congr hn, get_congr hn, get_set_self hz, get_set_self hz]
  · rw [get_set_of_ne hn, get_set_of_ne hn, hr]

theorem get_set_of_name_eq (hn : r.name = q.name) : (h'.set q v).get r = (h.set q v).get r := by
  cases hz : q.names .zero with
  | true =>
    have hr : r.names .zero = true := (names_zero_congr hn).trans hz
    rw [get_of_names_zero hr, get_of_names_zero hr]
  | false => rw [get_congr hn, get_congr hn, get_set_self hz, get_set_self hz]

theorem get_setAll_congr (hr : h'.get r = h.get r) (rs : List Reg) (vs : List Word) :
    (h'.setAll rs vs).get r = (h.setAll rs vs).get r := by
  induction rs generalizing h h' vs with
  | nil => exact hr
  | cons q rs ih =>
    cases vs with
    | nil => exact hr
    | cons v vs => exact ih (get_set_congr hr) vs

theorem get_setAll_of_mem {rs : List Reg} {vs : List Word} (hlen : vs.length = rs.length)
    (hr : ∃ d ∈ rs, r.name = d.name) : (h'.setAll rs vs).get r = (h.setAll rs vs).get r := by
  induction rs generalizing h h' vs with
  | nil =>
    obtain ⟨d, hd, -⟩ := hr
    cases hd
  | cons q rs ih =>
    cases vs with
    | nil => cases hlen
    | cons v vs =>
      obtain ⟨d, hd, hn⟩ := hr
      rw [setAll_cons, setAll_cons]
      rcases mem_cons.mp hd with rfl | hd
      · exact get_setAll_congr (get_set_of_name_eq hn) rs vs
      · exact ih (Nat.succ.inj hlen) ⟨d, hd, hn⟩

end Hart

/-! ## Instructions -/

/-- What one instruction makes of two harts that agree on what it looks at, seen from a set of
addresses. -/
structure Instr.RunsAlike (i : Instr) (S : Word → Prop) (h h' k k' : Hart) : Prop where
  regs : ∀ r : Reg, h'.get r = h.get r → k'.get r = k.get r
  defs : i.idleLanesZero = true → ∀ r : Reg, (∃ d ∈ i.defs, r.name = d.name) → k'.get r = k.get r
  others : ∀ r : Reg, (∀ d ∈ i.defs, r.name ≠ d.name) → k.get r = h.get r ∧ k'.get r = h'.get r
  inside : ∀ a, S a → k'.memory a = k.memory a
  outside : ∀ a, ¬S a → k.memory a = h.memory a ∧ k'.memory a = h'.memory a

theorem Instr.run_congr {env : Environment} {i : Instr} {S : Word → Prop} {h h' k : Hart}
    {t : Transfer} (hr : i.run env h = some (k, t)) (hu : ∀ r ∈ i.uses, h'.get r = h.get r)
    (ht : ∀ a ∈ i.touches h, S a) (hm : ∀ a, S a → h'.memory a = h.memory a) :
    ∃ k', i.run env h' = some (k', t) ∧ i.RunsAlike S h h' k k' := by
  obtain ⟨d, e, hd, hn, he, rfl, rfl⟩ := run_eq_some hr
  have htouch : ∀ a ∈ d.operation.touches (d.reads.map h.get), S a := by
    simpa only [touches, hd] using ht
  obtain ⟨e', he', hmatch⟩ := @Operation.perform_congr env 0 h.context h'.context S _ _ _ hn he
    htouch hm
  have hreads : d.reads.map h'.get = d.reads.map h.get := by
    rw [decode?_reads hd]
    exact map_congr_left hu
  have hlen : e.values.length = d.writes.length := by
    rw [(Operation.perform_inv he).1, length_writes_decode? hd]
  refine ⟨({ h' with memory := e'.heap.memory } : Hart).setAll d.writes e.values, ?_, ?_⟩
  · simp only [run, hd, Option.bind_some, if_pos hn, hreads, he', Option.map_some, hmatch.values,
      hmatch.transfer]
  · exact
      { regs := fun r hr => @Hart.get_setAll_congr ⟨h.regs, e.heap.memory⟩
          ⟨h'.regs, e'.heap.memory⟩ r hr _ _
        defs := fun hz r hr => Hart.get_setAll_of_mem hlen (decode?_writes hz hd ▸ hr)
        others := fun r hr => ⟨get_setAll_writes hd hr, get_setAll_writes hd hr⟩
        inside := fun a ha => by simpa only [Hart.memory_setAll] using hmatch.inside a ha
        outside := fun a ha => by
          simpa only [Hart.memory_setAll, Hart.context] using hmatch.outside a ha }

end ClosureCodegen
