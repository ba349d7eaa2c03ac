import Mathlib.Logic.Relation
import ClosureCodegen.Optimizer.LoadUse
import ClosureCodegen.Proofs.Optimizer.Lanes

/-!
# Load-use scheduling keeps the effect of code

An instruction that is no barrier only writes registers, and what it writes depends on the registers
it uses and on the memory.  So two of them can change places if neither writes what the other uses or
writes; writes of the register `x0` do not count, as nobody sees them.

* `Exchanges`: two adjacent instructions of this kind change places.
* `exchanges_scheduleLoads`: scheduling does nothing else.
* `work_comm`: exchanged instructions do the same as before.
-/

namespace ClosureCodegen
open List

variable {r : Reg} {rs ss : List Reg} {vs : List Word} {d : Decoded} {code : Code}

/-! ## Writes that can change places -/

namespace Hart

variable {h : Hart}

theorem set_setAll_comm {w : Word} (hr : ∀ d ∈ rs, d.names .zero = true ∨ d.name ≠ r.name) :
    (h.setAll rs vs).set r w = (h.set r w).setAll rs vs := by
  induction rs generalizing h vs with
  | nil => rfl
  | cons d rs ih =>
    rw [forall_mem_cons] at hr
    cases vs with
    | nil => rfl
    | cons v vs =>
      rw [setAll_cons, setAll_cons, ih hr.2]
      rcases hr.1 with hz | hn
      · rw [set_of_names_zero hz, set_of_names_zero hz]
      · rw [set_comm hn]

theorem setAll_comm {ws : List Word}
    (hr : ∀ d ∈ rs, d.names .zero = true ∨ ∀ e ∈ ss, d.name ≠ e.name) :
    (h.setAll rs vs).setAll ss ws = (h.setAll ss ws).setAll rs vs := by
  induction ss generalizing h ws with
  | nil => rfl
  | cons e ss ih =>
    cases ws with
    | nil => rfl
    | cons w ws =>
      rw [setAll_cons, setAll_cons, set_setAll_comm fun d hd => ?_, ih fun d hd => ?_]
      · exact (hr d hd).imp_right fun hn e' he' => hn e' (mem_cons_of_mem e he')
      · exact (hr d hd).imp_right fun hn => hn e mem_cons_self

end Hart

theorem apart_of_overlaps (h : overlaps rs ss = false) :
    ∀ r ∈ rs, r.names .zero = true ∨ ∀ s ∈ ss, r.name ≠ s.name := by
  intro r hr
  have hn := any_eq_false.mp h r hr
  simp only [Bool.and_eq_true, Bool.not_eq_true', any_eq_true, beq_iff_eq, not_and,
    not_exists] at hn
  cases hz : r.names .zero with
  | true => exact .inl rfl
  | false => exact .inr fun s hs => hn hz s hs

/-! ## Instructions that are no barriers -/

namespace Instr

variable {i : Instr}

theorem family_of_not_isBarrier (hb : i.op.isBarrier = false) :
    i.op.family.isValue = true ∨ i.op.family = .vectorLoad := by
  cases hop : i.op <;> rw [hop] at hb <;> first | exact .inl rfl | exact .inr rfl | cases hb

theorem isStraight_of_not_isBarrier (hd : i.decode?.isSome = true) (hb : i.op.isBarrier = false) :
    i.IsStraight := by
  obtain ⟨op, os⟩ := i
  refine ⟨hd, ?_, ?_⟩
  · cases op <;> first | rfl | cases hb
  · cases op <;> first | rfl | cases hb

theorem heap_of_vectorLoad {env : Environment} {a : Word} {ctx : Context} {e : Effects}
    (hf : i.op.family = .vectorLoad) (hd : i.decode? = some d)
    (he : d.operation.perform env a ctx vs = some e) : e.heap = ctx.heap := by
  obtain ⟨op, os⟩ := i
  have hdec : Decodes op op.family os d := decodes_of_decode? hd
  rw [show op.family = .vectorLoad from hf] at hdec
  cases hdec with
  | vectorLoad =>
    rcases vs with _ | ⟨v, _ | ⟨w, vs⟩⟩ <;> cases he
    rfl

/-- What operations that only write registers deliver. -/
def delivered (env : Environment) (d : Decoded) (vs : List Word) (memory : Word → Word) :
    List Word :=
  ((d.operation.perform env 0 ⟨⟨memory, 0⟩, 0, fun _ => 0⟩ vs).map Effects.values).getD []

theorem effect_of_not_isBarrier (hd : i.decode? = some d) (hb : i.op.isBarrier = false)
    (env : Environment) (h : Hart) :
    i.effect env h = h.setAll d.writes (delivered env d (i.uses.map h.get) h.memory) := by
  have hi := isStraight_of_not_isBarrier (by rw [hd]; rfl) hb
  obtain ⟨d', e, hd', _, he, hh, _⟩ := run_eq_some (hi.run env h)
  cases hd.symm.trans hd'
  have hmem : e.heap.memory = h.memory := by
    rcases family_of_not_isBarrier hb with hv | hv
    · rw [(Operation.perform_inv he).2.2 (isValue_decode? hd hv).1]
      rfl
    · rw [heap_of_vectorLoad hv hd he]
      rfl
  rw [hh, hmem, delivered, ← decode?_reads hd]
  change _ = h.setAll d.writes (((d.operation.perform env 0 h.context (d.reads.map h.get)).map
    Effects.values).getD [])
  rw [he]
  rfl

/-- What an instruction that is no barrier leaves of a hart. -/
def work (env : Environment) (i : Instr) (h : Hart) : Option Hart := (i.run env h).map Prod.fst

theorem IsStraight.work (hi : i.IsStraight) (env : Environment) (h : Hart) :
    i.work env h = some (i.effect env h) := by
  rw [Instr.work, hi.run, Option.map_some]

/-- An instruction that is no barrier has no meaning, or it writes `x0` and registers that it defines.
What it writes depends on the registers it uses and on the memory. -/
theorem work_of_not_isBarrier (hb : i.op.isBarrier = false) (env : Environment) :
    i.work env = (fun _ => none) ∨ ∃ (ws : List Reg) (f : List Word → (Word → Word) → List Word),
      (∀ r ∈ ws, r.names .zero = true ∨ r ∈ i.defs) ∧
      ∀ h, i.work env h = some (h.setAll ws (f (i.uses.map h.get) h.memory)) := by
  cases hd : i.decode? with
  | some d =>
    have hi := isStraight_of_not_isBarrier (by rw [hd]; rfl) hb
    refine .inr ⟨d.writes, delivered env d, fun r => names_zero_or_mem_defs hd, fun h => ?_⟩
    rw [hi.work, effect_of_not_isBarrier hd hb]
  | none =>
    refine .inl (funext fun h => ?_)
    rw [work, run, hd]
    rfl

theorem work_comm {k : Instr} (hib : i.op.isBarrier = false) (hkb : k.op.isBarrier = false)
    (hind : independent i k = true) (env : Environment) (h : Hart) :
    (i.work env h).bind (k.work env) = (k.work env h).bind (i.work env) := by
  simp only [independent, Bool.not_eq_true', Bool.or_eq_false_iff] at hind
  obtain ⟨⟨hdd, hud⟩, hdu⟩ := hind
  rcases work_of_not_isBarrier hib env with hi | ⟨ws, f, hws, hi⟩
  · rw [hi, Option.bind_none, Option.bind_fun_none]
  rcases work_of_not_isBarrier hkb env with hk | ⟨us, g, hus, hk⟩
  · rw [hk, Option.bind_none, Option.bind_fun_none]
  -- each finds in the registers it uses what it would find without the other
  have hread : ∀ {vs : List Word}, k.uses.map (h.setAll ws vs).get = k.uses.map h.get := by
    intro vs
    refine map_congr_left fun r hr => Hart.get_setAll_of_apart fun d hd => ?_
    exact (hws d hd).elim .inl fun hd => (apart_of_overlaps hdu d hd).imp_right fun hn => hn r hr
  have hread' : ∀ {vs : List Word}, i.uses.map (h.setAll us vs).get = i.uses.map h.get := by
    intro vs
    refine map_congr_left fun r hr => ?_
    rcases apart_of_overlaps hud r hr with hz | hn
    · rw [Hart.get_of_names_zero hz, Hart.get_of_names_zero hz]
    · exact Hart.get_setAll_of_apart fun d hd => (hus d hd).imp_right fun hd => (hn d hd).symm
  rw [hi h, hk h, Option.bind_some, Option.bind_some, hk, hi, hread, hread', Hart.memory_setAll,
    Hart.memory_setAll, Hart.setAll_comm fun d hd => ?_]
  cases hz : d.names .zero with
  | true => exact .inl rfl
  | false =>
    -- a register that is not `x0` has another name than `x0`
    refine .inr fun e he hde => ?_
    have hd' := (hws d hd).resolve_left (by rw [hz]; nofun)
    have he' := (hus e he).resolve_left (by rw [← Hart.names_zero_congr hde, hz]; nofun)
    exact (apart_of_overlaps hdd d hd').elim (by rw [hz]; nofun) fun hn => hn e he' hde

end Instr

open Instr

/-! ## The pass -/

/-- Two adjacent instructions that are no barriers and do not depend on each other change places. -/
inductive Exchanges : Code → Code → Prop where
  | swap {i k : Instr} (pre post : Code) (hi : i.op.isBarrier = false) (hk : k.op.isBarrier = false)
    (hind : independent i k = true) : Exchanges (pre ++ i :: k :: post) (pre ++ k :: i :: post)

theorem exchanges_scheduleFrom (done rest : Code) (swaps : Nat) :
    Relation.ReflTransGen Exchanges (done.reverse ++ rest) (scheduleFrom done swaps rest).code := by
  fun_induction scheduleFrom done swaps rest with
  | case1 done swaps load reader rest _ ih
  | case4 swaps load reader _ previous earlier _ following later _ ih
  | case5 swaps load reader _ previous earlier _ ih
  | case7 swaps load reader _ following later _ ih
  | case8 swaps load reader _ ih =>
    simp only [reverse_cons, append_assoc, cons_append, nil_append,
      reverse_nil] at ih ⊢
    exact ih
  | case2 swaps load reader hn previous earlier rest hp ih =>
    simp only [Bool.or_eq_true, not_or, Bool.not_eq_true, Bool.and_eq_true,
      Bool.not_eq_true'] at hn hp
    simp only [reverse_cons, append_assoc, cons_append, nil_append] at ih ⊢
    exact .head (.swap earlier.reverse (reader :: rest) hp.1 hn.1.1 hp.2) ih
  | case3 swaps load reader hn previous earlier _ following later hp ih =>
    simp only [Bool.or_eq_true, not_or, Bool.not_eq_true, Bool.and_eq_true,
      Bool.not_eq_true'] at hn hp
    have hswap := Exchanges.swap (earlier.reverse ++ [previous, load]) later hn.1.2 hp.1 hp.2
    simp only [reverse_cons, append_assoc, cons_append,
      nil_append] at ih hswap ⊢
    exact .head hswap ih
  | case6 swaps load reader hn following later hp ih =>
    simp only [Bool.or_eq_true, not_or, Bool.not_eq_true, Bool.and_eq_true,
      Bool.not_eq_true'] at hn hp
    exact .head (.swap [load] later hn.1.2 hp.1 hp.2) ih
  | case9 done swaps rest _ => exact .refl

theorem exchanges_scheduleLoads (code : Code) :
    Relation.ReflTransGen Exchanges code (scheduleLoads code).code :=
  exchanges_scheduleFrom [] code 0

theorem Exchanges.simplifies {out : Code} (h : Exchanges code out) (hcode : ∀ i ∈ code, i.IsTidy) :
    Simplifies IsTidy code out := by
  obtain @⟨i, k, pre, post, hib, hkb, hind⟩ := h
  simp only [forall_mem_append, forall_mem_cons] at hcode
  obtain ⟨-, hi, hk, -⟩ := hcode
  have hsi := isStraight_of_not_isBarrier hi.decodes hib
  have hsk := isStraight_of_not_isBarrier hk.decodes hkb
  have hsame : SameEffect [i, k] [k, i] := by
    refine ⟨nofun, by simpa using ⟨hsi, hsk⟩, by simpa using ⟨hsk, hsi⟩, fun env h => ?_⟩
    have hcomm := work_comm hib hkb hind env h
    simp only [hsi.work, hsk.work, Option.bind_some, Option.some.injEq] at hcomm
    exact hcomm.symm
  exact (Simplifies.front hsame (by simpa using ⟨hk, hi⟩) post).append_left pre

theorem simplifies_scheduleLoads (hcode : ∀ i ∈ code, i.IsTidy) :
    Simplifies IsTidy code (scheduleLoads code).code := by
  have hall := exchanges_scheduleLoads code
  generalize (scheduleLoads code).code = out at hall ⊢
  induction hall with
  | refl => exact .refl code
  | tail _ hstep ih => exact ih.trans (hstep.simplifies (ih.forall_mem hcode))

end ClosureCodegen
