import Mathlib.Data.List.Forall2
import Mathlib.Logic.Equiv.Basic
import ClosureCodegen.Proofs.Optimizer.Scheduling

/-!
# What load-use scheduling reorders

Scheduling looks at instructions that it has already moved, so one instruction can take part in many
exchanges.  What each exchange keeps is closed under composition, and so the whole pass keeps it:

* `Reorders`: a permutation takes every instruction to its new place.  Barriers stay, and instructions
  that conflict stay in order.
* `SameWork`: between two barriers the same instructions do the same, on every machine.

Nothing is asked of the operands.  An instruction without those that its opcode needs has no meaning,
and then its stretch has none, before and after.
-/

namespace ClosureCodegen
open List

open Instr

/-! ## Places -/

/-- One instruction defines a register, other than `x0`, that the other one defines or uses. -/
def Instr.Conflicts (i k : Instr) : Prop :=
  ∃ d r : Reg, d.name = r.name ∧ d.names .zero = false ∧
    (d ∈ i.defs ∧ (r ∈ k.defs ∨ r ∈ k.uses) ∨ d ∈ k.defs ∧ (r ∈ i.defs ∨ r ∈ i.uses))

theorem not_conflicts_of_independent {i k : Instr} (h : independent i k = true) :
    ¬i.Conflicts k := by
  simp only [independent, Bool.not_eq_true', Bool.or_eq_false_iff] at h
  obtain ⟨⟨hdd, hud⟩, hdu⟩ := h
  have happart : ∀ {rs ss : List Reg} {r s : Reg}, overlaps rs ss = false → r ∈ rs → s ∈ ss →
      r.names .zero = false → r.name ≠ s.name := by
    intro rs ss r s h hr hs hz
    refine (apart_of_overlaps h r hr).resolve_left ?_ s hs
    rw [hz]
    exact Bool.false_ne_true
  rintro ⟨d, r, hname, hz, ⟨hd, hr | hr⟩ | ⟨hd, hr | hr⟩⟩
  · exact happart hdd hd hr hz hname
  · exact happart hdu hd hr hz hname
  · exact happart hdd hr hd (by rwa [← Hart.names_zero_congr hname]) hname.symm
  · exact happart hud hr hd (by rwa [← Hart.names_zero_congr hname]) hname.symm

/-- A permutation takes the instructions of a body to their new places. Barriers stay where they are,
and instructions that conflict stay in order. -/
structure Reorders (σ : Equiv.Perm ℕ) (code out : Code) : Prop where
  place : ∀ k, out[σ k]? = code[k]?
  barrier : ∀ k (i : Instr), code[k]? = some i → i.op.isBarrier = true → σ k = k
  order : ∀ j k (i i' : Instr), j < k → code[j]? = some i → code[k]? = some i' → i.Conflicts i' →
    σ j < σ k

theorem Reorders.refl (code : Code) : Reorders (.refl ℕ) code code :=
  ⟨fun _ => rfl, fun _ _ _ _ => rfl, fun _ _ _ _ h _ _ _ => h⟩

theorem Reorders.trans {σ τ : Equiv.Perm ℕ} {code mid out : Code} (h : Reorders σ code mid)
    (h' : Reorders τ mid out) : Reorders (σ.trans τ) code out where
  place k := (h'.place (σ k)).trans (h.place k)
  barrier k i hi hb := by
    have hk := h.barrier k i hi hb
    rw [Equiv.trans_apply, hk]
    exact h'.barrier k i (by rw [← hk, h.place, hi]) hb
  order j k i i' hjk hi hi' hc :=
    h'.order _ _ i i' (h.order j k i i' hjk hi hi' hc) (by rw [h.place, hi]) (by rw [h.place, hi']) hc

theorem getElem?_exchange (pre post : Code) (i k : Instr) (n : ℕ) :
    (pre ++ k :: i :: post)[Equiv.swap pre.length (pre.length + 1) n]? =
      (pre ++ i :: k :: post)[n]? := by
  rcases Nat.lt_or_ge n pre.length with hn | hn
  · rw [Equiv.swap_apply_of_ne_of_ne (by omega) (by omega), getElem?_append_left hn,
      getElem?_append_left hn]
  · rcases Nat.lt_or_ge n (pre.length + 2) with hn' | hn'
    · obtain rfl | rfl : n = pre.length ∨ n = pre.length + 1 := by omega
      · rw [Equiv.swap_apply_left]
        simp
      · rw [Equiv.swap_apply_right]
        simp
    · obtain ⟨m, rfl⟩ := Nat.exists_eq_add_of_le hn'
      rw [Equiv.swap_apply_of_ne_of_ne (by omega) (by omega), Nat.add_assoc,
        getElem?_append_right (by omega), getElem?_append_right (by omega),
        Nat.add_sub_cancel_left, Nat.add_comm 2 m]
      rfl

theorem Exchanges.reorders {code out : Code} (h : Exchanges code out) : ∃ σ, Reorders σ code out := by
  obtain @⟨i, k, pre, post, hib, hkb, hind⟩ := h
  have hi : (pre ++ i :: k :: post)[pre.length]? = some i := by simp
  have hk : (pre ++ i :: k :: post)[pre.length + 1]? = some k := by simp
  refine ⟨Equiv.swap pre.length (pre.length + 1), getElem?_exchange pre post i k,
    fun n x hx hb => ?_, fun m n x y hmn hx hy hc => ?_⟩
  · refine Equiv.swap_apply_of_ne_of_ne ?_ ?_
    · rintro rfl
      cases hx.symm.trans hi
      rw [hib] at hb
      cases hb
    · rintro rfl
      cases hx.symm.trans hk
      rw [hkb] at hb
      cases hb
  · -- only the exchanged instructions themselves change their order
    have hpair : ¬(m = pre.length ∧ n = pre.length + 1) := by
      rintro ⟨rfl, rfl⟩
      cases hx.symm.trans hi
      cases hy.symm.trans hk
      exact not_conflicts_of_independent hind hc
    rw [Equiv.swap_apply_def, Equiv.swap_apply_def]
    split_ifs <;> omega

/-! ## Work between barriers -/

/-- The stretches between the barriers of a body. -/
def segments (code : Code) : List Code := code.splitOnP fun i => i.op.isBarrier

theorem segments_cons (i : Instr) (code : Code) : segments (i :: code) =
    if i.op.isBarrier then [] :: segments code else (segments code).modifyHead (i :: ·) :=
  splitOnP_cons_eq_if_modifyHead i code

/-- What a stretch without barriers does. -/
def workOf (env : Environment) (code : Code) (h : Hart) : Option Hart :=
  code.foldlM (fun h i => i.work env h) h

/-- The same instructions in another order, of the same effect on every machine. -/
structure SameWork (a b : Code) : Prop where
  perm : a.Perm b
  work : ∀ env h, workOf env b h = workOf env a h

namespace SameWork

variable {a b c : Code}

theorem refl (a : Code) : SameWork a a := ⟨.refl a, fun _ _ => rfl⟩

theorem trans (h : SameWork a b) (h' : SameWork b c) : SameWork a c :=
  ⟨h.perm.trans h'.perm, fun env m => (h'.work env m).trans (h.work env m)⟩

theorem cons (i : Instr) (h : SameWork a b) : SameWork (i :: a) (i :: b) where
  perm := h.perm.cons i
  work env m := by
    simp only [workOf, foldlM_cons]
    exact congrArg _ (funext (h.work env))

theorem swap {i k : Instr} (hi : i.op.isBarrier = false) (hk : k.op.isBarrier = false)
    (hind : independent i k = true) (a : Code) : SameWork (i :: k :: a) (k :: i :: a) where
  perm := .swap k i a
  work env m := by
    simp only [workOf, foldlM_cons, Option.bind_eq_bind, ← Option.bind_assoc]
    rw [work_comm hi hk hind]

theorem forall₂_trans {as bs cs : List Code} (h : List.Forall₂ SameWork as bs)
    (h' : List.Forall₂ SameWork bs cs) : List.Forall₂ SameWork as cs := by
  induction h generalizing cs with
  | nil => exact h'
  | cons hab _ ih =>
    cases h' with
    | cons hbc h' => exact .cons (hab.trans hbc) (ih h')

end SameWork

theorem Exchanges.sameWork {code out : Code} (h : Exchanges code out) :
    List.Forall₂ SameWork (segments code) (segments out) := by
  obtain @⟨i, k, pre, post, hib, hkb, hind⟩ := h
  induction pre with
  | nil =>
    obtain ⟨s, ss, hs⟩ : ∃ s ss, segments post = s :: ss :=
      exists_cons_of_ne_nil (splitOnP_ne_nil _ post)
    rw [nil_append, nil_append, segments_cons, segments_cons, segments_cons,
      segments_cons, hib, hkb, hs]
    exact .cons (SameWork.swap hib hkb hind s) (List.forall₂_same.mpr fun a _ => SameWork.refl a)
  | cons x pre ih =>
    rw [cons_append, cons_append, segments_cons, segments_cons]
    split
    · exact .cons (.refl []) ih
    · generalize segments (pre ++ i :: k :: post) = ss, segments (pre ++ k :: i :: post) = ts at ih
      cases ih with
      | nil => exact .nil
      | cons h hs => exact .cons (h.cons x) hs

/-- Load-use scheduling permutes the instructions of a body. Every barrier stays in its place, and
instructions that conflict stay in order. Every stretch between barriers has its effect as before. -/
theorem scheduleLoads_reorders (code : Code) :
    (∃ σ, Reorders σ code (scheduleLoads code).code) ∧
      List.Forall₂ SameWork (segments code) (segments (scheduleLoads code).code) := by
  have hall := exchanges_scheduleLoads code
  generalize (scheduleLoads code).code = out at hall ⊢
  induction hall with
  | refl => exact ⟨⟨_, .refl code⟩, List.forall₂_same.mpr fun a _ => .refl a⟩
  | tail _ hstep ih =>
    obtain ⟨⟨σ, hσ⟩, hwork⟩ := ih
    obtain ⟨τ, hτ⟩ := hstep.reorders
    exact ⟨⟨_, hσ.trans hτ⟩, SameWork.forall₂_trans hwork hstep.sameWork⟩

end ClosureCodegen
