import Mathlib.Algebra.Order.BigOperators.Group.Finset
import Mathlib.Data.List.Perm.Subperm
import ClosureCodegen.Liveness.Solution

/-!
# The sweeps reach the least solution

A register is live behind an instruction if control can go from there to a use without passing a
definition.  `LiveBehind` says this by the path; `mem_solve_iff` says that the sets which the sweeps
end with have exactly these members.

That they have no others is an invariant of a single update, so members are among the registers that
are used somewhere.  That they have all of them needs the sweeps to have come to rest.  Every sweep that
changes something adds a member to some set, and `capacity` is more than that allows.
-/

namespace ClosureCodegen
open List

variable {i k j : Nat} {r : Reg} {places : List Nat} {s : LiveSet}
namespace FlowEquations

/-- The register is used on some way behind an instruction, before it is defined. -/
inductive LiveBehind (eqs : FlowEquations) (r : Reg) : Nat → Prop where
  | use {i j : Nat} : eqs.labels.getD i true = false → j ∈ eqs.next.getD i [] →
    r ∈ eqs.uses.getD j ∅ → LiveBehind eqs r i
  | pass {i j : Nat} : eqs.labels.getD i true = false → j ∈ eqs.next.getD i [] →
    r ∉ eqs.defs.getD j ∅ → LiveBehind eqs r j → LiveBehind eqs r i

variable {eqs : FlowEquations} {out : Array LiveSet}

theorem lt_size_of_labels (h : eqs.labels.getD i true = false) : i < eqs.size := by
  refine Decidable.byContradiction fun hn => ?_
  have hnone : eqs.labels[i]? = none := Array.getElem?_eq_none (Nat.le_of_not_lt hn)
  rw [Array.getD_eq_getD_getElem?, hnone] at h
  cases h

theorem LiveBehind.lt_size (h : eqs.LiveBehind r i) : i < eqs.size := by
  cases h with
  | use hl _ _ => exact lt_size_of_labels hl
  | pass hl _ _ _ => exact lt_size_of_labels hl

theorem mem_liveIn :
    r ∈ eqs.liveIn out i ↔ (r ∈ out.getD i ∅ ∧ r ∉ eqs.defs.getD i ∅) ∨ r ∈ eqs.uses.getD i ∅ := by
  rw [liveIn, LiveSet.mem_union, LiveSet.mem_diff]

/-! ## One update -/

@[simp] theorem size_update (i : Nat) : (eqs.update i out).size = out.size := by
  unfold update
  split
  · rfl
  · exact Array.size_setIfInBounds

theorem mem_update :
    r ∈ (eqs.update i out).getD k ∅ ↔
    r ∈ out.getD k ∅ ∨ (k = i ∧ i < out.size ∧ eqs.labels.getD i true = false ∧
      ∃ j ∈ eqs.next.getD i [], r ∈ eqs.liveIn out j) := by
  unfold update
  split
  · next hl => simp [hl]
  · next hl =>
    have hl' : eqs.labels.getD i true = false := Bool.eq_false_iff.mpr hl
    rw [Array.getD_eq_getD_getElem?, Array.getElem?_setIfInBounds]
    by_cases hk : i = k
    · subst hk
      by_cases hi : i < out.size
      · rw [if_pos rfl, if_pos hi, Option.getD_some, LiveSet.mem_foldl_union]
        constructor
        · rintro (⟨t, ht, hr⟩ | hr)
          · obtain ⟨j, hj, rfl⟩ := mem_map.mp ht
            exact .inr ⟨rfl, hi, hl', j, hj, hr⟩
          · exact .inl hr
        · rintro (hr | ⟨_, _, _, j, hj, hr⟩)
          · exact .inr hr
          · exact .inl ⟨_, mem_map_of_mem hj, hr⟩
      · simp [hi]
    · rw [if_neg hk, ← Array.getD_eq_getD_getElem?]
      exact ⟨.inl, fun h => h.resolve_right fun h => hk h.1.symm⟩

/-! ## One sweep -/

def updates (eqs : FlowEquations) (places : List Nat) (out : Array LiveSet) : Array LiveSet :=
  places.foldr eqs.update out

@[simp] theorem size_updates (places : List Nat) : (eqs.updates places out).size = out.size := by
  induction places with
  | nil => rfl
  | cons i places ih => exact (size_update i).trans ih

theorem mem_updates_of_mem (h : r ∈ out.getD k ∅) : r ∈ (eqs.updates places out).getD k ∅ := by
  induction places with
  | nil => exact h
  | cons i places ih => exact mem_update.mpr (.inl ih)

theorem eq_of_mem_iff {out' : Array LiveSet} (hs : out.size = out'.size)
    (h : ∀ k r, r ∈ out.getD k ∅ ↔ r ∈ out'.getD k ∅) : out = out' := by
  refine Array.ext hs fun k hk hk' => LiveSet.ext fun r => ?_
  have hr := h k r
  simpa only [Array.getD_eq_getD_getElem?, Array.getElem?_eq_getElem hk,
    Array.getElem?_eq_getElem hk', Option.getD_some] using hr

theorem update_eq_of_updates_eq (h : eqs.updates places out = out) (hi : i ∈ places) :
    eqs.update i out = out := by
  induction places with
  | nil => exact absurd hi not_mem_nil
  | cons k places ih =>
    have hrest : eqs.updates places out = out := by
      refine eq_of_mem_iff (size_updates places) fun j r => ⟨fun hr => ?_, mem_updates_of_mem⟩
      rw [← h]
      exact mem_update.mpr (.inl hr)
    rcases mem_cons.mp hi with rfl | hi
    · rw [updates, foldr_cons] at h
      rw [updates] at hrest
      rwa [hrest] at h
    · exact ih hrest hi

/-- What is live in front of a successor is live behind an instruction, once the sweeps rest. -/
theorem mem_of_sweep_eq (h : eqs.sweep out = out) (hs : out.size = eqs.size)
    (hl : eqs.labels.getD i true = false) (hj : j ∈ eqs.next.getD i []) (hr : r ∈ eqs.liveIn out j) :
    r ∈ out.getD i ∅ := by
  have hi : i < eqs.size := lt_size_of_labels hl
  rw [← update_eq_of_updates_eq h (mem_range.mpr hi)]
  exact mem_update.mpr (.inr ⟨rfl, hs ▸ hi, hl, j, hj, hr⟩)

/-- Every member is live by a path. -/
def Justified (eqs : FlowEquations) (out : Array LiveSet) : Prop :=
  ∀ k, ∀ r ∈ out.getD k ∅, eqs.LiveBehind r k

theorem Justified.updates (h : eqs.Justified out) (places : List Nat) :
    eqs.Justified (eqs.updates places out) := by
  induction places with
  | nil => exact h
  | cons i places ih =>
    intro k r hr
    rcases mem_update.mp hr with hr | ⟨rfl, _, hl, j, hj, hr⟩
    · exact ih k r hr
    · rcases mem_liveIn.mp hr with ⟨hr, hd⟩ | hr
      · exact .pass hl hj hd (ih j r hr)
      · exact .use hl hj hr

theorem justified_start : eqs.Justified (Array.replicate eqs.size ∅) := by
  intro k r hr
  rw [Array.getD_eq_getD_getElem?, Array.getElem?_replicate] at hr
  split at hr <;> exact absurd hr (LiveSet.not_mem_empty r)

/-! ## The sweeps come to rest -/

/-- The number of members of all sets. -/
def totalSize (eqs : FlowEquations) (out : Array LiveSet) : Nat :=
  ∑ k ∈ Finset.range eqs.size, (out.getD k ∅).size

theorem nodup_toList (s : LiveSet) : s.toList.Nodup :=
  s.ascending.imp fun {a b} h => by
    rintro rfl
    exact Reg.lt_irrefl a h

theorem size_le_of_subset {rs : List Reg} (h : ∀ r ∈ s, r ∈ rs) : s.size ≤ rs.length :=
  (subperm_of_subset (nodup_toList s) fun _ hr => h _ hr).length_le

theorem size_lt_of_ssubset {t : LiveSet} (h : ∀ r ∈ s, r ∈ t) (hne : s ≠ t) : s.size < t.size := by
  have hsub : s.toList.Subperm t.toList :=
    subperm_of_subset (nodup_toList s) fun _ hr => h _ hr
  refine Nat.lt_of_le_of_ne hsub.length_le fun he => hne ?_
  have hp := hsub.perm_of_length_le (Nat.le_of_eq he.symm)
  exact LiveSet.ext fun r => hp.mem_iff

/-- All registers that are used somewhere. -/
def usedRegs (eqs : FlowEquations) : List Reg :=
  eqs.uses.toList.flatMap LiveSet.toList

theorem mem_usedRegs (h : r ∈ eqs.uses.getD j ∅) : r ∈ eqs.usedRegs := by
  rw [Array.getD_eq_getD_getElem?] at h
  cases hj : eqs.uses[j]? with
  | none =>
    rw [hj] at h
    exact absurd h (LiveSet.not_mem_empty r)
  | some s =>
    rw [hj] at h
    refine mem_flatMap.mpr ⟨s, ?_, h⟩
    exact Array.mem_toList_iff.mpr (Array.mem_of_getElem? hj)

theorem LiveBehind.mem_usedRegs (h : eqs.LiveBehind r i) : r ∈ eqs.usedRegs := by
  induction h with
  | use _ _ hu => exact FlowEquations.mem_usedRegs hu
  | pass _ _ _ _ ih => exact ih

theorem Justified.totalSize_le (h : eqs.Justified out) :
    eqs.totalSize out ≤ eqs.size * eqs.usedRegs.length := by
  have hall : ∀ k ∈ Finset.range eqs.size, (out.getD k ∅).size ≤ eqs.usedRegs.length :=
    fun k _ => size_le_of_subset fun r hr => (h k r hr).mem_usedRegs
  have hsum := Finset.sum_le_card_nsmul _ _ _ hall
  rwa [Finset.card_range] at hsum

theorem totalSize_lt_sweep (hs : out.size = eqs.size) (h : eqs.sweep out ≠ out) :
    eqs.totalSize out < eqs.totalSize (eqs.sweep out) := by
  have hgrow : ∀ k, ∀ r ∈ out.getD k ∅, r ∈ (eqs.sweep out).getD k ∅ :=
    fun k r hr => mem_updates_of_mem hr
  obtain ⟨k, hk, hne⟩ : ∃ k < eqs.size, out.getD k ∅ ≠ (eqs.sweep out).getD k ∅ := by
    by_contra hall
    refine h (Array.ext ?_ fun k hk hk' => ?_)
    · exact size_updates _
    · have hset : out.getD k ∅ = (eqs.sweep out).getD k ∅ :=
        by_contra fun hne => hall ⟨k, hs ▸ hk', hne⟩
      simpa only [Array.getD_eq_getD_getElem?, Array.getElem?_eq_getElem hk,
        Array.getElem?_eq_getElem hk', Option.getD_some] using hset.symm
  exact Finset.sum_lt_sum (fun k _ => size_le_of_subset (hgrow k))
    ⟨k, Finset.mem_range.mpr hk, size_lt_of_ssubset (hgrow k) hne⟩

theorem sweep_settle {fuel : Nat} (hs : out.size = eqs.size) (hb : eqs.Justified out)
    (hf : eqs.size * eqs.usedRegs.length < eqs.totalSize out + fuel) :
    eqs.sweep (eqs.settle fuel out) = eqs.settle fuel out := by
  induction fuel generalizing out with
  | zero => exact absurd hb.totalSize_le (Nat.not_le_of_lt hf)
  | succ fuel ih =>
    rw [settle]
    by_cases h : eqs.sweep out = out
    · simp only [h, if_true]
    · have hlt := totalSize_lt_sweep hs h
      simp only [h, if_false]
      refine ih ((size_updates _).trans hs) (hb.updates _) ?_
      omega

@[simp] theorem size_settle (fuel : Nat) : (eqs.settle fuel out).size = out.size := by
  induction fuel generalizing out with
  | zero => rfl
  | succ fuel ih =>
    rw [settle]
    split
    · rfl
    · exact ih.trans (size_updates _)

theorem sweep_solve : eqs.sweep eqs.solve = eqs.solve := by
  refine sweep_settle Array.size_replicate justified_start ?_
  have hle : eqs.size * eqs.usedRegs.length < eqs.capacity := by
    exact Nat.lt_succ_of_le (Nat.mul_le_mul_left _ (Nat.le_add_left _ _))
  omega

@[simp] theorem size_solve : eqs.solve.size = eqs.size :=
  (size_settle _).trans Array.size_replicate

/-! ## The members -/

theorem Justified.settle (h : eqs.Justified out) (fuel : Nat) :
    eqs.Justified (eqs.settle fuel out) := by
  induction fuel generalizing out with
  | zero => exact h
  | succ fuel ih =>
    rw [FlowEquations.settle]
    split
    · exact h
    · exact ih (h.updates _)

theorem mem_solve_iff : r ∈ eqs.solve.getD i ∅ ↔ eqs.LiveBehind r i := by
  constructor
  · exact justified_start.settle _ i r
  · intro h
    induction h with
    | use hl hj hu => exact mem_of_sweep_eq sweep_solve size_solve hl hj (mem_liveIn.mpr (.inr hu))
    | pass hl hj hd _ ih =>
      exact mem_of_sweep_eq sweep_solve size_solve hl hj (mem_liveIn.mpr (.inl ⟨ih, hd⟩))

end FlowEquations
end ClosureCodegen
