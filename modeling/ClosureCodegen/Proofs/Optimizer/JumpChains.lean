import Mathlib.Data.List.TakeWhile
import Mathlib.Dynamics.PeriodicPts.Defs
import ClosureCodegen.Proofs.Code.Walks
import ClosureCodegen.Proofs.Optimizer.Threading

/-!
# Threading keeps every destination and settles at once

Take each label to the label that the jump behind it goes to, and to itself if there is no jump.  The
chain of jumps from a label is then the orbit of the label, and its end is the first *periodic* label of
the orbit: one without a jump behind it, or one on a circle.  Threading replaces the target of each
jump by the end of its chain.  Periodic labels are ends of their own chains, so circles and ends stay as
they are: an orbit of the threaded body is a part of the old one, with the same end, and a second round
finds nothing to do.

* `JumpsEnd`: the loop that follows a chain.  It never runs out of jumps: `jumpsEnd_finalTarget`.
* `thread_keeps_destinations`: what threading does to a body.
-/

namespace ClosureCodegen
open List

open Function

/-! ## Following a chain -/

/-- Jumps are followed from a label up to one that was seen before or that has no jump behind it. -/
inductive JumpsEnd (code : Code) : List String → String → String → Prop where
  | seen {seen : List String} {l : String} : l ∈ seen → JumpsEnd code seen l l
  | stop {seen : List String} {l : String} : l ∉ seen →
      jumpBehind? code (labelTable code) l = none → JumpsEnd code seen l l
  | jump {seen : List String} {l m t : String} : l ∉ seen →
      jumpBehind? code (labelTable code) l = some m → JumpsEnd code (l :: seen) m t →
      JumpsEnd code seen l t

/-- The label at which the jump behind a label goes on. -/
def hop (code : Code) (l : String) : String :=
  (jumpBehind? code (labelTable code) l).getD l

section Chains

variable {code : Code} {l t : String}

theorem mem_labelNames_of_jumpBehind? {m : String}
    (h : jumpBehind? code (labelTable code) l = some m) : l ∈ labelNames code := by
  obtain ⟨_, _, _, hafter, -⟩ := jumpBehind?_eq_some h
  by_contra hl
  cases hafter.symm.trans (codeAfter?_eq_none_iff.mpr hl)

/-- Each label is left by a jump at most once, so a bound on the jumps that exceeds the number of
labels is no bound. -/
theorem jumpsEnd_followJumps {fuel : Nat} {seen : List String} (hnodup : seen.Nodup)
    (hseen : seen ⊆ labelNames code) (hfuel : code.length < fuel + seen.length) :
    JumpsEnd code seen l (followJumps code (labelTable code) fuel seen l) := by
  induction fuel generalizing seen l with
  | zero =>
    have hle := (subperm_of_subset hnodup hseen).length_le
    have hnames : (labelNames code).length ≤ code.length := length_filterMap_le _ _
    omega
  | succ fuel ih =>
    rw [followJumps]
    split
    · next hl => exact .seen hl
    next hl =>
    split
    · next m hm =>
      refine .jump hl hm (ih (nodup_cons.mpr ⟨hl, hnodup⟩) ?_ ?_)
      · exact cons_subset.mpr ⟨mem_labelNames_of_jumpBehind? hm, hseen⟩
      · rw [length_cons]
        omega
    · next hnone => exact .stop hl hnone

theorem jumpsEnd_finalTarget (code : Code) (l : String) :
    JumpsEnd code [] l (finalTarget code (labelTable code) l) :=
  jumpsEnd_followJumps nodup_nil (nil_subset _) (Nat.lt_succ_self _)

/-- A chain ends at a periodic label of its orbit, and at once if it starts at one. The labels seen are
those of the orbit so far, without repetition. -/
theorem JumpsEnd.orbit {seen : List String} (h : JumpsEnd code seen l t) {x : String} {k : Nat}
    (hl : l = (hop code)^[k] x) (hseen : ∀ m, m ∈ seen ↔ ∃ j < k, m = (hop code)^[j] x)
    (hfresh : ∀ j < k, ∀ i < j, (hop code)^[i] x ≠ (hop code)^[j] x) :
    (∃ n, t = (hop code)^[n] x) ∧ t ∈ periodicPts (hop code) ∧
      (x ∈ periodicPts (hop code) → t = x) := by
  induction h generalizing k with
  | @seen seen l hmem =>
    obtain ⟨j, hj, hlj⟩ := (hseen l).mp hmem
    have hperiod : IsPeriodicPt (hop code) (k - j) l := by
      rw [IsPeriodicPt, IsFixedPt]
      conv_lhs => rw [hlj, ← iterate_add_apply, Nat.sub_add_cancel hj.le]
      exact hl.symm
    refine ⟨⟨k, hl⟩, mk_mem_periodicPts (by omega) hperiod, fun hx => ?_⟩
    have hback : (hop code)^[k - j] x = x :=
      isPeriodicPt_of_mem_periodicPts_of_isPeriodicPt_iterate hx (hlj ▸ hperiod)
    rcases Nat.eq_zero_or_pos j with rfl | hpos
    · exact hlj
    · exact absurd hback.symm (hfresh (k - j) (by omega) 0 (by omega))
  | @stop seen l _ hnone =>
    have hfix : IsPeriodicPt (hop code) 1 l := by
      rw [IsPeriodicPt, IsFixedPt, iterate_one, hop, hnone, Option.getD_none]
    refine ⟨⟨k, hl⟩, mk_mem_periodicPts Nat.one_pos hfix, fun hx => ?_⟩
    have hx1 : IsPeriodicPt (hop code) 1 x :=
      isPeriodicPt_of_mem_periodicPts_of_isPeriodicPt_iterate hx (hl ▸ hfix)
    rw [hl]
    exact hx1.isFixedPt.iterate k
  | @jump seen l m t hnew hm _ ih =>
    refine ih (k := k + 1) ?_ (fun m => ?_) fun j hj i hi => ?_
    · rw [iterate_succ_apply', ← hl, hop, hm, Option.getD_some]
    · rw [mem_cons, hseen, hl]
      constructor
      · rintro (h | ⟨j, hj, h⟩)
        · exact ⟨k, Nat.lt_succ_self k, h⟩
        · exact ⟨j, Nat.lt_succ_of_lt hj, h⟩
      · rintro ⟨j, hj, h⟩
        rcases Nat.lt_succ_iff_lt_or_eq.mp hj with hj | rfl
        · exact .inr ⟨j, hj, h⟩
        · exact .inl h
    · rcases Nat.lt_succ_iff_lt_or_eq.mp hj with hj | rfl
      · exact hfresh j hj i hi
      · exact fun heq => hnew ((hseen l).mpr ⟨i, hi, hl.trans heq.symm⟩)

theorem finalTarget_orbit (code : Code) (l : String) :
    (∃ n, finalTarget code (labelTable code) l = (hop code)^[n] l) ∧
      finalTarget code (labelTable code) l ∈ periodicPts (hop code) ∧
      (l ∈ periodicPts (hop code) → finalTarget code (labelTable code) l = l) :=
  (jumpsEnd_finalTarget code l).orbit (k := 0) rfl (by simp) (by simp)

/-! ## Chains and walks -/

/-- The first position, from one on, with an instruction that is not idle. -/
def nextBusy (code : Code) (p : Nat) : Nat :=
  p + ((code.drop p).takeWhile fun i => i.op.isIdle).length

theorem getElem?_nextBusy (code : Code) (p : Nat) :
    code[nextBusy code p]? = (code.drop p).find? fun i => !i.op.isIdle := by
  rw [find?_not_eq_head?_dropWhile, nextBusy, ← getElem?_drop, head?_eq_getElem?]
  nth_rewrite 1 [← takeWhile_append_dropWhile (p := fun i => i.op.isIdle) (l := code.drop p)]
  rw [getElem?_append_right (Nat.le_refl _), Nat.sub_self]

theorem jumpBehind?_eq (code : Code) (l : String) : jumpBehind? code (labelTable code) l =
    ((labelTable code).position? l).bind fun p => code[nextBusy code (p + 1)]?.bind fun i =>
      if i.op = .j then i.label? else none := by
  simp only [getElem?_nextBusy]
  rfl

/-- Where the walk to a label comes to rest, if there is no jump behind the label. -/
def landingBehind (code : Code) (l : String) : Landing :=
  match (labelTable code).position? l with
  | none => .outside l
  | some p =>
    if nextBusy code (p + 1) < code.length then .instr (nextBusy code (p + 1)) else .atEnd

theorem follow_idle {idle rest : Code} {p : Nat} (hcode : code.drop p = idle ++ rest)
    (hidle : ∀ i ∈ idle, i.op.isIdle = true) :
    (Move.go p).follow code idle.length = .go (p + idle.length) := by
  induction idle generalizing p with
  | nil => rfl
  | cons i idle ih =>
    rw [forall_mem_cons] at hidle
    have hi : code[p]? = some i := by rw [← head?_drop, hcode]; rfl
    have htail : code.drop (p + 1) = idle ++ rest := by rw [← tail_drop, hcode]; rfl
    rw [length_cons, Move.follow_go_succ, moveFrom_of_isIdle hi hidle.1, ih htail hidle.2]
    congr 1
    omega

theorem exists_follow_enter {p : Nat} (hp : (labelTable code).position? l = some p) :
    ∃ n, (enter code l).follow code n = .go (nextBusy code (p + 1)) := by
  have hsplit := (takeWhile_append_dropWhile (p := fun i : Instr => i.op.isIdle)
    (l := code.drop (p + 1))).symm
  rw [enter, hp]
  exact ⟨_, follow_idle hsplit fun i hi =>
    mem_takeWhile_imp (p := fun i : Instr => i.op.isIdle) hi⟩

theorem leadsTo_landingBehind (h : jumpBehind? code (labelTable code) l = none) :
    (enter code l).LeadsTo code (some (landingBehind code l)) := by
  cases hp : (labelTable code).position? l with
  | none => exact ⟨0, by rw [Move.follow_zero, enter, landingBehind, hp]⟩
  | some p =>
    obtain ⟨n, hn⟩ := exists_follow_enter hp
    have hmove : moveFrom code (nextBusy code (p + 1)) = .rest (landingBehind code l) := by
      rw [jumpBehind?_eq, hp, Option.bind_some] at h
      rw [landingBehind, hp]
      cases hi : code[nextBusy code (p + 1)]? with
      | none =>
        simp only [moveFrom, hi]
        rw [if_neg (Nat.not_lt.mpr (List.getElem?_eq_none_iff.mp hi))]
      | some i =>
        rw [hi, Option.bind_some] at h
        have hfind := find?_some ((getElem?_nextBusy code (p + 1)).symm.trans hi)
        have hbusy : i.op.isIdle = false := by simpa using hfind
        rw [moveFrom_of_busy hi hbusy fun hop => by rwa [if_pos hop] at h]
        simp only [(List.getElem?_eq_some_iff.mp hi).1, if_true]
    exact ⟨n + 1, by rw [Move.follow_add, hn, Move.follow_go_succ, hmove, Move.follow_zero]⟩

theorem exists_follow_hop {m : String} (h : jumpBehind? code (labelTable code) l = some m) :
    ∃ n, (enter code l).follow code (n + 1) = enter code m := by
  rw [jumpBehind?_eq] at h
  obtain ⟨p, hp, h⟩ := Option.bind_eq_some_iff.mp h
  obtain ⟨i, hi, h⟩ := Option.bind_eq_some_iff.mp h
  split at h
  · next hop =>
    obtain ⟨n, hn⟩ := exists_follow_enter hp
    exact ⟨n, by rw [Move.follow_add, hn, Move.follow_go_succ, moveFrom_of_jump hi hop h,
      Move.follow_zero]⟩
  · cases h

theorem leadsTo_iterate_hop (n : Nat) (l : String) (d : Option Landing) :
    (enter code ((hop code)^[n] l)).LeadsTo code d ↔ (enter code l).LeadsTo code d := by
  induction n generalizing l with
  | zero => rfl
  | succ n ih =>
    rw [iterate_succ_apply, ih, hop]
    cases hm : jumpBehind? code (labelTable code) l with
    | none => rfl
    | some m =>
      obtain ⟨k, hk⟩ := exists_follow_hop hm
      exact Move.leadsTo_iff_of_follow hk d

theorem leadsTo_none (h : ∀ n, jumpBehind? code (labelTable code) ((hop code)^[n] l) ≠ none) :
    (enter code l).LeadsTo code none := by
  have hlong : ∀ n, ∃ k ≥ n, (enter code l).follow code k = enter code ((hop code)^[n] l) := by
    intro n
    induction n with
    | zero => exact ⟨0, Nat.le_refl 0, Move.follow_zero _ _⟩
    | succ n ih =>
      obtain ⟨k, hk, hfollow⟩ := ih
      obtain ⟨m, hm⟩ := Option.ne_none_iff_exists'.mp (h n)
      obtain ⟨j, hj⟩ := exists_follow_hop hm
      refine ⟨k + (j + 1), by omega, ?_⟩
      rw [Move.follow_add, hfollow, hj, iterate_succ_apply', hop, hm, Option.getD_some]
  intro n
  obtain ⟨k, hk, hfollow⟩ := hlong n
  cases hn : (enter code l).follow code n with
  | go p => exact ⟨p, rfl⟩
  | rest s =>
    -- a label outside has no jump behind it
    rw [Move.follow_of_le hn hk, enter] at hfollow
    refine absurd ?_ (h n)
    rw [jumpBehind?_eq]
    split at hfollow
    · cases hfollow
    · next hnone => rw [hnone, Option.bind_none]

end Chains

/-! ## The threaded body -/

namespace Instr

theorem label?_setLabel {i : Instr} {l : String} (h : i.label? = some l) (m : String) :
    (i.setLabel m).label? = some m := by
  obtain ⟨op, os⟩ := i
  simp only [label?, setLabel] at h ⊢
  induction os with
  | nil => cases h
  | cons o os ih =>
    cases o with
    | label k => rfl
    | _ => exact ih h

end Instr

section Threaded

variable {select : Opcode → Bool} {code : Code} {l : String} {i : Instr}

theorem op_threadInstr (i : Instr) : (threadInstr select code i).op = i.op := by
  unfold threadInstr
  cases threadedTarget? code (labelTable code) select i <;> rfl

theorem threadInstr_of_not_select (h : select i.op = false) : threadInstr select code i = i := by
  rw [threadInstr, threadedTarget?, h]
  rfl

theorem threadInstr_of_select (h : select i.op = true) (hl : i.label? = some l) :
    threadInstr select code i = i.setLabel (finalTarget code (labelTable code) l) := by
  simp only [threadInstr, threadedTarget?, h, if_true, hl, Option.bind_some]
  split
  · next ht => rw [ht, Instr.setLabel_of_label? hl]; rfl
  · rfl

/-- What becomes of the target of a selected or other instruction. -/
def retarget (select : Opcode → Bool) (code : Code) (op : Opcode) (l : String) : String :=
  if select op then finalTarget code (labelTable code) l else l

theorem label?_threadInstr (i : Instr) :
    (threadInstr select code i).label? = i.label?.map (retarget select code i.op) := by
  cases hs : select i.op with
  | false =>
    rw [threadInstr_of_not_select hs]
    cases hl : i.label? <;> simp [retarget, hs]
  | true =>
    cases hl : i.label? with
    | none =>
      simp only [threadInstr, threadedTarget?, hs, if_true, hl, Option.bind_none]
      exact hl
    | some l =>
      rw [threadInstr_of_select hs hl, Instr.label?_setLabel hl, Option.map_some, retarget, hs, if_pos rfl]

theorem retarget_orbit (op : Opcode) (l : String) :
    (∃ n, retarget select code op l = (hop code)^[n] l) ∧
      (l ∈ periodicPts (hop code) → retarget select code op l = l) := by
  unfold retarget
  split
  · exact ⟨(finalTarget_orbit code l).1, (finalTarget_orbit code l).2.2⟩
  · exact ⟨⟨0, rfl⟩, fun _ => rfl⟩

theorem nextBusy_thread (p : Nat) :
    nextBusy (code.map (threadInstr select code)) p = nextBusy code p := by
  simp only [nextBusy, ← map_drop, takeWhile_map, length_map, Function.comp_def,
    op_threadInstr]

variable (hsel : ∀ op, select op = true → op = .j ∨ op.isBranch = true)

include hsel

theorem position?_thread (l : String) :
    (labelTable (code.map (threadInstr select code))).position? l = (labelTable code).position? l := by
  rw [position?_labelTable, position?_labelTable]
  have hlabel : ∀ rest : Code, labelIndex? l (rest.map (threadInstr select code)) =
      labelIndex? l rest := by
    intro rest
    induction rest with
    | nil => rfl
    | cons i rest ih =>
      rw [map_cons, labelIndex?, labelIndex?, ih, isLabel_threadInstr]
      cases hi : i.isLabel with
      | true => rw [threadInstr_of_isLabel hsel hi]
      | false => rfl
  exact hlabel code

theorem landingBehind_thread (l : String) :
    landingBehind (code.map (threadInstr select code)) l = landingBehind code l := by
  simp only [landingBehind, position?_thread hsel, nextBusy_thread, length_map]

theorem jumpBehind?_thread (l : String) :
    jumpBehind? (code.map (threadInstr select code))
        (labelTable (code.map (threadInstr select code))) l =
      (jumpBehind? code (labelTable code) l).map (retarget select code .j) := by
  simp only [jumpBehind?_eq, position?_thread hsel, nextBusy_thread, getElem?_map]
  cases (labelTable code).position? l with
  | none => rfl
  | some p =>
    simp only [Option.bind_some]
    cases code[nextBusy code (p + 1)]? with
    | none => rfl
    | some i =>
      simp only [Option.map_some, Option.bind_some, op_threadInstr]
      split
      · next hop => rw [label?_threadInstr, hop]
      · rfl

theorem hop_thread (l : String) : hop (code.map (threadInstr select code)) l =
    retarget select code .j (hop code l) := by
  simp only [hop, jumpBehind?_thread hsel]
  cases hm : jumpBehind? code (labelTable code) l with
  | some m => rfl
  | none =>
    have hfix : IsPeriodicPt (hop code) 1 l := by
      rw [IsPeriodicPt, IsFixedPt, iterate_one, hop, hm, Option.getD_none]
    exact ((retarget_orbit .j l).2 (mk_mem_periodicPts Nat.one_pos hfix)).symm

theorem mem_periodicPts_thread (h : l ∈ periodicPts (hop code)) :
    l ∈ periodicPts (hop (code.map (threadInstr select code))) := by
  obtain ⟨n, hn, hperiod⟩ := h
  have hsame : ∀ k, (hop (code.map (threadInstr select code)))^[k] l = (hop code)^[k] l := by
    intro k
    induction k with
    | zero => rfl
    | succ k ih =>
      rw [iterate_succ_apply', ih, hop_thread hsel, ← iterate_succ_apply' (hop code)]
      exact (retarget_orbit .j _).2 ⟨n, hn, hperiod.apply_iterate (k + 1)⟩
  exact ⟨n, hn, (hsame n).trans hperiod⟩

theorem exists_iterate_thread (n : Nat) (l : String) :
    ∃ k, (hop (code.map (threadInstr select code)))^[n] l = (hop code)^[k] l := by
  induction n with
  | zero => exact ⟨0, rfl⟩
  | succ n ih =>
    obtain ⟨k, hk⟩ := ih
    obtain ⟨j, hj⟩ := (@retarget_orbit select code .j (hop code ((hop code)^[k] l))).1
    refine ⟨j + (k + 1), ?_⟩
    rw [iterate_succ_apply', hk, hop_thread hsel, hj, iterate_add_apply, iterate_succ_apply']

theorem exists_iterate_eq_end {n : Nat}
    (hend : jumpBehind? code (labelTable code) ((hop code)^[n] l) = none) :
    ∃ k, (hop (code.map (threadInstr select code)))^[k] l = (hop code)^[n] l := by
  induction n using Nat.strongRecOn generalizing l with
  | _ n ih =>
  rcases Nat.eq_zero_or_pos n with rfl | hpos
  · exact ⟨0, rfl⟩
  obtain ⟨j, hj⟩ := (@retarget_orbit select code .j (hop code l)).1
  have hnew : hop (code.map (threadInstr select code)) l = (hop code)^[j + 1] l := by
    rw [hop_thread hsel, hj, iterate_succ_apply]
  rcases Nat.lt_or_ge n (j + 1) with hlt | hge
  · -- the first jump already goes to the end
    refine ⟨1, ?_⟩
    have hfix : IsFixedPt (hop code) ((hop code)^[n] l) := by
      rw [IsFixedPt, hop, hend, Option.getD_none]
    rw [iterate_one, hnew, ← Nat.sub_add_cancel hlt.le, iterate_add_apply]
    exact hfix.iterate _
  · have hrest : (hop code)^[n] l =
        (hop code)^[n - (j + 1)] (hop (code.map (threadInstr select code)) l) := by
      rw [hnew, ← iterate_add_apply, Nat.sub_add_cancel hge]
    rw [hrest] at hend ⊢
    obtain ⟨k, hk⟩ := ih (n - (j + 1)) (by omega) hend
    exact ⟨k + 1, by rw [iterate_succ_apply, hk]⟩

theorem leadsTo_thread (l : String) (d : Option Landing) :
    (enter (code.map (threadInstr select code)) l).LeadsTo (code.map (threadInstr select code)) d ↔
      (enter code l).LeadsTo code d := by
  by_cases h : ∃ n, jumpBehind? code (labelTable code) ((hop code)^[n] l) = none
  · obtain ⟨n, hn⟩ := h
    have hold := (leadsTo_iterate_hop n l _).mp (leadsTo_landingBehind hn)
    obtain ⟨k, hk⟩ := exists_iterate_eq_end hsel hn
    refine Move.leadsTo_iff_of_common hold ((leadsTo_iterate_hop k l _).mp ?_) d
    rw [hk, ← landingBehind_thread hsel]
    exact leadsTo_landingBehind (by rw [jumpBehind?_thread hsel, hn, Option.map_none])
  · rw [not_exists] at h
    refine Move.leadsTo_iff_of_common (leadsTo_none h) (leadsTo_none fun n => ?_) d
    obtain ⟨k, hk⟩ := exists_iterate_thread hsel n l
    rw [hk, jumpBehind?_thread hsel, Ne, Option.map_eq_none_iff]
    exact h k

theorem thread_thread : thread select (thread select code).1 = ((thread select code).1, 0) := by
  rw [thread_eq]
  have hnone : ∀ k ∈ code.map (threadInstr select code),
      threadedTarget? (code.map (threadInstr select code))
        (labelTable (code.map (threadInstr select code))) select k = none := by
    refine forall_mem_map.mpr fun i _ => ?_
    rw [threadedTarget?, op_threadInstr, label?_threadInstr]
    split
    · next hs =>
      cases i.label? with
      | none => rfl
      | some l =>
        have hend := mem_periodicPts_thread hsel (finalTarget_orbit code l).2.1
        simp only [Option.map_some, retarget, hs, if_true, Option.bind_some,
          (finalTarget_orbit _ _).2.2 hend]
    · rfl
  generalize code.map (threadInstr select code) = out at hnone
  refine Prod.ext ?_ (countP_eq_zero.mpr ?_)
  · rw [thread_eq]
    refine (map_congr_left fun k hk => ?_).trans (map_id out)
    rw [threadInstr, hnone k hk]
    rfl
  · refine forall_mem_map.mpr fun k hk => ?_
    simp only [hnone k hk, Option.isSome_none, Bool.false_eq_true, not_false_eq_true]

/-- What threading the selected instructions makes of a body. -/
structure Threads (select : Opcode → Bool) (code out : Code) : Prop where
  /-- The loop that looks for new targets comes to an end. -/
  ends : ∀ l, JumpsEnd code [] l (finalTarget code (labelTable code) l)
  /-- Selected instructions get the ends of their chains for targets, and nothing else changes. -/
  instrs : List.Forall₂ (fun i k => (select i.op = false ∨ i.label? = none) ∧ k = i ∨
    select i.op = true ∧ ∃ l, i.label? = some l ∧
      k = i.setLabel (finalTarget code (labelTable code) l)) code out
  /-- Jumps and branches lead where they led. -/
  destinations : ∀ (p : Nat) (i k : Instr) (l : String), code[p]? = some i → out[p]? = some k →
    i.op = .j ∨ i.op.isBranch = true → i.label? = some l →
      ∃ m, k.label? = some m ∧ ∀ d, (enter out m).LeadsTo out d ↔ (enter code l).LeadsTo code d

theorem threads_thread : Threads select code (thread select code).1 where
  ends := jumpsEnd_finalTarget code
  instrs := by
    rw [thread_eq, List.forall₂_map_right_iff, List.forall₂_same]
    intro i _
    cases hs : select i.op with
    | false => exact .inl ⟨.inl rfl, threadInstr_of_not_select hs⟩
    | true =>
      cases hl : i.label? with
      | none => exact .inl ⟨.inr rfl, by simp [threadInstr, threadedTarget?, hl]⟩
      | some l => exact .inr ⟨rfl, l, rfl, threadInstr_of_select hs hl⟩
  destinations p i k l hi hk _ hl := by
    rw [thread_eq] at hk ⊢
    rw [getElem?_map, hi, Option.map_some, Option.some.injEq] at hk
    refine ⟨retarget select code i.op l, by rw [← hk, label?_threadInstr, hl]; rfl, fun d => ?_⟩
    obtain ⟨n, hn⟩ := (@retarget_orbit select code i.op l).1
    rw [leadsTo_thread hsel, hn, leadsTo_iterate_hop]

end Threaded

/-- Threading jumps or branches keeps the destination of each of them, and a second time it changes
nothing. -/
theorem thread_keeps_destinations (code : Code) :
    (Threads (· = .j) code (threadJumps code).1 ∧
      threadJumps (threadJumps code).1 = ((threadJumps code).1, 0)) ∧
    Threads Opcode.isBranch code (threadBranches code).1 ∧
      threadBranches (threadBranches code).1 = ((threadBranches code).1, 0) := by
  have hjump : ∀ op : Opcode, decide (op = .j) = true → op = .j ∨ op.isBranch = true :=
    fun op h => .inl (of_decide_eq_true h)
  have hbranch : ∀ op : Opcode, op.isBranch = true → op = .j ∨ op.isBranch = true := fun op => .inr
  exact ⟨⟨threads_thread hjump, thread_thread hjump⟩, threads_thread hbranch, thread_thread hbranch⟩

end ClosureCodegen
