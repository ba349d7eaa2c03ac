import ClosureCodegen.Proofs.Optimizer.Arrangement
import ClosureCodegen.Proofs.Optimizer.Threading
import ClosureCodegen.Proofs.Optimizer.Vectors

/-!
# The rounds of the optimizer

Each pass relies on code that is arranged and tidy, and leaves such code behind.  So the passes can be
put together in rounds, as many as one likes, and with them what each does to behaviour: nothing.  A
round fails only if an offset leaves the range of a word.

* `optimize_keeps`: the whole optimizer, on code that is arranged and tidy.
-/

namespace ClosureCodegen

variable {code : Code} {v : Vectorized}

/-! ## What the passes rely on -/

/-- Code that the optimizer can work on. -/
structure Optimizable (code : Code) : Prop where
  arranged : IsArranged code
  tidy : ∀ i ∈ code, i.IsTidy

/-- Two bodies behave alike, whatever surrounds them and wherever they start. -/
def SameBehaviour (code code' : Code) : Prop :=
  ∀ (env : HartEnvironment) (h : Hart) (n : Nat),
    BehavesLike (hartStep env code) ⟨code, h, n⟩ (hartStep env code') ⟨code', h, n⟩

theorem SameBehaviour.refl (code : Code) : SameBehaviour code code := fun _ _ _ => .refl _ _

theorem SameBehaviour.trans {a b c : Code} (h : SameBehaviour a b) (h' : SameBehaviour b c) : SameBehaviour a c :=
  fun env hart n => (h env hart n).trans (h' env hart n)

/-! ## Simplification keeps code arranged -/

theorem Instr.IsStraight.joint? {i : Instr} (hi : i.IsStraight) : i.joint? = none := by
  obtain ⟨op, os⟩ := i
  have hf := hi.family
  have hl : op ≠ .label := of_decide_eq_false hi.noLabel
  exact joint?_of_isInner (by cases op <;> first | rfl | exact absurd rfl hl | exact nomatch hf)

namespace Simplifies

variable {P : Instr → Prop} {code' : Code}

theorem skeleton_eq (h : Simplifies P code code') : skeleton code' = skeleton code := by
  have hnone : ∀ {a : Code}, (∀ i ∈ a, i.IsStraight) → skeleton a = [] :=
    fun ha => skeleton_eq_nil.mpr fun i hi => (ha i hi).joint?
  induction h with
  | refl => rfl
  | step pre post hs _ _ ih =>
    simp only [ih, skeleton_append, hnone hs.straight, hnone hs.straight']

theorem head?_eq (h : Simplifies P code code') {entry : Instr} (hentry : entry.isLabel = true)
    (hcode : code.head? = some entry) : code'.head? = some entry := by
  induction h with
  | refl => exact hcode
  | @step a a' code' pre post hs _ _ ih =>
    refine ih ?_
    cases pre with
    | cons i pre => exact hcode
    | nil =>
      cases a with
      | nil => exact absurd rfl hs.ne_nil
      | cons i a =>
        obtain rfl : i = entry := Option.some.inj hcode
        cases hentry.symm.trans (hs.straight i List.mem_cons_self).noLabel

theorem optimizable (h : Simplifies Instr.IsTidy code code') (hc : Optimizable code) :
    Optimizable code' := by
  refine ⟨hc.arranged.of_skeleton_eq ?_ h.skeleton_eq, h.forall_mem hc.tidy⟩
  obtain ⟨entry, f, body, rfl, hentry, -⟩ := hc.arranged.body
  exact h.head?_eq (Instr.joint?_eq_label hentry).1 rfl

theorem sameBehaviour (h : Simplifies P code code') : SameBehaviour code code' := h.behavesLike

end Simplifies

/-! ## One round -/

/-- What a pass is to do: it fails only for want of range, keeps code such that the next pass can work
on it, and changes nothing about its behaviour. -/
structure Preserves {α : Type} (code : Code) (result : Outcome α) (out : α → Code) : Prop where
  overflows : result.OverflowsOnly
  optimizable : ∀ a, result = .ok a → Optimizable (out a)
  sameBehaviour : ∀ a, result = .ok a → SameBehaviour code (out a)

namespace Preserves

variable {α β : Type}

theorem bind {x : Outcome α} {out : α → Code} {f : α → Outcome β} {out' : β → Code}
    (hx : Preserves code x out) (hf : ∀ a, Optimizable (out a) → Preserves (out a) (f a) out') :
    Preserves code (x >>= f) out' := by
  have hnext : ∀ a, x = .ok a → Preserves (out a) (f a) out' := fun a ha =>
    hf a (hx.optimizable a ha)
  refine ⟨.bind hx.overflows fun a ha => (hnext a ha).overflows, fun b hb => ?_, fun b hb => ?_⟩
  · obtain ⟨a, ha, hb⟩ := Outcome.bind_eq_ok.mp hb
    exact (hnext a ha).optimizable b hb
  · obtain ⟨a, ha, hb⟩ := Outcome.bind_eq_ok.mp hb
    exact (hx.sameBehaviour a ha).trans ((hnext a ha).sameBehaviour b hb)

theorem simplified {a : α} {out : α → Code} (hc : Optimizable code)
    (h : Simplifies Instr.IsTidy code (out a)) : Preserves code (pure a : Outcome α) out := by
  refine ⟨.pure a, ?_, ?_⟩
  · rintro _ ⟨⟩
    exact h.optimizable hc
  · rintro _ ⟨⟩
    exact h.sameBehaviour

end Preserves

theorem preserves_vectorRound (hc : Optimizable code) :
    Preserves code (vectorRound code) Vectorized.code := by
  have hsimplifies : ∀ v, vectorRound code = .ok v → Simplifies Instr.IsTidy code v.code := by
    intro v hv
    obtain ⟨w, hw, hv⟩ := Outcome.bind_eq_ok.mp hv
    obtain ⟨out, hout, hv⟩ := Outcome.bind_eq_ok.mp hv
    cases hv
    have hfirst := simplifies_vectorize hc.tidy hw
    exact hfirst.trans (simplifies_alignVectors (hfirst.forall_mem hc.tidy) hout)
  refine ⟨?_, fun v hv => (hsimplifies v hv).optimizable hc, fun v hv => (hsimplifies v hv).sameBehaviour⟩
  refine .bind (overflowsOnly_vectorize code) fun w hw => ?_
  exact .bind (overflowsOnly_alignVectors ((simplifies_vectorize hc.tidy hw).forall_mem hc.tidy))
    fun _ _ => .pure _

theorem selects_jump (op : Opcode) (h : decide (op = .j) = true) : op = .j ∨ op.isBranch = true :=
  .inl (of_decide_eq_true h)

theorem preserves_coalesce (hc : Optimizable code) :
    Preserves code (coalesceStack (peephole code)) fun c => (threadJumps c.code).1 := by
  have hpeephole := simplifies_peephole isKept_isTidy hc.tidy
  obtain ⟨harranged, htidy⟩ := hpeephole.optimizable hc
  refine ⟨overflowsOnly_coalesceStack harranged, fun c h => ?_, fun c h => ?_⟩
  · obtain ⟨ha, ht⟩ := coalesceStack_keeps harranged htidy h
    exact ⟨isArranged_threadJumps ha ht, isTidy_thread selects_jump ht⟩
  · have ht := (coalesceStack_keeps harranged htidy h).2
    have hcoalesced : SameBehaviour (peephole code) c.code :=
      ((harranged.orderly htidy).defersTo h).behavesLike
    exact (hpeephole.sameBehaviour.trans hcoalesced).trans (behavesLike_thread selects_jump ht)

variable (options : OptimizerOptions)
include options

theorem preserves_optimizeRound (hv : Optimizable v.code) :
    Preserves v.code (optimizeRound options v) Vectorized.code := by
  have hcoalesce := preserves_coalesce hv
  unfold optimizeRound
  refine .bind hcoalesce fun c hthreaded => ?_
  dsimp only
  split
  · refine .bind (preserves_vectorRound hthreaded) fun w hw => ?_
    exact .simplified hw (simplifies_deleteNops hw.tidy)
  · exact .simplified hthreaded (simplifies_deleteNops hthreaded.tidy)

/-- A number of rounds, whatever it is. -/
theorem preserves_optimizeRounds (n : Nat) (hv : Optimizable v.code) :
    Preserves v.code (optimizeRounds options n v) Vectorized.code := by
  induction n generalizing v with
  | zero => exact .simplified hv (.refl _)
  | succ n ih => exact .bind (preserves_optimizeRound options hv) fun w hw => ih hw

/-- The optimizer as a whole. Threaded branches need not lead to arms any more, so that what comes out
is not arranged. -/
theorem optimize_sound (hc : Optimizable (expandShorthands code)) :
    (optimize options code).OverflowsOnly ∧
      ∀ v, optimize options code = .ok v → SameBehaviour (expandShorthands code) v.code := by
  have hrounds := preserves_optimizeRounds options options.rounds (v := ⟨expandShorthands code, 0⟩) hc
  refine ⟨.bind hrounds.overflows fun _ _ => .pure _, fun v hv => ?_⟩
  obtain ⟨w, hw, hv⟩ := Outcome.bind_eq_ok.mp hv
  cases hv
  have htidy := (hrounds.optimizable w hw).tidy
  have hselects : ∀ op : Opcode, op.isBranch = true → op = .j ∨ op.isBranch = true :=
    fun _ h => .inr h
  have hthreaded : SameBehaviour w.code (threadBranches w.code).1 := behavesLike_thread hselects htidy
  refine ((hrounds.sameBehaviour w hw).trans hthreaded).trans ?_
  dsimp only
  split
  · exact (simplifies_scheduleLoads (isTidy_thread hselects htidy)).sameBehaviour
  · exact .refl _

end ClosureCodegen
