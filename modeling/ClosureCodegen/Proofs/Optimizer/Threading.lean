import ClosureCodegen.Optimizer.Threading
import ClosureCodegen.Proofs.Code.Skeleton
import ClosureCodegen.Proofs.Optimizer.Tidy

/-!
# Threading keeps the behaviour of code

A threaded jump goes at once to where the old one comes through a chain of jumps.  While the first run
walks the chain, the second one stands in front of its jump and waits; it jumps together with the last
jump of the chain.  So a chain that leaves the body leaves it at the same moment in both runs, and one
that closes to a circle is walked up to the label at which it closes.

* `Heads`: the rest of such a chain.
* `behavesLike_thread`: the threaded body behaves as before.
-/

namespace ClosureCodegen
open List

variable {code rest : Code} {target l m : String} {n : Nat}

/-! ## Chains of jumps -/

/-- From here control comes, through so many idle instructions and jumps, to a jump to a label. -/
inductive Heads (code : Code) (target : String) : Nat → Code → Prop where
  | last {i : Instr} {rest : Code} : i.op = .j → i.label? = some target →
      Heads code target 0 (i :: rest)
  | idle {n : Nat} {i : Instr} {rest : Code} : i.op.isIdle = true → Heads code target n rest →
      Heads code target (n + 1) (i :: rest)
  | hop {n : Nat} {i : Instr} {l : String} {rest next : Code} : i.op = .j → i.label? = some l →
      codeAfter? l code = some next → Heads code target n next →
      Heads code target (n + 1) (i :: rest)

theorem Heads.append {idle : Code} (hidle : ∀ i ∈ idle, i.op.isIdle = true)
    (h : Heads code target n rest) : Heads code target (n + idle.length) (idle ++ rest) := by
  induction idle with
  | nil => exact h
  | cons i idle ih =>
    rw [forall_mem_cons] at hidle
    exact .idle hidle.1 (ih hidle.2)

theorem jumpBehind?_eq_some (h : jumpBehind? code (labelTable code) l = some m) :
    ∃ idle i rest,
      codeAfter? l code = some (idle ++ i :: rest) ∧ (∀ k ∈ idle, k.op.isIdle = true) ∧
        i.op = .j ∧ i.label? = some m := by
  simp only [jumpBehind?, Option.bind_eq_bind, Option.bind_eq_some_iff] at h
  obtain ⟨p, hp, i, hi, h⟩ := h
  split at h
  case isFalse => cases h
  next hop =>
  obtain ⟨-, idle, rest, hdrop, hidle⟩ := find?_eq_some_iff_append.mp hi
  refine ⟨idle, i, rest, ?_, fun k hk => by simpa using hidle k hk, hop, h⟩
  rw [codeAfter?_eq, ← position?_labelTable, hp, Option.map_some, hdrop]

theorem heads_followJumps (fuel : Nat) (seen : List String)
    (h : jumpBehind? code (labelTable code) l = some m) :
    ∃ n rest, codeAfter? l code = some rest ∧
      Heads code (followJumps code (labelTable code) fuel seen m) n rest := by
  induction fuel generalizing seen l m with
  | zero =>
    obtain ⟨idle, i, rest, hafter, hidle, hop, hlabel⟩ := jumpBehind?_eq_some h
    exact ⟨_, _, hafter, .append hidle (.last hop hlabel)⟩
  | succ fuel ih =>
    obtain ⟨idle, i, rest, hafter, hidle, hop, hlabel⟩ := jumpBehind?_eq_some h
    rw [followJumps]
    split
    · exact ⟨_, _, hafter, .append hidle (.last hop hlabel)⟩
    · split
      · next next hnext =>
        obtain ⟨n, target, htarget, hheads⟩ := ih (m :: seen) hnext
        exact ⟨_, _, hafter, .append hidle (.hop hop hlabel htarget hheads)⟩
      · exact ⟨_, _, hafter, .append hidle (.last hop hlabel)⟩

theorem heads_finalTarget (h : finalTarget code (labelTable code) l ≠ l) :
    ∃ n rest, codeAfter? l code = some rest ∧
      Heads code (finalTarget code (labelTable code) l) n rest := by
  rw [finalTarget, followJumps, if_neg not_mem_nil] at h ⊢
  split at h
  · next next hnext => exact heads_followJumps _ _ hnext
  · exact absurd rfl h

theorem Heads.exists_jump (h : Heads code target n rest) (hs : rest <:+ code) :
    ∃ i ∈ code, i.op = .j ∧ i.label? = some target := by
  induction h with
  | last hop hl => exact ⟨_, hs.subset mem_cons_self, hop, hl⟩
  | idle _ _ ih => exact ih ((suffix_cons _ _).trans hs)
  | hop _ _ hnext _ ih => exact ih (codeAfter?_suffix hnext)

/-! ## Instructions with another target -/

namespace Instr

variable {i : Instr}

theorem setFirstLabel_of_findSome? {os : List Operand} (h : os.findSome? Operand.label? = some l) :
    setFirstLabel l os = os := by
  induction os with
  | nil => rfl
  | cons o os ih =>
    cases o with
    | label m =>
      obtain rfl : m = l := Option.some.inj h
      rfl
    | _ => exact congrArg _ (ih h)

theorem setLabel_of_label? (h : i.label? = some l) : i.setLabel l = i := by
  rw [setLabel, setFirstLabel_of_findSome? h]

theorem IsTidy.eq_of_transfers (hi : i.IsTidy) (hop : i.op = .j ∨ i.op.isBranch = true) :
    (∃ l, i = ⟨.j, [.label l]⟩) ∨
      ∃ r s l, i.op.isBranch = true ∧ i = ⟨i.op, [.reg r, .reg s, .label l]⟩ := by
  have hfit := fits_of_decodes hi.decodes
  rcases hop with hop | hop
  · rw [hop] at hfit
    obtain ⟨l, ho⟩ := hfit
    exact .inl ⟨l, by rw [← hop, ← ho]⟩
  · rw [Opcode.family_of_isBranch hop] at hfit
    obtain ⟨r, s, l, ho⟩ := hfit
    exact .inr ⟨r, s, l, hop, by rw [← ho]⟩

/-- Whether control leaves for the target of a jump or a branch does not depend on the target. -/
theorem IsTidy.hartStep_setLabel (hi : i.IsTidy) (hop : i.op = .j ∨ i.op.isBranch = true)
    (env : HartEnvironment) : ∃ test : Hart → Bool, ∀ (code rest : Code) (l : String) (h : Hart)
      (n : Nat), hartStep env code ⟨i.setLabel l :: rest, h, n⟩ =
        if test h then (Transfer.jump l).continueOn code rest h n else .next [] ⟨rest, h, n⟩ := by
  rcases hi.eq_of_transfers hop with ⟨m, rfl⟩ | ⟨r, s, m, hb, he⟩
  · exact ⟨fun _ => true, fun _ _ _ _ _ => rfl⟩
  · obtain ⟨test, htest⟩ := exists_test hb env.toEnvironment
    refine ⟨fun h => test (h.get r) (h.get s), fun code rest l h n => ?_⟩
    have hcallee : (⟨i.op, [.reg r, .reg s, .label l]⟩ : Instr).callee? h = none := by
      refine Option.eq_none_iff_forall_ne_some.mpr fun callee hc => ?_
      rcases Instr.op_of_callee? hc with hop | hop <;> rw [show i.op = _ from hop] at hb <;> cases hb
    have hset : i.setLabel l = ⟨i.op, [.reg r, .reg s, .label l]⟩ := by rw [he]; rfl
    simp only [hset, hartStep, hcallee, htest]
    split <;> rfl

theorem IsTidy.hartStep_jump (hi : i.IsTidy) (hop : i.op = .j) (hl : i.label? = some l)
    (env : HartEnvironment) (code rest : Code) (h : Hart) (n : Nat) :
    hartStep env code ⟨i :: rest, h, n⟩ = (Transfer.jump l).continueOn code rest h n := by
  obtain ⟨op, os⟩ := i
  obtain rfl : op = .j := hop
  obtain ⟨m, rfl⟩ := fits_of_decodes hi.decodes
  obtain rfl : m = l := Option.some.inj hl
  rfl

theorem hartStep_idle (hop : i.op.isIdle = true) (env : HartEnvironment) (code rest : Code) (h : Hart)
    (n : Nat) : hartStep env code ⟨i :: rest, h, n⟩ = .next [] ⟨rest, h, n⟩ := by
  obtain ⟨op, os⟩ := i
  cases op <;> first | rfl | cases hop

theorem IsTidy.setLabel (hi : i.IsTidy) (hop : i.op = .j ∨ i.op.isBranch = true) (l : String) :
    (i.setLabel l).IsTidy := by
  rcases hi.eq_of_transfers hop with ⟨m, rfl⟩ | ⟨r, s, m, hb, he⟩
  · exact ⟨rfl, nofun, rfl, nofun, .inr nofun, by simp [Instr.setLabel, setFirstLabel]⟩
  · obtain ⟨op, os⟩ := i
    cases he
    have hlabel : (⟨op, [.reg r, .reg s, .label m]⟩ : Instr).isLabel = false := isLabel_of_isBranch hb
    have hdec : (⟨op, [.reg r, .reg s, .label l]⟩ : Instr).decode? = some ⟨.branch op l, [r, s], []⟩ :=
      decode?_of_decodes (by dsimp only; rw [Opcode.family_of_isBranch hb]; exact .branch r s l)
    refine ⟨by rw [Instr.setLabel]; exact congrArg _ hdec, fun h => ?_, hi.isMachine, hi.zero, hi.stack,
      by simp [Instr.setLabel, setFirstLabel]⟩
    cases hlabel.symm.trans h

end Instr

/-! ## The threaded body -/

def threadInstr (select : Opcode → Bool) (code : Code) (i : Instr) : Instr :=
  ((threadedTarget? code (labelTable code) select i).map i.setLabel).getD i

theorem thread_eq (select : Opcode → Bool) (code : Code) :
    (thread select code).1 = code.map (threadInstr select code) :=
  map_map

/-- What an instruction becomes: it stays as it is, or it gets the target to which a chain of fewer
than so many steps leads from its own. -/
inductive Threaded (select : Opcode → Bool) (code : Code) (n : Nat) (i : Instr) : Instr → Prop where
  | same : Threaded select code n i i
  | along {m : Nat} {l target : String} {rest : Code} : select i.op = true → i.label? = some l →
      codeAfter? l code = some rest → Heads code target m rest → m < n →
      Threaded select code n i (i.setLabel target)

theorem threaded_threadInstr (select : Opcode → Bool) (code : Code) (i : Instr) :
    ∃ n, Threaded select code n i (threadInstr select code i) := by
  unfold threadInstr threadedTarget?
  split
  case isFalse => exact ⟨0, .same⟩
  next hsel =>
  cases hl : i.label? with
  | none => exact ⟨0, .same⟩
  | some l =>
    simp only [Option.bind_some]
    split
    · exact ⟨0, .same⟩
    · next ht =>
      obtain ⟨n, rest, hafter, hheads⟩ := heads_finalTarget ht
      exact ⟨n + 1, .along hsel hl hafter hheads (Nat.lt_succ_self n)⟩

section Thread

variable {select : Opcode → Bool} {i : Instr}

theorem isLabel_threadInstr (i : Instr) : (threadInstr select code i).isLabel = i.isLabel := by
  obtain ⟨n, h⟩ := threaded_threadInstr select code i
  generalize threadInstr select code i = k at h
  cases h <;> rfl

variable (hsel : ∀ op, select op = true → op = .j ∨ op.isBranch = true)

include hsel

theorem threadInstr_of_isLabel (hi : i.isLabel = true) : threadInstr select code i = i := by
  obtain ⟨n, h⟩ := threaded_threadInstr select code i
  generalize threadInstr select code i = k at h
  cases h with
  | same => rfl
  | along hop =>
    rw [of_decide_eq_true hi] at hop
    rcases hsel _ hop with h | h <;> cases h

theorem isTidy_threadInstr (hi : i.IsTidy) : (threadInstr select code i).IsTidy := by
  obtain ⟨n, h⟩ := threaded_threadInstr select code i
  generalize threadInstr select code i = k at h
  cases h with
  | same => exact hi
  | along hop => exact hi.setLabel (hsel _ hop) _

theorem codeAfter?_thread (l : String) (rest : Code) :
    codeAfter? l (rest.map (threadInstr select code)) =
      (codeAfter? l rest).map (List.map (threadInstr select code)) := by
  induction rest with
  | nil => rfl
  | cons i rest ih =>
    rw [map_cons, codeAfter?_cons, codeAfter?_cons, ih, isLabel_threadInstr]
    cases hi : i.isLabel with
    | true =>
      rw [threadInstr_of_isLabel hsel hi]
      cases codeAfter? l rest with
      | some t => rfl
      | none =>
        simp only [Option.map_none, Option.none_or]
        split <;> rfl
    | false => cases codeAfter? l rest <;> rfl

/-! ## Two runs -/

omit hsel in
/-- The configurations of the run of a body and of the threaded body: either they are at the same
place, or the first run is on a chain of jumps while the second one is about to jump to its end. -/
inductive Chases (env : HartEnvironment) (select : Opcode → Bool) (code : Code) :
    Nat → HartConfig → HartConfig → Prop where
  | level {n : Nat} {rest : Code} {h : Hart} {calls : Nat} : rest <:+ code →
      (∀ i ∈ rest.head?, Threaded select code n i (threadInstr select code i)) →
      Chases env select code n ⟨rest, h, calls⟩ ⟨rest.map (threadInstr select code), h, calls⟩
  | behind {n : Nat} {target : String} {rest rest' : Code} {h : Hart} {calls : Nat} :
      rest <:+ code → Heads code target n rest →
      hartStep env (code.map (threadInstr select code)) ⟨rest', h, calls⟩ =
        (Transfer.jump target).continueOn (code.map (threadInstr select code)) [] h calls →
      Chases env select code n ⟨rest, h, calls⟩ ⟨rest', h, calls⟩

omit hsel in
theorem exists_chases (env : HartEnvironment) (hs : rest <:+ code) (h : Hart) (calls : Nat) :
    ∃ n, Chases env select code n ⟨rest, h, calls⟩
      ⟨rest.map (threadInstr select code), h, calls⟩ := by
  cases rest with
  | nil => exact ⟨0, .level hs nofun⟩
  | cons i rest =>
    obtain ⟨n, hi⟩ := threaded_threadInstr select code i
    refine ⟨n, .level hs ?_⟩
    rintro k ⟨⟩
    exact hi

theorem matches_chases (env : HartEnvironment) {t : Transfer} {rest' : Code} {h : Hart}
    {calls : Nat} (hs : t = .next → rest <:+ code)
    (hrest : t = .next → rest' = rest.map (threadInstr select code)) :
    (t.continueOn code rest h calls).Matches (fun c d => ∃ n, Chases env select code n c d)
      (t.continueOn (code.map (threadInstr select code)) rest' h calls) := by
  cases t with
  | next =>
    rw [hrest rfl]
    exact .next [] (exists_chases env (hs rfl) h calls)
  | branch l | jump l =>
    simp only [Transfer.continueOn, codeAfter?_thread hsel]
    cases ht : codeAfter? l code with
    | none => exact .exit _ _
    | some t => exact .next [] (exists_chases env (codeAfter?_suffix ht) h calls)
  | exit x => exact .exit _ _

variable (htidy : ∀ i ∈ code, i.IsTidy)
include htidy

theorem chases_step {env : HartEnvironment} {c d : HartConfig} (hc : Chases env select code n c d) :
    (∃ c' m, hartStep env code c = .next [] c' ∧ m < n ∧ Chases env select code m c' d) ∨
      (hartStep env code c).Matches (fun c d => ∃ m, Chases env select code m c d)
        (hartStep env (code.map (threadInstr select code)) d) := by
  cases hc with
  | @level rest h calls hs hhead =>
    cases rest with
    | nil => exact .inr (.exit _ _)
    | cons i rest =>
      have hi := htidy i (hs.subset mem_cons_self)
      have hsuf : rest <:+ code := (suffix_cons i rest).trans hs
      have hthread := hhead i rfl
      rw [map_cons]
      generalize threadInstr select code i = k at hthread
      cases hthread with
      | same =>
        refine .inr ?_
        simp only [hartStep]
        cases i.callee? h with
        | some callee => exact .next _ (exists_chases env hsuf _ _)
        | none =>
          cases i.run env.toEnvironment h with
          | none => exact .stuck
          | some r => exact matches_chases hsel env (fun _ => hsuf) fun _ => rfl
      | @along m l target next hop hl hafter hheads hm =>
        obtain ⟨test, htest⟩ := hi.hartStep_setLabel (hsel _ hop) env
        have hstep := htest code rest l h calls
        rw [Instr.setLabel_of_label? hl] at hstep
        cases ht : test h with
        | false =>
          rw [hstep, htest, ht]
          exact .inr (.next [] (exists_chases env hsuf h calls))
        | true =>
          rw [ht, if_pos rfl, Transfer.continueOn, hafter] at hstep
          refine .inl ⟨⟨next, h, calls⟩, m, hstep, hm, .behind (codeAfter?_suffix hafter) hheads ?_⟩
          rw [htest, ht]
          rfl
  | @behind target rest rest' h calls hs hheads hstep' =>
    have htidy' : ∀ {i : Instr} {tail : Code}, i :: tail <:+ code → i.IsTidy :=
      fun hs => htidy _ (hs.subset mem_cons_self)
    cases hheads with
    | last hop hl =>
      rw [(htidy' hs).hartStep_jump hop hl, hstep']
      exact .inr (matches_chases hsel env (by rintro ⟨⟩) (by rintro ⟨⟩))
    | idle hidle hrest =>
      exact .inl ⟨_, _, Instr.hartStep_idle hidle env code _ h calls, Nat.lt_succ_self _,
        .behind ((suffix_cons _ _).trans hs) hrest hstep'⟩
    | @hop m i l tail next hop hl hafter hrest =>
      have hstep := (htidy' hs).hartStep_jump hop hl env code tail h calls
      rw [Transfer.continueOn, hafter] at hstep
      exact .inl ⟨_, _, hstep, Nat.lt_succ_self _, .behind (codeAfter?_suffix hafter) hrest hstep'⟩

theorem behavesLike_thread (env : HartEnvironment) (h : Hart) (calls : Nat) :
    BehavesLike (hartStep env code) ⟨code, h, calls⟩
      (hartStep env (thread select code).1) ⟨(thread select code).1, h, calls⟩ := by
  have hsim : Simulation (hartStep env code)
      (hartStep env (code.map (threadInstr select code))) (Chases env select code) :=
    .of_matches fun hc => (chases_step hsel htidy hc).imp_right fun hm => ⟨0, _, rfl, hm⟩
  obtain ⟨n, hstart⟩ := exists_chases env (suffix_refl code) h calls
  rw [thread_eq]
  exact hsim.behavesLike hstart

theorem isTidy_thread : ∀ i ∈ (thread select code).1, i.IsTidy := by
  rw [thread_eq]
  exact forall_mem_map.mpr fun i hi => isTidy_threadInstr hsel (htidy i hi)

end Thread

/-! ## Threaded jumps -/

/-- Changes the target of a jump. -/
def Joint.retarget (f : String → String) : Joint → Joint
  | .jump l => .jump (f l)
  | j => j

theorem Arranged.retarget {f : String → String} {js : List Joint} (h : Arranged js)
    (hf : ∀ l, .jump l ∈ js → endifOf? (f l) = none) : Arranged (js.map (Joint.retarget f)) := by
  induction h with
  | nil => exact .nil
  | jump _ _ ih =>
    exact .jump (hf _ mem_cons_self) (ih fun l hl => hf l (mem_cons_of_mem _ hl))
  | cond hm _ _ _ _ ih₁ ih₂ ih₃ =>
    simp only [map_cons, map_append]
    refine .cond hm (hf _ (by simp)) (ih₁ fun l hl => hf l ?_) (ih₂ fun l hl => hf l ?_)
      (ih₃ fun l hl => hf l ?_)
    all_goals simp [hl]

theorem joint?_threadJump {i : Instr} (hi : i.IsTidy) :
    (threadInstr (· = .j) code i).joint? =
      i.joint?.map (Joint.retarget (finalTarget code (labelTable code))) := by
  unfold threadInstr threadedTarget?
  by_cases hop : i.op = .j
  · obtain ⟨op, os⟩ := i
    obtain rfl : op = .j := hop
    obtain ⟨l, rfl⟩ := Instr.fits_of_decodes hi.decodes
    rw [if_pos (decide_eq_true rfl)]
    show (Option.getD (Option.map _ (if _ then _ else _)) (Instr.jump l)).joint? =
      some (.jump (finalTarget code (labelTable code) l))
    split
    · next ht => rw [ht]; rfl
    · rfl
  · rw [if_neg (by simpa using hop)]
    show i.joint? = _
    cases hj : i.joint? with
    | none => rfl
    | some j =>
      cases j with
      | label l | branch l => rfl
      | jump l =>
        -- a direct tail call is no machine instruction
        have hm := hi.isMachine
        rw [(Instr.joint?_eq_jump hj).1.resolve_left hop] at hm
        cases hm

theorem isArranged_threadJumps (hc : IsArranged code) (htidy : ∀ i ∈ code, i.IsTidy) :
    IsArranged (threadJumps code).1 := by
  rw [threadJumps, thread_eq]
  have hsel : ∀ op, decide (op = Opcode.j) = true → op = .j ∨ op.isBranch = true :=
    fun op h => .inl (of_decide_eq_true h)
  have hskel : ∀ rest, (∀ i ∈ rest, i ∈ code) → skeleton (rest.map (threadInstr (· = .j) code)) =
      (skeleton rest).map (Joint.retarget (finalTarget code (labelTable code))) := by
    intro rest hrest
    rw [skeleton, skeleton, filterMap_map, map_filterMap]
    exact filterMap_congr fun i hi => joint?_threadJump (htidy i (hrest i hi))
  have htarget : ∀ l, .jump l ∈ skeleton code →
      endifOf? (finalTarget code (labelTable code) l) = none := by
    intro l hl
    obtain ⟨i, hi, hj⟩ := mem_filterMap.mp hl
    by_cases ht : finalTarget code (labelTable code) l = l
    · rw [ht]
      exact hc.jumps hi hj
    · obtain ⟨n, rest, hafter, hheads⟩ := heads_finalTarget ht
      obtain ⟨k, hk, hop, hlabel⟩ := hheads.exists_jump (codeAfter?_suffix hafter)
      exact hc.jumps hk (Instr.joint?_of_jump hop hlabel)
  have hnames : labelNames (code.map (threadInstr (· = .j) code)) = labelNames code := by
    rw [labelNames_eq, labelNames_eq, hskel code fun _ hi => hi, filterMap_map]
    congr 1
    funext j
    cases j <;> rfl
  obtain ⟨⟨entry, f, body, hcode, hentry, hbody⟩, hnodup⟩ := hc
  refine ⟨⟨entry, f, body.map (threadInstr (· = .j) code), ?_, hentry, ?_⟩, by rwa [hnames]⟩
  · conv_lhs => rw [hcode, map_cons, ← hcode]
    rw [threadInstr_of_isLabel hsel (Instr.joint?_eq_label hentry).1]
  · rw [hskel body fun i hi => by rw [hcode]; exact mem_cons_of_mem _ hi]
    refine hbody.retarget fun l hl => htarget l ?_
    rw [hcode, skeleton_cons_some hentry]
    exact mem_cons_of_mem _ hl

end ClosureCodegen
