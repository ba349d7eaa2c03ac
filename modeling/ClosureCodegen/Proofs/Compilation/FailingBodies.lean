import ClosureCodegen.Proofs.Compilation.Optimization

/-!
# The body a failure is reported with

A compilation takes every body through two phases.  Whatever fails behind lowering is reported with the
body that it failed for: the stages of both phases enter the body before they do anything else, and
nothing else changes the current body.  A body is lowered before it is entered, though, so that a
failure of lowering is reported with the body in front, or with none.

* `Program.compile_current`: the body of a failure, and the one it is reported with.
* `compile_reportsOther`: a failure that is reported with another body.
-/

namespace ClosureCodegen
open List

/-! ## Steps that stay in a body -/

namespace Compile

variable {α β : Type} {s s' : CompileState}

def endState : EStateM.Result Failure CompileState α → CompileState
  | .ok _ s => s
  | .error _ s => s

/-- A step keeps the current body, whether it fails or not. -/
def Stays (x : Compile α) : Prop := ∀ s, (endState (x s)).current = s.current

theorem Stays.bind {x : Compile α} {f : α → Compile β} (hx : Stays x) (hf : ∀ a, Stays (f a)) :
    Stays (x >>= f) := by
  intro s
  change (endState (EStateM.bind x f s)).current = _
  have h := hx s
  unfold EStateM.bind
  cases hs : x s with
  | ok a s₁ =>
    rw [hs] at h
    exact (hf a s₁).trans h
  | error e s₁ => rwa [hs] at h

theorem stays_pure (a : α) : Stays (pure a) := fun _ => rfl

theorem stays_ofOutcome (x : Outcome α) : Stays (ofOutcome x) := fun s => by cases x <;> rfl

theorem stays_note {f : Session → Session} (hf : ∀ s, (f s).current = s.current) : Stays (note f) :=
  fun s => hf s.toSession

theorem stays_forM {f : α → Compile Unit} (hf : ∀ a, Stays (f a)) (as : List α) :
    Stays (as.forM f) := by
  induction as with
  | nil => exact stays_pure ()
  | cons a as ih => exact (hf a).bind fun _ => ih

theorem Stays.enter {name : String} {f : Unit → Compile α} (hf : ∀ a, Stays (f a))
    (s : CompileState) : (endState ((note (.enter name) >>= f) s)).current = some name :=
  hf () { s with toSession := s.toSession.enter name }

theorem bind_eq_error {x : Compile α} {f : α → Compile β} {e : Failure} :
    (x >>= f) s = .error e s' ↔
      x s = .error e s' ∨ ∃ a s₁, x s = .ok a s₁ ∧ f a s₁ = .error e s' := by
  change EStateM.bind x f s = _ ↔ _
  unfold EStateM.bind
  cases hx : x s with
  | error e₁ s₁ => simp
  | ok a s₁ => simp

theorem mapM_eq_error {f : α → Compile β} {as : List α} {e : Failure}
    (h : as.mapM f s = .error e s') :
    ∃ front a rest bs s₁, as = front ++ a :: rest ∧ front.mapM f s = .ok bs s₁ ∧
      f a s₁ = .error e s' := by
  induction as generalizing s with
  | nil => cases h
  | cons a as ih =>
    rw [mapM_cons] at h
    rcases bind_eq_error.mp h with h | ⟨b, s₁, hb, h⟩
    · exact ⟨[], a, as, [], s, rfl, rfl, h⟩
    rcases bind_eq_error.mp h with h | ⟨_, _, _, h⟩
    · obtain ⟨front, c, rest, bs, s₂, rfl, hfront, hc⟩ := ih h
      refine ⟨a :: front, c, rest, b :: bs, s₂, rfl, ?_, hc⟩
      rw [mapM_cons]
      exact bind_eq_ok.mpr ⟨b, s₁, hb, bind_eq_ok.mpr ⟨bs, s₂, hfront, rfl⟩⟩
    · cases h

end Compile

open Compile

theorem allocateBody_enters (name : String) (code : Code) (isFunction : Bool) (s : CompileState) :
    (endState (allocateBody name code isFunction s)).current = some name := by
  unfold allocateBody
  refine Stays.enter (fun _ => .bind (stays_ofOutcome _) fun a => ?_) s
  refine .bind (stays_note fun _ => rfl) fun _ => ?_
  split
  on_goal 1 => refine .bind (stays_ofOutcome _) fun _ => ?_
  on_goal 2 => refine .bind (stays_pure _) fun _ => ?_
  all_goals
    refine .bind (stays_ofOutcome _) fun x => .bind (stays_note fun _ => rfl) fun _ => ?_
    cases inlineIntrinsics x.1
    exact .bind (stays_forM (f := fun x => note (.recordInlined x)) (fun _ => stays_note fun _ => rfl) _)
      fun _ => stays_pure _

theorem finishBody_enters (options : OptimizerOptions) (clobbers : ClobberTable) (b : AllocatedBody)
    (s : CompileState) :
    (endState (finishBody options clobbers b s)).current = some b.name := by
  unfold finishBody
  refine Stays.enter (fun _ => .bind (stays_ofOutcome _) fun _ => ?_) s
  refine .bind (stays_ofOutcome _) fun _ => .bind (stays_ofOutcome _) fun _ => ?_
  exact .bind (stays_note fun _ => rfl) fun _ => .bind (stays_note fun _ => rfl) fun _ => stays_pure _

/-! ## Bodies of a program -/

/-- A body as it comes into a compilation. -/
structure SourceBody where
  name : String
  lower : Lower Code
  isFunction : Bool

/-- The bodies of a program in the order in which they are compiled. -/
def Program.sourceBodies (options : Options) (p : Program) : List SourceBody :=
  p.definitions.map (fun d => ⟨d.name, (d.propagateConstants options.propagateArrays).lower, true⟩) ++
    [⟨topLevelName, lowerTopLevel (p.body.propagateConstants options.propagateArrays) p.heapOffset,
      false⟩]

def SourceBody.allocate (b : SourceBody) : Compile AllocatedBody := do
  allocateBody b.name (← ofLower b.lower) b.isFunction

variable {options : Options} {builtins : BuiltinTable} {p : Program} {e : Failure} {s s' : CompileState}

theorem compileProgram_eq (options : Options) (builtins : BuiltinTable) (p : Program) :
    compileProgram options builtins p = (do
      let bodies ← (p.sourceBodies options).mapM SourceBody.allocate
      let finished ← bodies.mapM
        (finishBody options.toOptimizerOptions (publishBodies builtins bodies))
      return listing options builtins finished) := by
  simp only [compileProgram, Program.sourceBodies, mapM_append, mapM_map, mapM_cons, mapM_nil,
    bind_assoc, pure_bind]
  rfl

namespace SourceBody

variable {b : SourceBody} {a : AllocatedBody} {bodies : List SourceBody}

theorem allocate_eq_ok (h : b.allocate s = .ok a s') :
    a.name = b.name ∧ s'.current = some b.name := by
  obtain ⟨code, s₁, -, hbody⟩ := bind_eq_ok.mp h
  obtain ⟨_, _, _, _, -, -, -, rfl⟩ := exists_allocateBody_iff.mp ⟨s', hbody⟩
  have henters := allocateBody_enters b.name code b.isFunction s₁
  rw [hbody] at henters
  exact ⟨rfl, henters⟩

/-- Bodies that are all lowered and allocated keep their names, and the last one is the current one. -/
theorem mapM_allocate_eq_ok {as : List AllocatedBody} (h : bodies.mapM allocate s = .ok as s') :
    as.map AllocatedBody.name = bodies.map SourceBody.name ∧
      s'.current = (bodies.getLast?.map SourceBody.name).or s.current := by
  induction bodies generalizing s as with
  | nil =>
    cases h
    exact ⟨rfl, rfl⟩
  | cons b bodies ih =>
    rw [mapM_cons] at h
    obtain ⟨a, s₁, ha, h⟩ := bind_eq_ok.mp h
    obtain ⟨as, s₂, has, h⟩ := bind_eq_ok.mp h
    cases h
    obtain ⟨hname, hcurrent⟩ := allocate_eq_ok ha
    obtain ⟨hnames, hlast⟩ := ih has
    refine ⟨by rw [map_cons, map_cons, hname, hnames], ?_⟩
    rw [hlast, hcurrent, getLast?_cons]
    cases bodies.getLast? <;> rfl

end SourceBody

/-- Lowering fails for a body, with those in front lowered and allocated. -/
def LoweringFails (front : List SourceBody) (b : SourceBody) (e : Failure) : Prop :=
  ∃ as s l, front.mapM SourceBody.allocate {} = .ok as s ∧ b.lower s.lowering = .error e l

/-- A stage between lowering and expansion fails for a body. -/
def AllocationFails (front : List SourceBody) (b : SourceBody) (e : Failure) : Prop :=
  ∃ as s code l s', front.mapM SourceBody.allocate {} = .ok as s ∧ b.lower s.lowering = .ok code l ∧
    allocateBody b.name code b.isFunction { s with lowering := l } = .error e s'

/-- Expansion or a stage behind it fails for a body, with all bodies allocated. -/
def FinishingFails (options : Options) (builtins : BuiltinTable) (bodies : List SourceBody)
    (k : Nat) (e : Failure) : Prop :=
  ∃ allocated s₁ a, bodies.mapM SourceBody.allocate {} = .ok allocated s₁ ∧ allocated[k]? = some a ∧
    ∃ s s', finishBody options.toOptimizerOptions (publishBodies builtins allocated) a s = .error e s'

/-- A failed compilation failed for one of the bodies. If it is lowering that failed, then the failure is
reported with the body in front of it, if there is one. Otherwise it is reported with that body. -/
theorem Program.compile_current (h : (p.compile options builtins).result = .error e) :
    ∃ front b rest, p.sourceBodies options = front ++ b :: rest ∧
      ((LoweringFails front b e ∧
          (p.compile options builtins).session.current = front.getLast?.map SourceBody.name) ∨
        ((AllocationFails front b e ∨
            FinishingFails options builtins (p.sourceBodies options) front.length e) ∧
          (p.compile options builtins).session.current = some b.name)) := by
  rw [Program.compile, compileProgram_eq] at h ⊢
  split at h
  · cases h
  next s' hs =>
  cases h
  rcases bind_eq_error.mp hs with hs | ⟨allocated, s₁, hallocated, hs⟩
  · obtain ⟨front, b, rest, as, s₁, hsplit, hfront, hb⟩ := mapM_eq_error hs
    obtain ⟨-, hcurrent⟩ := SourceBody.mapM_allocate_eq_ok hfront
    refine ⟨front, b, rest, hsplit, ?_⟩
    rcases bind_eq_error.mp hb with hb | ⟨code, s₂, hlower, hbody⟩
    · unfold ofLower at hb
      split at hb
      · cases hb
      · next l hl =>
        cases hb
        exact .inl ⟨⟨as, s₁, l, hfront, hl⟩, hcurrent.trans Option.or_none⟩
    · obtain ⟨l, hl, rfl⟩ := ofLower_eq_ok.mp hlower
      have henters := allocateBody_enters b.name code b.isFunction { s₁ with lowering := l }
      rw [hbody] at henters
      exact .inr ⟨.inl ⟨as, s₁, code, l, s', hfront, hl, hbody⟩, henters⟩
  · rcases bind_eq_error.mp hs with hs | ⟨_, _, _, hs⟩
    · obtain ⟨front, a, rest, _, s₂, rfl, -, ha⟩ := mapM_eq_error hs
      obtain ⟨hnames, -⟩ := SourceBody.mapM_allocate_eq_ok hallocated
      have henters := finishBody_enters options.toOptimizerOptions
        (publishBodies builtins (front ++ a :: rest)) a s₂
      rw [ha] at henters
      rw [map_append, map_cons] at hnames
      obtain ⟨bs, tail, hbodies, hbs, htail⟩ := map_eq_append_iff.mp hnames.symm
      obtain ⟨b, cs, rfl, hb, -⟩ := map_eq_cons_iff.mp htail
      have hlength : bs.length = front.length := by simpa using congrArg length hbs
      refine ⟨bs, b, cs, hbodies, .inr ⟨.inr ⟨_, s₁, a, hallocated, ?_, _, _, ha⟩, ?_⟩⟩
      · rw [hlength, getElem?_append_right (Nat.le_refl _), Nat.sub_self, getElem?_cons_zero]
      · exact henters.trans (congrArg some hb.symm)
    · cases hs

/-- A top-level body with an argument that is bound nowhere. -/
def strayArgument : Program := ⟨0, [], .callDirect "print_int" ["nowhere"]⟩

/-- A function with more parameters than there are argument registers. -/
def crowdedFunction : Definition where
  binding := ⟨"x0", .fn [] .unit⟩
  params := replicate 8 ⟨"x0", .int⟩
  captured := []
  body := .unit

def crowded : Program := ⟨0, [crowdedFunction], .unit⟩

/-- The code of the function with some instructions behind its parameters. -/
def crowdedCode (rest : Code) : Code :=
  .labelled "x0" :: replicate 8 ⟨.param, [.reg ⟨"x0", .int⟩]⟩ ++ rest ++
    [.move ⟨"x0", .int⟩ ⟨"a0", .int⟩, ⟨.returnUnit, []⟩]

/-- The code after allocation. Nothing reads the parameters. -/
def crowdedAllocated : Code := crowdedCode (replicate 8 ⟨.unusedParam, [.reg ⟨"x0", .int⟩]⟩)

/-- A body without spills is allocated in the first round. -/
theorem allocate_of_firstRound {order : AllocationOrder} {code marked body : Code} {r : RoundResult}
    (hmarked : markUnusedParams code = marked)
    (hround : colorRound UseVisit.byName order {} marked = .ok r) (hspills : r.spills = [])
    (hbody : (removeDeadDefinitions marked).mapM (renameInstr r.registers) = .ok body) :
    allocate order code = .ok ⟨body, 1, 0, 0⟩ := by
  simp only [allocate, allocateVisiting, hmarked]
  generalize (marked.flatMap Instr.regs).length = fuel
  refine Outcome.bind_eq_ok.mpr ⟨r, hround, ?_⟩
  rw [hspills]
  exact Outcome.bind_eq_ok.mpr ⟨body, hbody, rfl⟩

theorem allocate_crowdedCode :
    allocate .function (deleteNops (peephole (foldAddresses (crowdedCode [])))) =
      .ok ⟨crowdedAllocated, 1, 0, 0⟩ := by
  have hmarked : markUnusedParams (deleteNops (peephole (foldAddresses (crowdedCode [])))) =
      crowdedAllocated := by decide +kernel
  have hround : colorRound UseVisit.byName .function {} crowdedAllocated = .ok ⟨0, [], []⟩ := by
    refine Outcome.eq_ok_of_toOption ?_
    simp only [colorRound, colorClass, InterferenceGraph.ofLiveness_eq, InterferenceGraph.color,
      Simplifier.run_eq_runWithin 1]
    decide +kernel
  exact allocate_of_firstRound hmarked hround rfl (Outcome.eq_ok_of_toOption (by decide +kernel))

/-- The function is lowered, but its parameters find no registers. -/
theorem mapM_allocate_crowdedFunction (bodies : List SourceBody) :
    ∃ s', (⟨"x0", (crowdedFunction.propagateConstants false).lower, true⟩ :: bodies).mapM
      SourceBody.allocate {} = .error (.tooManyArguments "x0" .int 8) s' := by
  have hbody : ∀ s, ∃ s', allocateBody "x0" (crowdedCode []) true s =
      .error (.tooManyArguments "x0" .int 8) s' := by
    intro s
    unfold allocateBody
    simp only [if_true, allocate_crowdedCode]
    exact ⟨_, rfl⟩
  obtain ⟨l, hl⟩ : ∃ l, (crowdedFunction.propagateConstants false).lower {} =
      .ok (crowdedCode []) l := ⟨_, rfl⟩
  obtain ⟨s', hs⟩ := hbody { lowering := l }
  rw [mapM_cons]
  refine ⟨s', bind_eq_error.mpr (.inl (bind_eq_error.mpr (.inr ?_)))⟩
  exact ⟨_, _, ofLower_eq_ok.mpr ⟨l, hl, rfl⟩, hs⟩

theorem compile_crowded :
    (crowded.compile {} []).result = .error (.tooManyArguments "x0" .int 8) := by
  obtain ⟨s', hs⟩ := mapM_allocate_crowdedFunction _
  have h : compileProgram {} [] crowded {} = .error (.tooManyArguments "x0" .int 8) s' := by
    rw [compileProgram_eq]
    exact bind_eq_error.mpr (.inl hs)
  rw [Program.compile, h]

theorem Program.compile_current_stray_crowded :
    ((strayArgument.compile {} []).result = .error (.undefinedVariable "nowhere" "main") ∧
      ∃ front b rest, strayArgument.sourceBodies {} = front ++ b :: rest ∧ b.name = "main" ∧
        (LoweringFails front b (.undefinedVariable "nowhere" "main") ∨
          (strayArgument.compile {} []).session.current = some b.name)) ∧
    (crowded.compile {} []).result = .error (.tooManyArguments "x0" .int 8) ∧
      ∃ front b rest, crowded.sourceBodies {} = front ++ b :: rest ∧ b.name = "x0" ∧
        AllocationFails front b (.tooManyArguments "x0" .int 8) ∧
        (crowded.compile {} []).session.current = some b.name := by
  constructor
  · obtain ⟨front, b, rest, hsplit, h⟩ := @Program.compile_current {} [] strayArgument _ rfl
    refine ⟨rfl, front, b, rest, hsplit, ?_, h.imp And.left And.right⟩
    obtain ⟨-, h⟩ | ⟨-, h⟩ := append_eq_singleton_iff.mp hsplit.symm
    · rw [(cons.inj h).1]
      rfl
    · cases h
  refine ⟨compile_crowded, ?_⟩
  have hfront : ∀ bodies as s, mapM SourceBody.allocate
      (⟨"x0", (crowdedFunction.propagateConstants false).lower, true⟩ :: bodies) {} ≠ .ok as s := by
    intro bodies as s h
    obtain ⟨s', hs⟩ := mapM_allocate_crowdedFunction bodies
    cases hs.symm.trans h
  obtain ⟨front, b, rest, hsplit, h⟩ := @Program.compile_current {} [] crowded _ compile_crowded
  -- the function comes first, and nothing behind it is reached
  rcases front with - | ⟨f, front⟩
  · obtain ⟨rfl, rfl⟩ := cons.inj hsplit
    refine ⟨[], _, _, hsplit, rfl, ?_⟩
    rcases h with ⟨⟨as, s, l, hnil, hlower⟩, -⟩ | ⟨h | ⟨as, s, a, hall, -⟩, hcurrent⟩
    · cases hnil
      cases hlower
    · exact ⟨h, hcurrent⟩
    · exact absurd hall (hfront _ as s)
  · obtain ⟨rfl, -⟩ := cons.inj hsplit
    rcases h with ⟨⟨as, s, _, hall, -⟩, -⟩ | ⟨⟨as, s, _, _, _, hall, -⟩ | ⟨as, s, _, hall, -⟩, -⟩
    · exact absurd hall (hfront _ as s)
    · exact absurd hall (hfront _ as s)
    · exact absurd hall (hfront _ as s)

/-- The failure is that of the top-level body, and it is reported with no body at all. -/
theorem compile_reportsOther :
    (strayArgument.compile {} []).result = .error (.undefinedVariable "nowhere" "main") ∧
      (strayArgument.compile {} []).session.current ≠ some topLevelName := ⟨rfl, nofun⟩

end ClosureCodegen
