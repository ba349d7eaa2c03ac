/-!
# Runs and simulations

A machine is a step function.  A step emits events and either reaches a next configuration or
leaves with an exit; a configuration that makes no sense is stuck.  A run of `n` steps collects the
events of its steps.

Two machines *behave alike* from a pair of configurations if every stretch of a run of the first is
a stretch of a run of the second with the same events, and if every stretch of a run of the second
shows a beginning of what the first shows, and leaves only as the first leaves.  Nothing is asked
once the first machine is stuck: what it was running has no meaning from there on.  This is the
relation between a body and what a pass makes of it, and it is transitive, so that passes can be
taken one at a time.

To show it one gives a relation between configurations that a step of the first machine and some
steps of the second keep.  The relation has a rank, and the second machine may also wait as long as
the rank falls; otherwise it could wait forever while the first one runs on.

* `Simulation`: such a relation.
* `Simulation.behavesLike`: related configurations behave alike.
* `BehavesLike.trans`: the relation is transitive.
-/

namespace ClosureCodegen
open List

/-- What one step does. -/
inductive Progress (C X E : Type) where
  | stuck
  | exit (events : List E) (x : X)
  | next (events : List E) (c : C)

/-- Where a run stands. -/
inductive Status (C X : Type) where
  | running (c : C)
  | exited (x : X)
  | stuck

/-- A stretch of a run: what it has emitted, and where it stands. -/
structure Stretch (C X E : Type) where
  events : List E
  status : Status C X

variable {C D B X E : Type}

namespace Status

/-- Two runs stand at corresponding places: both run, or both left by the same exit, or both are
stuck. -/
def Agrees : Status C X → Status D X → Prop
  | .running _, .running _ => True
  | .exited x, .exited y => x = y
  | .stuck, .stuck => True
  | _, _ => False

theorem Agrees.trans {s : Status C X} {t : Status D X} {u : Status B X} (hst : s.Agrees t)
    (htu : t.Agrees u) : s.Agrees u := by
  cases s <;> cases t <;> cases u <;> simp_all [Agrees]

theorem Agrees.ne_stuck {s : Status C X} {t : Status D X} (h : s.Agrees t) (hs : s ≠ .stuck) :
    t ≠ .stuck := by
  cases s <;> cases t <;> simp_all [Agrees]

end Status

/-- A stretch of `n` steps, or fewer if the run ends before. -/
def runFor (step : C → Progress C X E) : Nat → C → Stretch C X E
  | 0, c => ⟨[], .running c⟩
  | n + 1, c =>
    match step c with
    | .stuck => ⟨[], .stuck⟩
    | .exit events x => ⟨events, .exited x⟩
    | .next events c' =>
      let rest := runFor step n c'
      ⟨events ++ rest.events, rest.status⟩

@[simp] theorem runFor_zero (step : C → Progress C X E) (c : C) :
    runFor step 0 c = ⟨[], .running c⟩ := rfl

theorem runFor_succ_next {step : C → Progress C X E} {c c' : C} {events : List E}
    (h : step c = .next events c') (n : Nat) :
    runFor step (n + 1) c =
      ⟨events ++ (runFor step n c').events, (runFor step n c').status⟩ := by
  simp only [runFor, h]

theorem runFor_succ_exit {step : C → Progress C X E} {c : C} {events : List E} {x : X}
    (h : step c = .exit events x) (n : Nat) : runFor step (n + 1) c = ⟨events, .exited x⟩ := by
  simp only [runFor, h]

theorem runFor_succ_stuck {step : C → Progress C X E} {c : C} (h : step c = .stuck) (n : Nat) :
    runFor step (n + 1) c = ⟨[], .stuck⟩ := by
  simp only [runFor, h]

theorem runFor_add {step : C → Progress C X E} {n : Nat} {c c' : C} {events : List E}
    (h : runFor step n c = ⟨events, .running c'⟩) (m : Nat) :
    runFor step (n + m) c =
      ⟨events ++ (runFor step m c').events, (runFor step m c').status⟩ := by
  induction n generalizing c events with
  | zero =>
    rw [runFor_zero] at h
    cases h
    simp
  | succ n ih =>
    rw [Nat.succ_add]
    cases hs : step c with
    | stuck =>
      rw [runFor_succ_stuck hs] at h
      cases h
    | exit es x =>
      rw [runFor_succ_exit hs] at h
      cases h
    | next es d =>
      rw [runFor_succ_next hs, Stretch.mk.injEq] at h
      obtain ⟨he, hst⟩ := h
      have hd : runFor step n d = ⟨(runFor step n d).events, .running c'⟩ := by rw [← hst]
      rw [runFor_succ_next hs, ih hd, ← he, append_assoc]

theorem runFor_exited_add {step : C → Progress C X E} {n : Nat} {c : C} {events : List E} {x : X}
    (h : runFor step n c = ⟨events, .exited x⟩) (m : Nat) :
    runFor step (n + m) c = ⟨events, .exited x⟩ := by
  induction n generalizing c events with
  | zero =>
    rw [runFor_zero] at h
    cases h
  | succ n ih =>
    rw [Nat.succ_add]
    cases hs : step c with
    | stuck =>
      rw [runFor_succ_stuck hs] at h
      cases h
    | exit es y =>
      rw [runFor_succ_exit hs] at h ⊢
      exact h
    | next es d =>
      rw [runFor_succ_next hs, Stretch.mk.injEq] at h
      obtain ⟨he, hst⟩ := h
      have hd : runFor step n d = ⟨(runFor step n d).events, .exited x⟩ := by rw [← hst]
      rw [runFor_succ_next hs, ih hd, he]

/-- A shorter stretch emits a beginning of what a longer one emits, and if the longer one is not
stuck then the shorter one is not. -/
theorem runFor_prefix (step : C → Progress C X E) {n m : Nat} (h : n ≤ m) (c : C) :
    (runFor step n c).events <+: (runFor step m c).events ∧
      ((runFor step m c).status ≠ .stuck → (runFor step n c).status ≠ .stuck) := by
  induction n generalizing c m with
  | zero =>
    refine ⟨ nil_prefix, fun _ => ?_⟩
    rw [runFor_zero]
    nofun
  | succ n ih =>
    obtain ⟨m, rfl⟩ : ∃ k, m = k + 1 := ⟨m - 1, by omega⟩
    cases hs : step c with
    | stuck =>
      rw [runFor_succ_stuck hs, runFor_succ_stuck hs]
      exact ⟨prefix_rfl, id⟩
    | exit es x =>
      rw [runFor_succ_exit hs, runFor_succ_exit hs]
      exact ⟨prefix_rfl, id⟩
    | next es d =>
      rw [runFor_succ_next hs, runFor_succ_next hs]
      obtain ⟨hp, hst⟩ := ih (Nat.le_of_succ_le_succ h) d
      exact ⟨prefix_append_right_inj es |>.mpr hp, hst⟩

/-! ## Behaving alike -/

/-- A stretch shows a beginning of what another shows, and all of it if it has left. -/
structure Stretch.PartOf (t : Stretch D X E) (s : Stretch C X E) : Prop where
  events : t.events <+: s.events
  exited : ∀ x, t.status = .exited x → s = ⟨t.events, .exited x⟩

theorem Stretch.PartOf.trans {u : Stretch B X E} {t : Stretch D X E} {s : Stretch C X E}
    (hut : u.PartOf t) (hts : t.PartOf s) : u.PartOf s where
  events := hut.events.trans hts.events
  exited x hx := by
    have ht := hut.exited x hx
    rw [hts.exited x (by rw [ht]), ht]

theorem Stretch.PartOf.append {t : Stretch D X E} {s : Stretch C X E} (h : t.PartOf s)
    (events : List E) :
    (⟨events ++ t.events, t.status⟩ : Stretch D X E).PartOf ⟨events ++ s.events, s.status⟩ where
  events := (prefix_append_right_inj events).mpr h.events
  exited x hx := by
    have hs := h.exited x hx
    rw [hs]

/-- The second machine shows, from `d`, what the first one shows from `c`. -/
structure BehavesLike (step : C → Progress C X E) (c : C) (step' : D → Progress D X E) (d : D) :
    Prop where
  /-- What the first machine does is done by the second. -/
  forward : ∀ n, (runFor step n c).status ≠ .stuck →
    ∃ m, (runFor step' m d).events = (runFor step n c).events ∧
      (runFor step n c).status.Agrees (runFor step' m d).status
  /-- The second machine does nothing else. -/
  backward : ∀ m, (∃ n, (runFor step n c).status = .stuck) ∨
    ((runFor step' m d).status ≠ .stuck ∧ ∃ n, (runFor step' m d).PartOf (runFor step n c))

/-- Machines that behave alike leave by the same exit. -/
theorem BehavesLike.exited_eq {step : C → Progress C X E} {step' : D → Progress D X E} {c : C} {d : D}
    {n m : Nat} {x y : X} (h : BehavesLike step c step' d) (hx : (runFor step n c).status = .exited x)
    (hy : (runFor step' m d).status = .exited y) : x = y := by
  obtain ⟨k, -, hk⟩ := h.forward n (by rw [hx]; nofun)
  rw [hx] at hk
  cases hs : (runFor step' k d).status with
  | running => rw [hs] at hk; exact hk.elim
  | stuck => rw [hs] at hk; exact hk.elim
  | exited z =>
    rw [hs] at hk
    obtain rfl : x = z := hk
    have hlong := runFor_exited_add (show runFor step' k d = ⟨_, .exited x⟩ by rw [← hs]) m
    rw [Nat.add_comm, runFor_exited_add (show runFor step' m d = ⟨_, .exited y⟩ by rw [← hy]) k] at hlong
    injection hlong with _ hstatus
    injection hstatus with hxy
    exact hxy.symm

theorem BehavesLike.refl (step : C → Progress C X E) (c : C) : BehavesLike step c step c where
  forward n hn := by
    refine ⟨n, rfl, ?_⟩
    cases (runFor step n c).status <;> trivial
  backward m := by
    by_cases h : (runFor step m c).status = .stuck
    · exact .inl ⟨m, h⟩
    · exact .inr ⟨h, m, prefix_rfl, fun x hx => hx ▸ rfl⟩

theorem BehavesLike.trans {step : C → Progress C X E} {c : C} {step' : D → Progress D X E} {d : D}
    {step'' : B → Progress B X E} {b : B} (h : BehavesLike step c step' d)
    (h' : BehavesLike step' d step'' b) : BehavesLike step c step'' b where
  forward n hn := by
    obtain ⟨m, hm, ha⟩ := h.forward n hn
    obtain ⟨k, hk, ha'⟩ := h'.forward m (ha.ne_stuck hn)
    exact ⟨k, hk.trans hm, ha.trans ha'⟩
  backward k := by
    rcases h'.backward k with ⟨m, hm⟩ | ⟨hk, m, hp⟩
    · rcases h.backward m with hn | ⟨hm', _⟩
      · exact .inl hn
      · exact absurd hm hm'
    · rcases h.backward m with hn | ⟨_, n, hp'⟩
      · exact .inl hn
      · exact .inr ⟨hk, n, hp.trans hp'⟩

/-! ## Simulations -/

/-- A relation that the steps of the first machine keep, with some steps of the second for each. The
second machine may make no step if the rank falls and nothing is emitted. Configurations can be
related at several ranks. -/
structure Simulation (step : C → Progress C X E) (step' : D → Progress D X E)
    (R : Nat → C → D → Prop) : Prop where
  next : ∀ {n c d es c'}, R n c d → step c = .next es c' →
    (∃ k d' m, runFor step' (k + 1) d = ⟨es, .running d'⟩ ∧ R m c' d') ∨
      (es = [] ∧ ∃ m, m < n ∧ R m c' d)
  exit : ∀ {n c d es x}, R n c d → step c = .exit es x →
    ∃ k, runFor step' (k + 1) d = ⟨es, .exited x⟩

namespace Simulation

variable {step : C → Progress C X E} {step' : D → Progress D X E} {R : Nat → C → D → Prop}
  (sim : Simulation step step' R)
include sim

theorem forward (n : Nat) {r : Nat} {c : C} {d : D} (hR : R r c d)
    (hn : (runFor step n c).status ≠ .stuck) :
    ∃ m, (runFor step' m d).events = (runFor step n c).events ∧
      (runFor step n c).status.Agrees (runFor step' m d).status := by
  induction n generalizing r c d with
  | zero => exact ⟨0, rfl, trivial⟩
  | succ n ih =>
    cases hs : step c with
    | stuck =>
      rw [runFor_succ_stuck hs] at hn
      exact absurd rfl hn
    | exit es x =>
      obtain ⟨k, hk⟩ := sim.exit hR hs
      refine ⟨k + 1, ?_, ?_⟩
      · rw [hk, runFor_succ_exit hs]
      · rw [hk, runFor_succ_exit hs]
        rfl
    | next es c' =>
      rw [runFor_succ_next hs] at hn ⊢
      rcases sim.next hR hs with ⟨k, d', _, hk, hR'⟩ | ⟨rfl, _, _, hR'⟩
      · obtain ⟨m, hm, ha⟩ := ih hR' hn
        refine ⟨k + 1 + m, ?_, ?_⟩
        · rw [runFor_add hk m, hm]
        · rw [runFor_add hk m]
          exact ha
      · obtain ⟨m, hm, ha⟩ := ih hR' hn
        exact ⟨m, hm, ha⟩

/-- A stretch of `m` steps of the second machine, by induction on `m` and, while it waits, on the
rank. -/
theorem backward (m : Nat) {r : Nat} {c : C} {d : D} (hR : R r c d) :
    (∃ n, (runFor step n c).status = .stuck) ∨
      ((runFor step' m d).status ≠ .stuck ∧ ∃ n, (runFor step' m d).PartOf (runFor step n c)) := by
  induction m using Nat.strongRecOn generalizing r c d with
  | _ m ihm =>
  induction r using Nat.strongRecOn generalizing c d with
  | _ r ihr =>
  cases hs : step c with
  | stuck =>
    refine .inl ⟨1, ?_⟩
    rw [runFor_succ_stuck hs]
  | exit es x =>
    obtain ⟨k, hk⟩ := sim.exit hR hs
    -- the second machine leaves as well, and `m` steps are a part of its run
    have hlong : runFor step' (k + 1 + m) d = ⟨es, .exited x⟩ := runFor_exited_add hk m
    obtain ⟨hp, hst⟩ := runFor_prefix step' (Nat.le_add_left m (k + 1)) d
    rw [hlong] at hp hst
    refine .inr ⟨hst nofun, 1, ?_⟩
    rw [runFor_succ_exit hs]
    refine ⟨hp, fun y hy => ?_⟩
    have hy' : runFor step' m d = ⟨(runFor step' m d).events, .exited y⟩ := by rw [← hy]
    have hboth := runFor_exited_add hy' (k + 1)
    rw [Nat.add_comm, hlong, Stretch.mk.injEq, Status.exited.injEq] at hboth
    rw [hboth.1, hboth.2]
  | next es c' =>
    rcases sim.next hR hs with ⟨k, d', _, hk, hR'⟩ | ⟨rfl, r', hlt, hR'⟩
    · rcases Nat.lt_or_ge m (k + 1) with hm | hm
      · -- the stretch ends before the second machine has caught up
        obtain ⟨hp, hst⟩ := runFor_prefix step' (Nat.le_of_lt hm) d
        rw [hk] at hp hst
        refine .inr ⟨hst nofun, 1, ?_⟩
        rw [runFor_succ_next hs, runFor_zero, append_nil]
        refine ⟨hp, fun y hy => ?_⟩
        have hy' : runFor step' m d = ⟨(runFor step' m d).events, .exited y⟩ := by rw [← hy]
        have hlate := runFor_exited_add hy' (k + 1 - m)
        rw [Nat.add_sub_cancel' (Nat.le_of_lt hm), hk] at hlate
        cases hlate
      · obtain ⟨j, rfl⟩ := Nat.exists_eq_add_of_le hm
        rw [runFor_add hk j]
        rcases ihm j (by omega) hR' with ⟨n, hn⟩ | ⟨hst, n, hp⟩
        · refine .inl ⟨n + 1, ?_⟩
          rw [runFor_succ_next hs]
          exact hn
        · refine .inr ⟨hst, n + 1, ?_⟩
          rw [runFor_succ_next hs]
          exact hp.append es
    · rcases ihr r' hlt hR' with ⟨n, hn⟩ | ⟨hst, n, hp⟩
      · refine .inl ⟨n + 1, ?_⟩
        rw [runFor_succ_next hs]
        exact hn
      · refine .inr ⟨hst, n + 1, ?_⟩
        rw [runFor_succ_next hs]
        exact hp

theorem behavesLike {r : Nat} {c : C} {d : D} (hR : R r c d) : BehavesLike step c step' d :=
  ⟨fun n => sim.forward n hR, fun m => sim.backward m hR⟩

end Simulation
end ClosureCodegen
