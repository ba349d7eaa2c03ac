import Mathlib.Data.List.Forall2
import ClosureCodegen.Failure

/-!
# Steps that succeed or fail

A computation that succeeds is a chain of steps that all succeed, and a map over a list that
succeeds relates each element to its image.  A computation that fails has the failure of its first
step that does.
-/

namespace ClosureCodegen
open List
namespace Outcome

variable {α β γ : Type}

theorem ok_bind (a : α) (f : α → Outcome β) : (Except.ok a : Outcome α) >>= f = f a := rfl

theorem bind_eq_ok {x : Outcome α} {f : α → Outcome β} {b : β} :
    x >>= f = .ok b ↔ ∃ a, x = .ok a ∧ f a = .ok b := by
  cases x with
  | error e => exact ⟨nofun, fun ⟨_, h, _⟩ => nomatch h⟩
  | ok a => exact ⟨fun h => ⟨a, rfl, h⟩, fun ⟨_, h, hf⟩ => by cases h; exact hf⟩

theorem pure_eq_ok {a b : α} : (pure a : Outcome α) = .ok b ↔ a = b :=
  ⟨Except.ok.inj, fun h => h ▸ rfl⟩

theorem eq_ok_of_toOption {x : Outcome α} {a : α} (h : x.toOption = some a) : x = .ok a := by
  cases x with
  | error e => cases h
  | ok b => exact congrArg Except.ok (Option.some.inj h)

theorem mapM_eq_ok {f : α → Outcome β} {as : List α} {bs : List β} :
    as.mapM f = .ok bs ↔ List.Forall₂ (fun a b => f a = .ok b) as bs := by
  induction as generalizing bs with
  | nil =>
    rw [mapM_nil, pure_eq_ok, List.forall₂_nil_left_iff]
    exact eq_comm
  | cons a as ih =>
    simp only [mapM_cons, bind_eq_ok, pure_eq_ok, ih]
    constructor
    · rintro ⟨b, hb, bs, hbs, rfl⟩
      exact .cons hb hbs
    · rintro (_ | ⟨hb, hbs⟩)
      exact ⟨_, hb, _, hbs, rfl⟩

/-! ## Steps that fail -/

theorem bind_eq_error {x : Outcome α} {f : α → Outcome β} {e : Failure} :
    x >>= f = .error e ↔ x = .error e ∨ ∃ a, x = .ok a ∧ f a = .error e := by
  cases x with
  | error e' =>
    refine ⟨fun h => .inl (congrArg _ (Except.error.inj h)), ?_⟩
    rintro (h | ⟨_, h, _⟩)
    · exact congrArg _ (Except.error.inj h)
    · cases h
  | ok a =>
    refine ⟨fun h => .inr ⟨a, rfl, h⟩, ?_⟩
    rintro (h | ⟨_, h, hf⟩)
    · cases h
    · cases h
      exact hf

theorem mapM_eq_error {f : α → Outcome β} {as : List α} {e : Failure} : as.mapM f = .error e ↔
    ∃ front a rest, as = front ++ a :: rest ∧ f a = .error e ∧ ∀ x ∈ front, ∃ b, f x = .ok b := by
  induction as with
  | nil => exact ⟨nofun, fun ⟨front, _, _, h, _⟩ => by cases front <;> cases h⟩
  | cons a as ih =>
    rw [mapM_cons, bind_eq_error]
    constructor
    · rintro (h | ⟨b, hb, h⟩)
      · exact ⟨[], a, as, rfl, h, nofun⟩
      rcases bind_eq_error.mp h with h | ⟨bs, _, h⟩
      · obtain ⟨front, c, rest, rfl, hc, hfront⟩ := ih.mp h
        exact ⟨a :: front, c, rest, rfl, hc, forall_mem_cons.mpr ⟨⟨b, hb⟩, hfront⟩⟩
      · cases h
    · rintro ⟨front, c, rest, heq, hc, hfront⟩
      cases front with
      | nil =>
        cases heq
        exact .inl hc
      | cons x front =>
        cases heq
        obtain ⟨⟨b, hb⟩, hfront⟩ := forall_mem_cons.mp hfront
        exact .inr ⟨b, hb, bind_eq_error.mpr (.inl (ih.mpr ⟨front, c, rest, rfl, hc, hfront⟩))⟩

theorem exists_of_mapM_eq_error {f : α → Outcome β} {as : List α} {e : Failure}
    (h : as.mapM f = .error e) : ∃ a ∈ as, f a = .error e := by
  obtain ⟨front, a, rest, rfl, ha, _⟩ := mapM_eq_error.mp h
  exact ⟨a, by simp, ha⟩

end Outcome

/-! ## Steps on offsets -/

theorem Fault.liftM_eq_ok {α : Type} {x : Except Fault α} {a : α} :
    (liftM x : Outcome α) = .ok a ↔ x = .ok a := by
  cases x with
  | error f => exact ⟨nofun, nofun⟩
  | ok b => exact ⟨fun h => congrArg _ (Except.ok.inj h), fun h => congrArg _ (Except.ok.inj h)⟩

namespace Word

variable {a b c : Word}

theorem eq_add_of_add? (h : Word.add? a b = .ok c) : c = a + b := by
  unfold Word.add? at h
  split at h <;> cases h
  rfl

theorem eq_sub_of_sub? (h : Word.sub? a b = .ok c) : c = a - b := by
  unfold Word.sub? at h
  split at h <;> cases h
  rfl

theorem eq_mul_of_mul? (h : Word.mul? a b = .ok c) : c = a * b := by
  unfold Word.mul? at h
  split at h <;> cases h
  rfl

theorem eq_neg_of_neg? (h : Word.neg? a = .ok b) : b = -a := by
  unfold Word.neg? at h
  split at h <;> cases h
  rfl

end Word

/-- Whether the reason of a failure is that an offset has left the range of a word. -/
def Failure.isOverflow : Failure → Bool
  | .fault .addition | .fault .subtraction | .fault .multiplication | .fault .negation => true
  | _ => false

/-- A step that fails, if at all, because an offset has left the range of a word. -/
def Outcome.OverflowsOnly {α : Type} (x : Outcome α) : Prop :=
  ∀ e, x = .error e → e.isOverflow = true

namespace Outcome.OverflowsOnly

variable {α β : Type}

theorem ok (a : α) : OverflowsOnly (.ok a : Outcome α) := nofun

theorem pure (a : α) : OverflowsOnly (Pure.pure a : Outcome α) := nofun

theorem bind {x : Outcome α} {f : α → Outcome β} (hx : x.OverflowsOnly)
    (hf : ∀ a, x = .ok a → (f a).OverflowsOnly) : OverflowsOnly (x >>= f) := by
  intro e he
  rcases bind_eq_error.mp he with h | ⟨a, ha, h⟩
  · exact hx e h
  · exact hf a ha e h

theorem add? (a b : Word) : OverflowsOnly (liftM (Word.add? a b) : Outcome Word) := by
  intro e he
  unfold Word.add? at he
  split at he <;> cases he
  rfl

theorem sub? (a b : Word) : OverflowsOnly (liftM (Word.sub? a b) : Outcome Word) := by
  intro e he
  unfold Word.sub? at he
  split at he <;> cases he
  rfl

theorem mul? (a b : Word) : OverflowsOnly (liftM (Word.mul? a b) : Outcome Word) := by
  intro e he
  unfold Word.mul? at he
  split at he <;> cases he
  rfl

theorem neg? (a : Word) : OverflowsOnly (liftM (Word.neg? a) : Outcome Word) := by
  intro e he
  unfold Word.neg? at he
  split at he <;> cases he
  rfl

end Outcome.OverflowsOnly

/-- What a step ends with: a result that has one property, or a failure that has another. -/
def Outcome.Ends {α : Type} (P : α → Prop) (E : Failure → Prop) : Outcome α → Prop
  | .ok a => P a
  | .error e => E e

namespace Outcome.Ends

variable {α β : Type} {P : α → Prop} {Q : β → Prop} {E : Failure → Prop} {x : Outcome α}

theorem bind {f : α → Outcome β} (hx : x.Ends P E) (hf : ∀ a, P a → (f a).Ends Q E) :
    (x >>= f).Ends Q E := by
  cases x with
  | ok a => exact hf a hx
  | error e => exact hx

theorem mono {P' : α → Prop} {E' : Failure → Prop} (hx : x.Ends P E) (hP : ∀ a, P a → P' a)
    (hE : ∀ e, E e → E' e) : x.Ends P' E' := by
  cases x with
  | ok a => exact hP a hx
  | error e => exact hE e hx

theorem bind_eq {f : α → Outcome β} (hx : x.Ends P E) (hf : ∀ a, x = .ok a → (f a).Ends Q E) :
    (x >>= f).Ends Q E := by
  cases x with
  | ok a => exact hf a rfl
  | error e => exact hx

theorem exists_ok (hx : x.Ends P fun _ => False) : ∃ a, x = .ok a := by
  cases x with
  | ok a => exact ⟨a, rfl⟩
  | error e => exact hx.elim

end Outcome.Ends

theorem Outcome.overflowsOnly_iff {α : Type} {x : Outcome α} :
    x.OverflowsOnly ↔ x.Ends (fun _ => True) fun e => e.isOverflow = true := by
  cases x with
  | ok a => exact ⟨fun _ => trivial, fun _ => .ok a⟩
  | error e => exact ⟨fun h => h e rfl, fun h e' he => by cases he; exact h⟩

theorem stateful_bind_eq_ok {ε σ α β : Type} {x : EStateM ε σ α} {f : α → EStateM ε σ β} {b : β}
    {s s' : σ} : (x >>= f) s = .ok b s' ↔ ∃ a s₁, x s = .ok a s₁ ∧ f a s₁ = .ok b s' := by
  change EStateM.bind x f s = _ ↔ _
  unfold EStateM.bind
  cases hx : x s with
  | error e s₁ => exact ⟨nofun, fun ⟨_, _, h, _⟩ => nomatch h⟩
  | ok a s₁ => exact ⟨fun h => ⟨a, s₁, rfl, h⟩, fun ⟨_, _, h, hf⟩ => by cases h; exact hf⟩

theorem getElem?_of_forall₂ {α β : Type} {R : α → β → Prop} {as : List α} {bs : List β}
    (h : List.Forall₂ R as bs) {k : Nat} {a : α} (ha : as[k]? = some a) :
    ∃ b, bs[k]? = some b ∧ R a b := by
  induction h generalizing k with
  | nil => cases ha
  | @cons a' b' as bs hab _ ih =>
    cases k with
    | zero =>
      cases ha
      exact ⟨b', rfl, hab⟩
    | succ k => exact ih ha

end ClosureCodegen
