import Mathlib.Logic.Function.Basic
import ClosureCodegen.Program.ConstantRegister

/-!
# One table of aliases

Constants are propagated with a list of the scopes around an expression.  A pass can also keep a
single table for all scopes: a binding writes its entry there, and puts back what it has replaced
when its scope ends.  Both rename alike, and the table is left as it was.

* `Expr.run_rewrite_empty`: the pass with a table propagates constants.
-/

namespace ClosureCodegen
open List

variable {bs : List Binding} {x : String} {as : Aliases} {α β : Type}

/-- The registers that variables stand for at present. -/
abbrev AliasTable := String → Option PhysReg

namespace AliasTable

/-- The name that stands for a variable. -/
def subst (x : String) : StateM AliasTable String :=
  return ((← get) x).elim x PhysReg.name

/-- Runs with another entry for a name, or with none, and puts the previous one back. -/
def withEntry (x : String) (r? : Option PhysReg) (body : StateM AliasTable α) :
    StateM AliasTable α := do
  let previous := (← get) x
  modify (Function.update · x r?)
  let result ← body
  modify (Function.update · x previous)
  return result

/-- Takes the entries of variables out and collects them. -/
def takeOut : List Binding → StateM AliasTable (List (String × PhysReg))
  | [] => return []
  | b :: bs => do
    let previous := (← get) b.name
    modify (Function.update · b.name none)
    return (previous.map (b.name, ·)).toList ++ (← takeOut bs)

def putBack (t : AliasTable) (taken : List (String × PhysReg)) : AliasTable :=
  taken.foldl (fun t e => Function.update t e.1 (some e.2)) t

/-- Renames variables that are bound to constants, with one table that all bindings write to. -/
def rewrite (arrays : Bool) : Expr → StateM AliasTable Expr
  | .var x => return .var (← subst x)
  | .unary op x => return .unary op (← subst x)
  | .binary op x y => return .binary op (← subst x) (← subst y)
  | .cond cmp x y e₁ e₂ =>
    return .cond cmp (← subst x) (← subst y) (← rewrite arrays e₁) (← rewrite arrays e₂)
  | .letIn b e₁ e₂ =>
    return .letIn b (← rewrite arrays e₁)
      (← withEntry b.name e₁.constantRegister? (rewrite arrays e₂))
  | .makeClosure b c e => return .makeClosure b c (← withEntry b.name none (rewrite arrays e))
  | .letTuple bs t e => do
    let taken ← takeOut bs
    let e ← rewrite arrays e
    modify (·.putBack taken)
    return .letTuple bs t e
  | .tuple xs => return .tuple (← xs.mapM subst)
  | .get a i => do
    if arrays then return .get (← subst a) (← subst i) else return .get a i
  | .put a i v => do
    if arrays then return .put (← subst a) (← subst i) (← subst v) else return .put a i v
  | e => return e

variable {t u : AliasTable} {taken : List (String × PhysReg)}

theorem putBack_eq (hu : ∀ e ∈ taken, u e.1 = some e.2)
    (ht : ∀ x, t x = u x ∨ ∃ r, (x, r) ∈ taken) : t.putBack taken = u := by
  induction taken generalizing t with
  | nil => exact funext fun x => (ht x).resolve_right fun ⟨_, hr⟩ => not_mem_nil hr
  | cons e taken ih =>
    rw [forall_mem_cons] at hu
    refine ih hu.2 fun x => ?_
    dsimp only
    by_cases hx : x = e.1
    · subst hx
      exact .inl ((Function.update_self ..).trans hu.1.symm)
    · rw [Function.update_of_ne hx]
      refine (ht x).imp_right fun ⟨r, hr⟩ => ⟨r, (mem_cons.mp hr).resolve_left ?_⟩
      rintro rfl
      exact hx rfl

theorem run_takeOut_cons (t : AliasTable) (b : Binding) (bs : List Binding) :
    (takeOut (b :: bs)).run t =
      (((t b.name).map (b.name, ·)).toList ++ ((takeOut bs).run (Function.update t b.name none)).1,
        ((takeOut bs).run (Function.update t b.name none)).2) := rfl

/-- What is taken out was there, and nothing else is lost. -/
theorem takeOut_spec (t : AliasTable) (bs : List Binding) :
    (∀ e ∈ ((takeOut bs).run t).1, t e.1 = some e.2) ∧
      ∀ x, ((takeOut bs).run t).2 x = t x ∨ ∃ r, (x, r) ∈ ((takeOut bs).run t).1 := by
  induction bs generalizing t with
  | nil => exact ⟨forall_mem_nil _, fun _ => .inl rfl⟩
  | cons b bs ih =>
    obtain ⟨hthere, hkept⟩ := ih (Function.update t b.name none)
    rw [run_takeOut_cons]
    constructor
    · intro e he
      rcases mem_append.mp he with he | he
      · obtain ⟨r, hr, rfl⟩ := Option.map_eq_some_iff.mp (Option.mem_toList.mp he)
        exact hr
      · have hsome := hthere e he
        by_cases hx : e.1 = b.name
        · rw [hx, Function.update_self] at hsome
          cases hsome
        · rwa [Function.update_of_ne hx] at hsome
    · intro x
      by_cases hx : x = b.name
      · subst hx
        cases hb : t b.name with
        | some r => exact .inr ⟨r, mem_append_left _ (by simp)⟩
        | none =>
          refine (hkept b.name).imp (fun h => ?_) fun ⟨r, hr⟩ => ⟨r, mem_append_right _ hr⟩
          rw [h, Function.update_self]
      · rw [← Function.update_of_ne hx none t]
        exact (hkept x).imp_right fun ⟨r, hr⟩ => ⟨r, mem_append_right _ hr⟩

/-- What a binding of several variables takes out, it can put back. -/
theorem putBack_takeOut (t : AliasTable) (bs : List Binding) :
    ((takeOut bs).run t).2.putBack ((takeOut bs).run t).1 = t :=
  putBack_eq (takeOut_spec t bs).1 (takeOut_spec t bs).2

end AliasTable

namespace Aliases

/-- The table of a scope, without what is hidden there. -/
def table (as : Aliases) : AliasTable := fun x => (as.lookup x).join

theorem table_cons (as : Aliases) (x : String) (r? : Option PhysReg) :
    table ((x, r?) :: as) = Function.update as.table x r? := by
  funext y
  by_cases hy : y = x
  · subst hy
    simp [table]
  · simp [table, lookup_cons, Function.update_of_ne hy, beq_eq_false_iff_ne.mpr hy]

theorem table_hide (as : Aliases) (bs : List Binding) :
    (as.hide bs).table = ((AliasTable.takeOut bs).run as.table).2 := by
  induction bs generalizing as with
  | nil => rfl
  | cons b bs ih =>
    rw [AliasTable.run_takeOut_cons, ← table_cons]
    exact ih _

/-- A step has a result in a scope, and leaves the table as it was. -/
def Yields (as : Aliases) (m : StateM AliasTable α) (a : α) : Prop :=
  m.run as.table = (a, as.table)

theorem Yields.bind {m : StateM AliasTable α} {f : α → StateM AliasTable β} {a : α} {b : β}
    (hm : as.Yields m a) (hf : as.Yields (f a) b) : as.Yields (m >>= f) b := by
  unfold Yields at *
  rw [StateT.run_bind, hm]
  exact hf

theorem yields_pure (as : Aliases) (a : α) : as.Yields (pure a) a := rfl

theorem yields_subst (as : Aliases) (x : String) :
    as.Yields (AliasTable.subst x) (as.rename x) := by
  change ((as.lookup x).join.elim x PhysReg.name, as.table) = _
  unfold rename
  cases as.lookup x with
  | none => rfl
  | some r? => cases r? <;> rfl

theorem yields_mapM_subst (as : Aliases) (xs : List String) :
    as.Yields (xs.mapM AliasTable.subst) (xs.map as.rename) := by
  induction xs with
  | nil => exact as.yields_pure []
  | cons x xs ih =>
    rw [mapM_cons]
    exact (as.yields_subst x).bind (ih.bind (as.yields_pure _))

theorem Yields.withEntry {body : StateM AliasTable α} {r? : Option PhysReg} {a : α}
    (h : Yields ((x, r?) :: as) body a) : as.Yields (AliasTable.withEntry x r? body) a := by
  rw [Yields, table_cons] at h
  change (let s := body.run (Function.update as.table x r?)
    (s.1, Function.update s.2 x (as.table x))) = _
  rw [h]
  simp only [Function.update_idem, Function.update_eq_self]

/-- A single table gives the same renaming as the list of scopes. -/
theorem yields_rewrite (arrays : Bool) (as : Aliases) (e : Expr) :
    as.Yields (AliasTable.rewrite arrays e) (e.useConstants arrays as) := by
  induction e generalizing as with
  | unit | int | float | callClosure | callDirect | externArray => rfl
  | var x => exact (as.yields_subst x).bind (as.yields_pure _)
  | unary op x => exact (as.yields_subst x).bind (as.yields_pure _)
  | binary op x y =>
    exact (as.yields_subst x).bind ((as.yields_subst y).bind (as.yields_pure _))
  | tuple xs => exact (as.yields_mapM_subst xs).bind (as.yields_pure _)
  | get a i =>
    cases arrays with
    | false => rfl
    | true => exact (as.yields_subst a).bind ((as.yields_subst i).bind (as.yields_pure _))
  | put a i v =>
    cases arrays with
    | false => rfl
    | true =>
      exact (as.yields_subst a).bind
        ((as.yields_subst i).bind ((as.yields_subst v).bind (as.yields_pure _)))
  | cond cmp x y e₁ e₂ ih₁ ih₂ =>
    exact (as.yields_subst x).bind
      ((as.yields_subst y).bind ((ih₁ as).bind ((ih₂ as).bind (as.yields_pure _))))
  | letIn b e₁ e₂ ih₁ ih₂ =>
    exact (ih₁ as).bind (((ih₂ _).withEntry).bind (as.yields_pure _))
  | makeClosure b c e ih => exact ((ih _).withEntry).bind (as.yields_pure _)
  | letTuple bs t e ih =>
    have hbody := ih (as.hide bs)
    rw [Yields, table_hide] at hbody
    change (let s := (AliasTable.rewrite arrays e).run ((AliasTable.takeOut bs).run as.table).2
      (Expr.letTuple bs t s.1, s.2.putBack ((AliasTable.takeOut bs).run as.table).1)) = _
    rw [hbody]
    exact congrArg (Prod.mk _) (AliasTable.putBack_takeOut _ bs)

end Aliases

/-- Constants can be propagated with a table that starts empty, and it is empty again in the end. -/
theorem Expr.run_rewrite_empty (arrays : Bool) (e : Expr) :
    (AliasTable.rewrite arrays e).run (fun _ => none) =
      (e.propagateConstants arrays, fun _ => none) :=
  Aliases.yields_rewrite arrays [] e

end ClosureCodegen
