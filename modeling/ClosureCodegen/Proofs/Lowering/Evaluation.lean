import ClosureCodegen.Lowering.Basic
import ClosureCodegen.Proofs.Execution.Machine

/-!
# Evaluating expressions

An expression has a meaning of its own.  It is evaluated in a scope, which says at which types
variables are bound, with a word for every variable, and on a heap.  The result is a word, the heap
behind it, and what the evaluation shows: its writes, its claims of heap, and its calls.

Closures and tuples are records at the top of the heap, which moves up by their size.  A record has
its integer fields first and its float fields behind them; fields of unit type have no place.
Arguments are passed in the same order.  Calls, addresses and the operations on floats come from the
environment of a run, so that an evaluation can be compared with the run of its code.

`HasClass` says which register class the value of an expression has, given the scope; an expression
of unit type has none.
-/

namespace ClosureCodegen

/-! ## Scopes -/

def typeIn (scope : List Binding) (x : String) : Option Ty :=
  (scope.find? fun b => b.name = x).map Binding.ty

/-- The class of a variable; one of unit type has none. -/
def classIn (scope : List Binding) (x : String) : Option RegClass :=
  (typeIn scope x).bind Ty.cls?

/-- Variables in the order in which their values stand in a record or a call: integers first, and
those of unit type left out. -/
def fieldOrder (scope : List Binding) (xs : List String) : List String :=
  xs.filter (fun x => classIn scope x = some .int) ++
    xs.filter fun x => classIn scope x = some .float

/-- The names of bindings in the order in which their values stand in a record. -/
def bindingOrder (bs : List Binding) : List String :=
  (bs.filter fun b => b.ty.cls? = some .int).map Binding.name ++
    (bs.filter fun b => b.ty.cls? = some .float).map Binding.name

inductive HasClass : List Binding → Expr → Option RegClass → Prop where
  | unit {Γ} : HasClass Γ .unit none
  | int {Γ n} : HasClass Γ (.int n) (some .int)
  | float {Γ v} : HasClass Γ (.float v) (some .float)
  | unary {Γ op x} : classIn Γ x = some op.cls → HasClass Γ (.unary op x) (some op.cls)
  | binary {Γ op x y} : classIn Γ x = some op.cls → classIn Γ y = some op.cls →
      HasClass Γ (.binary op x y) (some op.cls)
  | cond {Γ cmp x y holds fails c k} : classIn Γ x = some c → classIn Γ y = some c →
      HasClass Γ holds k → HasClass Γ fails k → HasClass Γ (.cond cmp x y holds fails) k
  | letIn {Γ b e₁ e₂ k} : HasClass Γ e₁ b.ty.cls? → HasClass (b :: Γ) e₂ k →
      HasClass Γ (.letIn b e₁ e₂) k
  | var {Γ x t} : typeIn Γ x = some t → HasClass Γ (.var x) t.cls?
  | makeClosure {Γ b c e k} : b.ty.cls? = some .int →
      (∀ x ∈ c.captured, (typeIn (b :: Γ) x).isSome) → HasClass (b :: Γ) e k →
      HasClass Γ (.makeClosure b c e) k
  | callClosure {Γ f args k} : classIn Γ f = some .int → (∀ x ∈ args, (typeIn Γ x).isSome) →
      HasClass Γ (.callClosure f args) k
  | callDirect {Γ f args k} : (∀ x ∈ args, (typeIn Γ x).isSome) → HasClass Γ (.callDirect f args) k
  | tuple {Γ xs} : (∀ x ∈ xs, (typeIn Γ x).isSome) → HasClass Γ (.tuple xs) (some .int)
  | letTuple {Γ bs t e k} : classIn Γ t = some .int → HasClass (bs.reverse ++ Γ) e k →
      HasClass Γ (.letTuple bs t e) k
  | get {Γ a i k} : classIn Γ a = some .int → classIn Γ i = some .int → HasClass Γ (.get a i) k
  | put {Γ a i v} : classIn Γ a = some .int → classIn Γ i = some .int → (typeIn Γ v).isSome →
      HasClass Γ (.put a i v) none
  | externArray {Γ name} : HasClass Γ (.externArray name) (some .int)

namespace Expr

def binders : Expr → List String
  | .cond _ _ _ holds fails => holds.binders ++ fails.binders
  | .letIn b e₁ e₂ => e₁.binders ++ b.name :: e₂.binders
  | .makeClosure b _ e => b.name :: e.binders
  | .letTuple bs _ e => bs.map Binding.name ++ e.binders
  | _ => []

/-- The variables that an expression reads and does not bind. -/
def free : Expr → List String
  | .unit | .int _ | .float _ | .externArray _ => []
  | .unary _ x | .var x => [x]
  | .binary _ x y | .get x y => [x, y]
  | .cond _ x y holds fails => x :: y :: holds.free ++ fails.free
  | .letIn b e₁ e₂ => e₁.free ++ e₂.free.filter (· ≠ b.name)
  | .makeClosure b c e => (c.captured ++ e.free).filter (· ≠ b.name)
  | .callClosure f args => f :: args
  | .callDirect _ args => args
  | .tuple xs => xs
  | .letTuple bs t e => t :: e.free.filter (· ∉ bs.map Binding.name)
  | .put a i v => [a, i, v]

def literals : Expr → List Binary64
  | .float v => [v]
  | .cond _ _ _ holds fails => holds.literals ++ fails.literals
  | .letIn _ e₁ e₂ => e₁.literals ++ e₂.literals
  | .makeClosure _ _ e | .letTuple _ _ e => e.literals
  | _ => []

end Expr

/-! ## Evaluation -/

/-- A word for every variable. -/
abbrev Valuation := String → Word

def Valuation.set (ρ : Valuation) (x : String) (v : Word) : Valuation :=
  fun y => if y = x then v else ρ y

/-- A valuation with the words of a record for variables in order. -/
def Valuation.setFields (memory : Word → Word) (base : Word) :
    Valuation → Nat → List String → Valuation
  | ρ, _, [] => ρ
  | ρ, k, x :: xs => setFields memory base (ρ.set x (memory (base + Word.ofCount k))) (k + 1) xs

namespace Heap

def write (h : Heap) (a v : Word) : Heap :=
  { h with memory := fun b => if b = a then v else h.memory b }

/-- Writes words one behind another, from a number of words behind a base. -/
def writeFields (base : Word) : Heap → Nat → List Word → Heap
  | h, _, [] => h
  | h, k, v :: vs => writeFields base (h.write (base + Word.ofCount k) v) (k + 1) vs

def record (h : Heap) (fields : List Word) : Heap :=
  writeFields h.top { h with top := h.top + Word.ofCount fields.length } 0 fields

end Heap

/-- What writing words one behind another shows. -/
def fieldEvents (base : Word) : Nat → List Word → List Event
  | _, [] => []
  | k, v :: vs => .store (base + Word.ofCount k) v :: fieldEvents base (k + 1) vs

/-- What building a record at the top of a heap shows. -/
def recordEvents (top : Word) (fields : List Word) : List Event :=
  .heapTop (top + Word.ofCount fields.length) :: fieldEvents top 0 fields

/-- The operation on one operand. -/
def UnaryOp.apply (env : Environment) : UnaryOp → Word → Word
  | .neg, a => -a
  | .fneg, a => env.unary .fneg a

/-- The operation on two operands. A product is a shift to the left and a quotient a logical shift
to the right. -/
def BinaryOp.apply (env : Environment) : BinaryOp → Word → Word → Word
  | .add, a, b => a + b
  | .sub, a, b => a - b
  | .mul, a, b => a.shiftLeft b
  | .div, a, b => a.shiftRight b
  | .fadd, a, b => env.binary .fadd a b
  | .fsub, a, b => env.binary .fsub a b
  | .fmul, a, b => env.binary .fmul a b
  | .fdiv, a, b => env.binary .fdiv a b

def Comparison.holds (env : Environment) : Comparison → RegClass → Word → Word → Bool
  | .eq, .int, a, b => a = b
  | .ne, .int, a, b => a ≠ b
  | .le, .int, a, b => a.sle b
  | .lt, .int, a, b => a.slt b
  | .eq, .float, a, b => env.compare .bfeq a b
  | .ne, .float, a, b => !env.compare .bfeq a b
  | .le, .float, a, b => env.compare .bfle a b
  | .lt, .float, a, b => env.compare .bflt a b

/-- The address of an element of an array. -/
def elementOf (base index : Word) : Word := base + 4 * index

/-- The result of an evaluation. A value of unit type is some word that nobody reads. -/
structure Evaluation where
  value : Word
  heap : Heap
  events : List Event

namespace Evaluation

def after (events : List Event) (e : Evaluation) : Evaluation :=
  { e with events := events ++ e.events }

def call (env : Environment) (callee : Callee) (args : List Word) (h : Heap) : Evaluation :=
  let outcome := env.call callee args h
  ⟨outcome.1, outcome.2, [.call callee args]⟩

end Evaluation

def Expr.eval (env : Environment) (e : Expr) (Γ : List Binding) (ρ : Valuation) (h : Heap) :
    Evaluation :=
  match e with
  | .unit => ⟨0, h, []⟩
  | .int n => ⟨n, h, []⟩
  | .float v => ⟨env.literal v, h, []⟩
  | .unary op x => ⟨op.apply env (ρ x), h, []⟩
  | .binary op x y => ⟨op.apply env (ρ x) (ρ y), h, []⟩
  | .cond cmp x y holds fails =>
    if cmp.holds env ((classIn Γ x).getD .int) (ρ x) (ρ y) then holds.eval env Γ ρ h
    else fails.eval env Γ ρ h
  | .letIn b e₁ e₂ =>
    let first := e₁.eval env Γ ρ h
    (e₂.eval env (b :: Γ) (ρ.set b.name first.value) first.heap).after first.events
  | .var x => ⟨ρ x, h, []⟩
  | .makeClosure b c e =>
    -- the closure may capture itself
    let ρ := ρ.set b.name h.top
    let fields := env.address c.entry :: (fieldOrder (b :: Γ) c.captured).map ρ
    (e.eval env (b :: Γ) ρ (h.record fields)).after (recordEvents h.top fields)
  | .callClosure f args => .call env (.closure (ρ f)) ((fieldOrder Γ args).map ρ) h
  | .callDirect f args => .call env (.function f) ((fieldOrder Γ args).map ρ) h
  | .tuple xs =>
    let fields := (fieldOrder Γ xs).map ρ
    ⟨h.top, h.record fields, recordEvents h.top fields⟩
  | .letTuple bs t e =>
    e.eval env (bs.reverse ++ Γ) (ρ.setFields h.memory (ρ t) 0 (bindingOrder bs)) h
  | .get a i => ⟨h.memory (elementOf (ρ a) (ρ i)), h, []⟩
  | .put a i v =>
    if (classIn Γ v).isSome then
      ⟨0, h.write (elementOf (ρ a) (ρ i)) (ρ v), [.store (elementOf (ρ a) (ρ i)) (ρ v)]⟩
    else ⟨0, h, []⟩
  | .externArray name => ⟨env.address name, h, []⟩

end ClosureCodegen
