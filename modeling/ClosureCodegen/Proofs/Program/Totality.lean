import Mathlib.Algebra.GroupWithZero.Nat
import Mathlib.Data.List.Induction
import ClosureCodegen.Program.Grammar

/-!
# Reading ends

A reader goes forward in the tokens of a text, and fails at one of them.  Readers that are called again
inside themselves, or for the items of a list, take a token before they are, so the bounds on the depth
and on the number of items are never reached.

* `Reader.Agree`: two readers do the same with few tokens, and move forward.  Each reader of the grammar
  agrees with itself, and also if it is given two readers that agree.
* `ofText_total`: what this means for texts.
-/

namespace ClosureCodegen
open List

variable {α β : Type} {p q : Position} {cs : List Char} {i i' : Input} {k m n j : Nat}

/-- The places where reading may fail. -/
def Input.HasPlace (i : Input) (q : Position) : Prop :=
  q = i.finish ∨ ∃ t ∈ i.tokens, q = t.start ∨ q = t.stop

/-- The errors of reading: failures at a place of the input, and no bound that was reached. -/
def Input.HasError (i : Input) : ReadError → Prop
  | .failed q _ => i.HasPlace q
  | .exhausted => False

/-- An input is what is left of another one after at least `k` tokens. -/
structure Input.Leaves (k : Nat) (i i' : Input) : Prop where
  suffix : i'.tokens <:+ i.tokens
  finish : i'.finish = i.finish
  length : i'.tokens.length + k ≤ i.tokens.length

theorem Input.HasPlace.of_leaves (h : i'.HasPlace q) (hi : i.Leaves k i') : i.HasPlace q := by
  rcases h with h | ⟨t, ht, h⟩
  · exact .inl (h.trans hi.finish)
  · exact .inr ⟨t, hi.suffix.subset ht, h⟩

theorem Input.HasError.of_leaves {e : ReadError} (h : i'.HasError e) (hi : i.Leaves k i') :
    i.HasError e := by
  cases e with
  | failed q _ => exact HasPlace.of_leaves h hi
  | exhausted => exact h.elim

theorem Input.hasPlace_position (i : Input) : i.HasPlace i.position := by
  obtain ⟨_ | ⟨t, ts⟩, finish⟩ := i
  · exact .inl rfl
  · exact .inr ⟨t, mem_cons_self, .inl rfl⟩

theorem Input.leaves_of_suffix {ts : List Lexeme} (h : ts <:+ i.tokens) :
    i.Leaves 0 ⟨ts, i.finish⟩ := ⟨h, rfl, h.length_le⟩

namespace Reader

variable {r r' u u' : Reader α} {f f' : α → Reader β}

/-- A reader goes on behind at least `k` tokens, or fails at a place of its input. -/
structure Moves (k : Nat) (i : Input) (r : Reader α) : Prop where
  ok : ∀ a i', r i = .ok (a, i') → i.Leaves k i'
  error : ∀ e, r i = .error e → i.HasError e

/-- A reader that takes a token wherever it succeeds. -/
def Advances (r : Reader α) : Prop := ∀ i, Moves 1 i r

/-- Wherever fewer than `n` tokens are left, two readers do the same, and move. -/
class Agree (k n : Nat) (r r' : Reader α) : Prop where
  at_input : ∀ i, i.tokens.length < n → r i = r' i ∧ Moves k i r

namespace Agree

theorem bind (hj : j ≤ k) (hr : Agree k (n + j) r r') (hf : ∀ a, Agree m n (f a) (f' a)) :
    Agree (k + m) (n + j) (r >>= f) (r' >>= f') where
  at_input i hi := by
    obtain ⟨heq, hok, herror⟩ := hr.at_input i hi
    have h : (r >>= f) i = Except.bind (r i) fun x => f x.1 x.2 := rfl
    have h' : (r' >>= f') i = Except.bind (r i) fun x => f' x.1 x.2 := by rw [heq]; rfl
    cases hx : r i with
    | error e =>
      rw [hx] at h h'
      refine ⟨h.trans h'.symm, fun a i' ha => ?_, fun e' he => ?_⟩
      · cases h.symm.trans ha
      · cases h.symm.trans he
        exact herror e hx
    | ok x =>
      rw [hx] at h h'
      have hx := hok x.1 x.2 hx
      have hlength := hx.length
      obtain ⟨heq', hok', herror'⟩ := (hf x.1).at_input x.2 (by omega)
      refine ⟨h.trans (heq'.trans h'.symm), fun b i' hb => ?_, fun e he => ?_⟩
      · have hi' := hok' b i' (h.symm.trans hb)
        have hlength' := hi'.length
        exact ⟨hi'.suffix.trans hx.suffix, hi'.finish.trans hx.finish, by omega⟩
      · exact (herror' e (h.symm.trans he)).of_leaves hx

theorem mono (h : Agree k n r r') (hk : j ≤ k) (hn : m ≤ n) : Agree j m r r' where
  at_input i hi := by
    obtain ⟨heq, hok, herror⟩ := h.at_input i (Nat.lt_of_lt_of_le hi hn)
    refine ⟨heq, fun a i' ha => ?_, herror⟩
    obtain ⟨hsuffix, hfinish, hlength⟩ := hok a i' ha
    exact ⟨hsuffix, hfinish, by omega⟩

instance (priority := low) weaken [h : Agree 1 n r r'] : Agree 0 n r r' :=
  h.mono (Nat.zero_le 1) (Nat.le_refl n)

/-- A reader that takes a token, and then goes on in any way. -/
theorem take (hr : Agree 1 n r r') (hf : ∀ a, Agree m n (f a) (f' a)) :
    Agree 1 n (r >>= f) (r' >>= f') :=
  (bind (j := 0) (Nat.zero_le 1) hr hf).mono (Nat.le_add_right 1 m) (Nat.le_refl n)

/-- A reader that may take no token. -/
theorem look (hr : Agree 0 n r r') (hf : ∀ a, Agree m n (f a) (f' a)) :
    Agree m n (r >>= f) (r' >>= f') :=
  (bind (j := 0) (Nat.le_refl 0) hr hf).mono (Nat.le_add_left m 0) (Nat.le_refl n)

/-- Behind a token that was taken, it is enough that readers agree on shorter inputs. -/
theorem descend (hr : Agree 1 (n + 1) r r') (hf : ∀ a, Agree m n (f a) (f' a)) :
    Agree 1 (n + 1) (r >>= f) (r' >>= f') :=
  (bind (Nat.le_refl 1) hr hf).mono (Nat.le_add_right 1 m) (Nat.le_refl (n + 1))

theorem ite {b : Prop} [Decidable b] (h : Agree k n r r') (g : Agree k n u u') :
    Agree k n (if b then r else u) (if b then r' else u') := by
  split
  · exact h
  · exact g

/-! ## Readers of tokens -/

theorem of_result (hr : ∀ i, (∃ e, r i = .error e ∧ i.HasError e) ∨
    ∃ a i', r i = .ok (a, i') ∧ i.Leaves k i') : Agree k n r r where
  at_input i _ := by
    rcases hr i with ⟨e, he, hplace⟩ | ⟨a, i', ha, hi'⟩
    · exact ⟨rfl, by rw [he]; rintro _ _ ⟨⟩, by rw [he]; rintro _ ⟨⟩; exact hplace⟩
    · exact ⟨rfl, by rw [ha]; rintro _ _ ⟨⟩; exact hi', by rw [ha]; rintro _ ⟨⟩⟩

theorem pure (a : α) : Agree 0 n (Pure.pure a : Reader α) (Pure.pure a) :=
  of_result fun _ => .inr ⟨a, _, rfl, Input.leaves_of_suffix (suffix_refl _)⟩

instance tryMark (c : Char) : Agree 0 n (tryMark c) (tryMark c) := by
  refine of_result fun i => .inr ?_
  obtain ⟨_ | ⟨t, ts⟩, finish⟩ := i
  · exact ⟨_, _, rfl, Input.leaves_of_suffix (suffix_refl _)⟩
  · by_cases h : t.token = .mark c
    · exact ⟨_, _, if_pos h, Input.leaves_of_suffix (suffix_cons t ts)⟩
    · exact ⟨_, _, if_neg h, Input.leaves_of_suffix (suffix_refl _)⟩

instance peekMark (c : Char) : Agree 0 n (peekMark c) (peekMark c) :=
  of_result fun _ => .inr ⟨_, _, rfl, Input.leaves_of_suffix (suffix_refl _)⟩

theorem closeBrackets?_suffix {depth : Nat} {ts us : List Lexeme}
    (h : closeBrackets? depth ts = some us) : us <:+ ts := by
  fun_induction closeBrackets? depth ts <;> grind

instance skipGroup : Agree 0 n skipGroup skipGroup := by
  refine of_result fun i => ?_
  unfold Reader.skipGroup
  split
  · next ts h => exact .inr ⟨_, _, rfl, Input.leaves_of_suffix (closeBrackets?_suffix h)⟩
  · exact .inl ⟨_, rfl, .inl rfl⟩

instance atEnd (reason : ReadReason) : Agree 0 n (atEnd reason) (atEnd reason) := by
  refine of_result fun i => ?_
  obtain ⟨_ | ⟨t, ts⟩, finish⟩ := i
  · exact .inr ⟨_, _, rfl, Input.leaves_of_suffix (suffix_refl _)⟩
  · exact .inl ⟨_, rfl, Input.hasPlace_position _⟩

/-- What a reader of one token does, whose value has the place behind the token. -/
def TakesToken (r : Reader α) (stop : α → Position) : Prop :=
  ∀ i, (∃ reason, r i = .error (.failed i.position reason)) ∨
    ∃ a t ts, r i = .ok (a, ⟨ts, i.finish⟩) ∧ i.tokens = t :: ts ∧ stop a = t.stop

theorem takesToken_mark (c : Char) : TakesToken (mark c) id := by
  rintro ⟨_ | ⟨t, ts⟩, finish⟩
  · exact .inl ⟨_, rfl⟩
  · by_cases h : t.token = .mark c
    · exact .inr ⟨_, t, ts, if_pos h, rfl, rfl⟩
    · exact .inl ⟨_, if_neg h⟩

theorem takesToken_locatedWord : TakesToken locatedWord Prod.snd := by
  rintro ⟨_ | ⟨⟨_ | w, start, stop⟩, ts⟩, finish⟩
  · exact .inl ⟨_, rfl⟩
  · exact .inl ⟨_, rfl⟩
  · exact .inr ⟨_, _, ts, rfl, rfl, rfl⟩

/-- The value that is made of a token, or a failure that is reported behind it. -/
theorem of_token {stop : α → Position} (hr : TakesToken r stop)
    (hf : ∀ a, (∃ b, f a = Pure.pure b) ∨ ∃ reason, f a = throw (.failed (stop a) reason)) :
    Agree 1 n (r >>= f) (r >>= f) := by
  have h : ∀ i, (r >>= f) i = Except.bind (r i) fun x => f x.1 x.2 := fun _ => rfl
  refine of_result fun i => ?_
  rcases hr i with ⟨reason, he⟩ | ⟨a, t, ts, ha, hi, hstop⟩
  · exact .inl ⟨.failed i.position reason, by rw [h, he]; rfl, i.hasPlace_position⟩
  rcases hf a with ⟨b, hb⟩ | ⟨reason, hthrow⟩
  · refine .inr ⟨b, ⟨ts, i.finish⟩, by rw [h, ha]; exact congrFun hb _, ?_⟩
    exact ⟨by rw [hi]; exact suffix_cons t ts, rfl, by rw [hi]; exact Nat.le_refl _⟩
  · exact .inl ⟨.failed (stop a) reason, by rw [h, ha]; exact congrFun hthrow _,
      .inr ⟨t, hi ▸ mem_cons_self, .inr hstop⟩⟩

instance mark (c : Char) : Agree 1 n (mark c) (mark c) := by
  rw [← bind_pure (Reader.mark c)]
  exact of_token (takesToken_mark c) fun q => .inl ⟨q, rfl⟩

instance word : Agree 1 n word word := of_token takesToken_locatedWord fun x => .inl ⟨x.1, rfl⟩

instance keyword (w : String) : Agree 1 n (keyword w) (keyword w) := by
  refine of_token takesToken_locatedWord fun x => ?_
  dsimp only
  split
  · exact .inl ⟨_, rfl⟩
  · exact .inr ⟨_, rfl⟩

instance literal (value? : String → Option α) (reason : String → ReadReason) :
    Agree 1 n (literal value? reason) (literal value? reason) := by
  refine of_token takesToken_locatedWord fun x => ?_
  dsimp only
  cases value? x.1 with
  | none => exact .inr ⟨_, rfl⟩
  | some a => exact .inl ⟨a, rfl⟩

/-! ## Bounds -/

theorem withBound {g g' : Nat → Reader α} (h : ∀ m ≤ n, Agree k m (g m) (g' m)) :
    Agree k n (do g (← get).bound) (do g' (← get).bound) where
  at_input i hi :=
    let ⟨heq, hmoves⟩ := (h i.bound hi).at_input i (Nat.lt_succ_self _)
    ⟨heq, hmoves.ok, hmoves.error⟩

/-- With a bound that goes down by one when a reader is called again, it is enough that one token is
taken before this. -/
theorem of_step {g g' : Nat → Reader α} (h : ∀ m < n, ∀ d d', Agree k m (g d) (g' d') →
      Agree k (m + 1) (g (d + 1)) (g' (d' + 1))) {d d' : Nat} (hd : n ≤ d) (hd' : n ≤ d') :
    Agree k n (g d) (g' d') := by
  induction n generalizing d d' with
  | zero => exact ⟨fun _ hi => absurd hi (Nat.not_lt_zero _)⟩
  | succ n ih =>
    obtain ⟨d, rfl⟩ := Nat.exists_eq_add_of_le' (Nat.le_trans (Nat.le_add_left 1 n) hd)
    obtain ⟨d', rfl⟩ := Nat.exists_eq_add_of_le' (Nat.le_trans (Nat.le_add_left 1 n) hd')
    exact h n (Nat.lt_succ_self n) d d' (ih (fun m hm => h m (Nat.lt_succ_of_lt hm))
      (Nat.le_of_succ_le_succ hd) (Nat.le_of_succ_le_succ hd'))

/-- As no bound is reached, a reader without one is called again as such. -/
theorem bounded_eq {g : Nat → Reader α} {step : Reader α → Reader α} (hg : ∀ d, g (d + 1) = step (g d))
    (h : ∀ m r r', Agree k m r r' → Agree k (m + 1) (step r) (step r')) :
    (do g (← get).bound) = step (do g (← get).bound) := by
  funext i
  have hall : ∀ {n d d' : Nat}, n ≤ d → n ≤ d' → Agree k n (g d) (g d') :=
    of_step fun m _ d d' hd => hg d ▸ hg d' ▸ h m _ _ hd
  have hinner : Agree k i.tokens.length (g i.tokens.length) (do g (← get).bound) :=
    ⟨fun i' hi => (hall hi (Nat.le_refl _)).at_input i' (Nat.lt_succ_self _)⟩
  exact (congrFun (hg _) i).trans ((h _ _ _ hinner).at_input i (Nat.lt_succ_self _)).1

/-! ## Lists, types and expressions -/

theorem itemsOf {v v' : Reader (List α)} (hr : Agree 1 (n + 1) r r') (h : Agree 0 n v v') :
    Agree 0 (n + 1) (itemsOf r v) (itemsOf r' v') :=
  look (tryMark ']') fun _ => ite (pure _) <| @weaken _ _ _ _ <| descend hr fun _ =>
    look (tryMark ',') fun _ => ite (look h fun _ => pure _) <| @weaken _ _ _ _ <|
      take (mark ']') fun _ => pure _

theorem items (h : Agree 1 n r r') {m m' : Nat} :
    n ≤ m → n ≤ m' → Agree 0 n (items r m) (items r' m') :=
  of_step fun _ hl _ _ => itemsOf (h.mono (Nat.le_refl 1) hl)

instance list [h : Agree 1 n r r'] : Agree 1 n (list r) (list r') :=
  take (mark '[') fun _ =>
    withBound fun m hm => items (h.mono (Nat.le_refl 1) hm) (Nat.le_refl m) (Nat.le_refl m)

theorem tyOf {r r' : Reader Ty} (h : Agree 1 n r r') : Agree 1 (n + 1) (tyOf r) (tyOf r') := by
  refine look (tryMark '(') fun _ => ite (take (mark ')') fun _ => pure _) <|
    descend (m := 0) word fun name => ?_
  refine ite (pure _) <| ite (pure _) <| ite (pure _) <| ite (pure _) <| ite ?_ <| ite ?_ <| ite ?_ ?_
  · exact @weaken _ _ _ _ <| take (mark '(') fun _ => take list fun _ => take (mark ',') fun _ =>
      take h fun _ => take (mark ')') fun _ => pure _
  · exact @weaken _ _ _ _ <| take (mark '(') fun _ => take list fun _ => take (mark ')') fun _ => pure _
  · exact @weaken _ _ _ _ <| take (mark '(') fun _ => take h fun _ => take (mark ')') fun _ => pure _
  · exact look (peekMark '(') fun _ => ite (look skipGroup fun _ => pure _) (pure _)

theorem ty {d d' : Nat} : n ≤ d → n ≤ d' → Agree 1 n (ty d) (ty d') := of_step fun _ _ _ _ => tyOf

instance anyTy : Agree 1 n anyTy anyTy := withBound fun m _ => ty (Nat.le_refl m) (Nat.le_refl m)

instance binding : Agree 1 n binding binding :=
  take (mark '(') fun _ => take word fun _ => take (mark ',') fun _ => take anyTy fun _ =>
    take (mark ')') fun _ => pure _

instance field (name : String) : Agree 1 n (field name) (field name) :=
  take (keyword name) fun _ => take (mark ':') fun _ => pure _

instance closure : Agree 1 n closure closure :=
  take (mark _) fun _ => take (field _) fun _ => take word fun _ => take (mark ',') fun _ =>
    take (field _) fun _ => take list fun _ => take (mark _) fun _ => pure _

instance pair : Agree 1 n pair pair :=
  take word fun _ => take (mark ',') fun _ => take word fun _ => pure _

theorem parts {e e' : Reader Expr} (h : Agree 1 n e e') (form : Form) :
    Agree 1 n (parts e form) (parts e' form) := by
  cases form with
  | int | float => exact take (literal _ _) fun _ => pure _
  | unary | var | externArray => exact take word fun _ => pure _
  | binary | get => exact take pair fun _ => pure _
  | cond =>
    exact take pair fun _ => take (mark ',') fun _ => take h fun _ => take (mark ',') fun _ =>
      take h fun _ => pure _
  | letIn =>
    exact take binding fun _ => take (mark ',') fun _ => take h fun _ => take (mark ',') fun _ =>
      take h fun _ => pure _
  | makeClosure =>
    exact take binding fun _ => take (mark ',') fun _ => take closure fun _ => take (mark ',') fun _ =>
      take h fun _ => pure _
  | callClosure | callDirect =>
    exact take word fun _ => take (mark ',') fun _ => take list fun _ => pure _
  | tuple => exact take list fun _ => pure _
  | letTuple =>
    exact take list fun _ => take (mark ',') fun _ => take word fun _ => take (mark ',') fun _ =>
      take h fun _ => pure _
  | put => exact take pair fun _ => take (mark ',') fun _ => take word fun _ => pure _

theorem exprOf {r r' : Reader Expr} (h : Agree 1 n r r') :
    Agree 1 (n + 1) (exprOf r) (exprOf r') := by
  refine descend word fun name => ite (pure _) <| @weaken _ _ _ _ ?_
  cases hform : Form.ofName? name with
  | none => exact of_token (takesToken_mark '(') fun q => .inr ⟨_, rfl⟩
  | some form => exact take (mark '(') fun _ => take (parts h form) fun _ => take (mark ')') fun _ => pure _

theorem expr {d d' : Nat} : n ≤ d → n ≤ d' → Agree 1 n (expr d) (expr d') :=
  of_step fun _ _ _ _ => exprOf

instance anyExpr : Agree 1 n anyExpr anyExpr :=
  withBound fun m _ => expr (Nat.le_refl m) (Nat.le_refl m)

instance definition : Agree 1 n definition definition :=
  take (mark _) fun _ => take (field _) fun _ => take binding fun _ => take (mark ',') fun _ =>
    take (field _) fun _ => take list fun _ => take (mark ',') fun _ =>
    take (field _) fun _ => take list fun _ => take (mark ',') fun _ =>
    take (field _) fun _ => take anyExpr fun _ => take (mark _) fun _ => pure _

instance program : Agree 1 n program program :=
  take (field _) fun _ => take (literal _ _) fun _ => take (keyword _) fun _ => take (field _) fun _ =>
    take list fun _ => take (field _) fun _ => take anyExpr fun _ => pure _

end Agree

theorem allItems_eq (h : ∀ n, Agree 1 n r r) : allItems r = itemsOf r (allItems r) :=
  Agree.bounded_eq (fun _ => rfl) fun _ _ _ => Agree.itemsOf (h _)

theorem anyTy_eq : anyTy = tyOf anyTy := Agree.bounded_eq (fun _ => rfl) fun _ _ _ => Agree.tyOf

theorem anyExpr_eq : anyExpr = exprOf anyExpr :=
  Agree.bounded_eq (fun _ => rfl) fun _ _ _ => Agree.exprOf

/-! ## Groups in brackets -/

def opens (t : Lexeme) : Bool := t.token = .mark '(' || t.token = .mark '['

def closes (t : Lexeme) : Bool := t.token = .mark ')' || t.token = .mark ']'

theorem closeBrackets?_cons (d : Nat) (t : Lexeme) (ts : List Lexeme) :
    closeBrackets? d (t :: ts) =
      if opens t then closeBrackets? (d + 1) ts
      else if closes t then (if d ≤ 1 then some ts else closeBrackets? (d - 1) ts)
      else closeBrackets? d ts := by
  rw [closeBrackets?]
  split <;> simp_all [opens, closes]

theorem closes_eq_false_of_opens {t : Lexeme} (h : opens t = true) : closes t = false := by
  simp only [opens, Bool.or_eq_true, decide_eq_true_eq] at h
  rcases h with h | h <;> simp [closes, h]

/-- As long as the group is not closed, the counter is the number of open brackets. -/
theorem exists_depth {d : Nat} {before : List Lexeme} (hd : 0 < d)
    (h : closeBrackets? d before = none) (after : List Lexeme) :
    ∃ depth, 0 < depth ∧ depth + before.countP closes = d + before.countP opens ∧
      closeBrackets? d (before ++ after) = closeBrackets? depth after := by
  induction before generalizing d with
  | nil => exact ⟨d, hd, rfl, rfl⟩
  | cons t before ih =>
    rw [closeBrackets?_cons] at h
    rw [cons_append, closeBrackets?_cons, countP_cons, countP_cons]
    cases hopen : opens t with
    | true =>
      simp only [hopen, closes_eq_false_of_opens hopen, if_true, Bool.false_eq_true, if_false] at h ⊢
      obtain ⟨depth, hpos, hsum, heq⟩ := ih (Nat.succ_pos d) h
      exact ⟨depth, hpos, by omega, heq⟩
    | false =>
      cases hclose : closes t with
      | true =>
        by_cases hlast : d ≤ 1
        · simp [hopen, hclose, hlast] at h
        simp only [hopen, hclose, hlast, if_true, Bool.false_eq_true, if_false] at h ⊢
        obtain ⟨depth, hpos, hsum, heq⟩ := ih (Nat.lt_sub_of_add_lt (Nat.lt_of_not_le hlast)) h
        exact ⟨depth, hpos, by omega, heq⟩
      | false =>
        simp only [hopen, hclose, Bool.false_eq_true, if_false] at h ⊢
        exact ih hd h

/-- In front of an opening bracket, a closing bracket is met only while a bracket is open. -/
theorem exists_depth_of_peekMark {i i' : Input} (hpeek : peekMark '(' i = .ok (true, i'))
    {before after : List Lexeme} {t : Lexeme} (hsplit : i.tokens = before ++ t :: after)
    (hopen : closeBrackets? 0 before = none) (hclose : closes t = true) :
    ∃ depth, 0 < depth ∧ depth + before.countP closes = before.countP opens ∧
      closeBrackets? 0 i.tokens = closeBrackets? depth (t :: after) := by
  have hfirst : (i.tokens.head?.any fun t => t.token = .mark '(') = true := by
    injection hpeek with h
    exact congrArg Prod.fst h
  rw [hsplit] at hfirst ⊢
  cases before with
  | nil => simp [closes, of_decide_eq_true hfirst] at hclose
  | cons u before =>
    have hu : opens u = true := Bool.or_eq_true_iff.mpr (.inl hfirst)
    rw [closeBrackets?_cons, if_pos hu] at hopen
    obtain ⟨depth, hpos, hsum, heq⟩ := exists_depth Nat.one_pos hopen (t :: after)
    refine ⟨depth, hpos, ?_, by rw [cons_append, closeBrackets?_cons, if_pos hu, heq]⟩
    rw [countP_cons, countP_cons, closes_eq_false_of_opens hu, if_pos hu, if_neg Bool.false_ne_true]
    omega

end Reader

/-! ## Texts -/

theorem Position.passAll_append (p : Position) (front rest : List Char) :
    p.passAll (front ++ rest) = (p.passAll front).passAll rest := foldl_append

theorem Position.passAll_start (cs : List Char) : Position.start.passAll cs =
    ⟨cs.count '\n' + 1, ((cs.reverse.takeWhile (· ≠ '\n')).map Char.utf8Size).sum + 1⟩ := by
  induction cs using List.reverseRecOn with
  | nil => rfl
  | append_singleton cs c ih =>
    rw [Position.passAll_append, ih]
    by_cases hc : c = '\n'
    · simp [Position.passAll, Position.pass, hc]
    · simp [Position.passAll, Position.pass, hc]
      omega

/-- What is left to read of a text, from a place on. -/
def inputAt (p : Position) (cs : List Char) : Input := ⟨scan p cs, p.passAll cs⟩

/-- A token stands in the text, and the tokens after it are those of the text behind it. -/
theorem exists_of_scan_eq_cons {t : Lexeme} {ts : List Lexeme} (h : scan p cs = t :: ts) :
    ∃ blanks w rest, cs = blanks ++ (w ++ rest) ∧ t.start = p.passAll blanks ∧
      t.stop = p.passAll (blanks ++ w) ∧ ts = scan t.stop rest := by
  fun_induction scan p cs with
  | case1 => cases h
  | case2 p c cs _ ih =>
    obtain ⟨blanks, w, rest, rfl, hstart, hstop, hts⟩ := ih h
    exact ⟨c :: blanks, w, rest, rfl, hstart, hstop, hts⟩
  | case3 p c cs =>
    cases h
    exact ⟨[], [c], cs, rfl, rfl, rfl, rfl⟩
  | case4 p c cs _ _ word =>
    cases h
    refine ⟨[], word, cs.dropWhile isWordChar, ?_, rfl, rfl, rfl⟩
    rw [nil_append, cons_append, takeWhile_append_dropWhile]

theorem exists_of_suffix {ts : List Lexeme} (h : ts <:+ scan p cs) :
    ∃ front rest, cs = front ++ rest ∧ ts = scan (p.passAll front) rest := by
  obtain ⟨pre, h⟩ := h
  induction pre generalizing p cs with
  | nil => exact ⟨[], cs, rfl, h⟩
  | cons t pre ih =>
    obtain ⟨blanks, w, rest, rfl, -, hstop, htail⟩ := exists_of_scan_eq_cons h.symm
    obtain ⟨front, rest, rfl, hrest⟩ := ih htail
    exact ⟨blanks ++ w ++ front, rest, by simp, by rw [hrest, hstop, ← Position.passAll_append]⟩

theorem exists_of_hasPlace (h : (inputAt p cs).HasPlace q) :
    ∃ front rest, cs = front ++ rest ∧ q = p.passAll front := by
  rcases h with rfl | ⟨t, ht, h⟩
  · exact ⟨cs, [], (append_nil cs).symm, rfl⟩
  · obtain ⟨pre, ts, hts⟩ := append_of_mem ht
    obtain ⟨front, rest, rfl, hrest⟩ := exists_of_suffix ⟨pre, hts.symm⟩
    obtain ⟨blanks, w, rest, rfl, hstart, hstop, -⟩ := exists_of_scan_eq_cons hrest.symm
    rw [hstart, hstop, ← Position.passAll_append, ← Position.passAll_append] at h
    rcases h with rfl | rfl
    · exact ⟨front ++ blanks, w ++ rest, by simp, rfl⟩
    · exact ⟨front ++ (blanks ++ w), rest, by simp, rfl⟩

open Reader

variable {r r' : Reader α}

theorem advances_iff_agree : Advances r ↔ ∀ n, Agree 1 n r r :=
  ⟨fun h _ => ⟨fun i _ => ⟨rfl, h i⟩⟩, fun h i => ((h _).at_input i (Nat.lt_succ_self _)).2⟩

theorem hasError_of_run {s : String} {e : ReadError} (hr : Advances r) (he : r.run s = .error e) :
    (Input.ofText s).HasError e := by
  refine (hr _).error e ?_
  change Except.map Prod.fst (r (Input.ofText s)) = _ at he
  cases hx : r (Input.ofText s) with
  | ok x =>
    rw [hx] at he
    cases he
  | error =>
    rw [hx] at he
    cases he
    rfl

theorem exists_of_hasError {s : String} {e : ReadError} (h : (Input.ofText s).HasError e) :
    ∃ front rest q reason, s.toList = front ++ rest ∧ e = .failed q reason ∧
      q.line = front.count '\n' + 1 ∧
      q.column = ((front.reverse.takeWhile (· ≠ '\n')).map Char.utf8Size).sum + 1 := by
  cases e with
  | exhausted => exact h.elim
  | failed q reason =>
    obtain ⟨front, rest, hs, hq⟩ := exists_of_hasPlace h
    rw [Position.passAll_start] at hq
    exact ⟨front, rest, q, reason, hs, rfl, by rw [hq], by rw [hq]⟩

/-- Reading a text ends with a value or with a failure at a place of the text, whose line and column are
counted up to there, and never at a bound. What a reader leaves is what stands behind a place of the text.
The readers of types, expressions, programs and items of lists take a token whenever they succeed. What
they read with the readers of their parts is decided by what these do on inputs with fewer tokens, so that
they are their own parts, and an input with fewer tokens than a bound is read as without a bound, on the
depth or on the number of items. The counter of open brackets is not zero where a bracket closes. -/
theorem ofText_total (s : String) :
    (∀ e, Ty.ofText s = .error e ∨ Expr.ofText s = .error e ∨ Program.ofText s = .error e →
      ∃ front rest q reason, s.toList = front ++ rest ∧ e = .failed q reason ∧
        q.line = front.count '\n' + 1 ∧
        q.column = ((front.reverse.takeWhile (· ≠ '\n')).map Char.utf8Size).sum + 1) ∧
    (∀ i, (Input.ofText s).Leaves 0 i → ∃ front rest, s.toList = front ++ rest ∧
      i = inputAt (Position.start.passAll front) rest) ∧
    (Advances anyTy ∧ Advances anyExpr ∧ Advances program ∧ Advances word ∧ Advances binding ∧
      Advances definition) ∧
    (∀ i,
      (∀ r r', Agree 1 i.tokens.length r r' → tyOf r i = tyOf r' i ∧ Moves 1 i (tyOf r)) ∧
      (∀ r r', Agree 1 i.tokens.length r r' → exprOf r i = exprOf r' i ∧ Moves 1 i (exprOf r)) ∧
      ∀ {α : Type} (item : Reader α) more more', Advances item → Agree 0 i.tokens.length more more' →
        itemsOf item more i = itemsOf item more' i ∧ Moves 0 i (itemsOf item more)) ∧
    (anyTy = tyOf anyTy ∧ anyExpr = exprOf anyExpr ∧
      ∀ {α : Type} (item : Reader α), Advances item → allItems item = itemsOf item (allItems item)) ∧
    (∀ i d, i.tokens.length < d → ty d i = anyTy i ∧ expr d i = anyExpr i ∧
      ∀ {α : Type} (item : Reader α), Advances item → items item d i = allItems item i) ∧
    ∀ i i' before t after, peekMark '(' i = .ok (true, i') → i.tokens = before ++ t :: after →
      closeBrackets? 0 before = none → closes t = true → ∃ depth, 0 < depth ∧
        depth + before.countP closes = before.countP opens ∧
        closeBrackets? 0 i.tokens = closeBrackets? depth (t :: after) := by
  have hty : Advances anyTy := advances_iff_agree.mpr fun _ => .anyTy
  have hexpr : Advances anyExpr := advances_iff_agree.mpr fun _ => .anyExpr
  have hprogram : Advances program := advances_iff_agree.mpr fun _ => .program
  refine ⟨fun e he => exists_of_hasError ?_, ?_, ⟨hty, hexpr, hprogram, advances_iff_agree.mpr fun _ => .word,
    advances_iff_agree.mpr fun _ => .binding, advances_iff_agree.mpr fun _ => .definition⟩,
    fun i => ⟨fun r r' h => ?_, fun r r' h => ?_, fun item more more' hitem h => ?_⟩,
    ⟨anyTy_eq, anyExpr_eq, fun item hitem => allItems_eq (advances_iff_agree.mp hitem)⟩, fun i d hd => ?_,
    fun i i' before t after hpeek hsplit hopen hclose =>
      exists_depth_of_peekMark hpeek hsplit hopen hclose⟩
  · rcases he with he | he | he
    · exact hasError_of_run hty he
    · exact hasError_of_run (advances_iff_agree.mpr fun _ =>
        .take .anyExpr fun _ => .look (.atEnd _) fun _ => .pure _) he
    · exact hasError_of_run (advances_iff_agree.mpr fun _ =>
        .take .program fun _ => .look (.atEnd _) fun _ => .pure _) he
  · rintro ⟨ts, finish⟩ ⟨hts, hfinish, -⟩
    obtain ⟨front, rest, hs, rfl⟩ := exists_of_suffix hts
    refine ⟨front, rest, hs, ?_⟩
    rw [show finish = _ from hfinish, inputAt, Input.ofText, hs, Position.passAll_append]
  · exact h.tyOf.at_input i (Nat.lt_succ_self _)
  · exact h.exprOf.at_input i (Nat.lt_succ_self _)
  · exact (Agree.itemsOf (advances_iff_agree.mp hitem _) h).at_input i (Nat.lt_succ_self _)
  · have hi := Nat.lt_succ_self i.tokens.length
    exact ⟨((Agree.ty hd (Nat.le_refl _)).at_input i hi).1,
      ((Agree.expr hd (Nat.le_refl _)).at_input i hi).1, fun item hitem =>
      ((Agree.items (advances_iff_agree.mp hitem _) hd (Nat.le_refl _)).at_input i hi).1⟩

end ClosureCodegen
