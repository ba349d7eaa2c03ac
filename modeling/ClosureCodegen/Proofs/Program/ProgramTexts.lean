import Mathlib
import ClosureCodegen.Numeral.Binary64.Text
import ClosureCodegen.Proofs.Program.TypeTexts

/-!
# Texts of programs

The pieces of a program are those of its definitions and of its top-level expression, and each form of
expression has its own.  How a float is written is left open: all that counts is that its text is a
word, and that it is read as this float.

* `Program.ofText_of_layout`: a program and its texts.
-/

namespace ClosureCodegen
open List

/-! ## Pieces -/

def namePieces (xs : List String) : List Piece := listPieces (xs.map fun x => [.word x])

def Binding.pieces (b : Binding) : List Piece :=
  .mark '(' :: .word b.name :: .mark ',' :: (b.ty.pieces ++ [.mark ')'])

def bindingPieces (bs : List Binding) : List Piece := listPieces (bs.map Binding.pieces)

def Closure.pieces (c : Closure) : List Piece :=
  .mark '\x7b' :: .word "entry" :: .mark ':' :: .word c.entry :: .mark ',' :: .word "actual_fv" ::
    .mark ':' :: (namePieces c.captured ++ [.mark '\x7d'])

def Form.pieces (f : Form) (parts : List Piece) : List Piece :=
  .word f.name :: .mark '(' :: (parts ++ [.mark ')'])

def Expr.pieces : Expr → List Piece
  | .unit => [.word "Unit"]
  | .int n => Form.int.pieces [.int n]
  | .float v => Form.float.pieces [.float v]
  | .unary op x => (Form.unary op).pieces [.word x]
  | .binary op x y => (Form.binary op).pieces [.word x, .mark ',', .word y]
  | .cond cmp x y e₁ e₂ => (Form.cond cmp).pieces
    (.word x :: .mark ',' :: .word y :: .mark ',' :: (e₁.pieces ++ .mark ',' :: e₂.pieces))
  | .letIn b e₁ e₂ => Form.letIn.pieces (b.pieces ++ .mark ',' :: (e₁.pieces ++ .mark ',' :: e₂.pieces))
  | .var x => Form.var.pieces [.word x]
  | .makeClosure b c e =>
    Form.makeClosure.pieces (b.pieces ++ .mark ',' :: (c.pieces ++ .mark ',' :: e.pieces))
  | .callClosure f xs => Form.callClosure.pieces (.word f :: .mark ',' :: namePieces xs)
  | .callDirect f xs => Form.callDirect.pieces (.word f :: .mark ',' :: namePieces xs)
  | .tuple xs => Form.tuple.pieces (namePieces xs)
  | .letTuple bs t e =>
    Form.letTuple.pieces (bindingPieces bs ++ .mark ',' :: .word t :: .mark ',' :: e.pieces)
  | .get a i => Form.get.pieces [.word a, .mark ',', .word i]
  | .put a i v => Form.put.pieces [.word a, .mark ',', .word i, .mark ',', .word v]
  | .externArray x => Form.externArray.pieces [.word x]

def Definition.pieces (d : Definition) : List Piece :=
  .mark '\x7b' :: .word "name" :: .mark ':' :: (d.binding.pieces ++ .mark ',' ::
    .word "args" :: .mark ':' :: (bindingPieces d.params ++ .mark ',' ::
    .word "formal_fv" :: .mark ':' :: (bindingPieces d.captured ++ .mark ',' ::
    .word "body" :: .mark ':' :: (d.body.pieces ++ [.mark '\x7d']))))

def Program.pieces (p : Program) : List Piece :=
  .word "first_hp" :: .mark ':' :: .int p.heapOffset ::
    .word "fundef" :: .word "list" :: .mark ':' :: (listPieces (p.definitions.map Definition.pieces) ++
    .word "t" :: .mark ':' :: p.body.pieces)

variable {f : Form} {ps : List Piece} {α β : Type} {a : α} {b : β}

/-! ## Reading -/

namespace Reads

theorem pair {x y : String} {g : String × String → Reader α} (h : Reads (g (x, y)) ps a) :
    Reads (Reader.pair >>= g) (.word x :: .mark ',' :: .word y :: ps) a := by
  simp only [Reader.pair, bind_assoc, pure_bind]
  exact word (mark fun _ => word h)

theorem field {name : String} {g : Unit → Reader α} (h : Reads (g ()) ps a) :
    Reads (Reader.field name >>= g) (.word name :: .mark ':' :: ps) a := by
  simp only [Reader.field, bind_assoc, pure_bind]
  exact keyword (mark fun _ => h)

theorem names (xs : List String) : Reads (Reader.list Reader.word) (namePieces xs) xs :=
  .list fun x _ => ⟨bind_pure Reader.word ▸ .word (.pure x), lacks_word⟩

theorem binding (b : Binding) : Reads Reader.binding b.pieces b :=
  .mark fun _ => .word (.mark fun _ => .bind b.ty.reads rfl (.mark fun _ => .pure b))

theorem bindings (bs : List Binding) : Reads (Reader.list Reader.binding) (bindingPieces bs) bs :=
  .list fun b _ => ⟨.binding b, lacks_mark (by decide)⟩

theorem closure (c : Closure) : Reads Reader.closure c.pieces c :=
  .mark fun _ => .field (.word (.mark fun _ => .field (.bind (.names _) rfl (.mark fun _ => .pure c))))

end Reads

theorem Form.name_spec (f : Form) : ofName? f.name = some f ∧ f.name ≠ "Unit" ∧ IsWord f.name := by
  rcases f with _ | _ | op | op | op <;> (try cases op) <;> decide

theorem Form.reads {e : Expr} (h : Reads (Reader.parts Reader.anyExpr f) ps e) :
    Reads Reader.anyExpr (f.pieces ps) e := by
  obtain ⟨hname, hunit, -⟩ := f.name_spec
  rw [Reader.anyExpr_eq]
  refine .word ?_
  simp only [if_neg hunit]
  refine .mark fun _ => ?_
  simp only [hname]
  exact .bind h rfl (.mark fun _ => .pure _)

theorem Expr.reads (e : Expr) : Reads Reader.anyExpr e.pieces e := by
  induction e with
  | unit =>
    rw [Reader.anyExpr_eq]
    exact .word (.pure _)
  | int n | float v => exact Form.reads (.literal (by rintro ⟨⟩) (fun _ => id) (.pure _))
  | unary op x | var x | externArray x => exact Form.reads (.word (.pure _))
  | binary op x y | get a i => exact Form.reads (.pair (.pure _))
  | cond cmp x y e₁ e₂ ih₁ ih₂ =>
    exact Form.reads (.pair (.mark fun _ => .bind ih₁ rfl (.mark fun _ => .map _ ih₂)))
  | letIn b e₁ e₂ ih₁ ih₂ =>
    exact Form.reads (.bind (.binding b) rfl (.mark fun _ => .bind ih₁ rfl (.mark fun _ => .map _ ih₂)))
  | makeClosure b c e ih =>
    exact Form.reads (.bind (.binding b) rfl (.mark fun _ => .bind (.closure c) rfl
      (.mark fun _ => .map _ ih)))
  | callClosure f xs | callDirect f xs =>
    exact Form.reads (.word (.mark fun _ => .map _ (.names xs)))
  | tuple xs => exact Form.reads (.map _ (.names xs))
  | letTuple bs t e ih =>
    exact Form.reads (.bind (.bindings bs) rfl (.mark fun _ => .word (.mark fun _ => .map _ ih)))
  | put a i v => exact Form.reads (.pair (.mark fun _ => .word (.pure _)))

theorem Definition.reads (d : Definition) : Reads Reader.definition d.pieces d :=
  .mark fun _ => .field (.bind (.binding _) rfl (.mark fun _ => .field
    (.bind (.bindings _) rfl (.mark fun _ => .field (.bind (.bindings _) rfl
      (.mark fun _ => .field (.bind d.body.reads rfl (.mark fun _ => .pure d))))))))

theorem Program.reads (p : Program) : Reads Reader.program p.pieces p :=
  .field (.literal (by rintro ⟨⟩) (fun _ => id) (.keyword (.field (.bind
    (.list fun d _ => ⟨d.reads, lacks_mark (by decide)⟩) rfl (.field (.map _ p.body.reads))))))

/-! ## Programs that are read -/

/-- The pieces can be written, floats apart. -/
abbrev NamesProper (ps : List Piece) : Prop := AllProper (fun _ => True) ps

@[simp] theorem AllProper.form {F : Binary64 → Prop} : AllProper F (f.pieces ps) ↔ AllProper F ps := by
  simp +decide [Form.pieces, f.name_spec]

namespace Yields

variable {P : α → Prop}

theorem pair {g : String × String → Reader α} (h : ∀ x y, IsWord x → IsWord y → Yields (g (x, y)) P) :
    Yields (Reader.pair >>= g) P := by
  simp only [Reader.pair, bind_assoc, pure_bind]
  exact .word fun x hx => .skip fun _ => .word fun y hy => h x y hx hy

theorem names : Yields (Reader.list Reader.word) fun xs => NamesProper (namePieces xs) := by
  simp only [namePieces, AllProper.list, forall_mem_map, AllProper.word, AllProper.nil, and_true]
  exact .list (bind_pure Reader.word ▸ .word fun _ => .pure)

theorem binding : Yields Reader.binding fun b => NamesProper b.pieces :=
  .skip fun _ => .word fun _ hname => .skip fun _ => .bind (.withBound Ty.yields_ty) fun _ hty =>
    .skip fun _ => .pure (by simp +decide [Binding.pieces, hname, hty.allProper])

theorem bindings : Yields (Reader.list Reader.binding) fun bs => NamesProper (bindingPieces bs) := by
  simp only [bindingPieces, AllProper.list, forall_mem_map]
  exact .list binding

theorem closure : Yields Reader.closure fun c => NamesProper c.pieces :=
  .skip fun _ => .skip fun _ => .word fun _ hentry => .skip fun _ => .skip fun _ =>
    .bind .names fun _ hcaptured => .skip fun _ => .pure (by
      simp +decide [Closure.pieces, hentry, hcaptured])

theorem parts {r : Reader Expr} (hr : Yields r fun e => NamesProper e.pieces) (f : Form) :
    Yields (Reader.parts r f) fun e => NamesProper e.pieces := by
  cases f with
  | int | float =>
    exact .skip fun _ => .pure (AllProper.form.mpr (forall_mem_singleton.mpr trivial))
  | unary op | var | externArray => exact .word fun _ hx => .pure (by simp [Expr.pieces, hx])
  | binary op | get => exact .pair fun _ _ hx hy => .pure (by simp +decide [Expr.pieces, hx, hy])
  | cond cmp =>
    exact .pair fun _ _ hx hy => .skip fun _ => hr.bind fun _ h₁ => .skip fun _ => hr.bind fun _ h₂ =>
      .pure (by simp +decide [Expr.pieces, hx, hy, h₁, h₂])
  | letIn =>
    exact .bind .binding fun _ hb => .skip fun _ => hr.bind fun _ h₁ => .skip fun _ =>
      hr.bind fun _ h₂ => .pure (by simp +decide [Expr.pieces, hb, h₁, h₂])
  | makeClosure =>
    exact .bind .binding fun _ hb => .skip fun _ => .bind .closure fun _ hc => .skip fun _ =>
      hr.bind fun _ he => .pure (by simp +decide [Expr.pieces, hb, hc, he])
  | callClosure | callDirect =>
    exact .word fun _ hx => .skip fun _ => .bind .names fun _ hxs => .pure
      (by simp +decide [Expr.pieces, hx, hxs])
  | tuple => exact .bind .names fun _ hxs => .pure (by simp [Expr.pieces, hxs])
  | letTuple =>
    exact .bind .bindings fun _ hbs => .skip fun _ => .word fun _ ht => .skip fun _ =>
      hr.bind fun _ he => .pure (by simp +decide [Expr.pieces, hbs, ht, he])
  | put =>
    exact .pair fun _ _ ha hi => .skip fun _ => .word fun _ hv => .pure
      (by simp +decide [Expr.pieces, ha, hi, hv])

theorem expr (depth : Nat) : Yields (Reader.expr depth) fun e => NamesProper e.pieces := by
  induction depth with
  | zero => rintro _ _ _ _ ⟨⟩
  | succ depth ih =>
    refine .word fun name _ => ?_
    split
    · exact .pure (forall_mem_singleton.mpr (by decide : IsWord "Unit"))
    refine .skip fun opened => ?_
    split
    · exact .bind (.parts ih _) fun _ he => .skip fun _ => .pure he
    · rintro _ _ _ _ ⟨⟩

theorem definition : Yields Reader.definition fun d => NamesProper d.pieces :=
  .skip fun _ => .skip fun _ => .bind .binding fun _ hb => .skip fun _ => .skip fun _ =>
    .bind .bindings fun _ hparams => .skip fun _ => .skip fun _ =>
    .bind .bindings fun _ hcaptured => .skip fun _ => .skip fun _ =>
    .bind (.withBound .expr) fun _ hbody => .skip fun _ => .pure (by
      simp +decide [Definition.pieces, hb, hparams, hcaptured, hbody])

theorem program : Yields Reader.program fun p => NamesProper p.pieces :=
  .skip fun _ => .skip fun _ => .skip fun _ => .skip fun _ => .bind (.list definition)
    fun ds hds => .skip fun _ => .bind (.withBound .expr) fun _ hbody => .pure (by
      simp +decide [Program.pieces, hbody]; exact hds)

end Yields

/-! ## Programs and their texts -/

namespace Program

/-- A text of a program, given the texts of floats. -/
def text (w : Binary64 → String) (p : Program) : String := String.ofList (setPieces w p.pieces)

variable {p : Program} {w : Binary64 → String} {s : String}

theorem ofText_eq_ok (h : Layout p.pieces s.toList) : ofText s = .ok p :=
  congrArg (Except.map Prod.fst) (Reader.bind_of_eq_ok (p.reads.ofText_eq_ok h))

theorem layout_text (hp : AllProper (IsFloatText w) p.pieces) : Layout p.pieces (p.text w).toList := by
  rw [text, String.toList_ofList]
  exact layout_setPieces hp

theorem allProper_of_ofText (h : ofText s = .ok p) (hw : ∀ v, .float v ∈ p.pieces → IsFloatText w v) :
    AllProper (IsFloatText w) p.pieces := by
  have hnames : NamesProper p.pieces := Yields.of_run (P := fun p => NamesProper p.pieces)
    (Yields.program.bind fun _ hp => .skip fun _ => .pure hp) h
  intro q hq
  cases q with
  | float v => exact hw v hq
  | _ => exact hnames _ hq

/-- A program is read from each of its layouts, whatever blanks stand between the tokens, and whether or not
commas stand behind the last items of lists. If its names and floats can be written, then one layout is its
text. If any text at all is read as a program, then the text of that program is too. -/
theorem ofText_of_layout (w : Binary64 → String) (p : Program) :
    (∀ s, Layout p.pieces s.toList → ofText s = .ok p) ∧
    (AllProper (IsFloatText w) p.pieces → Layout p.pieces (p.text w).toList) ∧
    ∀ s, ofText s = .ok p → (∀ v, .float v ∈ p.pieces → IsFloatText w v) →
      ofText (p.text w) = .ok p :=
  ⟨fun _ => ofText_eq_ok, layout_text, fun _ h hw => ofText_eq_ok (layout_text (allProper_of_ofText h hw))⟩

/-- A program that doubles a float. -/
def doubling : Program where
  heapOffset := 16
  definitions := [⟨⟨"f.1", .fn [.float] .float⟩, [⟨"x.2", .float⟩], [], .binary .fadd "x.2" "x.2"⟩]
  body := .letIn ⟨"r.3", .float⟩ (.float ⟨0x3ff8000000000000⟩) (.callDirect "f.1" ["r.3"])

/-- A text of this program. -/
def doublingText : String :=
  "first_hp : 16\nfundef list:\n" ++
  "[\x7bname:(f.1,Fun([float],float)),args:[(x.2,float),],formal_fv:[],body:FAdd(x.2,x.2)\x7d,]\n" ++
  "t:\nLet((r.3,float),Float(1.5),AppDir(f.1,[r.3,]))\n"

theorem ofText_of_layout_doubling :
    ofText doublingText = .ok doubling ∧ ofText (doubling.text Binary64.text) = .ok doubling := by
  have h : ofText doublingText = .ok doubling := by cbv
  refine ⟨h, (ofText_of_layout Binary64.text doubling).2.2 _ h fun v hv => ?_⟩
  have hv : v = ⟨0x3ff8000000000000⟩ := by
    simpa [doubling, pieces, Definition.pieces, Expr.pieces, Form.pieces, Binding.pieces, bindingPieces,
      namePieces, listPieces, itemPieces, Ty.pieces] using hv
  have htext : Binary64.text v = "1.5" := by
    rw [hv]
    decide +kernel
  exact ⟨by rw [htext]; decide, by rw [htext, hv]; decide +kernel⟩

end Program
end ClosureCodegen
