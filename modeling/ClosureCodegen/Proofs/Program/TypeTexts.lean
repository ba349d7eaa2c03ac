import Mathlib
import ClosureCodegen.Proofs.Program.Layouts

/-!
# Texts of types

The text of a type is read back as the same type, unless the name of an opaque type cannot stand in a
text or means another type.  Every type that is read from a text has such names, so its own text is
read as itself, however the first text was laid out.

* `Ty.reads`: a type is read where its pieces are laid out.
* `Ty.ofText_text`: a type and its text.
-/

namespace ClosureCodegen
open List

namespace Ty

/-- The names of opaque types can be written and mean nothing else. -/
inductive IsSpellable : Ty → Prop where
  | unit : IsSpellable .unit
  | bool : IsSpellable .bool
  | int : IsSpellable .int
  | float : IsSpellable .float
  | fn {params : List Ty} {result : Ty} :
    (∀ t ∈ params, IsSpellable t) → IsSpellable result → IsSpellable (.fn params result)
  | tuple {items : List Ty} : (∀ t ∈ items, IsSpellable t) → IsSpellable (.tuple items)
  | array {element : Ty} : IsSpellable element → IsSpellable (.array element)
  | named {name : String} : IsWord name → name ∉ keywords → IsSpellable (.named name)

def pieces : Ty → List Piece
  | .unit => [.mark '(', .mark ')']
  | .bool => [.word "bool"]
  | .int => [.word "int"]
  | .float => [.word "float"]
  | .fn params result =>
    .word "Fun" :: .mark '(' ::
      (listPieces (params.map pieces) ++ .mark ',' :: (result.pieces ++ [.mark ')']))
  | .tuple items => .word "Tuple" :: .mark '(' :: (listPieces (items.map pieces) ++ [.mark ')'])
  | .array element => .word "Array" :: .mark '(' :: (element.pieces ++ [.mark ')'])
  | .named name => [.typeName name]

variable {t : Ty} {ts : List Ty} {s : String} {qs : List Piece} {cs : List Char}

/-! ## Reading -/

theorem lacks_pieces (t : Ty) : Lacks ']' t.pieces := by
  cases t with
  | unit =>
    rw [pieces]
    exact lacks_mark (by decide)
  | named =>
    rw [pieces]
    exact ⟨by rintro ⟨⟩, by rintro ⟨⟨⟩, -⟩⟩
  | _ =>
    rw [pieces]
    exact lacks_word

theorem reads_list (h : ∀ t ∈ ts, Reads Reader.anyTy t.pieces t) :
    Reads (Reader.list Reader.anyTy) (listPieces (ts.map pieces)) ts :=
  .list fun t ht => ⟨h t ht, t.lacks_pieces⟩

theorem reads (t : Ty) : Reads Reader.anyTy t.pieces t := by
  rw [Reader.anyTy_eq]
  cases t with
  | unit =>
    rw [pieces]
    exact .tryMark (.mark fun _ => .pure _)
  | bool | int | float =>
    rw [pieces]
    exact .tryMark_ne lacks_word (.word (.pure _))
  | fn params result =>
    rw [pieces]
    exact .tryMark_ne lacks_word (.word (.mark fun _ => .bind (reads_list fun t _ => reads t) rfl
      (.mark fun _ => .bind (reads result) rfl (.mark fun _ => .pure _))))
  | tuple items =>
    rw [pieces]
    exact .tryMark_ne lacks_word (.word (.mark fun _ => .bind (reads_list fun t _ => reads t) rfl
      (.mark fun _ => .pure _)))
  | array element =>
    rw [pieces]
    exact .tryMark_ne lacks_word (.word (.mark fun _ => .bind (reads element) rfl
      (.mark fun _ => .pure _)))
  | named name =>
    rw [pieces]
    refine .tryMark_ne ⟨by rintro ⟨⟩, by rintro ⟨⟨⟩, -⟩⟩ ?_
    simp only [Bool.false_eq_true, if_false]
    rw [Reader.word, bind_assoc]
    refine .located (by rintro ⟨⟩) fun k hk => ⟨name, hk.1, fun _ => ?_⟩
    have hkeys := hk.2
    simp only [keywords, mem_cons, not_or] at hkeys
    obtain ⟨h₁, h₂, h₃, h₄, h₅, h₆, h₇, -⟩ := hkeys
    simp only [pure_bind, if_neg h₁, if_neg h₂, if_neg h₃, if_neg h₄, if_neg h₅, if_neg h₆, if_neg h₇]
    exact .peekMark (.pure _)

/-! ## Writing -/

theorem IsSpellable.allProper {F : Binary64 → Prop} (ht : t.IsSpellable) : AllProper F t.pieces := by
  induction ht with
  | named hname hkeys =>
    rw [pieces]
    exact forall_mem_singleton.mpr ⟨hname, hkeys⟩
  | fn _ _ hparams hresult => simp +decide [pieces, hresult]; exact hparams
  | tuple _ hitems => simp +decide [pieces]; exact hitems
  | array _ helement => simp +decide [pieces, helement]
  | _ => simp +decide [pieces]

variable {w : Binary64 → String}

theorem isWordChar_close : isWordChar ',' = false ∧ isWordChar ')' = false ∧ isWordChar ']' = false := by
  decide

theorem setPieces_list (hts : ∀ t ∈ ts, ∀ {qs}, (setPieces w qs).head?.any isWordChar = false →
      setPieces w (t.pieces ++ qs) = t.text.toList ++ setPieces w qs) :
    setPieces w (listPieces (ts.map pieces) ++ qs) =
      '[' :: ((listText ts).toList ++ ']' :: setPieces w qs) := by
  rw [listPieces, cons_append, setPieces]
  congr 1
  induction ts with
  | nil => rfl
  | cons t ts ih =>
    obtain ⟨ht, hts⟩ := forall_mem_cons.mp hts
    cases ts with
    | nil => simp [itemPieces, setPieces, listText, tailText, ht, isWordChar_close]
    | cons t' ts =>
      have hrest := ih hts
      simp only [map_cons, listText, String.toList_append, append_assoc] at hrest
      simp [itemPieces, setPieces, listText, tailText, ht, isWordChar_close, hrest]

theorem setPieces_pieces (ht : t.IsSpellable) (h : (setPieces w qs).head?.any isWordChar = false) :
    setPieces w (t.pieces ++ qs) = t.text.toList ++ setPieces w qs := by
  induction ht generalizing qs with
  | unit => simp [pieces, setPieces, text]
  | fn _ _ hparams hresult =>
    simp +decide [pieces, setPieces, setWord, text, setPieces_list hparams, hresult, isWordChar_close]
  | tuple _ hitems => simp +decide [pieces, setPieces, setWord, text, setPieces_list hitems]
  | array _ helement => simp +decide [pieces, setPieces, setWord, text, helement, isWordChar_close]
  | _ => simp [pieces, setPieces, setWord, text, h]

theorem yields_ty (depth : Nat) : Yields (Reader.ty depth) IsSpellable := by
  induction depth with
  | zero => rintro _ _ _ _ ⟨⟩
  | succ depth ih =>
    refine .skip fun unit => ?_
    split
    · exact .skip fun _ => .pure .unit
    refine .word fun name hname => ?_
    split
    · exact .pure .unit
    split
    · exact .pure .bool
    split
    · exact .pure .int
    split
    · exact .pure .float
    split
    · exact .skip fun _ => .bind (.list ih) fun params hparams => .skip fun _ =>
        .bind ih fun result hresult => .skip fun _ => .pure (.fn hparams hresult)
    split
    · exact .skip fun _ => .bind (.list ih) fun items hitems => .skip fun _ => .pure (.tuple hitems)
    split
    · exact .skip fun _ => .bind ih fun element helement => .skip fun _ => .pure (.array helement)
    have hnamed : IsSpellable (.named name) := .named hname (by simp [keywords, *])
    refine .skip fun group => ?_
    split
    · exact .skip fun _ => .pure hnamed
    · exact .pure hnamed

theorem ofText_text_of_isSpellable (ht : t.IsSpellable) : ofText t.text = .ok t := by
  have hlayout : Layout (t.pieces ++ []) (setPieces (fun _ => "") (t.pieces ++ [])) :=
    layout_setPieces (by simpa using ht.allProper)
  rw [setPieces_pieces ht rfl, setPieces, append_nil, append_nil] at hlayout
  exact congrArg (Except.map Prod.fst) (t.reads.ofText_eq_ok hlayout)

/-- The text of a type is read as this type if the names in it can be written and mean nothing else. If
any text at all is read as a type, then the text of that type is too. -/
theorem ofText_text :
    (∀ t : Ty, t.IsSpellable → ofText t.text = .ok t) ∧
      ∀ s t, ofText s = .ok t → ofText t.text = .ok t :=
  ⟨fun _ => ofText_text_of_isSpellable,
    fun _ _ h => ofText_text_of_isSpellable (Yields.of_run (.withBound yields_ty) h)⟩

/-- A type that has more than one text. -/
def mapping : Ty := .fn [.unit, .array (.named "list")] (.tuple [])

/-- Blanks, a comma behind the last item, the other spelling of the unit type, and the arguments of an
unknown constructor are all lost in the text of the type. -/
theorem ofText_text_mapping :
    ofText " Fun( [unit,Array(list ([int))),] , Tuple([ ]) )" = .ok mapping ∧
      ofText mapping.text = .ok mapping := by
  have h : ofText " Fun( [unit,Array(list ([int))),] , Tuple([ ]) )" = .ok mapping := by cbv
  exact ⟨h, ofText_text.2 _ _ h⟩

end Ty
end ClosureCodegen
