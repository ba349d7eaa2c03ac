import Mathlib.Data.List.TakeWhile
import ClosureCodegen.Proofs.Program.Totality

/-!
# Texts that can be read

What is written is a list of *pieces*: marks, words, numbers, and places where a comma may stand.  A
text lays them out with any blanks between them.  Two words need a blank between them, and nothing else
does.

* `Layout`: a text that lays out pieces.
* `Reads`: a reader finds a value where its pieces are laid out.
* `Yields`: whatever a reader finds has a property.
-/

namespace ClosureCodegen
open List

variable {p : Position} {c : Char} {cs : List Char} {s : String} {t : Token}

/-! ## Scanning -/

/-- A name as it can stand in a text: it is not empty, and has no marks or blanks. -/
def IsWord (s : String) : Prop := s.toList ≠ [] ∧ ∀ c ∈ s.toList, isWordChar c = true

-- not by going through all characters
instance (s : String) : Decidable (IsWord s) := @instDecidableAnd _ _ _ (decidableBAll _ _)

def Token.chars : Token → List Char
  | .mark c => [c]
  | .word s => s.toList

/-- A token ends in front of these characters. -/
def Token.Ends : Token → List Char → Prop
  | .mark c, _ => c ∈ marks
  | .word s, cs => IsWord s ∧ ∀ c ∈ cs.head?, isWordChar c = false

theorem isBlank_of_mem_marks : ∀ c ∈ marks, Text.isBlank c = false :=
  @of_decide_eq_true _ (decidableBAll _ _) rfl

theorem scan_chars_append (ht : t.Ends cs) (p : Position) :
    ∃ stop, scan p (t.chars ++ cs) = ⟨t, p, stop⟩ :: scan stop cs := by
  cases t with
  | mark c =>
    refine ⟨p.pass c, ?_⟩
    rw [Token.chars, singleton_append, scan, if_neg (Bool.eq_false_iff.mp (isBlank_of_mem_marks c ht)),
      if_pos (contains_iff_mem.mpr ht)]
  | word s =>
    obtain ⟨⟨hne, hall⟩, hcs⟩ := ht
    obtain ⟨c, w, hw⟩ := exists_cons_of_ne_nil hne
    rw [hw, forall_mem_cons] at hall
    obtain ⟨hblank, hmark⟩ := Bool.and_eq_true_iff.mp hall.1
    obtain ⟨htake, hdrop⟩ : cs.takeWhile isWordChar = [] ∧ cs.dropWhile isWordChar = cs := by
      cases cs with
      | nil => exact ⟨rfl, rfl⟩
      | cons d cs =>
        have hd : ¬isWordChar d = true := Bool.eq_false_iff.mp (hcs d rfl)
        exact ⟨takeWhile_cons_of_neg hd, dropWhile_cons_of_neg hd⟩
    refine ⟨p.passAll s.toList, ?_⟩
    rw [Token.chars, hw, cons_append, scan, if_neg (by simpa using hblank), if_neg (by simpa using hmark),
      takeWhile_append_of_pos hall.2, dropWhile_append_of_pos hall.2, htake, hdrop, append_nil, ← hw]
    simp only [String.ofList_toList]

theorem isWord_of_mem_scan {l : Lexeme} (hl : l ∈ scan p cs) (hs : l.token = .word s) :
    IsWord s := by
  fun_induction scan p cs with
  | case1 => cases hl
  | case2 p c rest _ ih => exact ih hl
  | case3 p c rest _ _ ih =>
    rcases mem_cons.mp hl with rfl | hl
    · cases hs
    · exact ih hl
  | case4 p c rest hblank hmark word ih =>
    rcases mem_cons.mp hl with rfl | hl
    · cases hs
      rw [IsWord, String.toList_ofList]
      refine ⟨cons_ne_nil _ _, forall_mem_cons.mpr ⟨?_, fun d hd => mem_takeWhile_imp hd⟩⟩
      rw [isWordChar, Bool.eq_false_iff.mpr hblank, Bool.eq_false_iff.mpr hmark]
      rfl
    · exact ih hl

/-! ## Layouts -/

/-- The words that mean types or begin them. -/
def Ty.keywords : List String := ["unit", "bool", "int", "float", "Fun", "Tuple", "Array"]

inductive Piece where
  | mark (c : Char)
  | word (s : String)
  /-- The name of a type that is not taken apart. -/
  | typeName (s : String)
  | int (n : Word)
  | float (v : Binary64)
  /-- A place where a comma may stand. -/
  | comma

namespace Piece

/-- A token that stands for a piece. -/
def IsSpelled : Piece → Token → Prop
  | .mark c, t => t = .mark c
  | .word s, t => t = .word s
  | .typeName s, t => t = .word s ∧ s ∉ Ty.keywords
  | .int n, t => ∃ s, t = .word s ∧ Word.ofText? s = some n
  | .float v, t => ∃ s, t = .word s ∧ floatLiteral? s = some v
  | .comma, t => t = .mark ','

/-- A piece that can be written, given the floats that can. -/
def IsProper (F : Binary64 → Prop) : Piece → Prop
  | .mark c => c ∈ marks
  | .word s => IsWord s
  | .typeName s => IsWord s ∧ s ∉ Ty.keywords
  | .float v => F v
  | .int _ | .comma => True

end Piece

/-- A text that lays out pieces. -/
inductive Layout : List Piece → List Char → Prop where
  | nil : Layout [] []
  | blank {c : Char} {ps : List Piece} {cs : List Char} :
    Text.isBlank c = true → Layout ps cs → Layout ps (c :: cs)
  | token {q : Piece} {t : Token} {ps : List Piece} {cs : List Char} :
    q.IsSpelled t → t.Ends cs → Layout ps cs → Layout (q :: ps) (t.chars ++ cs)
  | skip {ps : List Piece} {cs : List Char} : Layout ps cs → Layout (.comma :: ps) cs

variable {q : Piece} {ps qs : List Piece}

namespace Layout

theorem mark (hc : c ∈ marks) (h : Layout ps cs) : Layout (.mark c :: ps) (c :: cs) :=
  .token (t := .mark c) rfl hc h

theorem word (hq : q.IsSpelled (.word s)) (hs : IsWord s) (hcs : ∀ c ∈ cs.head?, isWordChar c = false)
    (h : Layout ps cs) : Layout (q :: ps) (s.toList ++ cs) :=
  .token (t := .word s) hq ⟨hs, hcs⟩ h

theorem scan_eq_nil (h : Layout [] cs) (p : Position) : scan p cs = [] := by
  generalize hps : [] = ps at h
  induction h generalizing p with
  | nil => rw [scan]
  | blank hc _ ih => rw [scan, if_pos hc, ih _ hps]
  | token | skip => cases hps

theorem scan_cons (h : Layout (q :: ps) cs) (hq : q ≠ .comma) (p : Position) :
    ∃ l p' us, q.IsSpelled l.token ∧ scan p cs = l :: scan p' us ∧ Layout ps us := by
  generalize hps : q :: ps = qs at h
  induction h generalizing p with
  | nil => cases hps
  | blank hc _ ih =>
    rw [scan, if_pos hc]
    exact ih _ hps
  | token hsp ht hl =>
    cases hps
    obtain ⟨stop, hs⟩ := scan_chars_append ht p
    exact ⟨_, stop, _, hsp, hs, hl⟩
  | skip =>
    cases hps
    exact absurd rfl hq

theorem of_comma (h : Layout (.comma :: ps) cs) : Layout ps cs ∨ Layout (.mark ',' :: ps) cs := by
  generalize hps : .comma :: ps = qs at h
  induction h with
  | nil => cases hps
  | blank hc _ ih => exact (ih hps).imp (.blank hc) (.blank hc)
  | token hsp ht hl =>
    cases hps
    exact .inr (.token hsp ht hl)
  | skip hl =>
    cases hps
    exact .inl hl

end Layout

/-! ## Reading what is laid out -/

/-- The pieces do not begin with an opening bracket, which would belong to the type in front of it. -/
def endsType : List Piece → Bool
  | [] => true
  | .mark c :: _ => c != '('
  | .comma :: ps => endsType ps
  | _ :: _ => true

theorem endsType_append (hp : endsType ps = true) (hq : endsType qs = true) : endsType (ps ++ qs) = true := by
  fun_induction endsType ps with
  | case1 => exact hq
  | case2 => exact hp
  | case3 ps ih => exact ih hp
  | case4 q ps hmark hcomma =>
    rw [cons_append]
    cases q <;> first | rfl | simp_all

theorem Layout.peek (h : Layout ps cs) (hp : endsType ps = true) (p : Position) :
    ((scan p cs).head?.any fun t => t.token = .mark '(') = false := by
  induction h generalizing p with
  | nil => rw [scan]; rfl
  | blank hc _ ih =>
    rw [scan, if_pos hc]
    exact ih hp _
  | @token q t ps cs hsp ht _ =>
    obtain ⟨stop, hs⟩ := scan_chars_append ht p
    rw [hs]
    cases q <;> simp_all [Piece.IsSpelled, endsType]
    all_goals grind
  | skip _ ih => exact ih hp _

/-- The pieces begin with something else than a mark. -/
def Lacks (c : Char) : List Piece → Prop
  | [] => False
  | q :: _ => q ≠ .comma ∧ ¬q.IsSpelled (.mark c)

theorem Lacks.append (h : Lacks c ps) : Lacks c (ps ++ qs) := by
  cases ps with
  | nil => exact h.elim
  | cons => exact h

theorem lacks_mark {d : Char} (h : c ≠ d) : Lacks c (.mark d :: ps) :=
  ⟨by rintro ⟨⟩, by rintro ⟨⟩; exact h rfl⟩

theorem lacks_word : Lacks c (.word s :: ps) := ⟨by rintro ⟨⟩, by rintro ⟨⟩⟩

variable {α β : Type} {a : α} {b : β}

/-- A reader finds a value wherever its pieces are laid out. -/
def Reads (r : Reader α) (ps : List Piece) (a : α) : Prop :=
  ∀ p cs finish qs, Layout (ps ++ qs) cs → endsType qs = true →
    ∃ p' us, Layout qs us ∧ r ⟨scan p cs, finish⟩ = .ok (a, ⟨scan p' us, finish⟩)

theorem Reader.bind_of_eq_ok {r : Reader α} {f : α → Reader β} {i i' : Input} (h : r i = .ok (a, i')) :
    (r >>= f) i = f a i' := by
  change Except.bind (r i) _ = _
  rw [h]
  rfl

namespace Reads

theorem pure (a : α) : Reads (Pure.pure a) [] a := fun p cs _ _ hl _ => ⟨p, cs, hl, rfl⟩

theorem bind {r : Reader α} {f : α → Reader β} (hr : Reads r ps a) (hq : endsType qs = true)
    (hf : Reads (f a) qs b) : Reads (r >>= f) (ps ++ qs) b := by
  intro p cs finish rest hl hrest
  rw [append_assoc] at hl
  obtain ⟨p', us, hus, hr⟩ := hr p cs finish _ hl (endsType_append hq hrest)
  rw [Reader.bind_of_eq_ok hr]
  exact hf p' us finish rest hus hrest

theorem map {r : Reader α} (g : α → β) (hr : Reads r ps a) : Reads (do return g (← r)) ps (g a) :=
  append_nil ps ▸ hr.bind rfl (pure (g a))

/-- A reader takes one token. -/
theorem of_token {r : Reader α} {f : α → Reader β} (hq : q ≠ .comma)
    (h : ∀ t start stop, q.IsSpelled t → ∃ a, Reads (f a) ps b ∧
      ∀ ts finish, r ⟨⟨t, start, stop⟩ :: ts, finish⟩ = .ok (a, ⟨ts, finish⟩)) :
    Reads (r >>= f) (q :: ps) b := by
  intro p cs finish qs hl hclose
  obtain ⟨⟨t, start, stop⟩, p', us, hsp, hs, hus⟩ := hl.scan_cons hq p
  obtain ⟨a, hf, hr⟩ := h t start stop hsp
  rw [hs, Reader.bind_of_eq_ok (hr _ finish)]
  exact hf p' us finish qs hus hclose

theorem mark {f : Position → Reader β} (h : ∀ p, Reads (f p) ps b) :
    Reads (Reader.mark c >>= f) (.mark c :: ps) b :=
  of_token (by rintro ⟨⟩) fun _ _ stop ht => ⟨stop, h stop, fun _ _ => if_pos ht⟩

theorem tryMark {f : Bool → Reader β} (h : Reads (f true) ps b) :
    Reads (Reader.tryMark c >>= f) (.mark c :: ps) b :=
  of_token (by rintro ⟨⟩) fun _ _ _ ht => ⟨true, h, fun _ _ => if_pos ht⟩

theorem located {f : String × Position → Reader β} (hq : q ≠ .comma)
    (h : ∀ t, q.IsSpelled t → ∃ s, t = .word s ∧ ∀ stop, Reads (f (s, stop)) ps b) :
    Reads (Reader.locatedWord >>= f) (q :: ps) b := by
  refine of_token hq fun t start stop ht => ?_
  obtain ⟨s, rfl, hf⟩ := h t ht
  exact ⟨(s, stop), hf stop, fun _ _ => rfl⟩

theorem word {f : String → Reader β} (h : Reads (f s) ps b) :
    Reads (Reader.word >>= f) (.word s :: ps) b := by
  rw [Reader.word, bind_assoc]
  exact located (by rintro ⟨⟩) fun _ ht => ⟨s, ht, fun _ => h⟩

theorem keyword {f : Unit → Reader β} (h : Reads (f ()) ps b) :
    Reads (Reader.keyword s >>= f) (.word s :: ps) b := by
  rw [Reader.keyword, bind_assoc]
  refine located (by rintro ⟨⟩) fun _ ht => ⟨s, ht, fun _ => ?_⟩
  simp only [if_true]
  exact h

theorem literal {value? : String → Option α} {reason : String → ReadReason} {f : α → Reader β}
    (hq : q ≠ .comma) (hs : ∀ t, q.IsSpelled t → ∃ s, t = .word s ∧ value? s = some a)
    (h : Reads (f a) ps b) : Reads (Reader.literal value? reason >>= f) (q :: ps) b := by
  rw [Reader.literal, bind_assoc]
  refine located hq fun t ht => ?_
  obtain ⟨s, hts, hs⟩ := hs t ht
  refine ⟨s, hts, fun _ => ?_⟩
  simp only [hs]
  exact h

theorem tryMark_ne {f : Bool → Reader β} (hps : Lacks c ps) (h : Reads (f false) ps b) :
    Reads (Reader.tryMark c >>= f) ps b := by
  intro p cs finish qs hl hq
  cases ps with
  | nil => exact hps.elim
  | cons q ps =>
    obtain ⟨l, p', us, hsp, hs, -⟩ := hl.scan_cons hps.1 p
    have hr : Reader.tryMark c ⟨scan p cs, finish⟩ = .ok (false, ⟨scan p cs, finish⟩) := by
      simp only [Reader.tryMark, hs, if_neg fun hl : l.token = .mark c => hps.2 (hl ▸ hsp)]
    rw [Reader.bind_of_eq_ok hr]
    exact h p cs finish qs hl hq

theorem comma {r : Reader β} (h : Reads r ps b) (h' : Reads r (.mark ',' :: ps) b) :
    Reads r (.comma :: ps) b := by
  intro p cs finish qs hl hq
  rcases hl.of_comma with hl | hl
  · exact h p cs finish qs hl hq
  · exact h' p cs finish qs hl hq

theorem peekMark {f : Bool → Reader β} (h : Reads (f false) [] b) :
    Reads (Reader.peekMark '(' >>= f) [] b := by
  intro p cs finish qs hl hq
  have hr : Reader.peekMark '(' ⟨scan p cs, finish⟩ = .ok (false, ⟨scan p cs, finish⟩) := by
    rw [Reader.peekMark, hl.peek hq]
  rw [Reader.bind_of_eq_ok hr]
  exact h p cs finish qs hl hq

end Reads

/-! ## Lists -/

/-- The pieces of the items of a list, up to its end. -/
def itemPieces : List (List Piece) → List Piece
  | [] => [.mark ']']
  | [ps] => ps ++ [.comma, .mark ']']
  | ps :: qs :: items => ps ++ .mark ',' :: itemPieces (qs :: items)

def listPieces (items : List (List Piece)) : List Piece := .mark '[' :: itemPieces items

theorem Reads.list {item : Reader α} [hitem : ∀ n, Reader.Agree 1 n item item] {pieces : α → List Piece}
    {as : List α} (h : ∀ a ∈ as, Reads item (pieces a) a ∧ Lacks ']' (pieces a)) :
    Reads (Reader.list item) (listPieces (as.map pieces)) as := by
  refine .mark fun _ => ?_
  induction as with
  | nil =>
    rw [Reader.allItems_eq hitem]
    exact .tryMark (.pure [])
  | cons a as ih =>
    obtain ⟨⟨ha, hopen⟩, has⟩ := forall_mem_cons.mp h
    have hmore := (ih has).map (a :: ·)
    have hnext : ∀ {us : List Piece} {bs : List α}, endsType us = true →
        Reads (do
          if ← Reader.tryMark ',' then return a :: (← Reader.allItems item)
          let _ ← Reader.mark ']'
          return [a]) us bs →
        Reads (Reader.allItems item) (pieces a ++ us) bs := by
      intro us bs hus hu
      rw [Reader.allItems_eq hitem]
      exact .tryMark_ne hopen.append (ha.bind hus hu)
    cases as with
    | nil => exact hnext rfl (.comma (.tryMark_ne (lacks_mark (by decide)) (.mark fun _ => .pure _)) (.tryMark hmore))
    | cons => exact hnext rfl (.tryMark hmore)

theorem Reads.ofText_eq_ok {r : Reader α} (h : Reads r ps a) (hs : Layout ps s.toList) :
    r (Input.ofText s) = .ok (a, ⟨[], (Input.ofText s).finish⟩) := by
  obtain ⟨p, us, hus, hr⟩ := h .start s.toList (Input.ofText s).finish [] (by rwa [append_nil]) rfl
  rwa [hus.scan_eq_nil] at hr

/-! ## Pieces that can be written -/

def AllProper (F : Binary64 → Prop) (ps : List Piece) : Prop := ∀ q ∈ ps, q.IsProper F

namespace AllProper

variable {F : Binary64 → Prop}

@[simp] theorem nil : AllProper F [] := forall_mem_nil _

@[simp] theorem append : AllProper F (ps ++ qs) ↔ AllProper F ps ∧ AllProper F qs := forall_mem_append

@[simp] theorem mark : AllProper F (.mark c :: ps) ↔ c ∈ marks ∧ AllProper F ps := forall_mem_cons

@[simp] theorem word : AllProper F (.word s :: ps) ↔ IsWord s ∧ AllProper F ps := forall_mem_cons

@[simp] theorem int {n : Word} : AllProper F (.int n :: ps) ↔ AllProper F ps := by
  simp [AllProper, Piece.IsProper]

@[simp] theorem comma : AllProper F (.comma :: ps) ↔ AllProper F ps := by
  simp [AllProper, Piece.IsProper]

@[simp] theorem list {items : List (List Piece)} :
    AllProper F (listPieces items) ↔ ∀ ps ∈ items, AllProper F ps := by
  rw [listPieces, mark]
  fun_induction itemPieces items <;> simp_all [marks]

end AllProper

/-! ## Writing -/

theorem Decimal.isDigit_of_mem_toDigits {n : Nat} {c : Char} (hc : c ∈ Nat.toDigits 10 n) :
    c.isDigit = true :=
  Nat.isDigit_of_mem_toDigits (by decide) (by decide) hc

theorem Decimal.nat?_toDigits (n : Nat) : nat? (Nat.toDigits 10 n) = some n := by
  have hdigits : ∀ acc cs, (∀ c ∈ cs, c.isDigit = true) →
      digitsFrom? acc cs = some (Nat.ofDigitChars 10 cs acc) := by
    intro acc cs
    induction cs generalizing acc with
    | nil => exact fun _ => rfl
    | cons c cs ih =>
      intro h
      obtain ⟨hc, hcs⟩ := forall_mem_cons.mp h
      rw [digitsFrom?, digit?, if_pos hc, Option.bind_some, ih _ hcs]
      rfl
  have hall : ∀ c ∈ Nat.toDigits 10 n, c.isDigit = true := fun c => isDigit_of_mem_toDigits
  obtain ⟨c, cs, hcs⟩ := exists_cons_of_ne_nil (Nat.toDigits_ne_nil (b := 10) (n := n))
  rw [hcs] at hall
  rw [hcs, nat?, hdigits 0 _ hall, ← hcs, Nat.ofDigitChars_ten_toDigits]

theorem isWordChar_of_isDigit {c : Char} (h : c.isDigit = true) : isWordChar c = true := by
  have hmark : c ∉ marks := fun hc =>
    (@of_decide_eq_true _ (decidableBAll _ _) rfl : ∀ c ∈ marks, ¬c.isDigit = true) c hc h
  have hblank : Text.isBlank c = false := by
    obtain ⟨hlow, hhigh⟩ : 48 ≤ c.toNat ∧ c.toNat ≤ 57 := by
      simpa [Char.isDigit, UInt32.le_iff_toNat_le] using h
    simp [Text.isBlank, Text.blankRanges]
    omega
  simp [isWordChar, hblank, hmark]

theorem Word.isWord_text (n : Word) : IsWord n.text ∧ ofText? n.text = some n := by
  have hdigits : ∀ k, ∀ c ∈ Nat.toDigits 10 k, isWordChar c = true :=
    fun k c hc => isWordChar_of_isDigit (Decimal.isDigit_of_mem_toDigits hc)
  have htext : IsWord n.text ∧ Decimal.int? n.text.toList = some n.toInt := by
    rw [IsWord, text]
    cases n.toInt with
    | ofNat k =>
      rw [Decimal.intText, Decimal.natText, String.toList_ofList]
      refine ⟨⟨Nat.toDigits_ne_nil, hdigits k⟩, ?_⟩
      have hsign : ∀ c cs, c :: cs = Nat.toDigits 10 k → c.isDigit = true :=
        fun c cs hcs => Decimal.isDigit_of_mem_toDigits (hcs ▸ mem_cons_self)
      unfold Decimal.int?
      split
      · next cs h => cases hsign _ cs h.symm
      · next cs h => cases hsign _ cs h.symm
      · rw [Decimal.nat?_toDigits]
        rfl
    | negSucc k =>
      rw [Decimal.intText, Decimal.natText, String.toList_append, String.toList_ofList,
        String.toList_ofList]
      refine ⟨⟨cons_ne_nil _ _, forall_mem_cons.mpr ⟨by decide, hdigits (k + 1)⟩⟩, ?_⟩
      change (Decimal.nat? (Nat.toDigits 10 (k + 1))).map _ = _
      rw [Decimal.nat?_toDigits]
      rfl
  refine ⟨htext.1, ?_⟩
  rw [ofText?, htext.2, Option.bind_some, if_pos ⟨BitVec.le_toInt n, BitVec.toInt_lt⟩,
    BitVec.ofInt_toInt]

/-- A word, with a blank behind it if another word follows. -/
def setWord (s : String) (cs : List Char) : List Char :=
  s.toList ++ if cs.head?.any isWordChar then ' ' :: cs else cs

/-- The characters of pieces, given the texts of floats. -/
def setPieces (w : Binary64 → String) : List Piece → List Char
  | [] => []
  | .mark c :: ps => c :: setPieces w ps
  | .word s :: ps | .typeName s :: ps => setWord s (setPieces w ps)
  | .int n :: ps => setWord n.text (setPieces w ps)
  | .float v :: ps => setWord (w v) (setPieces w ps)
  | .comma :: ps => setPieces w ps

theorem Layout.setWord (hq : q.IsSpelled (.word s)) (hs : IsWord s) (h : Layout ps cs) :
    Layout (q :: ps) (setWord s cs) := by
  unfold ClosureCodegen.setWord
  split
  · exact .word hq hs (by rintro _ ⟨⟩; decide) (.blank (by decide) h)
  · next hcs =>
    refine .word hq hs (fun c hc => ?_) h
    simpa [Option.mem_def.mp hc] using hcs

/-- The text of a number is a word that is read as this number. -/
structure IsFloatText (w : Binary64 → String) (v : Binary64) : Prop where
  isWord : IsWord (w v)
  value : floatLiteral? (w v) = some v

theorem layout_setPieces {w : Binary64 → String} (h : AllProper (IsFloatText w) ps) :
    Layout ps (setPieces w ps) := by
  induction ps with
  | nil => exact .nil
  | cons q ps ih =>
    obtain ⟨hq, hps⟩ := forall_mem_cons.mp h
    cases q with
    | mark c => exact .mark hq (ih hps)
    | word s => exact .setWord rfl hq (ih hps)
    | typeName s => exact .setWord ⟨rfl, hq.2⟩ hq.1 (ih hps)
    | int n => exact .setWord ⟨_, rfl, n.isWord_text.2⟩ n.isWord_text.1 (ih hps)
    | float v => exact .setWord ⟨_, rfl, hq.value⟩ hq.isWord (ih hps)
    | comma => exact .skip (ih hps)

/-! ## What readers find -/

def Input.IsProper (i : Input) : Prop := ∀ l ∈ i.tokens, ∀ s, l.token = .word s → IsWord s

/-- Whatever a reader finds among proper tokens has a property. -/
def Yields (r : Reader α) (P : α → Prop) : Prop :=
  ∀ i a i', i.IsProper → r i = .ok (a, i') → P a ∧ i'.IsProper

namespace Yields

variable {P : α → Prop} {Q : β → Prop} {r : Reader α}

theorem pure (h : P a) : Yields (Pure.pure a) P := by
  rintro i _ _ hi ⟨⟩
  exact ⟨h, hi⟩

theorem bind {f : α → Reader β} (hr : Yields r P) (hf : ∀ a, P a → Yields (f a) Q) :
    Yields (r >>= f) Q := by
  intro i b i' hi h
  change Except.bind (r i) _ = _ at h
  cases hx : r i with
  | error e =>
    rw [hx] at h
    cases h
  | ok x =>
    rw [hx] at h
    obtain ⟨ha, hx⟩ := hr i x.1 x.2 hi hx
    exact hf x.1 ha x.2 b i' hx h

theorem word {f : String → Reader β} (hf : ∀ s, IsWord s → Yields (f s) Q) :
    Yields (Reader.word >>= f) Q := by
  refine bind (P := IsWord) ?_ hf
  rintro ⟨_ | ⟨⟨_ | s, _, _⟩, ts⟩, _⟩ _ _ hi ⟨⟩
  obtain ⟨hs, hts⟩ := forall_mem_cons.mp hi
  exact ⟨hs s rfl, hts⟩

/-- A reader whose value does not matter. -/
theorem skip {f : α → Reader β} [hr : ∀ n, Reader.Agree 0 n r r] (hf : ∀ a, Yields (f a) Q) :
    Yields (r >>= f) Q := by
  refine bind (P := fun _ => True) (fun i a i' hi h => ⟨trivial, fun l hl => hi l ?_⟩) fun a _ => hf a
  exact (((hr _).at_input i (Nat.lt_succ_self _)).2.ok a i' h).suffix.subset hl

theorem withBound {f : Nat → Reader α} (h : ∀ m, Yields (f m) P) : Yields (do f (← get).bound) P :=
  fun i => h i.bound i

theorem list {item : Reader α} (h : Yields item P) : Yields (Reader.list item) (∀ a ∈ ·, P a) := by
  refine skip fun _ => withBound fun m => ?_
  induction m with
  | zero => rintro _ _ _ _ ⟨⟩
  | succ m ih =>
    refine skip fun done => ?_
    split
    · exact pure (forall_mem_nil P)
    refine h.bind fun a ha => skip fun more => ?_
    split
    · exact ih.bind fun as has => pure (forall_mem_cons.mpr ⟨ha, has⟩)
    · exact skip fun _ => pure (forall_mem_singleton.mpr ha)

theorem of_run (h : Yields r P) (hr : r.run s = .ok a) : P a := by
  change Except.map Prod.fst (r (Input.ofText s)) = _ at hr
  cases hx : r (Input.ofText s) with
  | error e =>
    rw [hx] at hr
    cases hr
  | ok x =>
    rw [hx] at hr
    cases hr
    exact (h _ x.1 x.2 (fun _ hl _ hs => isWord_of_mem_scan hl hs) hx).1

end Yields
end ClosureCodegen
