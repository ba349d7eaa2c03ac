import ClosureCodegen.Code.Effects

/-!
# Sets of live registers

A live set is kept as a strictly ascending list, integers before floats and each class by name.  The
list is unique for its members, so two sets are equal as soon as they have the same members, and the
order in which a set is enumerated says nothing about how it came about.
-/

namespace ClosureCodegen

/-! ## The order of registers -/

/-- Integer registers come before float registers, and within a class the name decides. -/
def Reg.Precedes (a b : Reg) : Prop :=
  a.cls.bank < b.cls.bank ∨ (a.cls.bank = b.cls.bank ∧ a.name < b.name)

instance : LT Reg := ⟨Reg.Precedes⟩

instance (a b : Reg) : Decidable (a < b) :=
  inferInstanceAs (Decidable (_ ∨ (_ ∧ _)))

namespace Reg

theorem lt_iff (a b : Reg) :
    a < b ↔ a.cls.bank < b.cls.bank ∨ (a.cls.bank = b.cls.bank ∧ a.name < b.name) := Iff.rfl

theorem lt_irrefl (a : Reg) : ¬ a < a := by
  rw [lt_iff]
  rintro (h | ⟨_, h⟩)
  · exact Nat.lt_irrefl _ h
  · exact String.lt_irrefl _ h

theorem lt_trans {a b c : Reg} (hab : a < b) (hbc : b < c) : a < c := by
  rw [lt_iff] at *
  rcases hab with h | ⟨h, hn⟩ <;> rcases hbc with k | ⟨k, kn⟩
  · exact .inl (Nat.lt_trans h k)
  · exact .inl (k ▸ h)
  · exact .inl (h ▸ k)
  · exact .inr ⟨h.trans k, String.lt_trans hn kn⟩

theorem bank_injective {c d : RegClass} (h : c.bank = d.bank) : c = d := by
  cases c <;> cases d <;> first | rfl | cases h

/-- Two different registers are comparable. -/
theorem lt_of_not_lt {a b : Reg} (hne : a ≠ b) (h : ¬ a < b) : b < a := by
  rw [lt_iff] at *
  rcases Nat.lt_trichotomy a.cls.bank b.cls.bank with hb | hb | hb
  · exact absurd (.inl hb) h
  · refine .inr ⟨hb.symm, ?_⟩
    have hn : ¬ a.name < b.name := fun hn => h (.inr ⟨hb, hn⟩)
    have hle : b.name ≤ a.name := String.not_lt.mp hn
    rcases Classical.em (b.name < a.name) with hlt | hlt
    · exact hlt
    · have heq : a.name = b.name := String.le_antisymm (String.not_lt.mp hlt) hle
      refine absurd ?_ hne
      cases a; cases b
      simp only at heq hb
      rw [heq, bank_injective hb]
  · exact .inl hb

end Reg

/-! ## Ascending lists -/

abbrev Ascending (rs : List Reg) : Prop := rs.Pairwise (· < ·)

/-- Puts a register in its place, unless it is there. -/
def insertReg (r : Reg) : List Reg → List Reg
  | [] => [r]
  | a :: rs => if r = a then a :: rs else if r < a then r :: a :: rs else a :: insertReg r rs

def mergeRegs : List Reg → List Reg → List Reg
  | [], bs => bs
  | a :: as, [] => a :: as
  | a :: as, b :: bs =>
    if a = b then a :: mergeRegs as bs
    else if a < b then a :: mergeRegs as (b :: bs)
    else b :: mergeRegs (a :: as) bs
termination_by as bs => as.length + bs.length

theorem mem_insertReg {r x : Reg} {rs : List Reg} : x ∈ insertReg r rs ↔ x = r ∨ x ∈ rs := by
  induction rs with
  | nil => simp [insertReg]
  | cons a rs ih =>
    rw [insertReg]
    split
    · next h => subst h; simp
    · split
      · simp
      · rw [List.mem_cons, ih, List.mem_cons]
        constructor
        · rintro (h | h | h)
          · exact .inr (.inl h)
          · exact .inl h
          · exact .inr (.inr h)
        · rintro (h | h | h)
          · exact .inr (.inl h)
          · exact .inl h
          · exact .inr (.inr h)

theorem ascending_insertReg {r : Reg} {rs : List Reg} (h : Ascending rs) :
    Ascending (insertReg r rs) := by
  induction rs with
  | nil => simp [insertReg]
  | cons a rs ih =>
    replace h := List.pairwise_cons.mp h
    rw [insertReg]
    split
    · exact List.pairwise_cons.mpr h
    · next hne =>
      split
      · next hlt =>
        refine List.pairwise_cons.mpr ⟨fun b hb => ?_, List.pairwise_cons.mpr h⟩
        rcases List.mem_cons.mp hb with rfl | hb
        · exact hlt
        · exact Reg.lt_trans hlt (h.1 b hb)
      · next hlt =>
        refine List.pairwise_cons.mpr ⟨fun b hb => ?_, ih h.2⟩
        rcases mem_insertReg.mp hb with rfl | hb
        · exact Reg.lt_of_not_lt hne hlt
        · exact h.1 b hb

theorem mem_mergeRegs {x : Reg} (as bs : List Reg) :
    x ∈ mergeRegs as bs ↔ x ∈ as ∨ x ∈ bs := by
  fun_induction mergeRegs as bs with
  | case1 bs => simp
  | case2 a as => simp
  | case3 as b bs ih => simp only [List.mem_cons, ih]; grind
  | case4 a as b bs _ _ ih => simp only [List.mem_cons, ih]; grind
  | case5 a as b bs _ _ ih => simp only [List.mem_cons, ih]; grind

theorem ascending_mergeRegs {as bs : List Reg} (ha : Ascending as) (hb : Ascending bs) :
    Ascending (mergeRegs as bs) := by
  fun_induction mergeRegs as bs with
  | case1 bs => exact hb
  | case2 a as => exact ha
  | case3 as b bs ih =>
    replace ha := List.pairwise_cons.mp ha
    replace hb := List.pairwise_cons.mp hb
    refine List.pairwise_cons.mpr ⟨fun x hx => ?_, ih ha.2 hb.2⟩
    rcases (mem_mergeRegs as bs).mp hx with hx | hx
    · exact ha.1 x hx
    · exact hb.1 x hx
  | case4 a as b bs _ hlt ih =>
    replace ha := List.pairwise_cons.mp ha
    refine List.pairwise_cons.mpr ⟨fun x hx => ?_, ih ha.2 hb⟩
    rcases (mem_mergeRegs as (b :: bs)).mp hx with hx | hx
    · exact ha.1 x hx
    · rcases List.mem_cons.mp hx with rfl | hx
      · exact hlt
      · exact Reg.lt_trans hlt ((List.pairwise_cons.mp hb).1 x hx)
  | case5 a as b bs hne hlt ih =>
    replace hb := List.pairwise_cons.mp hb
    have hlt' : b < a := Reg.lt_of_not_lt hne hlt
    refine List.pairwise_cons.mpr ⟨fun x hx => ?_, ih ha hb.2⟩
    rcases (mem_mergeRegs (a :: as) bs).mp hx with hx | hx
    · rcases List.mem_cons.mp hx with rfl | hx
      · exact hlt'
      · exact Reg.lt_trans hlt' ((List.pairwise_cons.mp ha).1 x hx)
    · exact hb.1 x hx

theorem eq_of_ascending {as bs : List Reg} (ha : Ascending as) (hb : Ascending bs)
    (h : ∀ x, x ∈ as ↔ x ∈ bs) : as = bs := by
  induction as generalizing bs with
  | nil =>
    cases bs with
    | nil => rfl
    | cons b bs => exact absurd ((h b).mpr List.mem_cons_self) List.not_mem_nil
  | cons a as ih =>
    cases bs with
    | nil => exact absurd ((h a).mp List.mem_cons_self) List.not_mem_nil
    | cons b bs =>
      replace ha := List.pairwise_cons.mp ha
      replace hb := List.pairwise_cons.mp hb
      have hab : a = b := by
        rcases List.mem_cons.mp ((h a).mp List.mem_cons_self) with e | ha'
        · exact e
        · rcases List.mem_cons.mp ((h b).mpr List.mem_cons_self) with e | hb'
          · exact e.symm
          · exact absurd (Reg.lt_trans (ha.1 b hb') (hb.1 a ha')) (Reg.lt_irrefl a)
      subst hab
      rw [ih ha.2 hb.2 fun x => ?_]
      constructor
      · intro hx
        rcases List.mem_cons.mp ((h x).mp (List.mem_cons_of_mem _ hx)) with rfl | hx'
        · exact absurd (ha.1 x hx) (Reg.lt_irrefl x)
        · exact hx'
      · intro hx
        rcases List.mem_cons.mp ((h x).mpr (List.mem_cons_of_mem _ hx)) with rfl | hx'
        · exact absurd (hb.1 x hx) (Reg.lt_irrefl x)
        · exact hx'

/-! ## Live sets -/

/-- A finite set of registers as an ascending list. -/
structure LiveSet where
  toList : List Reg
  ascending : Ascending toList
  deriving DecidableEq

namespace LiveSet

instance : Membership Reg LiveSet := ⟨fun s r => r ∈ s.toList⟩

instance (r : Reg) (s : LiveSet) : Decidable (r ∈ s) :=
  inferInstanceAs (Decidable (r ∈ s.toList))

theorem mem_def {r : Reg} {s : LiveSet} : r ∈ s ↔ r ∈ s.toList := Iff.rfl

/-- Two sets with the same members are equal. -/
@[ext] theorem ext {s t : LiveSet} (h : ∀ r, r ∈ s ↔ r ∈ t) : s = t := by
  have hl : s.toList = t.toList := eq_of_ascending s.ascending t.ascending h
  cases s; cases t
  simp only at hl
  subst hl
  rfl

def empty : LiveSet := ⟨[], .nil⟩

instance : EmptyCollection LiveSet := ⟨empty⟩
instance : Inhabited LiveSet := ⟨empty⟩

def insert (s : LiveSet) (r : Reg) : LiveSet :=
  ⟨insertReg r s.toList, ascending_insertReg s.ascending⟩

def union (s t : LiveSet) : LiveSet :=
  ⟨mergeRegs s.toList t.toList, ascending_mergeRegs s.ascending t.ascending⟩

/-- Members of the first set that are not members of the second. -/
def diff (s t : LiveSet) : LiveSet :=
  ⟨s.toList.filter fun r => !decide (r ∈ t), s.ascending.filter _⟩

def ofList (rs : List Reg) : LiveSet :=
  rs.foldl insert empty

def unions (ss : List LiveSet) : LiveSet :=
  ss.foldl union empty

def size (s : LiveSet) : Nat := s.toList.length

def isEmpty (s : LiveSet) : Bool := s.toList.isEmpty

def namesOf (s : LiveSet) (cls : RegClass) : List String :=
  s.toList.filterMap fun r => if r.cls = cls then some r.name else none

@[simp] theorem not_mem_empty (r : Reg) : r ∉ empty := List.not_mem_nil

@[simp] theorem mem_insert {s : LiveSet} {q r : Reg} : r ∈ s.insert q ↔ r = q ∨ r ∈ s :=
  mem_insertReg

@[simp] theorem mem_union {s t : LiveSet} {r : Reg} : r ∈ s.union t ↔ r ∈ s ∨ r ∈ t :=
  mem_mergeRegs s.toList t.toList

@[simp] theorem mem_diff {s t : LiveSet} {r : Reg} : r ∈ s.diff t ↔ r ∈ s ∧ r ∉ t := by
  simp [mem_def, diff]

theorem mem_foldl_insert {rs : List Reg} {s : LiveSet} {r : Reg} :
    r ∈ rs.foldl insert s ↔ r ∈ rs ∨ r ∈ s := by
  induction rs generalizing s with
  | nil => simp
  | cons q rs ih =>
    rw [List.foldl_cons, ih, mem_insert, List.mem_cons]
    grind

@[simp] theorem mem_ofList {rs : List Reg} {r : Reg} : r ∈ ofList rs ↔ r ∈ rs := by
  simp [ofList, mem_foldl_insert]

theorem mem_foldl_union {ss : List LiveSet} {s : LiveSet} {r : Reg} :
    r ∈ ss.foldl union s ↔ (∃ t ∈ ss, r ∈ t) ∨ r ∈ s := by
  induction ss generalizing s with
  | nil => simp
  | cons t ss ih =>
    rw [List.foldl_cons, ih, mem_union]
    simp only [List.mem_cons, exists_eq_or_imp]
    grind

@[simp] theorem mem_unions {ss : List LiveSet} {r : Reg} : r ∈ unions ss ↔ ∃ t ∈ ss, r ∈ t := by
  simp [unions, mem_foldl_union]

theorem mem_namesOf {s : LiveSet} {cls : RegClass} {x : String} :
    x ∈ s.namesOf cls ↔ (⟨x, cls⟩ : Reg) ∈ s := by
  simp only [namesOf, List.mem_filterMap, mem_def]
  constructor
  · rintro ⟨r, hr, h⟩
    split at h
    · next hc =>
      cases r
      simp only [Option.some.injEq] at h hc
      subst h hc
      exact hr
    · cases h
  · intro h
    exact ⟨⟨x, cls⟩, h, by simp⟩

end LiveSet
end ClosureCodegen
