import ClosureCodegen.Machine.Register

/-!
# Sets of physical registers

A set has one mask for each bank, with a bit for each register.  Membership is the view through
which every operation is read: each comes with the lemma that says who its members are.
-/

namespace ClosureCodegen

/-- A set of physical registers, as one mask per bank. -/
structure RegSet where
  ints : BitVec 32
  floats : BitVec 32
  deriving DecidableEq, Repr

namespace RegSet

def mask (s : RegSet) : RegClass → BitVec 32
  | .int => s.ints
  | .float => s.floats

def contains (s : RegSet) (r : PhysReg) : Bool :=
  (s.mask r.cls).getLsbD r.id

/-- The mask of one register. -/
def bit (r : PhysReg) : BitVec 32 :=
  1#32 <<< r.id.val

def empty : RegSet := ⟨0, 0⟩

/-- Every register of both banks. -/
def full : RegSet := ⟨BitVec.allOnes 32, BitVec.allOnes 32⟩

def insert (s : RegSet) (r : PhysReg) : RegSet :=
  match r.cls with
  | .int => { s with ints := s.ints ||| bit r }
  | .float => { s with floats := s.floats ||| bit r }

def erase (s : RegSet) (r : PhysReg) : RegSet :=
  match r.cls with
  | .int => { s with ints := s.ints &&& ~~~bit r }
  | .float => { s with floats := s.floats &&& ~~~bit r }

def union (s t : RegSet) : RegSet :=
  ⟨s.ints ||| t.ints, s.floats ||| t.floats⟩

def inter (s t : RegSet) : RegSet :=
  ⟨s.ints &&& t.ints, s.floats &&& t.floats⟩

def ofList (rs : List PhysReg) : RegSet :=
  rs.foldl insert empty

/-- The members, the integer bank first, each bank by number. -/
def toList (s : RegSet) : List PhysReg :=
  PhysReg.all.filter s.contains

def count (s : RegSet) (cls : RegClass) : Nat :=
  (PhysReg.bankRegs cls).countP s.contains

def isEmpty (s : RegSet) : Bool :=
  s.ints = 0 && s.floats = 0

/-! ## Membership -/

theorem getLsbD_bit (r : PhysReg) (i : Nat) : (bit r).getLsbD i = decide (r.id.val = i) := by
  have hr := r.id.isLt
  simp only [bit, BitVec.getLsbD_shiftLeft, BitVec.getLsbD_one]
  by_cases h : r.id.val = i
  · subst h; simp
  · simp only [h, decide_false]
    by_cases hi : i < r.id.val
    · simp [hi]
    · have : i - r.id.val ≠ 0 := by omega
      simp [this]

@[simp] theorem contains_empty (r : PhysReg) : empty.contains r = false := by
  cases r with | mk c i => cases c <;> simp [contains, mask, empty]

@[simp] theorem contains_union (s t : RegSet) (r : PhysReg) :
    (s.union t).contains r = (s.contains r || t.contains r) := by
  cases r with | mk c i => cases c <;> simp [contains, mask, union]

@[simp] theorem contains_inter (s t : RegSet) (r : PhysReg) :
    (s.inter t).contains r = (s.contains r && t.contains r) := by
  cases r with | mk c i => cases c <;> simp [contains, mask, inter]

theorem contains_insert (s : RegSet) (q r : PhysReg) :
    (s.insert q).contains r = (decide (q = r) || s.contains r) := by
  cases q with
  | mk c i =>
    cases r with
    | mk d j =>
      cases c <;> cases d <;>
        simp only [contains, mask, insert, BitVec.getLsbD_or, getLsbD_bit, PhysReg.mk.injEq,
          Fin.ext_iff, true_and, false_and, reduceCtorEq, decide_false, Bool.false_or, Bool.or_comm]

theorem contains_erase (s : RegSet) (q r : PhysReg) :
    (s.erase q).contains r = (!decide (q = r) && s.contains r) := by
  have hr := r.id.isLt
  cases q with
  | mk c i =>
    cases r with
    | mk d j =>
      cases c <;> cases d <;>
        simp only [contains, mask, erase, BitVec.getLsbD_and, BitVec.getLsbD_not, getLsbD_bit, hr,
          PhysReg.mk.injEq, Fin.ext_iff, true_and, false_and, reduceCtorEq, decide_false,
          decide_true, Bool.true_and, Bool.not_false, Bool.and_comm]

theorem contains_foldl_insert (rs : List PhysReg) (s : RegSet) (r : PhysReg) :
    (rs.foldl insert s).contains r = (rs.contains r || s.contains r) := by
  induction rs generalizing s with
  | nil => simp
  | cons q rs ih =>
    rw [List.foldl_cons, ih, contains_insert, List.contains_cons]
    by_cases h : r = q
    · subst h; simp
    · simp [beq_eq_false_iff_ne.mpr h, Ne.symm h]

@[simp] theorem contains_ofList (rs : List PhysReg) (r : PhysReg) :
    (ofList rs).contains r = rs.contains r := by
  simp [ofList, contains_foldl_insert]

end RegSet
end ClosureCodegen
