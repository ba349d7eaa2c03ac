import Mathlib.Data.Fintype.Card
import ClosureCodegen.Optimizer.Threading
import ClosureCodegen.Proofs.Liveness.Paths

/-!
# Walks over jumps

Labels, comments and empty instructions do nothing, and an unconditional jump does nothing but go
elsewhere.  A *walk* passes over the former and follows the latter.  It comes to rest in front of an
instruction that does something, at the end of the body or at a label that the body does not have;
or it never does, because its jumps form a circle.

* `Move.existsUnique_leadsTo`: every walk leads to one place, or on for ever.
* `Move.exists_follow_le_length`: a walk to an instruction has no more moves than the body has
  instructions, as it comes to none of them twice.
-/

namespace ClosureCodegen

/-- Where a walk can come to rest. -/
inductive Landing where
  /-- In front of an instruction, by its position. -/
  | instr (position : Nat)
  | atEnd
  /-- At a label that the body does not have. -/
  | outside (label : String)
  deriving DecidableEq, Repr

/-- A stage of a walk. -/
inductive Move where
  /-- On the way, at a position. -/
  | go (position : Nat)
  /-- At rest. -/
  | rest (landing : Landing)
  deriving DecidableEq, Repr

/-- The first stage of a walk to a label. -/
def enter (code : Code) (l : String) : Move :=
  match (labelTable code).position? l with
  | some p => .go (p + 1)
  | none => .rest (.outside l)

/-- What comes after a position on a walk. A jump without a label cannot be followed. -/
def moveFrom (code : Code) (p : Nat) : Move :=
  match code[p]? with
  | none => .rest .atEnd
  | some i =>
    if i.op.isIdle then .go (p + 1)
    else if i.op = .j then (i.label?.map (enter code)).getD (.rest (.instr p))
    else .rest (.instr p)

section MoveFrom

variable {code : Code} {p q : Nat} {i : Instr} (hi : code[p]? = some i)
include hi

theorem moveFrom_of_isIdle (hidle : i.op.isIdle = true) : moveFrom code p = .go (p + 1) := by
  simp only [moveFrom, hi, hidle, if_true]

theorem moveFrom_of_jump {l : String} (hop : i.op = .j) (hl : i.label? = some l) :
    moveFrom code p = enter code l := by
  have hidle : ¬i.op.isIdle = true := by rw [hop]; exact Bool.false_ne_true
  simp only [moveFrom, hi]
  rw [if_neg hidle, if_pos hop, hl, Option.map_some, Option.getD_some]

theorem moveFrom_of_busy (hidle : i.op.isIdle = false) (hjump : i.op = .j → i.label? = none) :
    moveFrom code p = .rest (.instr p) := by
  simp only [moveFrom, hi, hidle, Bool.false_eq_true, if_false]
  split
  · next hop => rw [hjump hop, Option.map_none, Option.getD_none]
  · rfl

end MoveFrom

namespace Move

variable {code : Code} {m : Move}

def follow (code : Code) : Nat → Move → Move
  | 0, m => m
  | _ + 1, rest s => rest s
  | n + 1, go p => follow code n (moveFrom code p)

/-- Where a walk leads, or that it goes on for ever. -/
def LeadsTo (code : Code) (m : Move) : Option Landing → Prop
  | some s => ∃ n, m.follow code n = rest s
  | none => ∀ n, ∃ p, m.follow code n = go p

@[simp] theorem follow_zero (code : Code) (m : Move) : m.follow code 0 = m := by
  cases m <;> rfl

@[simp] theorem follow_rest (code : Code) (n : Nat) (s : Landing) :
    (rest s).follow code n = rest s := by
  cases n <;> rfl

@[simp] theorem follow_go_succ (code : Code) (n p : Nat) :
    (go p).follow code (n + 1) = (moveFrom code p).follow code n := rfl

theorem follow_add (code : Code) (n k : Nat) (m : Move) :
    m.follow code (n + k) = (m.follow code n).follow code k := by
  induction n generalizing m with
  | zero => rw [Nat.zero_add, follow_zero]
  | succ n ih =>
    cases m with
    | rest s => rw [follow_rest, follow_rest, follow_rest]
    | go p => rw [Nat.succ_add, follow_go_succ, follow_go_succ, ih]

theorem follow_of_le {n k : Nat} {s : Landing} (h : m.follow code n = rest s) (hk : n ≤ k) :
    m.follow code k = rest s := by
  obtain ⟨j, rfl⟩ := Nat.exists_eq_add_of_le hk
  rw [follow_add, h, follow_rest]

/-! ## One destination -/

theorem follow_unique {n k : Nat} {s t : Landing} (h : m.follow code n = rest s)
    (h' : m.follow code k = rest t) : s = t := by
  have hn := follow_of_le h (Nat.le_max_left n k)
  have hk := follow_of_le h' (Nat.le_max_right n k)
  exact rest.inj (hn.symm.trans hk)

theorem LeadsTo.unique {d d' : Option Landing} (h : m.LeadsTo code d) (h' : m.LeadsTo code d') :
    d = d' := by
  -- a walk that has come to rest is not under way
  have hexcl : ∀ {s}, m.LeadsTo code (some s) → ¬m.LeadsTo code none := by
    rintro s ⟨n, hn⟩ hgo
    obtain ⟨p, hp⟩ := hgo n
    cases hn.symm.trans hp
  match d, d', h, h' with
  | some s, some t, ⟨n, hn⟩, ⟨k, hk⟩ => rw [follow_unique hn hk]
  | some s, none, h, h' => exact absurd h' (hexcl h)
  | none, some t, h, h' => exact absurd h (hexcl h')
  | none, none, _, _ => rfl

theorem existsUnique_leadsTo (code : Code) (m : Move) : ∃! d, m.LeadsTo code d := by
  by_cases h : ∃ n s, m.follow code n = rest s
  · obtain ⟨n, s, hn⟩ := h
    have hs : m.LeadsTo code (some s) := ⟨n, hn⟩
    exact ⟨some s, hs, fun d hd => hd.unique hs⟩
  · have hgo : m.LeadsTo code none := by
      intro n
      cases hn : m.follow code n with
      | go p => exact ⟨p, rfl⟩
      | rest s => exact absurd ⟨n, s, hn⟩ h
    exact ⟨none, hgo, fun d hd => hd.unique hgo⟩

theorem leadsTo_iff_of_common {code' : Code} {m' : Move} {d : Option Landing}
    (h : m.LeadsTo code d) (h' : m'.LeadsTo code' d) (e : Option Landing) :
    m'.LeadsTo code' e ↔ m.LeadsTo code e :=
  ⟨fun he => he.unique h' ▸ h, fun he => he.unique h ▸ h'⟩

theorem leadsTo_iff_of_follow {m' : Move} {n : Nat} (h : m.follow code n = m') (d : Option Landing) :
    m'.LeadsTo code d ↔ m.LeadsTo code d := by
  obtain ⟨e, he, -⟩ := existsUnique_leadsTo code m'
  refine leadsTo_iff_of_common (d := e) ?_ he d
  cases e with
  | some s =>
    obtain ⟨k, hk⟩ := he
    exact ⟨n + k, by rw [follow_add, h, hk]⟩
  | none =>
    intro k
    obtain ⟨p, hp⟩ := he k
    have hlong : m.follow code (n + k) = go p := by rw [follow_add, h, hp]
    cases hk : m.follow code k with
    | go q => exact ⟨q, rfl⟩
    | rest s => cases hlong.symm.trans (follow_of_le hk (Nat.le_add_left k n))

/-! ## The length of a walk -/

theorem lt_length_of_moveFrom {p q : Nat}
    (h : moveFrom code p = go q ∨ moveFrom code p = rest (.instr q)) : p < code.length := by
  unfold moveFrom at h
  split at h
  · rcases h with h | h <;> cases h
  · next hi => exact (List.getElem?_eq_some_iff.mp hi).1

theorem exists_follow_le_length {q : Nat} (h : m.LeadsTo code (some (.instr q))) :
    ∃ n ≤ code.length, m.follow code n = rest (.instr q) := by
  classical
  have hfirst := Nat.find_spec h
  have hmin := fun {k} => Nat.find_min h (m := k)
  generalize Nat.find h = n at hfirst hmin
  have hgo : ∀ k, k < n → ∃ p, m.follow code k = go p := by
    intro k hk
    cases hm : m.follow code k with
    | go p => exact ⟨p, rfl⟩
    | rest s => exact absurd (follow_unique hm hfirst ▸ hm) (hmin hk)
  have hplace : ∀ k : Fin n, ∃ p : Fin code.length, m.follow code k = go p := by
    rintro ⟨k, hk⟩
    obtain ⟨p, hp⟩ := hgo k hk
    have hnext : m.follow code (k + 1) = moveFrom code p := by
      rw [follow_add, hp, follow_go_succ, follow_zero]
    refine ⟨⟨p, ?_⟩, hp⟩
    rcases Nat.lt_or_ge (k + 1) n with hlt | hge
    · obtain ⟨p', hp'⟩ := hgo (k + 1) hlt
      exact lt_length_of_moveFrom (.inl (hnext.symm.trans hp'))
    · have hlast := follow_of_le hfirst hge
      exact lt_length_of_moveFrom (.inr (hnext.symm.trans hlast))
  choose place hplace using hplace
  -- if the walk came to a position again, it would go on from there as before, and arrive earlier
  have hnever : ∀ j k : Fin n, j < k → place j ≠ place k := by
    intro j k hjk heq
    have hshort : m.follow code (j + (n - k)) = rest (.instr q) := by
      rw [follow_add, hplace, heq, ← hplace, ← follow_add, Nat.add_sub_cancel' k.isLt.le, hfirst]
    exact hmin (by have := k.isLt; have : (j : ℕ) < k := hjk; omega) hshort
  have hinj : Function.Injective place := by
    intro j k heq
    rcases lt_trichotomy j k with hlt | rfl | hlt
    · exact absurd heq (hnever j k hlt)
    · rfl
    · exact absurd heq.symm (hnever k j hlt)
  exact ⟨n, by simpa using Fintype.card_le_of_injective place hinj, hfirst⟩

end Move
end ClosureCodegen
