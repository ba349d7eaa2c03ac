import Mathlib.Data.List.Nodup
import ClosureCodegen.Allocation.Spill

/-!
# Names

Physical registers have different names.  No name with a fixed role begins with the percent sign
that the names of temporaries begin with, and temporaries with different numbers have different
names.
-/

namespace ClosureCodegen
open List

theorem Decimal.natText_injective {m n : Nat} (h : natText m = natText n) : m = n := by
  have hd : Nat.toDigits 10 m = Nat.toDigits 10 n := String.ofList_injective h
  rw [← Nat.ofDigitChars_ten_toDigits (n := m), hd, Nat.ofDigitChars_ten_toDigits]

/-! ## Physical registers -/

namespace PhysReg

theorem mem_all (p : PhysReg) : p ∈ all := by
  obtain ⟨c, i⟩ := p
  rw [all, mem_append]
  cases c with
  | int => exact .inl (mem_map_of_mem (mem_finRange i))
  | float => exact .inr (mem_map_of_mem (mem_finRange i))

theorem name_injective {p q : PhysReg} (h : p.name = q.name) : p = q :=
  inj_on_of_nodup_map (by decide) (mem_all p) (mem_all q) h

theorem ofName?_name (p : PhysReg) : ofName? p.name = some p := by
  cases h : ofName? p.name with
  | none =>
    have := find?_eq_none.mp h p (mem_all p)
    simp at this
  | some q =>
    have hq := find?_some h
    exact congrArg some (name_injective (eq_of_beq hq))

theorem isReservedName_name {p : PhysReg} : isReservedName p.name = true ↔ p ∈ reserved := by
  rw [isReservedName, contains_iff_mem, reservedNames, mem_map]
  constructor
  · rintro ⟨q, hq, he⟩
    exact name_injective he ▸ hq
  · intro hp
    exact ⟨p, hp, rfl⟩

end PhysReg

/-! ## Temporaries -/

theorem head?_of_isReservedName {s : String} (h : isReservedName s = true) :
    s.toList.head? ≠ some '%' := by
  have hall : ∀ x ∈ reservedNames, x.toList.head? ≠ some '%' := by decide
  exact hall s (contains_iff_mem.mp h)

theorem isReserved_reloadTemp (n : Nat) (cls : RegClass) :
    (reloadTemp n cls).isReserved = false := by
  refine Bool.eq_false_iff.mpr fun h => head?_of_isReservedName h ?_
  rw [reloadTemp, String.toList_append]
  rfl

theorem reloadTemp_injective {m n : Nat} {c d : RegClass} (h : reloadTemp m c = reloadTemp n d) :
    m = n := by
  have hname : "%reload." ++ Decimal.natText m = "%reload." ++ Decimal.natText n :=
    congrArg Reg.name h
  have hlist := congrArg String.toList hname
  rw [String.toList_append, String.toList_append, append_cancel_left_eq] at hlist
  exact Decimal.natText_injective (String.toList_injective hlist)

end ClosureCodegen
