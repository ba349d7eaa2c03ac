import Std.Data.HashMap

/-!
# Numbered names

Nodes of a graph are numbered in the order in which their names first turn up.  A numbering keeps
the names in that order, and beside them an index from each name to its number.  Everything about
a numbering can be read off its list of names: `number?` is the position in the list, and `insert`
appends a name unless it is there.
-/

namespace ClosureCodegen

/-- Names with numbers from zero on. -/
structure Numbering where
  names : Array String
  index : Std.HashMap String Nat
  index_eq : ∀ x : String, index[x]? = names.toList.idxOf? x

namespace Numbering

def empty : Numbering :=
  ⟨#[], ∅, by simp⟩

def toList (n : Numbering) : List String := n.names.toList

def size (n : Numbering) : Nat := n.names.size

def number? (n : Numbering) (x : String) : Option Nat := n.index[x]?

/-- Gives a name the next number, unless it has one. -/
def insert (n : Numbering) (x : String) : Numbering :=
  if h : n.index[x]? = none then
    { names := n.names.push x
      index := n.index.insert x n.names.size
      index_eq := by
        intro y
        have hx : n.names.toList.idxOf? x = none := (n.index_eq x).symm.trans h
        rw [Std.HashMap.getElem?_insert, Array.toList_push, n.index_eq y]
        simp only [List.idxOf?, List.findIdx?_append] at hx ⊢
        by_cases hy : x = y
        · subst hy
          simp [hx]
        · simp [hy] }
  else n

def insertAll (n : Numbering) (xs : List String) : Numbering :=
  xs.foldl insert n

@[simp] theorem toList_empty : empty.toList = [] := rfl

theorem number?_eq (n : Numbering) (x : String) : n.number? x = n.toList.idxOf? x :=
  n.index_eq x

theorem toList_insert (n : Numbering) (x : String) :
    (n.insert x).toList = if x ∈ n.toList then n.toList else n.toList ++ [x] := by
  have h : n.index[x]? = none ↔ x ∉ n.toList := by
    rw [n.index_eq x]
    exact List.idxOf?_eq_none_iff
  unfold insert
  split
  · next hx => rw [if_neg (h.mp hx)]; exact Array.toList_push
  · next hx => rw [if_pos (Decidable.not_not.mp fun hn => hx (h.mpr hn))]

theorem mem_insert {n : Numbering} {x y : String} :
    y ∈ (n.insert x).toList ↔ y ∈ n.toList ∨ y = x := by
  rw [toList_insert]
  split
  · next hx => exact ⟨.inl, fun h => h.elim id fun he => he ▸ hx⟩
  · rw [List.mem_append, List.mem_singleton]

theorem nodup_insert {n : Numbering} {x : String} (h : n.toList.Nodup) :
    (n.insert x).toList.Nodup := by
  rw [toList_insert]
  split
  · exact h
  · next hx =>
    rw [List.nodup_append]
    refine ⟨h, by simp, ?_⟩
    rintro a ha b hb rfl
    exact hx (List.mem_singleton.mp hb ▸ ha)

end Numbering
end ClosureCodegen
