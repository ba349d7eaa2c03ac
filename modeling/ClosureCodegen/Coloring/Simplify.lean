import ClosureCodegen.Coloring.Interference

/-!
# Simplification

A node with fewer remaining neighbours than there are registers can be coloured whatever its
neighbours get, so it may be set aside and coloured after them.  Setting nodes aside lowers the
degrees of others.  When no such node is left, the one with the most remaining neighbours is set
aside all the same, as a *candidate* for spilling, in the hope that its neighbours will share
registers.  Barred variables are set aside last and never as candidates.

The nodes end up on a stack, to be coloured from the top.
-/

namespace ClosureCodegen

/-- A node that was set aside, and whether it may be spilled if it finds no register. -/
structure SetAside where
  node : Nat
  candidate : Bool
  deriving DecidableEq, Repr

/-- A graph that nodes are removed from. -/
structure Simplifier where
  /-- For each remaining node the number of its remaining neighbours. -/
  degree : Array Nat
  removed : Array Bool
  /-- Nodes found to have fewer remaining neighbours than there are registers, oldest first. -/
  worklist : List Nat
  /-- Nodes set aside, the latest on top. -/
  stack : List SetAside
  /-- The number of nodes not yet set aside. -/
  remaining : Nat
  deriving Repr

namespace Simplifier

/-- The whole graph. -/
def start (g : InterferenceGraph) (k : Nat) : Simplifier :=
  let degree := g.adjacency.map List.length
  { degree
    removed := Array.replicate g.size false
    worklist := (List.range g.size).filter fun id => degree.getD id 0 < k
    stack := []
    remaining := g.size }

def isRemoved (s : Simplifier) (id : Nat) : Bool := s.removed.getD id true

def degreeOf (s : Simplifier) (id : Nat) : Nat := s.degree.getD id 0

/-- Takes one neighbour away from a node, which enters the worklist when that leaves it with fewer
than `k`. -/
def loseNeighbour (k : Nat) (removed : Array Bool) (state : Array Nat × List Nat) (m : Nat) :
    Array Nat × List Nat :=
  if removed.getD m true then state
  else
    let d := state.1.getD m 0 - 1
    (state.1.setIfInBounds m d, if d + 1 = k then state.2 ++ [m] else state.2)

/-- Sets a node aside. -/
def remove (g : InterferenceGraph) (k : Nat) (s : Simplifier) (id : Nat) (candidate : Bool) :
    Simplifier :=
  let removed := s.removed.setIfInBounds id true
  let counts := (g.neighbours id).foldl (loseNeighbour k removed) (s.degree, s.worklist)
  { degree := counts.1
    removed
    worklist := counts.2
    stack := ⟨id, candidate⟩ :: s.stack
    remaining := s.remaining - 1 }

/-- The first of the nodes with the highest degree. -/
def highest? (s : Simplifier) (ids : List Nat) : Option Nat :=
  ids.foldl
    (fun best id =>
      match best with
      | none => some id
      | some b => if s.degreeOf b < s.degreeOf id then some id else some b)
    none

/-- The nodes of a list that were not set aside. -/
def remainingOf (s : Simplifier) (ids : List Nat) : List Nat :=
  ids.filter fun id => !s.isRemoved id

/-- The node to set aside when the worklist is empty: the highest that may be spilled, as a
candidate, or else the highest. -/
def choose? (g : InterferenceGraph) (spillable : List Nat) (s : Simplifier) : Option SetAside :=
  match s.highest? (s.remainingOf spillable) with
  | some id => some ⟨id, true⟩
  | none => (s.highest? (s.remainingOf (List.range g.size))).map fun id => ⟨id, false⟩

/-- Sets all nodes aside. -/
def run (g : InterferenceGraph) (k : Nat) (spillable : List Nat) (s : Simplifier) : List SetAside :=
  if s.remaining = 0 then s.stack
  else
    match _h : s.worklist with
    | id :: rest =>
      if s.isRemoved id then run g k spillable { s with worklist := rest }
      else run g k spillable ({ s with worklist := rest }.remove g k id false)
    | [] =>
      match s.choose? g spillable with
      | some c => run g k spillable (s.remove g k c.node c.candidate)
      | none => s.stack
termination_by (s.remaining, s.worklist.length)
decreasing_by
  · rw [_h]
    exact Prod.Lex.right _ (Nat.lt_succ_self _)
  · exact Prod.Lex.left _ _ (Nat.sub_lt (Nat.pos_of_ne_zero ‹_›) Nat.one_pos)
  · exact Prod.Lex.left _ _ (Nat.sub_lt (Nat.pos_of_ne_zero ‹_›) Nat.one_pos)

end Simplifier
end ClosureCodegen
