import ClosureCodegen.Coloring.Numbering
import ClosureCodegen.Liveness.Solution

/-!
# Interference graphs

Two variables of a class interfere if both are live behind some instruction or defined by it: they
need different registers there.  A definition counts even if nobody reads it, since the
instruction still writes its register.

The nodes of the graph are the variables in the order in which the body first mentions them.  At
each instruction the uses are mentioned first and the others after them by name.  In which order
the uses are visited is a parameter, because the sets themselves have none; it can only decide the
numbers of two variables that are first mentioned by being used in one instruction.
-/

namespace ClosureCodegen

/-- The order in which the uses of a class in the instruction at a position are visited. -/
abbrev UseVisit := RegClass → Nat → List String → List String

/-- Visits the uses in the order of their names. -/
def UseVisit.byName : UseVisit := fun _ _ names => names

/-- The interference graph of one class. Nodes are numbered from zero. -/
structure InterferenceGraph where
  nodes : Numbering
  /-- The neighbours of each node, in ascending order. -/
  adjacency : Array (List Nat)

/-- A set of nodes as a number with their bits. -/
def nodeMask (ids : List Nat) : Nat :=
  ids.foldl (fun m id => m ||| 1 <<< id) 0

namespace Liveness

/-- The variables of a class that need different registers at an instruction. -/
def clique (l : Liveness) (cls : RegClass) (i : Nat) : List String :=
  ((l.liveOut i).union (l.defs i)).namesOf cls

/-- The variables of a class, numbered in the order in which the body first mentions them. -/
def mentions (visit : UseVisit) (l : Liveness) (cls : RegClass) : Numbering :=
  (List.range l.size).foldl
    (fun n i => (n.insertAll (visit cls i ((l.uses i).namesOf cls))).insertAll (l.clique cls i)) .empty

end Liveness

namespace InterferenceGraph

/-- The nodes that share a clique with a node, as a mask that may have the node itself. -/
def row (cliques : List Nat) (id : Nat) : Nat :=
  cliques.foldl (fun acc c => if c.testBit id then acc ||| c else acc) 0

/-- The neighbours of a node of a graph with `size` nodes. -/
def neighboursIn (cliques : List Nat) (size id : Nat) : List Nat :=
  let r := row cliques id
  (List.range size).filter fun j => j != id && r.testBit j

/-- The interference graph of a class in a body. -/
def ofLiveness (visit : UseVisit) (l : Liveness) (cls : RegClass) : InterferenceGraph :=
  let nodes := l.mentions visit cls
  let cliques :=
    (List.range l.size).map fun i => nodeMask ((l.clique cls i).filterMap nodes.number?)
  { nodes
    adjacency := ((List.range nodes.size).map (neighboursIn cliques nodes.size)).toArray }

def size (g : InterferenceGraph) : Nat := g.nodes.size

def names (g : InterferenceGraph) : List String := g.nodes.toList

def nameOf (g : InterferenceGraph) (id : Nat) : String := g.nodes.names.getD id ""

def neighbours (g : InterferenceGraph) (id : Nat) : List Nat := g.adjacency.getD id []

def contains (g : InterferenceGraph) (name : String) : Bool := (g.nodes.number? name).isSome

/-- Whether two variables need different registers. -/
def interferes (g : InterferenceGraph) (a b : String) : Bool :=
  match g.nodes.number? a, g.nodes.number? b with
  | some i, some j => (g.neighbours i).contains j
  | _, _ => false

def degree (g : InterferenceGraph) (name : String) : Nat :=
  match g.nodes.number? name with
  | some i => (g.neighbours i).length
  | none => 0

end InterferenceGraph
end ClosureCodegen
