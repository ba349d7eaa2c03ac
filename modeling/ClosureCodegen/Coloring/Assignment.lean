import ClosureCodegen.Coloring.Simplify

/-!
# Colouring

The nodes that simplification set aside are coloured from the top of the stack.  Each takes the
first register of the allocation order that none of its coloured neighbours has.  A node that
finds none is reported: as a variable to spill if it was set aside as a candidate, and as a
failure otherwise.
-/

namespace ClosureCodegen

/-- The outcome of colouring a graph. -/
inductive Coloring where
  /-- A register for every variable. -/
  | assigned (registers : List (String × PhysReg))
  /-- A variable to spill before colouring again. -/
  | spill (var : String)
  deriving DecidableEq, Repr

namespace InterferenceGraph

/-- The registers of the coloured neighbours of a node. -/
def taken (g : InterferenceGraph) (colors : Array (Option PhysReg)) (id : Nat) : List PhysReg :=
  (g.neighbours id).filterMap fun m => colors.getD m none

/-- Colours the nodes of a stack on top of those already coloured. -/
def select (g : InterferenceGraph) (order : List PhysReg) :
    List SetAside → Array (Option PhysReg) → Outcome Coloring
  | [], colors =>
    .ok (.assigned ((g.names.zip colors.toList).filterMap fun (x, r?) => r?.map fun r => (x, r)))
  | ⟨id, candidate⟩ :: stack, colors =>
    let taken := g.taken colors id
    match order.find? fun r => r ∉ taken with
    | some r => select g order stack (colors.setIfInBounds id (some r))
    | none =>
      if candidate then .ok (.spill (g.nameOf id)) else .error (.uncolorableNode (g.nameOf id))

/-- The nodes that may be spilled, in ascending order. -/
def spillable (g : InterferenceGraph) (barred : List String) : List Nat :=
  (List.range g.size).filter fun id => g.nameOf id ∉ barred

/-- Colours a graph with the registers of an order, spilling no barred variable. -/
def color (g : InterferenceGraph) (order : List PhysReg) (barred : List String) :
    Outcome Coloring :=
  let stack := (Simplifier.start g order.length).run g order.length (g.spillable barred)
  g.select order stack (Array.replicate g.size none)

end InterferenceGraph
end ClosureCodegen
