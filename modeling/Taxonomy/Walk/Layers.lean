import Taxonomy.Finite.Set
import Taxonomy.Ty

/-!
# Peeling a graph into layers

A finite graph is peeled layer by layer: a type is *ready* when none of its predecessors is left.
Each type keeps the number of its predecessors that are still in the graph, `pending`; taking a
layer away lowers the count of every remaining type by the number of its predecessors in that layer.
A type's layer is then the length of the longest path that ends in it.

Types on a cycle, and all below them, never become ready. They are what is *stuck* once no type is
ready any more.
-/

namespace Taxonomy

/-- A type that is still in the graph. -/
structure Waiting where
  type : Ty
  successors : FinSet Ty
  /-- How many of the types left have an edge to this one. -/
  pending : Nat

namespace Waiting

/-- All of `types`, each with the number of its predecessors among them. -/
def initial (successors : Ty → FinSet Ty) (types : FinSet Ty) : List Waiting :=
  let edges := types.toList.map fun t ↦ (t, successors t)
  edges.map fun (t, next) ↦ ⟨t, next, edges.countP fun edge ↦ t ∈ edge.2⟩

/-- The number of `done` types with an edge to this one. -/
def discount (done : List Waiting) (node : Waiting) : Nat :=
  done.countP fun other ↦ node.type ∈ other.successors

/-- The types of which no predecessor is left. -/
def ready (nodes : List Waiting) : List Waiting := nodes.filter fun node ↦ node.pending = 0

/-- What remains once the ready types are taken away. -/
def peel (nodes : List Waiting) : List Waiting :=
  let done := ready nodes
  (nodes.filter fun node ↦ node.pending ≠ 0).map fun node ↦
    { node with pending := node.pending - node.discount done }

end Waiting

/-- A graph peeled as far as it goes. -/
structure Layers where
  /-- The layers, first to last, each in presentation order. -/
  levels : List (List Ty)
  /-- The types on or below a cycle. -/
  stuck : List Ty

namespace Layers

/-- Peels at most `fuel` layers. -/
def ofWaiting : Nat → List Waiting → Layers
  | 0, nodes => ⟨[], nodes.map Waiting.type⟩
  | fuel + 1, nodes =>
    match Waiting.ready nodes with
    | [] => ⟨[], nodes.map Waiting.type⟩
    | level =>
      let later := ofWaiting fuel (Waiting.peel nodes)
      ⟨level.map Waiting.type :: later.levels, later.stuck⟩

/-- The layers of the graph that `successors` makes of `types`. No layer is empty, so there are at
most as many layers as types. -/
def ofGraph (successors : Ty → FinSet Ty) (types : FinSet Ty) : Layers :=
  ofWaiting types.size (Waiting.initial successors types)

/-- The layers, followed by what is stuck as one more layer. -/
def complete (layers : Layers) : List (List Ty) :=
  if layers.stuck.isEmpty then layers.levels else layers.levels ++ [layers.stuck]

end Layers

end Taxonomy
