import Taxonomy.Hierarchy.Basic
import Taxonomy.Walk.Basic

/-!
# Walking a hierarchy

A `Plan` says which way to walk, where to begin, what to leave out, and how to order the visits.
Without a start, a walk down begins at the root and a walk up begins at the leaves. A type is
admitted as a seed if it is a member, is not ignored and has not been visited already.

A walk visits no member twice, so as many steps as there are members are enough for it to end by
itself.
-/

namespace Taxonomy

/-- How to walk a hierarchy. -/
structure Plan where
  direction : Direction
  /-- Where the walk begins, if not where its direction says. -/
  start : Option (List Ty) := none
  /-- What earlier walks have visited. -/
  visited : FinSet Ty := ∅
  /-- Types left out with all their edges. -/
  ignored : FinSet Ty := ∅
  /-- Whether to remember which types have edges to which. -/
  track : Bool := false
  /-- Whether to visit layer by layer. -/
  stratify : Bool := false

namespace Hierarchy

variable {ρ : Type}

/-- The edges that a walk follows from a type. -/
def successors (h : Hierarchy) (plan : Plan) (t : Ty) : FinSet Ty :=
  (h.neighbours plan.direction t).filter (· ∉ plan.ignored)

/-- The types of a start list at which a walk may begin, each once. -/
def seeds (h : Hierarchy) (plan : Plan) (start : List Ty) : List Ty :=
  FinSet.firsts (start.filter fun t ↦ h.hasType t && t ∉ plan.ignored && t ∉ plan.visited)

/-- The breadth-first walk from given seeds. -/
def explore (h : Hierarchy) (plan : Plan) (visitor : Visitor ρ) (seeds : List Ty) : Walk ρ :=
  Walk.breadthFirst (h.successors plan) plan.track visitor h.size
    (Queue.ofList (seeds.map (·, 0)))
    ⟨[], plan.visited.insertAll seeds, ∅⟩

/-- The stratified walk from given seeds. It visits what the breadth-first walk visits. -/
def stratify (h : Hierarchy) (plan : Plan) (visitor : Visitor ρ) (seeds : List Ty) : Walk ρ :=
  let types := (h.explore plan Visitor.never seeds).order
  Walk.stratified (h.successors plan) plan.track visitor (FinSet.ofList types)
    ⟨[], plan.visited, ∅⟩

/-- The walk from a given start. -/
def walkFrom (h : Hierarchy) (plan : Plan) (visitor : Visitor ρ) (start : List Ty) : Walk ρ :=
  if plan.stratify then h.stratify plan visitor (h.seeds plan start)
  else h.explore plan visitor (h.seeds plan start)

/-- The members without children, found by walking down from the root. -/
def leaves (h : Hierarchy) : FinSet Ty :=
  let walk := h.walkFrom { direction := .down } Visitor.never [h.root]
  FinSet.ofList (walk.order.filter fun t ↦ (h.childrenOf t).isEmpty)

/-- Where a walk begins if its plan does not say. -/
def defaultStart (h : Hierarchy) : Direction → List Ty
  | .down => [h.root]
  | .up => h.leaves.toList

/-- Walks as planned. -/
def walk (h : Hierarchy) (plan : Plan) (visitor : Visitor ρ) : Walk ρ :=
  h.walkFrom plan visitor (plan.start.getD (h.defaultStart plan.direction))

end Hierarchy

end Taxonomy
