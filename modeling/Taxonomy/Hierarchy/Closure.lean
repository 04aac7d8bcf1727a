import Taxonomy.Hierarchy.Walk

/-!
# Ancestors, descendants and cycles

The closure of a type in a direction is what a walk from its neighbours visits, so a type belongs to
its own closure only if it lies on a cycle. `reaches` answers the question for one pair and stops as
soon as it is settled.

A hierarchy is circular if some types cannot be peeled off from the root downward. Those are the
types on a cycle together with all below them; the circular ones among them are on a cycle
themselves.
-/

namespace Taxonomy.Hierarchy

/-- Every type reached from `t` by following at least one edge. -/
def closure (h : Hierarchy) (direction : Direction) (t : Ty) : FinSet Ty :=
  FinSet.ofList
    (h.walkFrom { direction } Visitor.never (h.neighbours direction t).toList).order

/-- The types above `t`. -/
def ancestors (h : Hierarchy) (t : Ty) : FinSet Ty := h.closure .up t

/-- The types below `t`. -/
def descendants (h : Hierarchy) (t : Ty) : FinSet Ty := h.closure .down t

/-- The closure of a member together with the member itself. -/
def reflexiveClosure (h : Hierarchy) (direction : Direction) (t : Ty) : FinSet Ty :=
  if h.hasType t then (h.closure direction t).insert t else h.closure direction t

/-- The visitor that halts at a type. -/
def stopAt (target : Ty) : Visitor Unit := fun _ now ↦ if now.type = target then some () else none

/-- Whether a member is reached from a member by following at least one edge. -/
def reaches (h : Hierarchy) (direction : Direction) (source target : Ty) : Bool :=
  h.hasType source && h.hasType target &&
    (h.walkFrom { direction } (stopAt target) (h.neighbours direction source).toList).halted

/-- Whether `ancestor` is above `t`. -/
def hasAncestor (h : Hierarchy) (t ancestor : Ty) : Bool := h.reaches .up t ancestor

/-- Whether `descendant` is below `t`. -/
def hasDescendant (h : Hierarchy) (t descendant : Ty) : Bool := h.reaches .down t descendant

/-- The types above both. -/
def commonAncestors (h : Hierarchy) (left right : Ty) : FinSet Ty :=
  (h.ancestors left).inter (h.ancestors right)

/-- The types below both. -/
def commonDescendants (h : Hierarchy) (left right : Ty) : FinSet Ty :=
  (h.descendants left).inter (h.descendants right)

/-! ## Cycles -/

/-- The types that are on or below a cycle. -/
def unpeelable (h : Hierarchy) : List Ty := (Layers.ofGraph h.childrenOf h.types).stuck

/-- Whether some type is above itself. -/
def isCircular (h : Hierarchy) : Bool := !h.unpeelable.isEmpty

/-- The types that are above themselves. -/
def circularTypes (h : Hierarchy) : FinSet Ty :=
  FinSet.ofList (h.unpeelable.filter fun t ↦ h.hasAncestor t t)

end Taxonomy.Hierarchy
