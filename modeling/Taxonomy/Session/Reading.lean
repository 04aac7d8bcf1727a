import Taxonomy.Hierarchy.Closure
import Taxonomy.Session.Reply

/-!
# Readings

A reading is what can be read off a hierarchy without resolving anything: its structure and its
annotations, as data.
-/

namespace Taxonomy

/-- Something to read off a hierarchy. -/
inductive Reading where
  | state
  | everything
  | root
  | size
  | generation
  | types
  | leaves
  | hasType (t : Ty)
  | hasTypes (types : List Ty)
  | isRoot (t : Ty)
  /-- The types one edge away. -/
  | neighbours (direction : Direction) (t : Ty)
  /-- The types at least one edge away. -/
  | closure (direction : Direction) (t : Ty)
  | isNeighbour (direction : Direction) (t other : Ty)
  | isReached (direction : Direction) (t other : Ty)
  | commonNeighbours (direction : Direction) (left right : Ty)
  | commonClosure (direction : Direction) (left right : Ty)
  | isCircular
  | circularTypes
  | attributes (t : Ty)
  | attributeOf (t : Ty) (key : String)
  | ownAttributes
  | ownAttribute (key : String)

namespace Hierarchy

/-- The types one edge away from both of two types. -/
def commonNeighbours (h : Hierarchy) : Direction → Ty → Ty → FinSet Ty
  | .up => h.commonParents
  | .down => h.commonChildren

/-- The types at least one edge away from both of two types. -/
def commonClosure (h : Hierarchy) : Direction → Ty → Ty → FinSet Ty
  | .up => h.commonAncestors
  | .down => h.commonDescendants

/-- Reads something off a hierarchy. -/
def read (h : Hierarchy) : Reading → Reply
  | .state => .state h
  | .everything => .everything h
  | .root => .type h.root
  | .size => .number h.size
  | .generation => .number h.generation
  | .types => .types h.types.toList
  | .leaves => .types h.leaves.toList
  | .hasType t => .flag (h.hasType t)
  | .hasTypes types => .flag (types.all h.hasType)
  | .isRoot t => .flag (t = h.root)
  | .neighbours direction t => .types (h.neighbours direction t).toList
  | .closure direction t => .types (h.closure direction t).toList
  | .isNeighbour direction t other => .flag (other ∈ h.neighbours direction t)
  | .isReached direction t other => .flag (h.reaches direction t other)
  | .commonNeighbours direction left right =>
    .types (h.commonNeighbours direction left right).toList
  | .commonClosure direction left right => .types (h.commonClosure direction left right).toList
  | .isCircular => .flag h.isCircular
  | .circularTypes => .types h.circularTypes.toList
  | .attributes t => .attributes (h.attributes.get? t)
  | .attributeOf t key => .attributeValue (h.attributeOf? t key)
  | .ownAttributes => .attributes (some h.ownAttributes)
  | .ownAttribute key => .attributeValue (h.ownAttributes.get? key)

end Hierarchy

end Taxonomy
