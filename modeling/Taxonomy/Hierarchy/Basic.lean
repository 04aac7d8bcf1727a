import Taxonomy.Attribute
import Taxonomy.Ty

/-!
# Hierarchies

A hierarchy is a finite set of types with a distinguished root, the relation "is an immediate parent
of" between them, and annotations. The relation is kept twice, as the parents of each type and as
the children of each type, because walks go both ways.

`generation` counts structural changes. State derived from a hierarchy remembers the generation it
was made from and is stale once the two differ.

The operations of this module are the elementary steps that edits are made of: they keep the two
maps inverse to each other but know nothing of the root. `parentsOf_link`, `childrenOf_link` and
their like say what each does to the two maps.
-/

namespace Taxonomy

/-- The two ways to follow an edge. -/
inductive Direction where
  /-- From general to specific. -/
  | down
  /-- From specific to general. -/
  | up
deriving DecidableEq

/-- A finite rooted hierarchy of types. -/
structure Hierarchy where
  root : Ty
  /-- The immediate parents of each member. -/
  parents : FinMap Ty (FinSet Ty)
  /-- The immediate children of each member. -/
  children : FinMap Ty (FinSet Ty)
  /-- The annotations of members that have had any. -/
  attributes : FinMap Ty Attributes
  /-- The annotations of the hierarchy as a whole. -/
  ownAttributes : Attributes
  /-- The number of structural changes so far. -/
  generation : Nat
deriving DecidableEq

namespace Hierarchy

/-- The root's name where none is given. -/
def defaultRoot : String := "BOTTOM"

/-! ## Reading -/

/-- Whether a type is a member. -/
def hasType (h : Hierarchy) (t : Ty) : Bool := h.parents.contains t

/-- The members. -/
def types (h : Hierarchy) : FinSet Ty := h.parents.keys

/-- The number of members, the root included. -/
def size (h : Hierarchy) : Nat := h.parents.size

/-- The immediate parents of a type; none for a type that is no member. -/
def parentsOf (h : Hierarchy) (t : Ty) : FinSet Ty := h.parents.getD t ∅

/-- The immediate children of a type; none for a type that is no member. -/
def childrenOf (h : Hierarchy) (t : Ty) : FinSet Ty := h.children.getD t ∅

/-- The types one edge away from `t`. -/
def neighbours (h : Hierarchy) : Direction → Ty → FinSet Ty
  | .down, t => h.childrenOf t
  | .up, t => h.parentsOf t

/-- The parents that two types share. -/
def commonParents (h : Hierarchy) (left right : Ty) : FinSet Ty :=
  (h.parentsOf left).inter (h.parentsOf right)

/-- The children that two types share. -/
def commonChildren (h : Hierarchy) (left right : Ty) : FinSet Ty :=
  (h.childrenOf left).inter (h.childrenOf right)

/-- The annotations that take part in comparison: a map emptied again is like no map. -/
def annotations (h : Hierarchy) : FinMap Ty Attributes :=
  h.attributes.filter fun _ attributes ↦ !attributes.isEmpty

/-- Whether two hierarchies have the same root, the same edges and the same annotations. -/
def sameAs (h k : Hierarchy) : Bool :=
  h.root = k.root ∧ h.parents = k.parents ∧ h.ownAttributes = k.ownAttributes
    ∧ h.annotations = k.annotations

/-! ## Elementary changes -/

/-- Makes `t` a member without edges, unless it is one. -/
def insertNode (h : Hierarchy) (t : Ty) : Hierarchy :=
  if h.hasType t then h
  else { h with parents := h.parents.insert t ∅, children := h.children.upsert t ∅ id }

/-- Adds the edge from `parent` to `child`. -/
def link (h : Hierarchy) (parent child : Ty) : Hierarchy :=
  { h with
    parents := h.parents.upsert child ∅ (·.insert parent)
    children := h.children.upsert parent ∅ (·.insert child) }

/-- Removes the edge from `parent` to `child`. -/
def unlink (h : Hierarchy) (parent child : Ty) : Hierarchy :=
  { h with
    parents := h.parents.modify child (·.erase parent)
    children := h.children.modify parent (·.erase child) }

/-- Adds the edges from each of `parents` to `child`. -/
def linkAll (h : Hierarchy) (parents : FinSet Ty) (child : Ty) : Hierarchy :=
  parents.toList.foldl (·.link · child) h

/-- Removes the edges from each of `parents` to `child`. -/
def unlinkAll (h : Hierarchy) (parents : FinSet Ty) (child : Ty) : Hierarchy :=
  parents.toList.foldl (·.unlink · child) h

/-- Forgets a member and its annotations; edges must have been removed before. -/
def forget (h : Hierarchy) (t : Ty) : Hierarchy :=
  { h with
    parents := h.parents.erase t
    children := h.children.erase t
    attributes := h.attributes.erase t }

/-- Counts a structural change. -/
def advance (h : Hierarchy) : Hierarchy := { h with generation := h.generation + 1 }

/-- The hierarchy that has the root alone. -/
def new (root : String) : Hierarchy :=
  insertNode ⟨.named root, ∅, ∅, ∅, ∅, 0⟩ (.named root)

instance : Inhabited Hierarchy := ⟨new defaultRoot⟩

/-! ## What the elementary changes do to the edges -/

theorem parentsOf_link (h : Hierarchy) (parent child t : Ty) :
    (h.link parent child).parentsOf t =
      if t = child then (h.parentsOf child).insert parent else h.parentsOf t := by
  rw [parentsOf, FinMap.getD, link, FinMap.get?_upsert]
  split
  · rfl
  · rfl

theorem childrenOf_link (h : Hierarchy) (parent child t : Ty) :
    (h.link parent child).childrenOf t =
      if t = parent then (h.childrenOf parent).insert child else h.childrenOf t := by
  rw [childrenOf, FinMap.getD, link, FinMap.get?_upsert]
  split
  · rfl
  · rfl

theorem parentsOf_unlink (h : Hierarchy) (parent child t : Ty) :
    (h.unlink parent child).parentsOf t =
      if t = child then (h.parentsOf child).erase parent else h.parentsOf t := by
  rw [parentsOf, FinMap.getD, unlink, FinMap.get?_modify, parentsOf, FinMap.getD]
  split
  · cases h.parents.get? child <;> rfl
  · rfl

theorem childrenOf_unlink (h : Hierarchy) (parent child t : Ty) :
    (h.unlink parent child).childrenOf t =
      if t = parent then (h.childrenOf parent).erase child else h.childrenOf t := by
  rw [childrenOf, FinMap.getD, unlink, FinMap.get?_modify, childrenOf, FinMap.getD]
  split
  · cases h.children.get? parent <;> rfl
  · rfl

end Hierarchy

end Taxonomy
