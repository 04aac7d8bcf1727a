import Taxonomy.Hierarchy.Edit

/-!
# Merging

Merging a source into a target gives the types, the edges and the annotations of both. The source's
root becomes an ordinary type below the target's root unless the two have one name; an edge that
would give the target's root a parent is dropped with a notice.

Merging is all or nothing: if the two disagree about an annotation, the result is the conflict and
no hierarchy. Types are looked at in presentation order and before the hierarchies as a whole, and
of several keys the least is named.
-/

namespace Taxonomy.Hierarchy

/-- Adds the source's edges into one of its types. -/
def mergeEdges (source : Hierarchy) (h : Hierarchy) (t : Ty) : Journaled Hierarchy :=
  if t = h.root then do
    .reportAll ((source.parentsOf t).toList.map (.droppedEdge · t))
    return h
  else return h.linkAll (source.parentsOf t) t

/-- Puts a type under the root if it is left without parents. -/
def adopt (h : Hierarchy) (t : Ty) : Hierarchy :=
  if t ≠ h.root && (h.parentsOf t).isEmpty then h.link h.root t else h

/-- Adds the types and the edges of a source. -/
def mergeStructure (h source : Hierarchy) : Journaled Hierarchy := do
  let types := source.types.toList
  let linked ← types.foldlM (mergeEdges source) (types.foldl insertNode h)
  return types.foldl adopt linked

/-- Adds the source's annotations of one type. -/
def mergeAttributes (h : Hierarchy) (t : Ty) (source : Attributes) : Except Conflict Hierarchy :=
  match (h.attributes.getD t ∅).union source with
  | .ok attributes => .ok { h with attributes := h.attributes.insert t attributes }
  | .error clash => .error (.ofType (t.name?.getD "") clash)

/-- Adds the source's annotations of the hierarchy as a whole. -/
def mergeOwnAttributes (h source : Hierarchy) : Except Conflict Hierarchy :=
  match h.ownAttributes.union source.ownAttributes with
  | .ok attributes => .ok { h with ownAttributes := attributes }
  | .error clash => .error (.ofHierarchy clash)

/-- Adds all annotations of a source. -/
def mergeAnnotations (h source : Hierarchy) : Except Conflict Hierarchy := do
  let annotated ← source.attributes.entries.foldlM
    (fun h (t, attributes) ↦ h.mergeAttributes t attributes) h
  annotated.mergeOwnAttributes source

/-- The merge of a source into a target, or what they disagree about. -/
def merge (h source : Hierarchy) : Journaled (Except Conflict Hierarchy) := do
  let joined ← h.mergeStructure source
  match joined.mergeAnnotations source with
  | .error conflict =>
    .report (.mergeRefused conflict)
    return .error conflict
  | .ok annotated =>
    .report (.merged annotated.size)
    return .ok { annotated with generation := h.laterGeneration source }

end Taxonomy.Hierarchy
