import Taxonomy.Hierarchy.Closure
import Taxonomy.Report.Journal

/-!
# Editing a hierarchy

Edits take names, never types, so the reserved values cannot become members; a request that names a
type by a reserved spelling is refused with a notice. Edits keep the root without parents and every
member below the root: a type without parents goes under the root, the children of a removed type go
to its parents, and a type that would be cut off keeps the root as an extra parent.

Every edit that changes the structure advances the generation, once.
-/

namespace Taxonomy.Hierarchy

/-- The first of some names that is spelled like a reserved value. -/
def reserved? (spelling : Spelling) (names : List String) : Option String :=
  names.find? spelling.reserves

/-- Goes on unless one of some names is reserved; then the request is refused. -/
def unlessReserved (h : Hierarchy) (spelling : Spelling) (names : List String)
    (edit : Journaled Hierarchy) : Journaled Hierarchy :=
  match reserved? spelling names with
  | some name => do
    .report (.reservedName name)
    return h
  | none => edit

/-! ## Adding and moving -/

/-- The parents a request names for a type: never the type itself. -/
def requestedParents (name : String) (parents : List String) : FinSet Ty :=
  (FinSet.ofList (parents.map Ty.named)).erase (.named name)

/-- Makes a type a child of the root, unless it is a member. -/
def ensureNode (h : Hierarchy) (t : Ty) : Hierarchy :=
  if h.hasType t then h else (h.insertNode t).link h.root t

/-- Makes members of types, below the root. -/
def ensureNodes (h : Hierarchy) (types : FinSet Ty) : Hierarchy := types.toList.foldl ensureNode h

/-- A set of parents, or the root alone if there is none. -/
def orRoot (h : Hierarchy) (parents : FinSet Ty) : FinSet Ty :=
  if parents.isEmpty then FinSet.ofList [h.root] else parents

/-- Inserts a type that is no member below parents, which become members if need be. -/
def insertBelow (h : Hierarchy) (t : Ty) (parents : FinSet Ty) : Hierarchy :=
  let ready := h.ensureNodes parents
  ((ready.insertNode t).linkAll (ready.orRoot parents) t).advance

/-- Replaces all parents of a type. -/
def setParents (h : Hierarchy) (t : Ty) (parents : FinSet Ty) : Hierarchy :=
  (h.unlinkAll (h.parentsOf t) t).linkAll parents t

/-- Moves a member that is not the root below new parents. If these are all the member itself or
below it, the root is kept as an extra parent. -/
def moveBelow (h : Hierarchy) (t : Ty) (parents : FinSet Ty) : Journaled Hierarchy :=
  let ready := h.ensureNodes parents
  let parents := ready.orRoot parents
  let below := (ready.descendants t).insert t
  if parents.toList.all (· ∈ below) then do
    -- these parents may all hang on `t` alone, so only the root is sure to keep them attached
    .report (.rootKept t parents.toList ready.root)
    return (ready.setParents t (parents.insert ready.root)).advance
  else
    return (ready.setParents t parents).advance

/-- Gives a member other parents. -/
def rebind (h : Hierarchy) (spelling : Spelling) (name : String) (parents : List String) :
    Journaled Hierarchy :=
  h.unlessReserved spelling parents <|
    let requested := requestedParents name parents
    if h.root = .named name then
      if requested.isEmpty then return h
      else do
        .report (.rootParents h.root)
        return h
    else h.moveBelow (.named name) requested

/-- Inserts a type below parents. An existing type is moved instead. -/
def add (h : Hierarchy) (spelling : Spelling) (name : String) (parents : List String) :
    Journaled Hierarchy :=
  h.unlessReserved spelling (name :: parents) <|
    if h.hasType (.named name) then h.rebind spelling name parents
    else return h.insertBelow (.named name) (requestedParents name parents)

/-- Adds types one after another, each with its parents. -/
def addAll (h : Hierarchy) (spelling : Spelling) (types : List (String × List String)) :
    Journaled Hierarchy :=
  types.foldlM (fun h (name, parents) ↦ h.add spelling name parents) h

/-- Moves a type below other parents. A type that does not exist is added. -/
def move (h : Hierarchy) (spelling : Spelling) (name : String) (parents : List String) :
    Journaled Hierarchy :=
  if h.hasType (.named name) then h.rebind spelling name parents
  else h.add spelling name parents

/-- Gives a type more parents. A type that does not exist is added. -/
def addParents (h : Hierarchy) (spelling : Spelling) (name : String) (parents : List String) :
    Journaled Hierarchy :=
  if h.hasType (.named name) then
    let requested := requestedParents name parents
    if requested.isEmpty then return h
    else h.unlessReserved spelling (parents.filter (· ≠ name)) <|
      if h.root = .named name then do
        .report (.rootParents h.root)
        return h
      else return ((h.ensureNodes requested).linkAll requested (.named name)).advance
  else h.add spelling name parents

/-- Makes members of names below the root; reserved names are skipped. -/
def ensureEach (h : Hierarchy) (spelling : Spelling) : List String → Journaled Hierarchy
  | [] => return h
  | name :: rest => do
    if spelling.reserves name then
      .report (.reservedName name)
      h.ensureEach spelling rest
    else (h.ensureNode (.named name)).ensureEach spelling rest

/-- Makes a member of every name that is none, below the root. -/
def ensureTypes (h : Hierarchy) (spelling : Spelling) (names : List String) :
    Journaled Hierarchy := do
  let ensured ← h.ensureEach spelling names
  return if ensured.size = h.size then ensured else ensured.advance

/-! ## Removing and renaming -/

/-- Hands a child of `t` over to the parents of `t`, or to the root if it would be left without. -/
def handOver (t : Ty) (parents : FinSet Ty) (h : Hierarchy) (child : Ty) : Hierarchy :=
  let handed := (h.unlink t child).linkAll (parents.erase child) child
  if (handed.parentsOf child).isEmpty then handed.link handed.root child else handed

/-- Removes a member that is not the root; its children go to its parents. -/
def removeNode (h : Hierarchy) (t : Ty) : Hierarchy :=
  let parents := (h.parentsOf t).erase t
  let children := (h.childrenOf t).erase t
  ((children.toList.foldl (handOver t parents) h).unlinkAll parents t).forget t

/-- Removes members by name. The root stays, unknown names are passed over. -/
def removeEach (h : Hierarchy) : List String → Journaled Hierarchy
  | [] => return h
  | name :: rest => do
    if h.root = .named name then
      .report (.rootRemoval h.root)
      h.removeEach rest
    else if h.hasType (.named name) then (h.removeNode (.named name)).removeEach rest
    else h.removeEach rest

/-- Removes types with their annotations; subsumption between the others stays as it is. -/
def remove (h : Hierarchy) (names : List String) : Journaled Hierarchy := do
  let removed ← h.removeEach names
  return if removed.size = h.size then removed else removed.advance

/-- Moves the edges of `old` to `new`; an edge between the two is dropped. The root takes no
parents. -/
def transferEdges (h : Hierarchy) (old new : Ty) : Hierarchy :=
  let parents := h.parentsOf old
  let children := h.childrenOf old
  let keepParents := h.root ≠ old && h.root ≠ new
  -- edges into `old` first, then edges from it; both lists were taken before any is cut
  let above := parents.toList.foldl
    (fun h parent ↦
      let cut := h.unlink parent old
      if keepParents && parent ≠ new then cut.link parent new else cut)
    h
  children.toList.foldl
    (fun h child ↦
      let cut := h.unlink old child
      if child ≠ new then cut.link new child else cut)
    above

/-- Gives `new` the annotations of `old` that it has no value for. -/
def transferAttributes (h : Hierarchy) (old new : Ty) : Hierarchy :=
  match h.attributes.get? old with
  | none => h
  | some attributes =>
    { h with attributes := (h.attributes.erase old).upsert new ∅ (·.fill attributes) }

/-- Makes a member the root; it loses its parents. -/
def makeRoot (h : Hierarchy) (t : Ty) : Hierarchy :=
  { h with root := t }.unlinkAll (h.parentsOf t) t

/-- Replaces the member `old` by `new`, merging the two if `new` is a member. -/
def replaceNode (h : Hierarchy) (old new : Ty) : Hierarchy :=
  let moved := (((h.insertNode new).transferEdges old new).transferAttributes old new).forget old
  (if h.root = old then moved.makeRoot new else moved).advance

/-- Renames a type. If the new name is taken the two types are merged. -/
def replace (h : Hierarchy) (spelling : Spelling) (old new : String) : Journaled Hierarchy :=
  if old = new then return h
  else if h.hasType (.named old) then
    h.unlessReserved spelling [new] <| return h.replaceNode (.named old) (.named new)
  else return h

/-! ## The hierarchy as a whole -/

/-- Removes every type but the root, and all annotations. -/
def clear (h : Hierarchy) : Hierarchy :=
  (insertNode { h with parents := ∅, children := ∅, attributes := ∅, ownAttributes := ∅ }
    h.root).advance

/-- A generation later than those of two hierarchies. -/
def laterGeneration (h other : Hierarchy) : Nat := max h.generation other.generation + 1

/-- Becomes a copy of another hierarchy, as a structural change. -/
def assign (h other : Hierarchy) : Journaled Hierarchy := do
  .report (.assigned other.root other.size)
  return { other with generation := h.laterGeneration other }

/-! ## Annotations -/

/-- Annotates a member. -/
def setAttribute (h : Hierarchy) (t : Ty) (key : String) (value : Attribute) :
    Journaled Hierarchy := do
  if h.hasType t then
    return { h with attributes := h.attributes.upsert t ∅ (·.insert key value) }
  else
    .report (.unknownType t)
    return h

/-- Removes an annotation of a type; its map stays. -/
def removeAttribute (h : Hierarchy) (t : Ty) (key : String) : Hierarchy :=
  { h with attributes := h.attributes.modify t (·.erase key) }

/-- The annotation of a type under a key. -/
def attributeOf? (h : Hierarchy) (t : Ty) (key : String) : Option Attribute :=
  (h.attributes.get? t).bind (·.get? key)

/-- Annotates the hierarchy as a whole. -/
def setOwnAttribute (h : Hierarchy) (key : String) (value : Attribute) : Hierarchy :=
  { h with ownAttributes := h.ownAttributes.insert key value }

/-- Removes an annotation of the hierarchy as a whole. -/
def removeOwnAttribute (h : Hierarchy) (key : String) : Hierarchy :=
  { h with ownAttributes := h.ownAttributes.erase key }

end Taxonomy.Hierarchy
