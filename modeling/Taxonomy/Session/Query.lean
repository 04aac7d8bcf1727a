import Taxonomy.Fold
import Taxonomy.Ranking
import Taxonomy.Session.Reply

/-!
# Queries

A query is a question of the algebra as data. Asking it is an inquiry, so it can be put to every
representation; whatever a query does not look up it reads off the hierarchy.
-/

namespace Taxonomy

/-- What a table shows for each pair of types. -/
inductive Cell where
  | relation (r : Relation)
  | bounds (b : Bound)
  | comparison

/-- A question of the algebra. -/
inductive Query where
  | relation (r : Relation) (left right : Ty)
  | bounds (b : Bound) (left right : Ty)
  | comparison (left right : Ty)
  /-- A cell for each pair of the types given, or of all members. -/
  | table (cell : Cell) (types : Option (List Ty))
  | resolveRelation (r : Relation) (left right : Operand)
  | resolveBounds (b : Bound) (left right : Operand)
  | fold (b : Bound) (operands : List Operand)
  | foldTypes (b : Bound) (types : List Ty)
  | isTree
  | isDeterministic
  | ambiguousPair
  | minimal (types : List Ty)
  | maximal (types : List Ty)
  | subsort (types : List Ty)
  | stratasort (types : List Ty)

namespace Query

variable {α : Type}

/-- An answer for each pair, row by row. -/
def rows (ask : Ty → Ty → Inquiry α) (types : List Ty) : Inquiry (List (List α)) :=
  types.mapM fun left ↦ types.mapM fun right ↦ ask left right

/-- Fills a table. -/
def fill (h : Hierarchy) (types : List Ty) : Cell → Inquiry Reply
  | .relation r => .flagTable <$> rows (h.inquireRelation r) types
  | .bounds b => .boundsTable <$> rows (h.inquireBounds b) types
  | .comparison => .comparisonTable <$> rows h.compareTypes types

/-- A query as an inquiry about a hierarchy. -/
def inquire (setting : Setting) (h : Hierarchy) : Query → Inquiry Reply
  | relation r left right => .flag <$> h.inquireRelation r left right
  | bounds b left right => .types <$> h.inquireBounds b left right
  | comparison left right => .comparison <$> h.compareTypes left right
  | table cell types => fill h (types.getD h.types.toList) cell
  | resolveRelation r left right => .flag <$> h.resolveRelation setting r left right
  | resolveBounds b left right => .types <$> h.resolveBounds setting b left right
  | fold b operands => .type <$> h.fold setting b operands
  | foldTypes b types => .type <$> Hierarchy.foldTypes setting b types
  | isTree => return .flag h.isTree
  | isDeterministic => .flag <$> h.isDeterministic
  | ambiguousPair => .pair <$> h.ambiguousPair
  | minimal types => .types <$> h.minimal types
  | maximal types => .types <$> h.maximal types
  | subsort types => .types <$> h.subsort types
  | stratasort types => return .strata (h.stratasort types)

end Query

end Taxonomy
