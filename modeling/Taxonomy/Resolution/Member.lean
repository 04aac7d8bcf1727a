import Taxonomy.Inquiry
import Taxonomy.Resolution.Consult

/-!
# Resolution in a hierarchy

A question about two types is settled by the reserved values if they settle it. Otherwise both types
must be members, or the answer is no and there are no bounds; only then is anything looked up.

For operands that may be hooks, the hooks come in between.
-/

namespace Taxonomy.Hierarchy

/-! ## Types -/

/-- Whether `general` subsumes `specific`. -/
def inquireSubsumes (h : Hierarchy) (general specific : Ty) : Inquiry Bool :=
  match Reserved.subsumes general specific with
  | some holds => return holds
  | none =>
    if h.hasType general && h.hasType specific then .subsumes general specific .done
    else return false

/-- Whether `general` subsumes `specific` and differs from it. -/
def inquireProperlySubsumes (h : Hierarchy) (general specific : Ty) : Inquiry Bool :=
  match Reserved.properlySubsumes general specific with
  | some holds => return holds
  | none =>
    if h.hasType general && h.hasType specific then .subsumes general specific .done
    else return false

/-- Whether a relation holds between two types. -/
def inquireRelation (h : Hierarchy) (r : Relation) (left right : Ty) : Inquiry Bool :=
  let (general, specific) := r.orient left right
  if r.isProper then h.inquireProperlySubsumes general specific
  else h.inquireSubsumes general specific

/-- The bounds of two types. -/
def inquireBounds (h : Hierarchy) (b : Bound) (left right : Ty) : Inquiry (List Ty) :=
  match Reserved.bounds b left right with
  | some types => return types
  | none =>
    if h.hasType left && h.hasType right then .bounds b left right .done else return []

/-! ## Operands -/

/-- Whether a relation holds between two operands. -/
def resolveRelation (h : Hierarchy) (setting : Setting) (r : Relation) (left right : Operand) :
    Inquiry Bool := do
  match ← setting.decideRelation r left right with
  | some holds => return holds
  | none =>
    match left, right with
    | .type left, .type right =>
      if h.hasType left && h.hasType right then
        if r.isProper && left = right then return false
        else
          let (general, specific) := r.orient left right
          .subsumes general specific .done
      else return false
    | _, _ => return false

/-- The bounds of two operands. -/
def resolveBounds (h : Hierarchy) (setting : Setting) (b : Bound) (left right : Operand) :
    Inquiry (List Ty) := do
  match ← setting.decideBounds b left right with
  | some types => return types
  | none =>
    match left, right with
    | .type left, .type right =>
      if h.hasType left && h.hasType right then .bounds b left right .done else return []
    | _, _ => return []

end Taxonomy.Hierarchy
