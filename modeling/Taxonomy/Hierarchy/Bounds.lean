import Taxonomy.Hierarchy.Closure
import Taxonomy.Hull
import Taxonomy.Operand

/-!
# Subsumption and bounds by walking

The graph of a hierarchy decides subsumption and bounds of its members. The least upper bounds of
two types are the most general types that both subsume, that is, the hull of what their reflexive
descendants share. The greatest lower bounds are the most specific types that subsume both.

These are the answers that every other way of looking up has to reproduce.
-/

namespace Taxonomy.Hierarchy

/-- Whether `general` is `specific` or above it. -/
def subsumes (h : Hierarchy) (general specific : Ty) : Bool :=
  general = specific || h.reaches .down general specific

/-- The closures of the members of a set. -/
def closuresOf (h : Hierarchy) (direction : Direction) (types : FinSet Ty) :
    FinMap Ty (FinSet Ty) :=
  FinMap.ofKeys types (h.closure direction)

/-- The bounds of two members. -/
def bounds (h : Hierarchy) : Bound → Ty → Ty → FinSet Ty
  | .leastUpper, left, right =>
    let candidates := (h.reflexiveClosure .down left).inter (h.reflexiveClosure .down right)
    let below := h.closuresOf .down candidates
    minimize (fun general specific ↦ specific ∈ below.getD general ∅) candidates
  | .greatestLower, left, right =>
    let candidates := (h.reflexiveClosure .up left).inter (h.reflexiveClosure .up right)
    let above := h.closuresOf .up candidates
    maximize (fun general specific ↦ general ∈ above.getD specific ∅) candidates

end Taxonomy.Hierarchy
