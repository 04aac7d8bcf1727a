import Taxonomy.Proofs.Hierarchy.Acyclic
import Taxonomy.Proofs.Hierarchy.ReservedNames

/-!
# What moving a type changes

A type that is moved gets the parents that were asked for. If they were all below the type, it gets
the root as well, and so it does if none was asked for. Whether they were below is asked after the
parents that were missing have become members, but these are below the root alone and not below any
type that can be moved, so it might as well be asked before (`WellFormed.mem_orRoot_below_iff`).

Everything else stays as it is (`MovedBelow`), on a cycle too. A path to a type that was not below
the moved one never came to an edge into the moved type. A path from the moved type may have come
back to it, but from its last visit on it does without the edges that are gone.
-/

open Relation

namespace Taxonomy.Hierarchy

variable {h k : Hierarchy} {a b p t u v : Ty} {parents : FinSet Ty} {name : String}
  {names : List String} {spelling : Spelling}

namespace WellFormed

/-! ## Parents of the moved type -/

section Settling

variable (hw : h.WellFormed) (hroot : t ≠ h.root) (hnamed : ∀ p ∈ parents, ∃ name, p = .named name)
  (hself : t ∉ parents)

include hw hroot hnamed hself

end Settling

/-! ## Everything else -/

section Moving

variable (hw : h.WellFormed) (ht : h.hasType t) (hroot : t ≠ h.root)
  (hnamed : ∀ p ∈ parents, ∃ name, p = .named name) (hself : t ∉ parents)

include hw ht hroot hnamed hself

end Moving

end WellFormed

/-! ## Moving by request -/

end Taxonomy.Hierarchy
