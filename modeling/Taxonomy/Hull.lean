import Taxonomy.Finite.Set
import Taxonomy.Ty

/-!
# Hulls

A set of types is reduced to its most general or its most specific members by dropping each member
that some *other* member properly subsumes, or is properly subsumed by. The test looks at the whole
set and never at what has been dropped, so the result does not depend on any order.
-/

namespace Taxonomy

/-- The members that no other member properly subsumes. -/
def minimize (properlySubsumes : Ty → Ty → Bool) (types : FinSet Ty) : FinSet Ty :=
  types.filter fun t ↦ !types.toList.any fun other ↦ other ≠ t && properlySubsumes other t

/-- The members that properly subsume no other member. -/
def maximize (properlySubsumes : Ty → Ty → Bool) (types : FinSet Ty) : FinSet Ty :=
  types.filter fun t ↦ !types.toList.any fun other ↦ other ≠ t && properlySubsumes t other

theorem mem_minimize {properlySubsumes : Ty → Ty → Bool} {types : FinSet Ty} {t : Ty} :
    t ∈ minimize properlySubsumes types ↔
      t ∈ types ∧ ∀ other ∈ types, properlySubsumes other t → other = t := by
  simp only [minimize, FinSet.mem_filter, Bool.not_eq_true', List.any_eq_false, Bool.and_eq_true,
    decide_eq_true_eq, FinSet.mem_toList, not_and]
  exact and_congr_right fun _ ↦ forall₂_congr fun _ _ ↦ Decidable.not_imp_not

theorem mem_maximize {properlySubsumes : Ty → Ty → Bool} {types : FinSet Ty} {t : Ty} :
    t ∈ maximize properlySubsumes types ↔
      t ∈ types ∧ ∀ other ∈ types, properlySubsumes t other → other = t := by
  simp only [maximize, FinSet.mem_filter, Bool.not_eq_true', List.any_eq_false, Bool.and_eq_true,
    decide_eq_true_eq, FinSet.mem_toList, not_and]
  exact and_congr_right fun _ ↦ forall₂_congr fun _ _ ↦ Decidable.not_imp_not

end Taxonomy
