import Mathlib.Order.WellFoundedSet
import Taxonomy.Proofs.Hierarchy.Closure
import Taxonomy.Proofs.Walk.Layers

/-!
# Acyclic hierarchies

A hierarchy is acyclic if no type is above itself. Two types that paths lead between in both
directions are then one type (`Acyclic.antisymm`), and as a hierarchy has finitely many members, a
property of members may be proved by induction along paths (`Acyclic.induction`).

What holds of paths down holds of paths up, which are the same paths taken from the other end
(`Mirrored.reflTransGen_opposite_iff`).

Whether a hierarchy is acyclic is found out by peeling it from the root downward. What is left over
are the types on or below a cycle (`Mirrored.mem_unpeelable_iff`), so nothing is left over exactly
if there is no cycle (`Mirrored.isCircular_eq_false_iff`).
-/

open Relation

namespace Taxonomy

/-- The other way to follow an edge. -/
def Direction.opposite : Direction → Direction
  | down => up
  | up => down

namespace Hierarchy

variable {h : Hierarchy} {a b t : Ty} {d : Direction}

theorem Mirrored.step_opposite_iff (hm : h.Mirrored) : h.Step d.opposite a b ↔ h.Step d b a := by
  cases d with
  | down => exact hm.step_up_iff
  | up => exact hm.step_up_iff.symm

/-- A path taken from its other end. -/
theorem Mirrored.reflTransGen_opposite_iff (hm : h.Mirrored) :
    ReflTransGen (h.Step d.opposite) a b ↔ ReflTransGen (h.Step d) b a := by
  have hstep : h.Step d.opposite = Function.swap (h.Step d) := by
    funext u v
    exact propext hm.step_opposite_iff
  rw [hstep]
  exact reflTransGen_swap

/-- No type is above itself. -/
def Acyclic (h : Hierarchy) : Prop := ∀ t, ¬ TransGen h.Edge t t

/-- It is enough to look below each member. -/
theorem Mirrored.acyclic_iff (hm : h.Mirrored) :
    h.Acyclic ↔ ∀ t ∈ h.types.toList, ¬ h.hasDescendant t t := by
  refine forall_congr' fun t ↦ ?_
  rw [hasDescendant, reaches_iff hm, FinSet.mem_toList, mem_types]
  refine ⟨fun hc _ ↦ hc, fun hc hpath ↦ hc ?_ hpath⟩
  exact (hm.hasType_of_transGen (d := .down) hpath).1

namespace Acyclic

/-- No path leads from a type to itself, in either direction. -/
theorem irrefl (hc : h.Acyclic) (hm : h.Mirrored) (d : Direction) (t : Ty) :
    ¬ TransGen (h.Step d) t t := by
  cases d with
  | down => exact hc t
  | up =>
    rw [hm.transGen_step_up_iff]
    exact hc t

theorem antisymm (hc : h.Acyclic) (hm : h.Mirrored) (hab : ReflTransGen (h.Step d) a b)
    (hba : ReflTransGen (h.Step d) b a) : a = b := by
  rcases reflTransGen_iff_eq_or_transGen.1 hab with heq | hpath
  · exact heq.symm
  · exact absurd (hpath.trans_left hba) (hc.irrefl hm d a)

/-- What holds of a member once it holds of all that a path leads from holds of every member. -/
@[elab_as_elim]
theorem induction {P : (t : Ty) → h.hasType t → Prop} (hc : h.Acyclic) (hm : h.Mirrored)
    (d : Direction)
    (step : ∀ u hu, (∀ v hv, TransGen (h.Step d) v u → P v hv) → P u hu) {t : Ty}
    (ht : h.hasType t) : P t ht := by
  have hfinite : {u | h.hasType u}.Finite :=
    h.types.finite_of_forall_mem fun _ ↦ mem_types.2
  have : IsStrictOrder Ty (TransGen (h.Step d)) := { irrefl := hc.irrefl hm d }
  have hwf : {u | h.hasType u}.WellFoundedOn (TransGen (h.Step d)) := hfinite.wellFoundedOn
  refine hwf.induction (P := fun t ↦ ∀ ht, P t ht) ht (fun u _ ih hu ↦ ?_) ht
  exact step u hu fun v hv hvu ↦ ih v hv hvu hv

end Acyclic

/-! ## Detecting cycles -/

namespace Mirrored

/-- The edges among the members are all edges. -/
theorem among_childrenOf (hm : h.Mirrored) : Among h.childrenOf {u | u ∈ h.types} = h.Edge := by
  funext u v
  refine propext ⟨fun hedge ↦ hedge.2.2, fun hedge ↦ ⟨?_, ?_, hedge⟩⟩
  · exact mem_types.2 (hm.hasType_left hedge)
  · exact mem_types.2 (hm.hasType_right hedge)

/-- **What cannot be peeled off** is on or below a cycle. -/
theorem mem_unpeelable_iff (hm : h.Mirrored) :
    t ∈ h.unpeelable ↔ ∃ c, TransGen h.Edge c c ∧ ReflTransGen h.Edge c t := by
  rw [unpeelable, Layers.mem_stuck_iff_belowCycle, hm.among_childrenOf]
  rfl

theorem isCircular_iff (hm : h.Mirrored) : h.isCircular ↔ ∃ t, TransGen h.Edge t t := by
  rw [isCircular, Bool.not_eq_true', List.isEmpty_eq_false_iff_exists_mem]
  constructor
  · rintro ⟨t, ht⟩
    obtain ⟨c, hcycle, -⟩ := hm.mem_unpeelable_iff.1 ht
    exact ⟨c, hcycle⟩
  · rintro ⟨c, hcycle⟩
    exact ⟨c, hm.mem_unpeelable_iff.2 ⟨c, hcycle, .refl⟩⟩

/-- **The test for cycles** finds none exactly if there is none. -/
theorem isCircular_eq_false_iff (hm : h.Mirrored) : h.isCircular = false ↔ h.Acyclic := by
  rw [Bool.eq_false_iff, ne_eq, hm.isCircular_iff, not_exists, Acyclic]

end Mirrored

end Hierarchy

end Taxonomy
