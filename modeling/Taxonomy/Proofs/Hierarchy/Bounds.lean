import Taxonomy.Proofs.Hierarchy.Closure

/-!
# What bounds are

Both kinds of bounds are found in one way, in opposite directions: of the types that are reached
from both operands, those that no other of them reaches (`mem_bounds_iff`). What is reached from a
type includes the type itself if it is a member.

Nothing in this distinguishes the operands, so bounds are symmetric (`bounds_comm`).
-/

open Relation

namespace Taxonomy

/-- The direction in which the candidates for a bound lie. -/
def Bound.direction : Bound → Direction
  | leastUpper => .down
  | greatestLower => .up

namespace Hierarchy

variable {h : Hierarchy} {b : Bound} {d : Direction} {left right t : Ty}

/-- `t` is reached from both types in a direction. -/
def Shared (h : Hierarchy) (d : Direction) (left right t : Ty) : Prop :=
  (TransGen (h.Step d) left t ∨ t = left ∧ h.hasType left) ∧
    (TransGen (h.Step d) right t ∨ t = right ∧ h.hasType right)

theorem shared_comm : h.Shared d left right t ↔ h.Shared d right left t := and_comm

theorem mem_inter_reflexiveClosure_iff (hm : h.Mirrored) :
    t ∈ (h.reflexiveClosure d left).inter (h.reflexiveClosure d right) ↔
      h.Shared d left right t := by
  rw [FinSet.mem_inter, mem_reflexiveClosure_iff hm, mem_reflexiveClosure_iff hm]
  rfl

/-- The closures that have been looked up in advance are those of the candidates. -/
private theorem mem_getD_closuresOf (hm : h.Mirrored) {types : FinSet Ty} {a : Ty}
    (ha : a ∈ types) : t ∈ (h.closuresOf d types).getD a ∅ ↔ TransGen (h.Step d) a t := by
  rw [closuresOf, FinMap.getD, FinMap.get?_ofKeys, if_pos ha]
  exact mem_closure_iff hm

/-- **Bounds are the candidates that no other candidate reaches.** -/
theorem mem_bounds_iff (hm : h.Mirrored) :
    t ∈ h.bounds b left right ↔ h.Shared b.direction left right t ∧
      ∀ other, h.Shared b.direction left right other →
        TransGen (h.Step b.direction) other t → other = t := by
  cases b with
  | leastUpper =>
    rw [bounds, mem_minimize, mem_inter_reflexiveClosure_iff hm]
    refine and_congr_right fun _ ↦ forall_congr' fun other ↦ ?_
    rw [mem_inter_reflexiveClosure_iff hm]
    refine imp_congr_right fun hother ↦ ?_
    rw [decide_eq_true_eq, mem_getD_closuresOf hm ((mem_inter_reflexiveClosure_iff hm).2 hother)]
    rfl
  | greatestLower =>
    rw [bounds, mem_maximize, mem_inter_reflexiveClosure_iff hm]
    refine and_congr_right fun _ ↦ forall_congr' fun other ↦ ?_
    rw [mem_inter_reflexiveClosure_iff hm]
    refine imp_congr_right fun hother ↦ ?_
    rw [decide_eq_true_eq, mem_getD_closuresOf hm ((mem_inter_reflexiveClosure_iff hm).2 hother)]
    rfl

/-- Bounds are symmetric. -/
theorem bounds_comm (hm : h.Mirrored) : h.bounds b left right = h.bounds b right left := by
  refine FinSet.ext fun t ↦ ?_
  rw [mem_bounds_iff hm, mem_bounds_iff hm]
  exact and_congr shared_comm (forall_congr' fun other ↦ imp_congr_left shared_comm)

/-! ## What bounds depend on -/

/-- Bounds depend on the structure alone. -/
theorem SameStructure.bounds_eq {k : Hierarchy} (hk : SameStructure h k) (b : Bound)
    (left right : Ty) : k.bounds b left right = h.bounds b left right :=
  hk.congr (·.bounds b left right) fun _ _ _ ↦ by cases b <;> rfl

end Hierarchy

end Taxonomy
