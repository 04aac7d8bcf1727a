import Taxonomy.Proofs.Hierarchy.Conflict

/-!
# Comparing hierarchies

Two hierarchies are compared field by field, and in two places a field holds more than there is to
see: the edges are kept as maps of sets, and a type may have a map of annotations that is empty.
What is seen is the same exactly if the comparison succeeds (`Mirrored.sameAs_iff`).
-/

namespace Taxonomy.Hierarchy

variable {h k : Hierarchy} {t : Ty}

/-- Equal maps of parents are equal members and edges. -/
theorem Mirrored.parents_eq_iff (hh : h.Mirrored) (hk : k.Mirrored) :
    h.parents = k.parents ↔
      (∀ t, h.hasType t ↔ k.hasType t) ∧ ∀ a b, h.Edge a b ↔ k.Edge a b := by
  constructor
  · intro heq
    refine ⟨fun t ↦ by rw [hasType, heq, hasType], fun a b ↦ ?_⟩
    rw [← hh.mem_parentsOf_iff, ← hk.mem_parentsOf_iff, parentsOf, heq, parentsOf]
  · rintro ⟨hmem, hedge⟩
    refine FinMap.ext_getD ∅ hmem fun t ↦ FinSet.ext fun a ↦ ?_
    exact (hh.mem_parentsOf_iff a t).trans ((hedge a t).trans (hk.mem_parentsOf_iff a t).symm)

/-- The annotations that are compared are those there are. -/
theorem get?_annotations :
    h.annotations.get? t =
      if (h.attributesOf t).isEmpty then none else some (h.attributesOf t) := by
  rw [annotations, FinMap.get?_filter, attributesOf, FinMap.getD]
  cases h.attributes.get? t with
  | none => rfl
  | some attributes =>
    rw [Option.filter_some, Option.getD_some]
    cases attributes.isEmpty <;> rfl

theorem annotations_eq_iff :
    h.annotations = k.annotations ↔ ∀ t key, h.attributeOf? t key = k.attributeOf? t key := by
  have hread : ∀ (h : Hierarchy) t, h.attributesOf t = (h.annotations.get? t).getD ∅ := by
    intro h t
    rw [get?_annotations]
    split
    · rename_i hempty
      exact FinMap.isEmpty_iff.1 hempty
    · rfl
  constructor
  · intro heq t key
    rw [← get?_attributesOf, ← get?_attributesOf, hread h, hread k, heq]
  · intro heq
    refine FinMap.ext fun t ↦ ?_
    have hattributes : h.attributesOf t = k.attributesOf t := FinMap.ext fun key ↦ by
      rw [get?_attributesOf, get?_attributesOf, heq]
    rw [get?_annotations, get?_annotations, hattributes]

/-- **What takes part in the comparison of hierarchies**: the root, the members, the edges and the
annotations. -/
theorem Mirrored.sameAs_iff (hh : h.Mirrored) (hk : k.Mirrored) :
    h.sameAs k ↔ h.root = k.root ∧ ((∀ t, h.hasType t ↔ k.hasType t) ∧
      ∀ a b, h.Edge a b ↔ k.Edge a b) ∧ h.ownAttributes = k.ownAttributes ∧
      ∀ t key, h.attributeOf? t key = k.attributeOf? t key := by
  rw [sameAs, decide_eq_true_eq, hh.parents_eq_iff hk, annotations_eq_iff]

end Taxonomy.Hierarchy
