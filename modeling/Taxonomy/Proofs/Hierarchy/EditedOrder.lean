import Taxonomy.Proofs.Hierarchy.Grown
import Taxonomy.Resolution.Member

/-!
# What edits do to the order

The order of a hierarchy is what it answers about subsumption. Between members the reserved values
settle nothing that walking would not, so the answer is whether there is a path
(`WellFormed.answer_inquireSubsumes_iff`), and what an edit does to the order is what it does to the
paths.
-/

open Relation

namespace Taxonomy.Hierarchy

variable {h : Hierarchy} {names : List String} {u v : Ty}

/-- Two members are compared by walking. -/
theorem WellFormed.answer_inquireSubsumes (hw : h.WellFormed) (hu : h.hasType u)
    (hv : h.hasType v) : (h.inquireSubsumes u v).answer h = h.subsumes u v := by
  obtain ⟨m, rfl⟩ := hw.named u hu
  obtain ⟨n, rfl⟩ := hw.named v hv
  by_cases heq : m = n
  · subst heq
    simp [inquireSubsumes, Reserved.subsumes, subsumes]
  · have hopen : Reserved.subsumes (.named m) (.named n) = none := by
      simp [Reserved.subsumes, heq]
    rw [inquireSubsumes, hopen]
    simp [hu, hv, Inquiry.answer]

/-- Subsumption between members is a path. -/
theorem WellFormed.answer_inquireSubsumes_iff (hw : h.WellFormed) (hu : h.hasType u)
    (hv : h.hasType v) : (h.inquireSubsumes u v).answer h ↔ ReflTransGen h.Edge u v := by
  rw [hw.answer_inquireSubsumes hu hv, subsumes_iff hw.mirrored]

/-- **Removal keeps the order among what stays.** The members that stay are the root and those that
are not named, and two of them stand to each other as they did. -/
theorem Grown.subsumes_among_remaining (hg : h.Grown) (names : List String) :
    (∀ t, (h.remove names).value.hasType t ↔
      h.hasType t ∧ (t = h.root ∨ ∀ name ∈ names, t ≠ .named name)) ∧
    ∀ u v, (h.remove names).value.hasType u → (h.remove names).value.hasType v →
      ((h.remove names).value.inquireSubsumes u v).answer (h.remove names).value =
        (h.inquireSubsumes u v).answer h := by
  have hw : h.WellFormed := hg.wellFormed
  refine ⟨fun t ↦ hw.hasType_remove, fun u v hu hv ↦ ?_⟩
  rw [Bool.eq_iff_iff, hw.remove.answer_inquireSubsumes_iff hu hv,
    hw.answer_inquireSubsumes_iff (hw.hasType_remove.1 hu).1 (hw.hasType_remove.1 hv).1]
  exact hw.reflTransGen_remove_iff hu hv

/-- Removing a type on a cycle, twice, with the root and an unknown name. -/
theorem subsumes_among_remaining_knot :
    knot.Grown ∧
    (knot.remove ["b", "r", "b", "z"]).value.hasType (.named "a") ∧
    (knot.remove ["b", "r", "b", "z"]).value.hasType (.named "c") ∧
    ((knot.remove ["b", "r", "b", "z"]).value.inquireSubsumes (.named "a") (.named "c")).answer
      (knot.remove ["b", "r", "b", "z"]).value = true := by
  obtain ⟨hmem, horder⟩ := grown_knot.subsumes_among_remaining ["b", "r", "b", "z"]
  have ha : (knot.remove ["b", "r", "b", "z"]).value.hasType (.named "a") :=
    (hmem _).2 ⟨by decide, .inr (by decide)⟩
  have hc : (knot.remove ["b", "r", "b", "z"]).value.hasType (.named "c") :=
    (hmem _).2 ⟨by decide, .inr (by decide)⟩
  refine ⟨grown_knot, ha, hc, ?_⟩
  rw [horder _ _ ha hc]
  decide +kernel

end Taxonomy.Hierarchy
