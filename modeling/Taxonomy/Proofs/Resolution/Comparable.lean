import Taxonomy.Proofs.Resolution.Converse
import Taxonomy.Proofs.Resolution.PartialOrder

/-!
# Bounds of comparable types

In a partial order `s ≤ t` says that the join of both is `t`, and that their meet is `s`. Bounds are
lists here, and the reserved values, strangers and members are treated by different rules, but the
law holds for all of them: one type is beyond another exactly if it is their only bound
(`Acyclic.beyond_iff_bounds`). On a cycle it fails, for members that subsume each other have no
bounds at all.
-/

open Relation

namespace Taxonomy.Hierarchy

variable {h : Hierarchy} {b : Bound} {s t w : Ty} {types : List Ty}

/-- Bounds do not depend on the order of the types. -/
theorem WellFormed.answer_inquireBounds_comm (hw : h.WellFormed) :
    (h.inquireBounds b s t).answer h = (h.inquireBounds b t s).answer h := by
  rw [answer_inquireBounds, answer_inquireBounds, Reserved.bounds_comm, bounds_comm hw.mirrored,
    Bool.and_comm]

theorem answer_inquireBounds_of_reserved (heq : Reserved.bounds b s t = some types) :
    (h.inquireBounds b s t).answer h = types := by
  rw [answer_inquireBounds, heq]
  rfl

/-- What both a type and one that a path leads to reach is reached from the latter, which is the
first of all that is. -/
theorem Acyclic.mem_bounds_iff_of_path (hc : h.Acyclic) (hm : h.Mirrored) (hs : h.hasType s)
    (ht : h.hasType t) (hpath : ReflTransGen (h.Step b.direction) s t) :
    w ∈ h.bounds b s t ↔ w = t := by
  have hshared : ∀ {u}, h.Shared b.direction s t u ↔ ReflTransGen (h.Step b.direction) t u :=
    (shared_iff hs ht).trans (and_iff_right_of_imp hpath.trans)
  rw [mem_bounds_iff_extreme hm]
  constructor
  · rintro ⟨hmem, hextreme⟩
    exact (hextreme t (hshared.2 .refl) (hshared.1 hmem)).symm
  · rintro rfl
    exact ⟨hshared.2 .refl, fun u hu hback ↦ hc.antisymm hm hback (hshared.1 hu)⟩

/-- **A type is beyond another exactly if it is the only bound of both.** -/
theorem Acyclic.beyond_iff_bounds (hc : h.Acyclic) (hw : h.WellFormed) :
    h.Beyond b s t ↔ (h.inquireBounds b s t).answer h = [t] := by
  constructor
  · intro hbeyond
    rcases hw.beyond_iff.1 hbeyond with rfl | rfl | rfl | ⟨hs, ht, hpath⟩
    · exact answer_inquireBounds_of_reserved (Reserved.bounds_self b s)
    · exact answer_inquireBounds_of_reserved (Reserved.bounds_identity_left b t)
    · exact answer_inquireBounds_of_reserved (Reserved.bounds_absorbing_right b s)
    · by_cases hst : s = t
      · subst hst
        exact answer_inquireBounds_of_reserved (Reserved.bounds_self b s)
      · rw [hw.answer_inquireBounds_of_ne hs ht hst, FinSet.toList_eq_singleton_iff]
        exact fun w ↦ hc.mem_bounds_iff_of_path hw.mirrored hs ht hpath
  · intro honly
    exact ((hc.beyond_iff_of_only_bound hw honly).1 (hw.beyond_refl b t)).1

/-- **Subsumption is what both kinds of bounds say it is.** Whatever two types are, members or not,
one subsumes the other exactly if the other is their only least upper bound, and exactly if it is
itself their only greatest lower bound. -/
theorem Grown.subsumes_iff_bounds (hg : h.Grown) (hc : h.Acyclic) (s t : Ty) :
    ((h.inquireSubsumes s t).answer h = true ↔
      (h.inquireBounds .leastUpper s t).answer h = [t]) ∧
    ((h.inquireSubsumes s t).answer h = true ↔
      (h.inquireBounds .greatestLower s t).answer h = [s]) := by
  have hw : h.WellFormed := hg.wellFormed
  constructor
  · exact hc.beyond_iff_bounds (b := .leastUpper) hw
  · rw [hw.answer_inquireBounds_comm]
    exact hc.beyond_iff_bounds (b := .greatestLower) hw

/-- In the crown `a` subsumes `c`. It does not subsume `b`; the two have several bounds. -/
theorem subsumes_iff_bounds_crown :
    crown.Grown ∧ crown.Acyclic ∧
    (crown.inquireBounds .leastUpper (.named "a") (.named "c")).answer crown = [.named "c"] ∧
    (crown.inquireBounds .greatestLower (.named "a") (.named "c")).answer crown = [.named "a"] ∧
    (crown.inquireBounds .leastUpper (.named "a") (.named "b")).answer crown =
      [.named "c", .named "d"] ∧
    (crown.inquireSubsumes (.named "a") (.named "b")).answer crown ≠ true := by
  have hsubsumes : (crown.inquireSubsumes (.named "a") (.named "c")).answer crown = true := by
    decide +kernel
  have hbounds : (crown.inquireBounds .leastUpper (.named "a") (.named "b")).answer crown =
      [.named "c", .named "d"] := by
    decide +kernel
  have hac := grown_crown.subsumes_iff_bounds acyclic_crown (.named "a") (.named "c")
  have hab := grown_crown.subsumes_iff_bounds acyclic_crown (.named "a") (.named "b")
  refine ⟨grown_crown, acyclic_crown, hac.1.1 hsubsumes, hac.2.1 hsubsumes, hbounds, ?_⟩
  rw [Ne, hab.1, hbounds]
  exact nofun

end Taxonomy.Hierarchy
