import Taxonomy.Proofs.Resolution.Semilattice
import Taxonomy.Ranking

/-!
# Hierarchies as partial orders

Subsumption of types is reflexive and transitive in every hierarchy, and the reserved values are its
extremes. It is antisymmetric exactly if there is no cycle: two types on a cycle subsume each other,
and as no type is its own parent, a cycle has two types (`Grown.subsumption_partial_iff`). Proper
subsumption and comparison behave as those of a partial order then.

In such an order the bounds of two members are the extreme members beyond both. None is beyond
another, and every member beyond both is beyond one of them (`Acyclic.frontier_inquireBounds`).
-/

open Relation

namespace Taxonomy.Hierarchy

variable {h : Hierarchy} {b : Bound} {s t u v w z : Ty}

/-! ## Subsumption -/

/-- What is beyond a type beyond `s` is beyond `s`. -/
theorem WellFormed.beyond_trans (hw : h.WellFormed) (hst : h.Beyond b s t) (htu : h.Beyond b t u) :
    h.Beyond b s u := by
  rcases hw.beyond_iff.1 hst with rfl | rfl | rfl | ⟨hs, ht, hpath⟩
  · exact htu
  · exact hw.beyond_identity b u
  · rw [hw.beyond_absorbing_iff.1 htu]
    exact hw.beyond_absorbing b s
  · rw [hw.beyond_iff_of_hasType ht] at htu
    rw [hw.beyond_iff_of_hasType hs]
    exact htu.imp_right hpath.trans

/-- Where subsumption is antisymmetric there is no cycle. -/
theorem WellFormed.acyclic_of_antisymm (hw : h.WellFormed)
    (hanti : ∀ s t, (h.inquireSubsumes s t).answer h = true →
      (h.inquireSubsumes t s).answer h = true → s = t) : h.Acyclic := by
  intro s hcycle
  -- the type after `s` on the cycle would be `s` itself
  obtain ⟨t, hst, hts⟩ := TransGen.head'_iff.1 hcycle
  have hs : h.hasType s := hw.mirrored.hasType_left hst
  have ht : h.hasType t := hw.mirrored.hasType_right hst
  have heq : s = t := hanti s t ((hw.answer_inquireSubsumes_iff hs ht).2 (.single hst))
    ((hw.answer_inquireSubsumes_iff ht hs).2 hts)
  exact hw.irrefl s (heq ▸ hst)

/-! ## Proper subsumption and comparison -/

theorem answer_inquireProperlySubsumes_iff :
    (h.inquireProperlySubsumes s t).answer h ↔ (h.inquireSubsumes s t).answer h ∧ s ≠ t := by
  rw [inquireProperlySubsumes, Reserved.properlySubsumes, inquireSubsumes]
  by_cases heq : s = t
  · simp [heq]
  · rw [if_neg heq, and_iff_left heq]

theorem answer_compareTypes : (h.compareTypes s t).answer h =
    if s = t then some .eq
    else if (h.inquireProperlySubsumes s t).answer h then some .lt
    else if (h.inquireProperlySubsumes t s).answer h then some .gt
    else none := by
  rw [compareTypes]
  split
  · rfl
  · rw [Inquiry.bind_eq, Inquiry.answer_andThen]
    split
    · rfl
    · rw [Inquiry.bind_eq, Inquiry.answer_andThen]
      split <;> rfl

/-- Comparison is oriented if no two types properly subsume each other. -/
theorem answer_compareTypes_swap
    (hasymm : ∀ s t, (h.inquireProperlySubsumes s t).answer h = true →
      (h.inquireProperlySubsumes t s).answer h = false) :
    (h.compareTypes t s).answer h = ((h.compareTypes s t).answer h).map Ordering.swap := by
  rw [answer_compareTypes, answer_compareTypes]
  by_cases heq : s = t
  · simp [heq]
  · rw [if_neg heq, if_neg (Ne.symm heq)]
    by_cases hst : (h.inquireProperlySubsumes s t).answer h = true
    · simp [hst, hasymm s t hst]
    · by_cases hts : (h.inquireProperlySubsumes t s).answer h = true
      · simp [hst, hts]
      · simp [hst, hts]

/-- **Subsumption is a preorder on all types, with the reserved values as its extremes, and a
partial order exactly if the hierarchy is not circular.** If so, proper subsumption is subsumption of
a different type and never mutual, and types that change places compare the other way round. -/
theorem Grown.subsumption_partial_iff (hg : h.Grown) :
    (∀ t, (h.inquireSubsumes t t).answer h = true) ∧
    (∀ s t u, (h.inquireSubsumes s t).answer h = true → (h.inquireSubsumes t u).answer h = true →
      (h.inquireSubsumes s u).answer h = true) ∧
    (∀ t, (h.inquireSubsumes .undefined t).answer h = true) ∧
    (∀ t, (h.inquireSubsumes t .top).answer h = true) ∧
    ((∀ s t, (h.inquireSubsumes s t).answer h = true → (h.inquireSubsumes t s).answer h = true →
      s = t) ↔ h.isCircular = false) ∧
    (h.isCircular = false →
      (∀ s t, (h.inquireProperlySubsumes s t).answer h = true ↔
        (h.inquireSubsumes s t).answer h = true ∧ s ≠ t) ∧
      (∀ s t, (h.inquireProperlySubsumes s t).answer h = true →
        (h.inquireSubsumes t s).answer h = false) ∧
      ∀ s t, (h.compareTypes t s).answer h = ((h.compareTypes s t).answer h).map Ordering.swap) := by
  have hw : h.WellFormed := hg.wellFormed
  rw [hw.mirrored.isCircular_eq_false_iff]
  refine ⟨hw.beyond_refl .leastUpper, fun s t u ↦ hw.beyond_trans (b := .leastUpper),
    hw.beyond_identity .leastUpper, hw.beyond_absorbing .leastUpper, ?_, fun hc ↦ ?_⟩
  · exact ⟨hw.acyclic_of_antisymm, fun hc s t ↦ hc.beyond_antisymm (b := .leastUpper) hw⟩
  · have hnot : ∀ s t, (h.inquireProperlySubsumes s t).answer h = true →
        (h.inquireSubsumes t s).answer h = false := by
      intro s t hst
      obtain ⟨hsub, hne⟩ := answer_inquireProperlySubsumes_iff.1 hst
      exact Bool.eq_false_iff.2 fun hback ↦
        hne (hc.beyond_antisymm (b := .leastUpper) hw hsub hback)
    refine ⟨fun s t ↦ answer_inquireProperlySubsumes_iff, hnot, fun s t ↦ ?_⟩
    refine answer_compareTypes_swap fun s t hst ↦ Bool.eq_false_iff.2 fun hts ↦ ?_
    have hsub := (answer_inquireProperlySubsumes_iff.1 hts).1
    rw [hnot s t hst] at hsub
    cases hsub

/-- On a cycle two types subsume each other; the crown has no cycle. -/
theorem subsumption_partial_iff_knot :
    knot.Grown ∧ crown.Grown ∧
    (knot.inquireSubsumes (.named "a") (.named "b")).answer knot = true ∧
    (knot.inquireSubsumes (.named "b") (.named "a")).answer knot = true ∧
    knot.isCircular = true ∧ crown.isCircular = false ∧
    (crown.compareTypes (.named "c") (.named "a")).answer crown = some .gt := by
  obtain ⟨-, -, -, -, hanti, -⟩ := grown_knot.subsumption_partial_iff
  obtain ⟨-, -, -, -, -, hcompare⟩ := grown_crown.subsumption_partial_iff
  have hab : (knot.inquireSubsumes (.named "a") (.named "b")).answer knot = true := by
    decide +kernel
  have hba : (knot.inquireSubsumes (.named "b") (.named "a")).answer knot = true := by
    decide +kernel
  have hknot : knot.isCircular ≠ false := fun hnot ↦
    absurd (hanti.2 hnot _ _ hab hba) (by decide)
  have hnot : crown.isCircular = false := by decide
  refine ⟨grown_knot, grown_crown, hab, hba, Bool.not_eq_false _ ▸ hknot, hnot, ?_⟩
  rw [(hcompare hnot).2.2 (.named "a") (.named "c")]
  decide +kernel

/-! ## Bounds of members -/

/-- `types` are the extreme ones among the members beyond `s` and `t`. -/
structure Frontier (h : Hierarchy) (b : Bound) (s t : Ty) (types : List Ty) : Prop where
  hasType : ∀ w ∈ types, h.hasType w
  beyond : ∀ w ∈ types, h.Beyond b s w ∧ h.Beyond b t w
  pairwise : types.Pairwise fun v w ↦ ¬ h.Beyond b v w ∧ ¬ h.Beyond b w v
  exists_beyond : ∀ z, h.hasType z → h.Beyond b s z → h.Beyond b t z →
    ∃ w ∈ types, h.Beyond b w z

/-- Between members a type is beyond another exactly if a path leads to it. -/
theorem WellFormed.beyond_iff_reflTransGen (hw : h.WellFormed) (hs : h.hasType s)
    (hz : h.hasType z) : h.Beyond b s z ↔ ReflTransGen (h.Step b.direction) s z := by
  rw [hw.beyond_iff_of_hasType hs, or_iff_right]
  rintro rfl
  exact hw.not_hasType_absorbing b hz

/-- No bound is beyond another. -/
theorem WellFormed.not_beyond_of_mem_bounds (hw : h.WellFormed) (hs : h.hasType s)
    (ht : h.hasType t) (hv : v ∈ h.bounds b s t) (hu : u ∈ h.bounds b s t) (hne : v ≠ u) :
    ¬ h.Beyond b v u := by
  have hm := hw.mirrored
  rw [hw.beyond_iff_reflTransGen (hasType_of_mem_bounds hm hs ht hv)
    (hasType_of_mem_bounds hm hs ht hu)]
  intro hpath
  obtain ⟨hshared, -⟩ := (mem_bounds_iff_extreme hm).1 hv
  obtain ⟨-, hextreme⟩ := (mem_bounds_iff_extreme hm).1 hu
  exact hne (hextreme v hshared hpath)

/-- **Bounds of members are the extreme members beyond both**, and there are enough of them. -/
theorem Acyclic.frontier_inquireBounds (hc : h.Acyclic) (hw : h.WellFormed) (hs : h.hasType s)
    (ht : h.hasType t) (hne : s ≠ t) : h.Frontier b s t ((h.inquireBounds b s t).answer h) := by
  have hm := hw.mirrored
  have hmem : ∀ w ∈ h.bounds b s t, h.hasType w := fun w ↦ hasType_of_mem_bounds hm hs ht
  rw [hw.answer_inquireBounds_of_ne hs ht hne]
  constructor
  case hasType => exact fun w hw ↦ hmem w (FinSet.mem_toList.1 hw)
  case beyond =>
    intro w hbound
    rw [FinSet.mem_toList] at hbound
    have hshared := ((mem_bounds_iff hm).1 hbound).1
    rw [hw.beyond_iff_reflTransGen hs (hmem w hbound), hw.beyond_iff_reflTransGen ht (hmem w hbound)]
    exact (shared_iff hs ht).1 hshared
  case pairwise =>
    refine (h.bounds b s t).nodup.pairwise_of_forall_ne fun v hv u hu hvu ↦ ?_
    rw [FinSet.mem_toList] at hv hu
    exact ⟨hw.not_beyond_of_mem_bounds hs ht hv hu hvu,
      hw.not_beyond_of_mem_bounds hs ht hu hv hvu.symm⟩
  case exists_beyond =>
    intro z hz hsz htz
    rw [hw.beyond_iff_reflTransGen hs hz] at hsz
    rw [hw.beyond_iff_reflTransGen ht hz] at htz
    obtain ⟨w, hbound, hwz⟩ := hc.exists_mem_bounds hm hs ht ((shared_iff hs ht).2 ⟨hsz, htz⟩)
    exact ⟨w, FinSet.mem_toList.2 hbound,
      (hw.beyond_iff_reflTransGen (hmem w hbound) hz).2 hwz⟩

/-- **Least upper bounds** of two members are the most general members subsumed by both: none
subsumes another, and all that both subsume is subsumed by one of them. There is none exactly if no
path from either leads to a common type. **Greatest lower bounds** are the most specific members that
subsume both, likewise, and there is always one. -/
theorem Grown.bounds_extreme_and_complete (hg : h.Grown) (hc : h.Acyclic) (hs : h.hasType s)
    (ht : h.hasType t) (hne : s ≠ t) :
    let joins := (h.inquireBounds .leastUpper s t).answer h
    let meets := (h.inquireBounds .greatestLower s t).answer h
    (∀ w ∈ joins, h.hasType w ∧
      (h.inquireSubsumes s w).answer h = true ∧ (h.inquireSubsumes t w).answer h = true) ∧
    joins.Pairwise (fun v w ↦
      ¬ (h.inquireSubsumes v w).answer h = true ∧ ¬ (h.inquireSubsumes w v).answer h = true) ∧
    (∀ z, h.hasType z → (h.inquireSubsumes s z).answer h = true →
      (h.inquireSubsumes t z).answer h = true →
        ∃ w ∈ joins, (h.inquireSubsumes w z).answer h = true) ∧
    (joins = [] ↔ ¬ ∃ z, ReflTransGen h.Edge s z ∧ ReflTransGen h.Edge t z) ∧
    (∀ w ∈ meets, h.hasType w ∧
      (h.inquireSubsumes w s).answer h = true ∧ (h.inquireSubsumes w t).answer h = true) ∧
    meets.Pairwise (fun v w ↦
      ¬ (h.inquireSubsumes v w).answer h = true ∧ ¬ (h.inquireSubsumes w v).answer h = true) ∧
    (∀ z, h.hasType z → (h.inquireSubsumes z s).answer h = true →
      (h.inquireSubsumes z t).answer h = true →
        ∃ w ∈ meets, (h.inquireSubsumes z w).answer h = true) ∧
    meets ≠ [] := by
  have hw : h.WellFormed := hg.wellFormed
  intro joins meets
  have hjoins : h.Frontier .leastUpper s t joins := hc.frontier_inquireBounds hw hs ht hne
  have hmeets : h.Frontier .greatestLower s t meets := hc.frontier_inquireBounds hw hs ht hne
  refine ⟨fun w hmem ↦ ⟨hjoins.hasType w hmem, hjoins.beyond w hmem⟩, hjoins.pairwise,
    hjoins.exists_beyond, ?_, fun w hmem ↦ ⟨hmeets.hasType w hmem, hmeets.beyond w hmem⟩,
    hmeets.pairwise.imp And.symm, hmeets.exists_beyond, ?_⟩
  · rw [List.eq_nil_iff_forall_not_mem]
    constructor
    · rintro hnone ⟨z, hsz, htz⟩
      have hz : h.hasType z := hw.mirrored.hasType_of_reflTransGen (d := .down) hs hsz
      obtain ⟨w, hmem, -⟩ := hjoins.exists_beyond z hz
        ((hw.beyond_iff_reflTransGen hs hz).2 hsz) ((hw.beyond_iff_reflTransGen ht hz).2 htz)
      exact hnone w hmem
    · intro hnone w hmem
      obtain ⟨hsw, htw⟩ := hjoins.beyond w hmem
      have hwmem := hjoins.hasType w hmem
      exact hnone ⟨w, (hw.beyond_iff_reflTransGen hs hwmem).1 hsw,
        (hw.beyond_iff_reflTransGen ht hwmem).1 htw⟩
  · -- the root subsumes both
    obtain ⟨w, hmem, -⟩ :=
      hmeets.exists_beyond h.root hw.hasType_root (hw.beyond_root hs) (hw.beyond_root ht)
    exact List.ne_nil_of_mem hmem

/-- The two joins of `a` and `b`, neither of which subsumes the other, and their meet. -/
theorem bounds_extreme_and_complete_crown :
    crown.Grown ∧ crown.Acyclic ∧ crown.hasType (.named "a") ∧ crown.hasType (.named "b") ∧
    (crown.inquireBounds .leastUpper (.named "a") (.named "b")).answer crown =
      [.named "c", .named "d"] ∧
    (crown.inquireSubsumes (.named "b") (.named "d")).answer crown = true ∧
    ¬ (crown.inquireSubsumes (.named "c") (.named "d")).answer crown = true ∧
    (crown.inquireBounds .greatestLower (.named "a") (.named "b")).answer crown ≠ [] := by
  have ha : crown.hasType (.named "a") := by decide
  have hb : crown.hasType (.named "b") := by decide
  have hjoins : (crown.inquireBounds .leastUpper (.named "a") (.named "b")).answer crown =
      [.named "c", .named "d"] := by decide +kernel
  obtain ⟨hbelow, hapart, -, -, -, -, -, hmeets⟩ :=
    grown_crown.bounds_extreme_and_complete acyclic_crown ha hb (by decide)
  rw [hjoins] at hbelow hapart
  refine ⟨grown_crown, acyclic_crown, ha, hb, hjoins, ?_, ?_, hmeets⟩
  · exact (hbelow (.named "d") (by simp)).2.2
  · exact (List.pairwise_pair.1 hapart).1

end Taxonomy.Hierarchy
