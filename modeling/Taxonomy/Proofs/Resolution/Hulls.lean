import Mathlib.Order.WellFoundedSet
import Taxonomy.Hull
import Taxonomy.Proofs.Resolution.PartialOrder

/-!
# Extremes of lists

The most general types of a list are those that no other type of it properly subsumes, and the most
specific ones those that properly subsume no other. Both are found by the test that reduces hulls
(`answer_minimal`, `answer_maximal`), and to look for the most specific is to look for the most
general by the converse relation, so there is one thing to prove things about: `minimize`, by a
relation that may be any.

The test asks about the types of the list and nothing else. So what it keeps depends on nothing but
which types there are, and a type that it keeps among all it keeps among fewer
(`minimize_minimize`). Whether a type that is dropped has one kept in its stead is another matter,
since what blocks a type may be blocked itself. By going from blocker to blocker one comes to a type
that is kept, if the relation is irreflexive and transitive, as there are finitely many types
(`exists_mem_minimize`). Proper subsumption is such a relation, unless there are cycles.
-/

namespace Taxonomy

/-! ## Reduction by a relation -/

section Relation

variable {related : Ty → Ty → Bool} {types : FinSet Ty} {s t : Ty}

/-- What is kept is kept again. -/
theorem minimize_minimize : minimize related (minimize related types) = minimize related types := by
  refine FinSet.ext fun t ↦ ?_
  rw [mem_minimize, and_iff_left_iff_imp]
  intro ht other hother
  exact (mem_minimize.1 ht).2 other (mem_minimize.1 hother).1

/-- No type that is kept is related to another one. -/
theorem not_related_of_mem_minimize (hs : s ∈ minimize related types)
    (ht : t ∈ minimize related types) (hne : s ≠ t) : related s t = false :=
  Bool.eq_false_iff.2 fun hst ↦ hne ((mem_minimize.1 ht).2 s (mem_minimize.1 hs).1 hst)

/-- **Covering.** Each type is kept, or one is kept that is related to it. -/
theorem exists_mem_minimize (hirrefl : ∀ s, related s s = false)
    (htrans : ∀ s t u, related s t = true → related t u = true → related s u = true)
    (ht : t ∈ types) : ∃ s ∈ minimize related types, s = t ∨ related s t = true := by
  have hfinite : {u | u ∈ types}.Finite := types.finite_of_forall_mem fun _ hu ↦ hu
  have : IsStrictOrder Ty fun s t ↦ related s t = true :=
    { irrefl := fun s ↦ Bool.eq_false_iff.1 (hirrefl s), trans := htrans }
  have hwf : {u | u ∈ types}.WellFoundedOn fun s t ↦ related s t = true := hfinite.wellFoundedOn
  refine hwf.induction (P := fun t ↦ ∃ s ∈ minimize related types, s = t ∨ related s t = true) ht
    fun t ht ih ↦ ?_
  by_cases hkept : t ∈ minimize related types
  · exact ⟨t, hkept, .inl rfl⟩
  · -- whatever blocks `t` is covered, and what covers it covers `t`
    have hblocked : ∃ other ∈ types, related other t = true := by
      by_contra! hnone
      exact hkept (mem_minimize.2 ⟨ht, fun other hmem hrel ↦ absurd hrel (hnone other hmem)⟩)
    obtain ⟨other, hmem, hother⟩ := hblocked
    obtain ⟨s, hs, heq | hrel⟩ := ih other hmem hother
    · exact ⟨s, hs, .inr (heq ▸ hother)⟩
    · exact ⟨s, hs, .inr (htrans s other t hrel hother)⟩

/-! The most specific types are the most general ones by the converse relation. -/

theorem not_related_of_mem_maximize (hs : s ∈ maximize related types)
    (ht : t ∈ maximize related types) (hne : s ≠ t) : related s t = false :=
  @not_related_of_mem_minimize (flip related) types t s ht hs hne.symm

/-- Each type is covered by one that is kept, from either side. -/
theorem minimize_and_maximize_cover (hirrefl : ∀ s, related s s = false)
    (htrans : ∀ s t u, related s t = true → related t u = true → related s u = true)
    (ht : t ∈ types) :
    (∃ s ∈ minimize related types, s = t ∨ related s t = true) ∧
      ∃ s ∈ maximize related types, s = t ∨ related t s = true :=
  ⟨exists_mem_minimize hirrefl htrans ht,
    @exists_mem_minimize (flip related) types t hirrefl
      (fun s t u hst htu ↦ htrans u t s htu hst) ht⟩

end Relation

/-- A reduction of lists to some of their types that sees sets in them, and leaves nothing to be
reduced. -/
structure Reduction (reduce : List Ty → List Ty) : Prop where
  /-- What is kept was there. -/
  subset : ∀ l, reduce l ⊆ l
  /-- Neither order nor repetition matters. -/
  congr : ∀ l m, (∀ t, t ∈ l ↔ t ∈ m) → reduce l = reduce m
  idempotent : ∀ l, reduce (reduce l) = reduce l

/-- Reduction to the types that are not blocked, by any relation. -/
theorem reduction_minimize (related : Ty → Ty → Bool) :
    Reduction fun l ↦ (minimize related (FinSet.ofList l)).toList where
  subset l t ht := FinSet.mem_ofList.1 (mem_minimize.1 (FinSet.mem_toList.1 ht)).1
  congr l m hlm := by
    rw [FinSet.ofList_congr hlm]
  idempotent l := by
    rw [FinSet.ofList_toList, minimize_minimize]

theorem reduction_maximize (related : Ty → Ty → Bool) :
    Reduction fun l ↦ (maximize related (FinSet.ofList l)).toList :=
  reduction_minimize (flip related)

namespace Hierarchy

variable {h : Hierarchy} {l : List Ty} {s t u : Ty}

/-! ## Reduction by proper subsumption -/

/-- To keep the types for which no other passes is to reduce a hull. -/
theorem answer_filter_not_any (p : Ty → Ty → Inquiry Bool) (types : FinSet Ty) :
    (Inquiry.filter (fun t ↦ (!·) <$> Inquiry.any (p · t) (types.toList.filter (· ≠ t)))
      types.toList).answer h = (minimize (fun s t ↦ (p s t).answer h) types).toList := by
  rw [Inquiry.answer_filter, minimize, FinSet.toList_filter]
  refine List.filter_congr fun t _ ↦ ?_
  refine (Inquiry.answer_andThen h _ _).trans (congrArg (!·) ?_)
  rw [Inquiry.answer_any, List.any_filter]

theorem answer_minimal : (h.minimal l).answer h =
    (minimize (fun s t ↦ (h.inquireProperlySubsumes s t).answer h) (FinSet.ofList l)).toList :=
  answer_filter_not_any h.inquireProperlySubsumes (FinSet.ofList l)

theorem answer_maximal : (h.maximal l).answer h =
    (maximize (fun s t ↦ (h.inquireProperlySubsumes s t).answer h) (FinSet.ofList l)).toList :=
  answer_filter_not_any (fun s t ↦ h.inquireProperlySubsumes t s) (FinSet.ofList l)

theorem not_properlySubsumes_self (t : Ty) : (h.inquireProperlySubsumes t t).answer h = false :=
  Bool.eq_false_iff.2 fun ht ↦ (answer_inquireProperlySubsumes_iff.1 ht).2 rfl

/-- Without cycles proper subsumption is transitive, reserved values and strangers included. -/
theorem Acyclic.properlySubsumes_trans (hc : h.Acyclic) (hw : h.WellFormed)
    (hst : (h.inquireProperlySubsumes s t).answer h = true)
    (htu : (h.inquireProperlySubsumes t u).answer h = true) :
    (h.inquireProperlySubsumes s u).answer h = true := by
  obtain ⟨hsub, hne⟩ := answer_inquireProperlySubsumes_iff.1 hst
  obtain ⟨hsub', -⟩ := answer_inquireProperlySubsumes_iff.1 htu
  refine answer_inquireProperlySubsumes_iff.2
    ⟨hw.beyond_trans (b := .leastUpper) hsub hsub', ?_⟩
  rintro rfl
  exact hne (hc.beyond_antisymm (b := .leastUpper) hw hsub hsub')

theorem answer_compareTypes_eq_none (hne : s ≠ t)
    (hst : (h.inquireProperlySubsumes s t).answer h = false)
    (hts : (h.inquireProperlySubsumes t s).answer h = false) :
    (h.compareTypes s t).answer h = none := by
  rw [answer_compareTypes, if_neg hne, hst, hts]
  rfl

/-- Types of which none properly subsumes another are incomparable. -/
theorem pairwise_incomparable {types : FinSet Ty}
    (hnone : ∀ s ∈ types, ∀ t ∈ types, s ≠ t → (h.inquireProperlySubsumes s t).answer h = false) :
    types.toList.Pairwise fun s t ↦ (h.compareTypes s t).answer h = none := by
  refine types.nodup.pairwise_of_forall_ne fun s hs t ht hne ↦ ?_
  rw [FinSet.mem_toList] at hs ht
  exact answer_compareTypes_eq_none hne (hnone s hs t ht hne) (hnone t ht s hs hne.symm)

/-- What is properly subsumed, or the type itself, is subsumed. -/
theorem WellFormed.answer_inquireSubsumes_of_eq_or (hw : h.WellFormed)
    (hst : s = t ∨ (h.inquireProperlySubsumes s t).answer h = true) :
    (h.inquireSubsumes s t).answer h = true := by
  rcases hst with rfl | hst
  · exact hw.beyond_refl .leastUpper s
  · exact (answer_inquireProperlySubsumes_iff.1 hst).1

/-- **The extremes of a list** depend on the set of its types only, are their own extremes and are
incomparable. If there are no cycles, each type of the list is subsumed by one of the most general
and subsumes one of the most specific. Reduction by any other relation depends on the set and is
idempotent as well, and it covers all types if the relation is irreflexive and transitive. -/
theorem Grown.extremes_reduce_and_cover (hg : h.Grown) :
    Reduction (fun l ↦ (h.minimal l).answer h) ∧
    Reduction (fun l ↦ (h.maximal l).answer h) ∧
    (∀ l, ((h.minimal l).answer h).Pairwise (fun s t ↦ (h.compareTypes s t).answer h = none) ∧
      ((h.maximal l).answer h).Pairwise (fun s t ↦ (h.compareTypes s t).answer h = none)) ∧
    (h.Acyclic → ∀ l, ∀ t ∈ l,
      (∃ s ∈ (h.minimal l).answer h, (h.inquireSubsumes s t).answer h = true) ∧
      ∃ s ∈ (h.maximal l).answer h, (h.inquireSubsumes t s).answer h = true) ∧
    ∀ related : Ty → Ty → Bool,
      Reduction (fun l ↦ (minimize related (FinSet.ofList l)).toList) ∧
      Reduction (fun l ↦ (maximize related (FinSet.ofList l)).toList) ∧
      ((∀ s, related s s = false) →
        (∀ s t u, related s t = true → related t u = true → related s u = true) →
        ∀ l : List Ty, ∀ t ∈ l,
          (∃ s ∈ (minimize related (FinSet.ofList l)).toList, s = t ∨ related s t = true) ∧
          ∃ s ∈ (maximize related (FinSet.ofList l)).toList, s = t ∨ related t s = true) := by
  have hw : h.WellFormed := hg.wellFormed
  simp only [answer_minimal, answer_maximal, FinSet.mem_toList]
  refine ⟨reduction_minimize _, reduction_maximize _, fun l ↦ ⟨?_, ?_⟩, fun hc l t ht ↦ ?_,
    fun related ↦ ⟨reduction_minimize related, reduction_maximize related, ?_⟩⟩
  · exact pairwise_incomparable fun s hs t ht ↦ not_related_of_mem_minimize hs ht
  · exact pairwise_incomparable fun s hs t ht ↦ not_related_of_mem_maximize hs ht
  · have htrans := fun s t u ↦ hc.properlySubsumes_trans (s := s) (t := t) (u := u) hw
    obtain ⟨⟨s, hs, hst⟩, ⟨u, hu, htu⟩⟩ :=
      minimize_and_maximize_cover not_properlySubsumes_self htrans (FinSet.mem_ofList.2 ht)
    exact ⟨⟨s, hs, hw.answer_inquireSubsumes_of_eq_or hst⟩,
      ⟨u, hu, hw.answer_inquireSubsumes_of_eq_or (htu.imp_left Eq.symm)⟩⟩
  · exact fun hirrefl htrans l t ht ↦
      minimize_and_maximize_cover hirrefl htrans (FinSet.mem_ofList.2 ht)

/-- Two of these four are not below another one, the stranger `z` among them, and one of the two
covers `c`. In presentation order only the first covers them all. -/
theorem extremes_reduce_and_cover_crown :
    let listed : List Ty := [.named "c", .named "z", .named "a", .named "d"]
    let earlier : Ty → Ty → Bool := fun s t ↦ compare s t = .lt
    crown.Grown ∧ crown.Acyclic ∧
    (crown.minimal listed).answer crown = [.named "a", .named "z"] ∧
    (crown.maximal listed).answer crown = [.named "c", .named "d", .named "z"] ∧
    (crown.minimal listed.reverse).answer crown = (crown.minimal listed).answer crown ∧
    (∃ s ∈ [Ty.named "a", .named "z"],
      (crown.inquireSubsumes s (.named "c")).answer crown = true) ∧
    (∀ s, earlier s s = false) ∧
    (∀ s t u, earlier s t = true → earlier t u = true → earlier s u = true) ∧
    ∀ t ∈ listed, .named "a" = t ∨ earlier (.named "a") t = true := by
  intro listed earlier
  obtain ⟨hmin, -, -, hcover, hrelated⟩ := grown_crown.extremes_reduce_and_cover
  have hminimal : (crown.minimal listed).answer crown = [.named "a", .named "z"] := by
    decide +kernel
  have hc := (hcover acyclic_crown listed (.named "c") (by decide)).1
  rw [hminimal] at hc
  have hirrefl : ∀ s, earlier s s = false := fun s ↦
    decide_eq_false (by simp [Std.ReflOrd.compare_self])
  have htrans : ∀ s t u, earlier s t = true → earlier t u = true → earlier s u = true := by
    intro s t u hst htu
    exact decide_eq_true (Std.TransCmp.lt_trans (of_decide_eq_true hst) (of_decide_eq_true htu))
  refine ⟨grown_crown, acyclic_crown, hminimal, by decide +kernel,
    hmin.congr _ _ fun t ↦ List.mem_reverse, hc, hirrefl, htrans, fun t ht ↦ ?_⟩
  obtain ⟨⟨s, hs, hst⟩, -⟩ := (hrelated earlier).2.2 hirrefl htrans listed t ht
  have hfirst : (minimize earlier (FinSet.ofList listed)).toList = [.named "a"] := by
    decide +kernel
  rw [hfirst, List.mem_singleton] at hs
  exact hs ▸ hst

end Hierarchy

end Taxonomy
