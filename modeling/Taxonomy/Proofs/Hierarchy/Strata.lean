import Taxonomy.Proofs.Hierarchy.Grown
import Taxonomy.Proofs.Hierarchy.Region
import Taxonomy.Proofs.Walk.Stratified

/-!
# The strata of a hierarchy

A stratified walk of a grown hierarchy that is not halted visits its region stratum by stratum. The
stratum of a type is the length of the longest path to it within the region, and all predecessors of
the type in the region have been visited by then. Only types on or below a cycle of the region have
no longest path; they are the last stratum (`Grown.strata_are_longest_paths`).

What a stratified walk does with a graph is known already; what remains is that the graph is the
region, and that members have names to be sorted by.
-/

open Relation

namespace Taxonomy.Hierarchy

open Walk

variable {ρ : Type} {h : Hierarchy} {plan : Plan} {visitor : Visitor ρ} {t : Ty}

/-- Members in presentation order are sorted by name. -/
theorem WellFormed.exists_names (hw : h.WellFormed) {types : List Ty}
    (hmem : ∀ t ∈ types, h.hasType t) (hsorted : types.Pairwise fun a b ↦ compare a b = .lt) :
    ∃ names : List String, types = names.map .named ∧ names.Pairwise (· < ·) := by
  obtain ⟨names, rfl⟩ : types ∈ Set.range (List.map Ty.named) := by
    rw [Set.range_list_map]
    intro t ht
    obtain ⟨name, rfl⟩ := hw.named t (hmem t ht)
    exact ⟨name, rfl⟩
  refine ⟨names, rfl, ?_⟩
  rw [List.pairwise_map] at hsorted
  exact hsorted.imp Ty.compare_named_eq_lt_iff.1

/-- A stratified walk makes layers of its region. -/
theorem Mirrored.exists_unhalted (hm : h.Mirrored) (hplan : plan.stratify)
    (hunhalted : (h.walk plan visitor).halted = false) :
    ∃ types : FinSet Ty, (∀ t, t ∈ types ↔ h.Region plan t) ∧
      Unhalted (h.successors plan) plan.track visitor types plan.visited
        (h.walk plan visitor) := by
  rw [halted, Option.isSome_eq_false_iff, Option.isNone_iff_eq_none] at hunhalted
  refine ⟨FinSet.ofList (h.explore plan Visitor.never (h.seeds plan (h.starts plan))).order,
    fun t ↦ ?_, if_pos hplan, hunhalted⟩
  rw [FinSet.mem_ofList, mem_order_explore_seeds hm]

/-- A walk that is not halted visits its region, each type once, in either way of walking. -/
theorem Mirrored.visits_region (hm : h.Mirrored)
    (hunhalted : (h.walk plan visitor).halted = false) :
    (h.walk plan visitor).order.Nodup ∧
      ∀ t, t ∈ (h.walk plan visitor).order ↔ h.Region plan t := by
  cases hplan : plan.stratify with
  | true =>
    obtain ⟨types, htypes, hu⟩ := hm.exists_unhalted hplan hunhalted
    refine ⟨hu.perm_order.nodup_iff.2 types.nodup, fun t ↦ ?_⟩
    rw [hu.perm_order.mem_iff, FinSet.mem_toList, htypes]
  | false =>
    obtain ⟨-, -, -, -, hnodup, hmem, -⟩ := hm.exists_finish_walk (P := fun _ _ ↦ True) hplan
      trivial (fun _ _ _ _ _ _ ↦ trivial) hunhalted
    exact ⟨hnodup, hmem⟩

theorem halted_never : (h.walk plan Visitor.never).halted = false := by
  rw [halted, result_eq_none]
  rfl

/-- A walk that is only watched visits its region. -/
theorem Mirrored.mem_order_walk (hm : h.Mirrored) :
    t ∈ (h.walk plan Visitor.never).order ↔ h.Region plan t :=
  (hm.visits_region halted_never).2 t

/-- **Strata are longest paths.** A stratified walk that is not halted visits the types of its
region once each, stratum by stratum, and each stratum is sorted by name. The visitor is asked at
each visit. The depth of a visit is the index of its stratum. Unless the type is on or below a cycle
of the region, the depth is the length of the longest path to it, and the visitor is shown all its
predecessors if the walk keeps track. If the region has a cycle, the types on or below cycles are
the last stratum. -/
theorem Grown.strata_are_longest_paths (hg : h.Grown) (hplan : plan.stratify)
    (hunhalted : (h.walk plan visitor).halted = false) :
    (h.walk plan visitor).order.Nodup ∧
    (∀ t, t ∈ (h.walk plan visitor).order ↔ h.Region plan t) ∧
    (h.walk plan visitor).strata.flatten = (h.walk plan visitor).order ∧
    (∀ stratum ∈ (h.walk plan visitor).strata, ∃ names : List String,
      stratum = names.map .named ∧ names.Pairwise (· < ·)) ∧
    visitor.firstAnswer? [] (h.walk plan visitor).visits = none ∧
    (∀ now ∈ (h.walk plan visitor).visits,
      (∃ stratum, (h.walk plan visitor).strata[now.depth]? = some stratum ∧ now.type ∈ stratum) ∧
      (¬ BelowCycle (h.RegionStep plan) now.type →
        IsGreatest {n | PathTo (h.RegionStep plan) n now.type} now.depth ∧
        (plan.track → ∀ p, p ∈ now.predecessors.getD ∅ ↔ h.RegionStep plan p now.type))) ∧
    ((∃ c, TransGen (h.RegionStep plan) c c) →
      ∃ last, (h.walk plan visitor).strata.getLast? = some last ∧
        ∀ t, t ∈ last ↔ BelowCycle (h.RegionStep plan) t) := by
  have hw : h.WellFormed := hg.wellFormed
  obtain ⟨types, htypes, hu⟩ := hw.mirrored.exists_unhalted hplan hunhalted
  rw [← among_successors htypes]
  have hmem : ∀ t, t ∈ (h.walk plan visitor).order ↔ h.Region plan t := fun t ↦ by
    rw [hu.perm_order.mem_iff, FinSet.mem_toList, htypes]
  refine ⟨hu.perm_order.nodup_iff.2 types.nodup, hmem, hu.flatten_strata,
    fun stratum hstratum ↦ ?_, hu.firstAnswer?_visits, fun now hnow ↦ ?_, hu.exists_last_stratum⟩
  · refine hw.exists_names (fun t ht ↦ ?_) ?_
    · have horder := List.mem_flatten.2 ⟨stratum, hstratum, ht⟩
      rw [hu.flatten_strata, hmem] at horder
      exact horder.enters.1
    · rw [hu.strata_eq] at hstratum
      exact Layers.ascending_of_mem_complete hstratum
  · obtain ⟨stratum, hstratum, ht, -⟩ := hu.exists_stratum hnow
    exact ⟨⟨stratum, hstratum, ht⟩, fun hcycle ↦ ⟨hu.isGreatest_depth hnow hcycle,
      fun htrack p ↦ hu.mem_predecessors_iff hnow hcycle htrack⟩⟩

/-- A cycle of `x` and `y` below `c`, to which a short path and a long one lead. -/
def braid : Hierarchy :=
  [.add "a" [], .add "b" ["a"], .add "c" ["a", "b"], .add "x" ["c"], .add "y" ["x"],
    .addParents "x" ["y"], .add "z" ["b", "y"], .add "i" ["a"], .add "v" ["a"]].foldl
    (fun h r ↦ (h.serve {} r).value.1) (Hierarchy.new "r")

theorem grown_braid : braid.Grown := by
  refine Grown.foldl_serve (.new "r") {} ?_
  simp [Request.sources]

/-- A plan that begins at a type and below it, and leaves a type out in either way. -/
def braidPlan : Plan where
  direction := .down
  start := some [.named "c", .named "a", .named "v", .top]
  visited := FinSet.ofList [.named "v"]
  ignored := FinSet.ofList [.named "i"]
  track := true
  stratify := true

/-- The long path to `c` decides its stratum, and the cycle and what is below it come last. -/
theorem strata_are_longest_paths_braid :
    braid.Grown ∧ braidPlan.stratify ∧ (braid.walk braidPlan Visitor.never).halted = false ∧
    (braid.walk braidPlan Visitor.never).strata =
      [[.named "a"], [.named "b"], [.named "c"], [.named "x", .named "y", .named "z"]] ∧
    (∀ t, t ∈ [Ty.named "x", .named "y", .named "z"] ↔
      BelowCycle (braid.RegionStep braidPlan) t) ∧
    IsGreatest {n | PathTo (braid.RegionStep braidPlan) n (.named "c")} 2 ∧
    ∀ p, p ∈ FinSet.ofList [Ty.named "a", .named "b"] ↔
      braid.RegionStep braidPlan p (.named "c") := by
  have hunhalted : (braid.walk braidPlan Visitor.never).halted = false := by decide +kernel
  have hstrata : (braid.walk braidPlan Visitor.never).strata =
      [[.named "a"], [.named "b"], [.named "c"], [.named "x", .named "y", .named "z"]] := by
    decide +kernel
  have hvisit : ⟨.named "c", 2, some (FinSet.ofList [.named "a", .named "b"])⟩ ∈
      (braid.walk braidPlan Visitor.never).visits := by
    decide +kernel
  obtain ⟨-, hregion, -, -, -, hvisits, hlast⟩ :=
    grown_braid.strata_are_longest_paths (by decide) hunhalted
  have hx : braid.Region braidPlan (.named "x") := (hregion _).1 (by decide +kernel)
  have hy : braid.Region braidPlan (.named "y") := (hregion _).1 (by decide +kernel)
  have hxy : .named "y" ∈ braid.childrenOf (.named "x") := by decide +kernel
  have hyx : .named "x" ∈ braid.childrenOf (.named "y") := by decide +kernel
  obtain ⟨last, heq, hbelow⟩ := hlast ⟨_, .tail (.single ⟨hx, hy, hxy⟩) ⟨hy, hx, hyx⟩⟩
  rw [hstrata] at heq
  obtain rfl : [.named "x", .named "y", .named "z"] = last := Option.some.inj heq
  have hc : ¬ BelowCycle (braid.RegionStep braidPlan) (.named "c") := by
    rw [← hbelow]
    decide
  obtain ⟨hdepth, hpredecessors⟩ := (hvisits _ hvisit).2 hc
  exact ⟨grown_braid, by decide, hunhalted, hstrata, hbelow, hdepth, hpredecessors (by decide)⟩

end Taxonomy.Hierarchy
