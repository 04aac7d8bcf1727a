import Taxonomy.Proofs.Hierarchy.Strata
import Taxonomy.Proofs.Walk.Distance

/-!
# Breadth-first walks of a hierarchy

A breadth-first walk of a grown hierarchy that is not halted visits its region, each type once and
at its distance from the types where the walk begins, the nearest first
(`Grown.visits_nearest_first`). Cycles make no difference.

The walk itself knows seeds and successors; what is shown here is that its paths are the paths of
the region (`Mirrored.pathFrom_iff`).
-/

namespace Taxonomy.Hierarchy

open Walk

variable {ρ : Type} {h : Hierarchy} {plan : Plan} {visitor : Visitor ρ} {n : Nat} {t : Ty}

/-- A walk begins at the type: it is one of the start that the walk may enter. -/
def Begins (h : Hierarchy) (plan : Plan) (t : Ty) : Prop :=
  t ∈ h.starts plan ∧ h.Enters plan t

/-- A path from a seed that avoids what was visited before is a path within the region. -/
theorem Mirrored.pathFrom_iff (hm : h.Mirrored) :
    PathFrom (· ∈ h.seeds plan (h.starts plan)) (Free (h.successors plan) plan.visited) n t ↔
      PathFrom (h.Begins plan) (h.RegionStep plan) n t := by
  constructor
  · intro hpath
    -- its end is in the region, so the next step is one within the region
    suffices PathFrom (h.Begins plan) (h.RegionStep plan) n t ∧ h.Region plan t from this.1
    induction hpath with
    | here hs =>
      have hbegins := mem_seeds.1 hs
      exact ⟨.here hbegins, .seed hbegins.1 hbegins.2⟩
    | tail _ edge ih =>
      obtain ⟨hpath, hregion⟩ := ih
      obtain ⟨hstep, hignored⟩ := mem_successors.1 edge.1
      have hnext := hregion.step hstep ⟨(hm.hasType_of_step hstep).2, hignored, edge.2⟩
      exact ⟨hpath.tail ⟨hregion, hnext, hstep⟩, hnext⟩
  · intro hpath
    induction hpath with
    | here ht => exact .here (mem_seeds.2 ht)
    | tail _ edge ih =>
      obtain ⟨-, hregion, hstep⟩ := edge
      obtain ⟨-, hignored, hvisited⟩ := hregion.enters
      exact ih.tail ⟨mem_successors.2 ⟨hstep, hignored⟩, hvisited⟩

/-- **A breadth-first walk visits the nearest first.** If it is not halted, it visits the types of
its region once each, and the visitor is asked at each visit. The depth of a visit is the length of
a shortest path to the type, within the region, from a type where the walk begins. Depths never go
down. -/
theorem Grown.visits_nearest_first (hg : h.Grown) (hplan : plan.stratify = false)
    (hunhalted : (h.walk plan visitor).halted = false) :
    (h.walk plan visitor).order.Nodup ∧
    (∀ t, t ∈ (h.walk plan visitor).order ↔ h.Region plan t) ∧
    visitor.firstAnswer? [] (h.walk plan visitor).visits = none ∧
    (∀ now ∈ (h.walk plan visitor).visits,
      IsLeast {n | PathFrom (h.Begins plan) (h.RegionStep plan) n now.type} now.depth) ∧
    (h.walk plan visitor).visits.Pairwise fun now later ↦ now.depth ≤ later.depth := by
  have hm : h.Mirrored := hg.wellFormed.mirrored
  obtain ⟨last, hnearest, heq, hpast, hnodup, hmem, hasked⟩ := hm.exists_finish_walk hplan
    (Nearest.initial (h.successors plan) plan.visited _) (fun _ _ _ _ hu hn ↦ hn.step hu) hunhalted
  refine ⟨hnodup, hmem, hasked, fun now hnow ↦ ?_, heq ▸ hnearest.pairwise_depth⟩
  rw [heq, Progress.finish, List.mem_reverse] at hnow
  have hleast := hnearest.isLeast_depth hpast hnow
  simp only [hm.pathFrom_iff] at hleast
  exact hleast

/-- Two seeds, one of them below the other, and a cycle: `x` is one step from `c`, though three from
`a`. -/
theorem visits_nearest_first_braid :
    braid.Grown ∧ { braidPlan with stratify := false }.stratify = false ∧
    (braid.walk { braidPlan with stratify := false } Visitor.never).halted = false ∧
    (braid.walk { braidPlan with stratify := false } Visitor.never).visits.map
        (fun now ↦ (now.type, now.depth)) =
      [(.named "c", 0), (.named "a", 0), (.named "x", 1), (.named "b", 1), (.named "y", 2),
        (.named "z", 2)] ∧
    IsLeast {n | PathFrom (braid.Begins { braidPlan with stratify := false })
      (braid.RegionStep { braidPlan with stratify := false }) n (.named "y")} 2 := by
  have hunhalted : (braid.walk { braidPlan with stratify := false } Visitor.never).halted =
      false := by decide +kernel
  have hvisit : ⟨.named "y", 2, some (FinSet.ofList [.named "x"])⟩ ∈
      (braid.walk { braidPlan with stratify := false } Visitor.never).visits := by
    decide +kernel
  obtain ⟨-, -, -, hleast, -⟩ := grown_braid.visits_nearest_first rfl hunhalted
  exact ⟨grown_braid, rfl, hunhalted, by decide +kernel, hleast _ hvisit⟩

end Taxonomy.Hierarchy
