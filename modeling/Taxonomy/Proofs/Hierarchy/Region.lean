import Taxonomy.Proofs.Hierarchy.Closure
import Taxonomy.Proofs.Walk.Layers

/-!
# What a walk is to visit

A plan lets a walk *enter* the members that are neither ignored nor visited already. The walk's
*region* are the types of its start that it may enter, and what steps between such types lead to;
the region with these steps is the graph that the walk sees. If nothing is left out, the region is
what paths lead to (`Mirrored.region_whole_iff`).

`mem_order_explore_seeds` says that the breadth-first walk from the seeds visits the region. A
stratified walk makes layers of the same types, so the edges that count for it are the steps within
the region (`among_successors`).
-/

open Relation

namespace Taxonomy

/-- A plan that leaves it to the direction where to begin, and leaves nothing out. -/
structure Plan.Whole (plan : Plan) : Prop where
  start_eq : plan.start = none
  ignored_eq : plan.ignored = ∅
  visited_eq : plan.visited = ∅

namespace Hierarchy

open Walk

variable {h : Hierarchy} {plan : Plan} {a b t : Ty}

/-- A walk may visit the type. -/
def Enters (h : Hierarchy) (plan : Plan) (t : Ty) : Prop :=
  h.hasType t ∧ t ∉ plan.ignored ∧ t ∉ plan.visited

/-- Where a walk begins, by its plan or else by its direction. -/
def starts (h : Hierarchy) (plan : Plan) : List Ty :=
  plan.start.getD (h.defaultStart plan.direction)

/-- The types that a walk is to visit. -/
inductive Region (h : Hierarchy) (plan : Plan) : Ty → Prop
  | seed {t : Ty} (hstart : t ∈ h.starts plan) (ht : h.Enters plan t) : Region h plan t
  | step {a b : Ty} (ha : Region h plan a) (hab : h.Step plan.direction a b)
      (hb : h.Enters plan b) : Region h plan b

/-- A step between types that a walk is to visit. -/
def RegionStep (h : Hierarchy) (plan : Plan) (a b : Ty) : Prop :=
  h.Region plan a ∧ h.Region plan b ∧ h.Step plan.direction a b

theorem Region.enters (ht : h.Region plan t) : h.Enters plan t := by
  cases ht with
  | seed _ ht => exact ht
  | step _ _ ht => exact ht

theorem Mirrored.region_iff_admitted (hm : h.Mirrored) : h.Region plan t ↔
    Admitted (h.successors plan) plan.visited (h.seeds plan (h.starts plan)) t := by
  constructor
  · intro ht
    induction ht with
    | seed hstart ht => exact ⟨_, mem_seeds.2 ⟨hstart, ht⟩, .refl⟩
    | step _ hab hb ih =>
      obtain ⟨s, hs, hpath⟩ := ih
      exact ⟨s, hs, hpath.tail ⟨mem_successors.2 ⟨hab, hb.2.1⟩, hb.2.2⟩⟩
  · rintro ⟨s, hs, hpath⟩
    induction hpath with
    | refl =>
      obtain ⟨hstart, hs⟩ := mem_seeds.1 hs
      exact .seed hstart hs
    | tail _ hlast ih =>
      obtain ⟨hstep, hignored⟩ := mem_successors.1 hlast.1
      exact ih.step hstep ⟨(hm.hasType_of_step hstep).2, hignored, hlast.2⟩

/-- The region of a whole walk is what paths lead to from the members of its start. -/
theorem Mirrored.region_whole_iff (hm : h.Mirrored) (hplan : plan.Whole) : h.Region plan t ↔
    ∃ s ∈ h.defaultStart plan.direction, h.hasType s ∧
      ReflTransGen (h.Step plan.direction) s t := by
  have hstarts : h.starts plan = h.defaultStart plan.direction := by
    rw [starts, hplan.start_eq, Option.getD_none]
  have henters : ∀ u, h.hasType u → h.Enters plan u := fun u hu ↦
    ⟨hu, hplan.ignored_eq ▸ FinSet.not_mem_empty u, hplan.visited_eq ▸ FinSet.not_mem_empty u⟩
  rw [← hstarts]
  constructor
  · intro ht
    induction ht with
    | seed hstart ht => exact ⟨_, hstart, ht.1, .refl⟩
    | step _ hstep _ ih =>
      obtain ⟨s, hstart, hs, hpath⟩ := ih
      exact ⟨s, hstart, hs, hpath.tail hstep⟩
  · rintro ⟨s, hstart, hs, hpath⟩
    induction hpath with
    | refl => exact .seed hstart (henters s hs)
    | tail _ hstep ih => exact ih.step hstep (henters _ (hm.hasType_of_step hstep).2)

/-- The breadth-first walk visits its region. -/
theorem mem_order_explore_seeds (hm : h.Mirrored) :
    t ∈ (h.explore plan Visitor.never (h.seeds plan (h.starts plan))).order ↔
      h.Region plan t := by
  rw [mem_order_explore hm nodup_seeds hasType_of_mem_seeds, hm.region_iff_admitted]

/-- A breadth-first walk that is not halted goes on until it has visited its region, with what its
steps keep, and asks its visitor at each visit. -/
theorem Mirrored.exists_finish_walk {ρ : Type} {visitor : Visitor ρ}
    {P : List (Ty × Nat) → Progress → Prop} (hm : h.Mirrored) (hplan : plan.stratify = false)
    (hinitial : P ((h.seeds plan (h.starts plan)).map (·, 0))
      ⟨[], plan.visited.insertAll (h.seeds plan (h.starts plan)), ∅⟩)
    (hstep : ∀ t depth rest progress,
      Underway (h.successors plan) plan.visited (h.seeds plan (h.starts plan))
        (t :: rest.map Prod.fst) progress →
      P ((t, depth) :: rest) progress →
      P (rest ++ progress.found (h.successors plan) t depth)
        (progress.next plan.track (h.successors plan) t depth))
    (hunhalted : (h.walk plan visitor).halted = false) :
    ∃ last : Progress, P [] last ∧ h.walk plan visitor = last.finish none [] ∧
      (last.past.map Visit.type).Nodup ∧ (h.walk plan visitor).order.Nodup ∧
      (∀ t, t ∈ (h.walk plan visitor).order ↔ h.Region plan t) ∧
      visitor.firstAnswer? [] (h.walk plan visitor).visits = none := by
  have hexplore : h.walk plan visitor = h.explore plan visitor (h.seeds plan (h.starts plan)) :=
    if_neg (Bool.not_eq_true _ ▸ hplan)
  rw [hexplore] at hunhalted ⊢
  obtain ⟨last, hlast, hP, heq, hasked⟩ :=
    hm.exists_finish_explore nodup_seeds hasType_of_mem_seeds hinitial hstep hunhalted
  rw [heq] at hasked ⊢
  refine ⟨last, hP, rfl, hlast.nodup_past, hlast.nodup_order none [], fun t ↦ ?_, hasked⟩
  rw [mem_order_finish, hlast.mem_past_iff, hm.region_iff_admitted]

/-- The edges of a walk among the types of its region are the steps within the region. -/
theorem among_successors {types : FinSet Ty} (htypes : ∀ t, t ∈ types ↔ h.Region plan t) :
    Among (h.successors plan) {t | t ∈ types} = h.RegionStep plan := by
  funext a b
  refine propext (and_congr (htypes a) ((and_congr_left' (htypes b)).trans
    (and_congr_right fun hb ↦ ?_)))
  rw [mem_successors]
  exact and_iff_left hb.enters.2.1

end Hierarchy

end Taxonomy
